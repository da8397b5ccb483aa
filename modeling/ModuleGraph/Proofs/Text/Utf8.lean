import ModuleGraph.Text.Utf8

/-!
Cutting bytes into characters, and putting characters together again.

* `encodeKeeping_decodeKeeping`: reading bytes and keeping the stray ones loses nothing;
* `pieces_append_ascii`: an ASCII byte stands for itself wherever it is;
* `pieces_encodeChar`: the bytes of a character are cut into that character;
* `view`: what is read, stray bytes replaced, of a text that was written with stray bytes kept.
-/

namespace ModuleGraph
namespace Utf8

/-- All that can be under way after a first byte and those that continue it. The bounds keep out
what could be written shorter, surrogates, and what lies beyond the last character. -/
inductive Shape : Partial → Prop
  | two {a : UInt8} {bits : Nat} : 0xC2 ≤ a.toNat → a.toNat ≤ 0xDF → bits = a.toNat - 0xC0 →
      Shape ⟨[a], 1, 0x80, 0xBF, bits⟩
  | three {a low high : UInt8} {bits : Nat} : 0xE0 ≤ a.toNat → a.toNat ≤ 0xEF →
      0x80 ≤ low.toNat → high.toNat ≤ 0xBF → (a.toNat = 0xE0 → low.toNat = 0xA0) →
      (a.toNat = 0xED → high.toNat = 0x9F) → bits = a.toNat - 0xE0 →
      Shape ⟨[a], 2, low, high, bits⟩
  | threeMore {a b : UInt8} {bits : Nat} : 0xE0 ≤ a.toNat → a.toNat ≤ 0xEF →
      0x80 ≤ b.toNat → b.toNat ≤ 0xBF → (a.toNat = 0xE0 → 0xA0 ≤ b.toNat) →
      (a.toNat = 0xED → b.toNat ≤ 0x9F) →
      bits = (a.toNat - 0xE0) * 64 + (b.toNat - 0x80) → Shape ⟨[a, b], 1, 0x80, 0xBF, bits⟩
  | four {a low high : UInt8} {bits : Nat} : 0xF0 ≤ a.toNat → a.toNat ≤ 0xF4 →
      0x80 ≤ low.toNat → high.toNat ≤ 0xBF → (a.toNat = 0xF0 → low.toNat = 0x90) →
      (a.toNat = 0xF4 → high.toNat = 0x8F) → bits = a.toNat - 0xF0 →
      Shape ⟨[a], 3, low, high, bits⟩
  | fourMore {a b : UInt8} {bits : Nat} : 0xF0 ≤ a.toNat → a.toNat ≤ 0xF4 →
      0x80 ≤ b.toNat → b.toNat ≤ 0xBF → (a.toNat = 0xF0 → 0x90 ≤ b.toNat) →
      (a.toNat = 0xF4 → b.toNat ≤ 0x8F) →
      bits = (a.toNat - 0xF0) * 64 + (b.toNat - 0x80) → Shape ⟨[a, b], 2, 0x80, 0xBF, bits⟩
  | fourMost {a b c : UInt8} {bits : Nat} : 0xF0 ≤ a.toNat → a.toNat ≤ 0xF4 →
      0x80 ≤ b.toNat → b.toNat ≤ 0xBF → (a.toNat = 0xF0 → 0x90 ≤ b.toNat) →
      (a.toNat = 0xF4 → b.toNat ≤ 0x8F) → 0x80 ≤ c.toNat → c.toNat ≤ 0xBF →
      bits = ((a.toNat - 0xF0) * 64 + (b.toNat - 0x80)) * 64 + (c.toNat - 0x80) →
      Shape ⟨[a, b, c], 1, 0x80, 0xBF, bits⟩

theorem le_iff {a b : UInt8} : a ≤ b ↔ a.toNat ≤ b.toNat := UInt8.le_iff_toNat_le

theorem lt_iff {a b : UInt8} : a < b ↔ a.toNat < b.toNat := UInt8.lt_iff_toNat_lt

theorem eq_iff {a b : UInt8} : a = b ↔ a.toNat = b.toNat := UInt8.toNat_inj.symm

theorem shape_first {b : UInt8} {p : Partial} (h : first b = .inr p) : Shape p := by
  unfold first at h
  simp only [lt_iff, le_iff, eq_iff, UInt8.reduceToNat] at h
  split at h
  · cases h
  split at h
  · cases h
    exact .two (by omega) (by omega) rfl
  split at h
  · cases h
    exact .three (by omega) (by omega) (by decide) (by decide) (fun _ => rfl) (by omega) (by omega)
  split at h
  · cases h
    exact .three (by omega) (by omega) (by decide) (by decide) (by omega) (fun _ => rfl) (by omega)
  split at h
  · cases h
    exact .three (by omega) (by omega) (by decide) (by decide) (by omega) (by omega) rfl
  split at h
  · cases h
    exact .four (by omega) (by omega) (by decide) (by decide) (fun _ => rfl) (by omega) (by omega)
  split at h
  · cases h
    exact .four (by omega) (by omega) (by decide) (by decide) (by omega) (by omega) rfl
  split at h
  · cases h
    exact .four (by omega) (by omega) (by decide) (by decide) (by omega) (fun _ => rfl) (by omega)
  · cases h

theorem first_held {b : UInt8} {p : Partial} (h : first b = .inr p) : p.held = [b] := by
  unfold first at h
  simp only at h
  repeat' split at h
  all_goals cases h
  all_goals rfl

/-- A first byte that is complete is an ASCII character; otherwise it is a stray one. -/
theorem first_inl {b : UInt8} {piece : Piece} (h : first b = .inl piece) :
    b.toNat < 0x80 ∧ piece = .char (Char.ofNat b.toNat) ∨
      0x80 ≤ b.toNat ∧ piece = .stray [b] := by
  unfold first at h
  simp only [lt_iff, le_iff, eq_iff, UInt8.reduceToNat] at h
  split at h
  · cases h
    exact Or.inl ⟨by assumption, rfl⟩
  · split at h
    · cases h
    split at h
    · cases h
    split at h
    · cases h
    split at h
    · cases h
    split at h
    · cases h
    split at h
    · cases h
    split at h
    · cases h
    · cases h
      exact Or.inr ⟨by omega, rfl⟩

theorem Shape.next {p : Partial} (h : Shape p) {b : UInt8} (hl : p.low ≤ b) (hh : b ≤ p.high)
    (ho : p.owed ≠ 1) :
    Shape ⟨p.held ++ [b], p.owed - 1, 0x80, 0xBF, p.bits * 64 + (b.toNat - 0x80)⟩ := by
  rw [le_iff] at hl hh
  cases h with
  | two => exact absurd rfl ho
  | three h1 h2 h3 h4 h5 h6 h7 =>
    dsimp only at hl hh ⊢
    exact .threeMore h1 h2 (by omega) (by omega) (by omega) (by omega) (by rw [h7])
  | threeMore => exact absurd rfl ho
  | four h1 h2 h3 h4 h5 h6 h7 =>
    dsimp only at hl hh ⊢
    exact .fourMore h1 h2 (by omega) (by omega) (by omega) (by omega) (by rw [h7])
  | fourMore h1 h2 h3 h4 h5 h6 h7 =>
    exact .fourMost h1 h2 h3 h4 h5 h6 hl hh (by rw [h7])
  | fourMost => exact absurd rfl ho

theorem Shape.low_le {p : Partial} (h : Shape p) : 0x80 ≤ p.low.toNat := by
  cases h <;> first | assumption | exact Nat.le_refl 128

theorem Shape.held_le {p : Partial} (h : Shape p) : ∀ b ∈ p.held, 0x80 ≤ b.toNat := by
  cases h <;> simp only [List.forall_mem_cons, List.not_mem_nil, false_implies, implies_true,
    and_true] <;> omega

theorem toNat_ofNat {n : Nat} (h : n.isValidChar) : (Char.ofNat n).val.toNat = n := by
  rw [Char.ofNat, dif_pos h]
  rfl

theorem ofNat_eq {n : Nat} {b : UInt8} (h : n = b.toNat) : UInt8.ofNat n = b := by
  rw [h]
  exact UInt8.ofNat_toNat

/-- The last byte of a character completes the bytes of that character. -/
theorem Shape.encodeChar {p : Partial} (h : Shape p) {b : UInt8} (hl : p.low ≤ b)
    (hh : b ≤ p.high) (ho : p.owed = 1) :
    String.utf8EncodeChar (Char.ofNat (p.bits * 64 + (b.toNat - 0x80))) = p.held ++ [b] := by
  rw [le_iff] at hl hh
  cases h with
  | three => cases ho
  | four => cases ho
  | fourMore => cases ho
  | @two a bits h1 h2 h3 =>
    simp only [UInt8.reduceToNat] at hl hh ⊢
    have hv := toNat_ofNat (n := bits * 64 + (b.toNat - 128)) (Or.inl (by omega))
    rw [String.utf8EncodeChar, hv, if_neg (by omega), if_pos (by omega)]
    rw [ofNat_eq (b := a) (by omega), ofNat_eq (b := b) (by omega)]
    rfl
  | @threeMore a c bits h1 h2 h3 h4 h5 h6 h7 =>
    simp only [UInt8.reduceToNat] at hl hh ⊢
    have hv := toNat_ofNat (n := bits * 64 + (b.toNat - 128)) (by rw [Nat.isValidChar]; omega)
    rw [String.utf8EncodeChar, hv, if_neg (by omega), if_neg (by omega), if_pos (by omega)]
    rw [ofNat_eq (b := a) (by omega), ofNat_eq (b := c) (by omega), ofNat_eq (b := b) (by omega)]
    rfl
  | @fourMost a c d bits h1 h2 h3 h4 h5 h6 h7 h8 h9 =>
    simp only [UInt8.reduceToNat] at hl hh ⊢
    have hv := toNat_ofNat (n := bits * 64 + (b.toNat - 128)) (by rw [Nat.isValidChar]; omega)
    rw [String.utf8EncodeChar, hv, if_neg (by omega), if_neg (by omega), if_neg (by omega)]
    rw [ofNat_eq (b := a) (by omega), ofNat_eq (b := c) (by omega), ofNat_eq (b := d) (by omega),
      ofNat_eq (b := b) (by omega)]
    rfl

theorem encodeChar_ascii {b : UInt8} (h : b.toNat < 0x80) :
    String.utf8EncodeChar (Char.ofNat b.toNat) = [b] := by
  have hv := toNat_ofNat (n := b.toNat) (Or.inl (by omega))
  rw [String.utf8EncodeChar, hv, if_pos (by omega), ofNat_eq rfl]

/-- The bytes that a piece is made of. -/
def Piece.bytes : Piece → Bytes
  | .char c => String.utf8EncodeChar c
  | .stray bs => bs

/-- The bytes of the character under way. -/
def State.held (s : State) : Bytes := (s.open?.map (·.held)).getD []

/-- The pieces so far and what is under way make up the bytes read. -/
structure Sound (s : State) (read : Bytes) : Prop where
  bytes_eq : s.pieces.reverse.flatMap Piece.bytes ++ s.held = read
  shape : ∀ p, s.open? = some p → Shape p
  stray : ∀ bs, .stray bs ∈ s.pieces → ∀ b ∈ bs, 0x80 ≤ b.toNat

theorem sound_openAt {ps : List Piece} {read : Bytes} (h : Sound ⟨ps, none⟩ read) (b : UInt8) :
    Sound (openAt ps b) (read ++ [b]) := by
  have hread : ps.reverse.flatMap Piece.bytes = read := by simpa [State.held] using h.bytes_eq
  unfold openAt
  split
  · rename_i piece hf
    rcases first_inl hf with ⟨hb, rfl⟩ | ⟨hb, rfl⟩
    · refine ⟨?_, by simp, fun bs hbs => h.stray bs (by simpa using hbs)⟩
      simp [State.held, Piece.bytes, hread, encodeChar_ascii hb]
    · refine ⟨by simp [State.held, Piece.bytes, hread], by simp, fun bs hbs => ?_⟩
      rcases List.mem_cons.mp hbs with heq | hbs
      · cases heq
        simpa using hb
      · exact h.stray bs hbs
  · rename_i p hf
    have hp := shape_first hf
    have hheld : p.held = [b] := first_held hf
    refine ⟨by simp [State.held, hread, hheld], ?_, h.stray⟩
    intro q hq
    cases hq
    exact hp

/-- Reading one byte. -/
theorem sound_step {s : State} {read : Bytes} (h : Sound s read) (b : UInt8) :
    Sound (step s b) (read ++ [b]) := by
  obtain ⟨ps, o⟩ := s
  cases o with
  | none => exact sound_openAt h b
  | some p =>
    have hp := h.shape p rfl
    have hread : ps.reverse.flatMap Piece.bytes ++ p.held = read := h.bytes_eq
    simp only [step]
    split
    · rename_i hb
      split
      · rename_i ho
        refine ⟨?_, by simp, fun bs hbs => h.stray bs (by simpa using hbs)⟩
        simp [State.held, Piece.bytes, hp.encodeChar hb.1 hb.2 ho, ← hread]
      · rename_i ho
        refine ⟨by simp [State.held, ← hread], ?_, h.stray⟩
        intro q hq
        cases hq
        exact hp.next hb.1 hb.2 ho
    · refine sound_openAt ⟨by simp [State.held, Piece.bytes, hread], by simp, fun bs hbs => ?_⟩ b
      rcases List.mem_cons.mp hbs with heq | hbs
      · cases heq
        exact hp.held_le
      · exact h.stray bs hbs

theorem sound_foldl {s : State} {read : Bytes} (h : Sound s read) (bytes : Bytes) :
    Sound (bytes.foldl step s) (read ++ bytes) := by
  induction bytes generalizing s read with
  | nil => simpa using h
  | cons b bytes ih => simpa using ih (sound_step h b)

theorem sound_start (bytes : Bytes) : Sound (bytes.foldl step ⟨[], none⟩) bytes :=
  sound_foldl ⟨rfl, by simp, by simp⟩ bytes

/-- The pieces of a state when nothing more comes. -/
def State.finish (s : State) : List Piece :=
  match s.open? with
  | none => s.pieces.reverse
  | some p => (.stray p.held :: s.pieces).reverse

theorem pieces_eq (bytes : Bytes) : pieces bytes = (bytes.foldl step ⟨[], none⟩).finish := rfl

theorem length_finish (s : State) :
    s.finish.length = s.pieces.length + s.open?.toList.length := by
  unfold State.finish
  split <;> rename_i ho <;> simp [ho]

/-- A byte is part of one piece more at most. -/
theorem length_finish_step (s : State) (b : UInt8) :
    (step s b).finish.length ≤ s.finish.length + 1 := by
  have hopen : ∀ ps : List Piece, (openAt ps b).finish.length = ps.length + 1 := by
    intro ps
    rw [length_finish]
    unfold openAt
    split <;> rfl
  rw [length_finish s]
  unfold step
  cases s.open? with
  | none => exact Nat.le_of_eq (hopen s.pieces)
  | some p =>
    dsimp only
    split
    · rw [length_finish]
      split <;> simp
    · exact Nat.le_of_eq (hopen (.stray p.held :: s.pieces))

/-- There are no more pieces than bytes. -/
theorem length_pieces_le (bytes : Bytes) : (pieces bytes).length ≤ bytes.length := by
  suffices h : ∀ s : State, (bytes.foldl step s).finish.length ≤ s.finish.length + bytes.length by
    have hstart := h ⟨[], none⟩
    rwa [length_finish ⟨[], none⟩, ← pieces_eq, List.length_nil, Option.toList_none,
      List.length_nil, Nat.zero_add] at hstart
  induction bytes with
  | nil => exact fun s => Nat.le_refl _
  | cons b bytes ih =>
    intro s
    have hstep := length_finish_step s b
    have hrest := ih (step s b)
    rw [List.foldl_cons, List.length_cons]
    omega

/-- The pieces make up the bytes. -/
theorem flatMap_pieces (bytes : Bytes) : (pieces bytes).flatMap Piece.bytes = bytes := by
  have h := (sound_start bytes).bytes_eq
  rw [pieces_eq]
  unfold State.finish
  unfold State.held at h
  split
  · rename_i ho
    simpa [ho] using h
  · rename_i p ho
    simpa [ho, Piece.bytes] using h

/-- No stray byte is an ASCII one. -/
theorem stray_pieces {bytes bs : Bytes} (h : .stray bs ∈ pieces bytes) :
    ∀ b ∈ bs, 0x80 ≤ b.toNat := by
  have hs := sound_start bytes
  rw [pieces_eq] at h
  unfold State.finish at h
  split at h
  · exact hs.stray bs (List.mem_reverse.mp h)
  · rename_i p ho
    rcases List.mem_cons.mp (List.mem_reverse.mp h) with heq | h
    · cases heq
      exact (hs.shape p ho).held_le
    · exact hs.stray bs h

theorem isStandIn_iff {c : Char} : isStandIn c = true ↔ 0x10FF80 ≤ c.val.toNat :=
  decide_eq_true_iff

theorem encode_standIn {b : UInt8} (h : 0x80 ≤ b.toNat) :
    isStandIn (standIn b) = true ∧ UInt8.ofNat ((standIn b).toNat - standInBase) = b := by
  have hb := b.toNat_lt
  have hv : (standIn b).toNat = standInBase + b.toNat :=
    toNat_ofNat (Or.inr ⟨by simp only [standInBase]; omega, by simp only [standInBase]; omega⟩)
  refine ⟨?_, ofNat_eq (by omega)⟩
  rw [isStandIn, hv, decide_eq_true_eq]
  omega

theorem encodeKeeping_map_standIn {bs : Bytes} (h : ∀ b ∈ bs, 0x80 ≤ b.toNat) :
    encodeKeeping (bs.map standIn) = bs := by
  induction bs with
  | nil => rfl
  | cons b bs ih =>
    obtain ⟨h1, h2⟩ := encode_standIn (h b List.mem_cons_self)
    have hbs := ih fun c hc => h c (List.mem_cons_of_mem _ hc)
    simp only [encodeKeeping, List.map_cons, List.flatMap_cons, h1, if_true, h2] at hbs ⊢
    rw [hbs]
    rfl

/-- The bytes of a character beyond ASCII are none of ASCII. -/
theorem le_of_mem_encodeChar {c : Char} (hc : 0x80 ≤ c.val.toNat) {b : UInt8}
    (hb : b ∈ String.utf8EncodeChar c) : 0x80 ≤ b.toNat := by
  have hlt : c.val.toNat < 0x110000 := by
    rcases c.valid with hv | ⟨-, hv⟩
    · exact Nat.lt_trans hv (by decide)
    · exact hv
  rw [String.utf8EncodeChar, if_neg (by omega)] at hb
  split at hb
  · simp only [List.mem_cons, List.not_mem_nil, or_false] at hb
    rcases hb with rfl | rfl <;> rw [UInt8.toNat_ofNat'] <;> omega
  · split at hb
    · simp only [List.mem_cons, List.not_mem_nil, or_false] at hb
      rcases hb with rfl | rfl | rfl <;> rw [UInt8.toNat_ofNat'] <;> omega
    · simp only [List.mem_cons, List.not_mem_nil, or_false] at hb
      rcases hb with rfl | rfl | rfl | rfl <;> rw [UInt8.toNat_ofNat'] <;> omega

/-- What is read of a piece when stray bytes are kept. -/
def Piece.kept : Piece → Text
  | .char c => if isStandIn c then (String.utf8EncodeChar c).map standIn else [c]
  | .stray bs => bs.map standIn

theorem decodeKeeping_eq (bytes : Bytes) :
    decodeKeeping bytes = (pieces bytes).flatMap Piece.kept := by
  rw [decodeKeeping]
  congr 1

theorem encodeKeeping_kept {piece : Piece}
    (h : ∀ bs, piece = .stray bs → ∀ b ∈ bs, 0x80 ≤ b.toNat) :
    encodeKeeping piece.kept = piece.bytes := by
  cases piece with
  | char c =>
    by_cases hc : isStandIn c = true
    · rw [Piece.kept, if_pos hc, Piece.bytes]
      refine encodeKeeping_map_standIn fun b hb => le_of_mem_encodeChar ?_ hb
      have := isStandIn_iff.mp hc
      omega
    · simp [Piece.kept, hc, encodeKeeping, Piece.bytes]
  | stray bs => exact encodeKeeping_map_standIn (h bs rfl)

theorem encodeKeeping_append (s t : Text) :
    encodeKeeping (s ++ t) = encodeKeeping s ++ encodeKeeping t := List.flatMap_append

/-- Reading bytes and keeping the stray ones loses nothing. -/
theorem encodeKeeping_decodeKeeping (bytes : Bytes) :
    encodeKeeping (decodeKeeping bytes) = bytes := by
  have hpieces : ∀ ps : List Piece, (∀ bs, .stray bs ∈ ps → ∀ b ∈ bs, 0x80 ≤ b.toNat) →
      encodeKeeping (ps.flatMap Piece.kept) = ps.flatMap Piece.bytes := by
    intro ps hs
    induction ps with
    | nil => rfl
    | cons piece ps ih =>
      rw [List.flatMap_cons, encodeKeeping_append, List.flatMap_cons,
        ih fun bs hbs => hs bs (List.mem_cons_of_mem _ hbs),
        encodeKeeping_kept fun bs heq => hs bs (heq ▸ List.mem_cons_self)]
  rw [decodeKeeping_eq, hpieces _ fun bs hbs => stray_pieces hbs, flatMap_pieces]

theorem length_le_length_encodeKeeping (t : Text) : t.length ≤ (encodeKeeping t).length := by
  induction t with
  | nil => exact Nat.le_refl _
  | cons c t ih =>
    have hone : 1 ≤ (encodeKeeping [c]).length := by
      rw [encodeKeeping, List.flatMap_singleton]
      split
      · exact Nat.le_refl 1
      · exact String.length_utf8EncodeChar c ▸ c.utf8Size_pos
    have happend := congrArg List.length (encodeKeeping_append [c] t)
    rw [List.length_append] at happend
    rw [← List.singleton_append, happend, List.length_append, List.length_singleton]
    omega

/-- A text has no more characters than the bytes that it is read from. -/
theorem length_decodeKeeping_le (bytes : Bytes) : (decodeKeeping bytes).length ≤ bytes.length := by
  have h := length_le_length_encodeKeeping (decodeKeeping bytes)
  rwa [encodeKeeping_decodeKeeping] at h

/-- What was cut before stays as it is. -/
theorem foldl_step_frame (bytes : Bytes) (s : State) (front : List Piece) :
    bytes.foldl step ⟨s.pieces ++ front, s.open?⟩ =
      ⟨(bytes.foldl step s).pieces ++ front, (bytes.foldl step s).open?⟩ := by
  induction bytes generalizing s with
  | nil => rfl
  | cons b bytes ih =>
    have hopen : ∀ ps : List Piece, openAt (ps ++ front) b =
        ⟨(openAt ps b).pieces ++ front, (openAt ps b).open?⟩ := by
      intro ps
      unfold openAt
      split <;> rfl
    have hstep : step ⟨s.pieces ++ front, s.open?⟩ b =
        ⟨(step s b).pieces ++ front, (step s b).open?⟩ := by
      obtain ⟨ps, o⟩ := s
      cases o with
      | none => exact hopen ps
      | some p =>
        simp only [step]
        split
        · split <;> rfl
        · exact hopen (.stray p.held :: ps)
    rw [List.foldl_cons, List.foldl_cons, hstep, ih]

/-- Bytes after complete pieces are cut as if they were alone. -/
theorem finish_foldl_step (bytes : Bytes) (front : List Piece) :
    (bytes.foldl step ⟨front, none⟩).finish = front.reverse ++ pieces bytes := by
  have h := foldl_step_frame bytes ⟨[], none⟩ front
  rw [List.nil_append] at h
  rw [h, pieces_eq]
  unfold State.finish
  dsimp only
  split <;> simp

/-- An ASCII byte is a character of its own, wherever it stands. -/
theorem pieces_append_ascii (xs ys : Bytes) {b : UInt8} (hb : b.toNat < 0x80) :
    pieces (xs ++ b :: ys) = pieces xs ++ .char (Char.ofNat b.toNat) :: pieces ys := by
  have hopen : ∀ ps : List Piece, openAt ps b = ⟨.char (Char.ofNat b.toNat) :: ps, none⟩ := by
    intro ps
    have hf : first b = .inl (.char (Char.ofNat b.toNat)) :=
      if_pos (lt_iff.mpr (by simpa using hb))
    rw [openAt, hf]
  have hs := sound_start xs
  rw [pieces_eq, List.foldl_append, List.foldl_cons, pieces_eq xs]
  generalize xs.foldl step ⟨[], none⟩ = s at hs ⊢
  obtain ⟨ps, o⟩ := s
  have hstep : step ⟨ps, o⟩ b = ⟨.char (Char.ofNat b.toNat) :: (State.finish ⟨ps, o⟩).reverse,
      none⟩ := by
    cases o with
    | none => simp [step, hopen, State.finish]
    | some p =>
      have hlow := (hs.shape p rfl).low_le
      have hnot : ¬(p.low ≤ b ∧ b ≤ p.high) := by
        rw [le_iff]
        omega
      simp [step, hnot, hopen, State.finish]
  rw [hstep, finish_foldl_step]
  simp

/-- The first of three bytes, and the bytes that may come second. -/
theorem first_three {a : UInt8} (h1 : 0xE0 ≤ a.toNat) (h2 : a.toNat ≤ 0xEF) :
    ∃ low high, first a = .inr ⟨[a], 2, low, high, a.toNat - 0xE0⟩ ∧
      ∀ b : UInt8, 0x80 ≤ b.toNat → b.toNat ≤ 0xBF → (a.toNat = 0xE0 → 0xA0 ≤ b.toNat) →
        (a.toNat = 0xED → b.toNat ≤ 0x9F) → low ≤ b ∧ b ≤ high := by
  unfold first
  simp only [lt_iff, le_iff, eq_iff, UInt8.reduceToNat]
  rw [if_neg (by omega), if_neg (by omega)]
  by_cases he : a.toNat = 224
  · rw [if_pos he]
    refine ⟨0xA0, 0xBF, by rw [he], fun b h3 h4 h5 h6 => ?_⟩
    exact ⟨h5 he, h4⟩
  · rw [if_neg he]
    by_cases hd : a.toNat = 237
    · rw [if_pos hd]
      exact ⟨0x80, 0x9F, by rw [hd], fun b h3 h4 h5 h6 => ⟨h3, h6 hd⟩⟩
    · rw [if_neg hd, if_pos (by omega)]
      exact ⟨0x80, 0xBF, rfl, fun b h3 h4 h5 h6 => ⟨h3, h4⟩⟩

/-- The first of four bytes, and the bytes that may come second. -/
theorem first_four {a : UInt8} (h1 : 0xF0 ≤ a.toNat) (h2 : a.toNat ≤ 0xF4) :
    ∃ low high, first a = .inr ⟨[a], 3, low, high, a.toNat - 0xF0⟩ ∧
      ∀ b : UInt8, 0x80 ≤ b.toNat → b.toNat ≤ 0xBF → (a.toNat = 0xF0 → 0x90 ≤ b.toNat) →
        (a.toNat = 0xF4 → b.toNat ≤ 0x8F) → low ≤ b ∧ b ≤ high := by
  unfold first
  simp only [lt_iff, le_iff, eq_iff, UInt8.reduceToNat]
  rw [if_neg (by omega), if_neg (by omega), if_neg (by omega), if_neg (by omega),
    if_neg (by omega)]
  by_cases he : a.toNat = 240
  · rw [if_pos he]
    exact ⟨0x90, 0xBF, by rw [he], fun b h3 h4 h5 h6 => ⟨h5 he, h4⟩⟩
  · rw [if_neg he]
    by_cases hd : a.toNat = 244
    · rw [if_neg (by omega), if_pos hd]
      exact ⟨0x80, 0x8F, by rw [hd], fun b h3 h4 h5 h6 => ⟨h3, h6 hd⟩⟩
    · rw [if_pos (by omega)]
      exact ⟨0x80, 0xBF, rfl, fun b h3 h4 h5 h6 => ⟨h3, h4⟩⟩

theorem step_none {ps : List Piece} {b : UInt8} {p : Partial} (h : first b = .inr p) :
    step ⟨ps, none⟩ b = ⟨ps, some p⟩ := by
  rw [step, openAt, h]

theorem step_more {ps : List Piece} {b : UInt8} {p : Partial} (hl : p.low ≤ b) (hh : b ≤ p.high)
    (ho : p.owed ≠ 1) :
    step ⟨ps, some p⟩ b =
      ⟨ps, some ⟨p.held ++ [b], p.owed - 1, 0x80, 0xBF, p.bits * 64 + (b.toNat - 0x80)⟩⟩ := by
  simp only [step]
  rw [if_pos ⟨hl, hh⟩, if_neg ho]

theorem step_last {ps : List Piece} {b : UInt8} {p : Partial} (hl : p.low ≤ b) (hh : b ≤ p.high)
    (ho : p.owed = 1) :
    step ⟨ps, some p⟩ b = ⟨.char (Char.ofNat (p.bits * 64 + (b.toNat - 0x80))) :: ps, none⟩ := by
  simp only [step]
  rw [if_pos ⟨hl, hh⟩, if_pos ho]

theorem toNat_byte {n : Nat} (h : n < 256) : (UInt8.ofNat n).toNat = n := by
  rw [UInt8.toNat_ofNat', Nat.mod_eq_of_lt h]

/-- A byte with six bits of a number may follow another one. -/
theorem tail_range {b : UInt8} {n : Nat} (h : b.toNat = n % 64 + 128) :
    (0x80 : UInt8) ≤ b ∧ b ≤ 0xBF := by
  rw [le_iff, le_iff]
  simp only [UInt8.reduceToNat]
  omega

/-- A character of one byte. -/
theorem foldl_step_one {v : Nat} (hv : v < 0x80) :
    [UInt8.ofNat v].foldl step ⟨[], none⟩ = ⟨[.char (Char.ofNat v)], none⟩ := by
  have ha := toNat_byte (n := v) (by omega)
  have hf : first (UInt8.ofNat v) = .inl (.char (Char.ofNat v)) := by
    unfold first
    simp only [lt_iff, UInt8.reduceToNat, ha]
    rw [if_pos (by omega)]
  simp [step, openAt, hf]

/-- A character of two bytes. -/
theorem foldl_step_two {v : Nat} {a b : UInt8} (hlow : 0x80 ≤ v) (hhigh : v < 0x800)
    (ha : a.toNat = v / 64 % 32 + 192) (hb : b.toNat = v % 64 + 128) :
    [a, b].foldl step ⟨[], none⟩ = ⟨[.char (Char.ofNat v)], none⟩ := by
  have hf : first a = .inr ⟨[a], 1, 0x80, 0xBF, a.toNat - 0xC0⟩ := by
    unfold first
    simp only [lt_iff, le_iff, UInt8.reduceToNat]
    rw [if_neg (by omega), if_pos (by omega)]
  obtain ⟨hl, hh⟩ := tail_range hb
  have hbits : (a.toNat - 0xC0) * 64 + (b.toNat - 0x80) = v := by omega
  rw [List.foldl_cons, step_none hf, List.foldl_cons, step_last hl hh rfl, hbits]
  rfl

/-- A character of three bytes. -/
theorem foldl_step_three {v : Nat} {a b d : UInt8} (hlow : 0x800 ≤ v) (hhigh : v < 0x10000)
    (hvalid : v < 0xD800 ∨ 0xDFFF < v) (ha : a.toNat = v / 4096 % 16 + 224)
    (hb : b.toNat = v / 64 % 64 + 128) (hd : d.toNat = v % 64 + 128) :
    [a, b, d].foldl step ⟨[], none⟩ = ⟨[.char (Char.ofNat v)], none⟩ := by
  obtain ⟨low, high, hf, hnext⟩ := first_three (a := a) (by omega) (by omega)
  obtain ⟨hl, hh⟩ := hnext b (by omega) (by omega) (by omega) (by omega)
  obtain ⟨hl', hh'⟩ := tail_range hd
  have hbits : ((a.toNat - 0xE0) * 64 + (b.toNat - 0x80)) * 64 + (d.toNat - 0x80) = v := by omega
  rw [List.foldl_cons, step_none hf, List.foldl_cons, step_more hl hh (by simp), List.foldl_cons,
    step_last hl' hh' rfl, hbits]
  rfl

/-- A character of four bytes. -/
theorem foldl_step_four {v : Nat} {a b d e : UInt8} (hlow : 0x10000 ≤ v) (hhigh : v < 0x110000)
    (ha : a.toNat = v / 262144 % 8 + 240) (hb : b.toNat = v / 4096 % 64 + 128)
    (hd : d.toNat = v / 64 % 64 + 128) (he : e.toNat = v % 64 + 128) :
    [a, b, d, e].foldl step ⟨[], none⟩ = ⟨[.char (Char.ofNat v)], none⟩ := by
  obtain ⟨low, high, hf, hnext⟩ := first_four (a := a) (by omega) (by omega)
  obtain ⟨hl, hh⟩ := hnext b (by omega) (by omega) (by omega) (by omega)
  obtain ⟨hl', hh'⟩ := tail_range hd
  obtain ⟨hl'', hh''⟩ := tail_range he
  have hbits : (((a.toNat - 0xF0) * 64 + (b.toNat - 0x80)) * 64 + (d.toNat - 0x80)) * 64 +
      (e.toNat - 0x80) = v := by omega
  rw [List.foldl_cons, step_none hf, List.foldl_cons, step_more hl hh (by simp), List.foldl_cons,
    step_more hl' hh' (by simp), List.foldl_cons, step_last hl'' hh'' rfl, hbits]
  rfl

/-- The bytes of a character are cut into that character. -/
theorem foldl_step_encodeChar (c : Char) :
    (String.utf8EncodeChar c).foldl step ⟨[], none⟩ = ⟨[.char c], none⟩ := by
  obtain ⟨v, hv⟩ : ∃ v, v = c.val.toNat := ⟨_, rfl⟩
  have hc : Char.ofNat v = c := hv ▸ Char.ofNat_toNat c
  have hvalid : v < 0xD800 ∨ 0xDFFF < v ∧ v < 0x110000 := hv ▸ c.valid
  rw [String.utf8EncodeChar, ← hv, ← hc]
  split
  · exact foldl_step_one (by omega)
  · split
    · exact foldl_step_two (by omega) (by omega) (toNat_byte (by omega)) (toNat_byte (by omega))
    · split
      · exact foldl_step_three (by omega) (by omega) (by omega) (toNat_byte (by omega))
          (toNat_byte (by omega)) (toNat_byte (by omega))
      · exact foldl_step_four (by omega) (by omega) (toNat_byte (by omega))
          (toNat_byte (by omega)) (toNat_byte (by omega)) (toNat_byte (by omega))

theorem pieces_encodeChar (c : Char) (ys : Bytes) :
    pieces (String.utf8EncodeChar c ++ ys) = .char c :: pieces ys := by
  rw [pieces_eq, List.foldl_append, foldl_step_encodeChar, finish_foldl_step]
  rfl

/-- A text is read as it was written. -/
theorem decode?_encode (t : Text) : decode? (encode t) = some t := by
  induction t with
  | nil => rfl
  | cons c t ih =>
    rw [decode?, encode] at ih ⊢
    rw [List.flatMap_cons, pieces_encodeChar, List.mapM_cons, ih]
    rfl

/-- What is read, stray bytes replaced, of a text that was written with stray bytes kept. -/
def view (t : Text) : Text := decodeReplacing (encodeKeeping t)

/-- What is read of a piece when stray bytes are replaced. -/
def Piece.shown : Piece → Char
  | .char c => c
  | .stray _ => '\uFFFD'

theorem decodeReplacing_eq (bytes : Bytes) :
    decodeReplacing bytes = (pieces bytes).map Piece.shown := by
  rw [decodeReplacing]
  congr 1

theorem length_decodeReplacing_le (bytes : Bytes) :
    (decodeReplacing bytes).length ≤ bytes.length := by
  rw [decodeReplacing_eq, List.length_map]
  exact length_pieces_le bytes

theorem view_decodeKeeping (bytes : Bytes) :
    view (decodeKeeping bytes) = decodeReplacing bytes := by
  rw [view, encodeKeeping_decodeKeeping]

theorem encodeKeeping_cons {c : Char} (h : isStandIn c = false) (t : Text) :
    encodeKeeping (c :: t) = String.utf8EncodeChar c ++ encodeKeeping t := by
  simp [encodeKeeping, h]

/-- A text without stand-ins is read as it was written. -/
theorem view_eq_self {t : Text} (h : ∀ c ∈ t, isStandIn c = false) : view t = t := by
  induction t with
  | nil => rfl
  | cons c t ih =>
    have ht := ih fun d hd => h d (List.mem_cons_of_mem _ hd)
    rw [view, decodeReplacing_eq] at ht ⊢
    rw [encodeKeeping_cons (h c List.mem_cons_self), pieces_encodeChar, List.map_cons, ht]
    rfl

/-- Around an ASCII character the two parts of a text are cut one by one. -/
theorem pieces_encode_ascii {c : Char} (hc : c.val.toNat < 0x80) (s t : Text) :
    pieces (encodeKeeping (s ++ c :: t)) =
      pieces (encodeKeeping s) ++ .char c :: pieces (encodeKeeping t) := by
  have hb : (UInt8.ofNat c.val.toNat).toNat = c.val.toNat := toNat_byte (by omega)
  have hbytes : String.utf8EncodeChar c = [UInt8.ofNat c.val.toNat] := by
    rw [String.utf8EncodeChar, if_pos (by omega)]
  have hstand : isStandIn c = false := by
    rw [← Bool.not_eq_true, isStandIn_iff]
    omega
  have hchar : Char.ofNat (UInt8.ofNat c.val.toNat).toNat = c := by
    rw [hb]
    exact Char.ofNat_toNat c
  rw [encodeKeeping_append, encodeKeeping_cons hstand, hbytes, List.singleton_append,
    pieces_append_ascii _ _ (by omega), hchar]

/-- Around an ASCII character the two parts of a text are read one by one. -/
theorem view_append_ascii {c : Char} (hc : c.val.toNat < 0x80) (s t : Text) :
    view (s ++ c :: t) = view s ++ c :: view t := by
  rw [view, decodeReplacing_eq, pieces_encode_ascii hc, List.map_append, List.map_cons,
    ← decodeReplacing_eq, ← decodeReplacing_eq]
  rfl

end Utf8
end ModuleGraph
