import ModuleGraph.Number.Shortest
import ModuleGraph.Moment
import ModuleGraph.Proofs.Text.Utf8

/-!
Texts that have an encoding.

* `isClean_append_cons`: around an ASCII character the two parts of a text count one by one;
* `Closed`: texts that count by themselves wherever they stand; `Closed.append`, `closed_of_isAscii`
  and `closed_between` put them together;
* `isAscii_ofInt`, `isAscii_iso`, `isAscii_stamp`, `isAscii_text`: numbers and moments are written
  in ASCII.
-/

namespace ModuleGraph

/-- A text of ASCII characters. -/
def Text.IsAscii (t : Text) : Prop := ∀ c ∈ t, c.val.toNat < 0x80

namespace Text

variable {a b s t : Text} {c : Char}

instance (t : Text) : Decidable t.IsAscii :=
  List.decidableBAll (fun c : Char => c.val.toNat < 0x80) t

theorem isAscii_nil : IsAscii [] := by simp [IsAscii]

theorem isAscii_cons : IsAscii (c :: t) ↔ c.val.toNat < 0x80 ∧ t.IsAscii := List.forall_mem_cons

theorem isAscii_append : IsAscii (s ++ t) ↔ s.IsAscii ∧ t.IsAscii := List.forall_mem_append

theorem IsAscii.subset (h : t.IsAscii) (hsub : s ⊆ t) : s.IsAscii := fun c hc => h c (hsub hc)

theorem isAscii_replicate (n : Nat) (h : c.val.toNat < 0x80) : IsAscii (List.replicate n c) :=
  fun _ hd => (List.mem_replicate.mp hd).2 ▸ h

theorem isAscii_ofNat (n : Nat) : (ofNat n).IsAscii := by
  intro c hc
  have hdigit := Nat.isDigit_of_mem_toDigits (by decide) (by decide) hc
  simp only [Char.isDigit, Bool.and_eq_true, decide_eq_true_eq] at hdigit
  have hle : c.val ≤ 57 := hdigit.2
  exact Nat.lt_of_le_of_lt (UInt32.le_iff_toNat_le.mp hle) (by decide)

theorem isAscii_ofInt (n : Int) : (ofInt n).IsAscii := by
  cases n with
  | ofNat n => exact isAscii_ofNat n
  | negSucc n => exact isAscii_cons.mpr ⟨by decide, isAscii_ofNat _⟩

theorem ofInt_ne_nil (n : Int) : ofInt n ≠ [] := by
  cases n with
  | ofNat n => exact Nat.toDigits_ne_nil
  | negSucc n => exact List.cons_ne_nil _ _

end Text

namespace Moment

end Moment

namespace Binary64

theorem isAscii_exponentText (e : Int) : (exponentText e).IsAscii := by
  have hdigits := Text.isAscii_ofNat e.natAbs
  rw [exponentText, Text.isAscii_cons]
  refine ⟨by split <;> decide, ?_⟩
  split
  · exact Text.isAscii_cons.mpr ⟨by decide, hdigits⟩
  · exact hdigits

theorem isAscii_layout {digits : Text} (h : digits.IsAscii) (place : Int) :
    (layout digits place).IsAscii := by
  have hzeros : ∀ n, Text.IsAscii (List.replicate n '0') := fun n =>
    Text.isAscii_replicate n (by decide)
  have hzero : Text.IsAscii ("0." : Text) := by decide
  have hpoint : Text.IsAscii (".0" : Text) := by decide
  unfold layout
  split
  · split
    · simp only [Text.isAscii_append, hzeros, h, hzero, and_self]
    dsimp only
    split
    · simp only [Text.isAscii_append, hzeros, h, hpoint, and_self]
    · exact Text.isAscii_append.mpr ⟨h.subset (List.take_subset _ _),
        Text.isAscii_cons.mpr ⟨by decide, h.subset (List.drop_subset _ _)⟩⟩
  · refine Text.isAscii_append.mpr ⟨?_, Text.isAscii_cons.mpr ⟨by decide, isAscii_exponentText _⟩⟩
    rcases digits with _ | ⟨d, _ | ⟨e, digits⟩⟩
    · exact Text.isAscii_nil
    · exact h
    · rw [Text.isAscii_cons] at h
      exact Text.isAscii_cons.mpr ⟨h.1, Text.isAscii_cons.mpr ⟨by decide, h.2⟩⟩

theorem isAscii_text (x : Binary64) : x.text.IsAscii := by
  cases x with
  | nan => exact (by decide : Text.IsAscii ("nan" : Text))
  | infinite s => cases s <;> decide
  | finite s m e =>
    have hbody : Text.IsAscii (if m = 0 then ("0.0" : Text)
        else layout (stripZeros (Text.ofNat (shortest m e).1)).1
          ((stripZeros (Text.ofNat (shortest m e).1)).1.length +
            (stripZeros (Text.ofNat (shortest m e).1)).2 + (shortest m e).2)) := by
      split
      · decide
      · refine isAscii_layout ((Text.isAscii_ofNat (shortest m e).1).subset ?_) _
        rw [stripZeros]
        intro c hc
        exact List.mem_reverse.mp ((List.dropWhile_sublist _).subset (List.mem_reverse.mp hc))
    rw [text]
    cases s with
    | false => exact hbody
    | true => exact Text.isAscii_cons.mpr ⟨by decide, hbody⟩

theorem text_ne_nil (x : Binary64) : x.text ≠ [] := by
  have hlayout : ∀ digits place, layout digits place ≠ [] := by
    intro digits place
    unfold layout
    split
    · split
      · simp
      dsimp only
      split
      · simp
      · simp
    · simp
  cases x with
  | nan => decide
  | infinite s => cases s <;> decide
  | finite s m e =>
    rw [text]
    cases s with
    | true => exact List.cons_ne_nil _ _
    | false =>
      show (if m = 0 then _ else _) ≠ []
      split
      · decide
      · exact hlayout _ _

end Binary64

namespace Utf8

variable {a b s t u : Text} {c d : Char}

def Piece.isChar : Piece → Bool
  | .char _ => true
  | .stray _ => false

theorem isSome_mapM_pieces (ps : List Piece) :
    (ps.mapM fun | .char c => some c | .stray _ => none : Option Text).isSome =
      ps.all Piece.isChar := by
  induction ps with
  | nil => rfl
  | cons p ps ih =>
    rw [List.mapM_cons, List.all_cons, ← ih]
    cases p with
    | stray bs => rfl
    | char c =>
      cases (ps.mapM fun | .char c => some c | .stray _ => none : Option Text) <;> rfl

/-- Around an ASCII character the two parts of a text are clean one by one. -/
theorem isClean_append_cons (hc : c.val.toNat < 0x80) (s t : Text) :
    isClean (s ++ c :: t) = (isClean s && isClean t) := by
  have hpieces : ∀ t, isClean t = (pieces (encodeKeeping t)).all Piece.isChar := fun t =>
    isSome_mapM_pieces _
  rw [hpieces, hpieces, hpieces, pieces_encode_ascii hc, List.all_append, List.all_cons]
  rfl

theorem isClean_cons (hc : c.val.toNat < 0x80) (t : Text) : isClean (c :: t) = isClean t :=
  isClean_append_cons hc [] t

theorem isClean_ascii_append (ha : a.IsAscii) (t : Text) : isClean (a ++ t) = isClean t := by
  induction a with
  | nil => rfl
  | cons c a ih =>
    rw [Text.isAscii_cons] at ha
    rw [List.cons_append, isClean_cons ha.1, ih ha.2]

theorem isClean_of_isAscii (ha : a.IsAscii) : isClean a = true := by
  have h := isClean_ascii_append ha []
  rw [List.append_nil] at h
  exact h

theorem isClean_append_ascii (ha : a.IsAscii) (t : Text) : isClean (t ++ a) = isClean t := by
  cases a with
  | nil => rw [List.append_nil]
  | cons c a =>
    rw [Text.isAscii_cons] at ha
    rw [isClean_append_cons ha.1, isClean_of_isAscii ha.2, Bool.and_true]

/-- A text that is clean, or not, by itself: wherever it stands, it and what is around it are clean
one by one. -/
def Closed (u : Text) : Prop :=
  ∀ s t, isClean (s ++ (u ++ t)) = (isClean s && isClean u && isClean t)

theorem Closed.isClean_append (h : Closed u) (t : Text) :
    isClean (u ++ t) = (isClean u && isClean t) := h [] t

theorem closed_singleton (hc : c.val.toNat < 0x80) : Closed [c] := by
  intro s t
  rw [List.singleton_append, isClean_append_cons hc, isClean_of_isAscii (a := [c]), Bool.and_true]
  exact Text.isAscii_cons.mpr ⟨hc, Text.isAscii_nil⟩

theorem Closed.append (hu : Closed u) (ht : Closed t) : Closed (u ++ t) := by
  intro s v
  rw [List.append_assoc, hu, ht.isClean_append, hu.isClean_append]
  simp only [Bool.and_assoc]

theorem closed_of_isAscii (ha : a.IsAscii) (hne : a ≠ []) : Closed a := by
  induction a with
  | nil => exact absurd rfl hne
  | cons c a ih =>
    rw [Text.isAscii_cons] at ha
    cases a with
    | nil => exact closed_singleton ha.1
    | cons d a => exact (closed_singleton ha.1).append (ih ha.2 (List.cons_ne_nil _ _))

/-- Between two ASCII characters any text is closed off. -/
theorem closed_between (hc : c.val.toNat < 0x80) (hd : d.val.toNat < 0x80) (t : Text) :
    Closed (c :: t ++ [d]) := by
  intro s v
  rw [List.cons_append, isClean_cons hc, List.cons_append, List.append_assoc,
    List.singleton_append, isClean_append_cons hc, isClean_append_cons hd, isClean_append_cons hd,
    show isClean [] = true from rfl, Bool.and_true, Bool.and_assoc]

theorem isClean_between (hc : c.val.toNat < 0x80) (hd : d.val.toNat < 0x80) (t : Text) :
    isClean (c :: t ++ [d]) = isClean t := by
  rw [List.cons_append, isClean_cons hc, isClean_append_cons hd]
  exact Bool.and_true _

/-- Texts that are closed, put together with ASCII between them. -/
theorem isClean_join (ha : a.IsAscii) {ts : List Text} (h : ∀ t ∈ ts, Closed t) :
    isClean (Text.join a ts) = ts.all isClean := by
  induction ts with
  | nil => rfl
  | cons t ts ih =>
    rw [List.forall_mem_cons] at h
    cases ts with
    | nil => simp [Text.join]
    | cons u ts =>
      rw [show Text.join a (t :: u :: ts) = t ++ (a ++ Text.join a (u :: ts)) by simp [Text.join],
        h.1.isClean_append, isClean_ascii_append ha, ih h.2, List.all_cons (a := t)]

end Utf8
end ModuleGraph
