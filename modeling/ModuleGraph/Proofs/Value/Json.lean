import ModuleGraph.Value.JsonReader
import ModuleGraph.Value.JsonWriter
import ModuleGraph.Proofs.Text.Digits
import ModuleGraph.Proofs.Text.Utf8
import ModuleGraph.Proofs.Value.Entries
import Mathlib.Data.List.Induction

/-!
Reading back what was written.

* `hexDigits_four`, `unit?_hexDigits`: the four digits of a code unit;
* `stringBody_escapeChar`, `stringBody_string`: strings;
* `Plain`: values without numbers and moments, with each key once;
* `readValue_writeAt`, `read_writeAt`: such a value is read as it was written, in every layout.
-/

namespace ModuleGraph
namespace Json

variable {t rest done : Text} {ascii : Bool} {n : Nat}

theorem hexValue_digitChar : ∀ d < 16, hexValue (Nat.digitChar d) = some d := by decide

theorem hexDigits_four (h : n < 0x10000) :
    hexDigits 4 n = [Nat.digitChar (n / 16 / 16 / 16), Nat.digitChar (n / 16 / 16 % 16),
      Nat.digitChar (n / 16 % 16), Nat.digitChar (n % 16)] := by
  have hfill : hexDigits 4 n = Text.fill 16 4 n := rfl
  rw [hfill, Text.fill_succ (by decide) (by decide), Text.fill_succ (by decide) (by decide),
    Text.fill_succ (by decide) (by decide), Text.fill_one (by omega)]
  rfl

/-- The digits of a code unit stand for it. -/
theorem unit?_hexDigits (h : n < 0x10000) :
    ∃ a b c d, hexDigits 4 n = [a, b, c, d] ∧ unit? a b c d = some n := by
  refine ⟨_, _, _, _, hexDigits_four h, ?_⟩
  rw [unit?, hexValue_digitChar _ (by omega), hexValue_digitChar _ (by omega),
    hexValue_digitChar _ (by omega), hexValue_digitChar _ (by omega)]
  simp only [Option.bind_eq_bind, Option.bind_some, Option.some.injEq]
  omega

/-- An escaped code unit that is a character of its own. -/
theorem stringBody_unicodeEscape (h : n < 0xD800 ∨ 0xE000 ≤ n ∧ n < 0x10000) (done rest : Text) :
    stringBody done (unicodeEscape n ++ rest) = stringBody (Char.ofNat n :: done) rest := by
  obtain ⟨a, b, c, d, hdigits, hunit⟩ := unit?_hexDigits (n := n) (by omega)
  have hsingle : single n = Char.ofNat n := by rw [single, if_neg (by omega)]
  have hlone : ∀ low, paired? n low = none := fun low => by rw [paired?, if_neg (by omega)]
  rw [unicodeEscape, hdigits, List.cons_append, List.cons_append, List.cons_append,
    List.cons_append, List.cons_append, List.cons_append, List.nil_append, stringBody.eq_3, hunit]
  dsimp only
  split
  · rename_i e f g k more
    have hnone : (unit? e f g k).bind (paired? n) = none := by
      cases unit? e f g k with
      | none => rfl
      | some low => exact hlone low
    rw [hnone, hsingle]
  · rw [hsingle]

/-- Two escaped code units that are one character. -/
theorem stringBody_pair {m : Nat} (hm : m < 0x100000) (done rest : Text) :
    stringBody done (unicodeEscape (0xD800 + m / 0x400) ++ unicodeEscape (0xDC00 + m % 0x400) ++
      rest) = stringBody (Char.ofNat (0x10000 + m) :: done) rest := by
  obtain ⟨a, b, c, d, hhigh, hunit⟩ := unit?_hexDigits (n := 0xD800 + m / 0x400) (by omega)
  obtain ⟨e, f, g, k, hlow, hunit'⟩ := unit?_hexDigits (n := 0xDC00 + m % 0x400) (by omega)
  have hpair : paired? (0xD800 + m / 0x400) (0xDC00 + m % 0x400) =
      some (Char.ofNat (0x10000 + m)) := by
    have hsum : 0x10000 + (0xD800 + m / 0x400 - 0xD800) * 0x400 + (0xDC00 + m % 0x400 - 0xDC00) =
        0x10000 + m := by omega
    rw [paired?, if_pos (by omega), hsum]
  rw [unicodeEscape, unicodeEscape, hhigh, hlow]
  simp only [List.cons_append, List.nil_append]
  rw [stringBody.eq_3, hunit]
  simp only [hunit', Option.bind_some, hpair]

theorem stringBody_escapeWide (c : Char) (done rest : Text) :
    stringBody done (escapeWide c ++ rest) = stringBody (c :: done) rest := by
  have hchar : Char.ofNat c.toNat = c := Char.ofNat_toNat c
  have hvalid : c.toNat < 0xD800 ∨ 0xDFFF < c.toNat ∧ c.toNat < 0x110000 := c.valid
  rw [escapeWide]
  dsimp only
  split
  · rw [stringBody_unicodeEscape (by omega), hchar]
  · have hsum : 0x10000 + (c.toNat - 0x10000) = c.toNat := by omega
    rw [stringBody_pair (by omega), hsum, hchar]

theorem stringBody_escaped {c x : Char} (h : escaped? c = some x) (done t : Text) :
    stringBody done ('\\' :: c :: t) = stringBody (x :: done) t := by
  rw [stringBody.eq_4, h]
  rintro _ _ _ _ _ rfl -
  cases h

theorem stringBody_plain {c : Char} (hquote : c ≠ '"') (hback : c ≠ '\\') (hc : ¬ c.toNat < 0x20)
    (done t : Text) : stringBody done (c :: t) = stringBody (c :: done) t := by
  rw [stringBody.eq_5, if_neg hc]
  · exact hquote
  · exact fun _ _ _ _ _ heq _ => hback heq
  · exact fun _ _ heq _ => hback heq

/-- A character of a string is read as it was written. -/
theorem stringBody_escapeChar (ascii : Bool) (c : Char) (done rest : Text) :
    stringBody done (escapeChar ascii c ++ rest) = stringBody (c :: done) rest := by
  have hchar : Char.ofNat c.toNat = c := Char.ofNat_toNat c
  have hescaped : ∀ letter, escaped? letter = some c →
      stringBody done (['\\', letter] ++ rest) = stringBody (c :: done) rest :=
    fun letter h => stringBody_escaped h done rest
  rw [escapeChar]
  split
  · next h => exact hescaped _ (by rw [h]; rfl)
  split
  · next h => exact hescaped _ (by rw [h]; rfl)
  split
  · next h => exact hescaped _ (by rw [h]; rfl)
  split
  · next h => exact hescaped _ (by rw [h]; rfl)
  split
  · next h => exact hescaped _ (by rw [h]; rfl)
  split
  · next h => exact hescaped _ (by rw [h]; rfl)
  split
  · next h => exact hescaped _ (by rw [h]; rfl)
  split
  · rw [stringBody_unicodeEscape (by omega), hchar]
  split
  · exact stringBody_escapeWide c done rest
  · next hquote hback _ _ _ _ _ hcontrol _ =>
    exact stringBody_plain hquote hback hcontrol done rest

theorem stringBody_string (ascii : Bool) (t done rest : Text) :
    stringBody done (t.flatMap (escapeChar ascii) ++ '"' :: rest) =
      some (done.reverse ++ t, rest) := by
  induction t generalizing done with
  | nil =>
    rw [List.flatMap_nil, List.nil_append, List.append_nil, stringBody.eq_2]
  | cons c t ih =>
    rw [List.flatMap_cons, List.append_assoc, stringBody_escapeChar, ih]
    simp

/-- Nothing but blanks. -/
def IsBlank (t : Text) : Prop := ∀ c ∈ t, isSpace c = true

theorem skipSpaces_append {blanks : Text} (h : IsBlank blanks) (t : Text) :
    skipSpaces (blanks ++ t) = skipSpaces t := List.dropWhile_append_of_pos h

theorem skipSpaces_cons {c : Char} (h : isSpace c = false) (t : Text) :
    skipSpaces (c :: t) = c :: t := List.dropWhile_cons_of_neg (by rw [h]; decide)

theorem readValue_append {blanks : Text} (h : IsBlank blanks) (fuel : Nat) (t : Text) :
    readValue fuel (blanks ++ t) = readValue fuel t := by
  cases fuel with
  | zero => rw [readValue, readValue]
  | succ fuel => rw [readValue, readValue, skipSpaces_append h]

theorem isBlank_lineStart (l : Layout) (level : Nat) : IsBlank (l.lineStart level) := by
  rw [Layout.lineStart]
  split
  · exact fun _ hc => absurd hc List.not_mem_nil
  · intro c hc
    rcases List.mem_cons.mp hc with rfl | hc
    · decide
    · rw [List.eq_of_mem_replicate hc]
      decide

theorem isBlank_singleton : IsBlank [' '] := fun _ hc => List.mem_singleton.mp hc ▸ rfl

/-- Between two items there is a comma with blanks after it. -/
theorem separator_eq (l : Layout) (level : Nat) :
    ∃ blanks, IsBlank blanks ∧ l.separator level = ',' :: blanks := by
  rw [Layout.separator]
  split
  · exact ⟨[' '], isBlank_singleton, rfl⟩
  · exact ⟨_, isBlank_lineStart l level, rfl⟩

/-- Values without numbers and moments, in whose tables no key stands twice. -/
inductive Plain : Value → Prop
  | null : Plain .null
  | bool (b : Bool) : Plain (.bool b)
  | text (t : Text) : Plain (.text t)
  | array (items : List Value) (h : ∀ v ∈ items, Plain v) : Plain (.array items)
  | table (entries : Entries Value) (hkeys : (Entries.keys entries).Nodup)
      (h : ∀ x ∈ entries, Plain x.2) : Plain (.table entries)

/-- Is a value read as it was written, whatever follows? -/
def Reads (l : Layout) (v : Value) : Prop := ∀ level rest fuel,
  (writeAt l level v).length < fuel → readValue fuel (writeAt l level v ++ rest) = some (v, rest)

theorem join_cons_cons (sep a b : Text) (ts : List Text) :
    Text.join sep (a :: b :: ts) = a ++ (sep ++ Text.join sep (b :: ts)) := by
  rw [Text.join, List.intercalate_cons_cons, List.append_assoc, Text.join]

theorem readItems_append {blanks : Text} (h : IsBlank blanks) (fuel : Nat) (before : List Value)
    (t : Text) : readItems fuel before (blanks ++ t) = readItems fuel before t := by
  cases fuel with
  | zero => rw [readItems, readItems]
  | succ fuel => rw [readItems, readItems, readValue_append h]

theorem readItems_join {l : Layout} {v : Value} {vs : List Value} (hv : ∀ w ∈ v :: vs, Reads l w)
    (level : Nat) (before : List Value) {blanks : Text} (hb : IsBlank blanks) (rest : Text)
    (fuel : Nat)
    (hf : (Text.join (l.separator level) (writeItems l level (v :: vs))).length + 1 < fuel) :
    readItems fuel before (Text.join (l.separator level) (writeItems l level (v :: vs)) ++
      (blanks ++ ']' :: rest)) = some (.array (before.reverse ++ v :: vs), rest) := by
  induction vs generalizing v before fuel with
  | nil =>
    obtain ⟨fuel, rfl⟩ : ∃ f, fuel = f + 1 := ⟨fuel - 1, by omega⟩
    have hjoin : Text.join (l.separator level) (writeItems l level [v]) = writeAt l level v := by
      simp [Text.join, writeItems]
    rw [hjoin] at hf ⊢
    rw [readItems, hv v List.mem_cons_self level _ fuel (by omega)]
    simp only [skipSpaces_append hb, skipSpaces_cons (c := ']') rfl]
    simp
  | cons w vs ih =>
    obtain ⟨fuel, rfl⟩ : ∃ f, fuel = f + 1 := ⟨fuel - 1, by omega⟩
    obtain ⟨gap, hgap, hsep⟩ := separator_eq l level
    have hjoin : Text.join (l.separator level) (writeItems l level (v :: w :: vs)) =
        writeAt l level v ++ (',' :: gap ++
          Text.join (l.separator level) (writeItems l level (w :: vs))) := by
      rw [writeItems, writeItems, join_cons_cons, ← writeItems, hsep]
    rw [hjoin] at hf ⊢
    simp only [List.length_append, List.length_cons] at hf
    rw [readItems, List.append_assoc, hv v List.mem_cons_self level _ fuel (by omega)]
    simp only [List.cons_append, List.append_assoc, skipSpaces_cons (c := ',') rfl]
    rw [readItems_append hgap, ih (fun x hx => hv x (List.mem_cons_of_mem _ hx)) _ _ (by omega)]
    simp

theorem readEntries_append {blanks : Text} (h : IsBlank blanks) (fuel : Nat)
    (before : Entries Value) (t : Text) :
    readEntries fuel before (blanks ++ t) = readEntries fuel before t := by
  cases fuel with
  | zero => rw [readEntries, readEntries]
  | succ fuel => rw [readEntries, readEntries, skipSpaces_append h]

theorem not_mem_keys_of_nodup {key : Text} {v : Value} {es fs : Entries Value}
    (h : (Entries.keys (es ++ (key, v) :: fs)).Nodup) : key ∉ Entries.keys es := by
  simp only [Entries.keys, List.map_append, List.nodup_append] at h
  exact fun hmem => h.2.2 key hmem key (by simp) rfl

/-- The key of an entry is read, and what follows its colon is left. -/
theorem readEntries_key (ascii : Bool) (key : Text) (fuel : Nat) (before : Entries Value)
    (t : Text) :
    readEntries (fuel + 1) before (string ascii key ++ ':' :: t) =
      match readValue fuel t with
      | none => none
      | some (v, rest) =>
        match skipSpaces rest with
        | ',' :: rest => readEntries fuel (before.put key v) rest
        | '}' :: rest => some (.table (before.put key v), rest)
        | _ => none := by
  rw [readEntries, string]
  simp only [List.cons_append, skipSpaces_cons (c := '"') rfl, List.append_assoc, List.nil_append,
    stringBody_string, List.reverse_nil]
  rewrite [skipSpaces_cons (c := ':') rfl]
  rfl

theorem readEntries_join {l : Layout} {x : Text × Value} {xs : Entries Value}
    (hv : ∀ y ∈ x :: xs, Reads l y.2) (level : Nat) (before : Entries Value)
    (hkeys : (Entries.keys (before ++ x :: xs)).Nodup) {blanks : Text} (hb : IsBlank blanks)
    (rest : Text) (fuel : Nat)
    (hf : (Text.join (l.separator level) (writeEntries l level (x :: xs))).length + 1 < fuel) :
    readEntries fuel before (Text.join (l.separator level) (writeEntries l level (x :: xs)) ++
      (blanks ++ '}' :: rest)) = some (.table (before ++ x :: xs), rest) := by
  induction xs generalizing x before fuel with
  | nil =>
    obtain ⟨key, v⟩ := x
    obtain ⟨fuel, rfl⟩ : ∃ f, fuel = f + 1 := ⟨fuel - 1, by omega⟩
    have hjoin : Text.join (l.separator level) (writeEntries l level [(key, v)]) =
        string l.ascii key ++ ':' :: ([' '] ++ writeAt l level v) := by
      simp [Text.join, writeEntries]
    have hnew := not_mem_keys_of_nodup hkeys
    rw [hjoin] at hf ⊢
    simp only [List.length_append, List.length_cons] at hf
    rw [List.append_assoc, List.cons_append, readEntries_key, List.append_assoc,
      readValue_append isBlank_singleton, hv _ List.mem_cons_self level _ fuel (by simp; omega)]
    simp only [skipSpaces_append hb, skipSpaces_cons (c := '}') rfl,
      Entries.put_of_not_mem hnew]
  | cons y xs ih =>
    obtain ⟨key, v⟩ := x
    obtain ⟨fuel, rfl⟩ : ∃ f, fuel = f + 1 := ⟨fuel - 1, by omega⟩
    obtain ⟨gap, hgap, hsep⟩ := separator_eq l level
    have hjoin : Text.join (l.separator level) (writeEntries l level ((key, v) :: y :: xs)) =
        string l.ascii key ++ ':' :: ([' '] ++ (writeAt l level v ++ (',' :: gap ++
          Text.join (l.separator level) (writeEntries l level (y :: xs))))) := by
      rw [writeEntries, writeEntries, join_cons_cons, ← writeEntries, hsep]
      simp
    have hnew := not_mem_keys_of_nodup hkeys
    rw [hjoin] at hf ⊢
    simp only [List.length_append, List.length_cons] at hf
    rw [List.append_assoc, List.cons_append, readEntries_key, List.append_assoc,
      readValue_append isBlank_singleton, List.append_assoc,
      hv _ List.mem_cons_self level _ fuel (by dsimp only; omega)]
    simp only [List.cons_append, List.append_assoc, skipSpaces_cons (c := ',') rfl,
      Entries.put_of_not_mem hnew]
    rw [readEntries_append hgap,
      ih (fun z hz => hv z (List.mem_cons_of_mem _ hz)) _ ?_ _ (by omega)]
    · simp
    · simpa using hkeys

/-- The first character of a value without numbers. -/
theorem exists_writeAt (l : Layout) (level : Nat) {v : Value} (hv : Plain v) :
    ∃ c u, writeAt l level v = c :: u ∧ isSpace c = false ∧ c ≠ ']' := by
  have henclose : ∀ opening closing items, ∃ u,
      l.enclose level opening closing items = opening :: u := by
    intro opening closing items
    rw [Layout.enclose]
    split
    · exact ⟨_, rfl⟩
    · exact ⟨_, rfl⟩
  cases hv with
  | null => exact ⟨'n', _, rfl, by decide, by decide⟩
  | bool b =>
    cases b with
    | false => exact ⟨'f', _, rfl, by decide, by decide⟩
    | true => exact ⟨'t', _, rfl, by decide, by decide⟩
  | text t => exact ⟨'"', _, by rw [writeAt]; rfl, by decide, by decide⟩
  | array items h =>
    obtain ⟨u, hu⟩ := henclose '[' ']' (writeItems l (level + 1) items)
    exact ⟨'[', u, by rw [writeAt, hu], by decide, by decide⟩
  | table entries hkeys h =>
    obtain ⟨u, hu⟩ := henclose '{' '}' (writeEntries l (level + 1) entries)
    exact ⟨'{', u, by rw [writeAt, hu], by decide, by decide⟩

theorem reads_array {l : Layout} {items : List Value} (hplain : ∀ v ∈ items, Plain v)
    (h : ∀ v ∈ items, Reads l v) : Reads l (.array items) := by
  intro level rest fuel hf
  obtain ⟨fuel, rfl⟩ : ∃ f, fuel = f + 1 := ⟨fuel - 1, by omega⟩
  cases items with
  | nil =>
    have hwrite : writeAt l level (.array []) = ['[', ']'] := rfl
    rw [hwrite, readValue]
    simp only [List.cons_append, skipSpaces_cons (c := '[') rfl, skipSpaces_cons (c := ']') rfl,
      List.nil_append]
  | cons v vs =>
    have hwrite : writeAt l level (.array (v :: vs)) = '[' :: (l.lineStart (level + 1) ++
        (Text.join (l.separator (level + 1)) (writeItems l (level + 1) (v :: vs)) ++
          (l.lineStart level ++ [']']))) := by
      rw [writeAt, Layout.enclose, writeItems]
      simp
    obtain ⟨c, u, hfirst, hspace, hclose⟩ := exists_writeAt l (level + 1)
      (hplain v List.mem_cons_self)
    obtain ⟨more, hmore⟩ : ∃ more, Text.join (l.separator (level + 1))
        (writeItems l (level + 1) (v :: vs)) = c :: more := by
      cases vs with
      | nil => exact ⟨u, by simp [Text.join, writeItems, hfirst]⟩
      | cons w vs => exact ⟨_, by rw [writeItems, writeItems, join_cons_cons, hfirst]; rfl⟩
    rw [hwrite] at hf ⊢
    simp only [List.length_cons, List.length_append] at hf
    have hitems := readItems_join h (level + 1) [] (isBlank_lineStart l level) rest
      fuel (by omega)
    rw [hmore] at hitems ⊢
    rw [readValue]
    simp only [List.cons_append, List.append_assoc, skipSpaces_cons (c := '[') rfl,
      skipSpaces_append (isBlank_lineStart l (level + 1)), skipSpaces_cons hspace] at hitems ⊢
    split
    · next heq => exact absurd (List.cons.inj heq).1 hclose
    · simpa using hitems

theorem reads_table {l : Layout} {entries : Entries Value}
    (hkeys : (Entries.keys entries).Nodup) (h : ∀ x ∈ entries, Reads l x.2) :
    Reads l (.table entries) := by
  intro level rest fuel hf
  obtain ⟨fuel, rfl⟩ : ∃ f, fuel = f + 1 := ⟨fuel - 1, by omega⟩
  cases entries with
  | nil =>
    have hwrite : writeAt l level (.table []) = ['{', '}'] := rfl
    rw [hwrite, readValue]
    simp only [List.cons_append, skipSpaces_cons (c := '{') rfl, skipSpaces_cons (c := '}') rfl,
      List.nil_append]
  | cons x xs =>
    obtain ⟨key, v⟩ := x
    have hwrite : writeAt l level (.table ((key, v) :: xs)) = '{' :: (l.lineStart (level + 1) ++
        (Text.join (l.separator (level + 1)) (writeEntries l (level + 1) ((key, v) :: xs)) ++
          (l.lineStart level ++ ['}']))) := by
      rw [writeAt, Layout.enclose, writeEntries]
      simp
    obtain ⟨more, hmore⟩ : ∃ more, Text.join (l.separator (level + 1))
        (writeEntries l (level + 1) ((key, v) :: xs)) = '"' :: more := by
      cases xs with
      | nil => exact ⟨_, by simp [Text.join, writeEntries, string]; rfl⟩
      | cons y ys => exact ⟨_, by rw [writeEntries, writeEntries, join_cons_cons]; rfl⟩
    rw [hwrite] at hf ⊢
    simp only [List.length_cons, List.length_append] at hf
    have hentries := readEntries_join h (level + 1) [] hkeys (isBlank_lineStart l level)
      rest fuel (by omega)
    rw [hmore] at hentries ⊢
    rw [readValue]
    simp only [List.cons_append, List.append_assoc, skipSpaces_cons (c := '{') rfl,
      skipSpaces_append (isBlank_lineStart l (level + 1)), skipSpaces_cons (c := '"') rfl]
      at hentries ⊢
    simpa using hentries

/-- A value without numbers is read as it was written. -/
theorem reads_of_plain (l : Layout) {v : Value} (hv : Plain v) : Reads l v := by
  induction hv with
  | null =>
    intro level rest fuel hf
    obtain ⟨fuel, rfl⟩ : ∃ f, fuel = f + 1 := ⟨fuel - 1, by omega⟩
    rfl
  | bool b =>
    intro level rest fuel hf
    obtain ⟨fuel, rfl⟩ : ∃ f, fuel = f + 1 := ⟨fuel - 1, by omega⟩
    cases b <;> rfl
  | text t =>
    intro level rest fuel hf
    obtain ⟨fuel, rfl⟩ : ∃ f, fuel = f + 1 := ⟨fuel - 1, by omega⟩
    have hscalar : ∀ u, readScalar ('"' :: u) =
        (stringBody [] u).map fun p => (.text p.1, p.2) := fun _ => rfl
    rw [writeAt, string, readValue]
    simp only [List.cons_append, skipSpaces_cons (c := '"') rfl, List.append_assoc,
      List.nil_append]
    exact (hscalar _).trans (by rw [stringBody_string]; rfl)
  | array items h ih => exact reads_array h ih
  | table entries hkeys h ih => exact reads_table hkeys ih

/-- A whole text that was written is read. -/
theorem read_writeAt (l : Layout) {v : Value} (hv : Plain v) (level : Nat) :
    read (writeAt l level v) = some v := by
  have h := reads_of_plain l hv level [] _ (Nat.lt_succ_self _)
  rw [List.append_nil] at h
  rw [read, h]
  rfl

end Json
end ModuleGraph
