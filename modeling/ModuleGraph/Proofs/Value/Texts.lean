import ModuleGraph.Proofs.Text.Clean
import ModuleGraph.Value.JsonWriter

/-!
The texts in a value, and whether its JSON text has an encoding.

* `Value.texts`: all texts in a value, keys among them;
* `isClean_string`: what is escaped in a string are ASCII characters, so it is as clean as its text;
* `isClean_writeAt`, `isClean_indented`: a JSON text is clean if all texts in the value are, and
  only then.
-/

namespace ModuleGraph
namespace Value

mutual

/-- The texts in a value and the keys of its tables. -/
def texts : Value → List Text
  | .text t => [t]
  | .moment iso => [iso]
  | .array items => itemTexts items
  | .table entries => entryTexts entries
  | _ => []

def itemTexts : List Value → List Text
  | [] => []
  | v :: rest => v.texts ++ itemTexts rest

def entryTexts : List (Text × Value) → List Text
  | [] => []
  | (k, v) :: rest => k :: v.texts ++ entryTexts rest

end

/-- All texts in the value have an encoding. -/
def IsEncodable (v : Value) : Prop := ∀ t ∈ v.texts, Utf8.isClean t = true

@[simp]
theorem isEncodable_null : IsEncodable .null := by simp [IsEncodable, texts]

@[simp]
theorem isEncodable_bool (b : Bool) : IsEncodable (.bool b) := by simp [IsEncodable, texts]

@[simp]
theorem isEncodable_int (n : Int) : IsEncodable (.int n) := by simp [IsEncodable, texts]

@[simp]
theorem isEncodable_float (x : Binary64) : IsEncodable (.float x) := by simp [IsEncodable, texts]

@[simp]
theorem isEncodable_text {t : Text} : IsEncodable (.text t) ↔ Utf8.isClean t = true := by
  simp [IsEncodable, texts]

@[simp]
theorem isEncodable_array {items : List Value} :
    IsEncodable (.array items) ↔ ∀ v ∈ items, v.IsEncodable := by
  rw [IsEncodable, texts]
  induction items with
  | nil => simp [itemTexts]
  | cons v items ih =>
    rw [itemTexts, List.forall_mem_append, ih, List.forall_mem_cons]
    rfl

@[simp]
theorem isEncodable_table {entries : Entries Value} : IsEncodable (.table entries) ↔
    ∀ e ∈ entries, Utf8.isClean e.1 = true ∧ e.2.IsEncodable := by
  rw [IsEncodable, texts]
  induction entries with
  | nil => simp [entryTexts]
  | cons e entries ih =>
    obtain ⟨k, v⟩ := e
    rw [entryTexts, List.forall_mem_append, List.forall_mem_cons, ih, List.forall_mem_cons]
    rfl

end Value

namespace Json

open Utf8

variable {l : Layout} {c : Char}

theorem escapeChar_of_not_ascii (hc : ¬ c.val.toNat < 0x80) : escapeChar false c = [c] := by
  have hne : ∀ d : Char, d.val.toNat < 0x80 → c ≠ d := fun d hd h => hc (h ▸ hd)
  simp only [escapeChar, Bool.false_and]
  rw [if_neg (hne _ (by decide)), if_neg (hne _ (by decide)), if_neg (hne _ (by decide)),
    if_neg (hne _ (by decide)), if_neg (hne _ (by decide)), if_neg (hne _ (by decide)),
    if_neg (hne _ (by decide)), if_neg]
  · rfl
  · intro h
    exact hc (Nat.lt_trans h (by decide))

theorem isAscii_escapeChar (hc : c.val.toNat < 0x80) :
    ∃ d u, escapeChar false c = d :: u ∧ Text.IsAscii (d :: u) := by
  have hall : ∀ n < 0x80, (escapeChar false (Char.ofNat n)).IsAscii ∧
      escapeChar false (Char.ofNat n) ≠ [] := by decide
  obtain ⟨hascii, hne⟩ := hall c.toNat hc
  rw [Char.ofNat_toNat] at hascii hne
  obtain ⟨d, u, hescape⟩ := List.exists_cons_of_ne_nil hne
  exact ⟨d, u, hescape, hescape ▸ hascii⟩

/-- A string in quotes is as clean as its text. -/
theorem isClean_string (t : Text) : isClean (string false t) = isClean t := by
  -- what stands before the first ASCII character is kept as it is
  have hescape : ∀ s : Text, isClean (s ++ t.flatMap (escapeChar false)) = isClean (s ++ t) := by
    induction t with
    | nil => exact fun s => rfl
    | cons c t ih =>
      intro s
      by_cases hc : c.val.toNat < 0x80
      · obtain ⟨d, u, hescape, hascii⟩ := isAscii_escapeChar hc
        obtain ⟨hd, hu⟩ := Text.isAscii_cons.mp hascii
        rw [List.flatMap_cons, hescape, List.cons_append, isClean_append_cons hd,
          isClean_append_cons hc, isClean_ascii_append hu]
        exact congrArg _ (ih [])
      · rw [List.flatMap_cons, escapeChar_of_not_ascii hc, ← List.append_assoc,
          List.append_cons s c t]
        exact ih (s ++ [c])
  rw [string, isClean_between (by decide) (by decide)]
  exact hescape []

theorem closed_string (t : Text) : Closed (string false t) :=
  closed_between (by decide) (by decide) _

theorem isAscii_number (x : Binary64) : (number x).IsAscii ∧ number x ≠ [] := by
  cases x with
  | nan => exact ⟨by decide, by decide⟩
  | infinite s => cases s <;> exact ⟨by decide, by decide⟩
  | finite s m e =>
    exact ⟨Binary64.isAscii_text (.finite s m e), Binary64.text_ne_nil (.finite s m e)⟩

theorem isAscii_bool (b : Bool) : Text.IsAscii (if b then "true" else "false" : Text) ∧
    (if b then "true" else "false" : Text) ≠ [] := by
  cases b <;> exact ⟨by decide, by decide⟩

theorem isAscii_lineStart (l : Layout) (level : Nat) : (l.lineStart level).IsAscii := by
  unfold Layout.lineStart
  split
  · exact Text.isAscii_nil
  · exact Text.isAscii_cons.mpr ⟨by decide, Text.isAscii_replicate _ (by decide)⟩

theorem isAscii_separator (l : Layout) (level : Nat) : (l.separator level).IsAscii := by
  unfold Layout.separator
  split
  · decide
  · exact Text.isAscii_cons.mpr ⟨by decide, isAscii_lineStart l level⟩

section Enclose

variable {opening closing : Char} (ho : opening.val.toNat < 0x80) (hc : closing.val.toNat < 0x80)
include ho hc

theorem closed_enclose (l : Layout) (level : Nat) (items : List Text) :
    Closed (l.enclose level opening closing items) := by
  rw [Layout.enclose]
  split
  · exact closed_between ho hc []
  · exact closed_between ho hc _

theorem isClean_enclose (l : Layout) (level : Nat) {items : List Text}
    (h : ∀ t ∈ items, Closed t) :
    isClean (l.enclose level opening closing items) = items.all isClean := by
  rw [Layout.enclose]
  split
  · rename_i hnil
    rw [List.isEmpty_iff.mp hnil]
    exact isClean_between ho hc []
  · rw [List.cons_append, List.cons_append, isClean_between ho hc,
      isClean_append_ascii (isAscii_lineStart l level),
      isClean_ascii_append (isAscii_lineStart l (level + 1)),
      isClean_join (isAscii_separator l (level + 1)) h]

end Enclose

section

variable (hl : l.ascii = false)
include hl

/-- A JSON text begins and ends in ASCII. -/
theorem closed_writeAt (level : Nat) (v : Value) : Closed (writeAt l level v) := by
  cases v with
  | null => exact closed_of_isAscii (a := ("null" : Text)) (by decide) (by decide)
  | bool b => exact closed_of_isAscii (isAscii_bool b).1 (isAscii_bool b).2
  | int n => exact closed_of_isAscii (Text.isAscii_ofInt n) (Text.ofInt_ne_nil n)
  | float x => exact closed_of_isAscii (isAscii_number x).1 (isAscii_number x).2
  | text t =>
    rw [writeAt, hl]
    exact closed_string t
  | moment iso =>
    rw [writeAt, hl]
    exact closed_string iso
  | array items => exact closed_enclose (by decide) (by decide) l level _
  | table entries => exact closed_enclose (by decide) (by decide) l level _

theorem closed_writeItems (level : Nat) (vs : List Value) :
    ∀ t ∈ writeItems l level vs, Closed t := by
  induction vs with
  | nil => simp [writeItems]
  | cons v vs ih => exact List.forall_mem_cons.mpr ⟨closed_writeAt hl level v, ih⟩

theorem closed_writeEntries (level : Nat) (es : Entries Value) :
    ∀ t ∈ writeEntries l level es, Closed t := by
  induction es with
  | nil => simp [writeEntries]
  | cons e es ih =>
    refine List.forall_mem_cons.mpr ⟨?_, ih⟩
    rw [hl]
    exact ((closed_string e.1).append (closed_of_isAscii (by decide) (by decide))).append
      (closed_writeAt hl level e.2)

end

mutual

/-- A JSON text has an encoding if all texts in the value have one, and only then. -/
theorem isClean_writeAt (hl : l.ascii = false) (level : Nat) :
    ∀ v : Value, isClean (writeAt l level v) = v.texts.all isClean
  | .null => isClean_of_isAscii (a := ("null" : Text)) (by decide)
  | .bool b => isClean_of_isAscii (isAscii_bool b).1
  | .int n => isClean_of_isAscii (Text.isAscii_ofInt n)
  | .float x => isClean_of_isAscii (isAscii_number x).1
  | .text t => by
    rw [writeAt, hl, isClean_string, Value.texts, List.all_cons, List.all_nil, Bool.and_true]
  | .moment iso => by
    rw [writeAt, hl, isClean_string, Value.texts, List.all_cons, List.all_nil, Bool.and_true]
  | .array items => by
    rw [writeAt, isClean_enclose (by decide) (by decide) l level (closed_writeItems hl _ items),
      all_writeItems hl (level + 1) items, Value.texts]
  | .table entries => by
    rw [writeAt, isClean_enclose (by decide) (by decide) l level (closed_writeEntries hl _ entries),
      all_writeEntries hl (level + 1) entries, Value.texts]

theorem all_writeItems (hl : l.ascii = false) (level : Nat) : ∀ vs : List Value,
    (writeItems l level vs).all isClean = (Value.itemTexts vs).all isClean
  | [] => rfl
  | v :: vs => by
    rw [writeItems, Value.itemTexts, List.all_cons, List.all_append, isClean_writeAt hl level v,
      all_writeItems hl level vs]

theorem all_writeEntries (hl : l.ascii = false) (level : Nat) : ∀ es : Entries Value,
    (writeEntries l level es).all isClean = (Value.entryTexts es).all isClean
  | [] => rfl
  | (k, v) :: es => by
    rw [writeEntries, Value.entryTexts, List.all_cons, List.cons_append, List.all_cons,
      List.all_append, hl, List.append_assoc, (closed_string k).isClean_append, isClean_string,
      isClean_ascii_append (by decide), isClean_writeAt hl level v, all_writeEntries hl level es,
      Bool.and_assoc]

end

theorem isClean_indented (v : Value) : isClean (indented v) = true ↔ v.IsEncodable := by
  rw [indented, isClean_writeAt rfl, List.all_eq_true]
  rfl

end Json
end ModuleGraph
