import ModuleGraph.Proofs.Value.Texts
import Mathlib.Data.List.Forall2

/-!
The chunks of a JSON text.

* `Value.moments`, `IsJson`: values without moments;
* `Spells`: chunks that make up a text, each of them with an encoding by itself or not;
* `spells_chunksAt`: the chunks of a value without moments make up its JSON text;
* `faults_chunksAt`: at a moment, and nowhere else, the text breaks off.
-/

namespace ModuleGraph
namespace Value

mutual

/-- The moments in a value. -/
def moments : Value → List Text
  | .moment iso => [iso]
  | .array items => itemMoments items
  | .table entries => entryMoments entries
  | _ => []

def itemMoments : List Value → List Text
  | [] => []
  | v :: rest => v.moments ++ itemMoments rest

def entryMoments : List (Text × Value) → List Text
  | [] => []
  | (_, v) :: rest => v.moments ++ entryMoments rest

end

/-- The value has a JSON text: there is no moment in it. -/
def IsJson (v : Value) : Prop := v.moments = []

@[simp]
theorem isJson_null : IsJson .null := rfl

@[simp]
theorem isJson_bool (b : Bool) : IsJson (.bool b) := rfl

@[simp]
theorem isJson_int (n : Int) : IsJson (.int n) := rfl

@[simp]
theorem isJson_float (x : Binary64) : IsJson (.float x) := rfl

@[simp]
theorem isJson_text (t : Text) : IsJson (.text t) := rfl

@[simp]
theorem isJson_ofNat (n : Nat) : IsJson (.ofNat n) := rfl

@[simp]
theorem isJson_ofOption (t : Option Text) : IsJson (.ofOption t) := by cases t <;> rfl

@[simp]
theorem not_isJson_moment (iso : Text) : ¬ IsJson (.moment iso) := List.cons_ne_nil iso []

@[simp]
theorem isJson_array {items : List Value} : IsJson (.array items) ↔ ∀ v ∈ items, v.IsJson := by
  rw [IsJson, moments]
  induction items with
  | nil => simp [itemMoments]
  | cons v items ih =>
    rw [itemMoments, List.append_eq_nil_iff, ih, List.forall_mem_cons]
    rfl

@[simp]
theorem isJson_table {entries : Entries Value} :
    IsJson (.table entries) ↔ ∀ e ∈ entries, e.2.IsJson := by
  rw [IsJson, moments]
  induction entries with
  | nil => simp [entryMoments]
  | cons e entries ih =>
    obtain ⟨k, v⟩ := e
    rw [entryMoments, List.append_eq_nil_iff, ih, List.forall_mem_cons]
    rfl

end Value

namespace Json

open Utf8

variable {l : Layout} {level : Nat} {chunks : List Chunk} {t u : Text}

/-- Chunks that make up a text. Each of them has an encoding by itself or not, whatever stands
around it. -/
def Spells (chunks : List Chunk) (t : Text) : Prop :=
  ∃ ts : List Text, chunks = ts.map .ok ∧ ts.flatten = t ∧ ∀ u ∈ ts, Closed u

theorem spells_nil : Spells [] [] := ⟨[], rfl, rfl, by simp⟩

theorem spells_singleton (h : Closed t) : Spells [.ok t] t := ⟨[t], rfl, by simp, by simpa using h⟩

theorem Spells.append {more : List Chunk} (h : Spells chunks t) (h' : Spells more u) :
    Spells (chunks ++ more) (t ++ u) := by
  obtain ⟨ts, rfl, rfl, hts⟩ := h
  obtain ⟨us, rfl, rfl, hus⟩ := h'
  refine ⟨ts ++ us, List.map_append.symm, List.flatten_append, fun v hv => ?_⟩
  exact (List.mem_append.mp hv).elim (hts v) (hus v)

theorem Spells.cons (h : Closed t) (h' : Spells chunks u) : Spells (.ok t :: chunks) (t ++ u) :=
  (spells_singleton h).append h'

/-- Chunks with a separator between them. -/
theorem Spells.join {sep : Text} (hsep : Closed sep) {items : List (List Chunk)} {ts : List Text}
    (h : List.Forall₂ Spells items ts) :
    Spells (([.ok sep] : List Chunk).intercalate items) (Text.join sep ts) := by
  induction h with
  | nil => exact spells_nil
  | @cons chunks t items ts hfirst hrest ih =>
    cases hrest with
    | nil => simpa [Text.join] using hfirst
    | @cons more u items ts hnext hrest =>
      have hchunks : ([.ok sep] : List Chunk).intercalate (chunks :: more :: items) =
          chunks ++ (.ok sep :: ([.ok sep] : List Chunk).intercalate (more :: items)) := by
        simp [List.intercalate]
      have htext : Text.join sep (t :: u :: ts) = t ++ (sep ++ Text.join sep (u :: ts)) := by
        simp [Text.join]
      rw [hchunks, htext]
      exact hfirst.append (.cons hsep ih)

/-- Between brackets the chunks of the items make up the text of the items between brackets. -/
theorem Spells.enclose {opening closing : Char} (ho : opening.val.toNat < 0x80)
    (hc : closing.val.toNat < 0x80) (l : Layout) (level : Nat) {items : List (List Chunk)}
    {ts : List Text} (h : List.Forall₂ Spells items ts) :
    Spells (l.encloseChunks level opening closing items)
      (l.enclose level opening closing ts) := by
  have hempty : items.isEmpty = ts.isEmpty := by cases h <;> rfl
  have hstart : Closed (opening :: l.lineStart (level + 1)) :=
    closed_of_isAscii (Text.isAscii_cons.mpr ⟨ho, isAscii_lineStart l _⟩) (List.cons_ne_nil _ _)
  have hend : Closed (l.lineStart level ++ [closing]) :=
    closed_of_isAscii (Text.isAscii_append.mpr
      ⟨isAscii_lineStart l _, Text.isAscii_cons.mpr ⟨hc, Text.isAscii_nil⟩⟩) (by simp)
  have hsep : Closed (l.separator (level + 1)) := by
    refine closed_of_isAscii (isAscii_separator l _) ?_
    unfold Layout.separator
    split <;> exact List.cons_ne_nil _ _
  rw [Layout.encloseChunks, Layout.enclose, hempty]
  split
  · exact spells_singleton (closed_between ho hc [])
  · have hall := (Spells.cons hstart (.join hsep h)).append (spells_singleton hend)
    rw [List.append_assoc] at hall
    simpa [List.append_assoc] using hall

mutual

theorem spells_chunksAt (hl : l.ascii = false) (level : Nat) :
    ∀ v : Value, v.IsJson → Spells (chunksAt l level v) (writeAt l level v)
  | .moment iso => fun h => absurd h (Value.not_isJson_moment iso)
  | .null => fun _ => spells_singleton (closed_writeAt hl level .null)
  | .bool b => fun _ => spells_singleton (closed_writeAt hl level (.bool b))
  | .int n => fun _ => spells_singleton (closed_writeAt hl level (.int n))
  | .float x => fun _ => spells_singleton (closed_writeAt hl level (.float x))
  | .text t => fun _ => spells_singleton (closed_writeAt hl level (.text t))
  | .array items => fun h => by
    rw [chunksAt, writeAt]
    exact .enclose (by decide) (by decide) l level (spells_chunkItems hl _ items
      (Value.isJson_array.mp h))
  | .table entries => fun h => by
    rw [chunksAt, writeAt]
    exact .enclose (by decide) (by decide) l level (spells_chunkEntries hl _ entries
      (Value.isJson_table.mp h))

theorem spells_chunkItems (hl : l.ascii = false) (level : Nat) : ∀ vs : List Value,
    (∀ v ∈ vs, v.IsJson) → List.Forall₂ Spells (chunkItems l level vs) (writeItems l level vs)
  | [] => fun _ => .nil
  | v :: vs => fun h => by
    rw [List.forall_mem_cons] at h
    exact .cons (spells_chunksAt hl level v h.1) (spells_chunkItems hl level vs h.2)

theorem spells_chunkEntries (hl : l.ascii = false) (level : Nat) : ∀ es : Entries Value,
    (∀ e ∈ es, e.2.IsJson) →
      List.Forall₂ Spells (chunkEntries l level es) (writeEntries l level es)
  | [] => fun _ => .nil
  | (k, v) :: es => fun h => by
    rw [List.forall_mem_cons] at h
    have hkey : Closed (string l.ascii k) := by
      rw [hl]
      exact closed_string k
    have hcolon : Closed [':', ' '] := closed_of_isAscii (by decide) (by decide)
    refine .cons ?_ (spells_chunkEntries hl level es h.2)
    rw [List.append_assoc]
    exact .cons hkey (.cons hcolon (spells_chunksAt hl level v h.1))

end

/-- The fault at which a text breaks off. -/
def faultOf : Chunk → Option Fault
  | .ok _ => none
  | .error fault => some fault

/-- The faults in chunks. -/
def faults (chunks : List Chunk) : List Fault := chunks.filterMap faultOf

theorem faults_append (chunks more : List Chunk) :
    faults (chunks ++ more) = faults chunks ++ faults more := List.filterMap_append

theorem faults_ok_cons (t : Text) (chunks : List Chunk) :
    faults (.ok t :: chunks) = faults chunks := List.filterMap_cons_none rfl

theorem faults_intercalate (sep : Text) (items : List (List Chunk)) :
    faults (([.ok sep] : List Chunk).intercalate items) = items.flatMap faults := by
  induction items with
  | nil => rfl
  | cons chunks items ih =>
    cases items with
    | nil => simp
    | cons more items =>
      have hchunks : ([.ok sep] : List Chunk).intercalate (chunks :: more :: items) =
          chunks ++ (.ok sep :: ([.ok sep] : List Chunk).intercalate (more :: items)) := by
        simp [List.intercalate]
      rw [hchunks, faults_append, faults_ok_cons, ih]
      rfl

/-- Brackets and separators are never at fault. -/
theorem faults_encloseChunks (l : Layout) (level : Nat) (opening closing : Char)
    (items : List (List Chunk)) :
    faults (l.encloseChunks level opening closing items) = items.flatMap faults := by
  rw [Layout.encloseChunks]
  split
  · rename_i hempty
    rw [List.isEmpty_iff.mp hempty]
    rfl
  · rw [List.cons_append, faults_ok_cons, faults_append, faults_intercalate]
    exact List.append_nil _

mutual

theorem faults_chunksAt (l : Layout) (level : Nat) :
    ∀ v : Value, faults (chunksAt l level v) = v.moments.map fun _ => Fault.wrongType
  | .null => rfl
  | .bool _ => rfl
  | .int _ => rfl
  | .float _ => rfl
  | .text _ => rfl
  | .moment _ => rfl
  | .array items => by
    rw [chunksAt, faults_encloseChunks, Value.moments]
    exact faults_chunkItems l _ items
  | .table entries => by
    rw [chunksAt, faults_encloseChunks, Value.moments]
    exact faults_chunkEntries l _ entries

theorem faults_chunkItems (l : Layout) (level : Nat) : ∀ vs : List Value,
    (chunkItems l level vs).flatMap faults = (Value.itemMoments vs).map fun _ => Fault.wrongType
  | [] => rfl
  | v :: vs => by
    rw [chunkItems, List.flatMap_cons, faults_chunksAt l level v, faults_chunkItems l level vs,
      Value.itemMoments, List.map_append]

theorem faults_chunkEntries (l : Layout) (level : Nat) : ∀ es : Entries Value,
    (chunkEntries l level es).flatMap faults = (Value.entryMoments es).map fun _ => Fault.wrongType
  | [] => rfl
  | (k, v) :: es => by
    rw [chunkEntries, List.flatMap_cons, faults_ok_cons, faults_ok_cons, faults_chunksAt l level v,
      faults_chunkEntries l level es, Value.entryMoments, List.map_append]

end

end Json
end ModuleGraph
