import ModuleGraph.Number.Shortest

/-! Values of configurations and documents: what a JSON text or a configuration file can hold.
Tables keep the order in which their keys were first written; writing a key again replaces its
value in place, which `keys_put` makes precise. -/

namespace ModuleGraph

/-- A value of a document. A moment is a date or a time, held as its ISO text. -/
inductive Value
  | null
  | bool (b : Bool)
  | int (n : Int)
  | float (x : Binary64)
  | text (t : Text)
  | moment (iso : Text)
  | array (items : List Value)
  | table (entries : List (Text × Value))
  deriving Repr, Inhabited

/-- Keys with values, in the order in which the keys were first put. -/
abbrev Entries (α : Type) := List (Text × α)

namespace Entries

variable {α : Type}

def get? (key : Text) : Entries α → Option α
  | [] => none
  | (k, v) :: rest => if k = key then some v else get? key rest

/-- The value of a key is replaced where the key stands; a new key goes to the end. -/
def put (key : Text) (v : α) : Entries α → Entries α
  | [] => [(key, v)]
  | (k, w) :: rest => if k = key then (key, v) :: rest else (k, w) :: put key v rest

def keys (es : Entries α) : List Text := es.map (·.1)

def erase (key : Text) (es : Entries α) : Entries α := es.filter (·.1 != key)

/-- All pairs put one after the other. -/
def ofList (pairs : List (Text × α)) : Entries α := pairs.foldl (fun es (k, v) => es.put k v) []

/-- Putting a value changes what that key gives and nothing else. -/
theorem get?_put (key k : Text) (v : α) (es : Entries α) :
    get? k (put key v es) = if k = key then some v else get? k es := by
  induction es with
  | nil =>
    by_cases h : k = key
    · simp [put, get?, h]
    · simp [put, get?, h, Ne.symm h]
  | cons e es ih =>
    obtain ⟨j, w⟩ := e
    by_cases hj : j = key
    · by_cases h : k = key
      · simp [put, get?, hj, h]
      · simp [put, get?, hj, h, Ne.symm h]
    · by_cases h : j = k
      · simp [put, get?, h, h ▸ hj]
      · simp [put, get?, hj, h, ih]

theorem get?_erase (key k : Text) (es : Entries α) :
    get? k (erase key es) = if k = key then none else get? k es := by
  induction es with
  | nil => simp [erase, get?]
  | cons e es ih =>
    obtain ⟨j, w⟩ := e
    simp only [erase] at ih
    by_cases hj : j = key
    · by_cases h : k = key
      · subst h
        simpa [erase, hj] using ih
      · simp [erase, get?, hj, ih, h, Ne.symm h]
    · by_cases h : j = k
      · simp [erase, get?, h, h ▸ hj]
      · simp [erase, get?, hj, h, ih]

theorem get?_append (k : Text) (es fs : Entries α) :
    get? k (es ++ fs) = (get? k es).or (get? k fs) := by
  induction es with
  | nil => simp [get?]
  | cons e es ih =>
    obtain ⟨j, w⟩ := e
    by_cases h : j = k <;> simp [get?, h, ih]

theorem mem_keys_iff (k : Text) (es : Entries α) : k ∈ keys es ↔ ∃ v, get? k es = some v := by
  induction es with
  | nil => simp [keys, get?]
  | cons e es ih =>
    obtain ⟨j, w⟩ := e
    by_cases h : j = k
    · simp [keys, get?, h]
    · simp only [keys] at ih
      simp [keys, get?, h, Ne.symm h, ih]

/-- Where no key is repeated, every entry is the one that its key gives. -/
theorem get?_of_mem {key : Text} {v : α} {es : Entries α} (h : (keys es).Nodup)
    (hm : (key, v) ∈ es) : get? key es = some v := by
  induction es with
  | nil => simp at hm
  | cons e es ih =>
    obtain ⟨j, w⟩ := e
    simp only [keys, List.map_cons, List.nodup_cons] at h
    rcases List.mem_cons.mp hm with he | hm
    · cases he
      simp [get?]
    · have hne : j ≠ key := by
        rintro rfl
        exact h.1 (List.mem_map_of_mem (f := (·.1)) hm)
      rw [get?, if_neg hne]
      exact ih h.2 hm

theorem keys_put (key : Text) (v : α) (es : Entries α) :
    keys (put key v es) = if key ∈ keys es then keys es else keys es ++ [key] := by
  induction es with
  | nil => simp [put, keys]
  | cons e es ih =>
    obtain ⟨k, w⟩ := e
    by_cases h : k = key
    · simp [put, keys, h]
    · have h' : ¬key = k := fun e => h e.symm
      by_cases hm : key ∈ keys es
      · rw [if_pos hm] at ih
        simp_all [put, keys]
      · rw [if_neg hm] at ih
        simp_all [put, keys]

end Entries

namespace Value

/-- A whole number, whether it was written as one or is a truth value. -/
def whole? : Value → Option Int
  | .int n => some n
  | .bool b => some (if b then 1 else 0)
  | _ => none

/-- Everything counts as true but nothing, zero, and what is empty. -/
def isTruthy : Value → Bool
  | .null => false
  | .bool b => b
  | .int n => n != 0
  | .float x => !x.isZero
  | .text t => !t.isEmpty
  | .moment _ => true
  | .array items => !items.isEmpty
  | .table entries => !entries.isEmpty

def ofNat (n : Nat) : Value := .int n

def ofOption (t : Option Text) : Value := (t.map Value.text).getD .null

end Value
end ModuleGraph
