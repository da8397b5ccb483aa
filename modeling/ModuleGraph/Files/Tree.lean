import ModuleGraph.Text.Utf8

/-! File trees as plain data. A place is the list of names from the root to an entry; the root is
a directory that is always there. `find?_set` says what writing one entry changes. -/

namespace ModuleGraph

/-- The names from the root of the tree down to an entry. -/
abbrev Place := List Text

/-- What can stand at a place. -/
inductive Entry
  | file (bytes : Bytes)
  | directory
  | link (target : Text)
  deriving Repr, DecidableEq

/-- The entries of a tree, the root left out. -/
structure Tree where
  entries : List (Place × Entry) := []
  deriving Repr, DecidableEq

namespace Tree

/-- The first entry written for a place. -/
def lookup (p : Place) : List (Place × Entry) → Option Entry
  | [] => none
  | (q, e) :: rest => if q = p then some e else lookup p rest

/-- What stands at a place. -/
def find? (t : Tree) (p : Place) : Option Entry :=
  match p with
  | [] => some .directory
  | p => lookup p t.entries

/-- An entry replaced, or added at the end. -/
def put (p : Place) (e : Entry) : List (Place × Entry) → List (Place × Entry)
  | [] => [(p, e)]
  | (q, d) :: rest => if q = p then (p, e) :: rest else (q, d) :: put p e rest

/-- The tree with `e` at the place `p`; the root stays as it is. -/
def set (t : Tree) (p : Place) (e : Entry) : Tree :=
  match p with
  | [] => t
  | p => ⟨put p e t.entries⟩

/-- The tree without the entry at a place and everything below it. -/
def remove (t : Tree) (p : Place) : Tree := ⟨t.entries.filter fun (q, _) => !p.isPrefixOf q⟩

/-- The tree without the entry at a place. -/
def erase (t : Tree) (p : Place) : Tree := ⟨t.entries.filter fun (q, _) => decide (q ≠ p)⟩

/-- The name of a place in a directory, if it is directly in it. -/
def nameIn (directory place : Place) : Option Text :=
  if place ≠ [] ∧ place.dropLast = directory then place.getLast? else none

/-- The names in a directory, in code-point order. -/
def names (t : Tree) (directory : Place) : List Text :=
  Text.sorted (t.entries.filterMap fun (p, _) => nameIn directory p)

/-- The places of all directories. -/
def directories (t : Tree) : List Place :=
  [] :: t.entries.filterMap fun (p, e) => if e = .directory then some p else none

/-- The places and contents of all files. -/
def files (t : Tree) : List (Place × Bytes) :=
  t.entries.filterMap fun (p, e) =>
    match e with
    | .file bytes => some (p, bytes)
    | _ => none

theorem lookup_put (p q : Place) (e : Entry) (es : List (Place × Entry)) :
    lookup q (put p e es) = if q = p then some e else lookup q es := by
  induction es with
  | nil =>
    by_cases h : q = p
    · simp [put, lookup, h]
    · simp [put, lookup, h, Ne.symm h]
  | cons a es ih =>
    obtain ⟨r, d⟩ := a
    by_cases hr : r = p
    · subst hr
      by_cases h : q = r
      · simp [put, lookup, h]
      · simp [put, lookup, h, Ne.symm h]
    · by_cases h : q = p
      · subst h
        simp [put, lookup, hr, ih]
      · by_cases hq : r = q
        · simp [put, lookup, hq, h]
        · simp [put, lookup, hr, hq, h, ih]

/-- Writing an entry changes that entry alone. -/
theorem find?_set {t : Tree} {p : Place} (hp : p ≠ []) (e : Entry) (q : Place) :
    (t.set p e).find? q = if q = p then some e else t.find? q := by
  cases p with
  | nil => exact absurd rfl hp
  | cons a p =>
    cases q with
    | nil => simp [find?]
    | cons b q => simp only [set, find?, lookup_put]

end Tree
end ModuleGraph
