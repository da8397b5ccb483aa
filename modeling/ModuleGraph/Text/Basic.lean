/-! Texts as lists of characters: cutting at a separator, joining, replacing, and the order by
code point. `splitOn_append_cons` says where the pieces of a joined text fall. -/

namespace ModuleGraph

/-- A text is the list of its characters. -/
abbrev Text := List Char

instance : Coe String Text := ⟨String.toList⟩

-- both have a name, so that no test of membership carries a proof of its own
instance (priority := high) : LawfulBEq Text := inferInstance

instance (priority := high) : LawfulBEq (List Text) := inferInstance

namespace Text

/-- One step of `splitOn`, from the right: a separator opens a new piece. -/
def splitStep (sep c : Char) (pieces : List Text) : List Text :=
  if c = sep then [] :: pieces
  else match pieces with
    | [] => [[c]]
    | piece :: rest => (c :: piece) :: rest

/-- The pieces between the separators; there is always one more piece than separators. -/
def splitOn (sep : Char) (t : Text) : List Text := t.foldr (splitStep sep) [[]]

/-- The pieces put together again with `sep` between them. -/
def join (sep : Text) (pieces : List Text) : Text := sep.intercalate pieces

/-- Does `t` begin with `head`? -/
def startsWith (t head : Text) : Bool := head.isPrefixOf t

/-- Does `t` end with `tail`? -/
def endsWith (t tail : Text) : Bool := tail.isSuffixOf t

/-- What follows `head` at the beginning of a text. -/
def after? : (head t : Text) → Option Text
  | [], t => some t
  | _ :: _, [] => none
  | c :: head, d :: t => if c = d then after? head t else none

/-- Does `part` stand somewhere in the text? -/
def includes (part : Text) : Text → Bool
  | [] => part.isEmpty
  | c :: cs => part.isPrefixOf (c :: cs) || includes part cs

/-- Everything up to the last separator, that one included, and what follows it. -/
def cutAfterLast (sep : Char) (t : Text) : Text × Text :=
  let tail := (t.reverse.takeWhile (· != sep)).reverse
  (t.take (t.length - tail.length), tail)

/-- Every character that is `c` becomes `new`. -/
def replaceChar (c : Char) (new : Text) (t : Text) : Text :=
  t.flatMap fun d => if d = c then new else [d]

/-- The order by code point, first difference first. -/
def le (a b : Text) : Bool := !decide (b < a)

/-- The texts in code-point order; equal ones keep their places. -/
def sorted (ts : List Text) : List Text := ts.mergeSort le

/-- A natural number in decimal digits. -/
def ofNat (n : Nat) : Text := Nat.toDigits 10 n

/-- An integer in decimal digits, a minus sign before a negative one. -/
def ofInt : Int → Text
  | .ofNat n => ofNat n
  | .negSucc n => '-' :: ofNat (n + 1)

@[simp] theorem splitOn_nil (sep : Char) : splitOn sep [] = [[]] := rfl

theorem splitOn_cons (sep c : Char) (t : Text) :
    splitOn sep (c :: t) = splitStep sep c (splitOn sep t) := rfl

theorem splitOn_ne_nil (sep : Char) (t : Text) : splitOn sep t ≠ [] := by
  cases t with
  | nil => simp
  | cons c t =>
    rw [splitOn_cons]
    unfold splitStep
    split
    · simp
    · split <;> simp

/-- A text without the separator is its own only piece. -/
theorem splitOn_of_not_mem {sep : Char} {t : Text} (h : sep ∉ t) : splitOn sep t = [t] := by
  induction t with
  | nil => rfl
  | cons c t ih =>
    simp only [List.mem_cons, not_or] at h
    rw [splitOn_cons, ih h.2]
    simp [splitStep, Ne.symm h.1]

theorem splitOn_append_cons {sep : Char} {a : Text} (h : sep ∉ a) (b : Text) :
    splitOn sep (a ++ sep :: b) = a :: splitOn sep b := by
  induction a with
  | nil => simp [splitOn_cons, splitStep]
  | cons c a ih =>
    simp only [List.mem_cons, not_or] at h
    rw [List.cons_append, splitOn_cons, ih h.2]
    simp [splitStep, Ne.symm h.1]

end Text
end ModuleGraph
