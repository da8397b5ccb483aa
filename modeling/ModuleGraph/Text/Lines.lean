import ModuleGraph.Text.Basic

/-! Line numbers by offset. The index holds the offsets at which lines start, in increasing
order; the number of the line at an offset is the number of starts that are not after it. -/

namespace ModuleGraph

/-- The offsets at which the lines of a text start. -/
structure LineIndex where
  starts : Array Nat
  deriving Repr

namespace LineIndex

/-- One more character: after a line end the next offset starts a line. -/
def push (state : Nat × Array Nat) (c : Char) : Nat × Array Nat :=
  (state.1 + 1, if c = '\n' then state.2.push (state.1 + 1) else state.2)

/-- The index of a text; the first line starts at offset zero. -/
def ofText (t : Text) : LineIndex := ⟨(t.foldl push (0, #[0])).2⟩

/-- The number of starts up to `offset`, given that it lies between `lo` and `hi`. -/
def countFrom (starts : Array Nat) (offset lo hi : Nat) : Nat :=
  if _h : lo < hi then
    let mid := (lo + hi) / 2
    if offset < starts.getD mid 0 then countFrom starts offset lo mid
    else countFrom starts offset (mid + 1) hi
  else lo
termination_by hi - lo
decreasing_by all_goals omega

/-- The number, counted from one, of the line that holds the character at `offset`. -/
def lineOf (index : LineIndex) (offset : Nat) : Nat :=
  countFrom index.starts offset 0 index.starts.size

end LineIndex

/-- The lines of a text without their line ends. -/
def Text.lines (t : Text) : List Text := t.splitOn '\n'

/-- The lines put together again. -/
def Text.unlines (ls : List Text) : Text := Text.join ['\n'] ls

end ModuleGraph
