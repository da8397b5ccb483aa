import ModuleGraph.Fault
import ModuleGraph.Moment
import ModuleGraph.Notice

/-! A session: the file tree, the clock and what was noticed so far. A run changes the session
and ends with a result or a fault; what it did before a fault stays done. -/

namespace ModuleGraph

/-- What runs work on. `home` is the user's own directory; `commit` is what the version control
says when asked for the commit, if it answers. -/
structure Session where
  tree : Tree
  cwd : Text
  home : Text := ['/']
  clock : Clock := {}
  commit : Option Text := none
  notices : List Notice := []
  deriving Repr, DecidableEq

/-- A step that may change the session and may end in a fault. -/
abbrev Run (α : Type) := ExceptT Fault (StateM Session) α

namespace Run

/-- A result or fault that needs no session. -/
def of {α : Type} (outcome : Except Fault α) : Run α := ExceptT.mk (pure outcome)

/-- Notices added to those of the session. -/
def note (notices : List Notice) : Run Unit :=
  modify fun s => { s with notices := s.notices ++ notices }

def setTree (t : Tree) : Run Unit := modify fun s => { s with tree := t }

/-- A change of the tree. What the file system refuses ends the run. -/
def change (f : Tree → Except FileError Tree) : Run Unit := do
  match f (← get).tree with
  | .ok t => setTree t
  | .error e => throw (.file e)

/-- The moment that the clock shows. -/
def now : Run Moment := do
  let (m, clock) := (← get).clock.tick
  modify fun s => { s with clock }
  return m

/-- What a run ends with, and the session after it. -/
def perform {α : Type} (r : Run α) (s : Session) : Except Fault α × Session := r.run.run s

end Run
end ModuleGraph
