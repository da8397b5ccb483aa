import ModuleGraph.Screen
import ModuleGraph.Session

/-! What a command ends with: an exit code and what was shown. A fault that has a message is shown
and ends the command; the others are left to the caller. -/

namespace ModuleGraph

/-- The end of a command: its exit code, what it showed on the screen and about errors, and the
plain text that it printed. -/
structure Outcome where
  exit : Nat := 0
  rows : List Row := []
  errors : List Row := []
  printed : Text := []
  deriving Repr, DecidableEq

namespace Outcome

/-- The exit code of a command that found something, and of one that failed. -/
def findings : Nat := 1

def failure : Nat := 2

/-- The end of a command that failed with a message. -/
def failed (message : Text) : Outcome where
  exit := failure
  errors := [.line ("[red]❌ " ++ Screen.escape message ++ "[/red]")]

/-- The end of a command that could not write a file. -/
def notWritten (path reason : Text) : Outcome where
  exit := failure
  errors := [.line ("[red]❌ Cannot write " ++ Screen.escape path ++ ": " ++
    Screen.escape reason ++ "[/red]")]

/-- The end of a command that showed rows; it exits with a code of its own if it found
something. -/
def shown (rows : List Row) (found : Bool) : Outcome where
  exit := if found then findings else 0
  rows

/-- A run, and what comes after it; a fault with a message ends the command. -/
def guarded {α : Type} (run : Run α) (next : α → Run Outcome) : Run Outcome := fun session => do
  let (result, session) ← run session
  match result with
  | .ok a => next a session
  | .error fault =>
    match fault.message with
    | some message => return (.ok (failed message), session)
    | none => return (.error fault, session)

/-- The exit code of a run: that of its outcome, or the one of a program that ends in a fault. -/
def exitCode : Except Fault Outcome → Nat
  | .ok o => o.exit
  | .error _ => 1

end Outcome
end ModuleGraph
