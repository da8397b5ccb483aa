import ModuleGraph.Dependencies
import ModuleGraph.Files.Change
import ModuleGraph.Respell.Basic
import ModuleGraph.Source.Load

/-! Respelling files in place. A file is read, respelled and, unless the run is a dry one, written
back if it changed; bytes that are not UTF-8 survive this. Every respelled specifier is resolved
again, and those that lead nowhere are warned about. -/

namespace ModuleGraph

/-- What became of one file. -/
structure FileRespelling where
  file : Text
  respelled : Respelled
  warnings : List Text := []
  written : Bool := false
  deriving Repr, DecidableEq

/-- A file that could not be respelled, and why. -/
structure RespellFailure where
  file : Text
  reason : Text
  deriving Repr, DecidableEq

/-- What became of all files, and the backup that was made before. -/
structure RespellReport where
  total : Int
  files : List FileRespelling := []
  failures : List RespellFailure := []
  backup : Option Text := none
  deriving Repr, DecidableEq

namespace RespellReport

-- sums start with the zero of the core library, whatever other ones are in scope
attribute [local instance (high)] Zero.ofOfNat0

def changedFiles (r : RespellReport) : Nat := r.files.countP (·.respelled.hasChanges)

def changedImports (r : RespellReport) : Nat :=
  (r.files.map (·.respelled.changes.length)).sum

def success (r : RespellReport) : Bool := r.failures.isEmpty

end RespellReport

/-- How files are respelled. Without a resolver nothing is warned about. -/
structure Respeller where
  cwd : Text
  rules : List Rule
  resolver : Option Resolver
  dryRun : Bool
  limit : Limit

/-- What respelling one file gives: the tree after it, the outcome, and what was noticed. -/
structure RespellStep where
  tree : Tree
  outcome : Except Text FileRespelling
  notices : List Notice

namespace Respeller

/-- The warning about a respelled specifier that leads nowhere. -/
def warning (file : Text) (c : Change) (reason : Unresolvable) : Text :=
  file ++ ':' :: Text.ofInt c.line ++ " rewritten specifier '" ++ c.after ++
    "' does not resolve (" ++ reason.message ++ ")"

/-- The warning about a change, if there is one, with what was noticed. -/
def check (l : Lookup) (file : Text) (c : Change) : List Text × List Notice :=
  match (l.resolve c.after file).reason with
  | none => ([], [])
  | some reason =>
    let w := warning file c reason
    ([w], l.notice c.after file ++ [.respelledUnresolved w])

/-- The warnings about all changes of a file. -/
def checkAll (r : Respeller) (t : Tree) (file : Text) (changes : List Change) :
    List Text × List Notice :=
  match r.resolver with
  | none => ([], [])
  | some resolver =>
    let checks := changes.map (check ⟨resolver, t.isFile r.cwd⟩ file)
    (checks.flatMap (·.1), checks.flatMap (·.2))

/-- One file. -/
def respellFile (r : Respeller) (t : Tree) (path : Text) : RespellStep :=
  match t.readSource r.cwd path r.limit Utf8.decodeKeeping with
  | .error reason => ⟨t, .error reason, [.fileNotTransformed path reason]⟩
  | .ok content =>
    let respelled := Respell.text r.cwd path r.rules content
    let (warnings, noticed) := r.checkAll t path respelled.changes
    let file : FileRespelling := { file := path, respelled, warnings }
    let count := respelled.changes.length
    if !respelled.hasChanges then ⟨t, .ok file, noticed⟩
    else if r.dryRun then ⟨t, .ok file, noticed ++ [.fileWouldChange path count]⟩
    else match t.write r.cwd path (Utf8.encodeKeeping respelled.after) with
      | .error e => ⟨t, .error e.reason, noticed ++ [.fileNotTransformed path e.reason]⟩
      | .ok t => ⟨t, .ok { file with written := true }, noticed ++ [.fileRespelled path count]⟩

/-- One file after another, each on the tree that the ones before it left. -/
def respellEach (r : Respeller) (t : Tree) : List Text → Tree × RespellReport × List Notice
  | [] => (t, ⟨0, [], [], none⟩, [])
  | path :: rest =>
    let step := r.respellFile t path
    let (t, report, notices) := r.respellEach step.tree rest
    let report := match step.outcome with
      | .ok file => { report with total := report.total + 1, files := file :: report.files }
      | .error reason =>
        { report with total := report.total + 1, failures := ⟨path, reason⟩ :: report.failures }
    (t, report, step.notices ++ notices)

end Respeller
end ModuleGraph
