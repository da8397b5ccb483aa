import ModuleGraph.Analysis.Basic
import ModuleGraph.Backup.Basic
import ModuleGraph.Respell.Files

/-! Respelling the sources of a project with one of the rule sets, after a backup if that is asked
for. A dry run makes no backup. -/

namespace ModuleGraph

/-- How the sources of a project are to be respelled. -/
structure RespellRequest where
  root : Option Text := none
  dryRun : Bool := false
  ruleSet : Text := "computed"
  backup : Bool := false

namespace Respell

/-- The rules of a set for a mark that stands for `root`. -/
def rulesFor (s : Settings) (mark root set : Text) : Except Fault (List Rule) :=
  if set = "computed" then .ok (Rule.computedRules ⟨root, mark, s.skipSame.isTruthy⟩)
  else if set = "deep" then .ok (Rule.fixedRules mark Rule.knownDirectories Rule.knownDepths)
  else .error (.unknownRuleSet set)

/-- The rules of a set. The mark has to be one of the aliases, or else what it marks would not be
resolved. -/
def rules (s : Settings) (cwd set : Text) : Except Fault (List Rule) := do
  let roots ← s.aliasEntries cwd
  match s.mark with
  | .text mark =>
    match Entries.get? mark roots with
    | some root => rulesFor s mark root set
    | none => .error (.markWithoutAlias mark (Entries.keys roots))
  | v =>
    if Settings.isKey v then .error (.markWithoutAlias v.shown (Entries.keys roots))
    else .error .wrongType

def backupDescription : Text := "Before import rewrite"

/-- The backup before a respelling, if there is to be one. -/
def backUp (s : Settings) (request : RespellRequest) : Run (Option Text) := do
  if request.backup && !request.dryRun then
    let b := Backups.ofSettings s (← get).cwd
    return some (← b.create s backupDescription).id
  else return none

/-- All sources below a directory respelled. -/
def project (s : Settings) (request : RespellRequest) : Run RespellReport := do
  let cwd := (← get).cwd
  let resolver ← Run.of (s.resolver cwd)
  let rules ← Run.of (rules s cwd request.ruleSet)
  let paths ← Analysis.scan s request.root
  let backup ← backUp s request
  let limit ← Run.of s.limit
  let respeller : Respeller := ⟨cwd, rules, some resolver, request.dryRun, limit⟩
  let (t, report, notices) := respeller.respellEach (← get).tree paths
  Run.setTree t
  Run.note notices
  return { report with backup }

end Respell
end ModuleGraph
