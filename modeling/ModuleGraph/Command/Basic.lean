import ModuleGraph.Command.Arguments
import ModuleGraph.Fault
import ModuleGraph.Path

/-! The commands of the program, and what the arguments of a command line ask for. -/

namespace ModuleGraph

/-- The form in which a graph is drawn. -/
inductive DrawingFormat
  | page
  | dot
  deriving Repr, DecidableEq

namespace DrawingFormat

def name : DrawingFormat → Text
  | .page => "html"
  | .dot => "dot"

/-- The form of a name, in letters of either case. -/
def ofName? (t : Text) : Option DrawingFormat :=
  [page, dot].find? fun f => f.name = t.map Char.toLower

end DrawingFormat

/-- A command with its arguments. Paths are tidy. -/
inductive Command
  | analyze (source report : Option Text) (top : Option Int)
  | checkCycles (directory report : Option Text)
  | transform (source : Option Text) (dryRun : Bool) (ruleSet : Text) (backup : Bool)
      (report : Option Text)
  | validate (source report : Option Text)
  | unusedImports (source report : Option Text)
  | exportGraph (focus : Text) (source : Option Text) (format : DrawingFormat)
      (output : Option Text)
  | showSettings
  | initSettings (path : Option Text) (force user : Bool)
  | createBackup (description : Text) (source : Option Text)
  | listBackups
  | restoreBackup (id : Option Text) (dryRun : Bool)
  | deleteBackup (id : Text)
  deriving Repr, DecidableEq

/-- What a command line asks for. -/
inductive Request
  | wrongUsage
  | help
  | version
  | run (verbose : Bool) (command : Command)
  deriving Repr, DecidableEq

namespace Request

def helpName : Text := "help"

def helpForm : OptionForm := { name := helpName }

def sourceForm : OptionForm := { name := "src", letter := some 's', hasValue := true }

def reportForm : OptionForm := { name := "report", letter := some 'r', hasValue := true }

def dryRunForm : OptionForm := { name := "dry-run" }

/-- The value of an option that is a path. -/
def path? (g : Given) (name : Text) : Option Text := (g.value? name).map Path.tidy

/-- A command from its options and its other arguments. -/
abbrev Maker := Given → List Text → Option Command

/-- The number that was asked for, if one was; it has to be one or more. -/
def top? (g : Given) : Option (Option Int) :=
  match g.value? "top" with
  | none => some none
  | some t =>
    match Given.number? t with
    | some n => if 1 ≤ n then some (some n) else none
    | none => none

def makeAnalyze : Maker
  | g, [] => (top? g).map fun top => .analyze (path? g "src") (path? g "report") top
  | _, _ => none

def makeCheckCycles : Maker
  | g, [] => some (.checkCycles (path? g "dir") (path? g "report"))
  | _, _ => none

def makeTransform : Maker
  | g, [] =>
    let set := (g.value? "rules").getD "computed"
    if set ∈ Fault.ruleSets then
      some (.transform (path? g "src") (g.hasFlag "dry-run") set (g.hasFlag "backup")
        (path? g "report"))
    else none
  | _, _ => none

def makeValidate : Maker
  | g, [] => some (.validate (path? g "src") (path? g "report"))
  | _, _ => none

def makeUnusedImports : Maker
  | g, [] => some (.unusedImports (path? g "src") (path? g "report"))
  | _, _ => none

def makeExportGraph (g : Given) (focus : Text) : Option Command :=
  (DrawingFormat.ofName? ((g.value? "format").getD "html")).map fun format =>
    .exportGraph focus (path? g "src") format (path? g "output")

def makeExport : Maker
  | g, [] => makeExportGraph g []
  | g, [focus] => makeExportGraph g focus
  | _, _ => none

def makeShow : Maker
  | _, [] => some .showSettings
  | _, _ => none

def makeInit : Maker
  | g, [] => some (.initSettings (path? g "path") (g.hasFlag "force") (g.hasFlag "user"))
  | _, _ => none

def makeCreate : Maker
  | g, [] => some (.createBackup "Manual backup" (path? g "src"))
  | g, [description] => some (.createBackup description (path? g "src"))
  | _, _ => none

def makeList : Maker
  | _, [] => some .listBackups
  | _, _ => none

def makeRestore : Maker
  | g, [] => some (.restoreBackup none (g.hasFlag "dry-run"))
  | g, [id] => some (.restoreBackup (some id) (g.hasFlag "dry-run"))
  | _, _ => none

def makeDelete : Maker
  | _, [id] => some (.deleteBackup id)
  | _, _ => none

/-- The options and the maker of a command. -/
structure CommandForm where
  name : Text
  options : List OptionForm
  make : Maker

def mainForms : List CommandForm := [
  ⟨"analyze", [sourceForm, reportForm, { name := "top", hasValue := true }], makeAnalyze⟩,
  ⟨"check-cycles", [{ name := "dir", letter := some 'd', hasValue := true }, reportForm],
    makeCheckCycles⟩,
  ⟨"transform", [sourceForm, dryRunForm, { name := "rules", hasValue := true },
    { name := "backup" }, reportForm], makeTransform⟩,
  ⟨"validate", [sourceForm, reportForm], makeValidate⟩,
  ⟨"unused-imports", [sourceForm, reportForm], makeUnusedImports⟩,
  ⟨"export-graph", [sourceForm, { name := "format", letter := some 'f', hasValue := true },
    { name := "output", letter := some 'o', hasValue := true }], makeExport⟩]

def configForms : List CommandForm := [
  ⟨"show", [], makeShow⟩,
  ⟨"init", [{ name := "path", letter := some 'p', hasValue := true }, { name := "force" },
    { name := "user" }], makeInit⟩]

def backupForms : List CommandForm := [
  ⟨"create", [sourceForm], makeCreate⟩,
  ⟨"list", [], makeList⟩,
  ⟨"restore", [dryRunForm], makeRestore⟩,
  ⟨"delete", [], makeDelete⟩]

/-- What the arguments of a command ask for. -/
def ofCommand (verbose : Bool) (form : CommandForm) (args : List Text) : Request :=
  match Arguments.read (helpForm :: form.options) true args with
  | none => .wrongUsage
  | some g =>
    if g.hasFlag helpName then .help
    else match form.make g g.others with
      | some command => .run verbose command
      | none => .wrongUsage

/-- What the name of a command and its arguments ask for. -/
def ofForms (verbose : Bool) (forms : List CommandForm) : List Text → Request
  | [] => .wrongUsage
  | name :: args =>
    match forms.find? (·.name = name) with
    | some form => ofCommand verbose form args
    | none => .wrongUsage

/-- What the arguments after the name of a group of commands ask for. -/
def ofGroup (verbose : Bool) (forms : List CommandForm) (args : List Text) : Request :=
  match Arguments.read [helpForm] false args with
  | none => .wrongUsage
  | some g => if g.hasFlag helpName then .help else ofForms verbose forms g.others

/-- The groups of commands. -/
def groups : Entries (List CommandForm) := [("config", configForms), ("backup", backupForms)]

def generalForms : List OptionForm := [
  helpForm, { name := "version", letter := some 'v' }, { name := "verbose" }]

/-- What comes before the command: the first of the flags that end the run at once counts. -/
def ofGeneral (g : Given) : Request :=
  match g.flags.find? fun f => f == helpName || f == "version".toList with
  | some f => if f = helpName then .help else .version
  | none =>
    let verbose := g.hasFlag "verbose"
    match g.others with
    | [] => .wrongUsage
    | name :: args =>
      match Entries.get? name groups with
      | some forms => ofGroup verbose forms args
      | none => ofForms verbose mainForms (name :: args)

/-- What a command line asks for. -/
def ofArguments (args : List Text) : Request :=
  match Arguments.read generalForms false args with
  | none => .wrongUsage
  | some g => ofGeneral g

end Request
end ModuleGraph
