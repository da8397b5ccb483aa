import ModuleGraph.Files.Walk

/-! Everything that can end a run early. The first group are faults of the input that a user is
told about; the second group are faults of single values and files that nothing provides for. -/

namespace ModuleGraph

/-- Why a run ends early. -/
inductive Fault
  | noSourceDirectory (root : Text)
  | fileRefused (path reason : Text)
  | configUnreadable (path cause : Text)
  | settingNotList (key : Text)
  | settingNotCount (key : Text)
  | timeoutNotPositive
  | aliasesNotTable
  | markWithoutAlias (mark : Text) (marks : List Text)
  | unknownRuleSet (name : Text)
  | backupNotCreated (path : Text) (cause : FileError)
  | backupNotDescribed (path : Text) (cause : FileError)
  | backupNotDeleted (id : Text) (cause : FileError)
  | backupIdInvalid (id : Text)
  | backupMissing (id : Text)
  | noBackups (directory : Text)
  | reportNotWritten (path : Text) (cause : FileError)
  | wrongType
  | missingKey
  | pastEnd
  | noSuchOperation
  | notUtf8
  | notEncodable
  | notShowable
  | tooLarge
  | file (cause : FileError)
  deriving Repr, DecidableEq

namespace Fault

/-- The rule sets that can be asked for. -/
def ruleSets : List Text := ["computed", "deep"]

/-- The message for the user; faults of the second group have none. -/
def message : Fault → Option Text
  | .noSourceDirectory root => some ("Source directory not found: " ++ root)
  | .fileRefused path reason => some (path ++ ": " ++ reason)
  | .configUnreadable path cause => some ("Cannot read config file " ++ path ++ ": " ++ cause)
  | .settingNotList key => some ("'" ++ key ++ "' must be a list")
  | .settingNotCount key => some ("'" ++ key ++ "' must be a positive integer")
  | .timeoutNotPositive => some "'read_timeout' must be a positive number"
  | .aliasesNotTable => some "'aliases' must be a table of prefix = directory"
  | .markWithoutAlias mark marks =>
    let joined := Text.join ", " marks
    let listed : Text := if joined.isEmpty then "none" else joined
    some ("Alias prefix '" ++ mark ++ "' is not among the configured aliases (" ++ listed ++ ")")
  | .unknownRuleSet name =>
    some ("Unknown rule set '" ++ name ++ "'. Choose one of: " ++ Text.join ", " ruleSets)
  | .backupNotCreated path cause =>
    some ("Cannot create backup directory " ++ path ++ ": " ++ cause.reason)
  | .backupNotDescribed path cause =>
    some ("Cannot write backup metadata in " ++ path ++ ": " ++ cause.reason)
  | .backupNotDeleted id cause => some ("Cannot delete " ++ id ++ ": " ++ cause.reason)
  | .backupIdInvalid id => some ("Invalid backup id '" ++ id ++ "'")
  | .backupMissing id => some ("Backup not found: " ++ id)
  | .noBackups directory => some ("No backups found in " ++ directory)
  | .reportNotWritten path cause => some ("Cannot write report " ++ path ++ ": " ++ cause.reason)
  | _ => none

end Fault
end ModuleGraph
