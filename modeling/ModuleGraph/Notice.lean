import ModuleGraph.Files.Walk

/-! What a run tells about itself on the side. Each notice has a level and a message; a notice
about something that failed also carries the cause, which is shown after the message. -/

namespace ModuleGraph

inductive Level
  | debug
  | info
  | warning
  | error
  deriving Repr, DecidableEq

namespace Level

def name : Level → Text
  | .debug => "DEBUG"
  | .info => "INFO"
  | .warning => "WARNING"
  | .error => "ERROR"

/-- Levels in the order of their weight. -/
def weight : Level → Nat
  | .debug => 0
  | .info => 1
  | .warning => 2
  | .error => 3

end Level

/-- What happened. -/
inductive Notice
  | configLoaded (path : Text)
  | unknownKeys (keys : List Text)
  | pathAliasesUnreadable (path cause : Text)
  | linkSkipped (path real : Text)
  | alreadyVisited (path : Text)
  | entryUnreadable (path : Text) (cause : FileError)
  | sourceSkipped (path reason : Text)
  | sourcesLoaded (loaded skipped : Nat)
  | specifierUnresolved (specifier file base : Text)
  | graphBuilt (nodes edges unresolved : Nat)
  | respelledUnresolved (message : Text)
  | fileRespelled (path : Text) (changes : Nat)
  | fileWouldChange (path : Text) (changes : Nat)
  | fileNotTransformed (path reason : Text)
  | outsideProject (path root : Text)
  | notBackedUp (path : Text) (cause : FileError)
  | noCommit (directory cause : Text)
  | backupCreated (id : Text) (files : Nat)
  | backupUnreadable (path cause : Text)
  | backupFileMissing (name : Text)
  | notRestored (name : Text) (cause : FileError)
  | restored (dryRun : Bool) (files : Nat) (id : Text) (failed : Nat)
  | backupDeleted (id : Text)
  deriving Repr, DecidableEq

namespace Notice

def level : Notice → Level
  | .configLoaded _ | .linkSkipped .. | .alreadyVisited _ | .specifierUnresolved ..
  | .graphBuilt .. | .noCommit .. => .debug
  | .sourcesLoaded .. | .fileRespelled .. | .fileWouldChange .. | .backupCreated ..
  | .restored .. | .backupDeleted _ => .info
  | .unknownKeys _ | .pathAliasesUnreadable .. | .entryUnreadable .. | .sourceSkipped ..
  | .respelledUnresolved _ | .outsideProject .. | .notBackedUp .. | .backupUnreadable ..
  | .backupFileMissing _ | .notRestored .. => .warning
  | .fileNotTransformed .. => .error

/-- The message without the cause. -/
def headline : Notice → Text
  | .configLoaded path => "Loading configuration from " ++ path
  | .unknownKeys keys => "Ignoring unknown config keys: " ++ Text.join ", " keys
  | .pathAliasesUnreadable path _ => "Could not read path aliases from " ++ path
  | .linkSkipped path real => "Skipping symlinked directory " ++ path ++ " -> " ++ real
  | .alreadyVisited path => "Skipping already visited directory " ++ path
  | .entryUnreadable path _ => "Cannot stat " ++ path
  | .sourceSkipped path reason => "Skipping " ++ path ++ ": " ++ reason
  | .sourcesLoaded loaded skipped =>
    "Loaded " ++ Text.ofNat loaded ++ " source files (" ++ Text.ofNat skipped ++ " skipped)"
  | .specifierUnresolved specifier file base =>
    "Unresolved " ++ specifier ++ " from " ++ file ++ " (base " ++ base ++ ")"
  | .graphBuilt nodes edges unresolved =>
    "Built graph: " ++ Text.ofNat nodes ++ " nodes, " ++ Text.ofNat edges ++ " edges, " ++
      Text.ofNat unresolved ++ " unresolved"
  | .respelledUnresolved message => message
  | .fileRespelled path changes =>
    "Rewrote " ++ path ++ " (" ++ Text.ofNat changes ++ " imports)"
  | .fileWouldChange path changes =>
    "Would rewrite " ++ path ++ " (" ++ Text.ofNat changes ++ " imports)"
  | .fileNotTransformed path reason => "Failed to transform " ++ path ++ ": " ++ reason
  | .outsideProject path root => "Not backing up " ++ path ++ ": outside " ++ root
  | .notBackedUp path _ => "Could not back up " ++ path
  | .noCommit directory _ => "No git commit for " ++ directory
  | .backupCreated id files => "Created " ++ id ++ " with " ++ Text.ofNat files ++ " files"
  | .backupUnreadable path _ => "Ignoring unreadable backup metadata " ++ path
  | .backupFileMissing name => "Backup file missing or outside the project: " ++ name
  | .notRestored name _ => "Could not restore " ++ name
  | .restored dryRun files id failed =>
    (if dryRun then "Would restore" else "Restored" : Text) ++ " " ++ Text.ofNat files ++
      " files from " ++ id ++ " (" ++ Text.ofNat failed ++ " failed)"
  | .backupDeleted id => "Deleted " ++ id

/-- The cause of what failed. -/
def cause? : Notice → Option Text
  | .pathAliasesUnreadable _ cause | .noCommit _ cause | .backupUnreadable _ cause => some cause
  | .entryUnreadable _ cause | .notBackedUp _ cause | .notRestored _ cause => some cause.reason
  | _ => none

/-- The whole message. -/
def message (n : Notice) : Text :=
  match n.cause? with
  | some cause => n.headline ++ ": " ++ cause
  | none => n.headline

end Notice
end ModuleGraph
