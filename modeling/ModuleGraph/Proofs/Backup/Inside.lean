import ModuleGraph.Proofs.Backup.Restore
import ModuleGraph.Proofs.Files.Writes

/-!
Where restoring a backup writes, whatever its record lists.

* `Inside`, `LeadsOut`, `Returns`: paths below the project, out of it, and back to it;
* `relative?_isNone_iff`, `restoreFile_leadsOut`: an entry that leads out of the project is refused;
* `restoreFile_step`: what copying one entry back may do;
* `inside_or_returns`, `Plain.not_returns`: where an entry is written;
* `restoreEach_writes`: what is written by copying one entry after the other back, and where;
* `restore_inside`: all this for a whole restoring;
* `not_restore_inside`: through a link, a path that comes back to the project leads out of it.
-/

namespace ModuleGraph
namespace Backups

open ModuleGraph.Path ModuleGraph.Tree

variable {b : Backups} {t u : Tree} {source name path : Text} {dryRun : Bool} {files : List Text}

/-- A path whose normal form is that of the project with more names after it. -/
structure Inside (b : Backups) (path : Text) : Prop where
  root_eq : root (normalize path) = root b.project
  below : ∃ ns, ns ≠ [] ∧ names (normalize path) = names b.project ++ ns

/-- The normal form of the path that an entry of a record stands for is not in the project. -/
def LeadsOut (b : Backups) (name : Text) : Prop :=
  ¬ names b.project <+: names (normalize (child b.project name))

instance (b : Backups) (name : Text) : Decidable (b.LeadsOut name) :=
  inferInstanceAs (Decidable (¬ names b.project <+: names (normalize (child b.project name))))

/-- The path of an entry that comes back to the project. -/
structure Returns (b : Backups) (name path : Text) : Prop where
  path_eq : path = child b.project name
  normalize_eq : normalize path = b.project

/-- There are no links, and the project is a directory. -/
structure Plain (b : Backups) (t : Tree) : Prop where
  linkFree : t.LinkFree
  directory : t.find? (names b.project) = some .directory

/-- The path to which an entry of a record is written. -/
def writtenPath (b : Backups) (source : Text) (t : Tree) (name : Text) : Text :=
  match t.makeDirectories b.cwd (parent (child b.project name)) true with
  | .ok made => made.copyPath b.cwd (child source name) (child b.project name)
  | .error _ => child b.project name

/-- The entries that are written back one after the other, with the paths to which they are. -/
def writtenPaths (b : Backups) (source : Text) (t : Tree) : List Text → List (Text × Text)
  | [] => []
  | name :: rest =>
    let step := b.restoreFile source false t name
    (if wasRestored (name, step.2) then [(name, b.writtenPath source t name)] else []) ++
      b.writtenPaths source step.1 rest

theorem child_of_isAbsolute (h : isAbsolute name = true) (p : Text) : child p name = tidy name :=
  congrArg tidy (join_of_isAbsolute h)

section

variable (hb : IsNormal b.project)
include hb

theorem isAbsolute_child (name : Text) : isAbsolute (child b.project name) = true :=
  isAbsolute_tidy (isAbsolute_join hb.absolute name)

theorem relative?_isNone_iff (h : isAbsolute path = true) :
    (b.relative? path).isNone = true ↔ ¬ names b.project <+: names (normalize path) := by
  have hleaves : leavesStart (relative b.cwd (normalize path) b.project) = false ↔ _ :=
    leavesStart_relative_iff (isNormal_normalize h) hb
  rw [← hleaves, relative_normalize h, relative?]
  cases leavesStart (relative b.cwd path b.project) with
  | true => simp
  | false => simp

theorem relative?_isNone_eq_false (h : ¬ b.LeadsOut name) :
    (b.relative? (child b.project name)).isNone = false := by
  rw [← Bool.not_eq_true, relative?_isNone_iff hb (isAbsolute_child hb name)]
  exact h

/-- What leads out of the project is refused. -/
theorem restoreFile_leadsOut (h : b.LeadsOut name) (source : Text) (dryRun : Bool) (t : Tree) :
    b.restoreFile source dryRun t name = (t, .refused) := by
  have hnone := (relative?_isNone_iff hb (isAbsolute_child hb name)).mpr h
  rw [restoreFile]
  exact if_pos (by rw [hnone]; rfl)

/-- What does not lead out of it is copied. -/
theorem restoreFile_copied (h : ¬ b.LeadsOut name)
    (hfile : t.isFile b.cwd (child source name) = true)
    (hcopy : b.copyFile t (child source name) (child b.project name) = (u, none)) :
    b.restoreFile source false t name = (u, .restored) := by
  rw [restoreFile, relative?_isNone_eq_false hb h, hfile, hcopy]
  rfl

theorem root_child (h : isAbsolute name = false) :
    root (normalize (child b.project name)) = root b.project := by
  rw [root_normalize (isAbsolute_child hb name), child,
    root_tidy (isAbsolute_join hb.absolute name), root_join hb h]

/-- A name in the directory that an entry leads to is a path below the project. -/
theorem inside_join (h : isAbsolute name = false) (hin : ¬ b.LeadsOut name) {n : Text}
    (hn : IsName n) : b.Inside (join (child b.project name) n) := by
  have habsolute := isAbsolute_child hb name
  obtain ⟨ns, hns⟩ := not_not.mp hin
  have hrelative : isAbsolute n = false := isAbsolute_eq_false fun hhead =>
    hn.no_slash (List.mem_of_mem_head? hhead)
  refine ⟨?_, ns ++ [n], by simp, ?_⟩
  · rw [root_normalize (isAbsolute_join habsolute n), root_join_absolute habsolute hrelative,
      ← root_normalize habsolute, root_child hb h]
  · rw [names_normalize_join_name habsolute hn, ← hns, List.append_assoc]

/-- An entry is written below the project, or to a path that comes back to the project. -/
theorem inside_or_returns (h : isAbsolute name = false) (hin : ¬ b.LeadsOut name)
    (hname : IsName (Path.name source)) (made : Tree) :
    b.Inside (made.copyPath b.cwd source (child b.project name)) ∨
      b.Returns name (made.copyPath b.cwd source (child b.project name)) := by
  rw [copyPath]
  split
  · exact Or.inl (inside_join hb h hin hname)
  obtain ⟨ns, hns⟩ := not_not.mp hin
  by_cases hnil : ns = []
  · refine Or.inr ⟨rfl, ?_⟩
    rw [hnil, List.append_nil] at hns
    rw [(isNormal_normalize (isAbsolute_child hb name)).eq_write, root_child hb h, ← hns,
      ← hb.eq_write]
  · exact Or.inl ⟨root_child hb h, ns, hnil, hns.symm⟩

/-- Where there are no links such a path leads to the directory of the project. -/
theorem Plain.not_returns (ht : b.Plain t) (hcwd : isAbsolute b.cwd = true) {bytes : Bytes}
    (hw : t.write b.cwd path bytes = .ok u) : ¬ b.Returns name path := by
  intro h
  obtain ⟨p, hl, hf, -⟩ := eq_set_of_write hw
  have hp := locate_eq_names ht.linkFree hcwd hl
  have habsolute : isAbsolute path = true := h.path_eq ▸ isAbsolute_child hb name
  rw [absolute, if_pos habsolute, h.normalize_eq] at hp
  exact hf (hp ▸ ht.directory)

end

/-! ## One file -/

theorem eq_of_copyFile {target : Text} (h : b.copyFile t source target = (u, none)) :
    ∃ made, t.makeDirectories b.cwd (parent target) true = .ok made ∧
      made.copy b.cwd source target = .ok u := by
  rw [copyFile] at h
  split at h
  · cases h
  · next made hmade =>
    refine ⟨made, hmade, ?_⟩
    split at h
    · cases h
    · next v hcopy =>
      cases h
      exact hcopy

theorem grown_of_copyFile (ht : t.WellFormed) {target : Text} {e : FileError}
    (h : b.copyFile t source target = (u, some e)) : Grown t u := by
  rw [copyFile] at h
  split at h
  · cases h
    exact .refl ht
  · next made hmade =>
    split at h
    · cases h
      exact grown_makeDirectories ht hmade
    · cases h

/-- A file is not copied to itself. -/
theorem copy_self (h : t.isFile b.cwd path = true) : t.copy b.cwd path path = .error .sameFile := by
  obtain ⟨p, bytes, hl, hf⟩ := isFile_iff.mp h
  have hnot : ¬ t.isDirectory b.cwd path = true := by
    rw [isDirectory_iff]
    rintro ⟨q, hq, hdir⟩
    cases hl.symm.trans hq
    cases hf.symm.trans hdir
  have hsame : t.sameEntry b.cwd path path = true := by
    rw [sameEntry, hl]
    simp [hf]
  rw [copy_eq, copyPath, if_neg hnot, if_pos hsame]

/-- What copying one file back may do: nothing, directories only, or a file that is written. -/
inductive Step (b : Backups) (source : Text) (dryRun : Bool) (t : Tree) (name : Text) :
    Tree → FileOutcome → Prop
  | refused : Step b source dryRun t name t .refused
  | listed (hdry : dryRun = true) (hin : ¬ b.LeadsOut name) :
      Step b source dryRun t name t .restored
  | failed {u : Tree} {e : FileError} (hdry : dryRun = false) (hmade : Grown t u) :
      Step b source dryRun t name u (.failed e)
  | written {made u : Tree} {bytes : Bytes} (hdry : dryRun = false) (hin : ¬ b.LeadsOut name)
      (hrelative : isAbsolute name = false) (hfile : t.isFile b.cwd (child source name) = true)
      (hmade : Grown t made) (hpath : b.writtenPath source t name =
        made.copyPath b.cwd (child source name) (child b.project name))
      (hwrite : made.write b.cwd (b.writtenPath source t name) bytes = .ok u) :
      Step b source dryRun t name u .restored

theorem restoreFile_step (hb : IsNormal b.project) (ht : t.WellFormed) (source : Text)
    (dryRun : Bool) (name : Text) :
    b.Step source dryRun t name (b.restoreFile source dryRun t name).1
      (b.restoreFile source dryRun t name).2 := by
  by_cases hin : b.LeadsOut name
  · rw [restoreFile_leadsOut hb hin]
    exact .refused
  rw [restoreFile, relative?_isNone_eq_false hb hin, Bool.false_or]
  cases hfile : t.isFile b.cwd (child source name) with
  | false => exact .refused
  | true =>
    cases hdry : dryRun with
    | true => exact .listed rfl hin
    | false =>
      rw [Bool.not_true, if_neg Bool.false_ne_true, if_neg Bool.false_ne_true]
      rcases hcopy : b.copyFile t (child source name) (child b.project name) with ⟨u, none | e⟩
      · obtain ⟨made, hmake, hcopied⟩ := eq_of_copyFile hcopy
        have hmade := grown_makeDirectories ht hmake
        have hpath : b.writtenPath source t name =
            made.copyPath b.cwd (child source name) (child b.project name) := by
          rw [writtenPath, hmake]
        obtain ⟨bytes, hwrite⟩ := write_of_copy hcopied
        refine .written rfl hin ?_ hfile hmade hpath (hpath ▸ hwrite)
        rw [← Bool.not_eq_true]
        intro habsolute
        have hself := copy_self (b := b) (hmade.isFile hfile)
        have hsame : child b.project name = child source name :=
          (child_of_isAbsolute habsolute _).trans (child_of_isAbsolute habsolute _).symm
        rw [hsame, hself] at hcopied
        cases hcopied
      · exact .failed rfl (grown_of_copyFile ht hcopy)

/-! ## All files -/

theorem Step.wellFormed {outcome : FileOutcome} (h : b.Step source dryRun t name u outcome)
    (ht : t.WellFormed) : u.WellFormed := by
  cases h with
  | refused => exact ht
  | listed => exact ht
  | failed hdry hmade => exact hmade.wellFormed
  | written hdry hin hrelative hfile hmade hpath hwrite =>
    exact wellFormed_write hmade.wellFormed hwrite

theorem Plain.grown (h : b.Plain t) (hu : Grown t u) : b.Plain u where
  linkFree := h.linkFree.grown hu
  directory := by rw [hu.find? (by rw [h.directory]; exact Option.some_ne_none _), h.directory]

/-- Entries written one after the other, and where. -/
structure WritesInside (b : Backups) (source : Text) (t : Tree) (files : List Text) : Prop where
  writes : Writes b.cwd t ((b.writtenPaths source t files).map (·.2))
    (b.restoreEach source false t files).1
  written : (b.writtenPaths source t files).map (·.1) =
    ((b.restoreEach source false t files).2.filter wasRestored).map (·.1)
  inside : ∀ x ∈ b.writtenPaths source t files, b.Inside x.2 ∨ b.Returns x.1 x.2
  inside_of_plain : b.Plain t → ∀ x ∈ b.writtenPaths source t files, b.Inside x.2

theorem restoreEach_cons {outcome : FileOutcome}
    (h : b.restoreFile source dryRun t name = (u, outcome)) (files : List Text) :
    b.restoreEach source dryRun t (name :: files) =
      ((b.restoreEach source dryRun u files).1,
        (name, outcome) :: (b.restoreEach source dryRun u files).2) := by
  rw [restoreEach, h]

theorem writtenPaths_cons {outcome : FileOutcome}
    (h : b.restoreFile source false t name = (u, outcome)) (files : List Text) :
    b.writtenPaths source t (name :: files) =
      (if wasRestored (name, outcome) then [(name, b.writtenPath source t name)] else []) ++
        b.writtenPaths source u files := by
  rw [writtenPaths, h]

theorem WritesInside.skipped {outcome : FileOutcome} (h : b.WritesInside source u files)
    (hr : b.restoreFile source false t name = (u, outcome))
    (hnot : wasRestored (name, outcome) = false) (hu : Grown t u) :
    b.WritesInside source t (name :: files) := by
  have hpaths : b.writtenPaths source t (name :: files) = b.writtenPaths source u files := by
    rw [writtenPaths_cons hr, if_neg (by rw [hnot]; exact Bool.false_ne_true)]
    rfl
  refine ⟨?_, ?_, ?_, fun hplain => ?_⟩
  · rw [hpaths, restoreEach_cons hr]
    exact .directories hu h.writes
  · rw [hpaths, restoreEach_cons hr,
      List.filter_cons_of_neg (by rw [hnot]; exact Bool.false_ne_true)]
    exact h.written
  · rw [hpaths]
    exact h.inside
  · rw [hpaths]
    exact h.inside_of_plain (hplain.grown hu)

theorem WritesInside.cons {made : Tree} {bytes : Bytes} (h : b.WritesInside source u files)
    (hr : b.restoreFile source false t name = (u, .restored)) (hmade : Grown t made)
    (hwrite : made.write b.cwd (b.writtenPath source t name) bytes = .ok u)
    (hinside : b.Inside (b.writtenPath source t name) ∨
      b.Returns name (b.writtenPath source t name))
    (hplain : b.Plain t → b.Plain u ∧ ¬ b.Returns name (b.writtenPath source t name)) :
    b.WritesInside source t (name :: files) := by
  have hpaths : b.writtenPaths source t (name :: files) =
      (name, b.writtenPath source t name) :: b.writtenPaths source u files :=
    writtenPaths_cons hr files
  refine ⟨?_, ?_, ?_, fun ht => ?_⟩
  · rw [hpaths, restoreEach_cons hr]
    exact .directories hmade (.file hwrite h.writes)
  · rw [hpaths, restoreEach_cons hr, List.filter_cons_of_pos rfl, List.map_cons, List.map_cons,
      h.written]
  · rw [hpaths]
    exact List.forall_mem_cons.mpr ⟨hinside, h.inside⟩
  · rw [hpaths]
    obtain ⟨hu, hnot⟩ := hplain ht
    exact List.forall_mem_cons.mpr ⟨hinside.resolve_right hnot, h.inside_of_plain hu⟩

/-- Entries copied back one after the other are written below the project, or to a path that comes
back to it, whatever they are. -/
theorem restoreEach_writes (hb : IsNormal b.project) (hcwd : isAbsolute b.cwd = true)
    (hsource : isAbsolute source = true) (ht : t.WellFormed) (files : List Text) :
    b.WritesInside source t files := by
  induction files generalizing t with
  | nil => exact ⟨.nil t, rfl, by simp [writtenPaths], by simp [writtenPaths]⟩
  | cons name files ih =>
    have hstep := restoreFile_step hb ht source false name
    rcases hr : b.restoreFile source false t name with ⟨u, outcome⟩
    rw [hr] at hstep
    have hrest := ih (hstep.wellFormed ht)
    cases hstep with
    | refused => exact hrest.skipped hr rfl (.refl ht)
    | listed hdry => cases hdry
    | failed hdry hmade => exact hrest.skipped hr rfl hmade
    | @written made _ bytes hdry hin hrelative hfile hmade hpath hwrite =>
      have hname : IsName (Path.name (child source name)) :=
        isName_name_of_isFile ht (isAbsolute_tidy (isAbsolute_join hsource name)) hfile
      refine hrest.cons hr hmade hwrite ?_ fun hplain => ⟨?_, ?_⟩
      · rw [hpath]
        exact inside_or_returns hb hrelative hin hname made
      · have hgrown := hplain.grown hmade
        exact ⟨hgrown.linkFree.write hwrite, directory_write hgrown.directory hwrite⟩
      · exact (hplain.grown hmade).not_returns hb hcwd hwrite

/-! ## A whole restoring -/

theorem restoreEach_dry (source : Text) (t : Tree) (files : List Text) :
    (b.restoreEach source true t files).1 = t := by
  induction files with
  | nil => rfl
  | cons name files ih =>
    obtain ⟨outcome, hr⟩ : ∃ outcome, b.restoreFile source true t name = (t, outcome) := by
      rw [restoreFile]
      split
      · exact ⟨_, rfl⟩
      · exact ⟨_, rfl⟩
    rw [restoreEach_cons hr]
    exact ih

theorem map_fst_restoreEach (source : Text) (dryRun : Bool) (t : Tree) (files : List Text) :
    (b.restoreEach source dryRun t files).2.map (·.1) = files := by
  induction files generalizing t with
  | nil => rfl
  | cons name files ih =>
    rcases hr : b.restoreFile source dryRun t name with ⟨u, outcome⟩
    rw [restoreEach_cons hr, List.map_cons, ih]

/-- An entry that leads out of the project is not copied back. -/
theorem not_wasRestored (hb : IsNormal b.project) {source : Text} {dryRun : Bool} {t : Tree}
    {files : List Text} {x : Text × FileOutcome} (hx : x ∈ (b.restoreEach source dryRun t files).2)
    (h : b.LeadsOut x.1) : wasRestored x = false := by
  induction files generalizing t with
  | nil => cases hx
  | cons name files ih =>
    rcases hr : b.restoreFile source dryRun t name with ⟨u, outcome⟩
    rw [restoreEach_cons hr] at hx
    rcases List.mem_cons.mp hx with rfl | hx
    · rw [restoreFile_leadsOut hb h] at hr
      cases hr
      rfl
    · exact ih hx

/-- With a record the project is a directory if there are no links. -/
theorem plain_of_mem_records (hb : IsNormal b.project) (hcwd : isAbsolute b.cwd = true)
    (ht : t.WellFormed) (hlinks : t.LinkFree) {record : BackupRecord}
    (h : record ∈ (b.records t).1) : b.Plain t := by
  refine ⟨hlinks, ?_⟩
  have hdirectory : t.isDirectory b.cwd b.directory = true := by
    by_contra hnot
    rw [records, Bool.eq_false_of_not_eq_true hnot] at h
    cases h
  obtain ⟨p, hl, hd⟩ := isDirectory_iff.mp hdirectory
  have hname : ∀ n ∈ [directoryName], IsName n := by simpa using isName_directoryName
  have hp := locate_eq_names hlinks hcwd hl
  rw [directory_eq hb, (isNormal_below hb hname).absolute_eq, names_below hb hname] at hp
  exact ht.find?_above (List.cons_ne_nil directoryName [])
    (by rw [← hp, hd]; exact Option.some_ne_none _)

/-- A record restored: every entry is told of, those that lead out of the project have failed, and
nothing is written but the entries that are restored, each below the project or, if there are
links, to a path that comes back to it. -/
structure RestoredInside (b : Backups) (record : BackupRecord) (source : Text) (t u : Tree)
    (r : Restored) : Prop where
  id_eq : r.id = record.id
  told : (r.files ++ r.failed).Perm record.files
  leadsOut : ∀ name ∈ record.files, b.LeadsOut name → name ∈ r.failed ∧ name ∉ r.files
  dry : r.dryRun = true → u = t
  writes : r.dryRun = false →
    Writes b.cwd t ((b.writtenPaths source t record.files).map (·.2)) u
  written : r.dryRun = false → (b.writtenPaths source t record.files).map (·.1) = r.files
  inside : ∀ x ∈ b.writtenPaths source t record.files, b.Inside x.2 ∨ b.Returns x.1 x.2
  inside_of_linkFree : t.LinkFree → ∀ x ∈ b.writtenPaths source t record.files, b.Inside x.2

/-- What copying the entries of a record back one after the other has done. -/
theorem restoredInside_restoreEach (hb : IsNormal b.project) (hcwd : isAbsolute b.cwd = true)
    (ht : t.WellFormed) {record : BackupRecord} (hrecord : record ∈ (b.records t).1)
    (hsource : isAbsolute source = true) (dryRun : Bool) :
    b.RestoredInside record source t (b.restoreEach source dryRun t record.files).1
      (restoredBy record dryRun (b.restoreEach source dryRun t record.files).2) := by
  have hw := restoreEach_writes hb hcwd hsource ht record.files
  have hnames := map_fst_restoreEach (b := b) source dryRun t record.files
  refine ⟨rfl, ?_, fun name hname hout => ?_, ?_, ?_, ?_, hw.inside, fun hlinks => ?_⟩
  · rw [restoredBy, ← List.map_append]
    conv_rhs => rw [← hnames]
    exact (List.filter_append_perm wasRestored _).map _
  · rw [← hnames, List.mem_map] at hname
    obtain ⟨x, hx, rfl⟩ := hname
    refine ⟨List.mem_map.mpr ⟨x, List.mem_filter.mpr ⟨hx, ?_⟩, rfl⟩, fun hdone => ?_⟩
    · rw [not_wasRestored hb hx hout]
      rfl
    · obtain ⟨y, hy, heq⟩ := List.mem_map.mp hdone
      obtain ⟨hy, hwas⟩ := List.mem_filter.mp hy
      rw [not_wasRestored hb hy (heq ▸ hout)] at hwas
      cases hwas
  · rintro rfl
    exact restoreEach_dry source t record.files
  · rintro rfl
    exact hw.writes
  · rintro rfl
    exact hw.written
  · exact hw.inside_of_plain (plain_of_mem_records hb hcwd ht hlinks hrecord)

/-- Restoring a backup, whatever its record lists: the record that is asked for is restored in the
project, if its id is one, and otherwise nothing is changed. -/
theorem restore_inside {settings : Settings} {cwd : Text} {id? : Option Text} {dryRun : Bool}
    {s s' : Session} {outcome : Except Fault Restored} (hcwd : isAbsolute cwd = true)
    (ht : s.tree.WellFormed)
    (h : ((ofSettings settings cwd).restore id? dryRun).perform s = (outcome, s')) :
    match outcome with
    | .error _ => s'.tree = s.tree ∧
      ∀ record, (ofSettings settings cwd).chosen s.tree id? = some record → ¬ IsId record.id
    | .ok r => r.dryRun = dryRun ∧ ∃ record source,
      (ofSettings settings cwd).chosen s.tree id? = some record ∧
      (ofSettings settings cwd).place record.id = .ok source ∧
      (ofSettings settings cwd).RestoredInside record source s.tree s'.tree r := by
  have hb : IsNormal (ofSettings settings cwd).project := isNormal_absolute hcwd _
  rcases perform_restore hb id? dryRun s with
    ⟨record, source, notices, hc, hplace, hrun⟩ | ⟨hnot, e, notices, hrun⟩
  · rw [h, Prod.mk.injEq] at hrun
    obtain ⟨rfl, rfl⟩ := hrun
    have hsource : isAbsolute source = true := by
      obtain ⟨hid, rfl⟩ := (place_eq_ok hb).mp hplace
      exact (isNormal_below hb (isName_pair hid)).absolute
    exact ⟨rfl, record, source, hc, hplace,
      restoredInside_restoreEach hb hcwd ht (mem_records_of_chosen hc) hsource dryRun⟩
  · rw [h, Prod.mk.injEq] at hrun
    obtain ⟨rfl, rfl⟩ := hrun
    exact ⟨rfl, hnot⟩

/-- A record with entries of the project, entries that lead out of it and one that leads through a
link. -/
def linkedRecord : BackupRecord where
  id := "backup-x"
  timestamp := "1"
  version := []
  description := []
  files := ["a.ts", "../out.ts", "/etc/passwd", "l/../../p"]
  commit := .null

/-- The project with a backup that has a record, and a link that leads out of the project. -/
def linked (bytes : Bytes) : Session where
  tree := ⟨[(["p"], .directory), (["p", "l"], .link "../x/y/z"), (["p", ".backup"], .directory),
    (["p", ".backup", "p"], .file (Utf8.encode "1")), (["p", ".backup", "backup-x"], .directory),
    (["p", ".backup", "backup-x", recordName], .file bytes),
    (["p", ".backup", "backup-x", "a.ts"], .file (Utf8.encode "2")),
    (["p", ".backup", "backup-x", "l"], .directory), (["x"], .directory), (["x", "y"], .directory),
    (["x", "y", "z"], .directory)]⟩
  cwd := "/p"

theorem wellFormed_linked (bytes : Bytes) : (linked bytes).tree.WellFormed :=
  of_decide_eq_true rfl

theorem isId_linkedRecord : IsId linkedRecord.id := ⟨by decide, by decide⟩

/-- The record is the only one that is found. -/
theorem chosen_linked : sampleBackups.chosen (linked (Utf8.encode linkedRecord.write)).tree
    (some linkedRecord.id) = some linkedRecord := by
  generalize hbytes : Utf8.encode linkedRecord.write = bytes
  have hdir : sampleBackups.HasDirectory (linked bytes).tree sampleStore :=
    ⟨wellFormed_linked bytes, by cbv, rfl⟩
  have hnames : (linked bytes).tree.names sampleStore = [("backup-x" : Text), "p"] := by cbv
  have hread : BackupRecord.read bytes = .ok linkedRecord := hbytes ▸ BackupRecord.read_write .null
  have hrecord := hdir.recordIn_eq isNormal_sample isId_linkedRecord rfl rfl
  rw [hread] at hrecord
  have hfile : (linked bytes).tree.isDirectory sampleBackups.cwd
      (child sampleBackups.directory "p") = false := by cbv
  have hother : sampleBackups.recordIn (linked bytes).tree "p" = none :=
    if_neg (by rw [hfile]; exact Bool.false_ne_true)
  have hrecords : (sampleBackups.records (linked bytes).tree).1 = [linkedRecord] := by
    rw [hdir.records_eq isNormal_sample, hnames]
    simp only [List.filterMap_cons, show ("backup-x" : Text) = linkedRecord.id from rfl, hrecord,
      hother, List.filterMap_nil]
    rfl
  rw [chosen, hrecords, newestFirst, List.mergeSort_singleton]
  rfl

theorem place_linked : sampleBackups.place linkedRecord.id = .ok "/p/.backup/backup-x" := by decide

/-- What is written of the record. -/
theorem writtenPaths_linked (bytes : Bytes) :
    sampleBackups.writtenPaths "/p/.backup/backup-x" (linked bytes).tree linkedRecord.files =
      ([("a.ts", "/p/a.ts"), ("l/../../p", "/p/l/../../p")] : List (Text × Text)) := by
  have hfirst : sampleBackups.restoreFile "/p/.backup/backup-x" false (linked bytes).tree "a.ts" =
      ((linked bytes).tree.set ["p", "a.ts"] (.file (Utf8.encode "2")), .restored) :=
    restoreFile_copied isNormal_sample (by decide) (by cbv) (by cbv)
  have hpath : sampleBackups.writtenPath "/p/.backup/backup-x" (linked bytes).tree "a.ts" =
      "/p/a.ts" := by cbv
  have hout : ∀ name ∈ (["../out.ts", "/etc/passwd"] : List Text), sampleBackups.LeadsOut name := by
    decide
  have hrefused := fun name hname =>
    restoreFile_leadsOut isNormal_sample (hout name hname) "/p/.backup/backup-x" false
  generalize hu : (linked bytes).tree.set ["p", "a.ts"] (.file (Utf8.encode "2")) = u at hfirst
  have hlast : sampleBackups.restoreFile "/p/.backup/backup-x" false u "l/../../p" =
      (u.set ["x", "p"] (.file (Utf8.encode "1")), .restored) := by
    subst hu
    exact restoreFile_copied isNormal_sample (by decide) (by cbv) (by cbv)
  have hpath' : sampleBackups.writtenPath "/p/.backup/backup-x" u "l/../../p" =
      "/p/l/../../p" := by
    subst hu
    cbv
  have hfiles : linkedRecord.files =
      (["a.ts", "../out.ts", "/etc/passwd", "l/../../p"] : List Text) := rfl
  rw [hfiles, writtenPaths_cons hfirst, writtenPaths_cons (hrefused _ (by simp) u),
    writtenPaths_cons (hrefused _ (by simp) u), writtenPaths_cons hlast, hpath, hpath']
  rfl

/-- The files of the project are restored, and those that lead out of it have failed. -/
theorem restore_inside_linked : ∃ r s',
    (sampleBackups.restore (some linkedRecord.id) false).perform
      (linked (Utf8.encode linkedRecord.write)) = (.ok r, s') ∧
    r.files = (["a.ts", "l/../../p"] : List Text) ∧ ("../out.ts" : Text) ∈ r.failed ∧
    ("/etc/passwd" : Text) ∈ r.failed ∧
    sampleBackups.RestoredInside linkedRecord "/p/.backup/backup-x"
      (linked (Utf8.encode linkedRecord.write)).tree s'.tree r := by
  rcases hr : (sampleBackups.restore (some linkedRecord.id) false).perform
    (linked (Utf8.encode linkedRecord.write)) with ⟨outcome, s'⟩
  have hcwd : isAbsolute sample.cwd = true := by decide
  have h := restore_inside hcwd (wellFormed_linked _) hr
  cases outcome with
  | error e => exact absurd isId_linkedRecord (h.2 linkedRecord chosen_linked)
  | ok r =>
    obtain ⟨hdry, record, source, hc, hplace, hin⟩ := h
    obtain rfl := Option.some.inj (chosen_linked.symm.trans hc)
    obtain rfl := Except.ok.inj (place_linked.symm.trans hplace)
    refine ⟨r, s', rfl, ?_, (hin.leadsOut _ (by decide) (by decide)).1,
      (hin.leadsOut _ (by decide) (by decide)).1, hin⟩
    rw [← hin.written hdry]
    exact congrArg (List.map Prod.fst) (writtenPaths_linked _)

/-- A path that comes back to the project is not below it: through the link the last file is
written to another directory. -/
theorem not_restore_inside : ¬ ∀ (settings : Settings) (cwd : Text) (id? : Option Text)
    (s s' : Session) (r : Restored) (record : BackupRecord) (source : Text),
    isAbsolute cwd = true → s.tree.WellFormed →
    ((ofSettings settings cwd).restore id? false).perform s = (.ok r, s') →
    (ofSettings settings cwd).chosen s.tree id? = some record →
    (ofSettings settings cwd).place record.id = .ok source →
    ∀ x ∈ (ofSettings settings cwd).writtenPaths source s.tree record.files,
      (ofSettings settings cwd).Inside x.2 := by
  intro hall
  have hchosen := chosen_linked
  rcases perform_restore isNormal_sample (some linkedRecord.id) false
      (linked (Utf8.encode linkedRecord.write)) with
    ⟨record, source, notices, hc, hplace, hrun⟩ | ⟨hnot, -⟩
  · obtain rfl := Option.some.inj (hchosen.symm.trans hc)
    obtain rfl := Except.ok.inj (place_linked.symm.trans hplace)
    have hinside := hall {} sample.cwd _ _ _ _ _ _ (by decide) (wellFormed_linked _) hrun hc hplace
      ("l/../../p", "/p/l/../../p") (by
        rw [show ofSettings {} sample.cwd = sampleBackups from rfl, writtenPaths_linked]
        simp)
    obtain ⟨ns, hne, hnames⟩ := hinside.below
    have hsame : names (normalize "/p/l/../../p") = names sampleBackups.project := by decide
    exact hne (List.append_right_eq_self.mp (hnames.symm.trans hsame))
  · exact absurd isId_linkedRecord (hnot _ hchosen)

end Backups
end ModuleGraph
