import ModuleGraph.Backup.Basic
import ModuleGraph.Proofs.Path.Way

/-!
The paths of a backup and of the files in it.

* `child_below`, `parent_below`: paths below the project, by their names;
* `place_eq_ok`: the ids that name a directory of a backup;
* `relative?_eq`, `exists_of_relative?`: the name of a file, seen from the project.
-/

namespace ModuleGraph
namespace Path

variable {p n lead : Text} {ns : List Text}

/-- What is in a directory is named by the names of the directory and its own. -/
theorem child_eq (hp : IsNormal p) {b : Text} (hb : isAbsolute b = false) :
    child p b = write (root p) (names p ++ names b) := by
  rw [child, tidy, root_join hp hb, names_join hb]

theorem child_join (hp : IsNormal p) (hns : ∀ n ∈ ns, IsName n) :
    child p (Text.join [slash] ns) = write (root p) (names p ++ ns) := by
  rw [child_eq hp (isAbsolute_eq_false (head?_join_names hns)), names_join_names hns]

theorem parent_write (hlead : IsLead lead) (hns : ∀ n ∈ ns, IsName n) :
    parent (write lead ns) = write lead ns.dropLast := by
  rw [parent, root_write hlead hns, names_write hlead hns]

end Path

namespace Backups

open ModuleGraph.Path

variable {b : Backups} {ns ms : List Text} {n id path name : Text}

/-- The path of some names below the project. -/
def below (b : Backups) (ns : List Text) : Text := write (root b.project) (names b.project ++ ns)

/-- The name of the directory of all backups. -/
def directoryName : Text := ".backup"

theorem isName_directoryName : IsName directoryName := by decide

theorem isName_recordName : IsName recordName := by decide

theorem isName_projectFiles : ∀ n ∈ projectFiles, IsName n := by decide

/-- The ids that can name a backup. -/
structure IsId (id : Text) : Prop where
  head : id.startsWith head = true
  no_slash : slash ∉ id

theorem IsId.isName (h : IsId id) : IsName id := by
  obtain ⟨rest, rfl⟩ := Text.startsWith_iff.mp h.head
  refine ⟨h.no_slash, List.cons_ne_nil _ _, fun heq => ?_, fun heq => ?_⟩
  · exact absurd (List.cons.inj heq).1 (by decide)
  · exact absurd (List.cons.inj heq).1 (by decide)

theorem isName_pair (hid : IsId id) : ∀ n ∈ [directoryName, id], IsName n := by
  simpa using ⟨isName_directoryName, hid.isName⟩

section

variable (hb : IsNormal b.project)
include hb

theorem isName_names (hns : ∀ n ∈ ns, IsName n) : ∀ n ∈ names b.project ++ ns, IsName n :=
  fun n hn => (List.mem_append.mp hn).elim (hb.isName n) (hns n)

theorem isNormal_below (hns : ∀ n ∈ ns, IsName n) : IsNormal (b.below ns) :=
  isNormal_write hb.isLead (isName_names hb hns)

theorem root_below (hns : ∀ n ∈ ns, IsName n) : root (b.below ns) = root b.project :=
  root_write hb.isLead (isName_names hb hns)

theorem names_below (hns : ∀ n ∈ ns, IsName n) : names (b.below ns) = names b.project ++ ns :=
  names_write hb.isLead (isName_names hb hns)

/-- A file below a directory below the project. -/
theorem child_below (hns : ∀ n ∈ ns, IsName n) (hms : ∀ n ∈ ms, IsName n) :
    child (b.below ns) (Text.join [slash] ms) = b.below (ns ++ ms) := by
  rw [child_join (isNormal_below hb hns) hms, root_below hb hns, names_below hb hns, below,
    List.append_assoc]

theorem child_below_name (hns : ∀ n ∈ ns, IsName n) (hn : IsName n) :
    child (b.below ns) n = b.below (ns ++ [n]) := by
  have hsingle : ∀ m ∈ [n], IsName m := fun m hm => List.mem_singleton.mp hm ▸ hn
  simpa [Text.join] using child_below hb hns hsingle

theorem child_project (hms : ∀ n ∈ ms, IsName n) :
    child b.project (Text.join [slash] ms) = b.below ms := by
  rw [child_join hb hms, below]

theorem parent_below (hns : ∀ n ∈ ns, IsName n) (hne : ns ≠ []) :
    parent (b.below ns) = b.below ns.dropLast := by
  rw [below, parent_write hb.isLead (isName_names hb hns), List.dropLast_append_of_ne_nil hne,
    below]

theorem directory_eq : b.directory = b.below [directoryName] := by
  have hsingle : ∀ m ∈ [directoryName], IsName m := fun m hm =>
    List.mem_singleton.mp hm ▸ isName_directoryName
  have h := child_project hb hsingle
  rwa [Text.join] at h

/-- The directory of a backup. -/
theorem child_directory (hid : IsId id) : child b.directory id = b.below [directoryName, id] := by
  rw [directory_eq hb, child_below_name hb (by simpa using isName_directoryName) hid.isName]
  rfl

/-- Only an id names a directory. -/
theorem place_eq_ok : b.place id = .ok path ↔ IsId id ∧ path = b.below [directoryName, id] := by
  rw [place]
  split
  · rename_i h
    rw [Bool.and_eq_true, Bool.not_eq_true', List.contains_eq_mem, decide_eq_false_iff_not] at h
    have hid : IsId id := ⟨h.1, h.2⟩
    rw [Except.ok.injEq, child_directory hb hid]
    exact ⟨fun heq => ⟨hid, heq.symm⟩, fun heq => heq.2.symm⟩
  · rename_i h
    refine ⟨fun heq => (by cases heq), fun ⟨hid, _⟩ => absurd ?_ h⟩
    rw [Bool.and_eq_true, Bool.not_eq_true', List.contains_eq_mem, decide_eq_false_iff_not]
    exact ⟨hid.head, hid.no_slash⟩

/-- The name of what is below the project. -/
theorem relative?_eq (hpath : IsNormal path) (hns : ∀ n ∈ ns, IsName n) (hne : ns ≠ [])
    (h : names path = names b.project ++ ns) :
    b.relative? path = some (Text.join [slash] ns) := by
  have hjoin : write [] ns = Text.join [slash] ns := by
    rw [write_of_ne_nil (by simpa using join_names_ne_nil hne hns), List.nil_append]
  have hway : relative b.cwd path b.project = Text.join [slash] ns := by
    rw [relative_eq hpath hb, h, afterCommon_append]
    exact hjoin
  rw [relative?, hway, leavesStart_join hns, if_neg (by decide), tidy,
    root_of_relative (head?_join_names hns), names_join_names hns, hjoin]

/-- What has a name is the project itself or below it. -/
theorem exists_of_relative? (hpath : IsNormal path) (h : b.relative? path = some name) :
    names path = names b.project ∨
      ∃ ns, ns ≠ [] ∧ names path = names b.project ++ ns ∧ name = Text.join [slash] ns := by
  by_cases hhere : relative b.cwd path b.project = here
  · exact Or.inl (names_of_relative_eq_here hpath hb hhere)
  · have hstays : leavesStart (relative b.cwd path b.project) = false := by
      rw [← Bool.not_eq_true]
      intro hleaves
      rw [relative?, if_pos hleaves] at h
      cases h
    obtain ⟨ns, hne, hnames, -⟩ := relative_spec hpath hb hhere hstays
    have hns : ∀ n ∈ ns, IsName n := fun n hn =>
      hpath.isName n (hnames ▸ List.mem_append_right _ hn)
    rw [relative?_eq hb hpath hns hne hnames, Option.some.injEq] at h
    exact Or.inr ⟨ns, hne, hnames, h.symm⟩

end

end Backups
end ModuleGraph
