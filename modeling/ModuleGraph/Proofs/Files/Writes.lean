import ModuleGraph.Proofs.Files.Change
import ModuleGraph.Proofs.Path.Below

/-!
The files that are written by some steps on a tree.

* `copyPath`, `write_of_copy`: a copy is a write to its target, or into it under its own name;
* `Writes`: a tree becomes another one by making directories and writing files, in some order;
* `wellFormed_write`, `LinkFree.write`, `directory_write`: what is kept when a file is written;
* `isName_name_of_isFile`: the path of a file ends in a name.
-/

namespace ModuleGraph
namespace Tree

open ModuleGraph.Path

variable {t u v : Tree} {cwd path source target : Text} {paths : List Text} {bytes : Bytes}
  {q : Place} {e : FileError}

theorem join_of_isAbsolute (h : isAbsolute path = true) : join cwd path = path := if_pos h

/-- The path to which a copy is written. -/
def copyPath (t : Tree) (cwd source target : Text) : Text :=
  if t.isDirectory cwd target then join target (name source) else target

theorem copy_eq (t : Tree) (cwd source target : Text) :
    t.copy cwd source target =
      if t.sameEntry cwd source (t.copyPath cwd source target) then .error .sameFile
      else match t.read cwd source with
        | .error e => .error e
        | .ok bytes => t.write cwd (t.copyPath cwd source target) bytes := rfl

theorem write_of_copy (h : t.copy cwd source target = .ok u) :
    ∃ bytes, t.write cwd (t.copyPath cwd source target) bytes = .ok u := by
  rw [copy_eq] at h
  split at h
  · cases h
  · split at h
    · cases h
    · next bytes _ => exact ⟨bytes, h⟩

/-- A tree with a file written to it. -/
theorem eq_set_of_write (h : t.write cwd path bytes = .ok u) :
    ∃ p, t.locate true cwd path = .ok p ∧ t.find? p ≠ some .directory ∧
      u = t.set p (.file bytes) := by
  rw [write] at h
  cases hl : t.locate true cwd path with
  | error e =>
    rw [hl] at h
    cases h
  | ok p =>
    rw [hl] at h
    dsimp only at h
    split at h
    · cases h
    · next hnot =>
      rw [Except.ok.injEq] at h
      exact ⟨p, rfl, hnot, h.symm⟩

/-- A tree becomes another one when directories are made and files are written to these paths, one
after the other. -/
inductive Writes (cwd : Text) : Tree → List Text → Tree → Prop
  | nil (t : Tree) : Writes cwd t [] t
  | directories {t u v : Tree} {paths : List Text} (hmade : Grown t u)
      (hrest : Writes cwd u paths v) : Writes cwd t paths v
  | file {t u v : Tree} {path : Text} {paths : List Text} {bytes : Bytes}
      (hwrite : t.write cwd path bytes = .ok u) (hrest : Writes cwd u paths v) :
      Writes cwd t (path :: paths) v

theorem wellFormed_write (ht : t.WellFormed) (h : t.write cwd path bytes = .ok u) :
    u.WellFormed := by
  obtain ⟨p, hl, hf, rfl⟩ := eq_set_of_write h
  rcases locate_result ht hl with hdir | ⟨D, n, rfl, hn, hD⟩
  · exact absurd hdir hf
  · exact ht.set hD hn fun hdir => absurd hdir hf

/-- Nothing in the tree is a link. -/
def LinkFree (t : Tree) : Prop := ∀ q target, t.find? q ≠ some (.link target)

theorem LinkFree.grown (h : t.LinkFree) (hu : Grown t u) : u.LinkFree := by
  intro q target hlink
  rcases hu.grows q with hq | ⟨-, hdir⟩
  · exact h q target (hq ▸ hlink)
  · rw [hlink] at hdir
    cases hdir

theorem LinkFree.write (h : t.LinkFree) (hw : t.write cwd path bytes = .ok u) : u.LinkFree := by
  obtain ⟨p, -, hf, rfl⟩ := eq_set_of_write hw
  intro q target hlink
  have hp : p ≠ [] := by
    rintro rfl
    exact hf rfl
  rw [find?_set hp] at hlink
  split at hlink
  · cases hlink
  · exact h q target hlink

theorem directory_write (hd : t.find? q = some .directory)
    (hw : t.write cwd path bytes = .ok u) : u.find? q = some .directory := by
  obtain ⟨p, -, hf, rfl⟩ := eq_set_of_write hw
  have hp : p ≠ [] := by
    rintro rfl
    exact hf rfl
  have hne : q ≠ p := by
    rintro rfl
    exact hf hd
  rw [find?_set hp, if_neg hne, hd]

/-- A path to a file leads there when there are more directories. -/
theorem Grown.isFile (h : Grown t u) (hf : t.isFile cwd path = true) :
    u.isFile cwd path = true := by
  obtain ⟨p, bytes, hl, hp⟩ := isFile_iff.mp hf
  have hne : t.find? p ≠ none := by
    rw [hp]
    exact Option.some_ne_none _
  exact isFile_iff.mpr ⟨p, bytes, h.locate hl hne, (h.find? hne).trans hp⟩

/-- The path of a file ends in a name. -/
theorem isName_name_of_isFile (ht : t.WellFormed) (hpath : isAbsolute path = true)
    (h : t.isFile cwd path = true) : IsName (name path) := by
  obtain ⟨p, bytes, hl, hf⟩ := isFile_iff.mp h
  obtain ⟨before, hno, heq⟩ := exists_name hpath
  have hsplit : path.splitOn slash = before.splitOn slash ++ [name path] := by
    conv_lhs => rw [heq]
    rw [Text.splitOn_append_self, Text.splitOn_of_not_mem hno]
  have hne : path ≠ [] := by
    rintro rfl
    cases hpath
  rw [locate, if_neg hne, join_of_isAbsolute hpath, hsplit] at hl
  obtain ⟨mid, hmid, hdir⟩ := walk_split ht rfl (List.cons_ne_nil _ _) hl
  obtain ⟨k, -, happend⟩ := walk_append hmid hdir
  rw [happend true _ (List.cons_ne_nil _ _)] at hl
  -- a step that is no name leads to a directory
  have hstays : ∀ r, t.find? r = some .directory → p ≠ r := by
    rintro r hr rfl
    rw [hf] at hr
    cases hr
  have hskip : ¬ (name path = [] ∨ name path = here) := by
    intro hskip
    rw [walk_skip hskip, walk_nil] at hl
    exact hstays mid hdir (Except.ok.inj hl).symm
  refine ⟨hno, fun h => hskip (Or.inl h), fun h => hskip (Or.inr h), fun hup => ?_⟩
  rw [walk_up hskip hup, walk_nil] at hl
  exact hstays _ (ht.find?_dropLast hdir) (Except.ok.inj hl).symm

end Tree
end ModuleGraph
