import ModuleGraph.Proofs.Path.Follow
import ModuleGraph.Proofs.Path.Way
import ModuleGraph.Proofs.Respell.Aliasing

/-!
Which specifiers have an aliased form.

* `names_target`: the place that a relative specifier means, step by step;
* `aliased_eq_some`: an aliased form is the mark before a way down from the source root;
* `aliased_inside`: a relative specifier has an aliased form just if its steps lead from the
  directory of its file to a place below the source root, and then the form is the mark before the
  names of that place below the root.
-/

namespace ModuleGraph
namespace Aliasing

variable {a : Aliasing} {cwd file root s t : Text}

theorem isRelative_eq_true : Specifier.isRelative s = true ↔
    s = Path.here ∨ s = Path.up ∨ s.startsWith ['.', '/'] = true ∨
      s.startsWith ['.', '.', '/'] = true := by
  simp only [Specifier.isRelative, Bool.or_eq_true, beq_iff_eq, Path.here, Path.up, or_assoc]

theorem staysHere_eq_true : staysHere s = true ↔
    s = Path.here ∨ s.startsWith ['.', '/'] = true := by
  simp only [staysHere, Bool.or_eq_true, beq_iff_eq, Path.here]

/-- The place that a relative specifier means is where its steps lead from the directory of its
file. -/
theorem names_target (cwd : Text) (hf : Path.IsNormal file) (hs : Specifier.isRelative s = true) :
    Path.names (target cwd file s) =
      Path.follow (Path.names (Path.directory file)) (s.splitOn Path.slash) := by
  rw [target, hf.absolute_eq,
    Path.names_normalize_join hf.directory.1 (Specifier.not_isAbsolute hs)]

/-- An aliased form is the mark before a way down from the root. -/
theorem aliased_eq_some : a.aliased cwd file s = some t ↔
    Specifier.isRelative s = true ∧ ¬ (a.skipSame = true ∧ staysHere s = true) ∧
      ∃ way, (Path.relative cwd (target cwd file s) a.root ≠ Path.here ∧
        Path.leavesStart (Path.relative cwd (target cwd file s) a.root) = false ∧
        Path.relative cwd (target cwd file s) a.root = way) ∧ t = a.mark ++ way := by
  unfold aliased
  generalize Path.relative cwd (target cwd file s) a.root = way
  by_cases hskip : (!Specifier.isRelative s || (a.skipSame && staysHere s)) = true
  · rw [if_pos hskip]
    simp only [Bool.or_eq_true, Bool.not_eq_true', Bool.and_eq_true] at hskip
    refine iff_of_false (by simp) ?_
    rintro ⟨hs, hstays, -⟩
    rcases hskip with h | h
    · rw [hs] at h
      cases h
    · exact hstays h
  · rw [if_neg hskip]
    simp only [Bool.or_eq_true, Bool.not_eq_true', Bool.and_eq_true, not_or,
      Bool.not_eq_false] at hskip
    dsimp only
    by_cases hway : (way == Path.here || Path.leavesStart way) = true
    · rw [if_pos hway]
      refine iff_of_false (by simp) ?_
      rintro ⟨-, -, _, ⟨hhere, hleaves, -⟩, -⟩
      simp [hhere, hleaves] at hway
    · rw [if_neg hway]
      simp only [Bool.or_eq_true, beq_iff_eq, not_or, Bool.not_eq_true] at hway
      rw [Option.some.injEq]
      constructor
      · intro h
        exact ⟨hskip.1, hskip.2, way, ⟨hway.1, hway.2, rfl⟩, h.symm⟩
      · rintro ⟨-, -, _, ⟨-, -, rfl⟩, rfl⟩
        rfl

/-- The root is looked at in its normal form. -/
theorem relative_normalize (hr : Path.isAbsolute root = true) (cwd p : Text) :
    Path.relative cwd p root = Path.relative cwd p (Path.normalize root) := by
  have habsolute : Path.absolute cwd root = Path.normalize root := by
    rw [Path.absolute, if_pos hr]
  have hnames : Path.absoluteNames cwd root = Path.absoluteNames cwd (Path.normalize root) := by
    rw [Path.absoluteNames, Path.absoluteNames, habsolute,
      (Path.isNormal_normalize hr).absolute_eq]
  rw [Path.relative, Path.relative, hnames]

/-- A specifier has an aliased form exactly if it is relative, is not to be left alone for staying
in the directory of its file, and its steps lead from that directory to a place strictly below the
root. Then the form is the mark before the names of that place below the root. -/
theorem aliased_inside (hf : Path.IsNormal file) (hr : Path.isAbsolute root = true)
    (cwd mark s t : Text) (skip : Bool) :
    aliased ⟨root, mark, skip⟩ cwd file s = some t ↔
      (s = Path.here ∨ s = Path.up ∨ s.startsWith ['.', '/'] = true ∨
        s.startsWith ['.', '.', '/'] = true) ∧
      ¬ (skip = true ∧ (s = Path.here ∨ s.startsWith ['.', '/'] = true)) ∧
      ∃ below, below ≠ [] ∧
        Path.follow (Path.names (Path.directory file)) (s.splitOn Path.slash) =
          Path.names (Path.normalize root) ++ below ∧
        t = mark ++ Text.join [Path.slash] below := by
  rw [aliased_eq_some, ← isRelative_eq_true, ← staysHere_eq_true]
  refine and_congr_right fun hs => and_congr_right fun _ => ?_
  have hp := (target_spec cwd hf hs).1
  simp only [relative_normalize hr, Path.relative_iff hp (Path.isNormal_normalize hr),
    names_target cwd hf hs]
  constructor
  · rintro ⟨way, ⟨below, hne, hnames, rfl⟩, rfl⟩
    exact ⟨below, hne, hnames, rfl⟩
  · rintro ⟨below, hne, hnames, rfl⟩
    exact ⟨_, ⟨below, hne, hnames, rfl⟩, rfl⟩

/-- A specifier that climbs to the root of all directories, and one that leads to a directory
whose name begins as the name of the source root does. -/
theorem aliased_inside_climbing :
    aliased ⟨"/p/./src/", "@/", true⟩ "/" "/p/src/a/f.ts" "../../../../../p/src/../src//b/." =
        some "@/b" ∧
      aliased ⟨"/p/./src/", "@/", true⟩ "/" "/p/src/a/f.ts" "../../src2/x" = none := by
  have hf : Path.IsNormal "/p/src/a/f.ts" := ⟨by decide, by decide⟩
  have hr : Path.isAbsolute "/p/./src/" = true := by decide
  constructor
  · exact (aliased_inside hf hr _ _ _ _ _).mpr
      ⟨by decide, by decide, ["b"], by decide, by decide, by decide⟩
  · rw [Option.eq_none_iff_forall_ne_some]
    intro t h
    obtain ⟨-, -, below, -, hnames, -⟩ := (aliased_inside hf hr _ _ _ _ _).mp h
    have hno : ¬ Path.names (Path.normalize "/p/./src/") <+:
        Path.follow (Path.names (Path.directory "/p/src/a/f.ts"))
          (Text.splitOn Path.slash "../../src2/x") := by decide
    exact hno ⟨below, hnames.symm⟩

end Aliasing
end ModuleGraph
