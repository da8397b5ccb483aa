import ModuleGraph.Proofs.Source.Load

/-!
How the sources that were read are put together.

* `gather`: reads may end in any order and in any way; a source goes to the index of its path;
* `gather_eq`: what comes out are the sources and the paths without one, in the order of the reads;
* `Splits`, `splits_gather`: they are disjoint parts of the paths and together all of them;
* `gather_loads`: sources that are loaded one after the other are those that are put together.
-/

namespace ModuleGraph

/-- Files and skipped paths: different ones of some paths, in their order, and together all. -/
structure Splits (paths files skipped : List Text) : Prop where
  files_sublist : files.Sublist paths
  skipped_sublist : skipped.Sublist paths
  disjoint : ∀ path ∈ files, path ∉ skipped
  perm : (files ++ skipped).Perm paths

namespace Source

/-- A path and what reading it ended with: a source, or a reason why there is none. -/
abbrev Read := Text × Except Text Source

/-- A source is put at the index of its path, and a path without one is skipped. -/
def gatherOne (slots : List (Option Source) × List Text) (read : Read × Nat) :
    List (Option Source) × List Text :=
  match read.1.2 with
  | .ok source => (slots.1.set read.2 (some source), slots.2)
  | .error _ => (slots.1, slots.2 ++ [read.1.1])

/-- The sources in the order of the paths, and the paths that were skipped. -/
def gather (reads : List Read) : List Source × List Text :=
  let slots := reads.zipIdx.foldl gatherOne (List.replicate reads.length none, [])
  (slots.1.filterMap id, slots.2)

/-- The path of a read that did not end with a source. -/
def skippedOf (read : Read) : Option Text :=
  match read.2 with
  | .ok _ => none
  | .error _ => some read.1

variable {t : Tree} {cwd path : Text} {limit : Limit} {marks paths : List Text}
  {reads : List Read} {source : Source}

/-- What the slots hold after some reads. The first slots are those of earlier reads. -/
theorem foldl_gatherOne (reads : List Read) (front : List (Option Source)) (skipped : List Text) :
    (reads.zipIdx front.length).foldl gatherOne
        (front ++ List.replicate reads.length none, skipped) =
      (front ++ reads.map (·.2.toOption), skipped ++ reads.filterMap skippedOf) := by
  induction reads generalizing front skipped with
  | nil => simp
  | cons read reads ih =>
    obtain ⟨path, outcome⟩ := read
    have hnext := fun (slot : Option Source) => ih (front ++ [slot])
    simp only [List.length_append, List.length_singleton, List.append_assoc,
      List.singleton_append] at hnext
    rw [List.zipIdx_cons, List.foldl_cons, List.length_cons, List.replicate_succ]
    cases outcome with
    | ok source =>
      rw [gatherOne]
      dsimp only
      rw [List.set_append_right _ _ (Nat.le_refl _), Nat.sub_self, List.set_cons_zero, hnext]
      rfl
    | error reason =>
      rw [gatherOne]
      dsimp only
      rw [hnext, List.append_assoc]
      rfl

theorem gather_eq (reads : List Read) :
    gather reads = (reads.filterMap (·.2.toOption), reads.filterMap skippedOf) := by
  have hslots := foldl_gatherOne reads [] []
  rw [List.length_nil, List.nil_append, List.nil_append, List.nil_append] at hslots
  rw [gather, hslots, List.filterMap_map]
  rfl

theorem gather_cons_ok (path : Text) (source : Source) (reads : List Read) :
    gather ((path, .ok source) :: reads) = (source :: (gather reads).1, (gather reads).2) := by
  rw [gather_eq, gather_eq]
  rfl

theorem gather_cons_error (path reason : Text) (reads : List Read) :
    gather ((path, .error reason) :: reads) = ((gather reads).1, path :: (gather reads).2) := by
  rw [gather_eq, gather_eq]
  rfl

/-- Sources that are known by the paths that were read are disjoint from the skipped paths. -/
theorem splits_gather (hpaths : (reads.map (·.1)).Nodup)
    (hknown : ∀ read ∈ reads, ∀ source, read.2 = .ok source → source.path = read.1) :
    Splits (reads.map (·.1)) ((gather reads).1.map (·.path)) (gather reads).2 := by
  have hparts : ((gather reads).1.map (·.path)).Sublist (reads.map (·.1)) ∧
      (gather reads).2.Sublist (reads.map (·.1)) ∧
      ((gather reads).1.map (·.path) ++ (gather reads).2).Perm (reads.map (·.1)) := by
    clear hpaths
    induction reads with
    | nil => simp [gather_eq]
    | cons read reads ih =>
      obtain ⟨hfiles, hskipped, hperm⟩ := ih fun r hr => hknown r (List.mem_cons_of_mem _ hr)
      have hfirst := hknown read List.mem_cons_self
      obtain ⟨path, outcome⟩ := read
      cases outcome with
      | ok source =>
        rw [gather_cons_ok, List.map_cons, List.map_cons, hfirst source rfl]
        exact ⟨hfiles.cons_cons _, hskipped.cons _, hperm.cons _⟩
      | error reason =>
        rw [gather_cons_error, List.map_cons]
        exact ⟨hfiles.cons _, hskipped.cons_cons _, List.perm_middle.trans (hperm.cons _)⟩
  obtain ⟨hfiles, hskipped, hperm⟩ := hparts
  refine ⟨hfiles, hskipped, fun path hfile hskip => ?_, hperm⟩
  exact (List.nodup_append.mp (hperm.nodup_iff.mpr hpaths)).2.2 path hfile path hskip rfl

theorem path_of_load (h : load t cwd limit marks path = .ok source) :
    source.path = Path.absolute cwd path := by
  obtain ⟨bytes, -, -, rfl⟩ := load_eq_ok.mp h
  rfl

/-- The paths of a directory with what loading each of them ends with. -/
def loads (t : Tree) (cwd : Text) (limit : Limit) (marks paths : List Text) : List Read :=
  paths.map fun path => (path, load t cwd limit marks path)

/-- Loading one path after the other ends as gathering what each of them ends with. -/
theorem gather_loads (t : Tree) (cwd : Text) (limit : Limit) (marks paths : List Text) :
    gather (loads t cwd limit marks paths) =
      ((loadAll t cwd limit marks paths).sources, (loadAll t cwd limit marks paths).skipped) := by
  have heach : gather (loads t cwd limit marks paths) =
      ((loadEach t cwd limit marks paths).sources, (loadEach t cwd limit marks paths).skipped) := by
    rw [loads]
    induction paths with
    | nil => rw [List.map_nil, gather_eq]; rfl
    | cons path paths ih =>
      rw [List.map_cons, loadEach]
      cases hload : load t cwd limit marks path with
      | ok source => rw [gather_cons_ok, ih]
      | error reason => rw [gather_cons_error, ih]
  rw [heach]
  cases paths <;> rfl

end Source
end ModuleGraph
