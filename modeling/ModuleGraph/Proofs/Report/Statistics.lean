import ModuleGraph.Proofs.Accounts
import ModuleGraph.Proofs.Text.Order
import ModuleGraph.Report.Statistics

/-!
The statistics of the sources agree with each other.

* `CategoryCounts.total_ofImports`, `sum_kinds`: every import is of one category and of one kind;
* `Tally.keys_ofKeys`: a tally lists every key once;
* `sum_groups`: what is counted over all sources is what is counted over the groups of them;
* `ofDirectory_eq`: the numbers of one directory are sums over the sources in it;
* `pairwise_precedes`: directories with more imports come first, and of those with equally many the
  ones with the smaller name;
* `statistics_agree`: the totals of the summary, of the files and of the directories.
-/

namespace ModuleGraph

theorem Graph.nodup_eraseDups (xs : List Text) : xs.eraseDups.Nodup := by
  induction xs using List.reverseRecOn with
  | nil => exact List.nodup_nil
  | append_singleton xs x ih =>
    rw [eraseDups_concat]
    exact nodup_insertLast ih

theorem Tally.keys_ofKeys (keys : List Text) :
    Entries.keys (Tally.ofKeys keys) = keys.eraseDups := by
  induction keys using List.reverseRecOn with
  | nil => rfl
  | append_singleton keys key ih =>
    rw [ofKeys] at ih ⊢
    rw [List.foldl_append, List.foldl_cons, List.foldl_nil, count, Entries.keys_put, ih,
      Graph.eraseDups_concat]
    rfl

/-- Every import is counted in one category. -/
theorem CategoryCounts.total_ofImports (imports : List Import) :
    (ofImports imports).total = imports.length := by
  induction imports with
  | nil => rfl
  | cons i imports ih =>
    simp only [total, ofImports, List.countP_cons, List.length_cons] at ih ⊢
    cases i.category <;> simp <;> omega

namespace Statistics

variable {root : Option Text} {sources : List Source}

theorem sum_kinds (sources : List Source) :
    ((summary sources).kinds.map (·.2)).sum = (allImports sources).length := by
  simp only [summary, ImportKind.all, List.map_cons, List.map_nil, List.sum_cons, List.sum_nil]
  induction allImports sources with
  | nil => rfl
  | cons i imports ih =>
    simp only [List.countP_cons, List.length_cons] at ih ⊢
    cases i.kind <;> simp <;> omega

theorem length_allImports (sources : List Source) :
    (allImports sources).length = (sources.map (·.imports.length)).sum := by
  rw [allImports, List.length_flatMap]

/-- A key that is listed once is met once. -/
theorem sum_only {key : Text} {keys : List Text} (hnodup : keys.Nodup) (hkey : key ∈ keys)
    (n : Nat) : (keys.map fun k => if key = k then n else 0).sum = n := by
  rw [← List.sum_toFinset _ hnodup, Finset.sum_ite_eq, if_pos (List.mem_toFinset.mpr hkey)]

/-- A sum over sources is the sum of the sums over those of each group. -/
theorem sum_groups (group : Source → Text) (weight : Source → Nat) {keys : List Text}
    (hnodup : keys.Nodup) (hkeys : ∀ s ∈ sources, group s ∈ keys) :
    (keys.map fun key => ((sources.filter fun s => group s = key).map weight).sum).sum =
      (sources.map weight).sum := by
  induction sources with
  | nil => simp
  | cons s sources ih =>
    have hstep : ∀ key, (((s :: sources).filter fun s => group s = key).map weight).sum =
        (if group s = key then weight s else 0) +
          ((sources.filter fun s => group s = key).map weight).sum := by
      intro key
      by_cases h : group s = key <;> simp [h]
    rw [List.map_congr_left fun key _ => hstep key, List.sum_map_add,
      sum_only hnodup (hkeys s List.mem_cons_self), List.map_cons, List.sum_cons,
      ih fun s hs => hkeys s (List.mem_cons_of_mem _ hs)]

/-- The numbers of a directory with some sources more. -/
theorem foldl_addTo (d : DirectoryStatistics) (sources : List Source) :
    sources.foldl addTo d = {
      directory := d.directory
      files := d.files + sources.length
      imports := d.imports + (sources.map (·.imports.length)).sum
      relative := d.relative +
        (sources.map fun s => (CategoryCounts.ofImports s.imports).relative).sum
      aliased := d.aliased +
        (sources.map fun s => (CategoryCounts.ofImports s.imports).aliased).sum } := by
  induction sources generalizing d with
  | nil => rfl
  | cons s sources ih =>
    rw [List.foldl_cons, ih]
    simp only [addTo, List.length_cons, List.map_cons, List.sum_cons]
    congr 1 <;> omega

/-- The sources of a directory. -/
def sourcesIn (root : Option Text) (sources : List Source) (directory : Text) : List Source :=
  sources.filter fun s => directoryOf root s = directory

theorem ofDirectory_eq (root : Option Text) (sources : List Source) (directory : Text) :
    let d := ofDirectory root sources directory
    d.directory = directory ∧ d.files = (sourcesIn root sources directory).length ∧
      d.imports = ((sourcesIn root sources directory).map (·.imports.length)).sum := by
  simp [ofDirectory, foldl_addTo, sourcesIn]

/-- The directories of the sources, each once. -/
def directoryNames (root : Option Text) (sources : List Source) : List Text :=
  (sources.map (directoryOf root)).eraseDups

/-- The order of the directories: those with more imports first, then by name. -/
def Precedes (a b : DirectoryStatistics) : Prop :=
  b.imports < a.imports ∨ a.imports = b.imports ∧ a.directory < b.directory

theorem rankedBefore_trans (a b c : Nat × Text) (hab : rankedBefore a b = true)
    (hbc : rankedBefore b c = true) : rankedBefore a c = true := by
  simp only [rankedBefore, Bool.or_eq_true, Bool.and_eq_true, decide_eq_true_eq, beq_iff_eq]
    at hab hbc ⊢
  rcases hab with hab | ⟨hab, hab'⟩ <;> rcases hbc with hbc | ⟨hbc, hbc'⟩
  · exact .inl (by omega)
  · exact .inl (by omega)
  · exact .inl (by omega)
  · exact .inr ⟨hab.trans hbc, Text.le_trans _ _ _ hab' hbc'⟩

theorem rankedBefore_total (a b : Nat × Text) :
    (rankedBefore a b || rankedBefore b a) = true := by
  have htotal := Text.le_total a.2 b.2
  simp only [rankedBefore, Bool.or_eq_true, Bool.and_eq_true, decide_eq_true_eq, beq_iff_eq]
    at htotal ⊢
  rcases Nat.lt_trichotomy a.1 b.1 with h | h | h
  · exact .inr (.inl h)
  · exact htotal.imp (fun hle => .inr ⟨h, hle⟩) fun hle => .inr ⟨h.symm, hle⟩
  · exact .inl (.inl h)

/-- All directories in the order of the ranking. -/
def rankedDirectories (root : Option Text) (sources : List Source) : List DirectoryStatistics :=
  ((directoryNames root sources).map (ofDirectory root sources)).mergeSort fun a b =>
    rankedBefore (a.imports, a.directory) (b.imports, b.directory)

theorem directories_eq (root : Option Text) (n : Int) (sources : List Source) :
    directories root n sources = firstItems n (rankedDirectories root sources) := by
  rw [directories, Tally.keys_ofKeys]
  rfl

theorem perm_directories (root : Option Text) (sources : List Source) :
    (rankedDirectories root sources).Perm
      ((directoryNames root sources).map (ofDirectory root sources)) :=
  List.mergeSort_perm _ _

theorem map_directory (root : Option Text) (sources : List Source) :
    ((directoryNames root sources).map (ofDirectory root sources)).map (·.directory) =
      directoryNames root sources := by
  rw [List.map_map]
  exact (List.map_congr_left fun d _ => (ofDirectory_eq root sources d).1).trans (List.map_id _)

theorem nodup_directories (root : Option Text) (sources : List Source) :
    ((rankedDirectories root sources).map (·.directory)).Nodup := by
  rw [((perm_directories root sources).map _).nodup_iff, map_directory]
  exact Graph.nodup_eraseDups _

theorem pairwise_precedes (root : Option Text) (sources : List Source) :
    (rankedDirectories root sources).Pairwise Precedes := by
  have hsorted : (rankedDirectories root sources).Pairwise fun a b =>
      rankedBefore (a.imports, a.directory) (b.imports, b.directory) = true := by
    apply List.pairwise_mergeSort
    · exact fun _ _ _ => rankedBefore_trans _ _ _
    · exact fun _ _ => rankedBefore_total _ _
  have hdistinct := List.pairwise_map.mp (nodup_directories root sources)
  refine (hsorted.and hdistinct).imp fun {a b} ⟨hle, hne⟩ => ?_
  simp only [rankedBefore, Bool.or_eq_true, Bool.and_eq_true, decide_eq_true_eq, beq_iff_eq] at hle
  refine hle.imp id fun ⟨hsame, hle⟩ => ⟨hsame, ?_⟩
  rw [Text.le_iff] at hle
  exact (List.le_iff_lt_or_eq.mp (List.not_lt.mp hle)).resolve_right hne

theorem mem_directoryNames {s : Source} (hs : s ∈ sources) :
    directoryOf root s ∈ directoryNames root sources :=
  List.mem_eraseDups.mpr (List.mem_map_of_mem hs)

/-- What is summed over the directories is what is summed over the sources. -/
theorem sum_directories (field : DirectoryStatistics → Nat) (weight : Source → Nat)
    (h : ∀ directory, field (ofDirectory root sources directory) =
      ((sourcesIn root sources directory).map weight).sum) :
    ((rankedDirectories root sources).map field).sum = (sources.map weight).sum := by
  rw [((perm_directories root sources).map field).sum_eq, List.map_map,
    ← sum_groups (directoryOf root) weight (Graph.nodup_eraseDups _) fun _ => mem_directoryNames]
  exact congrArg List.sum (List.map_congr_left fun directory _ => h directory)

/-- The number of imports is the same whether they are counted by category, by kind, by file or by
directory. The directories list every file once, each of them stands there once, with the sources
that are in it, and the ranking of some directories is the beginning of the ranking of all. -/
theorem statistics_agree (root : Option Text) (sources : List Source) (n : Int)
    (hn : ((directoryNames root sources).length : Int) ≤ n) :
    let counts := (summary sources).counts
    let all := directories root n sources
    counts.total = counts.relative + counts.aliased + counts.external ∧
    counts.total = ((summary sources).kinds.map (·.2)).sum ∧
    counts.total = ((sources.map (ofFile root)).map (·.imports)).sum ∧
    counts.total = (all.map (·.imports)).sum ∧
    (all.map (·.files)).sum = sources.length ∧
    (all.map (·.directory)).Nodup ∧
    (∀ directory, directory ∈ all.map (·.directory) ↔
      ∃ s ∈ sources, directoryOf root s = directory) ∧
    (∀ d ∈ all, d.files = (sourcesIn root sources d.directory).length ∧
      d.imports = ((sourcesIn root sources d.directory).map (·.imports.length)).sum) ∧
    all.Pairwise Precedes ∧
    ∀ m : Nat, directories root m sources = all.take m := by
  intro counts all
  have htotal : counts.total = (allImports sources).length := CategoryCounts.total_ofImports _
  have hlength : (rankedDirectories root sources).length =
      (directoryNames root sources).length := by
    rw [(perm_directories root sources).length_eq, List.length_map]
  have hall : all = rankedDirectories root sources := by
    show directories root n sources = _
    rw [directories_eq]
    obtain ⟨k, rfl⟩ := Int.eq_ofNat_of_zero_le (Int.le_trans (Int.natCast_nonneg _) hn)
    exact List.take_of_length_le (by omega)
  rw [hall]
  refine ⟨rfl, ?_, ?_, ?_, ?_, nodup_directories root sources, fun directory => ?_, fun d hd => ?_,
    pairwise_precedes root sources, fun m => ?_⟩
  · rw [htotal, sum_kinds]
  · rw [htotal, length_allImports, List.map_map]
    rfl
  · rw [htotal, length_allImports]
    exact (sum_directories _ _ fun directory => (ofDirectory_eq root sources directory).2.2).symm
  · rw [sum_directories _ (fun _ => 1) fun directory => ?_]
    · simp
    · rw [(ofDirectory_eq root sources directory).2.1]
      simp
  · rw [((perm_directories root sources).map _).mem_iff, map_directory, directoryNames,
      List.mem_eraseDups, List.mem_map]
  · rw [(perm_directories root sources).mem_iff] at hd
    obtain ⟨directory, -, rfl⟩ := List.mem_map.mp hd
    obtain ⟨hname, hfiles, himports⟩ := ofDirectory_eq root sources directory
    rw [hname]
    exact ⟨hfiles, himports⟩
  · rw [directories_eq]
    rfl

/-- Two sources in one directory, and one in the root itself. -/
def rankedSources : List Source := [
  ⟨"/p/src/x.ts", [], [
    { specifier := "react", line := 1, kind := .require, category := .external }], []⟩,
  ⟨"/p/src/app/page.ts", [], [
    { specifier := "@/lib", line := 1, kind := .static, category := .aliased },
    { specifier := "../x", line := 2, kind := .dynamic, category := .relative }], []⟩,
  ⟨"/p/src/app/empty.ts", [], [], []⟩]

theorem statistics_agree_ranked :
    let all := directories (some "/p/src") 2 rankedSources
    ((directoryNames (some "/p/src") rankedSources).length : Int) ≤ 2 ∧
      (summary rankedSources).counts.total = (all.map (·.imports)).sum ∧
      (all.map (·.files)).sum = 3 ∧
      all.map (·.directory) = (["app", "."] : List Text) ∧
      directories (some "/p/src") 1 rankedSources = all.take 1 := by
  have hn : ((directoryNames (some "/p/src") rankedSources).length : Int) ≤ 2 := by decide +kernel
  obtain ⟨-, -, -, himports, hfiles, -, -, -, -, htake⟩ :=
    statistics_agree (some "/p/src") rankedSources 2 hn
  exact ⟨hn, himports, hfiles, by cbv, htake 1⟩

end Statistics
end ModuleGraph
