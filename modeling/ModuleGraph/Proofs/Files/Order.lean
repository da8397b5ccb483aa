import ModuleGraph.Analysis.Basic
import ModuleGraph.Proofs.Files.Coverage
import ModuleGraph.Proofs.Session
import ModuleGraph.Proofs.Source.Gathered

/-!
The order in which a scan lists files.

* `pairwise_names`: the names in a directory are strictly increasing;
* `Diverges`: of two paths the one comes first at the first name in which they differ;
* `Finds.pairwise_diverges`: what is found below paths that diverge diverges in the same way;
* `Walks`: a recursive walk, which is done with a directory before it goes on beside it;
* `Finds.walks`, `Walks.unique`: a scan finds what the recursive walk finds, in its order;
* `scan_ordered`: the order of a scan, and of the sources that are loaded from it.
-/

namespace ModuleGraph
namespace Scan

variable {t : Tree} {rules : ScanRules} {root D : Place} {visited after : List Place}
  {path p q : Text} {pending found : List Text}

/-- The names in a directory are strictly increasing. -/
theorem pairwise_names (ht : t.WellFormed) (D : Place) : (t.names D).Pairwise (· < ·) := by
  have hsorted : (t.names D).Pairwise fun a b => Text.le a b = true := Text.pairwise_sorted _
  refine (hsorted.and (ht.nodup_names D)).imp fun {a b} ⟨hle, hne⟩ => ?_
  rw [Text.le_iff, List.not_lt] at hle
  exact (List.le_iff_lt_or_eq.mp hle).resolve_right hne

/-- At the first name in which two paths differ the first one has the smaller name. -/
def Diverges (p q : Text) : Prop :=
  ∃ front a b, a < b ∧ front ++ [a] <+: Path.names p ∧ front ++ [b] <+: Path.names q

theorem Diverges.lt (h : Diverges p q) : Path.names p < Path.names q := by
  obtain ⟨front, a, b, hab, ⟨xs, hp⟩, ⟨ys, hq⟩⟩ := h
  rw [← hp, ← hq, List.append_assoc, List.append_assoc]
  exact List.append_left_lt (List.cons_lt_cons_iff.mpr (.inl hab))

/-- What stands below paths that diverge diverges. -/
theorem Diverges.extend {p' q' : Text} (h : Diverges p q) (hp : Path.names p <+: Path.names p')
    (hq : Path.names q <+: Path.names q') : Diverges p' q' := by
  obtain ⟨front, a, b, hab, hpa, hqb⟩ := h
  exact ⟨front, a, b, hab, hpa.trans hp, hqb.trans hq⟩

/-- The entries of a directory diverge at their own names. -/
theorem pairwise_diverges_entriesOf (ht : t.WellFormed) (hpath : Path.IsNormal path) (D : Place) :
    (entriesOf t path D).Pairwise Diverges := by
  rw [entriesOf, List.pairwise_map]
  refine (pairwise_names ht D).imp_of_mem fun {a b} ha hb hab => ?_
  have hname : ∀ n ∈ t.names D, Path.names (Path.join path n) = Path.names path ++ [n] :=
    fun n hn => Path.names_join_name hpath (ht.isName_of_find? (Tree.mem_names.mp hn) n (by simp))
  exact ⟨Path.names path, a, b, hab, by rw [hname a ha], by rw [hname b hb]⟩

theorem prefix_names_of_mem_entriesOf (ht : t.WellFormed) (hpath : Path.IsNormal path)
    (hp : p ∈ entriesOf t path D) : Path.names path <+: Path.names p := by
  obtain ⟨n, hn, rfl⟩ := List.mem_map.mp hp
  rw [Path.names_join_name hpath (ht.isName_of_find? (Tree.mem_names.mp hn) n (by simp))]
  exact List.prefix_append _ _

/-- What is found stands at or below a pending path, and it diverges if what is pending does. -/
theorem Finds.pairwise_diverges (ht : t.WellFormed)
    (h : Finds t rules root visited pending found) (hnormal : ∀ p ∈ pending, Path.IsNormal p)
    (hpending : pending.Pairwise Diverges) :
    (∀ p ∈ found, ∃ q ∈ pending, Path.names q <+: Path.names p) ∧ found.Pairwise Diverges := by
  induction h with
  | nil => exact ⟨fun p hp => absurd hp List.not_mem_nil, .nil⟩
  | pass hpassed hrest ih =>
    obtain ⟨hbelow, hfound⟩ := ih (fun p hp => hnormal p (List.mem_cons_of_mem _ hp))
      (List.pairwise_cons.mp hpending).2
    refine ⟨fun p hp => ?_, hfound⟩
    obtain ⟨q, hq, hprefix⟩ := hbelow p hp
    exact ⟨q, List.mem_cons_of_mem _ hq, hprefix⟩
  | @enter visited path rest found D hexclude hl hlink hnew hrest ih =>
    have hpath := hnormal path List.mem_cons_self
    obtain ⟨hfirst, hlater⟩ := List.pairwise_cons.mp hpending
    obtain ⟨hbelow, hfound⟩ := ih
      (fun p hp => (List.mem_append.mp hp).elim (Tree.isNormal_entriesOf ht hpath p)
        fun hp => hnormal p (List.mem_cons_of_mem _ hp))
      (List.pairwise_append.mpr ⟨pairwise_diverges_entriesOf ht hpath D, hlater,
        fun p hp q hq => (hfirst q hq).extend (prefix_names_of_mem_entriesOf ht hpath hp)
          List.prefix_rfl⟩)
    refine ⟨fun p hp => ?_, hfound⟩
    obtain ⟨q, hq, hprefix⟩ := hbelow p hp
    rcases List.mem_append.mp hq with hq | hq
    · exact ⟨path, List.mem_cons_self,
        (prefix_names_of_mem_entriesOf ht hpath hq).trans hprefix⟩
    · exact ⟨q, List.mem_cons_of_mem _ hq, hprefix⟩
  | @take visited path rest found e hstat hne htakes hrest ih =>
    obtain ⟨hfirst, hlater⟩ := List.pairwise_cons.mp hpending
    obtain ⟨hbelow, hfound⟩ := ih (fun p hp => hnormal p (List.mem_cons_of_mem _ hp)) hlater
    refine ⟨List.forall_mem_cons.mpr ⟨⟨path, List.mem_cons_self, List.prefix_rfl⟩, fun p hp => ?_⟩,
      List.pairwise_cons.mpr ⟨fun p hp => ?_, hfound⟩⟩
    · obtain ⟨q, hq, hprefix⟩ := hbelow p hp
      exact ⟨q, List.mem_cons_of_mem _ hq, hprefix⟩
    · obtain ⟨q, hq, hprefix⟩ := hbelow p hp
      exact (hfirst q hq).extend List.prefix_rfl hprefix

/-- A directory that is listed when its path is met. -/
structure Opens (t : Tree) (rules : ScanRules) (root : Place) (visited : List Place) (path : Text)
    (D : Place) : Prop where
  not_excluded : rules.excludes (Path.name path) = false
  locate : t.locate true [] path = .ok D
  not_linked : ¬ (t.isLink [] path && root.isPrefixOf D) = true
  new : D ∈ t.directories ∧ D ∉ visited

/-- A file that is taken. -/
def Taken (t : Tree) (rules : ScanRules) (path : Text) : Prop :=
  ∃ e, t.stat [] path = .ok e ∧ e ≠ .directory ∧ rules.takes (Path.name path) = true

/-- A recursive walk of some entries after some places were visited: what it finds, and the places
that are visited then. A directory is walked before the entries that follow it. -/
inductive Walks (t : Tree) (rules : ScanRules) (root : Place) :
    List Place → List Text → List Text → List Place → Prop
  | nil {visited : List Place} : Walks t rules root visited [] [] visited
  | pass {visited after : List Place} {path : Text} {rest found : List Text}
      (h : Passed t rules root visited path) (hrest : Walks t rules root visited rest found after) :
      Walks t rules root visited (path :: rest) found after
  | enter {visited between after : List Place} {path : Text} {rest inside found : List Text}
      {D : Place} (h : Opens t rules root visited path D)
      (hinside : Walks t rules root (D :: visited) (entriesOf t path D) inside between)
      (hrest : Walks t rules root between rest found after) :
      Walks t rules root visited (path :: rest) (inside ++ found) after
  | take {visited after : List Place} {path : Text} {rest found : List Text}
      (h : Taken t rules path) (hrest : Walks t rules root visited rest found after) :
      Walks t rules root visited (path :: rest) (path :: found) after

/-- A walk of some entries and then of others. -/
theorem Walks.split {xs ys : List Text} (h : Walks t rules root visited (xs ++ ys) found after) :
    ∃ first second between, found = first ++ second ∧
      Walks t rules root visited xs first between ∧ Walks t rules root between ys second after := by
  generalize hpending : xs ++ ys = pending at h
  induction h generalizing xs with
  | nil =>
    obtain ⟨rfl, rfl⟩ := List.append_eq_nil_iff.mp hpending
    exact ⟨[], [], _, rfl, .nil, .nil⟩
  | @pass visited after path rest found hpassed hrest ih =>
    cases xs with
    | nil =>
      obtain rfl : ys = path :: rest := hpending
      exact ⟨[], _, _, rfl, .nil, .pass hpassed hrest⟩
    | cons x xs =>
      obtain ⟨rfl, hxs⟩ := List.cons.inj hpending
      obtain ⟨first, second, between, rfl, hfirst, hsecond⟩ := ih hxs
      exact ⟨first, second, between, rfl, .pass hpassed hfirst, hsecond⟩
  | @enter visited middle after path rest inside found D hopens hinside hrest _ ih =>
    cases xs with
    | nil =>
      obtain rfl : ys = path :: rest := hpending
      exact ⟨[], _, _, rfl, .nil, .enter hopens hinside hrest⟩
    | cons x xs =>
      obtain ⟨rfl, hxs⟩ := List.cons.inj hpending
      obtain ⟨first, second, between, rfl, hfirst, hsecond⟩ := ih hxs
      exact ⟨inside ++ first, second, between, (List.append_assoc ..).symm,
        .enter hopens hinside hfirst, hsecond⟩
  | @take visited after path rest found htaken hrest ih =>
    cases xs with
    | nil =>
      obtain rfl : ys = path :: rest := hpending
      exact ⟨[], _, _, rfl, .nil, .take htaken hrest⟩
    | cons x xs =>
      obtain ⟨rfl, hxs⟩ := List.cons.inj hpending
      obtain ⟨first, second, between, rfl, hfirst, hsecond⟩ := ih hxs
      exact ⟨x :: first, second, between, rfl, .take htaken hfirst, hsecond⟩

/-- A scan finds what the recursive walk finds. -/
theorem Finds.walks (h : Finds t rules root visited pending found) :
    ∃ after, Walks t rules root visited pending found after := by
  induction h with
  | nil => exact ⟨_, .nil⟩
  | pass hpassed hrest ih =>
    obtain ⟨after, hwalks⟩ := ih
    exact ⟨after, .pass hpassed hwalks⟩
  | enter hexclude hl hlink hnew hrest ih =>
    -- the entries of the directory stand before those that follow it
    obtain ⟨after, hwalks⟩ := ih
    obtain ⟨inside, beside, between, rfl, hinside, hbeside⟩ := hwalks.split
    exact ⟨after, .enter ⟨hexclude, hl, hlink, hnew⟩ hinside hbeside⟩
  | take hstat hne htakes hrest ih =>
    obtain ⟨after, hwalks⟩ := ih
    exact ⟨after, .take ⟨_, hstat, hne, htakes⟩ hwalks⟩

theorem Opens.stat (ht : t.WellFormed) (h : Opens t rules root visited path D) :
    t.stat [] path = .ok .directory :=
  Tree.stat_eq_ok.mpr ⟨D, h.locate, ht.mem_directories.mp h.new.1⟩

theorem Opens.not_passed (ht : t.WellFormed) (h : Opens t rules root visited path D) :
    ¬ Passed t rules root visited path := by
  have hstat := h.stat ht
  rintro (hs | ⟨-, hexcluded⟩ | ⟨-, hl, hlinked⟩ | ⟨-, hl, hknown⟩ | ⟨hs, hne, -⟩)
  · simp [hstat] at hs
  · simp [h.not_excluded] at hexcluded
  · rw [h.locate, Except.ok.injEq] at hl
    exact h.not_linked (hl ▸ hlinked)
  · rw [h.locate, Except.ok.injEq] at hl
    exact hknown (hl ▸ h.new)
  · rw [hstat, Except.ok.injEq] at hs
    exact hne hs.symm

theorem Opens.not_taken (ht : t.WellFormed) (h : Opens t rules root visited path D) :
    ¬ Taken t rules path := by
  rintro ⟨e, hs, hne, -⟩
  rw [h.stat ht, Except.ok.injEq] at hs
  exact hne hs.symm

theorem Taken.not_passed (h : Taken t rules path) : ¬ Passed t rules root visited path := by
  obtain ⟨e, hstat, hne, htakes⟩ := h
  have hfile : t.stat [] path ≠ .ok .directory := fun hs =>
    hne (Except.ok.inj (hstat.symm.trans hs))
  rintro (hs | ⟨hs, -⟩ | ⟨hs, -, -⟩ | ⟨hs, -, -⟩ | ⟨-, -, huntaken⟩)
  · simp [hstat] at hs
  · exact hfile hs
  · exact hfile hs
  · exact hfile hs
  · exact huntaken htakes

/-- There is one recursive walk only. -/
theorem Walks.unique (ht : t.WellFormed) {found' : List Text} {after' : List Place}
    (h : Walks t rules root visited pending found after)
    (h' : Walks t rules root visited pending found' after') : found = found' ∧ after = after' := by
  induction h generalizing found' after' with
  | nil =>
    cases h'
    exact ⟨rfl, rfl⟩
  | pass hpassed _ ih =>
    cases h' with
    | pass _ hrest => exact ih hrest
    | enter hopens => exact absurd hpassed (hopens.not_passed ht)
    | take htaken => exact absurd hpassed htaken.not_passed
  | enter hopens _ _ ihInside ihRest =>
    cases h' with
    | pass hpassed => exact absurd hpassed (hopens.not_passed ht)
    | enter hopens' hinside hrest =>
      have hD := hopens.locate.symm.trans hopens'.locate
      obtain rfl := Except.ok.inj hD
      obtain ⟨rfl, rfl⟩ := ihInside hinside
      obtain ⟨rfl, rfl⟩ := ihRest hrest
      exact ⟨rfl, rfl⟩
    | take htaken => exact absurd htaken (hopens.not_taken ht)
  | take htaken _ ih =>
    cases h' with
    | pass hpassed => exact absurd hpassed htaken.not_passed
    | enter hopens => exact absurd htaken (hopens.not_taken ht)
    | take _ hrest =>
      obtain ⟨rfl, rfl⟩ := ih hrest
      exact ⟨rfl, rfl⟩

end Scan

/-- What is loaded from the paths of a scan, if the settings are in order. -/
theorem Analysis.perform_loadSources {settings : Settings} {requested : Option Text}
    {s : Session} {resolver : Resolver} {limit : Limit} {root : Text} {scanned : Scanned}
    (hresolver : settings.resolver s.cwd = .ok resolver) (hlimit : settings.limit = .ok limit)
    (hroot : rootOf settings s.cwd requested = .ok root)
    (hscan : s.tree.scan s.cwd root settings.scanRules = .ok scanned) :
    ∃ after, (loadSources settings requested).perform s =
      (.ok (Source.loadAll s.tree s.cwd limit resolver.marks scanned.paths), after) := by
  simp only [loadSources, scan, Run.perform_bind, Run.perform_get, Run.perform_of, hresolver, hroot,
    hscan, Run.perform_note, Run.perform_pure, hlimit]
  exact ⟨_, rfl⟩

namespace Tree

open Scan

variable {t : Tree} {cwd root : Text}

/-- A scan of a directory lists files in the order of their paths: they begin alike, and name by
name they are strictly increasing, so none is listed twice. This is the order of a recursive walk
through the directories, the names of each in their order. The sources and the skipped paths that
come from the paths of a scan, in whatever way and order each of them is read, are disjoint, in this
order, and together all of them; and this is how the sources of an analysis are loaded. -/
theorem scan_ordered (ht : t.WellFormed) (hcwd : Path.isAbsolute cwd = true) (rules : ScanRules)
    (hroot : t.isDirectory cwd (Path.absolute cwd root) = true) :
    let top := Path.absolute cwd root
    ∃ place scanned, t.locate true cwd top = .ok place ∧ t.scan cwd root rules = .ok scanned ∧
      (scanned.paths.Pairwise fun p q =>
        Path.root p = Path.root q ∧ Path.names p < Path.names q) ∧
      scanned.paths.Nodup ∧
      (∀ D, (t.names D).Pairwise (· < ·) ∧ ∀ n, n ∈ t.names D ↔ t.find? (D ++ [n]) ≠ none) ∧
      (∃ after, Walks t rules place [place] (entriesOf t top place) scanned.paths after) ∧
      (∀ found after, Walks t rules place [place] (entriesOf t top place) found after →
        found = scanned.paths) ∧
      (∀ reads : List Source.Read, reads.map (·.1) = scanned.paths →
        (∀ read ∈ reads, ∀ source, read.2 = .ok source → source.path = read.1) →
          Splits scanned.paths ((Source.gather reads).1.map (·.path)) (Source.gather reads).2) ∧
      ∀ (settings : Settings) (requested : Option Text) (s : Session) (resolver : Resolver)
        (limit : Limit), s.tree = t → s.cwd = cwd → settings.scanRules = rules →
        Analysis.rootOf settings cwd requested = .ok root →
        settings.resolver cwd = .ok resolver → settings.limit = .ok limit →
          ∃ loaded after,
            (Analysis.loadSources settings requested).perform s = (.ok loaded, after) ∧
            (loaded.sources, loaded.skipped) =
              Source.gather (Source.loads t cwd limit resolver.marks scanned.paths) ∧
            Splits scanned.paths (loaded.sources.map (·.path)) loaded.skipped := by
  intro top
  have htop : Path.IsNormal top := Path.isNormal_absolute hcwd root
  obtain ⟨place, hplace, hD⟩ := isDirectory_iff.mp hroot
  let scanned := scanFrom t rules place [place] (entriesOf t top place)
  have hscan : t.scan cwd root rules = .ok scanned := scan_eq_ok.mpr ⟨place, hplace, hD, rfl⟩
  have hfinds : Finds t rules place [place] (entriesOf t top place) scanned.paths :=
    finds_scanFrom ..
  obtain ⟨-, hdiverges⟩ := hfinds.pairwise_diverges ht (isNormal_entriesOf ht htop)
    (pairwise_diverges_entriesOf ht htop place)
  have hnodup : scanned.paths.Nodup := hdiverges.imp fun h heq => by
    have hlt := h.lt
    rw [heq] at hlt
    exact List.lt_irrefl _ hlt
  have hroots : ∀ p ∈ scanned.paths, Path.IsNormal p ∧ Path.root p = Path.root top := fun p =>
    root_of_mem_scan ht hcwd hscan
  have hsplits : ∀ reads : List Source.Read, reads.map (·.1) = scanned.paths →
      (∀ read ∈ reads, ∀ source, read.2 = .ok source → source.path = read.1) →
        Splits scanned.paths ((Source.gather reads).1.map (·.path)) (Source.gather reads).2 := by
    intro reads hreads hknown
    rw [← hreads]
    exact Source.splits_gather (hreads ▸ hnodup) hknown
  obtain ⟨after, hwalks⟩ := hfinds.walks
  refine ⟨place, scanned, hplace, hscan, hdiverges.imp_of_mem fun hp hq h => ⟨?_, h.lt⟩, hnodup,
    fun D => ⟨pairwise_names ht D, fun n => mem_names⟩, ⟨after, hwalks⟩,
    fun found _ h => (h.unique ht hwalks).1, hsplits, ?_⟩
  · rw [(hroots _ hp).2, (hroots _ hq).2]
  · rintro settings requested s resolver limit rfl rfl rfl hrequested hresolver hlimit
    obtain ⟨after, hloaded⟩ := Analysis.perform_loadSources hresolver hlimit hrequested hscan
    refine ⟨_, after, hloaded, (Source.gather_loads ..).symm, ?_⟩
    have hload := hsplits (Source.loads s.tree s.cwd limit resolver.marks scanned.paths)
      (by simp [Source.loads, Function.comp_def]) ?_
    · rwa [Source.gather_loads] at hload
    · intro read hread source hsource
      obtain ⟨path, hpath, rfl⟩ := List.mem_map.mp hread
      rw [Source.path_of_load hsource, (hroots path hpath).1.absolute_eq]

/-- A directory, with a link to another one, whose name begins the names of files beside it. -/
def interleaved : Tree := ⟨[(["src"], .directory), (["src", "a.ts"], .file []),
  (["src", "a-b.ts"], .file []), (["src", "a"], .directory), (["src", "a", "z.ts"], .file []),
  (["src", "a", "lib"], .link "../../lib"), (["lib"], .directory), (["lib", "g.ts"], .file [])]⟩

theorem scan_ordered_interleaved : interleaved.WellFormed ∧
    interleaved.isDirectory "/" (Path.absolute "/" "src") = true ∧
    ∃ scanned, interleaved.scan "/" "src" ⟨ScanRules.defaultExclude, [".ts"]⟩ = .ok scanned ∧
      scanned.paths = [("/src/a/lib/g.ts" : Text), ("/src/a/z.ts" : Text), ("/src/a-b.ts" : Text),
        ("/src/a.ts" : Text)] ∧
      scanned.paths.Pairwise fun p q =>
        Path.root p = Path.root q ∧ Path.names p < Path.names q := by
  have ht : interleaved.WellFormed := by decide
  have hroot : interleaved.isDirectory "/" (Path.absolute "/" "src") = true := by cbv
  obtain ⟨-, scanned, -, hscan, hordered, -⟩ :=
    scan_ordered ht (by decide) ⟨ScanRules.defaultExclude, [".ts"]⟩ hroot
  have hpaths : (interleaved.scan "/" "src" ⟨ScanRules.defaultExclude, [".ts"]⟩).map (·.paths) =
      .ok [("/src/a/lib/g.ts" : Text), ("/src/a/z.ts" : Text), ("/src/a-b.ts" : Text),
        ("/src/a.ts" : Text)] := by cbv
  rw [hscan] at hpaths
  exact ⟨ht, hroot, scanned, hscan, Except.ok.inj hpaths, hordered⟩

end Tree
end ModuleGraph
