import ModuleGraph.Proofs.Accounts
import ModuleGraph.Proofs.Files.Coverage
import ModuleGraph.Proofs.Path.Directory
import ModuleGraph.Proofs.Respell.Aliasing
import ModuleGraph.Proofs.Respell.Project
import ModuleGraph.Proofs.Report.Validation
import ModuleGraph.Proofs.Resolver
import ModuleGraph.Proofs.Session
import ModuleGraph.Proofs.Settings
import ModuleGraph.Proofs.Source.Load
import Mathlib

/-!
A file is one node of the graph.

* `absolute_eq_of_sameEntry`: where there are no links, paths to one file are the same in normal
  form if they begin with the same slashes;
* `root_basePath`, `root_of_mem_candidates`: with which slashes a path begins that is tried for a
  specifier;
* `Lookup.OneRoot`: no reference leads to a path that begins with other slashes;
* `one_node_per_file`: so every file is one node, that of the scan;
* `not_one_node_per_file`: an index file in the root directory is two.
-/

namespace ModuleGraph

section NoLinks

variable {t : Tree} {cwd a b : Text} (hlinks : ∀ q target, t.find? q ≠ some (.link target))
  (hcwd : Path.isAbsolute cwd = true)
include hlinks hcwd

/-- Two paths to one entry have the same names. -/
theorem Tree.names_eq_of_sameEntry (h : t.sameEntry cwd a b = true) :
    Path.names (Path.absolute cwd a) = Path.names (Path.absolute cwd b) := by
  rw [sameEntry] at h
  split at h
  · rename_i p q hp hq
    rw [Bool.and_eq_true, decide_eq_true_eq] at h
    rw [← locate_eq_names hlinks hcwd hp, ← locate_eq_names hlinks hcwd hq, h.1]
  · cases h

/-- Paths to one entry are the same in normal form if they begin with the same slashes. -/
theorem Tree.absolute_eq_of_sameEntry (h : t.sameEntry cwd a b = true)
    (hroot : Path.root (Path.absolute cwd a) = Path.root (Path.absolute cwd b)) :
    Path.absolute cwd a = Path.absolute cwd b := by
  rw [(Path.isNormal_absolute hcwd a).eq_write, (Path.isNormal_absolute hcwd b).eq_write, hroot,
    names_eq_of_sameEntry hlinks hcwd h]

end NoLinks

namespace Resolver

variable {r : Resolver} {lead s file base path : Text}

/-- What a specifier stands for begins with the slashes of the file if it is relative, and with
those of what follows its mark, seen from the directory of the alias, otherwise. -/
theorem root_basePath (hcwd : Path.isAbsolute r.cwd = true) (hfile : Path.isAbsolute file = true)
    (hlead : Path.root file = lead) (hnormal : ∀ a ∈ r.aliases, Path.IsNormal a.directory)
    (haliased : Specifier.isRelative s = false → ∀ a ∈ r.aliases, s.startsWith a.mark = true →
      Path.root (Path.join a.directory (s.drop a.mark.length)) = lead)
    (h : r.basePath s file = some base) : Path.IsNormal base ∧ Path.root base = lead := by
  by_cases hs : Specifier.isRelative s = true
  · rw [basePath, if_pos hs, Option.some.injEq] at h
    have habsolute := Path.isAbsolute_join_directory hfile s
    refine ⟨h ▸ Path.isNormal_absolute hcwd _, ?_⟩
    rw [← h, Path.absolute, if_pos habsolute, Path.root_normalize habsolute,
      Path.root_join_directory hfile (Specifier.not_isAbsolute hs), hlead]
  · rw [Bool.not_eq_true] at hs
    cases hfind : r.aliases.find? fun a => s.startsWith a.mark with
    | none =>
      rw [basePath, hs, if_neg (by decide), hfind] at h
      cases h
    | some a =>
      have ha := List.mem_of_find?_eq_some hfind
      have hstart : s.startsWith a.mark = true := by simpa using List.find?_some hfind
      have hjoin := haliased hs a ha hstart
      rw [basePath_of_find? hs hfind, Option.some.injEq, Alias.pathOf] at h
      split at h
      · rename_i hnil
        rw [hnil, Path.root_join (hnormal a ha) rfl] at hjoin
        exact h ▸ ⟨hnormal a ha, hjoin⟩
      · have habsolute :=
          Path.isAbsolute_join (hnormal a ha).absolute (s.drop a.mark.length)
        refine ⟨h ▸ Path.isNormal_absolute hcwd _, ?_⟩
        rw [← h, Path.absolute, if_pos habsolute, Path.root_normalize habsolute, hjoin]

/-- What is tried for a path begins with that path. -/
theorem exists_of_mem_candidates (h : path ∈ r.candidates base) : ∃ x, path = base ++ x := by
  rw [candidates] at h
  rcases List.mem_append.mp h with h | h
  · rcases List.mem_cons.mp h with rfl | h
    · exact ⟨[], (List.append_nil _).symm⟩
    · obtain ⟨suffix, -, rfl⟩ := List.mem_map.mp h
      exact ⟨suffix, rfl⟩
  · obtain ⟨suffix, -, rfl⟩ := List.mem_map.mp h
    exact ⟨indexName ++ suffix, List.append_assoc _ _ _⟩

/-- What is tried for a path begins with the same slashes, unless a slash is written behind them. -/
theorem root_of_mem_candidates (hbase : Path.IsNormal base) (h : path ∈ r.candidates base)
    (hno : ∀ rest, path ≠ Path.root base ++ Path.slash :: rest) :
    Path.isAbsolute path = true ∧ Path.root path = Path.root base := by
  obtain ⟨x, rfl⟩ := exists_of_mem_candidates h
  have hlead := hbase.isLead
  have hroot : Path.root (base ++ x) = Path.root base := by
    by_cases hnames : Path.names base = []
    · have hwrite : base = Path.root base := by
        conv_lhs => rw [hbase.eq_write, hnames, hlead.write_eq]
        exact List.append_nil _
      have hx : x.head? ≠ some Path.slash := by
        intro hhead
        obtain ⟨rest, rfl⟩ := List.head?_eq_some_iff.mp hhead
        exact hno rest (congrArg (· ++ Path.slash :: rest) hwrite)
      conv_lhs => rw [hwrite]
      exact Path.root_append hlead hx
    · obtain ⟨c, hlast, hc⟩ := Path.exists_getLast?_write hlead hnames hbase.isName
      rw [← hbase.eq_write] at hlast
      have hne : base ≠ [] := by
        rintro rfl
        cases hbase.absolute
      refine Path.root_append_of_getLast? hne ?_ x
      rw [hlast]
      simpa using hc
  exact ⟨Path.isAbsolute_of_isLead (hroot ▸ hlead), hroot⟩

end Resolver

namespace Source

theorem references_resolveImports (l : Lookup) (s : Source) :
    (s.resolveImports l).references = s.references := by
  have himports : (s.resolveImports l).imports.map (fun i => (⟨i.specifier, i.line⟩ : Reference)) =
      s.imports.map fun i => ⟨i.specifier, i.line⟩ := by
    rw [resolveImports, List.map_map]
    refine List.map_congr_left fun i _ => ?_
    dsimp only [Function.comp_apply]
    split <;> rfl
  rw [references, himports]
  rfl

theorem walked_resolveImports (l : Lookup) (sources : List Source) :
    walked (sources.map (resolveImports l)) = walked sources := by
  rw [walked, List.flatMap_map]
  refine congrArg (List.flatMap · sources) (funext fun s => ?_)
  rw [references_resolveImports]
  rfl

end Source

namespace Lookup

variable {l : Lookup} {lead file specifier path : Text}

/-- All references begin with the same slashes: those that begin with the mark of an alias, seen
from its directory, and those for which a file is found, which is not by one more slash. -/
structure OneRoot (l : Lookup) (lead : Text) (references : List (Text × Reference)) : Prop where
  aliased : ∀ x ∈ references, Specifier.isRelative x.2.specifier = false →
    ∀ a ∈ l.resolver.aliases, x.2.specifier.startsWith a.mark = true →
      Path.root (Path.join a.directory (x.2.specifier.drop a.mark.length)) = lead
  target : ∀ x ∈ references, ∀ rest,
    l.targetOf x.1 x.2.specifier ≠ some (lead ++ Path.slash :: rest)

theorem OneRoot.root_target {references : List (Text × Reference)}
    (h : l.OneRoot lead references) (hcwd : Path.isAbsolute l.resolver.cwd = true)
    (hnormal : ∀ a ∈ l.resolver.aliases, Path.IsNormal a.directory) {x : Text × Reference}
    (hx : x ∈ references) (hfile : Path.IsNormal x.1) (hlead : Path.root x.1 = lead)
    (htarget : l.targetOf x.1 x.2.specifier = some path) :
    Path.root (Path.absolute l.resolver.cwd path) = lead := by
  obtain ⟨base, hbase, hpath, -⟩ := exists_of_targetOf htarget
  obtain ⟨hbaseNormal, hbaseRoot⟩ := Resolver.root_basePath hcwd hfile.absolute hlead hnormal
    (h.aliased x hx) hbase
  obtain ⟨habsolute, hroot⟩ := Resolver.root_of_mem_candidates hbaseNormal hpath fun rest heq =>
    h.target x hx rest (by rw [htarget, heq, hbaseRoot])
  rw [Path.absolute, if_pos habsolute, Path.root_normalize habsolute, hroot, hbaseRoot]

end Lookup

namespace Settings

theorem exists_ofEntries {settings : Settings} {cwd : Text} {r : Resolver}
    (h : settings.resolver cwd = .ok r) :
    ∃ entries, r = Resolver.ofEntries cwd entries settings.resolveSuffixes := by
  rw [resolver] at h
  cases hentries : settings.aliasEntries cwd with
  | error e =>
    rw [hentries] at h
    cases h
  | ok entries =>
    rw [hentries] at h
    exact ⟨entries, (Except.ok.inj h).symm⟩

theorem isNormal_of_resolver {settings : Settings} {cwd : Text} {r : Resolver}
    (hcwd : Path.isAbsolute cwd = true) (h : settings.resolver cwd = .ok r) :
    r.cwd = cwd ∧ ∀ a ∈ r.aliases, Path.IsNormal a.directory := by
  obtain ⟨entries, rfl⟩ := exists_ofEntries h
  refine ⟨rfl, fun a ha => ?_⟩
  obtain ⟨e, -, rfl⟩ := List.mem_map.mp (List.mem_mergeSort.mp ha)
  exact Path.isNormal_absolute hcwd e.2

end Settings

namespace Analysis

variable {settings : Settings} {root : Option Text} {s s' : Session} {a : Analysis} {r : Resolver}
  {top : Text} {scanned : Scanned}

/-- The sources of an analysis are named by what its scan finds. -/
theorem mem_paths_of_loadAll {t : Tree} {cwd : Text} {limit : Limit} {marks paths : List Text}
    (hpaths : ∀ path ∈ paths, Path.IsNormal path) {source : Source}
    (h : source ∈ (Source.loadAll t cwd limit marks paths).sources) : source.path ∈ paths := by
  obtain ⟨path, hpath, _, _, _, rfl⟩ := Source.mem_sources_loadAll.mp h
  show Path.absolute cwd path ∈ paths
  rwa [(hpaths path hpath).absolute_eq]

section Nodes

variable (hcwd : Path.isAbsolute s.cwd = true)
  (hr : settings.resolver s.cwd = .ok r) {lead : Text} {sources : List Source}
  (hsources : ∀ source ∈ sources, Path.IsNormal source.path ∧ Path.root source.path = lead)
  (hone : Lookup.OneRoot ⟨r, s.tree.isFile s.cwd⟩ lead (Source.walked sources))
include hcwd hr hsources hone

/-- All nodes of the graph are written alike. -/
theorem root_of_mem_nodes {n : Text}
    (hn : n ∈ (Dependencies.ofSources ⟨r, s.tree.isFile s.cwd⟩ sources).graph.nodes) :
    Path.IsNormal n ∧ Path.root n = lead := by
  obtain ⟨hrcwd, hnormal⟩ := Settings.isNormal_of_resolver hcwd hr
  let l : Lookup := ⟨r, s.tree.isFile s.cwd⟩
  have hlcwd : Path.isAbsolute l.resolver.cwd = true := hrcwd ▸ hcwd
  rw [(Dependencies.accounts_ofSources l sources).nodes, List.mem_eraseDups,
    List.mem_append] at hn
  rcases hn with hn | hn
  · obtain ⟨source, hsource, rfl⟩ := List.mem_map.mp hn
    rw [(hsources source hsource).1.absolute_eq]
    exact hsources source hsource
  · obtain ⟨x, hx, hnode⟩ := List.mem_filterMap.mp hn
    obtain ⟨target, htarget, rfl⟩ := Option.map_eq_some_iff.mp hnode
    obtain ⟨source, hsource, hpath, -⟩ := Source.mem_walked.mp hx
    obtain ⟨hfile, hlead⟩ := hpath ▸ hsources source hsource
    exact ⟨Path.isNormal_absolute hlcwd target,
      hone.root_target hlcwd hnormal hx hfile hlead htarget⟩

variable (hlinks : ∀ q target, s.tree.find? q ≠ some (.link target))
include hlinks

/-- Two nodes that lead to one file are the same. -/
theorem eq_of_mem_nodes {m n : Text}
    (hm : m ∈ (Dependencies.ofSources ⟨r, s.tree.isFile s.cwd⟩ sources).graph.nodes)
    (hn : n ∈ (Dependencies.ofSources ⟨r, s.tree.isFile s.cwd⟩ sources).graph.nodes)
    (hsame : s.tree.sameEntry s.cwd m n = true) : m = n := by
  obtain ⟨hmNormal, hmRoot⟩ := root_of_mem_nodes hcwd hr hsources hone hm
  obtain ⟨hnNormal, hnRoot⟩ := root_of_mem_nodes hcwd hr hsources hone hn
  have hsamePath := Tree.absolute_eq_of_sameEntry hlinks hcwd hsame
  rw [hmNormal.absolute_eq, hnNormal.absolute_eq] at hsamePath
  exact hsamePath (hmRoot.trans hnRoot.symm)

/-- A reference to a file that has a path in normal form with the same slashes has an edge to that
path. -/
theorem edge_to_path {source : Source} {reference : Reference} {target path : Text}
    (hsource : source ∈ sources) (href : reference ∈ source.references)
    (htarget : Lookup.targetOf ⟨r, s.tree.isFile s.cwd⟩ source.path reference.specifier =
      some target) (hnormal : Path.IsNormal path) (hroot : Path.root path = lead)
    (hsame : s.tree.sameEntry s.cwd target path = true) :
    Path.absolute s.cwd target = path ∧
      (Dependencies.ofSources ⟨r, s.tree.isFile s.cwd⟩ sources).graph.Edge source.path path := by
  obtain ⟨hrcwd, haliases⟩ := Settings.isNormal_of_resolver hcwd hr
  let l : Lookup := ⟨r, s.tree.isFile s.cwd⟩
  have hlcwd : l.resolver.cwd = s.cwd := hrcwd
  obtain ⟨hfile, hlead⟩ := hsources source hsource
  have hx : (source.path, reference) ∈ Source.walked sources :=
    Source.mem_walked.mpr ⟨source, hsource, rfl, href⟩
  have htargetRoot := hone.root_target (hlcwd ▸ hcwd) haliases hx hfile hlead htarget
  rw [hlcwd] at htargetRoot
  have htargetPath : Path.absolute s.cwd target = path := by
    have hsamePath := Tree.absolute_eq_of_sameEntry hlinks hcwd hsame
    rw [hnormal.absolute_eq] at hsamePath
    exact hsamePath (htargetRoot.trans hroot.symm)
  refine ⟨htargetPath, ((Dependencies.accounts_ofSources l sources).edges _ _).mpr
    ⟨_, hx, hfile.absolute_eq _, ?_⟩⟩
  exact Option.map_eq_some_iff.mpr ⟨target, htarget, hlcwd ▸ htargetPath⟩

end Nodes

/-- In a tree without links a file is one node of the graph, if no reference leads to a path that
begins with other slashes than the root of the scan. A reference that leads to a file that the scan
found has an edge to the path that the scan found it under, and two nodes that lead to one file are
the same. -/
theorem one_node_per_file (ht : s.tree.WellFormed)
    (hlinks : ∀ q target, s.tree.find? q ≠ some (.link target))
    (hcwd : Path.isAbsolute s.cwd = true) (h : (run settings root).perform s = (.ok a, s'))
    (hr : settings.resolver s.cwd = .ok r)
    (htop : (rootOf settings s.cwd root).map Path.tidy = .ok top)
    (hscan : s.tree.scan s.cwd top settings.scanRules = .ok scanned)
    (hone : Lookup.OneRoot ⟨r, s.tree.isFile s.cwd⟩ (Path.root (Path.absolute s.cwd top))
      (Source.walked a.sources)) :
    let l : Lookup := ⟨r, s.tree.isFile s.cwd⟩
    let g := a.dependencies.graph
    (∀ source ∈ a.sources, ∀ reference ∈ source.references, ∀ target,
      l.targetOf source.path reference.specifier = some target →
      ∀ path ∈ scanned.paths, s.tree.sameEntry s.cwd target path = true →
        Path.absolute s.cwd target = path ∧ g.Edge source.path path) ∧
    ∀ m ∈ g.nodes, ∀ n ∈ g.nodes, s.tree.sameEntry s.cwd m n = true → m = n := by
  intro l g
  obtain ⟨r', top', scanned', limit, hr', htop', hscan', -, rfl⟩ := run_spec h
  cases hr.symm.trans hr'
  rw [htop', Except.map, Except.ok.injEq] at htop
  subst htop
  cases hscan.symm.trans hscan'
  have hpaths : ∀ path ∈ scanned.paths, Path.IsNormal path ∧
      Path.root path = Path.root (Path.absolute s.cwd (Path.tidy top')) := fun _ =>
    Tree.root_of_mem_scan ht hcwd hscan
  let sources := (Source.loadAll s.tree s.cwd limit r.marks scanned.paths).sources
  have hsources : ∀ source ∈ sources, Path.IsNormal source.path ∧
      Path.root source.path = Path.root (Path.absolute s.cwd (Path.tidy top')) := fun source hs =>
    hpaths source.path (mem_paths_of_loadAll (fun path hpath => (hpaths path hpath).1) hs)
  have hwalked : Source.walked (sources.map (Source.resolveImports l)) = Source.walked sources :=
    Source.walked_resolveImports l sources
  replace hone : l.OneRoot _ (Source.walked sources) := hwalked ▸ hone
  refine ⟨fun source hsource reference href target htarget path hpath hsame => ?_,
    fun m hm n hn => eq_of_mem_nodes hcwd hr hsources hone hlinks hm hn⟩
  obtain ⟨loaded, hloaded, rfl⟩ := List.mem_map.mp hsource
  rw [Source.references_resolveImports] at href
  obtain ⟨hnormal, hroot⟩ := hpaths path hpath
  have hedge := edge_to_path hcwd hr hsources hone hlinks hloaded href htarget hnormal hroot hsame
  exact hedge

/-- A source in the root directory, beside an index file. -/
def indexed (text : Text) : Session where
  tree := ⟨[(["a.ts"], .file (Utf8.encode text)), (["index.ts"], .file [])]⟩
  cwd := "/"

/-- The settings of a project whose sources are in the root directory. -/
def rootSettings : Settings := { sourceDirectory := .text "/" }

def rootResolver : Resolver := .ofEntries "/" [("@/", "/")] Resolver.defaultSuffixes

def rootLookup (text : Text) : Lookup := ⟨rootResolver, (indexed text).tree.isFile "/"⟩

/-- The sources of the project. -/
def indexedSources (text : Text) : List Source :=
  (Source.loadAll (indexed text).tree "/" .default rootResolver.marks
    ["/a.ts", "/index.ts"]).sources

theorem resolver_root : rootSettings.resolver "/" = .ok rootResolver := by
  have hentries : rootSettings.aliasEntries "/" = .ok [("@/", "/")] := by cbv
  rw [Settings.resolver, hentries]
  rfl

theorem scan_indexed (text : Text) : (indexed text).tree.scan "/" "/" rootSettings.scanRules =
    .ok ⟨["/a.ts", "/index.ts"], []⟩ := by
  cbv

theorem run_indexed (text : Text) : ∃ a s', (run rootSettings none).perform (indexed text) =
    (.ok a, s') ∧ Source.walked a.sources = Source.walked (indexedSources text) ∧
      a.dependencies = Dependencies.ofSources (rootLookup text) (indexedSources text) := by
  obtain ⟨s', hrun⟩ := perform_run (s := indexed text) resolver_root
    (show rootSettings.sourceRoot "/" = .ok "/" by cbv) (scan_indexed text)
    (show rootSettings.limit = .ok .default from rfl)
  exact ⟨_, s', hrun, Source.walked_resolveImports (rootLookup text) (indexedSources text), rfl⟩

theorem no_link_indexed (text : Text) (q : Place) (target : Text) :
    (indexed text).tree.find? q ≠ some (.link target) := by
  intro h
  cases q with
  | nil => cases h
  | cons n q =>
    have hentry := Tree.lookup_eq_some h
    simp [indexed] at hentry

def indexByName : Text := "import './index'"

/-- The only reference of that source. -/
def indexReference : Text × Reference := ("/a.ts", ⟨"./index", 1⟩)

theorem walked_indexByName : Source.walked (indexedSources indexByName) = [indexReference] := by
  cbv

theorem targetOf_indexReference : (rootLookup indexByName).targetOf "/a.ts" "./index" =
    some "/index.ts" := by
  cbv

theorem oneRoot_indexByName : (rootLookup indexByName).OneRoot "/" [indexReference] where
  aliased x hx hrelative := by
    rw [List.mem_singleton.mp hx] at hrelative
    cases hrelative
  target x hx rest heq := by
    rw [List.mem_singleton.mp hx] at heq
    cases targetOf_indexReference.symm.trans heq

/-- An index file that is imported by its name is one node. -/
theorem one_node_per_file_indexed : ∃ a s',
    (run rootSettings none).perform (indexed indexByName) = (.ok a, s') ∧
      a.dependencies.graph.Edge "/a.ts" "/index.ts" ∧
      ∀ m ∈ a.dependencies.graph.nodes, ∀ n ∈ a.dependencies.graph.nodes,
        (indexed indexByName).tree.sameEntry "/" m n = true → m = n := by
  obtain ⟨a, s', hrun, hwalked, -⟩ := run_indexed indexByName
  rw [walked_indexByName] at hwalked
  have htop : (rootOf rootSettings "/" none).map Path.tidy = .ok "/" := by cbv
  have hlead : Path.root (Path.absolute "/" "/") = "/" := by decide
  have hone : (rootLookup indexByName).OneRoot (Path.root (Path.absolute "/" "/"))
      (Source.walked a.sources) := by
    rw [hwalked, hlead]
    exact oneRoot_indexByName
  obtain ⟨hedge, hnodes⟩ := one_node_per_file (s := indexed indexByName) (by decide)
    (no_link_indexed indexByName) rfl hrun resolver_root htop (scan_indexed indexByName) hone
  obtain ⟨source, hsource, hpath, href⟩ :=
    Source.mem_walked.mp (hwalked ▸ List.mem_singleton_self indexReference)
  refine ⟨a, s', hrun, ?_, hnodes⟩
  have hsame : (indexed indexByName).tree.sameEntry "/" "/index.ts" "/index.ts" = true := by cbv
  obtain ⟨-, hto⟩ := hedge source hsource _ href "/index.ts"
    (hpath ▸ targetOf_indexReference) "/index.ts" (by simp) hsame
  rw [hpath] at hto
  exact hto

/-- An index file in the root directory is two nodes if it is imported by its directory: what is
tried for that is written with two slashes. -/
theorem not_one_node_per_file : ¬ ∀ (settings : Settings) (root : Option Text) (s s' : Session)
    (a : Analysis), s.tree.WellFormed → (∀ q target, s.tree.find? q ≠ some (.link target)) →
    Path.isAbsolute s.cwd = true → (run settings root).perform s = (.ok a, s') →
    ∀ m ∈ a.dependencies.graph.nodes, ∀ n ∈ a.dependencies.graph.nodes,
      s.tree.sameEntry s.cwd m n = true → m = n := by
  intro h
  obtain ⟨a, s', hrun, -, hdependencies⟩ := run_indexed "import '.'"
  have hnodes : (Dependencies.ofSources (rootLookup "import '.'")
      (indexedSources "import '.'")).graph.nodes = ["/a.ts", "/index.ts", "//index.ts"] := by cbv
  rw [← hdependencies] at hnodes
  have hsame : (indexed "import '.'").tree.sameEntry "/" "/index.ts" "//index.ts" = true := by cbv
  have heq := h rootSettings none _ s' a (by decide) (no_link_indexed "import '.'") rfl hrun
    "/index.ts" (by rw [hnodes]; decide) "//index.ts" (by rw [hnodes]; decide) hsame
  revert heq
  decide

end Analysis
end ModuleGraph
