import ModuleGraph.Proofs.Respell.References
import Mathlib

/-!
Respelling a project keeps its module graph.

* `Faithful`: what the sources, the paths and the aliases have to be like;
* `Faithful.load`: then a source is loaded again, with references to the same files;
* `graph_preserved`: so every reference leads to the same file, and the graph is the same;
* `not_graph_preserved`: without that the graph may change.
-/

namespace ModuleGraph
namespace Respell

open Cursor

/-- What a respelled project relies on for its references to be read, after the respelling, as they
were before. -/
structure Faithful (tree : Tree) (cwd : Text) (a : Aliasing) (entries : Entries Text)
    (limit : Limit) (files : List FileRespelling) : Prop where
  /-- The mark is not read as a relative specifier. -/
  isMark : IsMark a.mark
  /-- No quote and no line end gets into a specifier from the mark or the path of a source. -/
  quotable : ∀ f ∈ files, ∀ s t, s.IsQuotable → a.aliased cwd f.file s = some t → t.IsQuotable
  /-- A longer mark that begins a specifier that is new stands there for the same path. -/
  longer : ∀ f ∈ files, ∀ c ∈ f.respelled.changes, ∀ e ∈ entries,
    a.mark.length < e.1.length → c.after.startsWith e.1 = true →
      Alias.pathOf ⟨e.1, e.2⟩ cwd c.after = Alias.pathOf ⟨a.mark, a.root⟩ cwd c.after
  /-- Nothing in a specifier ends a list or begins a statement. -/
  inert : ∀ f ∈ files, ∀ c ∈ f.respelled.changes, Inert c.before ∧ Inert c.after
  /-- No byte of a specifier is undecodable. -/
  clean : ∀ f ∈ files, ∀ c ∈ f.respelled.changes, ∀ x ∈ c.before ++ c.after,
    Utf8.isStandIn x = false
  /-- The paths have the slashes in front that the directory of the alias has. -/
  same_root : ∀ f ∈ files, f.respelled.changes ≠ [] →
    Path.root (Path.absolute cwd f.file) = Path.root a.root
  /-- No other path leads to a file that is changed. -/
  distinct : files.Pairwise fun f g => f.respelled.hasChanges = true ∨
    g.respelled.hasChanges = true → tree.sameEntry cwd f.file g.file = false
  /-- No file grows beyond the size that is read. -/
  within : ∀ f ∈ files,
    ((Utf8.encodeKeeping f.respelled.after).length : Int) ≤ limit.bytes

section

variable {tree u : Tree} {cwd : Text} {a : Aliasing} {entries : Entries Text} {limit : Limit}
  {files : List FileRespelling} {f : FileRespelling} {r : Resolver} {suffixes : List Text}
  {isFile : Text → Bool}

theorem Faithful.isProper (h : Faithful tree cwd a entries limit files)
    (hcwd : Path.isAbsolute cwd = true) (hroot : Path.IsNormal a.root) (hf : f ∈ files) :
    a.IsProper cwd f.file :=
  Aliasing.isProper hcwd h.isMark hroot (h.quotable f hf)

/-- Every specifier that is new leads to the file that the old one led to. -/
theorem Faithful.targetOf_change (h : Faithful tree cwd a entries limit files)
    (hcwd : Path.isAbsolute cwd = true) (hnormal : ∀ e ∈ entries, Path.IsNormal e.2)
    (hget : Entries.get? a.mark entries = some a.root)
    (hr : r = Resolver.ofEntries cwd entries suffixes) (hf : f ∈ files) {content : Text}
    (hrespelled : f.respelled = text cwd f.file (Rule.computedRules a) content) :
    ∀ c ∈ f.respelled.changes, Lookup.targetOf ⟨r, isFile⟩ (Path.absolute cwd f.file) c.after =
      Lookup.targetOf ⟨r, isFile⟩ (Path.absolute cwd f.file) c.before := by
  intro c hc
  have hproper := h.isProper hcwd (hnormal _ (Entries.mem_of_get? hget)) hf
  have hchange : c ∈ (text cwd f.file (Rule.computedRules a) content).changes := hrespelled ▸ hc
  obtain ⟨-, haliased⟩ := aliased_of_mem_changes hproper.quotable hchange
  exact targetOf_aliased hcwd h.isMark hnormal hget hr (h.same_root f hf (List.ne_nil_of_mem hc))
    haliased (h.longer f hf c hc)

/-- A source is loaded before and after, and its references lead to the same files. -/
theorem Faithful.load (h : Faithful tree cwd a entries limit files)
    (hcwd : Path.isAbsolute cwd = true) (hnormal : ∀ e ∈ entries, Path.IsNormal e.2)
    (hget : Entries.get? a.mark entries = some a.root)
    (hr : r = Resolver.ofEntries cwd entries suffixes) (hblank : u.blank = tree.blank)
    (hf : f ∈ files) {p : Place} {bytes : Bytes}
    (hw : Respeller.Wrote ⟨cwd, Rule.computedRules a, some r, false, limit⟩ tree u f p bytes) :
    ∃ x y, Source.load tree cwd limit r.marks f.file = .ok x ∧
      Source.load u cwd limit r.marks f.file = .ok y ∧ x.SameTargets ⟨r, isFile⟩ y := by
  have hreads : u.Reads cwd f.file limit p (Utf8.encodeKeeping f.respelled.after) :=
    ⟨(Respeller.locate_congr hblank f.file).trans hw.reads.locate, hw.find, h.within f hf⟩
  have hrespelled : f.respelled =
      text cwd f.file (Rule.computedRules a) (Utf8.decodeKeeping bytes) := hw.respelled
  have htarget : ∀ c ∈ f.respelled.changes,
      Lookup.targetOf ⟨r, isFile⟩ (Path.absolute cwd f.file) c.after =
        Lookup.targetOf ⟨r, isFile⟩ (Path.absolute cwd f.file) c.before :=
    h.targetOf_change hcwd hnormal hget hr hf hrespelled
  have hproper := h.isProper hcwd (hnormal _ (Entries.mem_of_get? hget)) hf
  refine ⟨_, _, Source.load_of_reads hw.reads, Source.load_of_reads hreads, ?_⟩
  have hinert := h.inert f hf
  have hclean := h.clean f hf
  rw [hrespelled] at hinert hclean htarget ⊢
  exact sameTargets_extract hproper _ hinert hclean htarget

end

/-- A project in which one module imports another by a statement. -/
def sample (statement : Text) : Session where
  tree := ⟨[(["src"], .directory), (["src", "a"], .directory),
    (["src", "a", "f.ts"], .file (Utf8.encodeKeeping statement)), (["src", "b.ts"], .file [])]⟩
  cwd := "/"

def sampleFile : Text := "/src/a/f.ts"

def samplePaths : List Text := [sampleFile, "/src/b.ts"]

def sampleRules : List Rule := Rule.computedRules ⟨"/src", "@/", true⟩

def sampleChange : Change := ⟨"../b", "@/b", 1, "relative-to-alias:side-effect"⟩

def sampleResult : Respelled := ⟨"import '../b'", "import '@/b'", [sampleChange]⟩

theorem text_sample : text "/" sampleFile sampleRules "import '../b'" = sampleResult := by decide

theorem reads_sample : (sample "import '../b'").tree.Reads "/" sampleFile .default
    ["src", "a", "f.ts"] (Utf8.encodeKeeping "import '../b'") :=
  ⟨by cbv, by cbv, by decide⟩

theorem text_sample_other : text "/" "/src/b.ts" sampleRules [] = ⟨[], [], []⟩ := by decide

theorem reads_sample_other : (sample "import '@/b'").tree.Reads "/" "/src/b.ts" .default
    ["src", "b.ts"] [] := ⟨by cbv, by cbv, by decide⟩

/-- What respelling does with the project. -/
theorem respellEach_sample (r : Resolver) :
    let done := Respeller.respellEach ⟨"/", sampleRules, some r, false, .default⟩
      (sample "import '../b'").tree samplePaths
    done.1 = (sample "import '@/b'").tree ∧ done.2.1.failures = [] ∧
      done.2.1.files.map (fun f => (f.file, f.respelled)) =
        [(sampleFile, sampleResult), ("/src/b.ts", ⟨[], [], []⟩)] := by
  intro done
  let respeller : Respeller := ⟨"/", sampleRules, some r, false, .default⟩
  have hdecode : Utf8.decodeKeeping (Utf8.encodeKeeping "import '../b'") = "import '../b'" := by
    decide
  obtain ⟨f, hf, hfile, hrespelled, htree⟩ :=
    Respeller.respellFile_of_reads (r := respeller) rfl reads_sample
  rw [hdecode, show respeller.rules = sampleRules from rfl, show respeller.cwd = "/" from rfl,
    text_sample] at hrespelled htree
  have htree : (respeller.respellFile (sample "import '../b'").tree sampleFile).tree =
      (sample "import '@/b'").tree := htree.trans (by decide)
  obtain ⟨g, hg, hfile', hrespelled', htree'⟩ :=
    Respeller.respellFile_of_reads (r := respeller) rfl reads_sample_other
  have hother : text respeller.cwd "/src/b.ts" respeller.rules (Utf8.decodeKeeping []) =
      ⟨[], [], []⟩ := text_sample_other
  rw [hother] at hrespelled' htree'
  obtain ⟨hdone, hfiles, hfailures⟩ :=
    Respeller.respellEach_cons (r := respeller) hf ["/src/b.ts"]
  rw [htree] at hdone hfiles hfailures
  obtain ⟨hdone', hfiles', hfailures'⟩ := Respeller.respellEach_cons (r := respeller) hg []
  refine ⟨?_, ?_, ?_⟩
  · exact hdone.trans (hdone'.trans htree')
  · exact hfailures.trans hfailures'
  · rw [show done.2.1.files = _ from hfiles, hfiles', List.map_cons, List.map_cons, hfile, hfile',
      hrespelled, hrespelled']
    rfl

theorem inert_of_no_word {s : Text} (hcomma : ',' ∉ s) (hbrace : '}' ∉ s)
    (hbracket : s.head? ≠ some ')') (hfirst : s.head?.any Text.isBlank = false)
    (hlast : s.getLast?.any Text.isBlank = false)
    (hword : ∀ w ∈ Statement.openingWords, ¬ w <:+: s) : Inert s where
  no_comma := hcomma
  no_brace := hbrace
  no_bracket := hbracket
  no_blank_first := hfirst
  no_blank_last := hlast
  no_statement w hw front x back hs := absurd ⟨front, x :: back, hs.symm⟩ (hword w hw)

theorem faithful_sample {files : List FileRespelling}
    (h : files.map (fun f => (f.file, f.respelled)) =
      [(sampleFile, sampleResult), ("/src/b.ts", ⟨[], [], []⟩)]) :
    Faithful (sample "import '../b'").tree "/" ⟨"/src", "@/", true⟩ [("@/", "/src")] .default
      files := by
  have hfile : ∀ f ∈ files, f.file ∈ samplePaths ∧
      (f.respelled = sampleResult ∨ f.respelled = ⟨[], [], []⟩) := by
    intro f hf
    have hmem := List.mem_map_of_mem (f := fun f : FileRespelling => (f.file, f.respelled)) hf
    rw [h] at hmem
    simp only [List.mem_cons, Prod.mk.injEq, List.not_mem_nil, or_false] at hmem
    rcases hmem with ⟨hf, hr⟩ | ⟨hf, hr⟩
    · exact ⟨hf ▸ List.mem_cons_self, Or.inl hr⟩
    · exact ⟨hf ▸ List.mem_cons_of_mem _ List.mem_cons_self, Or.inr hr⟩
  have hchange : ∀ f ∈ files, ∀ c ∈ f.respelled.changes, c = sampleChange := by
    intro f hf c hc
    rcases (hfile f hf).2 with hr | hr
    · rw [hr] at hc
      exact List.mem_singleton.mp hc
    · rw [hr] at hc
      simp at hc
  have hpaths : files.map (·.file) = samplePaths := by
    have hmap := congrArg (List.map Prod.fst) h
    rw [List.map_map] at hmap
    exact hmap
  have hnormal : ∀ p ∈ samplePaths, Path.absolute "/" p = p := by decide
  have hnormalPath : ∀ f ∈ files, Path.IsNormal f.file := fun f hf => by
    rw [← hnormal _ (hfile f hf).1]
    exact Path.isNormal_absolute (by decide) _
  have hquotable : ∀ p ∈ samplePaths, p.all isQuotable = true := by decide
  have hroot : ∀ p ∈ samplePaths, Path.root p = Path.root "/src" := by decide
  refine ⟨⟨by decide, by decide⟩, fun f hf s t hs h => ?_, fun f hf c hc => ?_,
    fun f hf c hc => ?_, fun f hf c hc => ?_, fun f hf _ => ?_, ?_, fun f hf => ?_⟩
  · exact Aliasing.isQuotable_aliased (hnormalPath f hf) ⟨by decide, by decide⟩
      (hquotable _ (hfile f hf).1) (by decide) hs h
  · rw [hchange f hf c hc]
    decide
  · rw [hchange f hf c hc]
    exact ⟨inert_of_no_word (by decide) (by decide) (by decide) (by decide) (by decide) (by decide),
      inert_of_no_word (by decide) (by decide) (by decide) (by decide) (by decide) (by decide)⟩
  · have hclean : (sampleChange.before ++ sampleChange.after).all (fun x => !Utf8.isStandIn x) =
        true := by decide
    rw [hchange f hf c hc]
    exact fun x hx => (Bool.not_eq_true' _).mp (List.all_eq_true.mp hclean x hx)
  · rw [hnormal _ (hfile f hf).1]
    exact hroot _ (hfile f hf).1
  · have hdistinct : samplePaths.Pairwise fun p q =>
        (sample "import '../b'").tree.sameEntry "/" p q = false := List.pairwise_pair.mpr (by cbv)
    rw [← hpaths, List.pairwise_map] at hdistinct
    refine hdistinct.imp ?_
    intro f g hfg _
    exact hfg
  · rcases (hfile f hf).2 with hr | hr
    · rw [hr]
      decide
    · rw [hr]
      decide

/-- The scan of the project, whatever the statement in it is. -/
theorem scan_sample (settings : Settings)
    (hrules : settings.scanRules = ({} : Settings).scanRules) :
    (sample "import '../b'").tree.scan "/" "/src" settings.scanRules = .ok ⟨samplePaths, []⟩ ∧
      (sample "import '@/b'").tree.scan "/" "/src" settings.scanRules = .ok ⟨samplePaths, []⟩ := by
  rw [hrules]
  exact ⟨by cbv, by cbv⟩

/-- The respelling of the project. -/
theorem perform_sample {settings : Settings} {r : Resolver} (hr : settings.resolver "/" = .ok r)
    (hrules : Respell.rules settings "/" "computed" = .ok sampleRules)
    (htop : settings.sourceRoot "/" = .ok "/src") (hlimit : settings.limit = .ok .default)
    (hscan : settings.scanRules = ({} : Settings).scanRules) :
    ∃ report notices, (project settings {}).perform (sample "import '../b'") =
        (.ok report, { sample "import '@/b'" with notices }) ∧ report.failures = [] ∧
      report.files.map (fun f => (f.file, f.respelled)) =
        [(sampleFile, sampleResult), ("/src/b.ts", ⟨[], [], []⟩)] := by
  obtain ⟨htree, hfailures, hfiles⟩ := respellEach_sample r
  have hrun := perform_project (s := sample "import '../b'") hr hrules htop
    (scan_sample settings hscan).1 hlimit
  let done := Respeller.respellEach ⟨"/", sampleRules, some r, false, .default⟩
    (sample "import '../b'").tree samplePaths
  have hsession : (⟨done.1, "/", "/", {}, none, done.2.2⟩ : Session) =
      { sample "import '@/b'" with notices := done.2.2 } := by
    rw [show done.1 = _ from htree]
    rfl
  exact ⟨{ done.2.1 with backup := none }, done.2.2, hrun.trans (congrArg (Prod.mk _) hsession),
    hfailures, hfiles⟩

/-- A respelling that reports no failure and that the project can be trusted with keeps the
module graph: every specifier that is new leads to the file that the old one led to, the references
of every source correspond one to one and lead to the same files, and the graphs are the same. -/
theorem graph_preserved {settings : Settings} {s s₁ : Session} {report : RespellReport}
    {r : Resolver} {limit : Limit} {mark root : Text} {entries : Entries Text}
    (hcwd : Path.isAbsolute s.cwd = true)
    (hrun : (project settings {}).perform s = (.ok report, s₁)) (hok : report.failures = [])
    (hr : settings.resolver s.cwd = .ok r) (hlimit : settings.limit = .ok limit)
    (hmark : settings.mark = .text mark) (hentries : settings.aliasEntries s.cwd = .ok entries)
    (hroot : Entries.get? mark entries = some root)
    (h : Faithful s.tree s.cwd ⟨root, mark, settings.skipSame.isTruthy⟩ entries limit
      report.files) :
    let l : Lookup := ⟨r, s.tree.isFile s.cwd⟩
    s₁.tree.isFile s.cwd = s.tree.isFile s.cwd ∧
    (∀ f ∈ report.files, ∀ c ∈ f.respelled.changes,
      l.targetOf (Path.absolute s.cwd f.file) c.after =
        l.targetOf (Path.absolute s.cwd f.file) c.before) ∧
    ∃ a a₁ s₂ s₃, (Analysis.run settings none).perform s = (.ok a, s₂) ∧
      (Analysis.run settings none).perform s₁ = (.ok a₁, s₃) ∧
      List.Forall₂ (Source.SameTargets l) a.sources a₁.sources ∧
      a₁.dependencies.graph = a.dependencies.graph := by
  intro l
  obtain ⟨r', rules, top, scanned, limit', hr', hrules, htop, hscan, hlimit', hreport, htree,
    hcwd₁⟩ := project_spec hrun
  rw [hr, Except.ok.injEq] at hr'
  rw [hlimit, Except.ok.injEq] at hlimit'
  subst hr' hlimit'
  have hnormal := Settings.isNormal_of_aliasEntries hcwd hentries
  obtain ⟨rfl, hresolver⟩ := rules_and_resolver hmark hentries hroot hrules hr
  let respeller : Respeller := ⟨s.cwd,
    Rule.computedRules ⟨root, mark, settings.skipSame.isTruthy⟩, some r, false, limit⟩
  have hfailures : (respeller.respellEach s.tree scanned.paths).2.1.failures = [] := by
    rw [hreport] at hok
    exact hok
  have hfiles : report.files = (respeller.respellEach s.tree scanned.paths).2.1.files := by
    rw [hreport]
  have hpaths := Respeller.map_file_respellEach rfl hfailures
  rw [← hfiles] at hpaths
  have hdistinct := h.distinct
  rw [hfiles] at hdistinct
  obtain ⟨hblank, hwrote, -⟩ := Respeller.respellEach_spec rfl hfailures hdistinct
  rw [← hfiles] at hwrote
  rw [← htree] at hblank hwrote
  have hisFile : s₁.tree.isFile s.cwd = s.tree.isFile s.cwd := by
    funext path
    rw [← Tree.isFile_blank, hblank, Tree.isFile_blank]
  have htarget : ∀ f ∈ report.files, ∀ c ∈ f.respelled.changes,
      l.targetOf (Path.absolute s.cwd f.file) c.after =
        l.targetOf (Path.absolute s.cwd f.file) c.before := by
    intro f hf
    obtain ⟨p, bytes, hw⟩ := hwrote f hf
    exact h.targetOf_change hcwd hnormal hroot hresolver hf hw.respelled
  have hload : ∀ f ∈ report.files, ∃ x y,
      Source.load s.tree s.cwd limit r.marks f.file = .ok x ∧
        Source.load s₁.tree s.cwd limit r.marks f.file = .ok y ∧ x.SameTargets l y := by
    intro f hf
    obtain ⟨p, bytes, hw⟩ := hwrote f hf
    exact h.load hcwd hnormal hroot hresolver hblank hf hw
  obtain ⟨xs, ys, hxs, hys, hsame⟩ := exists_forall₂ hload
  have htop' : Path.tidy top = top := (Settings.isNormal_absolute hcwd htop).tidy_eq
  obtain ⟨s₂, hbefore⟩ := Analysis.perform_run hr htop (htop'.symm ▸ hscan) hlimit
  have hscan₁ : s₁.tree.scan s₁.cwd (Path.tidy top) settings.scanRules = .ok scanned := by
    rw [htop', hcwd₁, ← Tree.scan_blank, hblank, Tree.scan_blank, hscan]
  obtain ⟨s₃, hafter⟩ := Analysis.perform_run (hcwd₁.symm ▸ hr) (hcwd₁.symm ▸ htop) hscan₁ hlimit
  rw [← hpaths] at hbefore hafter
  rw [hcwd₁, hisFile] at hafter
  rw [Source.sources_loadAll (List.forall₂_map_left_iff.mpr hxs)] at hbefore
  rw [Source.sources_loadAll (List.forall₂_map_left_iff.mpr hys)] at hafter
  refine ⟨hisFile, htarget, _, _, s₂, s₃, hbefore, hafter, ?_,
    Dependencies.graph_ofSources_eq hsame⟩
  rw [Analysis.ofSources, Analysis.ofSources, List.forall₂_map_left_iff, List.forall₂_map_right_iff]
  exact hsame.imp fun x y hxy => hxy.resolveImports

/-- The import of a module in the directory above is respelled, and the graph stays the same. -/
theorem graph_preserved_sample : ∃ report s₁, (project {} {}).perform (sample "import '../b'") =
    (.ok report, s₁) ∧ (report.files.map (·.respelled.changes)) = [[sampleChange], []] ∧
    ∃ a a₁ s₂ s₃, (Analysis.run {} none).perform (sample "import '../b'") = (.ok a, s₂) ∧
      (Analysis.run {} none).perform s₁ = (.ok a₁, s₃) ∧
      a₁.dependencies.graph = a.dependencies.graph := by
  let r := Resolver.ofEntries "/" [("@/", "/src")] Resolver.defaultSuffixes
  have hrules : Respell.rules {} "/" "computed" = .ok sampleRules := by cbv
  have htop : ({} : Settings).sourceRoot "/" = .ok "/src" := by cbv
  have hlimit : ({} : Settings).limit = .ok .default := by cbv
  have hentries : ({} : Settings).aliasEntries "/" = .ok [("@/", "/src")] := by cbv
  have hr : ({} : Settings).resolver "/" = .ok r := by
    rw [Settings.resolver, hentries]
    rfl
  have hmark : ({} : Settings).mark = .text "@/" := rfl
  have hroot : Entries.get? "@/" [(("@/" : Text), ("/src" : Text))] = some "/src" := by decide
  obtain ⟨report, notices, hrun, hfailures, hfiles⟩ := perform_sample hr hrules htop hlimit rfl
  obtain ⟨-, -, hanalyses⟩ := graph_preserved (by decide) hrun hfailures hr hlimit hmark hentries
    hroot (faithful_sample hfiles)
  obtain ⟨a, a₁, s₂, s₃, ha, ha₁, -, hgraph⟩ := hanalyses
  refine ⟨_, _, hrun, ?_, a, a₁, s₂, s₃, ha, ha₁, hgraph⟩
  have hmap := congrArg (List.map fun x : Text × Respelled => x.2.changes) hfiles
  rw [List.map_map] at hmap
  exact hmap

/-- An alias with a longer mark that takes what is respelled. -/
def capturing : Settings := { aliases := [("@/", "src"), ("@/b", "src/a/f")] }

def capturingResolver : Resolver :=
  Resolver.ofEntries "/" [("@/", "/src"), ("@/b", "/src/a/f")] Resolver.defaultSuffixes

/-- The graph of the project when that alias is there. -/
def capturedGraph (statement : Text) : Graph :=
  let tree := (sample statement).tree
  (Dependencies.ofSources ⟨capturingResolver, tree.isFile "/"⟩
    (Source.loadAll tree "/" .default capturingResolver.marks samplePaths).sources).graph

theorem hasEdge_capturedGraph :
    (capturedGraph "import '../b'").hasEdge sampleFile "/src/b.ts" = true ∧
      (capturedGraph "import '@/b'").hasEdge sampleFile "/src/b.ts" = false :=
  ⟨by cbv, by cbv⟩

/-- Without the conditions a respelling may change the graph: here the specifier that is new leads
to the file that it stands in, and not to the one that the old specifier led to. -/
theorem not_graph_preserved : ¬ ∀ (settings : Settings) (s s₁ s₂ s₃ : Session)
    (report : RespellReport) (a a₁ : Analysis), Path.isAbsolute s.cwd = true →
    (project settings {}).perform s = (.ok report, s₁) → report.failures = [] →
    (Analysis.run settings none).perform s = (.ok a, s₂) →
    (Analysis.run settings none).perform s₁ = (.ok a₁, s₃) →
    ∀ x y, a₁.dependencies.graph.Edge x y ↔ a.dependencies.graph.Edge x y := by
  intro h
  have hentries : capturing.aliasEntries "/" = .ok [("@/", "/src"), ("@/b", "/src/a/f")] := by cbv
  have hr : capturing.resolver "/" = .ok capturingResolver := by
    rw [Settings.resolver, hentries]
    rfl
  have hrules : Respell.rules capturing "/" "computed" = .ok sampleRules := by cbv
  have htop : capturing.sourceRoot "/" = .ok "/src" := by cbv
  have hlimit : capturing.limit = .ok .default := by cbv
  obtain ⟨hscan, hscan₁⟩ := scan_sample capturing rfl
  obtain ⟨report, notices, hrun, hfailures, -⟩ := perform_sample hr hrules htop hlimit rfl
  obtain ⟨s₂, hbefore⟩ := Analysis.perform_run (s := sample "import '../b'") hr htop hscan hlimit
  obtain ⟨s₃, hafter⟩ := Analysis.perform_run (s := { sample "import '@/b'" with notices }) hr htop
    hscan₁ hlimit
  have hedge := h capturing _ _ s₂ s₃ report _ _ (by decide) hrun hfailures hbefore hafter
    sampleFile "/src/b.ts"
  obtain ⟨hold, hnew⟩ := hasEdge_capturedGraph
  have hnew' : (capturedGraph "import '@/b'").hasEdge sampleFile "/src/b.ts" = true :=
    hedge.mpr hold
  rw [hnew] at hnew'
  cases hnew'

end Respell
end ModuleGraph
