import ModuleGraph.Proofs.Respell.Preserved

/-!
A dry run tells what a respelling would do.

* `respellFile_of_reads_eq`: what becomes of a file that is read, in either mode;
* `tree_respellEach_dry`: a dry run leaves the tree as it is;
* `Unseen`, `respellEach_predicted`: file by file a respelling gives what the dry run gave, as long
  as no path leads to a file that was changed before;
* `perform_project_cases`: the two modes differ in what they do with the files only;
* `dry_run_predicts`: so the reports of a project are the same but for what was written;
* `not_dry_run_predicts`: a link to a file that was changed before is reported differently.
-/

namespace ModuleGraph

/-- What became of a file, as if nothing had been written. -/
def FileRespelling.unwritten (f : FileRespelling) : FileRespelling := { f with written := false }

/-- A report as if nothing had been written. -/
def RespellReport.unwritten (r : RespellReport) : RespellReport :=
  { r with files := r.files.map FileRespelling.unwritten }

namespace Respeller

variable {r : Respeller} {t u : Tree} {path : Text} {paths : List Text} {p : Place}
  {bytes : Bytes}

/-- The same respelling as a dry run. -/
def dry (r : Respeller) : Respeller := { r with dryRun := true }

/-- Specifiers lead to the same files whatever these hold, and so the warnings are the same. -/
theorem checkAll_congr (h : u.blank = t.blank) (path : Text) (changes : List Change) :
    r.checkAll u path changes = r.checkAll t path changes := by
  have hisFile : u.isFile r.cwd = t.isFile r.cwd := by
    funext path
    rw [← Tree.isFile_blank, h, Tree.isFile_blank]
  rw [checkAll, checkAll, hisFile]

/-- What becomes of a file that is read. -/
theorem respellFile_of_reads_eq (h : t.Reads r.cwd path r.limit p bytes) :
    let respelled := Respell.text r.cwd path r.rules (Utf8.decodeKeeping bytes)
    let written := respelled.hasChanges && !r.dryRun
    (r.respellFile t path).outcome =
        .ok ⟨path, respelled, (r.checkAll t path respelled.changes).1, written⟩ ∧
      (r.respellFile t path).tree =
        if written then t.set p (.file (Utf8.encodeKeeping respelled.after)) else t := by
  intro respelled written
  rw [respellFile, h.readSource_eq (Utf8.length_decodeKeeping_le bytes)]
  dsimp only
  cases hchanged : respelled.hasChanges with
  | false => exact ⟨by simp [written, hchanged, respelled], by simp [written, hchanged]⟩
  | true =>
    cases hdry : r.dryRun with
    | true => exact ⟨by simp [written, hdry, respelled], by simp [written, hdry]⟩
    | false =>
      rw [write_of_reads h]
      exact ⟨by simp [written, hchanged, hdry, respelled],
        by simp [written, hchanged, hdry, respelled]⟩

/-- What is not read is reported, and the tree stays as it is. -/
theorem respellFile_of_error {reason : Text}
    (h : t.readSource r.cwd path r.limit Utf8.decodeKeeping = .error reason) :
    (r.respellFile t path).outcome = .error reason ∧ (r.respellFile t path).tree = t := by
  rw [respellFile, h]
  exact ⟨rfl, rfl⟩

theorem tree_respellFile_dry (t : Tree) (path : Text) : (r.dry.respellFile t path).tree = t := by
  cases hread : t.readSource r.cwd path r.limit Utf8.decodeKeeping with
  | error reason => exact (respellFile_of_error (r := r.dry) hread).2
  | ok content =>
    obtain ⟨p, bytes, hreads, -⟩ := Tree.reads_of_readSource hread
    have htree := (respellFile_of_reads_eq (r := r.dry) hreads).2
    rw [htree]
    simp [dry]

/-- A dry run leaves the tree as it is. -/
theorem tree_respellEach_dry (t : Tree) (paths : List Text) :
    (r.dry.respellEach t paths).1 = t := by
  induction paths with
  | nil => rfl
  | cons path paths ih =>
    rw [respellEach, tree_respellFile_dry]
    exact ih

/-- A file that cannot be respelled is reported before the files after it. -/
theorem report_respellEach_of_error {reason : Text}
    (h : (r.respellFile t path).outcome = .error reason) (paths : List Text) :
    (r.respellEach t (path :: paths)).2.1 =
      let report := (r.respellEach (r.respellFile t path).tree paths).2.1
      { report with
        total := report.total + 1
        failures := ⟨path, reason⟩ :: report.failures } := by
  rw [respellEach, h]

theorem report_respellEach_of_ok {file : FileRespelling}
    (h : (r.respellFile t path).outcome = .ok file) (paths : List Text) :
    (r.respellEach t (path :: paths)).2.1 =
      let report := (r.respellEach (r.respellFile t path).tree paths).2.1
      { report with total := report.total + 1, files := file :: report.files } := by
  rw [respellEach, h]

/-- What is reported on files the first of which is read. -/
theorem files_respellEach_of_reads (h : t.Reads r.cwd path r.limit p bytes) (paths : List Text) :
    ∃ f, (r.respellEach t (path :: paths)).2.1.files =
        f :: (r.respellEach (r.respellFile t path).tree paths).2.1.files ∧ f.file = path ∧
      f.respelled = Respell.text r.cwd path r.rules (Utf8.decodeKeeping bytes) := by
  rw [report_respellEach_of_ok (respellFile_of_reads_eq h).1]
  exact ⟨_, rfl, rfl, rfl⟩

/-- A dry run reports on every file that is read. -/
theorem exists_mem_files_dry (hpath : path ∈ paths) (h : t.Reads r.cwd path r.limit p bytes) :
    ∃ f ∈ (r.dry.respellEach t paths).2.1.files, f.file = path := by
  induction paths with
  | nil => exact absurd hpath List.not_mem_nil
  | cons path₀ paths ih =>
    have hrest : path ∈ paths → ∃ f ∈ (r.dry.respellEach t paths).2.1.files, f.file = path := ih
    cases hstep : (r.dry.respellFile t path₀).outcome with
    | error reason =>
      rw [report_respellEach_of_error hstep, tree_respellFile_dry]
      rcases List.mem_cons.mp hpath with rfl | hpath
      · rw [(respellFile_of_reads_eq (r := r.dry) h).1] at hstep
        cases hstep
      · exact hrest hpath
    | ok file =>
      rw [report_respellEach_of_ok hstep, tree_respellFile_dry]
      rcases List.mem_cons.mp hpath with rfl | hpath
      · rw [(respellFile_of_reads_eq (r := r.dry) h).1, Except.ok.injEq] at hstep
        exact ⟨file, List.mem_cons_self, hstep ▸ rfl⟩
      · obtain ⟨f, hf, hfile⟩ := hrest hpath
        exact ⟨f, List.mem_cons_of_mem _ hf, hfile⟩

/-- The second tree differs from the first one in files that none of the paths leads to. -/
structure Unseen (r : Respeller) (t u : Tree) (paths : List Text) : Prop where
  blank : u.blank = t.blank
  find?_eq : ∀ path ∈ paths, ∀ q, t.locate true r.cwd path = .ok q → u.find? q = t.find? q

namespace Unseen

theorem tail (h : r.Unseen t u (path :: paths)) : r.Unseen t u paths :=
  ⟨h.blank, fun path' hpath' => h.find?_eq path' (List.mem_cons_of_mem _ hpath')⟩

theorem readSource_eq (h : r.Unseen t u (path :: paths)) (limit : Limit) (decode : Bytes → Text) :
    u.readSource r.cwd path limit decode = t.readSource r.cwd path limit decode := by
  rw [Tree.readSource, Tree.readSource, Tree.stat, Tree.stat, locate_congr h.blank path]
  cases hl : t.locate true r.cwd path with
  | error e => rfl
  | ok q =>
    dsimp only
    rw [h.find?_eq path List.mem_cons_self q hl]

theorem reads (h : r.Unseen t u (path :: paths)) (hreads : t.Reads r.cwd path r.limit p bytes) :
    u.Reads r.cwd path r.limit p bytes :=
  ⟨(locate_congr h.blank path).trans hreads.locate,
    (h.find?_eq path List.mem_cons_self p hreads.locate).trans hreads.find, hreads.within⟩

/-- After a file is respelled no later path leads to it, if the dry run found none that does. -/
theorem respellFile (h : r.Unseen t u (path :: paths)) (hdry : r.dryRun = false)
    (hreads : t.Reads r.cwd path r.limit p bytes)
    (hother : ∀ g ∈ (r.dry.respellEach t paths).2.1.files,
      (Respell.text r.cwd path r.rules (Utf8.decodeKeeping bytes)).hasChanges = true →
        t.sameEntry r.cwd path g.file = false) :
    r.Unseen t (r.respellFile u path).tree paths := by
  have hreads' := h.reads hreads
  have htree := (respellFile_of_reads_eq hreads').2
  rw [hdry, Bool.not_false, Bool.and_true] at htree
  split at htree
  · rename_i hchanged
    rw [htree]
    refine ⟨(Tree.blank_set hreads'.find).trans h.blank, fun path' hpath' q' hq' => ?_⟩
    rw [Tree.find?_set (place_ne_nil hreads'), if_neg, h.tail.find?_eq path' hpath' q' hq']
    rintro rfl
    obtain ⟨g, hg, rfl⟩ := exists_mem_files_dry hpath'
      (⟨hq', hreads.find, hreads.within⟩ : t.Reads r.cwd path' r.limit q' bytes)
    have hsame := hother g hg hchanged
    rw [Tree.sameEntry, hreads.locate, hq'] at hsame
    simp [hreads.find] at hsame
  · rw [htree]
    exact h.tail

end Unseen

/-- What a respelling gives on a tree that differs from the one of the dry run in files that none of
the paths leads to. -/
theorem respellEach_predicted (hdry : r.dryRun = false) (h : r.Unseen t u paths)
    (hdistinct : (r.dry.respellEach t paths).2.1.files.Pairwise fun f g =>
      f.respelled.hasChanges = true → t.sameEntry r.cwd f.file g.file = false) :
    (r.respellEach u paths).2.1.unwritten = (r.dry.respellEach t paths).2.1 ∧
      ∀ f ∈ (r.respellEach u paths).2.1.files, f.written = f.respelled.hasChanges := by
  induction paths generalizing u with
  | nil => exact ⟨rfl, by simp [respellEach]⟩
  | cons path paths ih =>
    cases hread : t.readSource r.cwd path r.limit Utf8.decodeKeeping with
    | error reason =>
      obtain ⟨hone, htree⟩ := respellFile_of_error ((h.readSource_eq _ _).trans hread)
      have hdryOne := (respellFile_of_error (r := r.dry) hread).1
      rw [report_respellEach_of_error hdryOne, tree_respellFile_dry] at hdistinct ⊢
      rw [report_respellEach_of_error hone, htree]
      obtain ⟨hreport, hwritten⟩ := ih h.tail hdistinct
      refine ⟨?_, hwritten⟩
      rw [← hreport]
      rfl
    | ok content =>
      obtain ⟨q, bytes, hreads, -⟩ := Tree.reads_of_readSource hread
      have hone := (respellFile_of_reads_eq (h.reads hreads)).1
      have hdryOne := (respellFile_of_reads_eq (r := r.dry) hreads).1
      rw [report_respellEach_of_ok hdryOne, tree_respellFile_dry] at hdistinct ⊢
      rw [report_respellEach_of_ok hone]
      obtain ⟨hfirst, hrest⟩ := List.pairwise_cons.mp hdistinct
      obtain ⟨hreport, hwritten⟩ := ih (h.respellFile hdry hreads hfirst) hrest
      refine ⟨?_, fun f hf => ?_⟩
      · rw [← hreport, checkAll_congr h.blank,
          show (_ && !r.dry.dryRun) = false from Bool.and_false _]
        rfl
      · rcases List.mem_cons.mp hf with rfl | hf
        · simp [hdry]
        · exact hwritten f hf

end Respeller

namespace Respell

variable {settings : Settings} {s : Session} {dryRun backup : Bool}

theorem backup_respellEach (r : Respeller) (t : Tree) (paths : List Text) :
    (r.respellEach t paths).2.1.backup = none := by
  induction paths generalizing t with
  | nil => rfl
  | cons path paths ih =>
    cases hstep : (r.respellFile t path).outcome with
    | error reason => rw [Respeller.report_respellEach_of_error hstep, ih]
    | ok file => rw [Respeller.report_respellEach_of_ok hstep, ih]

/-- The respelling of a project without a backup. -/
theorem perform_project_of_none {r : Resolver} {rules : List Rule} {top : Text} {scanned : Scanned}
    {limit : Limit} (h : (backup && !dryRun) = false) (request : RespellRequest)
    (hr : settings.resolver s.cwd = .ok r)
    (hrules : Respell.rules settings s.cwd request.ruleSet = .ok rules)
    (htop : Analysis.rootOf settings s.cwd request.root = .ok top)
    (hscan : s.tree.scan s.cwd top settings.scanRules = .ok scanned)
    (hlimit : settings.limit = .ok limit) :
    let done := Respeller.respellEach ⟨s.cwd, rules, some r, dryRun, limit⟩ s.tree scanned.paths
    ∃ notices, (project settings { request with dryRun, backup }).perform s =
      (.ok done.2.1, { s with tree := done.1, notices }) := by
  intro done
  refine ⟨s.notices ++ scanned.notices ++ done.2.2, ?_⟩
  have hrun := perform_project_scanned { request with dryRun, backup } hr hrules htop hscan hlimit
  rw [perform_backUp_of_none h] at hrun
  rw [show done.2.1 = { done.2.1 with backup := none } from
    congrArg (RespellReport.mk _ _ _) (backup_respellEach _ _ _)]
  exact hrun

/-- Without a backup a run fails before it looks at the files, or goes over the files that a scan
lists; which of the two it is does not depend on its being a dry one. -/
theorem perform_project_cases (settings : Settings) (request : RespellRequest) (s : Session) :
    (∃ e s', s'.tree = s.tree ∧ ∀ dryRun backup, (backup && !dryRun) = false →
      (project settings { request with dryRun, backup }).perform s = (.error e, s')) ∨
    ∃ (r : Respeller) (paths : List Text), r.cwd = s.cwd ∧
      ∀ dryRun backup, (backup && !dryRun) = false →
        let done := { r with dryRun }.respellEach s.tree paths
        ∃ notices, (project settings { request with dryRun, backup }).perform s =
          (.ok done.2.1, { s with tree := done.1, notices }) := by
  cases hr : settings.resolver s.cwd with
  | error e =>
    refine Or.inl ⟨e, s, rfl, fun dryRun backup _ => ?_⟩
    simp only [project, Run.perform_bind, Run.perform_get, Run.perform_of, hr]
  | ok resolver =>
  cases hrules : rules settings s.cwd request.ruleSet with
  | error e =>
    refine Or.inl ⟨e, s, rfl, fun dryRun backup _ => ?_⟩
    simp only [project, Run.perform_bind, Run.perform_get, Run.perform_of, hr, hrules]
  | ok rules =>
  cases htop : Analysis.rootOf settings s.cwd request.root with
  | error e =>
    refine Or.inl ⟨e, s, rfl, fun dryRun backup _ => ?_⟩
    simp only [project, Analysis.scan, Run.perform_bind, Run.perform_get, Run.perform_of, hr,
      hrules, htop]
  | ok top =>
  cases hscan : s.tree.scan s.cwd top settings.scanRules with
  | error e =>
    refine Or.inl ⟨e, s, rfl, fun dryRun backup _ => ?_⟩
    simp only [project, Analysis.scan, Run.perform_bind, Run.perform_get, Run.perform_of, hr,
      hrules, htop, hscan]
  | ok scanned =>
  cases hlimit : settings.limit with
  | error e =>
    refine Or.inl ⟨e, { s with notices := s.notices ++ scanned.notices }, rfl,
      fun dryRun backup h => ?_⟩
    simp only [project, Analysis.scan, Run.perform_bind, Run.perform_get, Run.perform_of,
      Run.perform_note, Run.perform_pure, hr, hrules, htop, hscan, perform_backUp_of_none h, hlimit]
  | ok limit =>
    exact Or.inr ⟨⟨s.cwd, rules, some resolver, false, limit⟩, scanned.paths, rfl,
      fun dryRun backup h => perform_project_of_none h request hr hrules htop hscan hlimit⟩

/-- What a dry run reports is what a run without a backup does, unless a path leads to a file that
was changed before. A dry run changes nothing, and fails where the run fails. -/
theorem dry_run_predicts (settings : Settings) (request : RespellRequest) (s : Session) :
    let dry := (project settings { request with dryRun := true }).perform s
    let wet := (project settings { request with dryRun := false, backup := false }).perform s
    dry.2.tree = s.tree ∧
      (∀ e, dry.1 = .error e → wet.1 = .error e ∧ wet.2.tree = s.tree) ∧
      ∀ report, dry.1 = .ok report →
        (report.files.Pairwise fun f g =>
          f.respelled.hasChanges = true → s.tree.sameEntry s.cwd f.file g.file = false) →
        ∃ written, wet.1 = .ok written ∧ written.unwritten = report ∧
          ∀ f ∈ written.files, f.written = f.respelled.hasChanges := by
  intro dry wet
  rcases perform_project_cases settings request s with
    ⟨e, s', htree, hfails⟩ | ⟨r, paths, hcwd, hends⟩
  · have hdry : dry = (.error e, s') := hfails true request.backup (Bool.and_false _)
    have hwet : wet = (.error e, s') := hfails false false rfl
    rw [hdry, hwet]
    refine ⟨htree, fun e' he => ⟨he, htree⟩, fun report h => ?_⟩
    cases h
  · obtain ⟨notices, hdry⟩ := hends true request.backup (Bool.and_false _)
    obtain ⟨notices', hwet⟩ := hends false false rfl
    rw [show dry = _ from hdry, show wet = _ from hwet]
    let respeller : Respeller := { r with dryRun := false }
    refine ⟨Respeller.tree_respellEach_dry (r := respeller) s.tree paths, fun e he => ?_,
      fun report h hdistinct => ?_⟩
    · cases he
    · rw [← hcwd] at hdistinct
      cases h
      obtain ⟨hreport, hwritten⟩ := Respeller.respellEach_predicted (r := respeller) (u := s.tree)
        rfl ⟨rfl, fun _ _ _ _ => rfl⟩ hdistinct
      exact ⟨_, rfl, hreport, hwritten⟩

def sampleResolver : Resolver := Resolver.ofEntries "/" [("@/", "/src")] Resolver.defaultSuffixes

/-- The respelling of a project with the settings that are there by default. -/
theorem perform_project_default {s : Session} {scanned : Scanned} (hcwd : s.cwd = "/")
    (hscan : s.tree.scan "/" "/src" ({} : Settings).scanRules = .ok scanned) (dryRun : Bool) :
    let done := Respeller.respellEach ⟨"/", sampleRules, some sampleResolver, dryRun, .default⟩
      s.tree scanned.paths
    ∃ notices, (project {} { dryRun }).perform s =
      (.ok done.2.1, { s with tree := done.1, notices }) := by
  have hrules : Respell.rules {} "/" "computed" = .ok sampleRules := by cbv
  have htop : ({} : Settings).sourceRoot "/" = .ok "/src" := by cbv
  have hlimit : ({} : Settings).limit = .ok .default := by cbv
  have hentries : ({} : Settings).aliasEntries "/" = .ok [("@/", "/src")] := by cbv
  have hr : ({} : Settings).resolver "/" = .ok sampleResolver := by
    rw [Settings.resolver, hentries]
    rfl
  rw [← hcwd] at hrules htop hr hscan
  rw [← hcwd]
  exact perform_project_of_none (Bool.false_and _) {} hr hrules htop hscan hlimit

/-- The respelling of one import is predicted. -/
theorem dry_run_predicts_sample : ∃ report written,
    ((project {} { dryRun := true }).perform (sample "import '../b'")).1 = .ok report ∧
    report.files.map (·.respelled) = [sampleResult, ⟨[], [], []⟩] ∧
    ((project {} {}).perform (sample "import '../b'")).1 = .ok written ∧
    written.unwritten = report ∧ written.files.map (·.written) = [true, false] := by
  let r : Respeller := ⟨"/", sampleRules, some sampleResolver, true, .default⟩
  have hother : (sample "import '../b'").tree.Reads "/" "/src/b.ts" .default ["src", "b.ts"] [] :=
    ⟨by cbv, by cbv, by decide⟩
  obtain ⟨notices, hdry⟩ := perform_project_default rfl (scan_sample {} rfl).1 true
  obtain ⟨f, hf, hfile, hrespelled⟩ :=
    Respeller.files_respellEach_of_reads (r := r) reads_sample ["/src/b.ts"]
  obtain ⟨g, hg, hfile', hrespelled'⟩ := Respeller.files_respellEach_of_reads (r := r) hother []
  have htree : (r.respellFile (sample "import '../b'").tree sampleFile).tree =
      (sample "import '../b'").tree := Respeller.tree_respellFile_dry (r := r) _ _
  have hresult : f.respelled = sampleResult := hrespelled.trans (by decide)
  have hresult' : g.respelled = ⟨[], [], []⟩ := hrespelled'.trans (by decide)
  have hfiles : (r.respellEach (sample "import '../b'").tree samplePaths).2.1.files = [f, g] := by
    rw [show samplePaths = [sampleFile, "/src/b.ts"] from rfl, hf, htree, hg]
    rfl
  obtain ⟨-, -, hpredicts⟩ := dry_run_predicts {} {} (sample "import '../b'")
  obtain ⟨written, hwet, hsame, hwritten⟩ := hpredicts _ (congrArg Prod.fst hdry) (by
    rw [hfiles, List.pairwise_pair, hfile, hfile']
    exact fun _ => by cbv)
  have hflags : written.files.map (·.written) =
      written.unwritten.files.map (·.respelled.hasChanges) := by
    rw [RespellReport.unwritten, List.map_map]
    exact List.map_congr_left hwritten
  refine ⟨_, written, congrArg Prod.fst hdry, ?_, hwet, hsame, ?_⟩
  · rw [hfiles, List.map_cons, List.map_cons, hresult, hresult']
    rfl
  · rw [hflags, hsame, hfiles, List.map_cons, List.map_cons, hresult, hresult']
    decide

/-- A project in which a link leads to a file that is listed before it. -/
def linked (statement : Text) : Session where
  tree := ⟨[(["src"], .directory), (["src", "a"], .directory),
    (["src", "a", "b.ts"], .file (Utf8.encodeKeeping statement)),
    (["src", "a", "d.ts"], .link "b.ts"), (["src", "c.ts"], .file [])]⟩
  cwd := "/"

def linkedPaths : List Text := ["/src/a/b.ts", "/src/a/d.ts", "/src/c.ts"]

theorem scan_linked : (linked "import '../c'").tree.scan "/" "/src" ({} : Settings).scanRules =
    .ok ⟨linkedPaths, []⟩ := by cbv

/-- The second file is read after the first one was respelled. -/
theorem files_linked {r : Respeller} (hcwd : r.cwd = "/") (hrules : r.rules = sampleRules)
    (hlimit : r.limit = .default) {statement : Text}
    (htree : (r.respellFile (linked "import '../c'").tree "/src/a/b.ts").tree =
      (linked statement).tree)
    (hreads : (linked statement).tree.Reads "/" "/src/a/d.ts" .default ["src", "a", "b.ts"]
      (Utf8.encodeKeeping statement)) :
    ∃ f g rest, (r.respellEach (linked "import '../c'").tree linkedPaths).2.1.files =
        f :: g :: rest ∧
      g.respelled = text "/" "/src/a/d.ts" sampleRules
        (Utf8.decodeKeeping (Utf8.encodeKeeping statement)) := by
  have hfirst : (linked "import '../c'").tree.Reads "/" "/src/a/b.ts" .default
      ["src", "a", "b.ts"] (Utf8.encodeKeeping "import '../c'") := ⟨by cbv, by cbv, by decide⟩
  rw [← hcwd, ← hlimit] at hfirst hreads
  obtain ⟨f, hf, -⟩ :=
    Respeller.files_respellEach_of_reads hfirst ["/src/a/d.ts", "/src/c.ts"]
  obtain ⟨g, hg, -, hrespelled⟩ := Respeller.files_respellEach_of_reads hreads ["/src/c.ts"]
  rw [hcwd, hrules] at hrespelled
  rw [htree, hg] at hf
  exact ⟨f, g, _, hf, hrespelled⟩

/-- What is read through a link to a file that was changed before is not what a dry run read. -/
theorem not_dry_run_predicts : ¬ ∀ (settings : Settings) (s s₁ s₂ : Session)
    (report written : RespellReport),
    (project settings { dryRun := true }).perform s = (.ok report, s₁) →
    (project settings {}).perform s = (.ok written, s₂) → written.unwritten = report := by
  intro h
  obtain ⟨notices, hdry⟩ := perform_project_default rfl scan_linked true
  obtain ⟨notices', hwet⟩ := perform_project_default rfl scan_linked false
  have hfiles := congrArg RespellReport.files (h {} _ _ _ _ _ hdry hwet)
  let r : Respeller := ⟨"/", sampleRules, some sampleResolver, false, .default⟩
  have hfirst : (linked "import '../c'").tree.Reads "/" "/src/a/b.ts" .default
      ["src", "a", "b.ts"] (Utf8.encodeKeeping "import '../c'") := ⟨by cbv, by cbv, by decide⟩
  have htree : (r.respellFile (linked "import '../c'").tree "/src/a/b.ts").tree =
      (linked "import '@/c'").tree :=
    (Respeller.respellFile_of_reads_eq (r := r) hfirst).2.trans (by decide)
  obtain ⟨f, g, rest, hold, hbefore⟩ := files_linked (r := r.dry) rfl rfl rfl
    (Respeller.tree_respellFile_dry (r := r) _ _) ⟨by cbv, by cbv, by decide⟩
  obtain ⟨f', g', rest', hnew, hafter⟩ := files_linked (r := r) rfl rfl rfl htree
    ⟨by cbv, by cbv, by decide⟩
  have hsame : g'.respelled = g.respelled := by
    rw [RespellReport.unwritten, show RespellReport.files _ = _ from hnew] at hfiles
    obtain ⟨hsame, -⟩ := List.cons.inj (List.cons.inj (hfiles.trans hold)).2
    rw [← hsame]
    rfl
  rw [hbefore, hafter] at hsame
  exact absurd (congrArg Respelled.hasChanges hsame) (by decide)

end Respell
end ModuleGraph
