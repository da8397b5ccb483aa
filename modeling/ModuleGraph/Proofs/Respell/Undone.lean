import ModuleGraph.Proofs.Backup.Edited
import ModuleGraph.Proofs.Files.Grown
import ModuleGraph.Proofs.Respell.Project

/-!
Undoing a respelling with the backup that was taken before.

* `respellEach_frame`: only the contents of the files that the paths lead to change;
* `backed_up_spec`: a respelling with a backup works on the tree that the backup leaves;
* `exists_keptFile_of_written`: a file of the project that is respelled has a copy;
* `respelling_undone`: restoring the backup brings every such file back;
* `not_respelling_undone`: a file whose suffix is not backed up stays as it was respelled.
-/

namespace ModuleGraph

namespace Tree

variable {t : Tree} {p : Place} {old : Bytes}

/-- New contents for a file change nothing else. -/
theorem set_file (ht : t.WellFormed) (hf : t.find? p = some (.file old)) (bytes : Bytes) :
    (t.set p (.file bytes)).WellFormed ∧ t.SameWays (t.set p (.file bytes)) ∧
      ∀ q, (t.set p (.file bytes)).find? q = if q = p then some (.file bytes) else t.find? q := by
  have hne : p ≠ [] := by
    rintro rfl
    cases hf
  have hset := find?_set hne (t := t) (.file bytes)
  refine ⟨?_, fun q => ?_, hset⟩
  · obtain ⟨D, n, rfl⟩ : ∃ D n, p = D ++ [n] := ⟨_, _, (List.dropLast_append_getLast hne).symm⟩
    have hthere : t.find? (D ++ [n]) ≠ none := by
      rw [hf]
      exact Option.some_ne_none _
    exact ht.set (ht.above D n hthere) (ht.isName_of_find? hthere n (by simp))
      fun h => by rw [hf] at h; cases h
  · by_cases hq : q = p
    · subst hq
      rw [way_file hf]
      exact way_file (by rw [hset, if_pos rfl])
    · exact way_of_find? (by rw [hset, if_neg hq])

end Tree

namespace Respeller

variable {r : Respeller} {t : Tree} {path : Text} {paths : List Text}

/-- Respelling a file changes the contents of that file alone, if anything. -/
theorem respellFile_frame (r : Respeller) (path : Text) (ht : t.WellFormed) :
    let u := (r.respellFile t path).tree
    u.WellFormed ∧ t.SameWays u ∧ (∀ q, t.find? q ≠ none → u.find? q ≠ none) ∧
      ∀ q, t.locate true r.cwd path ≠ .ok q → u.find? q = t.find? q := by
  have hsame : t.WellFormed ∧ t.SameWays t ∧ (∀ q, t.find? q ≠ none → t.find? q ≠ none) ∧
      ∀ q, t.locate true r.cwd path ≠ .ok q → t.find? q = t.find? q :=
    ⟨ht, fun _ => rfl, fun _ h => h, fun _ _ => rfl⟩
  intro u
  unfold u respellFile
  cases hread : t.readSource r.cwd path r.limit Utf8.decodeKeeping with
  | error reason => exact hsame
  | ok content =>
    obtain ⟨p, bytes, hreads, -⟩ := Tree.reads_of_readSource hread
    dsimp only
    split
    · exact hsame
    split
    · exact hsame
    · rw [write_of_reads hreads]
      obtain ⟨hwf, hways, hset⟩ := Tree.set_file ht hreads.find
        (Utf8.encodeKeeping (Respell.text r.cwd path r.rules content).after)
      refine ⟨hwf, hways, fun q hq => ?_, fun q hq => ?_⟩
      · rw [hset]
        split
        · exact Option.some_ne_none _
        · exact hq
      · rw [hset, if_neg]
        rintro rfl
        exact hq hreads.locate

/-- Respelling files changes the contents of files that the paths lead to, and nothing else. -/
theorem respellEach_frame (r : Respeller) (paths : List Text) (ht : t.WellFormed) :
    let u := (r.respellEach t paths).1
    u.WellFormed ∧ t.SameWays u ∧ (∀ q, t.find? q ≠ none → u.find? q ≠ none) ∧
      ∀ q, (∀ path ∈ paths, t.locate true r.cwd path ≠ .ok q) → u.find? q = t.find? q := by
  induction paths generalizing t with
  | nil => exact ⟨ht, fun _ => rfl, fun _ h => h, fun _ _ => rfl⟩
  | cons path paths ih =>
    obtain ⟨hwf, hways, hkeep, hframe⟩ := r.respellFile_frame path ht
    obtain ⟨hwf', hways', hkeep', hframe'⟩ := ih hwf
    refine ⟨hwf', fun q => (hways' q).trans (hways q), fun q hq => hkeep' q (hkeep q hq),
      fun q hq => ?_⟩
    have hrest : ∀ path' ∈ paths,
        (r.respellFile t path).tree.locate true r.cwd path' ≠ .ok q := fun path' hmem hl =>
      hq path' (List.mem_cons_of_mem _ hmem) (hways.locate_iff.mp hl)
    exact (hframe' q hrest).trans (hframe q (hq path List.mem_cons_self))

/-- A file that a path leads to and that is changed is written. -/
theorem respellFile_written (hdry : r.dryRun = false) {p : Place} {bytes : Bytes}
    (h : t.Reads r.cwd path r.limit p bytes)
    (hchanged : (Respell.text r.cwd path r.rules (Utf8.decodeKeeping bytes)).hasChanges = true) :
    ∃ file, (r.respellFile t path).outcome = .ok file ∧ file.file = path ∧ file.written = true ∧
      (r.respellFile t path).tree = t.set p (.file (Utf8.encodeKeeping
        (Respell.text r.cwd path r.rules (Utf8.decodeKeeping bytes)).after)) := by
  rw [respellFile, h.readSource_eq (Utf8.length_decodeKeeping_le bytes)]
  dsimp only
  rw [hchanged, hdry, write_of_reads h]
  exact ⟨_, rfl, rfl, rfl, rfl⟩

/-- What is reported is about the paths. -/
theorem mem_paths_of_mem_files (hdry : r.dryRun = false) {file : FileRespelling}
    (h : file ∈ (r.respellEach t paths).2.1.files) : file.file ∈ paths := by
  induction paths generalizing t with
  | nil => cases h
  | cons path paths ih =>
    rw [respellEach] at h
    dsimp only at h
    split at h
    · rename_i first hfirst
      rcases List.mem_cons.mp h with rfl | h
      · rw [(respellFile_spec hdry hfirst).1]
        exact List.mem_cons_self
      · exact List.mem_cons_of_mem _ (ih h)
    · exact List.mem_cons_of_mem _ (ih h)

end Respeller

namespace Backups

open ModuleGraph.Path ModuleGraph.Tree

variable {b : Backups} {t₁ u : Tree} {T : Place} {paths : List Text} {path : Text}
  {record : BackupRecord}

/-- What was listed before the directory of a backup was made is backed up, if it is in the project
and has a suffix that is. -/
theorem mem_listing {settings : Settings} {t : Tree} {top : Text} {scanned scan : Scanned}
    (ht : t.WellFormed) (hgrown : Grown t t₁) (hends : NoNewEnds t t₁) (htop : IsNormal top)
    (hscan : t.scan b.cwd top settings.scanRules = .ok scanned)
    (hbscan : b.scanned settings t₁ top = .ok scan) (hpath : path ∈ scanned.paths)
    (hinside : (b.relative? path).isSome = true)
    (htakes : ScanRules.takes ⟨settings.exclude, suffixes⟩ (Path.name path) = true) :
    path ∈ b.listing t₁ scan := by
  obtain ⟨hdir, scan', hscan', hpath'⟩ := hgrown.mem_scan ht hends htop hscan
    (rfl : (ScanRules.mk settings.exclude suffixes).exclude = _) hpath htakes
  rw [Backups.scanned, if_pos hdir, hscan', Except.ok.injEq] at hbscan
  exact List.mem_append_left _ (List.mem_filter.mpr ⟨hbscan ▸ hpath', hinside⟩)

/-- A path that was there before a backup leads to the same place after it. -/
theorem Made.locate_old {t : Tree} {p : Place} (hT : b.Fresh t₁ record.id T)
    (hm : b.Made t₁ u T paths record) (hgrown : Grown t t₁) (hpath : IsNormal path)
    (hl : t.locate true b.cwd path = .ok p) (hp : t.find? p ≠ none) :
    t₁.locate true b.cwd path = .ok p ∧ u.locate true b.cwd path = .ok p := by
  have hl₁ := hgrown.locate hl hp
  refine ⟨hl₁, ?_⟩
  rw [locate_normal hpath] at hl₁ ⊢
  exact hm.walk hT hl₁ (by rwa [hgrown.find? hp])

/-- A path that was listed leads to a place that the backup has a copy of. -/
theorem Made.exists_keptFile_of_mem (hT : b.Fresh t₁ record.id T)
    (hm : b.Made t₁ u T paths record) (hpath : path ∈ paths) :
    ∃ ns D bytes copied, Text.join [slash] ns ∈ record.files ∧ b.KeptFile u T ns D copied ∧
      t₁.locate true b.cwd path = .ok D ∧ t₁.find? D = some (.file bytes) ∧
      u.locate true b.cwd path = .ok D ∧ (ns ≠ [recordName] → copied = bytes) := by
  obtain ⟨name, hname, ns, -, hl, rfl, -, -⟩ := exists_of_forall₂ hm.copies path hpath
  obtain ⟨ms, D, bytes, copied, hjoin, hf, hD, hcopied⟩ := hm.exists_keptFile hT hname
  obtain rfl : ns = ms := by
    rw [← names_join_names hl.isName, hjoin, names_join_names hf.isName]
  obtain ⟨p, old, hp, hold⟩ := isFile_iff.mp hl.isFile
  have hne : t₁.find? p ≠ none := by
    rw [hold]
    exact Option.some_ne_none _
  have hlu : u.locate true b.cwd path = .ok p := by
    rw [locate_normal hl.normal] at hp ⊢
    exact hm.walk hT hp hne
  have hfu := hf.walk
  rw [← hl.names_eq, ← locate_normal hl.normal u true b.cwd, hlu, Except.ok.injEq] at hfu
  subst hfu
  exact ⟨ns, p, bytes, copied, hname, hf, hp, hD, hlu, hcopied⟩

end Backups

namespace Respell

open ModuleGraph.Path ModuleGraph.Tree Backups

variable {settings : Settings} {ruleSet : Text} {s s' : Session} {report : RespellReport}

/-- A respelling of the project with a backup before it: what is respelled was listed before the
backup, and is read from the tree that the backup leaves. -/
theorem backed_up_spec
    (h : (project settings { ruleSet, backup := true }).perform s = (.ok report, s')) :
    ∃ (r : Respeller) (top : Text) (scanned : Scanned) (record : BackupRecord) (s₀ s₁ : Session),
      r.cwd = s.cwd ∧ r.dryRun = false ∧ settings.sourceRoot s.cwd = .ok top ∧
      s.tree.scan s.cwd top settings.scanRules = .ok scanned ∧
      s₀.tree = s.tree ∧ s₀.clock = s.clock ∧
      ((ofSettings settings s.cwd).create settings backupDescription).perform s₀ =
        (.ok record, s₁) ∧
      (let done := r.respellEach s₁.tree scanned.paths
       report = { done.2.1 with backup := some record.id } ∧ s'.tree = done.1) := by
  obtain ⟨resolver, rules, top, scanned, limit, backup, s₁, -, -, htop, hscan, -, hbackup, hreport,
    htree, -⟩ := project_eq_ok h
  rcases backUp_cases hbackup with ⟨hflags, -⟩ | ⟨-, record, rfl, hcreate⟩
  · cases hflags
  exact ⟨⟨s.cwd, rules, some resolver, false, limit⟩, top, scanned, record,
    { s with notices := s.notices ++ scanned.notices }, s₁, rfl, rfl, htop, hscan, rfl, rfl,
    hcreate, hreport, htree⟩

/-- A backup that is taken before a respelling undoes it: restoring the backup brings back what was
in every file that was respelled, if the file is in the project and has a suffix that is backed up.
No link may get an end through the directory that is made for the backup, no other record may have
the id of the backup, and the file may not be the one that is called like a record. -/
theorem respelling_undone {settings : Settings} {ruleSet : Text} {s s₁ : Session}
    {report : RespellReport} {id : Text} (hcwd : isAbsolute s.cwd = true) (hwf : s.tree.WellFormed)
    (h : (project settings { ruleSet, backup := true }).perform s = (.ok report, s₁))
    (hid : report.backup = some id)
    (hends : ∀ t₁, s.tree.makeDirectories s.cwd
      (child (ofSettings settings s.cwd).directory id) false = .ok t₁ → NoNewEnds s.tree t₁)
    (hunique : ∀ r ∈ ((ofSettings settings s.cwd).records s₁.tree).1,
      ∀ r' ∈ ((ofSettings settings s.cwd).records s₁.tree).1, r.id = id → r'.id = id → r = r') :
    let b := ofSettings settings s.cwd
    ∃ restored s₂, (b.restore (some id) false).perform s₁ = (.ok restored, s₂) ∧
      restored.failed = [] ∧
      ∀ file ∈ report.files, file.written = true → (b.relative? file.file).isSome = true →
        ScanRules.takes ⟨settings.exclude, suffixes⟩ (Path.name file.file) = true →
        (recordName ∈ restored.files →
          s₁.tree.sameEntry s.cwd (child b.project recordName) file.file = false) →
        ∃ bytes, s.tree.read s.cwd file.file = .ok bytes ∧
          s₂.tree.read s.cwd file.file = .ok bytes := by
  intro b
  have hb : IsNormal b.project := Path.isNormal_absolute hcwd settings.projectRoot
  obtain ⟨r, top, scanned, record, s₀, s', hrcwd, hdry, htop, hscan, hs₀, -, hcreate, hreport,
    hs₁⟩ := backed_up_spec h
  have hnormal := Settings.isNormal_absolute hcwd htop
  obtain ⟨-, -, t₁, T, root, scan, hmake, hgrown, hnone, hT, hroot, hbscan, hm⟩ :=
    create_eq_ok hb hcwd (hs₀ ▸ hwf) hcreate
  rw [hs₀] at hmake hgrown hnone
  obtain rfl := Except.ok.inj (htop.symm.trans hroot)
  obtain rfl : record.id = id := by
    rw [hreport] at hid
    exact Option.some.inj hid
  have hends := hends t₁ hmake
  obtain ⟨B, rfl, hk⟩ := hm.kept hT
  -- what the respelling is about was there before the backup, and leads where it led
  have hscanned : ∀ path ∈ scanned.paths, ∃ p bytes, s.tree.locate true s.cwd path = .ok p ∧
      s.tree.find? p = some (.file bytes) ∧ t₁.locate true s.cwd path = .ok p ∧
      s'.tree.locate true s.cwd path = .ok p := by
    intro path hpath
    obtain ⟨hpath, hfile, -⟩ := mem_scan hwf hnormal hscan hpath
    obtain ⟨p, bytes, hl, hf⟩ := isFile_iff.mp hfile
    exact ⟨p, bytes, hl, hf,
      hm.locate_old hT hgrown hpath hl (by rw [hf]; exact Option.some_ne_none _)⟩
  obtain ⟨hwf₁, hways, hkeep, hframe⟩ := r.respellEach_frame scanned.paths hm.wellFormed
  rw [← hs₁] at hwf₁ hways hkeep hframe
  have hcopies : ∀ ns, s₁.tree.find? (B ++ [record.id] ++ ns) =
      s'.tree.find? (B ++ [record.id] ++ ns) := by
    refine fun ns => hframe _ fun path hpath hl => ?_
    obtain ⟨p, bytes, -, hf, -, hl'⟩ := hscanned path hpath
    rw [hrcwd, hl', Except.ok.injEq] at hl
    rw [hl, hwf.find?_append_of_none hnone] at hf
    cases hf
  have hk₁ := hk.of_sameWays hwf₁ hways hcopies
  have hmem := hk₁.mem_records hb
  obtain ⟨u, notices, hrun, -, hways₂, hplaces⟩ := hk₁.perform_restore hb
    fun r hr hid => hunique r hr record hmem hid rfl
  refine ⟨_, _, hrun, rfl, fun file hfile _ hinside htakes hrecord => ?_⟩
  have hpath : file.file ∈ scanned.paths := by
    rw [hreport] at hfile
    exact r.mem_paths_of_mem_files hdry hfile
  obtain ⟨p, bytes, hl, hf, hl₁, hl'⟩ := hscanned _ hpath
  have hlisted : file.file ∈ b.listing t₁ scan :=
    mem_listing hwf hgrown hends hnormal hscan hbscan hpath hinside htakes
  have hbytes : t₁.find? p = some (.file bytes) := by
    rw [hgrown.find? (by rw [hf]; exact Option.some_ne_none _), hf]
  obtain ⟨ns, D, old, copied, hns, hkept, hD, -⟩ := hm.exists_keptFile_of_mem hT hlisted
  obtain rfl := Except.ok.inj (hD.symm.trans hl₁)
  suffices hplace : u.find? D = some (.file bytes) from
    ⟨bytes, read_eq_ok.mpr ⟨D, hl, hf⟩, read_eq_ok.mpr
      ⟨D, hways₂.locate_iff.mpr (hways.locate_iff.mpr hl'), hplace⟩⟩
  rcases hplaces D with ⟨-, hnot⟩ | ⟨ms, copied', hms, hkept', hD'⟩
  · exact absurd (hkept.of_sameWays hways hcopies) (hnot ns copied hns)
  -- another name may lead to the same place, but what was copied is the same
  obtain ⟨held, hheld, hsame⟩ := hm.copied_eq hT
    (hkept'.of_sameWays hways.symm fun ns => (hcopies ns).symm) hms
  rw [hheld, Option.some.injEq, Entry.file.injEq] at hbytes
  rw [hD', hsame fun hrecordName => ?_, hbytes]
  have hname : Text.join [slash] ms = recordName := by simp [hrecordName, Text.join]
  have hother := hrecord (hname ▸ hms)
  have hlocate : s₁.tree.locate true s.cwd (child b.project recordName) = .ok D := by
    rw [← hname, child_project hb hkept'.isName, locate_normal (isNormal_below hb hkept'.isName),
      names_below hb hkept'.isName, hkept'.walk]
  have hthere : s'.tree.find? D ≠ none := by
    rw [hm.find? hT (by rw [hheld]; exact Option.some_ne_none _), hheld]
    exact Option.some_ne_none _
  rw [sameEntry, hlocate, hways.locate_iff.mpr hl'] at hother
  simp [hkeep D hthere] at hother

/-- The respelling of the project after a backup that is made. -/
theorem perform_backed_up {r : Resolver} {rules : List Rule} {top : Text} {scanned : Scanned}
    {limit : Limit} {record : BackupRecord} {s₁ : Session} (hr : settings.resolver s.cwd = .ok r)
    (hrules : Respell.rules settings s.cwd ruleSet = .ok rules)
    (htop : settings.sourceRoot s.cwd = .ok top)
    (hscan : s.tree.scan s.cwd top settings.scanRules = .ok scanned)
    (hlimit : settings.limit = .ok limit)
    (hcreate : ((ofSettings settings s.cwd).create settings backupDescription).perform
      { s with notices := s.notices ++ scanned.notices } = (.ok record, s₁)) :
    let done := Respeller.respellEach ⟨s.cwd, rules, some r, false, limit⟩ s₁.tree scanned.paths
    ∃ s', (project settings { ruleSet, backup := true }).perform s =
        (.ok { done.2.1 with backup := some record.id }, s') ∧ s'.tree = done.1 := by
  intro done
  have hrun := perform_project_scanned { ruleSet, backup := true } hr hrules htop hscan hlimit
  rw [perform_backUp_of_some rfl, hcreate] at hrun
  exact ⟨_, hrun, rfl⟩

/-- A project with two sources, one of which has a suffix that is not backed up. -/
def mixed : Session where
  tree := ⟨[(["p"], .directory), (["p", "src"], .directory), (["p", "src", "a"], .directory),
    (["p", "src", "a", "f.ts"], .file (Utf8.encodeKeeping "import '../b'")),
    (["p", "src", "a", "g.mts"], .file (Utf8.encodeKeeping "import '../b'"))]⟩
  cwd := "/p"

def mixedSettings : Settings := { suffixes := [".ts", ".mts"] }

/-- The project with an empty directory for a backup. -/
def mixedMade : Tree where
  entries := [(["p"], .directory), (["p", "src"], .directory), (["p", "src", "a"], .directory),
    (["p", "src", "a", "f.ts"], .file (Utf8.encodeKeeping "import '../b'")),
    (["p", "src", "a", "g.mts"], .file (Utf8.encodeKeeping "import '../b'")),
    (["p", ".backup"], .directory), (["p", ".backup", sampleId], .directory)]

def mixedRules : List Rule := Rule.computedRules ⟨"/p/src", "@/", true⟩

theorem make_mixed : mixed.tree.makeDirectories mixed.cwd
    (child sampleBackups.directory (head ++ mixed.clock.tick.1.stamp)) false = .ok mixedMade := by
  rw [show head ++ mixed.clock.tick.1.stamp = sampleId from sampleId_eq]
  exact makeDirectories_first_sample (by decide) (by decide) (by decide)

theorem scanned_mixed : sampleBackups.scanned mixedSettings mixedMade "/p/src" =
    .ok ⟨["/p/src/a/f.ts"], []⟩ := by
  have hwide : mixedMade.scan "/p" "/p/src" ⟨mixedSettings.exclude, ".mts" :: suffixes⟩ =
      .ok ⟨["/p/src/a/f.ts", "/p/src/a/g.mts"], []⟩ := by cbv
  have hnarrow : ∀ n, ScanRules.takes ⟨mixedSettings.exclude, suffixes⟩ n = true →
      ScanRules.takes ⟨mixedSettings.exclude, ".mts" :: suffixes⟩ n = true := by
    intro n h
    rw [ScanRules.takes, List.contains_iff_mem] at h ⊢
    exact List.mem_cons_of_mem _ h
  have hscan : mixedMade.scan "/p" "/p/src" ⟨mixedSettings.exclude, suffixes⟩ =
      .ok ⟨["/p/src/a/f.ts", "/p/src/a/g.mts"].filter fun path =>
        ScanRules.takes ⟨mixedSettings.exclude, suffixes⟩ (name path), []⟩ :=
    scan_narrowed (by rfl) hnarrow hwide
  have hdir : mixedMade.isDirectory sampleBackups.cwd "/p/src" = true := by cbv
  rw [scanned, if_pos hdir]
  exact hscan.trans (by decide)

theorem listing_mixed : sampleBackups.listing mixedMade ⟨["/p/src/a/f.ts"], []⟩ =
    ["/p/src/a/f.ts"] :=
  listing_single (by decide) (by cbv)

theorem scan_mixed : mixed.tree.scan mixed.cwd "/p/src" mixedSettings.scanRules =
    .ok ⟨["/p/src/a/f.ts", "/p/src/a/g.mts"], []⟩ := by
  cbv

theorem rules_mixed : Respell.rules mixedSettings mixed.cwd "computed" = .ok mixedRules := by cbv

/-- The names of its sources. -/
def mixedNames : List Text := ["f.ts", "g.mts"]

def mixedPath (n : Text) : Text := "/p/src/a/" ++ n

def mixedPlace (n : Text) : Place := [['p'], ['s', 'r', 'c'], ['a'], n]

/-- The tree after the respelling, from the one that the backup left. -/
def mixedAfter (t : Tree) : Tree :=
  (t.set (mixedPlace "f.ts") (.file (Utf8.encodeKeeping "import '@/b'"))).set (mixedPlace "g.mts")
    (.file (Utf8.encodeKeeping "import '@/b'"))

/-- The backup of the project has a copy of one of its sources. -/
theorem create_mixed (s : Session) (htree : s.tree = mixed.tree) (hclock : s.clock = mixed.clock) :
    ∃ record s', (sampleBackups.create mixedSettings backupDescription).perform s =
        (.ok record, s') ∧ record.id = sampleId ∧ record.files = [("src/a/f.ts" : Text)] ∧
      sampleBackups.Fresh mixedMade record.id (sampleStore ++ [record.id]) ∧
      sampleBackups.Made mixedMade s'.tree (sampleStore ++ [record.id])
        [("/p/src/a/f.ts" : Text)] record := by
  have hwf : s.tree.WellFormed := by
    rw [htree]
    decide
  have hroot : mixedSettings.sourceRoot sampleBackups.cwd = .ok "/p/src" := by decide
  have hname : ¬ sampleBackups.Finds mixedMade [recordName] .directory := by
    have hl : mixedMade.walk true maxLinks [] (names sampleBackups.project ++ [recordName]) =
        .ok [['p'], recordName] := by cbv
    rintro ⟨p, hp, hf⟩
    obtain rfl := Except.ok.inj (hl.symm.trans hp)
    cases hf
  have hmake := make_mixed
  rw [← htree, ← hclock] at hmake
  have hnames : names "/p/src/a/f.ts" = names sampleBackups.project ++
      [("src" : Text), "a", "f.ts"] := by decide
  have hwalk : mixedMade.walk true maxLinks []
      (names sampleBackups.project ++ [directoryName, sampleId]) =
        .ok (sampleStore ++ [sampleId]) := by cbv
  exact create_one isNormal_sample (by decide) hwf mixedSettings backupDescription hmake hroot
    scanned_mixed hname listing_mixed hnames (by rw [hclock]; exact sampleId_eq) hwalk

/-- A source of the project, on the tree that the backup leaves. -/
theorem reads_mixed {t : Tree} {record : BackupRecord} {n : Text} (hn : n ∈ mixedNames)
    (hT : sampleBackups.Fresh mixedMade record.id (sampleStore ++ [record.id]))
    (hm : sampleBackups.Made mixedMade t (sampleStore ++ [record.id]) [("/p/src/a/f.ts" : Text)]
      record) :
    t.Reads mixed.cwd (mixedPath n) .default (mixedPlace n)
      (Utf8.encodeKeeping "import '../b'") := by
  have hfind : mixedMade.find? (mixedPlace n) = some (.file (Utf8.encodeKeeping "import '../b'")) :=
    (by decide : ∀ n ∈ mixedNames, mixedMade.find? (mixedPlace n) =
      some (.file (Utf8.encodeKeeping "import '../b'"))) n hn
  have hne : mixedMade.find? (mixedPlace n) ≠ none := by
    rw [hfind]
    exact Option.some_ne_none _
  obtain ⟨habsolute, hnormal, hnames⟩ := (by decide : ∀ n ∈ mixedNames,
    isAbsolute (mixedPath n) = true ∧ normalize (mixedPath n) = mixedPath n ∧
      names (mixedPath n) = mixedPlace n) n hn
  have hwalk : mixedMade.walk true maxLinks [] (mixedPlace n) = .ok (mixedPlace n) := by
    rcases List.mem_pair.mp hn with rfl | rfl
    · cbv
    · cbv
  refine ⟨?_, (hm.find? hT hne).trans hfind, by decide⟩
  rw [locate_normal ⟨habsolute, hnormal⟩, hnames]
  exact hm.walk hT hwalk hne

/-- What respelling does with a source of the project. -/
theorem respellFile_mixed (r : Resolver) {t : Tree} {n : Text} (hn : n ∈ mixedNames)
    (h : t.Reads mixed.cwd (mixedPath n) .default (mixedPlace n)
      (Utf8.encodeKeeping "import '../b'")) :
    let respeller : Respeller := ⟨mixed.cwd, mixedRules, some r, false, .default⟩
    ∃ file, (respeller.respellFile t (mixedPath n)).outcome = .ok file ∧ file.file = mixedPath n ∧
      file.written = true ∧ (respeller.respellFile t (mixedPath n)).tree =
        t.set (mixedPlace n) (.file (Utf8.encodeKeeping "import '@/b'")) := by
  intro respeller
  have htext : ∀ n ∈ mixedNames,
      (text mixed.cwd (mixedPath n) mixedRules
        (Utf8.decodeKeeping (Utf8.encodeKeeping "import '../b'"))).hasChanges = true ∧
      (text mixed.cwd (mixedPath n) mixedRules
        (Utf8.decodeKeeping (Utf8.encodeKeeping "import '../b'"))).after = "import '@/b'" := by
    decide
  obtain ⟨hchanged, hafter⟩ := htext n hn
  obtain ⟨file, hfile, hpath, hwritten, htree⟩ := respeller.respellFile_written rfl h hchanged
  exact ⟨file, hfile, hpath, hwritten, htree.trans (congrArg (fun after => t.set (mixedPlace n)
    (.file (Utf8.encodeKeeping after))) hafter)⟩

/-- The respelling of the project changes both sources. -/
theorem perform_mixed : ∃ (report : RespellReport) (s₁ s' : Session) (record : BackupRecord)
    (f g : FileRespelling),
    (project mixedSettings { ruleSet := "computed", backup := true }).perform mixed =
      (.ok report, s₁) ∧
    report.backup = some record.id ∧ report.files = [f, g] ∧
    (f.file = mixedPath "f.ts" ∧ f.written = true) ∧
    (g.file = mixedPath "g.mts" ∧ g.written = true) ∧ s₁.tree = mixedAfter s'.tree ∧
    record.id = sampleId ∧ record.files = [("src/a/f.ts" : Text)] ∧
    sampleBackups.Fresh mixedMade record.id (sampleStore ++ [record.id]) ∧
    sampleBackups.Made mixedMade s'.tree (sampleStore ++ [record.id]) [("/p/src/a/f.ts" : Text)]
      record := by
  let s₀ : Session := { mixed with notices := mixed.notices ++ [] }
  obtain ⟨record, s', hcreate, hid, hfiles, hT, hm⟩ := create_mixed s₀ rfl rfl
  obtain ⟨r, hr⟩ : ∃ r, mixedSettings.resolver mixed.cwd = .ok r := by
    have hentries : mixedSettings.aliasEntries mixed.cwd = .ok [("@/", "/p/src")] := by cbv
    rw [Settings.resolver, hentries]
    exact ⟨_, rfl⟩
  have htop : mixedSettings.sourceRoot mixed.cwd = .ok "/p/src" := by decide
  have hlimit : mixedSettings.limit = .ok .default := by cbv
  obtain ⟨s₁, hrun, htree⟩ := perform_backed_up hr rules_mixed htop scan_mixed hlimit hcreate
  have hreads := reads_mixed (n := "f.ts") (by decide) hT hm
  obtain ⟨f, hf, hfile, hwritten, hone⟩ := respellFile_mixed r (by decide) hreads
  -- the second source is read from the tree in which the first one is respelled
  have hreads' : (s'.tree.set (mixedPlace "f.ts") (.file (Utf8.encodeKeeping "import '@/b'"))).Reads
      mixed.cwd (mixedPath "g.mts") .default (mixedPlace "g.mts")
      (Utf8.encodeKeeping "import '../b'") := by
    have hold := reads_mixed (n := "g.mts") (by decide) hT hm
    obtain ⟨-, hways, hset⟩ := Tree.set_file hm.wellFormed hreads.find
      (Utf8.encodeKeeping "import '@/b'")
    refine ⟨hways.locate_iff.mpr hold.locate, ?_, hold.within⟩
    rw [hset, if_neg (by decide), hold.find]
  obtain ⟨g, hg, hfile', hwritten', htwo⟩ := respellFile_mixed r (by decide) hreads'
  obtain ⟨hdone, hfiles', -⟩ := Respeller.respellEach_cons hf [mixedPath "g.mts"]
  rw [hone] at hdone hfiles'
  obtain ⟨hdone', hfiles'', -⟩ := Respeller.respellEach_cons hg []
  refine ⟨_, s₁, s', record, f, g, hrun, rfl, ?_, ⟨hfile, hwritten⟩, ⟨hfile', hwritten'⟩, ?_, hid,
    hfiles, hT, hm⟩
  · exact hfiles'.trans (congrArg _ hfiles'')
  · exact htree.trans (hdone.trans (hdone'.trans htwo))

theorem find?_mixedAfter (t : Tree) (q : Place) : (mixedAfter t).find? q =
    if q = mixedPlace "g.mts" then some (.file (Utf8.encodeKeeping "import '@/b'"))
    else if q = mixedPlace "f.ts" then some (.file (Utf8.encodeKeeping "import '@/b'"))
    else t.find? q := by
  have hne : ∀ n, mixedPlace n ≠ [] := fun n => List.cons_ne_nil _ _
  rw [mixedAfter, find?_set (hne _), find?_set (hne _)]

/-- Respelling the project leaves its backup alone. -/
theorem kept_mixed {t : Tree} {record : BackupRecord} (hid : record.id = sampleId)
    (hT : sampleBackups.Fresh mixedMade record.id (sampleStore ++ [record.id]))
    (hm : sampleBackups.Made mixedMade t (sampleStore ++ [record.id]) [("/p/src/a/f.ts" : Text)]
      record) :
    sampleBackups.Kept (mixedAfter t) sampleStore record ∧ t.SameWays (mixedAfter t) ∧
      ∀ r ∈ (sampleBackups.records (mixedAfter t)).1, r.id = record.id → r = record := by
  have hstore : ∀ ns, (mixedAfter t).find? (sampleStore ++ ns) = t.find? (sampleStore ++ ns) := by
    intro ns
    have hne : ∀ n, sampleStore ++ ns ≠ mixedPlace n := fun n h =>
      absurd (List.cons.inj (List.cons.inj h).2).1 (by decide)
    rw [find?_mixedAfter, if_neg (hne _), if_neg (hne _)]
  have hreads := reads_mixed (n := "f.ts") (by decide) hT hm
  have hreads' := reads_mixed (n := "g.mts") (by decide) hT hm
  obtain ⟨hwf, hways, hset⟩ := Tree.set_file hm.wellFormed hreads.find
    (Utf8.encodeKeeping "import '@/b'")
  obtain ⟨hwf', hways', -⟩ := Tree.set_file hwf (p := mixedPlace "g.mts")
    (by rw [hset, if_neg (by decide), hreads'.find]) (Utf8.encodeKeeping "import '@/b'")
  obtain ⟨B, hB, hk⟩ := hm.kept hT
  obtain rfl : sampleStore = B := (List.append_inj' hB rfl).1
  have hboth : t.SameWays (mixedAfter t) := fun q => (hways' q).trans (hways q)
  have hkept : sampleBackups.Kept (mixedAfter t) sampleStore record :=
    hk.of_sameWays hwf' hboth fun ns => by rw [List.append_assoc, hstore]
  refine ⟨hkept, hboth, hkept.eq_of_mem_records isNormal_sample fun n hn => ?_⟩
  rw [hstore, hm.beside rfl] at hn
  exact (eq_of_only_name (by decide) hn).trans hid.symm

theorem entries_mixed : ∀ x ∈ mixed.tree.entries, x.2 = .directory ∨
    x.2 = .file (Utf8.encodeKeeping "import '../b'") := by
  decide

/-- A tree without links has none that could get an end. -/
theorem noNewEnds_of_no_link {t u : Tree} (h : ∀ p target, (p, .link target) ∉ t.entries) :
    NoNewEnds t u := by
  intro path _ hlink
  rw [isLink] at hlink
  split at hlink
  case h_2 => cases hlink
  rename_i p _
  split at hlink
  case h_2 => cases hlink
  rename_i target hf
  cases p with
  | nil => cases hf
  | cons n p => exact absurd (lookup_eq_some hf) (h _ _)

/-- The source of the mixed project that is backed up is respelled, and restored. -/
theorem respelling_undone_mixed : ∃ report s₁ id,
    (project mixedSettings { ruleSet := "computed", backup := true }).perform mixed =
      (.ok report, s₁) ∧ report.backup = some id ∧
    (∀ t₁, mixed.tree.makeDirectories mixed.cwd (child sampleBackups.directory id) false = .ok t₁ →
      NoNewEnds mixed.tree t₁) ∧
    (∀ r ∈ (sampleBackups.records s₁.tree).1, ∀ r' ∈ (sampleBackups.records s₁.tree).1,
      r.id = id → r'.id = id → r = r') ∧
    s₁.tree.find? (mixedPlace "f.ts") = some (.file (Utf8.encodeKeeping "import '@/b'")) ∧
    ∃ restored s₂, (sampleBackups.restore (some id) false).perform s₁ = (.ok restored, s₂) ∧
      ∃ file ∈ report.files, file.written = true ∧ ∃ bytes,
        mixed.tree.read mixed.cwd file.file = .ok bytes ∧
        s₂.tree.read mixed.cwd file.file = .ok bytes := by
  obtain ⟨report, s₁, s', record, f, g, hrun, hbackup, hfiles, ⟨hf, hwritten⟩, -, htree, hid,
    hnames, hT, hm⟩ := perform_mixed
  obtain ⟨hkept, -, honly⟩ := kept_mixed hid hT hm
  rw [← htree] at honly
  have hends : ∀ t₁, mixed.tree.makeDirectories mixed.cwd
      (child sampleBackups.directory record.id) false = .ok t₁ → NoNewEnds mixed.tree t₁ := by
    intro t₁ _
    refine noNewEnds_of_no_link fun p target hp => ?_
    rcases entries_mixed _ hp with h | h <;> cases h
  have hunique : ∀ r ∈ (sampleBackups.records s₁.tree).1,
      ∀ r' ∈ (sampleBackups.records s₁.tree).1, r.id = record.id → r'.id = record.id → r = r' :=
    fun r hr r' hr' hid hid' => (honly r hr hid).trans (honly r' hr' hid').symm
  obtain ⟨restored, s₂, hrestore, -, hundone⟩ :=
    respelling_undone (by decide) (by decide) hrun hbackup hends hunique
  have hnot : recordName ∉ restored.files := by
    obtain ⟨u, notices, hrestore', -⟩ := (htree ▸ hkept).perform_restore isNormal_sample honly
    obtain ⟨hok, -⟩ := Prod.mk.inj (hrestore'.symm.trans hrestore)
    rw [← Except.ok.inj hok]
    dsimp only
    rw [hnames]
    decide
  have hmem : f ∈ report.files := by simp [hfiles]
  refine ⟨report, s₁, record.id, hrun, hbackup, hends, hunique, ?_, restored, s₂, hrestore, f, hmem,
    hwritten, hundone f hmem hwritten ?_ ?_ fun h => absurd h hnot⟩
  · rw [htree, find?_mixedAfter, if_neg (by decide), if_pos rfl]
  · rw [hf]
    decide
  · rw [hf]
    decide

/-- A source whose suffix is not backed up stays as it was respelled. -/
theorem not_respelling_undone : ¬ ∀ (settings : Settings) (s s₁ : Session)
    (report : RespellReport) (id : Text), isAbsolute s.cwd = true → s.tree.WellFormed →
    (project settings { backup := true }).perform s = (.ok report, s₁) → report.backup = some id →
    ∃ restored s₂,
      ((ofSettings settings s.cwd).restore (some id) false).perform s₁ = (.ok restored, s₂) ∧
      ∀ file ∈ report.files, file.written = true → ∃ bytes,
        s.tree.read s.cwd file.file = .ok bytes ∧ s₂.tree.read s.cwd file.file = .ok bytes := by
  intro hall
  obtain ⟨report, s₁, s', record, f, g, hrun, hbackup, hfiles, -, ⟨hg, hwritten⟩, htree, hid,
    hnames, hT, hm⟩ := perform_mixed
  obtain ⟨hkept, hways, honly⟩ := kept_mixed hid hT hm
  rw [← htree] at hkept hways honly
  obtain ⟨u, notices, hrestore, -, hways', hplaces⟩ := hkept.perform_restore isNormal_sample honly
  obtain ⟨restored, s₂, hrestore', hundone⟩ := hall mixedSettings mixed s₁ report record.id
    (by decide) (by decide) hrun hbackup
  obtain ⟨-, rfl⟩ := Prod.mk.inj (hrestore.symm.trans hrestore')
  obtain ⟨bytes, hbefore, hafter⟩ := hundone g (by simp [hfiles]) hwritten
  have hlocate : ∀ n ∈ mixedNames, s₁.tree.locate true mixed.cwd (mixedPath n) =
      .ok (mixedPlace n) := fun n hn => hways.locate_iff.mpr (reads_mixed hn hT hm).locate
  obtain rfl : Utf8.encodeKeeping "import '../b'" = bytes := by
    obtain ⟨p, -, hp⟩ := read_eq_ok.mp hbefore
    cases p with
    | nil => cases hp
    | cons n p =>
      rcases entries_mixed _ (lookup_eq_some hp) with h | h
      · cases h
      · exact (Entry.file.inj h).symm
  obtain ⟨p, hp, hold⟩ := read_eq_ok.mp hafter
  rw [hg] at hp
  have hp' := hways'.locate_iff.mp hp
  rw [hlocate "g.mts" (by decide), Except.ok.injEq] at hp'
  subst hp'
  rcases hplaces (mixedPlace "g.mts") with ⟨hsame, -⟩ | ⟨ns, bytes, hmem, hf, -⟩
  · rw [hold, htree, find?_mixedAfter, if_pos rfl] at hsame
    exact absurd hsame (by decide)
  · -- the backup names the other source only
    rw [hnames, List.mem_singleton] at hmem
    have hchild : child sampleBackups.project (Text.join [slash] ns) = mixedPath "f.ts" := by
      rw [hmem]
      decide
    have hother := hlocate "f.ts" (by decide)
    rw [← hchild, child_project isNormal_sample hf.isName,
      locate_normal (isNormal_below isNormal_sample hf.isName),
      names_below isNormal_sample hf.isName, hf.walk] at hother
    exact absurd hother (by decide)

end Respell
end ModuleGraph
