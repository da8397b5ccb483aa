import ModuleGraph.Proofs.Backup.Copy
import ModuleGraph.Proofs.Backup.Record
import ModuleGraph.Proofs.Moment
import ModuleGraph.Proofs.Session
import ModuleGraph.Proofs.Settings

/-!
Making a backup.

* `perform_create`: the three steps of it, and how each can fail;
* `listed_of_mem_listing`: what is listed are files below the project;
* `Ends`, `ends_create`: how it can end, and with which tree;
* `create_eq_ok`: a new directory with a copy of every listed file, and the record;
* `create_succeeds`: what a backup can fail for;
* `create_eq_error`: what a failure leaves behind, which is no record.
-/

namespace ModuleGraph
namespace Backups

open ModuleGraph.Path ModuleGraph.Tree

variable {b : Backups} {settings : Settings} {s s' : Session} {paths : List Text} {fault : Fault}
  {record : BackupRecord} {description path id root : Text} {t t₁ u : Tree} {B T q : Place}
  {scan : Scanned}

/-- The files that are listed, from what a scan finds. -/
def listing (b : Backups) (t : Tree) (scanned : Scanned) : List Text :=
  (scanned.paths.filter fun path => (b.relative? path).isSome) ++
    (projectFiles.map (Path.child b.project)).filter (t.isFile b.cwd)

/-- What is scanned for a backup. -/
def scanned (b : Backups) (settings : Settings) (t : Tree) (root : Text) : Except Fault Scanned :=
  if t.isDirectory b.cwd root then t.scan b.cwd root ⟨settings.exclude, suffixes⟩
  else .ok ⟨[], []⟩

/-- The files to back up, or the fault of the settings. -/
theorem perform_filesToBackUp (b : Backups) (settings : Settings) (s : Session) :
    ∃ notices, (b.filesToBackUp settings).perform s =
    match (settings.sourceRoot b.cwd).bind (b.scanned settings s.tree) with
    | .ok scan => (.ok (b.listing s.tree scan), { s with notices })
    | .error e => (.error e, s) := by
  simp only [filesToBackUp, Run.perform_bind, Run.perform_get, Run.perform_of]
  cases settings.sourceRoot b.cwd with
  | error e => exact ⟨[], rfl⟩
  | ok root =>
    simp only [Except.bind, scanned]
    by_cases hdir : s.tree.isDirectory b.cwd root = true
    · simp only [hdir, if_true]
      cases s.tree.scan b.cwd root ⟨settings.exclude, suffixes⟩ with
      | error e => exact ⟨[], rfl⟩
      | ok scan =>
        simp only [List.partition_eq_filter_filter]
        exact ⟨_, rfl⟩
    · simp only [hdir, List.partition_eq_filter_filter]
      exact ⟨_, rfl⟩

theorem perform_commitOf (b : Backups) (s : Session) : ∃ commit notices,
    b.commitOf.perform s = (.ok commit, { s with notices }) ∧ Json.Plain commit := by
  obtain ⟨tree, cwd, home, clock, commit, noticed⟩ := s
  simp only [commitOf, Run.perform_bind, Run.perform_get]
  cases commit with
  | none => exact ⟨_, _, rfl, .null⟩
  | some answer =>
    by_cases hempty : answer.trim.isEmpty = true
    · exact ⟨.null, noticed, by simp only [hempty, if_true]; rfl, .null⟩
    · exact ⟨.text answer.trim, noticed, by simp only [hempty]; rfl, .text _⟩

/-- A new backup: its directory, the copies, and the record. -/
theorem perform_create (b : Backups) (settings : Settings) (description : Text) (s : Session) :
    ∃ commit notices, Json.Plain commit ∧ (b.create settings description).perform s =
      let now := s.clock.tick.1
      let id := head ++ now.stamp
      let target := child b.directory id
      let s := { s with clock := s.clock.tick.2 }
      match s.tree.makeDirectories b.cwd target false with
      | .error e => (.error (.backupNotCreated target e), s)
      | .ok t₁ =>
        match (settings.sourceRoot b.cwd).bind (b.scanned settings t₁) with
        | .error e => (.error e, { s with tree := t₁ })
        | .ok scan =>
          match b.copyAll target t₁ (b.listing t₁ scan) with
          | (u, files, _) =>
            let record : BackupRecord := ⟨id, now.iso, version, description, files, commit⟩
            match u.write b.cwd (child target recordName) (Utf8.encode record.write) with
            | .error e => (.error (.backupNotDescribed target e), { s with tree := u, notices })
            | .ok v => (.ok record, { s with tree := v, notices }) := by
  simp only [create, Run.perform_bind, Run.perform_get, Run.perform_now]
  cases s.tree.makeDirectories b.cwd (child b.directory (head ++ s.clock.tick.1.stamp)) false with
  | error e => exact ⟨.null, [], .null, rfl⟩
  | ok t₁ =>
    dsimp only
    obtain ⟨noticed, hfiles⟩ := perform_filesToBackUp b settings
      { s with clock := s.clock.tick.2, tree := t₁ }
    simp only [Run.perform_bind, Run.perform_setTree, hfiles]
    cases (settings.sourceRoot b.cwd).bind (b.scanned settings t₁) with
    | error e => exact ⟨.null, [], .null, rfl⟩
    | ok scan =>
      simp only [Run.perform_get, Run.perform_note]
      generalize b.copyAll (child b.directory (head ++ s.clock.tick.1.stamp)) t₁
        (b.listing t₁ scan) = done
      obtain ⟨u, files, copied⟩ := done
      obtain ⟨commit, noticed', hcommit, hplain⟩ := perform_commitOf b
        { s with clock := s.clock.tick.2, tree := u, notices := noticed ++ copied }
      simp only [hcommit]
      refine ⟨commit, ?_⟩
      cases u.write b.cwd (child (child b.directory (head ++ s.clock.tick.1.stamp)) recordName)
          (Utf8.encode (BackupRecord.mk (head ++ s.clock.tick.1.stamp) s.clock.tick.1.iso version
            description files commit).write) with
      | error e => exact ⟨noticed', hplain, rfl⟩
      | ok v => exact ⟨_, hplain, rfl⟩

/-- The name of a backup is made of the moment that the clock shows. -/
theorem isId_stamp (m : Moment) : IsId (head ++ m.stamp) where
  head := Text.startsWith_iff.mpr ⟨_, rfl⟩
  no_slash := by
    intro h
    rcases List.mem_append.mp h with h | h
    · exact absurd h (by decide)
    · exact m.slash_not_mem_stamp h

section

variable (hb : IsNormal b.project)
include hb

/-- The directory of a new backup is made where nothing was. -/
theorem fresh_of_makeDirectories (ht : t.WellFormed) (hid : IsId id)
    (h : t.makeDirectories b.cwd (child b.directory id) false = .ok t₁) :
    ∃ T, b.Fresh t₁ id T ∧ Grown t t₁ ∧ t.find? T = none := by
  rw [child_directory hb hid] at h
  have hpair := isName_pair hid
  have hnormal := isNormal_below hb hpair
  obtain ⟨T, hl, hnone, hdir, hempty⟩ := makeDirectories_fresh ht hnormal h
  have hgrown := grown_makeDirectories ht h
  have hwalk := hl true
  rw [locate_normal hnormal, names_below hb hpair] at hwalk
  refine ⟨T, ⟨hgrown.wellFormed, hid, hwalk, ?_, hdir, hempty⟩, hgrown, hnone⟩
  have hsplit : names b.project ++ [directoryName, id] =
      (names b.project ++ [directoryName]) ++ [id] := by simp
  rw [hsplit] at hwalk
  obtain ⟨B, hB, hBdir⟩ := walk_split hgrown.wellFormed rfl (by simp) hwalk
  obtain ⟨k, -, happend⟩ := walk_append hB hBdir
  -- the last name of the path is no link, so the path ends where it leads
  have hend := hl false
  rw [locate_normal hnormal, names_below hb hpair, hsplit, happend _ _ (by simp),
    walk_singleton hid.isName, Except.ok.injEq] at hend
  exact ⟨B, hend.symm, hB⟩

omit hb in
/-- The project of a backup is a directory. -/
theorem Fresh.project (hT : b.Fresh t₁ id T) : b.Finds t₁ [] .directory :=
  Finds.above hT.wellFormed ⟨T, hT.walk, hT.directory⟩ (List.nil_prefix) (by simp)

/-- What is listed are files below the project. -/
theorem listed_of_mem_listing (hT : b.Fresh t₁ id T) (hroot : IsNormal root)
    (hscan : b.scanned settings t₁ root = .ok scan) (hpath : path ∈ b.listing t₁ scan) :
    ∃ ns, b.Listed t₁ path ns := by
  rw [listing, List.mem_append, List.mem_filter, List.mem_filter] at hpath
  rcases hpath with ⟨hpath, hrelative⟩ | ⟨hpath, hfile⟩
  · obtain ⟨hnormal, hfile⟩ : IsNormal path ∧ t₁.isFile b.cwd path = true := by
      rw [scanned] at hscan
      split at hscan
      · obtain ⟨hnormal, hfile, -⟩ := mem_scan hT.wellFormed hroot hscan hpath
        exact ⟨hnormal, hfile⟩
      · cases hscan
        cases hpath
    obtain ⟨name, hname⟩ := Option.isSome_iff_exists.mp hrelative
    rcases exists_of_relative? hb hnormal hname with hnames | ⟨ns, hne, hnames, -⟩
    · obtain ⟨p, bytes, hl, hf⟩ := isFile_iff.mp hfile
      obtain ⟨q, hq, hdir⟩ := hT.project
      rw [locate_normal hnormal, hnames] at hl
      rw [List.append_nil, hl, Except.ok.injEq] at hq
      rw [← hq, hf] at hdir
      cases hdir
    · exact ⟨ns, hnormal, hne, hnames, hfile⟩
  · obtain ⟨n, hn, rfl⟩ := List.mem_map.mp hpath
    have hname := isName_projectFiles n hn
    have hsingle : ∀ m ∈ [n], IsName m := fun m hm => List.mem_singleton.mp hm ▸ hname
    have hchild : child b.project n = b.below [n] := by
      simpa [Text.join] using child_project hb hsingle
    rw [hchild] at hfile ⊢
    exact ⟨[n], isNormal_below hb hsingle, by simp, names_below hb hsingle, hfile⟩

end

/-- What a new backup holds: its record, and a copy of every file that the record names, and no
other file. -/
structure Made (b : Backups) (t₁ u : Tree) (T : Place) (paths : List Text)
    (record : BackupRecord) : Prop where
  wellFormed : u.WellFormed
  outside : ∀ q, (∀ ns, ns ≠ [] → q ≠ T ++ ns) → u.find? q = t₁.find? q
  no_link : ∀ ns target, ns ≠ [] → u.find? (T ++ ns) ≠ some (.link target)
  plain : Json.Plain record.commit
  record_eq : u.find? (T ++ [recordName]) = some (.file (Utf8.encode record.write))
  copies : List.Forall₂ (fun path name => ∃ ns bytes, b.Listed t₁ path ns ∧
    name = Text.join [slash] ns ∧ b.Finds t₁ ns (.file bytes) ∧
    (ns ≠ [recordName] → u.find? (T ++ ns) = some (.file bytes))) paths record.files
  only : ∀ ns bytes, u.find? (T ++ ns) = some (.file bytes) →
    ns = [recordName] ∨ Text.join [slash] ns ∈ record.files

section

variable (hT : b.Fresh t₁ record.id T) (hm : b.Made t₁ u T paths record)
include hT hm

theorem Made.find? (hq : t₁.find? q ≠ none) : u.find? q = t₁.find? q :=
  hm.outside q (hT.not_below hq)

theorem Made.leads : t₁.Leads u := by
  intro q e hq
  have hf := (way_eq_some.mp hq).1
  rwa [way_of_find? (hm.find? hT (by rw [hf]; exact Option.some_ne_none _))]

theorem Made.walk {p : Place} {steps : List Text} (h : t₁.walk true maxLinks [] steps = .ok p)
    (hp : t₁.find? p ≠ none) : u.walk true maxLinks [] steps = .ok p :=
  walk_leads (hm.leads hT) h fun hway => by rw [way_of_find? (hm.find? hT hp), hway]

omit hT in
/-- Beside the directory of the backup nothing is new. -/
theorem Made.beside (hB : T = B ++ [id]) (n : Text) : u.find? (B ++ [n]) = t₁.find? (B ++ [n]) :=
  hm.outside _ fun ns hne heq => by
    rw [hB] at heq
    have hlen := congrArg List.length heq
    simp only [List.length_append, List.length_singleton] at hlen
    exact hne (List.length_eq_zero_iff.mp (by omega))

end

theorem Copying.no_link (hT : b.Fresh t₁ id T) (hc : b.Copying t₁ u T) (ns : List Text)
    (target : Text) (hne : ns ≠ []) : u.find? (T ++ ns) ≠ some (.link target) := fun hf =>
  (hc.inside ns _ hne hf).ne_link hT.wellFormed target rfl

/-- The path of the record in the directory of a backup. -/
theorem locate_record (hb : IsNormal b.project) (hT : b.Fresh t₁ id T) (hc : b.Copying t₁ u T) :
    u.locate true b.cwd (child (child b.directory id) recordName) = .ok (T ++ [recordName]) := by
  have hchild := child_below_name hb (isName_pair hT.isId) isName_recordName
  rw [child_directory hb hT.isId, hchild, below_append]
  exact locate_down hc.wellFormed hb.isLead (isName_names hb (isName_pair hT.isId)) (hc.walk hT)
    (hc.directory hT) b.cwd (by simpa using isName_recordName) (by simp)
    (by simpa using hc.directory hT) (fun target => hc.no_link hT _ target (by simp)) true

/-- What the directory of a new backup holds before its record is written. -/
structure Copied (b : Backups) (t₁ u : Tree) (T : Place) (paths files : List Text) : Prop where
  copying : b.Copying t₁ u T
  copies : List.Forall₂ (fun path name => ∃ ns bytes, b.Listed t₁ path ns ∧
    name = Text.join [slash] ns ∧ b.Finds t₁ ns (.file bytes) ∧
    u.find? (T ++ ns) = some (.file bytes)) paths files
  only : ∀ ns bytes, u.find? (T ++ ns) = some (.file bytes) → Text.join [slash] ns ∈ files

theorem exists_copied (hb : IsNormal b.project) (hT : b.Fresh t₁ id T)
    (hl : ∀ path ∈ paths, ∃ ns, b.Listed t₁ path ns) :
    ∃ u files, b.copyAll (child b.directory id) t₁ paths = (u, files, []) ∧
      b.Copied t₁ u T paths files := by
  obtain ⟨u, files, hcopy, hc, -, honly, hfiles⟩ := copyAll_listed hb hT hT.copying hl
  rw [← child_directory hb hT.isId] at hcopy
  refine ⟨u, files, hcopy, hc, hfiles, fun ns bytes hf => ?_⟩
  rcases honly _ _ hf with hold | ⟨ms, heq, hms⟩
  · -- no file was there when the directory was new
    by_cases hne : ns = []
    · rw [hne, List.append_nil, hT.directory] at hold
      cases hold
    · rw [hT.empty ns hne] at hold
      cases hold
  · rwa [List.append_cancel_left heq]

/-- The record is written beside the copies. -/
theorem Copied.made (h : b.Copied t₁ u T paths record.files) (hT : b.Fresh t₁ id T)
    (hplain : Json.Plain record.commit) (hdir : u.find? (T ++ [recordName]) ≠ some .directory) :
    b.Made t₁ (u.set (T ++ [recordName]) (.file (Utf8.encode record.write))) T paths record := by
  have hc := h.copying
  have hset := fun e q => find?_set (t := u) (p := T ++ [recordName]) (by simp) e q
  refine ⟨hc.wellFormed.set (hc.directory hT) isName_recordName fun h => absurd h hdir,
    fun q hq => ?_, fun ns target hne => ?_, hplain, ?_, h.copies.imp ?_, fun ns bytes hf => ?_⟩
  · rw [hset, if_neg (hq _ (by simp)), hc.outside q hq]
  · rw [hset]
    split
    · simp
    · exact hc.no_link hT ns target hne
  · rw [hset, if_pos rfl]
  · rintro path name ⟨ns, bytes, hl, hname, hfinds, hf⟩
    refine ⟨ns, bytes, hl, hname, hfinds, fun hne => ?_⟩
    rw [hset, if_neg fun heq => hne (List.append_cancel_left heq), hf]
  · rw [hset] at hf
    split at hf
    · exact Or.inl (List.append_cancel_left ‹_›)
    · exact Or.inr (h.only ns bytes hf)

/-- The directory that is made for a backup. -/
structure Begun (b : Backups) (t t₁ : Tree) (id : Text) (T : Place) : Prop where
  made : t.makeDirectories b.cwd (child b.directory id) false = .ok t₁
  grown : Grown t t₁
  free : t.find? T = none
  fresh : b.Fresh t₁ id T

/-- How the making of a backup ends, and with which tree. -/
inductive Ends (b : Backups) (settings : Settings) (description : Text) (t : Tree) (now : Moment) :
    Except Fault BackupRecord → Tree → Prop
  | unmade {cause : FileError}
      (h : t.makeDirectories b.cwd (child b.directory (head ++ now.stamp)) false = .error cause) :
      Ends b settings description t now
        (.error (.backupNotCreated (child b.directory (head ++ now.stamp)) cause)) t
  | unlisted {t₁ : Tree} {T : Place} {fault : Fault} (hbegun : b.Begun t t₁ (head ++ now.stamp) T)
      (h : (settings.sourceRoot b.cwd).bind (b.scanned settings t₁) = .error fault) :
      Ends b settings description t now (.error fault) t₁
  | undescribed {t₁ u : Tree} {T : Place} {root : Text} {scan : Scanned} {files : List Text}
      (hbegun : b.Begun t t₁ (head ++ now.stamp) T) (hroot : settings.sourceRoot b.cwd = .ok root)
      (hscan : b.scanned settings t₁ root = .ok scan)
      (hcopied : b.Copied t₁ u T (b.listing t₁ scan) files)
      (hdir : u.find? (T ++ [recordName]) = some .directory) :
      Ends b settings description t now
        (.error (.backupNotDescribed (child b.directory (head ++ now.stamp)) .isDirectory)) u
  | made {t₁ v : Tree} {T : Place} {root : Text} {scan : Scanned} {record : BackupRecord}
      (hbegun : b.Begun t t₁ (head ++ now.stamp) T) (hroot : settings.sourceRoot b.cwd = .ok root)
      (hscan : b.scanned settings t₁ root = .ok scan) (hid : record.id = head ++ now.stamp)
      (htime : record.timestamp = now.iso)
      (hmade : b.Made t₁ v T (b.listing t₁ scan) record) :
      Ends b settings description t now (.ok record) v

section

variable (hb : IsNormal b.project) (hcwd : isAbsolute b.cwd = true) (ht : s.tree.WellFormed)
include hb hcwd ht

theorem ends_create (settings : Settings) (description : Text) :
    b.Ends settings description s.tree s.clock.tick.1
      ((b.create settings description).perform s).1
      ((b.create settings description).perform s).2.tree := by
  obtain ⟨commit, noticed, hplain, hcreate⟩ := perform_create b settings description s
  rw [hcreate]
  dsimp only
  cases hmake : s.tree.makeDirectories b.cwd
      (child b.directory (head ++ s.clock.tick.1.stamp)) false with
  | error e => exact .unmade hmake
  | ok t₁ =>
    obtain ⟨T, hT, hgrown, hnone⟩ := fresh_of_makeDirectories hb ht (isId_stamp _) hmake
    have hbegun : b.Begun s.tree t₁ (head ++ s.clock.tick.1.stamp) T :=
      ⟨hmake, hgrown, hnone, hT⟩
    dsimp only
    cases hbind : (settings.sourceRoot b.cwd).bind (b.scanned settings t₁) with
    | error e => exact .unlisted hbegun hbind
    | ok scan =>
      obtain ⟨root, hroot, hscan⟩ : ∃ root, settings.sourceRoot b.cwd = .ok root ∧
          b.scanned settings t₁ root = .ok scan := by
        cases hroot : settings.sourceRoot b.cwd with
        | error e =>
          rw [hroot] at hbind
          cases hbind
        | ok root =>
          rw [hroot] at hbind
          exact ⟨root, rfl, hbind⟩
      obtain ⟨u, files, hcopy, hcopied⟩ := exists_copied hb hT fun path hpath =>
        listed_of_mem_listing hb hT (Settings.isNormal_absolute hcwd hroot) hscan hpath
      have hlocate := locate_record hb hT hcopied.copying
      dsimp only
      rw [hcopy]
      dsimp only
      by_cases hdir : u.find? (T ++ [recordName]) = some .directory
      · rw [Tree.write, hlocate]
        dsimp only
        rw [hdir]
        exact .undescribed hbegun hroot hscan hcopied hdir
      · rw [write_eq_ok hlocate hdir]
        exact .made hbegun hroot hscan rfl rfl (hcopied.made hT hplain hdir)

/-- A backup that is made: its directory is new, and nothing else in the tree is changed. -/
theorem create_eq_ok (h : (b.create settings description).perform s = (.ok record, s')) :
    record.id = head ++ s.clock.tick.1.stamp ∧ record.timestamp = s.clock.tick.1.iso ∧
    ∃ t₁ T root scan, s.tree.makeDirectories b.cwd (child b.directory record.id) false = .ok t₁ ∧
      Grown s.tree t₁ ∧ s.tree.find? T = none ∧ b.Fresh t₁ record.id T ∧
      settings.sourceRoot b.cwd = .ok root ∧ b.scanned settings t₁ root = .ok scan ∧
      b.Made t₁ s'.tree T (b.listing t₁ scan) record := by
  have hends := ends_create hb hcwd ht settings description
  rw [h] at hends
  cases hends with
  | made hbegun hroot hscan hid htime hmade =>
    rw [← hid] at hbegun
    exact ⟨hid, htime, _, _, _, _, hbegun.made, hbegun.grown, hbegun.free, hbegun.fresh, hroot,
      hscan, hmade⟩

/-- A backup is made if its directory is, and unless the project has a directory that is named like
the record. -/
theorem create_succeeds (settings : Settings) (description : Text) {t₁ : Tree} {root : Text}
    {scan : Scanned}
    (hmake : s.tree.makeDirectories b.cwd
      (child b.directory (head ++ s.clock.tick.1.stamp)) false = .ok t₁)
    (hroot : settings.sourceRoot b.cwd = .ok root) (hscan : b.scanned settings t₁ root = .ok scan)
    (hname : ¬ b.Finds t₁ [recordName] .directory) :
    ∃ record s' T, (b.create settings description).perform s = (.ok record, s') ∧
      record.id = head ++ s.clock.tick.1.stamp ∧ b.Fresh t₁ record.id T ∧
      b.Made t₁ s'.tree T (b.listing t₁ scan) record := by
  have hends := ends_create hb hcwd ht settings description
  rcases hcreate : (b.create settings description).perform s with ⟨outcome, s'⟩
  rw [hcreate] at hends
  generalize hv : s'.tree = v at hends
  cases hends with
  | unmade h =>
    rw [hmake] at h
    cases h
  | unlisted hbegun h =>
    obtain rfl := Except.ok.inj (hmake.symm.trans hbegun.made)
    rw [hroot] at h
    cases hscan.symm.trans h
  | undescribed hbegun _ _ hcopied hdir =>
    obtain rfl := Except.ok.inj (hmake.symm.trans hbegun.made)
    exact absurd (hcopied.copying.inside _ _ (by simp) hdir) hname
  | made hbegun hroot' hscan' hid _ hmade =>
    obtain rfl := Except.ok.inj (hmake.symm.trans hbegun.made)
    obtain rfl := Except.ok.inj (hroot.symm.trans hroot')
    obtain rfl := Except.ok.inj (hscan.symm.trans hscan')
    exact ⟨_, _, _, rfl, hid, hid ▸ hbegun.fresh, hv ▸ hmade⟩

/-- A backup with one file. -/
theorem create_one (settings : Settings) (description : Text) {t₁ : Tree} {root : Text}
    {scan : Scanned}
    (hmake : s.tree.makeDirectories b.cwd
      (child b.directory (head ++ s.clock.tick.1.stamp)) false = .ok t₁)
    (hroot : settings.sourceRoot b.cwd = .ok root) (hscan : b.scanned settings t₁ root = .ok scan)
    (hname : ¬ b.Finds t₁ [recordName] .directory) {ns : List Text}
    (hlist : b.listing t₁ scan = [path]) (hnames : names path = names b.project ++ ns)
    (hid : head ++ s.clock.tick.1.stamp = id)
    (hwalk : t₁.walk true maxLinks [] (names b.project ++ [directoryName, id]) = .ok (B ++ [id])) :
    ∃ record s', (b.create settings description).perform s = (.ok record, s') ∧ record.id = id ∧
      record.files = [Text.join [slash] ns] ∧ b.Fresh t₁ record.id (B ++ [record.id]) ∧
      b.Made t₁ s'.tree (B ++ [record.id]) [path] record := by
  obtain ⟨record, s', T', hcreate, hid', hT, hm⟩ :=
    create_succeeds hb hcwd ht settings description hmake hroot hscan hname
  obtain rfl : record.id = id := hid'.trans hid
  obtain rfl := Except.ok.inj (hwalk.symm.trans hT.walk)
  rw [hlist] at hm
  refine ⟨record, s', hcreate, rfl, ?_, hT, hm⟩
  obtain ⟨name, files, ⟨ms, bytes, hl, hname, -⟩, hnil, hfiles⟩ :=
    List.forall₂_cons_left_iff.mp hm.copies
  rw [hfiles, List.forall₂_nil_left_iff.mp hnil, hname,
    List.append_cancel_left (hl.names_eq.symm.trans hnames)]

/-- What a failure leaves behind: nothing, or a directory without a record. -/
theorem create_eq_error (h : (b.create settings description).perform s = (.error fault, s')) :
    (∃ cause, fault = .backupNotCreated (child b.directory (head ++ s.clock.tick.1.stamp)) cause ∧
      s'.tree = s.tree) ∨
    ∃ t₁ T, s.tree.makeDirectories b.cwd
        (child b.directory (head ++ s.clock.tick.1.stamp)) false = .ok t₁ ∧
      Grown s.tree t₁ ∧ b.Fresh t₁ (head ++ s.clock.tick.1.stamp) T ∧ b.Copying t₁ s'.tree T ∧
      ∀ bytes, s'.tree.find? (T ++ [recordName]) ≠ some (.file bytes) := by
  have hends := ends_create hb hcwd ht settings description
  rw [h] at hends
  generalize s'.tree = v at hends ⊢
  cases hends with
  | unmade => exact Or.inl ⟨_, rfl, rfl⟩
  | unlisted hbegun =>
    have hT := hbegun.fresh
    refine Or.inr ⟨_, _, hbegun.made, hbegun.grown, hT, hT.copying, fun bytes => ?_⟩
    rw [hT.empty _ (by simp)]
    simp
  | undescribed hbegun _ _ hcopied hdir =>
    refine Or.inr ⟨_, _, hbegun.made, hbegun.grown, hbegun.fresh, hcopied.copying, fun bytes => ?_⟩
    rw [hdir]
    simp

end

/-- The directory of a backup is made in the one of all backups. -/
theorem makeDirectories_backup {id : Text} (hb : IsNormal b.project) (hid : IsId id) (t : Tree) :
    t.makeDirectories b.cwd (child b.directory id) false =
      match t.makeOne b.cwd (b.below [directoryName, id]) false with
      | .error .notFound =>
        match t.makeDirectories b.cwd (b.below [directoryName]) true with
        | .error e => .error e
        | .ok t => t.makeOne b.cwd (b.below [directoryName, id]) false
      | outcome => outcome := by
  have hnames : ∀ n ∈ (names b.project ++ [directoryName]) ++ [id], IsName n := by
    rw [List.append_assoc]
    exact isName_names hb (isName_pair hid)
  have hconcat := makeDirectories_concat t hb.isLead b.cwd false hnames
  rw [List.append_assoc, List.singleton_append, ← below, ← below] at hconcat
  rwa [child_directory hb hid]

/-- The first backup of a project makes the directory of all backups, and in it its own. -/
theorem makeDirectories_first {t : Tree} {id : Text} (hb : IsNormal b.project) (ht : t.WellFormed)
    (hid : IsId id) (hdir : ∀ ms, ms <+: names b.project → ms ≠ [] → t.find? ms = some .directory)
    (hnone : t.find? (names b.project ++ [directoryName]) = none) :
    t.makeDirectories b.cwd (child b.directory id) false =
      .ok ((t.set (names b.project ++ [directoryName]) .directory).set
        (names b.project ++ [directoryName, id]) .directory) := by
  have hname : ∀ n ∈ [directoryName], IsName n := by simpa using isName_directoryName
  have hpair := isName_pair hid
  let u := t.set (names b.project ++ [directoryName]) .directory
  have hset : ∀ q, u.find? q = if q = names b.project ++ [directoryName] then some .directory
      else t.find? q := find?_set (by simp) .directory
  have hfree : u.find? (names b.project ++ [directoryName, id]) = none := by
    rw [hset, if_neg (by simp), List.append_cons]
    exact ht.find?_append_of_none hnone [id]
  -- the directory of all backups is missing, so nothing can be made in it before it is made
  have hmissing : t.locate false b.cwd (b.below [directoryName, id]) = .error .notFound := by
    rw [locate_normal (isNormal_below hb hpair), names_below hb hpair]
    exact walk_missing hb.isName isName_directoryName hdir hnone (by simp) false maxLinks
  have hlocate : t.locate false b.cwd (b.below [directoryName]) =
      .ok (names b.project ++ [directoryName]) := by
    rw [locate_normal (isNormal_below hb hname), names_below hb hname]
    refine walk_down (isName_names hb hname) (fun ms hpre hne hother => ?_) (by simp [hnone])
      false maxLinks
    exact hdir ms ((List.prefix_concat_iff.mp hpre).resolve_left hother) hne
  have habove : t.makeDirectories b.cwd (b.below [directoryName]) true = .ok u := by
    rw [below, makeDirectories_concat t hb.isLead _ _ (isName_names hb hname), ← below,
      makeOne_new hlocate hnone]
  have hmade : u.locate false b.cwd (b.below [directoryName, id]) =
      .ok (names b.project ++ [directoryName, id]) := by
    rw [locate_normal (isNormal_below hb hpair), names_below hb hpair]
    refine walk_down (isName_names hb hpair) (fun ms hpre hne hother => ?_)
      (fun target => by simp [hfree]) false maxLinks
    rw [List.nil_append, hset]
    split
    · rfl
    · rename_i hstore
      rw [List.append_cons] at hpre hother
      exact hdir ms ((List.prefix_concat_iff.mp
        ((List.prefix_concat_iff.mp hpre).resolve_left hother)).resolve_left hstore) hne
  rw [makeDirectories_backup hb hid, makeOne_nowhere hmissing, habove]
  exact makeOne_new hmade hfree false

/-- A project with one source. -/
def sample : Session where
  tree := ⟨[(["p"], .directory), (["p", "src"], .directory),
    (["p", "src", "a.ts"], .file (Utf8.encode "1"))]⟩
  cwd := "/p"

def sampleBackups : Backups := ofSettings {} sample.cwd

/-- The id that a backup of the project gets. -/
def sampleId : Text := "backup-2024-01-02T03-04-05-678901Z"

/-- The place of its source. -/
def samplePlace : Place := ["p", "src", "a.ts"]

/-- The place of the directory of its backups. -/
def sampleStore : Place := ["p", ".backup"]

/-- The project with an empty directory for a backup. -/
def sampleMade : Tree := ⟨[(["p"], .directory), (["p", "src"], .directory),
  (["p", "src", "a.ts"], .file (Utf8.encode "1")), (["p", ".backup"], .directory),
  (["p", ".backup", sampleId], .directory)]⟩

theorem sampleId_eq : head ++ sample.clock.tick.1.stamp = sampleId := by decide

theorem isNormal_sample : IsNormal sampleBackups.project :=
  have hcwd : isAbsolute sample.cwd = true := by decide
  Path.isNormal_absolute hcwd ['.']

/-- The first backup of a project in that place. -/
theorem makeDirectories_first_sample {t : Tree} (ht : t.WellFormed)
    (hdir : t.find? ["p"] = some .directory) (hnone : t.find? sampleStore = none) :
    t.makeDirectories sampleBackups.cwd (child sampleBackups.directory sampleId) false =
      .ok ((t.set sampleStore .directory).set (sampleStore ++ [sampleId]) .directory) := by
  have hnames : names sampleBackups.project = [] ++ [("p" : Text)] := by decide
  have hid : IsId sampleId := ⟨by decide, by decide⟩
  have hmake := makeDirectories_first isNormal_sample ht hid (fun ms hpre hne => ?_)
    (by rwa [hnames])
  · rwa [hnames] at hmake
  · rw [hnames] at hpre
    obtain rfl := (List.prefix_concat_iff.mp hpre).resolve_right
      fun hnil => hne (List.prefix_nil.mp hnil)
    exact hdir

theorem makeDirectories_sample : sample.tree.makeDirectories sample.cwd
    (child sampleBackups.directory (head ++ sample.clock.tick.1.stamp)) false = .ok sampleMade := by
  rw [sampleId_eq]
  exact makeDirectories_first_sample (by decide) (by decide) (by decide)

theorem scanned_sample :
    sampleBackups.scanned {} sampleMade "/p/src" = .ok ⟨["/p/src/a.ts"], []⟩ := by
  cbv

/-- One file that a scan finds, without a file of the project's own directory beside it. -/
theorem listing_single {t : Tree} {path : Text} (hinside : (b.relative? path).isSome = true)
    (hnone : (projectFiles.map (child b.project)).filter (t.isFile b.cwd) = []) :
    b.listing t ⟨[path], []⟩ = [path] := by
  have hkept : [path].filter (fun path => (b.relative? path).isSome) = [path] :=
    List.filter_cons_of_pos hinside
  rw [listing, hnone, hkept, List.append_nil]

theorem listing_sample :
    sampleBackups.listing sampleMade ⟨["/p/src/a.ts"], []⟩ = ["/p/src/a.ts"] :=
  listing_single (by decide) (by cbv)

theorem not_finds_sample : ¬ sampleBackups.Finds sampleMade [recordName] .directory := by
  have hl : sampleMade.walk true maxLinks [] (names sampleBackups.project ++ [recordName]) =
      .ok ["p", recordName] := by cbv
  rintro ⟨p, hp, hf⟩
  rw [hl, Except.ok.injEq] at hp
  subst hp
  cases hf

theorem names_sample : names "/p/src/a.ts" = names sampleBackups.project ++
    [("src" : Text), "a.ts"] := by
  decide

/-- A backup of the project has a copy of the source. -/
theorem create_sample (description : Text) : ∃ record s',
    (sampleBackups.create {} description).perform sample = (.ok record, s') ∧
      record.id = sampleId ∧ record.files = [("src/a.ts" : Text)] ∧
      sampleBackups.Fresh sampleMade record.id (sampleStore ++ [record.id]) ∧
      sampleBackups.Made sampleMade s'.tree (sampleStore ++ [record.id]) [("/p/src/a.ts" : Text)]
        record := by
  have hroot : ({} : Settings).sourceRoot sampleBackups.cwd = .ok "/p/src" := by decide
  have hwalk : sampleMade.walk true maxLinks []
      (names sampleBackups.project ++ [directoryName, sampleId]) =
        .ok (sampleStore ++ [sampleId]) := by cbv
  exact create_one isNormal_sample (by decide) (by decide) {} description
    makeDirectories_sample hroot scanned_sample not_finds_sample listing_sample names_sample
    sampleId_eq hwalk

end Backups
end ModuleGraph
