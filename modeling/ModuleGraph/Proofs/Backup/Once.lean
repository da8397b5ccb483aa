import ModuleGraph.Proofs.Backup.Edited
import ModuleGraph.Proofs.Files.Coverage

/-!
A backup has every file once.

* `Overlaps`: a scan that also finds a file of the project's own directory; `Overlaps.above`: then
  the scanned directory is the project's or above it;
* `nodup_listing`, `nodup_files_iff`: the listed files, and their names in the record;
* `mem_filesBelow_iff`, `length_filesBelow`: the files in the directory of a backup;
* `backed_up_once`: nothing is listed twice but for an overlap; `not_backed_up_once`: a project that
  is its own source directory.
-/

namespace ModuleGraph

namespace Tree

variable {t : Tree} {T p : Place}

/-- The places of the files below a place. -/
def filesBelow (t : Tree) (T : Place) : List Place := (t.files.map (·.1)).filter T.isPrefixOf

theorem sublist_files (t : Tree) : (t.files.map (·.1)).Sublist (t.entries.map (·.1)) := by
  rw [files]
  induction t.entries with
  | nil => exact .slnil
  | cons x es ih =>
    obtain ⟨p, e⟩ := x
    cases e with
    | file bytes => exact ih.cons_cons p
    | directory => exact ih.cons p
    | link target => exact ih.cons p

theorem WellFormed.nodup_filesBelow (ht : t.WellFormed) (T : Place) : (t.filesBelow T).Nodup :=
  (ht.nodup.sublist t.sublist_files).filter _

theorem WellFormed.mem_filesBelow (ht : t.WellFormed) :
    p ∈ t.filesBelow T ↔ T <+: p ∧ ∃ bytes, t.find? p = some (.file bytes) := by
  have hfiles : ∀ bytes, (p, bytes) ∈ t.files ↔ (p, Entry.file bytes) ∈ t.entries := by
    intro bytes
    rw [files, List.mem_filterMap]
    constructor
    · rintro ⟨⟨q, e⟩, hmem, hq⟩
      cases e with
      | file other =>
        cases hq
        exact hmem
      | _ => cases hq
    · exact fun hmem => ⟨_, hmem, rfl⟩
  rw [filesBelow, List.mem_filter, List.isPrefixOf_iff_prefix, and_comm, List.mem_map]
  refine and_congr_right fun _ => ⟨?_, ?_⟩
  · rintro ⟨⟨q, bytes⟩, hmem, rfl⟩
    have hentry := (hfiles bytes).mp hmem
    exact ⟨bytes, (ht.find?_eq_some (ht.ne_nil _ hentry)).mpr hentry⟩
  · rintro ⟨bytes, hf⟩
    have hne : p ≠ [] := by
      rintro rfl
      cases hf
    exact ⟨(p, bytes), (hfiles bytes).mpr ((ht.find?_eq_some hne).mp hf), rfl⟩

end Tree

namespace Backups

open ModuleGraph.Path (IsName IsNormal isAbsolute child slash)
open ModuleGraph.Tree

variable {b : Backups} {settings : Settings} {t t₁ u : Tree} {scan : Scanned} {T : Place}
  {root path : Text} {paths : List Text} {record : BackupRecord} {n : Text} {ns : List Text}

/-- A scan for sources that also finds a file of the project's own directory which is backed up in
any case. -/
def Overlaps (b : Backups) (scan : Scanned) : Prop :=
  ∃ path ∈ scan.paths, ∃ n ∈ projectFiles, b.relative? path = some n

/-- What is scanned for a backup is a scan, or nothing. -/
theorem scanned_cases (h : b.scanned settings t root = .ok scan) :
    scan.paths = [] ∨ t.scan b.cwd root ⟨settings.exclude, suffixes⟩ = .ok scan := by
  rw [scanned] at h
  split at h
  · exact .inr h
  · cases h
    exact .inl rfl

/-- A file of the project's own directory, by its name. -/
theorem relative?_child (hb : IsNormal b.project) (hn : n ∈ projectFiles) :
    IsNormal (child b.project n) ∧ b.relative? (child b.project n) = some n ∧
      Path.names (child b.project n) = Path.names b.project ++ [n] := by
  have hsingle : ∀ m ∈ [n], IsName m := fun m hm =>
    List.mem_singleton.mp hm ▸ isName_projectFiles n hn
  have hchild : child b.project n = b.below [n] := by
    simpa [Text.join] using child_project hb hsingle
  have hnames := names_below hb hsingle
  rw [hchild, relative?_eq hb (isNormal_below hb hsingle) hsingle (by simp) hnames]
  exact ⟨isNormal_below hb hsingle, by simp [Text.join], hnames⟩

section

variable (hb : IsNormal b.project) (hcwd : isAbsolute b.cwd = true) (hroot : IsNormal root)
  (ht : t.WellFormed) (hscan : b.scanned settings t root = .ok scan)
include hb hcwd ht hscan

include hroot in
/-- Only a scan of the project's own directory, or of one above it, finds a file directly in it. -/
theorem prefix_of_relative? (hpath : path ∈ scan.paths) (hn : IsName n)
    (hrelative : b.relative? path = some n) : Path.names root <+: Path.names b.project := by
  rcases scanned_cases hscan with hnone | hscan
  · rw [hnone] at hpath
    cases hpath
  obtain ⟨ms, m, hbelow⟩ := names_of_mem_scan ht hcwd hscan hpath
  rw [hroot.absolute_eq] at hbelow
  have hnormal := (root_of_mem_scan ht hcwd hscan hpath).1
  rcases exists_of_relative? hb hnormal hrelative with hsame | ⟨ns, hne, hnames, rfl⟩
  · exact hsame ▸ hbelow ▸ List.prefix_append _ _
  · have hns : ∀ m ∈ ns, IsName m := fun m hm =>
      hnormal.isName m (hnames ▸ List.mem_append_right _ hm)
    have hone := Path.names_of_isName hn
    rw [Path.names_join_names hns] at hone
    rw [hbelow, ← List.append_assoc, hone] at hnames
    exact (List.append_inj' hnames rfl).1 ▸ List.prefix_append _ _

include hroot in
theorem Overlaps.above (h : b.Overlaps scan) : Path.names root <+: Path.names b.project := by
  obtain ⟨path, hpath, n, hn, hrelative⟩ := h
  exact prefix_of_relative? hb hcwd hroot ht hscan hpath (isName_projectFiles n hn) hrelative

/-- Without an overlap no path is listed twice. -/
theorem nodup_listing (h : ¬ b.Overlaps scan) : (b.listing t scan).Nodup := by
  have hscanned : scan.paths.Nodup := by
    rcases scanned_cases hscan with hnone | hscan
    · rw [hnone]
      exact List.nodup_nil
    · exact (nodup_names_scan ht hcwd hscan).of_map
  have hproject : (projectFiles.map (child b.project)).Nodup := by
    refine List.Nodup.map_on (fun n hn m hm heq => ?_) (by decide)
    have hsame := (relative?_child hb hn).2.1
    rw [heq, (relative?_child hb hm).2.1] at hsame
    exact (Option.some.inj hsame).symm
  refine List.nodup_append.mpr ⟨hscanned.filter _, hproject.filter _, fun p hp q hq heq => h ?_⟩
  obtain ⟨n, hn, rfl⟩ := List.mem_map.mp (List.mem_filter.mp hq).1
  exact ⟨p, (List.mem_filter.mp hp).1, n, hn, heq ▸ (relative?_child hb hn).2.1⟩

end

/-- Items that are told by those beside them come from a map. -/
theorem eq_map_of_forall₂ {α β : Type} {R : α → β → Prop} {f : α → β} {xs : List α} {ys : List β}
    (h : List.Forall₂ R xs ys) (hf : ∀ x y, R x y → y = f x) : ys = xs.map f := by
  induction h with
  | nil => rfl
  | cons hxy _ ih => rw [List.map_cons, ← hf _ _ hxy, ← ih]

/-- The name of a file that is copied, as it stands in the record. -/
def nameIn (b : Backups) (path : Text) : Text := (b.relative? path).getD []

theorem Listed.nameIn_eq (hb : IsNormal b.project) (hl : b.Listed t path ns) :
    b.relative? path = some (Text.join [slash] ns) ∧ b.nameIn path = Text.join [slash] ns := by
  rw [nameIn, relative?_eq hb hl.normal hl.isName hl.ne_nil hl.names_eq]
  exact ⟨rfl, rfl⟩

/-- The record names the copied files. -/
theorem Made.files_eq (hb : IsNormal b.project) (hm : b.Made t₁ u T paths record) :
    record.files = paths.map b.nameIn := by
  refine eq_map_of_forall₂ hm.copies ?_
  rintro path name ⟨ns, bytes, hl, rfl, -⟩
  exact (hl.nameIn_eq hb).2.symm

/-- Without an overlap a listed path is told by its name. -/
theorem eq_of_relative?_eq (hb : IsNormal b.project) (hcwd : isAbsolute b.cwd = true)
    (hT : b.Fresh t₁ record.id T) (hroot : IsNormal root)
    (hscan : b.scanned settings t₁ root = .ok scan) (h : ¬ b.Overlaps scan) {p q : Text}
    (hp : p ∈ b.listing t₁ scan) (hq : q ∈ b.listing t₁ scan)
    (hsame : b.relative? p = b.relative? q) : p = q := by
  have hproject : ∀ p ∈ (projectFiles.map (child b.project)).filter (t₁.isFile b.cwd),
      ∃ n ∈ projectFiles, p = child b.project n ∧ b.relative? p = some n := by
    intro p hp
    obtain ⟨n, hn, rfl⟩ := List.mem_map.mp (List.mem_filter.mp hp).1
    exact ⟨n, hn, rfl, (relative?_child hb hn).2.1⟩
  obtain ⟨ns, hns⟩ := listed_of_mem_listing hb hT hroot hscan hp
  obtain ⟨ms, hms⟩ := listed_of_mem_listing hb hT hroot hscan hq
  rw [listing, List.mem_append] at hp hq
  rcases hp with hp | hp <;> rcases hq with hq | hq
  · have hjoin := hsame
    rw [(hns.nameIn_eq hb).1, (hms.nameIn_eq hb).1, Option.some.injEq] at hjoin
    have hnames : Path.names p = Path.names q := by
      rw [hns.names_eq, hms.names_eq, ← Path.names_join_names hns.isName, hjoin,
        Path.names_join_names hms.isName]
    have hp := (List.mem_filter.mp hp).1
    rcases scanned_cases hscan with hnone | hscan
    · rw [hnone] at hp
      cases hp
    · exact List.inj_on_of_nodup_map (nodup_names_scan hT.wellFormed hcwd hscan) hp
        (List.mem_filter.mp hq).1 hnames
  · obtain ⟨n, hn, -, hrelative⟩ := hproject q hq
    exact absurd ⟨p, (List.mem_filter.mp hp).1, n, hn, hsame.trans hrelative⟩ h
  · obtain ⟨n, hn, -, hrelative⟩ := hproject p hp
    exact absurd ⟨q, (List.mem_filter.mp hq).1, n, hn, hsame.symm.trans hrelative⟩ h
  · obtain ⟨n, -, rfl, hn⟩ := hproject p hp
    obtain ⟨m, -, rfl, hm⟩ := hproject q hq
    obtain rfl := Option.some.inj (hn.symm.trans (hsame.trans hm))
    rfl

/-- Where a scan overlaps, the file of the project's own directory is listed after it. -/
theorem Overlaps.mem_files (hb : IsNormal b.project) (hT : b.Fresh t₁ record.id T)
    (hroot : IsNormal root) (hscan : b.scanned settings t₁ root = .ok scan)
    (h : b.Overlaps scan) : ∃ n,
      n ∈ (scan.paths.filter fun path => (b.relative? path).isSome).map b.nameIn ∧
      n ∈ ((projectFiles.map (child b.project)).filter (t₁.isFile b.cwd)).map b.nameIn := by
  obtain ⟨path, hpath, n, hn, hrelative⟩ := h
  have hscanned : path ∈ scan.paths.filter fun path => (b.relative? path).isSome :=
    List.mem_filter.mpr ⟨hpath, by simp [hrelative]⟩
  obtain ⟨ns, hns⟩ :=
    listed_of_mem_listing hb hT hroot hscan (List.mem_append_left _ hscanned)
  obtain ⟨hnormal, hchild, hnames⟩ := relative?_child hb hn
  have hjoin : Text.join [slash] ns = n :=
    Option.some.inj ((hns.nameIn_eq hb).1.symm.trans hrelative)
  have hone := Path.names_of_isName (isName_projectFiles _ hn)
  rw [← hjoin, Path.names_join_names hns.isName, hjoin] at hone
  have hfile : t₁.isFile b.cwd (child b.project n) = true := by
    have hsource := hns.isFile
    rw [isFile, stat, locate_normal hns.normal, hns.names_eq, hone, ← hnames,
      ← locate_normal hnormal t₁ true b.cwd, ← stat] at hsource
    exact hsource
  refine ⟨n, List.mem_map.mpr ⟨path, hscanned, by rw [nameIn, hrelative]; rfl⟩,
    List.mem_map.mpr ⟨_, List.mem_filter.mpr ⟨List.mem_map_of_mem hn, hfile⟩,
      by rw [nameIn, hchild]; rfl⟩⟩

/-- The record names a file twice exactly if the scan overlaps. -/
theorem nodup_files_iff (hb : IsNormal b.project) (hcwd : isAbsolute b.cwd = true)
    (hroot : IsNormal root) (hT : b.Fresh t₁ record.id T)
    (hscan : b.scanned settings t₁ root = .ok scan)
    (hm : b.Made t₁ u T (b.listing t₁ scan) record) :
    record.files.Nodup ↔ ¬ b.Overlaps scan := by
  rw [hm.files_eq hb]
  constructor
  · intro hnodup h
    obtain ⟨n, hn, hn'⟩ := h.mem_files hb hT hroot hscan
    rw [listing, List.map_append] at hnodup
    exact (List.nodup_append.mp hnodup).2.2 n hn n hn' rfl
  · intro hnot
    refine List.Nodup.map_on (fun p hp q hq hsame => ?_)
      (nodup_listing hb hcwd hT.wellFormed hscan hnot)
    obtain ⟨ns, hns⟩ := listed_of_mem_listing hb hT hroot hscan hp
    obtain ⟨ms, hms⟩ := listed_of_mem_listing hb hT hroot hscan hq
    rw [(hns.nameIn_eq hb).2, (hms.nameIn_eq hb).2] at hsame
    refine eq_of_relative?_eq hb hcwd hT hroot hscan hnot hp hq ?_
    rw [(hns.nameIn_eq hb).1, (hms.nameIn_eq hb).1, hsame]

/-- The places of a record, and of the files that it names and that it does not overwrite. -/
def places (T : Place) (record : BackupRecord) : List Place :=
  (T ++ [recordName]) ::
    (record.files.dedup.filter (· ≠ recordName)).map (T ++ Path.names ·)

section

variable (hT : b.Fresh t₁ record.id T) (hm : b.Made t₁ u T paths record)
include hT hm

/-- What the record names is a file in the directory of the backup. -/
theorem exists_of_mem_files {name : Text} (hname : name ∈ record.files) :
    ∃ ns bytes, name = Text.join [slash] ns ∧ Path.names name = ns ∧
      u.find? (T ++ ns) = some (.file bytes) := by
  obtain ⟨ns, D, -, bytes, rfl, hkept, -, -⟩ := hm.exists_keptFile hT hname
  exact ⟨ns, bytes, rfl, Path.names_join_names hkept.isName, hkept.copied⟩

theorem nodup_places : (places T record).Nodup := by
  refine List.nodup_cons.mpr ⟨fun hmem => ?_,
    ((List.nodup_dedup _).filter _).map_on fun name hname other hother heq => ?_⟩
  · obtain ⟨name, hname, heq⟩ := List.mem_map.mp hmem
    obtain ⟨hname, hne⟩ := List.mem_filter.mp hname
    obtain ⟨ns, -, rfl, hns, -⟩ := exists_of_mem_files hT hm (List.mem_dedup.mp hname)
    rw [List.append_cancel_left_eq, hns] at heq
    exact of_decide_eq_true hne (by rw [heq]; rfl)
  · have hin : ∀ name ∈ record.files.dedup.filter (· ≠ recordName), name ∈ record.files :=
      fun name hname => List.mem_dedup.mp (List.mem_filter.mp hname).1
    obtain ⟨ns, -, rfl, hns, -⟩ := exists_of_mem_files hT hm (hin name hname)
    obtain ⟨ms, -, rfl, hms, -⟩ := exists_of_mem_files hT hm (hin other hother)
    rw [List.append_cancel_left_eq, hns, hms] at heq
    rw [heq]

theorem mem_filesBelow_iff {p : Place} : p ∈ u.filesBelow T ↔ p ∈ places T record := by
  have hrecord : Path.names recordName = [recordName] := Path.names_of_isName isName_recordName
  rw [hm.wellFormed.mem_filesBelow, places, List.mem_cons, List.mem_map]
  constructor
  · rintro ⟨⟨ns, rfl⟩, bytes, hf⟩
    rcases hm.only ns bytes hf with rfl | hname
    · exact .inl rfl
    · have hns : ∀ n ∈ ns, IsName n := fun n hn =>
        hm.wellFormed.isName_of_find? (by rw [hf]; exact Option.some_ne_none _) n
          (List.mem_append_right _ hn)
      by_cases hjoin : Text.join [slash] ns = recordName
      · rw [← hjoin, Path.names_join_names hns, hjoin] at hrecord
        exact .inl (by rw [hrecord])
      · exact .inr ⟨_, List.mem_filter.mpr ⟨List.mem_dedup.mpr hname, decide_eq_true hjoin⟩,
          by rw [Path.names_join_names hns]⟩
  · rintro (rfl | ⟨name, hname, rfl⟩)
    · exact ⟨List.prefix_append _ _, _, hm.record_eq⟩
    · obtain ⟨ns, bytes, rfl, hns, hf⟩ :=
        exists_of_mem_files hT hm (List.mem_dedup.mp (List.mem_filter.mp hname).1)
      exact ⟨List.prefix_append _ _, bytes, by rw [hns, hf]⟩

/-- The files in the directory of a backup are its record and one for each name in the record. -/
theorem length_filesBelow :
    (u.filesBelow T).length = (record.files.dedup.filter (· ≠ recordName)).length + 1 := by
  have hperm := (List.perm_ext_iff_of_nodup (hm.wellFormed.nodup_filesBelow T)
    (nodup_places hT hm)).mpr fun _ => mem_filesBelow_iff hT hm
  rw [hperm.length_eq, places, List.length_cons, List.length_map]

end

/-- Only then the record names a file like itself. -/
theorem prefix_of_mem_files (hb : IsNormal b.project) (hcwd : isAbsolute b.cwd = true)
    (hroot : IsNormal root) (hT : b.Fresh t₁ record.id T)
    (hscan : b.scanned settings t₁ root = .ok scan)
    (hm : b.Made t₁ u T (b.listing t₁ scan) record) (h : recordName ∈ record.files) :
    Path.names root <+: Path.names b.project := by
  rw [hm.files_eq hb] at h
  obtain ⟨path, hpath, hname⟩ := List.mem_map.mp h
  obtain ⟨ns, hns⟩ := listed_of_mem_listing hb hT hroot hscan hpath
  have hrelative : b.relative? path = some recordName := by
    rw [(hns.nameIn_eq hb).1, ← (hns.nameIn_eq hb).2, hname]
  rw [listing, List.mem_append] at hpath
  rcases hpath with hpath | hpath
  · exact prefix_of_relative? hb hcwd hroot hT.wellFormed hscan (List.mem_filter.mp hpath).1
      isName_recordName hrelative
  · obtain ⟨n, hn, rfl⟩ := List.mem_map.mp (List.mem_filter.mp hpath).1
    rw [(relative?_child hb hn).2.1, Option.some.injEq] at hrelative
    exact absurd (hrelative ▸ hn) (by decide)

/-- What is to be backed up is what a scan of the source directory lists. -/
theorem filesToBackUp_eq_ok {s s' : Session}
    (h : (b.filesToBackUp settings).perform s = (.ok paths, s')) : ∃ root scan,
      settings.sourceRoot b.cwd = .ok root ∧ b.scanned settings s.tree root = .ok scan ∧
        paths = b.listing s.tree scan := by
  obtain ⟨notices, hperform⟩ := perform_filesToBackUp b settings s
  rw [hperform] at h
  cases hroot : settings.sourceRoot b.cwd with
  | error e =>
    rw [hroot] at h
    cases h
  | ok root =>
    rw [hroot, Except.bind] at h
    cases hscan : b.scanned settings s.tree root with
    | error e =>
      rw [hscan] at h
      cases h
    | ok scan =>
      rw [hscan] at h
      cases h
      exact ⟨root, scan, rfl, hscan, rfl⟩

/-- No path is listed twice, and no file is named twice in the record, unless the scan for sources
also finds a file of the project's own directory; it can do so only if the source directory is the
project's or above it. Otherwise the directory of a backup has one file for each name in the record,
and the record. -/
theorem backed_up_once {settings : Settings} {s : Session} (hcwd : isAbsolute s.cwd = true)
    (ht : s.tree.WellFormed) :
    let b := ofSettings settings s.cwd
    (∀ paths s', (b.filesToBackUp settings).perform s = (.ok paths, s') →
      ∃ root scan, settings.sourceRoot s.cwd = .ok root ∧
        b.scanned settings s.tree root = .ok scan ∧ (¬ b.Overlaps scan → paths.Nodup) ∧
        (¬ Path.names root <+: Path.names b.project → paths.Nodup)) ∧
    ∀ description record s', (b.create settings description).perform s = (.ok record, s') →
      ∃ t₁ T root scan,
        s.tree.makeDirectories s.cwd (child b.directory record.id) false = .ok t₁ ∧
        s'.tree.locate true s.cwd (child b.directory record.id) = .ok T ∧
        settings.sourceRoot s.cwd = .ok root ∧ b.scanned settings t₁ root = .ok scan ∧
        (record.files.Nodup ↔ ¬ b.Overlaps scan) ∧
        (s'.tree.filesBelow T).length =
          (record.files.dedup.filter (· ≠ recordName)).length + 1 ∧
        (¬ Path.names root <+: Path.names b.project → record.files.Nodup ∧
          (s'.tree.filesBelow T).length = record.files.length + 1) := by
  intro b
  have hb : IsNormal b.project := Path.isNormal_absolute hcwd settings.projectRoot
  constructor
  · intro paths s' hfiles
    obtain ⟨root, scan, hroot, hscan, rfl⟩ := filesToBackUp_eq_ok hfiles
    have hnormal := Settings.isNormal_absolute hcwd hroot
    have hnodup := nodup_listing hb hcwd ht hscan
    exact ⟨root, scan, hroot, hscan, hnodup,
      fun hnot => hnodup fun h => hnot (h.above hb hcwd hnormal ht hscan)⟩
  · intro description record s' hcreate
    obtain ⟨-, -, t₁, T, root, scan, hmake, -, -, hT, hroot, hscan, hm⟩ :=
      create_eq_ok hb hcwd ht hcreate
    have hnormal := Settings.isNormal_absolute hcwd hroot
    have hlocate : s'.tree.locate true s.cwd (child b.directory record.id) = .ok T := by
      have hpair := isName_pair hT.isId
      rw [child_directory hb hT.isId, locate_normal (isNormal_below hb hpair),
        names_below hb hpair]
      exact hm.walk hT hT.walk (by rw [hT.directory]; exact Option.some_ne_none _)
    have hiff := nodup_files_iff hb hcwd hnormal hT hscan hm
    have hlength := length_filesBelow hT hm
    refine ⟨t₁, T, root, scan, hmake, hlocate, hroot, hscan, hiff, hlength, fun hnot => ?_⟩
    have hnodup := hiff.mpr fun h => hnot (h.above hb hcwd hnormal hT.wellFormed hscan)
    refine ⟨hnodup, ?_⟩
    rw [hlength, hnodup.dedup, List.filter_eq_self.mpr fun name hname => decide_eq_true ?_]
    rintro rfl
    exact hnot (prefix_of_mem_files hb hcwd hnormal hT hscan hm hname)

/-- A project with a source below its own directory. -/
theorem backed_up_once_sample : isAbsolute sample.cwd = true ∧ sample.tree.WellFormed ∧
    ∃ record s' T, (sampleBackups.create {} []).perform sample = (.ok record, s') ∧
      record.files.Nodup ∧ (s'.tree.filesBelow T).length = record.files.length + 1 := by
  have hcwd : isAbsolute sample.cwd = true := by decide
  have ht : sample.tree.WellFormed := by decide
  obtain ⟨record, s', hcreate, -⟩ := create_sample []
  obtain ⟨t₁, T, root, scan, -, -, hroot, -, -, -, honce⟩ :=
    (@backed_up_once {} sample hcwd ht).2 [] record s' hcreate
  have hsource : ({} : Settings).sourceRoot sample.cwd = .ok "/p/src" := by decide
  obtain rfl := Except.ok.inj (hsource.symm.trans hroot)
  exact ⟨hcwd, ht, record, s', T, hcreate, honce (by decide)⟩

/-- A project with a package description in its own directory. -/
def packaged : Session where
  tree := ⟨[(["p"], .directory), (["p", "package.json"], .file (Utf8.encode "\x7b\x7d"))]⟩
  cwd := "/p"

theorem perform_packaged : ∃ notices,
    ((ofSettings clashingSettings packaged.cwd).filesToBackUp clashingSettings).perform packaged =
      (.ok [("/p/package.json" : Text), "/p/package.json"], { packaged with notices }) := by
  have hroot : clashingSettings.sourceRoot (ofSettings clashingSettings packaged.cwd).cwd =
      .ok "/p" := by decide
  have hscan : (ofSettings clashingSettings packaged.cwd).scanned clashingSettings packaged.tree
      "/p" = .ok ⟨["/p/package.json"], []⟩ := by cbv
  have hlisting : (ofSettings clashingSettings packaged.cwd).listing packaged.tree
      ⟨["/p/package.json"], []⟩ = [("/p/package.json" : Text), "/p/package.json"] := by cbv
  obtain ⟨notices, hperform⟩ :=
    perform_filesToBackUp (ofSettings clashingSettings packaged.cwd) clashingSettings packaged
  refine ⟨notices, hperform.trans ?_⟩
  rw [hroot, Except.bind, hscan]
  dsimp only
  rw [hlisting]

/-- A project that is its own source directory has its package description listed twice. -/
theorem not_backed_up_once : ¬ ∀ (settings : Settings) (s s' : Session) (paths : List Text),
    isAbsolute s.cwd = true → s.tree.WellFormed →
    ((ofSettings settings s.cwd).filesToBackUp settings).perform s = (.ok paths, s') →
    paths.Nodup := by
  intro hall
  obtain ⟨notices, hperform⟩ := perform_packaged
  have hnodup := hall clashingSettings packaged _ _ (by decide) (by decide) hperform
  exact absurd hnodup (by decide)

end Backups
end ModuleGraph
