import ModuleGraph.Proofs.Backup.Restore

/-!
Restoring a backup undoes later changes of the files that it names.

* `Made.kept`: a backup that was made is kept;
* `Edited.kept`: it is still kept after some of its files were changed or removed;
* `restore_edited`: then restoring brings every file back;
* `not_restore_edited`: without the conditions on the record it may not.
-/

namespace ModuleGraph
namespace Backups

open ModuleGraph.Path ModuleGraph.Tree

variable {b : Backups} {settings : Settings} {s s₁ s₂ : Session} {record : BackupRecord}
  {t t₁ u : Tree} {T B D q : Place} {ns : List Text} {id description : Text} {bytes : Bytes}
  {paths : List Text}

/-- What is in one of two related lists is related to something in the other. -/
theorem exists_of_forall₂ {α β : Type} {R : α → β → Prop} {xs : List α} {ys : List β}
    (h : List.Forall₂ R xs ys) : ∀ x ∈ xs, ∃ y ∈ ys, R x y := by
  induction h with
  | nil => simp
  | cons hxy _ ih =>
    intro x hx
    rcases List.mem_cons.mp hx with rfl | hx
    · exact ⟨_, List.mem_cons_self, hxy⟩
    · obtain ⟨y, hy, h⟩ := ih x hx
      exact ⟨y, List.mem_cons_of_mem _ hy, h⟩

section

variable (hT : b.Fresh t₁ record.id T) (hm : b.Made t₁ u T paths record)
include hT hm

/-- The copy of a file that was listed, and what it is a copy of. -/
theorem Made.exists_keptFile {name : Text} (hname : name ∈ record.files) :
    ∃ ns D bytes copied, name = Text.join [slash] ns ∧ b.KeptFile u T ns D copied ∧
      t₁.find? D = some (.file bytes) ∧ (ns ≠ [recordName] → copied = bytes) := by
  obtain ⟨path, hpath, ns, bytes, hl, hjoin, ⟨D, hwalk, hD⟩, hcopy⟩ :=
    exists_of_forall₂ hm.copies.flip name hname
  have hne : t₁.find? D ≠ none := by
    rw [hD]
    exact Option.some_ne_none _
  have hoverD : u.find? D = some (.file bytes) := (hm.find? hT hne).trans hD
  obtain ⟨copied, hcopied, heq⟩ : ∃ copied, u.find? (T ++ ns) = some (.file copied) ∧
      (ns ≠ [recordName] → copied = bytes) := by
    by_cases hns : ns = [recordName]
    · exact ⟨_, hns ▸ hm.record_eq, fun h => absurd hns h⟩
    · exact ⟨_, hcopy hns, fun _ => rfl⟩
  refine ⟨ns, D, bytes, copied, hjoin,
    ⟨hl.ne_nil, hl.isName, hcopied, hm.walk hT hwalk hne, ?_, ?_⟩, hD, heq⟩
  · rw [hoverD]
    simp
  · rintro ms rfl
    by_cases hms : ms = []
    · rw [hms, List.append_nil, hT.directory] at hD
      cases hD
    · rw [hT.empty ms hms] at hD
      cases hD

/-- What the copy of a place holds is what the place held. -/
theorem Made.copied_eq (hf : b.KeptFile u T ns D bytes)
    (hmem : Text.join [slash] ns ∈ record.files) :
    ∃ held, t₁.find? D = some (.file held) ∧ (ns ≠ [recordName] → bytes = held) := by
  obtain ⟨ms, q, held, copied, hjoin, hf', hq, heq⟩ := hm.exists_keptFile hT hmem
  obtain rfl : ns = ms := by
    rw [← names_join_names hf.isName, hjoin, names_join_names hf'.isName]
  obtain ⟨rfl, rfl⟩ := hf.unique hf' rfl
  exact ⟨held, hq, heq⟩

/-- A backup that was made is kept. -/
theorem Made.kept : ∃ B, T = B ++ [record.id] ∧ b.Kept u B record := by
  obtain ⟨B, rfl, hB⟩ := hT.last
  have hdir : t₁.find? B = some .directory :=
    hT.wellFormed.above B record.id (by rw [hT.directory]; exact Option.some_ne_none _)
  have hown : u.find? (B ++ [record.id]) = some .directory :=
    (hm.leads hT).find?_directory hT.directory
  refine ⟨B, rfl, ⟨hm.wellFormed, hm.walk hT hB ?_, (hm.leads hT).find?_directory hdir⟩, hT.isId,
    hm.plain, hown, hm.record_eq, fun name hname => ?_⟩
  · rw [hdir]
    exact Option.some_ne_none _
  · obtain ⟨ns, D, bytes, copied, hjoin, hf, -, -⟩ := hm.exists_keptFile hT hname
    exact ⟨ns, D, copied, hjoin, hf⟩

end

section

variable (hb : IsNormal b.project)
include hb

/-- A record is the only one with its id if no other backup is there. -/
theorem Kept.eq_of_mem_records (hk : b.Kept t B record)
    (h : ∀ n, t.find? (B ++ [n]) ≠ none → n = record.id) :
    ∀ r ∈ (b.records t).1, r.id = record.id → r = record := by
  intro r hr _
  rw [hk.records_eq hb, List.mem_filterMap] at hr
  obtain ⟨x, hx, hxr⟩ := hr
  obtain ⟨n, hn, hxn⟩ := List.mem_filterMap.mp hx
  rw [h n (mem_names.mp hn), hk.recordIn_eq hb hk.isId hk.own hk.record_eq,
    BackupRecord.read_write hk.plain, Option.some.injEq] at hxn
  subst hxn
  exact (Option.some.inj hxr).symm

end

/-- Only files that some names of a backup lead to were changed or removed. -/
structure Edited (b : Backups) (files : List Text) (t u : Tree) : Prop where
  wellFormed : u.WellFormed
  places : ∀ q, u.find? q = t.find? q ∨
    (∃ name ∈ files, t.locate true b.cwd (child b.project name) = .ok q) ∧
      (u.find? q = none ∨ ∃ bytes, u.find? q = some (.file bytes))

/-- A place that was changed is one that the backup has a copy of. -/
theorem Edited.exists_keptFile (hb : IsNormal b.project) (hk : b.Kept t B record)
    (h : b.Edited record.files t u) (q : Place) :
    u.find? q = t.find? q ∨ t.way q = none ∧ u.way q = none ∧
      ∃ ns bytes, Text.join [slash] ns ∈ record.files ∧
        b.KeptFile t (B ++ [record.id]) ns q bytes := by
  refine (h.places q).imp_right fun ⟨⟨name, hname, hl⟩, hq⟩ => ?_
  obtain ⟨ns, D, bytes, rfl, hf⟩ := hk.files name hname
  rw [child_project hb hf.isName, locate_normal (isNormal_below hb hf.isName),
    names_below hb hf.isName, hf.walk, Except.ok.injEq] at hl
  subst hl
  refine ⟨?_, hq.elim way_missing fun ⟨bytes, h⟩ => way_file h, ns, bytes, hname, hf⟩
  cases hD : t.find? D with
  | none => exact way_missing hD
  | some e =>
    cases e with
    | file old => exact way_file hD
    | directory => exact absurd hD hf.free
    | link target => exact absurd hD (walk_ne_link rfl hk.wellFormed hf.walk target)

theorem Edited.sameWays (hb : IsNormal b.project) (hk : b.Kept t B record)
    (h : b.Edited record.files t u) : t.SameWays u := by
  intro q
  rcases h.exists_keptFile hb hk q with hq | ⟨ht, hu, -⟩
  · exact way_of_find? hq
  · rw [ht, hu]

/-- The copies stay as they are. -/
theorem Edited.copies (hb : IsNormal b.project) (hk : b.Kept t B record)
    (h : b.Edited record.files t u) (ns : List Text) :
    u.find? (B ++ [record.id] ++ ns) = t.find? (B ++ [record.id] ++ ns) := by
  rcases h.exists_keptFile hb hk (B ++ [record.id] ++ ns) with hq | ⟨-, -, ms, bytes, -, hf⟩
  · exact hq
  · exact absurd rfl (hf.outside ns)

/-- A backup is kept when files that it names are changed or removed. -/
theorem Edited.kept (hb : IsNormal b.project) (hk : b.Kept t B record)
    (h : b.Edited record.files t u) : b.Kept u B record :=
  hk.of_sameWays h.wellFormed (h.sameWays hb hk) (h.copies hb hk)

/-- Later changes of files that a backup names, and their removal, are undone by restoring it: no
file fails, every file holds what it held when the backup was made, and nothing else is changed.
The backup must not name a file that is called like the record, and no other record may have its
id. -/
theorem restore_edited {settings : Settings} {s s₁ s₂ : Session} {description : Text}
    {record : BackupRecord} (hcwd : isAbsolute s.cwd = true) (hwf : s.tree.WellFormed)
    (hcreate : ((ofSettings settings s.cwd).create settings description).perform s =
      (.ok record, s₁))
    (hname : recordName ∉ record.files)
    (hedit : (ofSettings settings s.cwd).Edited record.files s₁.tree s₂.tree)
    (hunique : ∀ r ∈ ((ofSettings settings s.cwd).records s₂.tree).1, r.id = record.id →
      r = record) :
    let b := ofSettings settings s.cwd
    ∃ restored s₃, (b.restore (some record.id) false).perform s₂ = (.ok restored, s₃) ∧
      restored.files = record.files ∧ restored.failed = [] ∧
      (∀ q, s₃.tree.find? q = s₁.tree.find? q) ∧
      ∀ name ∈ record.files, ∃ q bytes,
        s₁.tree.locate true s.cwd (child b.project name) = .ok q ∧
        s.tree.find? q = some (.file bytes) ∧
        s₃.tree.read s.cwd (child b.project name) = .ok bytes := by
  intro b
  have hb : IsNormal b.project := isNormal_absolute hcwd settings.projectRoot
  obtain ⟨-, -, t₁, T, root, scan, -, hgrown, hnone, hT, -, -, hm⟩ :=
    create_eq_ok hb hcwd hwf hcreate
  obtain ⟨B, rfl, hk⟩ := hm.kept hT
  have hk₂ := hedit.kept hb hk
  obtain ⟨u, notices, hrun, hu, hways, hplaces⟩ := hk₂.perform_restore hb hunique
  -- what was copied is what stands at the place after the backup was made
  have hcopied : ∀ ns q bytes, Text.join [slash] ns ∈ record.files →
      b.KeptFile s₁.tree (B ++ [record.id]) ns q bytes →
        t₁.find? q = some (.file bytes) ∧ s₁.tree.find? q = some (.file bytes) := by
    intro ns q bytes hmem hf
    obtain ⟨held, hq, heq⟩ := hm.copied_eq hT hf hmem
    obtain rfl := heq fun hns => hname (by simpa [hns, Text.join] using hmem)
    exact ⟨hq, (hm.find? hT (by rw [hq]; exact Option.some_ne_none _)).trans hq⟩
  have hplace : ∀ q, u.find? q = s₁.tree.find? q := by
    intro q
    rcases hplaces q with ⟨hsame, hnot⟩ | ⟨ns, bytes, hmem, hf, hq⟩
    · rw [hsame]
      refine (hedit.exists_keptFile hb hk q).resolve_right ?_
      rintro ⟨-, -, ns, bytes, hmem, hf⟩
      exact hnot ns bytes hmem (hf.of_sameWays (hedit.sameWays hb hk) (hedit.copies hb hk))
    · rw [hq, (hcopied ns q bytes hmem (hf.of_sameWays (hedit.sameWays hb hk).symm
        fun ms => (hedit.copies hb hk ms).symm)).2]
  refine ⟨_, _, hrun, rfl, rfl, hplace, fun name hmem => ?_⟩
  obtain ⟨ns, D, bytes, rfl, hf⟩ := hk.files name hmem
  obtain ⟨hold, hnew⟩ := hcopied ns D bytes hmem hf
  have hlocate : s₁.tree.locate true s.cwd (child b.project (Text.join [slash] ns)) = .ok D := by
    rw [child_project hb hf.isName, locate_normal (isNormal_below hb hf.isName),
      names_below hb hf.isName, hf.walk]
  refine ⟨D, bytes, hlocate, ?_, read_eq_ok.mpr ⟨D, ?_, (hplace D).trans hnew⟩⟩
  · rcases hgrown.grows D with hD | ⟨-, hD⟩
    · rw [← hD, hold]
    · rw [hold] at hD
      cases hD
  · exact hways.locate_iff.mpr ((hedit.sameWays hb hk).locate_iff.mpr hlocate)

/-- To remove a file that a backup has a copy of is such a change. -/
theorem KeptFile.edited_remove (hk : b.Kept t B record) (hb : IsNormal b.project)
    (hf : b.KeptFile t (B ++ [record.id]) ns D bytes) {old : Bytes}
    (hD : t.find? D = some (.file old)) (hmem : Text.join [slash] ns ∈ record.files) :
    b.Edited record.files t (t.remove D) := by
  have hne : D ≠ [] := by
    rintro rfl
    cases hD
  refine ⟨hk.wellFormed.remove hne, fun q => ?_⟩
  rw [find?_remove hne]
  split
  · rename_i hpre
    obtain ⟨ms, rfl⟩ := hpre
    by_cases hms : ms = []
    · subst hms
      refine Or.inr ⟨⟨_, hmem, ?_⟩, Or.inl rfl⟩
      rw [child_project hb hf.isName, locate_normal (isNormal_below hb hf.isName),
        names_below hb hf.isName, hf.walk, List.append_nil]
    · exact Or.inl (hk.wellFormed.find?_below (by rw [hD]; simp) hms).symm
  · exact Or.inl rfl

/-- The only name in a directory, as its entries show it. -/
theorem eq_of_only_name {n : Text}
    (honly : ∀ x ∈ t.entries, x.1.dropLast = B → x.1.getLast? = some id)
    (h : t.find? (B ++ [n]) ≠ none) : n = id := by
  obtain ⟨e, he⟩ := (find?_ne_none (by simp)).mp h
  have hlast := honly _ he List.dropLast_concat
  rwa [List.getLast?_concat, Option.some.injEq] at hlast

/-- The one source of a project is removed after a backup. -/
theorem restore_edited_removed : ∃ record s₁ s₂,
    (sampleBackups.create {} []).perform sample = (.ok record, s₁) ∧
    recordName ∉ record.files ∧ sampleBackups.Edited record.files s₁.tree s₂.tree ∧
    (∀ r ∈ (sampleBackups.records s₂.tree).1, r.id = record.id → r = record) ∧
    s₂.tree.find? samplePlace = none ∧
    ∃ restored s₃, (sampleBackups.restore (some record.id) false).perform s₂ = (.ok restored, s₃) ∧
      restored.files = [("src/a.ts" : Text)] ∧
      s₃.tree.find? samplePlace = some (.file (Utf8.encode "1")) := by
  obtain ⟨record, s₁, hcreate, hid, hfiles, hT, hm⟩ := create_sample []
  obtain ⟨B, hB, hk⟩ := hm.kept hT
  obtain rfl : sampleStore = B := (List.append_inj' hB rfl).1
  have hmem : ("src/a.ts" : Text) ∈ record.files := by simp [hfiles]
  obtain ⟨ns, D, bytes, copied, hname, hf, hold, -⟩ := hm.exists_keptFile hT hmem
  have hns : ns = [("src" : Text), "a.ts"] := by
    rw [← names_join_names hf.isName, ← hname]
    decide
  have hwalk : sampleMade.walk true maxLinks [] (names sampleBackups.project ++ ns) =
      .ok samplePlace := by
    subst hns
    cbv
  obtain rfl : samplePlace = D :=
    Except.ok.inj ((hm.walk hT hwalk (by decide)).symm.trans hf.walk)
  have hD : s₁.tree.find? samplePlace = some (.file bytes) :=
    (hm.find? hT (by rw [hold]; exact Option.some_ne_none _)).trans hold
  let s₂ : Session := { s₁ with tree := s₁.tree.remove samplePlace }
  have hedit : sampleBackups.Edited record.files s₁.tree s₂.tree :=
    hf.edited_remove hk isNormal_sample hD (hname ▸ hmem)
  have hunique := (hedit.kept isNormal_sample hk).eq_of_mem_records isNormal_sample fun n hn => by
    have hmade : sampleMade.find? (sampleStore ++ [n]) ≠ none := by
      rw [← hm.beside rfl]
      exact fun hnone => hn ((find?_remove (by decide) _).trans (by rw [hnone, ite_self]))
    exact (eq_of_only_name (by decide) hmade).trans hid.symm
  have hrecord : recordName ∉ record.files := by
    rw [hfiles]
    decide
  obtain ⟨restored, s₃, hrestore, hrestored, -, hplaces, -⟩ :=
    restore_edited (by decide) (by decide) hcreate hrecord hedit hunique
  refine ⟨record, s₁, s₂, hcreate, hrecord, hedit, hunique, ?_, restored, s₃, hrestore,
    hrestored.trans hfiles, ?_⟩
  · exact (find?_remove (by decide) _).trans (if_pos (List.prefix_refl _))
  · rw [hplaces, hD, ← hold]
    rfl

/-- A project with a source that is called like the record of a backup. -/
def clashing : Session where
  tree := ⟨[(["p"], .directory), (["p", recordName], .file (Utf8.encode "\x7b\x7d"))]⟩
  cwd := "/p"

def clashingSettings : Settings := { sourceDirectory := .text "." }

/-- The project with an empty directory for a backup. -/
def clashingMade : Tree where
  entries := [(["p"], .directory), (["p", recordName], .file (Utf8.encode "\x7b\x7d")),
    (["p", ".backup"], .directory), (["p", ".backup", sampleId], .directory)]

theorem walk_clashing : clashingMade.walk true maxLinks []
    (names sampleBackups.project ++ [recordName]) = .ok ["p", recordName] := by
  cbv

/-- The backup of the project names the source, and holds the record in its place. -/
theorem create_clashing (description : Text) : ∃ record s',
    (sampleBackups.create clashingSettings description).perform clashing = (.ok record, s') ∧
      record.id = sampleId ∧ record.files = [recordName] ∧
      sampleBackups.Fresh clashingMade record.id (sampleStore ++ [record.id]) ∧
      sampleBackups.Made clashingMade s'.tree (sampleStore ++ [record.id])
        [child sampleBackups.project recordName] record := by
  have hcwd : isAbsolute sampleBackups.cwd = true := by decide
  have ht : clashing.tree.WellFormed := by decide
  have hroot : clashingSettings.sourceRoot sampleBackups.cwd = .ok "/p" := by decide
  have hmake : clashing.tree.makeDirectories sampleBackups.cwd
      (child sampleBackups.directory (head ++ clashing.clock.tick.1.stamp)) false =
        .ok clashingMade := by
    rw [show head ++ clashing.clock.tick.1.stamp = sampleId from sampleId_eq]
    exact makeDirectories_first_sample (by decide) (by decide) (by decide)
  have hscan : sampleBackups.scanned clashingSettings clashingMade "/p" =
      .ok ⟨[child sampleBackups.project recordName], []⟩ := by cbv
  have hlist : sampleBackups.listing clashingMade ⟨[child sampleBackups.project recordName], []⟩ =
      [child sampleBackups.project recordName] := listing_single (by decide) (by cbv)
  have hname : ¬ sampleBackups.Finds clashingMade [recordName] .directory := by
    rintro ⟨p, hp, hf⟩
    obtain rfl := Except.ok.inj (walk_clashing.symm.trans hp)
    cases hf
  have hnames : names (child sampleBackups.project recordName) =
      names sampleBackups.project ++ [recordName] := by decide
  have hwalk : clashingMade.walk true maxLinks []
      (names sampleBackups.project ++ [directoryName, sampleId]) =
        .ok (sampleStore ++ [sampleId]) := by cbv
  exact create_one isNormal_sample hcwd ht clashingSettings description hmake hroot hscan hname
    hlist hnames sampleId_eq hwalk

/-- A source that is called like the record is overwritten with the record. -/
theorem not_restore_edited : ¬ ∀ (settings : Settings) (s s₁ s₂ : Session) (description : Text)
    (record : BackupRecord), isAbsolute s.cwd = true → s.tree.WellFormed →
    ((ofSettings settings s.cwd).create settings description).perform s = (.ok record, s₁) →
    (ofSettings settings s.cwd).Edited record.files s₁.tree s₂.tree →
    ∃ restored s₃, ((ofSettings settings s.cwd).restore (some record.id) false).perform s₂ =
        (.ok restored, s₃) ∧
      ∀ q, s₃.tree.find? q = s₁.tree.find? q := by
  intro hall
  obtain ⟨record, s₁, hcreate, hid, hfiles, hT, hm⟩ := create_clashing []
  obtain ⟨B, hB, hk⟩ := hm.kept hT
  obtain rfl : sampleStore = B := (List.append_inj' hB rfl).1
  have hunique := hk.eq_of_mem_records isNormal_sample fun n hn => by
    rw [hm.beside rfl] at hn
    exact (eq_of_only_name (by decide) hn).trans hid.symm
  obtain ⟨u, notices, hrun, -, -, hplaces⟩ := hk.perform_restore isNormal_sample hunique
  obtain ⟨restored, s₃, hrestore, hsame⟩ := hall clashingSettings clashing s₁ s₁ [] record
    (by decide) (by decide) hcreate ⟨hk.wellFormed, fun q => Or.inl rfl⟩
  obtain ⟨-, rfl⟩ := Prod.mk.inj (hrun.symm.trans hrestore)
  have hnames : ∀ ns, Text.join [slash] ns ∈ record.files → (∀ n ∈ ns, IsName n) →
      ns = [recordName] := by
    intro ns hmem hns
    rw [hfiles, List.mem_singleton] at hmem
    rw [← names_join_names hns, hmem, names_of_isName isName_recordName]
  -- the copy that the name stands for is the record
  obtain ⟨ns, D, bytes, hjoin, hf⟩ := hk.files recordName (by simp [hfiles])
  obtain rfl := hnames ns (by simp [hfiles, ← hjoin]) hf.isName
  obtain rfl := Except.ok.inj ((hm.walk hT walk_clashing (by decide)).symm.trans hf.walk)
  have hold : s₁.tree.find? ["p", recordName] = some (.file (Utf8.encode "\x7b\x7d")) :=
    hm.find? hT (by decide)
  rcases hplaces ["p", recordName] with ⟨-, hnot⟩ | ⟨ms, bytes', hmem, hf', hq⟩
  · exact hnot [recordName] bytes (by rw [hfiles, ← hjoin]; simp) hf
  obtain rfl := hnames ms hmem hf'.isName
  have hwritten := hf'.copied.symm.trans hk.record_eq
  rw [Option.some.injEq, Entry.file.injEq] at hwritten
  have hwrong := hq.symm.trans ((hsame _).trans hold)
  rw [hwritten, Option.some.injEq, Entry.file.injEq] at hwrong
  have htext := congrArg Utf8.decode? hwrong
  rw [Utf8.decode?_encode, Utf8.decode?_encode, Option.some.injEq] at htext
  obtain ⟨rest, hwrite⟩ : ∃ rest, record.write = '\x7b' :: '\n' :: rest := ⟨_, rfl⟩
  rw [hwrite] at htext
  exact absurd (List.cons.inj (List.cons.inj htext).2).1 (by decide)

end Backups
end ModuleGraph
