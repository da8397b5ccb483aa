import ModuleGraph.Proofs.Backup.Restore

/-!
The directory of the backups as a store.

* `HasProject`: where the project is, however its path leads there;
* `Contents`: a directory that holds the records of some backups and no others;
* `Contents.grow`, `Contents.made`, `Contents.failed`, `Contents.remove`: what making and deleting
  a backup does to them;
* `Contents.perm_records`: the records that are found in the directory;
* `HasProject.find?_store`, `HasDirectory.makeDirectories_taken`: where a first backup can be made,
  and where no second one can.
-/

namespace ModuleGraph
namespace Backups

open ModuleGraph.Path ModuleGraph.Tree

variable {b : Backups} {t t₁ u : Tree} {P T B q : Place} {ns : List Text} {n id : Text}
  {record : BackupRecord} {paths : List Text} {m : Moment} {live : List (Moment × BackupRecord)}
  {x : Moment × BackupRecord}

/-- The place of the directory of the backups of a project. -/
def store (P : Place) : Place := P ++ [directoryName]

/-- The project is a directory, and the way to it does not go through its backups. -/
structure HasProject (b : Backups) (t : Tree) (P : Place) : Prop where
  wellFormed : t.WellFormed
  directory : t.find? P = some .directory
  walk : (t.remove (store P)).walk true maxLinks [] (names b.project) = .ok P

theorem store_ne_nil (P : Place) : store P ≠ [] := by simp [store]

theorem not_store_above (P : Place) : ¬ store P <+: P := fun h => by
  have hlen := h.length_le
  rw [store, List.length_append, List.length_singleton] at hlen
  omega

/-- What is not among the backups may not be lost. -/
theorem HasProject.of_frame (h : b.HasProject t P) (hu : u.WellFormed)
    (hframe : ∀ q, ¬ store P <+: q → t.find? q ≠ none → u.find? q = t.find? q) :
    b.HasProject u P := by
  have hdir : u.find? P = some .directory := by
    rw [hframe P (not_store_above P) (by rw [h.directory]; exact Option.some_ne_none _),
      h.directory]
  refine ⟨hu, hdir, walk_leads (fun q e hq => ?_) h.walk fun hway => ?_⟩
  · have hf := (way_eq_some.mp hq).1
    rw [find?_remove (store_ne_nil P)] at hf
    split at hf
    · cases hf
    rename_i hnot
    have hsame := hframe q hnot (by rw [hf]; exact Option.some_ne_none _)
    refine way_eq_some.mpr ⟨?_, (way_eq_some.mp hq).2⟩
    rw [find?_remove (store_ne_nil P), if_neg hnot, hsame, hf]
  · have hkept : (t.remove (store P)).find? P = some .directory := by
      rw [find?_remove (store_ne_nil P), if_neg (not_store_above P), h.directory]
    rw [way_directory hkept] at hway
    cases hway

theorem HasProject.walk_project (h : b.HasProject t P) :
    t.walk true maxLinks [] (names b.project) = .ok P := by
  have hkept : (t.remove (store P)).find? P = some .directory := by
    rw [find?_remove (store_ne_nil P), if_neg (not_store_above P), h.directory]
  refine walk_leads (fun q e hq => ?_) h.walk fun hway => ?_
  · have hf := (way_eq_some.mp hq).1
    rw [find?_remove (store_ne_nil P)] at hf
    split at hf
    · cases hf
    · exact way_eq_some.mpr ⟨hf, (way_eq_some.mp hq).2⟩
  · rw [way_directory hkept] at hway
    cases hway

/-- The path of the directory of the backups, a link at its end not followed. -/
theorem HasProject.walk_store (h : b.HasProject t P) {fl : Bool}
    (hl : fl = true → ∀ target, t.find? (store P) ≠ some (.link target)) :
    t.walk fl maxLinks [] (names b.project ++ [directoryName]) = .ok (store P) := by
  obtain ⟨k, -, happend⟩ := walk_append h.walk_project h.directory
  rw [happend fl _ (by simp)]
  cases fl with
  | false => exact walk_singleton isName_directoryName k P
  | true =>
    refine walk_down (by simpa using isName_directoryName) (fun ms hpre hne hne' => ?_) (hl rfl)
      true k
    rcases List.prefix_cons_iff.mp hpre with rfl | ⟨rest, rfl, hrest⟩
    · exact absurd rfl hne
    · exact absurd (by rw [List.prefix_nil.mp hrest]) hne'

theorem HasProject.hasDirectory (h : b.HasProject t P)
    (hdir : t.find? (store P) = some .directory) : b.HasDirectory t (store P) :=
  ⟨h.wellFormed, h.walk_store fun _ target => by rw [hdir]; simp, hdir⟩

/-- A backup among others: the moment when it was made, and its record. -/
structure IsBackup (t : Tree) (B : Place) (x : Moment × BackupRecord) : Prop where
  valid : x.1.IsValid
  id_eq : x.2.id = head ++ x.1.stamp
  timestamp_eq : x.2.timestamp = x.1.iso
  plain : Json.Plain x.2.commit
  record_eq : t.find? (B ++ [x.2.id, recordName]) = some (.file (Utf8.encode x.2.write))

theorem IsBackup.isId (h : IsBackup t B x) : IsId x.2.id := by
  rw [h.id_eq]
  exact isId_stamp x.1

theorem IsBackup.own (h : IsBackup t B x) (ht : t.WellFormed) :
    t.find? (B ++ [x.2.id]) = some .directory := by
  refine ht.above _ recordName ?_
  rw [List.append_assoc, List.singleton_append, h.record_eq]
  exact Option.some_ne_none _

/-- Two backups that were made at different moments have different ids. -/
theorem IsBackup.moment_eq {y : Moment × BackupRecord} (hx : IsBackup t B x) (hy : IsBackup t B y)
    (h : x.2.id = y.2.id) : x.1 = y.1 := by
  rw [hx.id_eq, hy.id_eq] at h
  exact Moment.eq_of_stamp_eq hx.valid hy.valid (List.append_cancel_left h)

/-- A directory with the records of some backups, and no others. -/
structure Contents (t : Tree) (B : Place) (live : List (Moment × BackupRecord)) : Prop where
  no_link : ∀ ns target, t.find? (B ++ ns) ≠ some (.link target)
  backup : ∀ x ∈ live, IsBackup t B x
  only : ∀ n bytes, t.find? (B ++ [n, recordName]) = some (.file bytes) → ∃ x ∈ live, x.2.id = n
  distinct : live.Pairwise fun x y => x.1 ≠ y.1

theorem Contents.of_missing (ht : t.WellFormed) (h : t.find? B = none) : Contents t B [] := by
  have hnone := ht.find?_append_of_none h
  refine ⟨fun ns target => ?_, fun x hx => (by cases hx), fun n bytes hf => ?_, .nil⟩
  · rw [hnone]
    simp
  · rw [hnone] at hf
    cases hf

/-- Nothing among the backups has changed. -/
theorem Contents.frame (h : Contents t B live)
    (hsame : ∀ ns, u.find? (B ++ ns) = t.find? (B ++ ns)) :
    Contents u B live where
  no_link ns target := by
    rw [hsame]
    exact h.no_link ns target
  backup x hx :=
    have hx := h.backup x hx
    ⟨hx.valid, hx.id_eq, hx.timestamp_eq, hx.plain, (hsame _).trans hx.record_eq⟩
  only n bytes hf := h.only n bytes ((hsame _).symm.trans hf)
  distinct := h.distinct

/-- Directories that are made do not matter. -/
theorem Contents.grow (h : Contents t B live) (hgrown : Grown t u) : Contents u B live where
  no_link ns target hf := by
    rcases hgrown.grows (B ++ ns) with hq | ⟨-, hq⟩
    · exact h.no_link ns target (hq ▸ hf)
    · rw [hf] at hq
      cases hq
  backup x hx :=
    have hx := h.backup x hx
    ⟨hx.valid, hx.id_eq, hx.timestamp_eq, hx.plain,
      (hgrown.find? (by rw [hx.record_eq]; exact Option.some_ne_none _)).trans hx.record_eq⟩
  only n bytes hf := by
    rcases hgrown.grows (B ++ [n, recordName]) with hq | ⟨-, hq⟩
    · exact h.only n bytes (hq ▸ hf)
    · rw [hf] at hq
      cases hq
  distinct := h.distinct

section

variable (hT : b.Fresh t₁ id (B ++ [id])) (h : Contents t₁ B live)
include hT h

/-- The directory of a new backup is not that of another one. -/
theorem Contents.id_ne (hx : x ∈ live) : x.2.id ≠ id := by
  rintro rfl
  have hrecord := (h.backup x hx).record_eq
  have hempty := hT.empty [recordName] (by simp)
  rw [List.append_assoc, List.singleton_append, hrecord] at hempty
  cases hempty

/-- What is put in the directory of a new backup is not in that of another one. -/
theorem Contents.beside
    (houtside : ∀ q, (∀ ns, ns ≠ [] → q ≠ B ++ [id] ++ ns) → u.find? q = t₁.find? q)
    (hlink : ∀ ns target, ns ≠ [] → u.find? (B ++ [id] ++ ns) ≠ some (.link target)) :
    (∀ ns target, u.find? (B ++ ns) ≠ some (.link target)) ∧ (∀ x ∈ live, IsBackup u B x) ∧
      ∀ n bytes, n ≠ id → u.find? (B ++ [n, recordName]) = some (.file bytes) →
        ∃ x ∈ live, x.2.id = n := by
  have hother : ∀ n, n ≠ id → u.find? (B ++ [n, recordName]) = t₁.find? (B ++ [n, recordName]) := by
    intro n hn
    refine houtside _ fun ns _ heq => hn ?_
    rw [List.append_assoc] at heq
    exact (List.cons.inj (List.append_cancel_left heq)).1
  refine ⟨fun ns target hf => ?_, fun x hx => ?_, fun n bytes hn hf => ?_⟩
  · by_cases hin : ∃ ms, ms ≠ [] ∧ B ++ ns = B ++ [id] ++ ms
    · obtain ⟨ms, hms, heq⟩ := hin
      exact hlink ms target hms (heq ▸ hf)
    · rw [houtside _ fun ms hms heq => hin ⟨ms, hms, heq⟩] at hf
      exact h.no_link ns target hf
  · have hb := h.backup x hx
    exact ⟨hb.valid, hb.id_eq, hb.timestamp_eq, hb.plain,
      (hother _ (h.id_ne hT hx)).trans hb.record_eq⟩
  · exact h.only n bytes ((hother n hn).symm.trans hf)

/-- A backup that was made is one more. -/
theorem Contents.made (hid : record.id = id) (hm : b.Made t₁ u (B ++ [id]) paths record)
    (hvalid : m.IsValid) (hstamp : record.id = head ++ m.stamp) (htime : record.timestamp = m.iso) :
    Contents u B ((m, record) :: live) := by
  obtain ⟨hlink, hbackup, honly⟩ := h.beside hT hm.outside hm.no_link
  have hrecord := hm.record_eq
  rw [List.append_assoc, List.singleton_append, ← hid] at hrecord
  have hnew : IsBackup u B (m, record) := ⟨hvalid, hstamp, htime, hm.plain, hrecord⟩
  refine ⟨hlink, ?_, fun n bytes hf => ?_, List.pairwise_cons.mpr ⟨fun y hy heq => ?_, h.distinct⟩⟩
  · intro x hx
    rcases List.mem_cons.mp hx with rfl | hx
    · exact hnew
    · exact hbackup x hx
  · by_cases hn : n = id
    · exact ⟨_, List.mem_cons_self, hid.trans hn.symm⟩
    · obtain ⟨x, hx, hxn⟩ := honly n bytes hn hf
      exact ⟨x, List.mem_cons_of_mem _ hx, hxn⟩
  · refine h.id_ne hT hy ?_
    rw [(h.backup y hy).id_eq, ← heq, ← hstamp, hid]

/-- A backup that could not be described is none. -/
theorem Contents.failed (hc : b.Copying t₁ u (B ++ [id]))
    (hrecord : ∀ bytes, u.find? (B ++ [id] ++ [recordName]) ≠ some (.file bytes)) :
    Contents u B live := by
  obtain ⟨hlink, hbackup, honly⟩ := h.beside hT hc.outside (hc.no_link hT)
  refine ⟨hlink, hbackup, fun n bytes hf => ?_, h.distinct⟩
  by_cases hn : n = id
  · refine absurd ?_ (hrecord bytes)
    rwa [List.append_assoc, List.singleton_append, ← hn]
  · exact honly n bytes hn hf

end

/-- A directory that is removed takes the backup in it along. -/
theorem Contents.remove (h : Contents t B live) (id : Text) :
    Contents (t.remove (B ++ [id])) B (live.filter (·.2.id ≠ id)) := by
  have hne : B ++ [id] ≠ [] := by simp
  have hbelow : ∀ n, B ++ [id] <+: B ++ [n, recordName] ↔ n = id := by
    intro n
    rw [List.prefix_append_right_inj, List.cons_prefix_cons]
    exact ⟨fun h => h.1.symm, fun h => ⟨h.symm, List.nil_prefix⟩⟩
  refine ⟨fun ns target => ?_, fun x hx => ?_, fun n bytes hf => ?_, h.distinct.filter _⟩
  · rw [find?_remove hne]
    split
    · simp
    · exact h.no_link ns target
  · obtain ⟨hx, hid⟩ := List.mem_filter.mp hx
    rw [decide_eq_true_eq] at hid
    have hb := h.backup x hx
    refine ⟨hb.valid, hb.id_eq, hb.timestamp_eq, hb.plain, ?_⟩
    rw [find?_remove hne, if_neg (mt (hbelow _).mp hid), hb.record_eq]
  · rw [find?_remove hne] at hf
    split at hf
    · cases hf
    · rename_i hnot
      obtain ⟨x, hx, rfl⟩ := h.only n bytes hf
      exact ⟨x, List.mem_filter.mpr ⟨hx, decide_eq_true (mt (hbelow _).mpr hnot)⟩, rfl⟩

section

variable (hb : IsNormal b.project) (hdir : b.HasDirectory t B) (h : Contents t B live)
include hb hdir h

/-- The record in a directory is that of a backup. -/
theorem Contents.recordIn_eq_some {found : Text × Except Fault BackupRecord} (hn : n ∈ t.names B)
    (hfound : b.recordIn t n = some found) : ∃ x ∈ live, x.2.id = n ∧ found.2 = .ok x.2 := by
  have hname : IsName n :=
    hdir.wellFormed.isName_of_find? (mem_names.mp hn) n (List.mem_append_right _ (by simp))
  have hunfolded := hfound
  rw [recordIn] at hunfolded
  split at hunfolded
  case isFalse => cases hunfolded
  rename_i htests
  simp only [Bool.and_eq_true] at htests
  obtain ⟨⟨hisdir, hhead⟩, hisfile⟩ := htests
  have hid : IsId n := ⟨hhead, hname.no_slash⟩
  rw [child_directory hb hid] at hisdir hisfile
  rw [child_below_name hb (isName_pair hid) isName_recordName] at hisfile
  have hl : t.locate true b.cwd (b.below [directoryName, n]) = .ok (B ++ [n]) :=
    hdir.locate_down hb (by simpa using hname) (by simp) (by simpa using hdir.directory)
      (fun target => h.no_link _ target) true
  obtain ⟨p, hp, hown⟩ := isDirectory_iff.mp hisdir
  obtain rfl := Except.ok.inj (hl.symm.trans hp)
  obtain ⟨p, bytes, hp, hf⟩ := isFile_iff.mp hisfile
  have hl' : t.locate true b.cwd (b.below [directoryName, n, recordName]) =
      .ok (B ++ [n, recordName]) :=
    hdir.locate_down hb (by simpa using ⟨hname, isName_recordName⟩) (by simp)
      (by simpa using hown) (fun target => h.no_link _ target) true
  obtain rfl := Except.ok.inj (hl'.symm.trans hp)
  obtain ⟨x, hx, rfl⟩ := h.only n bytes hf
  have hrecord : t.find? (B ++ [x.2.id] ++ [recordName]) =
      some (.file (Utf8.encode x.2.write)) := by
    rw [List.append_assoc, List.singleton_append, (h.backup x hx).record_eq]
  rw [hdir.recordIn_eq hb hid hown hrecord, Option.some.injEq] at hfound
  exact ⟨x, hx, rfl, by rw [← hfound, BackupRecord.read_write (h.backup x hx).plain]⟩

/-- The records that are found are those of the backups. -/
theorem Contents.perm_records : (b.records t).1.Perm (live.map (·.2)) := by
  have hrecords := hdir.records_eq hb
  rw [List.filterMap_filterMap] at hrecords
  have hfound : ∀ n ∈ t.names B, ∀ r, ((b.recordIn t n).bind (·.2.toOption)) = some r →
      r.id = n ∧ ∃ x ∈ live, x.2 = r := by
    intro n hn r hr
    obtain ⟨found, hin, hr⟩ := Option.bind_eq_some_iff.mp hr
    obtain ⟨x, hx, rfl, hok⟩ := h.recordIn_eq_some hb hdir hn hin
    obtain ⟨path, outcome⟩ := found
    dsimp only at hok
    subst hok
    obtain rfl := Option.some.inj hr
    exact ⟨rfl, x, hx, rfl⟩
  refine (List.perm_ext_iff_of_nodup ?_ ?_).mpr fun r => ?_
  · rw [hrecords, List.Nodup, List.pairwise_filterMap]
    refine (hdir.wellFormed.nodup_names B).imp_of_mem fun hn hn' hne r hr r' hr' heq => hne ?_
    rw [← (hfound _ hn r hr).1, ← (hfound _ hn' r' hr').1, heq]
  · rw [List.Nodup, List.pairwise_map]
    refine h.distinct.imp_of_mem fun hx hy hne heq => hne ?_
    exact (h.backup _ hx).moment_eq (h.backup _ hy) (congrArg _ heq)
  · rw [hrecords, List.mem_filterMap, List.mem_map]
    constructor
    · rintro ⟨n, hn, hr⟩
      exact (hfound n hn r hr).2
    · rintro ⟨x, hx, rfl⟩
      have hx := h.backup x hx
      have hown := hx.own hdir.wellFormed
      have hrecord : t.find? (B ++ [x.2.id] ++ [recordName]) =
          some (.file (Utf8.encode x.2.write)) := by
        rw [List.append_assoc, List.singleton_append, hx.record_eq]
      refine ⟨x.2.id, mem_names.mpr (by rw [hown]; exact Option.some_ne_none _), ?_⟩
      rw [hdir.recordIn_eq hb hx.isId hown hrecord, BackupRecord.read_write hx.plain]
      rfl

end

section

variable (hb : IsNormal b.project) (hid : IsId id)
include hb hid

/-- Where a backup has its directory no other one is made. -/
theorem HasDirectory.makeDirectories_taken (h : b.HasDirectory t B)
    (hown : t.find? (B ++ [id]) = some .directory) :
    t.makeDirectories b.cwd (child b.directory id) false = .error .exists := by
  have hl : t.locate false b.cwd (b.below [directoryName, id]) = .ok (B ++ [id]) :=
    h.locate_down hb (by simpa using hid.isName) (by simp) (by simpa using h.directory)
      (fun target => by simp [hown]) false
  rw [makeDirectories_backup hb hid, makeOne_taken hl hown (Bool.false_and _)]

/-- A first backup is made where nothing is. -/
theorem HasProject.find?_store (h : b.HasProject t P)
    (hnone : t.isDirectory b.cwd b.directory = false)
    (hmake : t.makeDirectories b.cwd (child b.directory id) false = .ok u) :
    t.find? (store P) = none := by
  have hname : ∀ n ∈ [directoryName], IsName n := by simpa using isName_directoryName
  rw [directory_eq hb] at hnone
  by_contra hsome
  obtain ⟨e, he⟩ := Option.ne_none_iff_exists'.mp hsome
  have habove : t.makeDirectories b.cwd (b.below [directoryName]) true = .error .exists := by
    have hl : t.locate false b.cwd (b.below [directoryName]) = .ok (store P) := by
      rw [locate_normal (isNormal_below hb hname), names_below hb hname]
      exact h.walk_store fun h => by cases h
    have hone : t.makeOne b.cwd (b.below [directoryName]) true = .error .exists :=
      makeOne_taken hl he (by rw [hnone, Bool.and_false])
    rw [below] at hone ⊢
    rw [makeDirectories_concat t hb.isLead b.cwd true (isName_names hb hname), hone]
  rw [makeDirectories_backup hb hid, habove] at hmake
  cases hone : t.makeOne b.cwd (b.below [directoryName, id]) false with
  | error e =>
    rw [hone] at hmake
    cases e <;> cases hmake
  | ok v =>
    -- then the way to the new directory would lead through that of the backups
    have hpair := isName_pair hid
    rcases makeOne_eq_ok hone with hone | ⟨hfalse, -⟩
    · obtain ⟨p, hp, -⟩ := makeDirectory_eq_ok h.wellFormed hone
      have hsplit : names b.project ++ [directoryName, id] =
          (names b.project ++ [directoryName]) ++ [id] := by simp
      rw [locate_normal (isNormal_below hb hpair), names_below hb hpair, hsplit] at hp
      obtain ⟨mid, hmid, hdir⟩ := walk_split h.wellFormed rfl (by simp) hp
      rw [← Bool.not_eq_true] at hnone
      refine hnone (isDirectory_iff.mpr ⟨mid, ?_, hdir⟩)
      rw [locate_normal (isNormal_below hb hname), names_below hb hname, hmid]
    · cases hfalse

end

end Backups
end ModuleGraph
