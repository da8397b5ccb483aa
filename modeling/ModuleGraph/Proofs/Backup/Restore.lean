import ModuleGraph.Proofs.Backup.Create

/-!
Restoring a backup.

* `chosen`, `perform_restore`: the record that is asked for, and what restoring does with it;
* `Kept`: a backup with its record and its copies, and a project into which they can be copied;
* `Kept.of_sameWays`: files of the project may change, come and go;
* `Kept.mem_records`, `Kept.chosen`: the record is found if no other one has its id;
* `Kept.restoreFile_eq`, `Kept.restoreEach_eq`: a file copied back, and all of them;
* `Kept.perform_restore`: a backup that is kept is restored.
-/

namespace ModuleGraph
namespace Backups

open ModuleGraph.Path ModuleGraph.Tree

variable {b : Backups} {s s' : Session} {record : BackupRecord} {t u : Tree} {T B D p q : Place}
  {ns ms : List Text} {name id path : Text} {bytes : Bytes} {id? : Option Text} {dryRun : Bool}

/-- The directories of the backups are at `B`. -/
structure HasDirectory (b : Backups) (t : Tree) (B : Place) : Prop where
  wellFormed : t.WellFormed
  walk : t.walk true maxLinks [] (names b.project ++ [directoryName]) = .ok B
  directory : t.find? B = some .directory

/-- A copy in the directory at `T`, and the place `D` that it is a copy of. -/
structure KeptFile (b : Backups) (t : Tree) (T : Place) (ns : List Text) (D : Place)
    (bytes : Bytes) : Prop where
  ne_nil : ns ≠ []
  isName : ∀ n ∈ ns, IsName n
  copied : t.find? (T ++ ns) = some (.file bytes)
  walk : t.walk true maxLinks [] (names b.project ++ ns) = .ok D
  free : t.find? D ≠ some .directory
  outside : ∀ ms, D ≠ T ++ ms

/-- A backup with its record and its copies. -/
structure Kept (b : Backups) (t : Tree) (B : Place) (record : BackupRecord) : Prop
    extends HasDirectory b t B where
  isId : IsId record.id
  plain : Json.Plain record.commit
  own : t.find? (B ++ [record.id]) = some .directory
  record_eq : t.find? (B ++ [record.id] ++ [recordName]) =
    some (.file (Utf8.encode record.write))
  files : ∀ name ∈ record.files, ∃ ns D bytes, name = Text.join [slash] ns ∧
    b.KeptFile t (B ++ [record.id]) ns D bytes

theorem KeptFile.of_sameWays (hf : b.KeptFile t T ns D bytes) (hways : t.SameWays u)
    (hcopies : ∀ ns, u.find? (T ++ ns) = t.find? (T ++ ns)) : b.KeptFile u T ns D bytes where
  ne_nil := hf.ne_nil
  isName := hf.isName
  copied := (hcopies ns).trans hf.copied
  walk := hways.walk_iff.mpr hf.walk
  free h := hf.free (hways.find?_directory.mp h)
  outside := hf.outside

/-- A name stands for one copy of one place. -/
theorem KeptFile.unique {ms : List Text} {bytes' : Bytes} (hf : b.KeptFile t T ns D bytes)
    (hf' : b.KeptFile t T ms q bytes') (h : Text.join [slash] ns = Text.join [slash] ms) :
    D = q ∧ bytes = bytes' := by
  obtain rfl : ns = ms := by rw [← names_join_names hf.isName, h, names_join_names hf'.isName]
  have hwalk := hf.walk
  have hcopied := hf.copied
  rw [hf'.walk, Except.ok.injEq] at hwalk
  rw [hf'.copied, Option.some.injEq, Entry.file.injEq] at hcopied
  exact ⟨hwalk.symm, hcopied.symm⟩

/-- Files of the project may change, come and go. -/
theorem Kept.of_sameWays (hk : b.Kept t B record) (hu : u.WellFormed) (hways : t.SameWays u)
    (hcopies : ∀ ns, u.find? (B ++ [record.id] ++ ns) = t.find? (B ++ [record.id] ++ ns)) :
    b.Kept u B record where
  wellFormed := hu
  walk := hways.walk_iff.mpr hk.walk
  directory := hways.find?_directory.mpr hk.directory
  isId := hk.isId
  plain := hk.plain
  own := hways.find?_directory.mpr hk.own
  record_eq := (hcopies _).trans hk.record_eq
  files name hname := by
    obtain ⟨ns, D, bytes, hjoin, hf⟩ := hk.files name hname
    exact ⟨ns, D, bytes, hjoin, hf.of_sameWays hways hcopies⟩

theorem perform_list (b : Backups) (s : Session) : b.list.perform s =
    (.ok (newestFirst (b.records s.tree).1),
      { s with notices := s.notices ++ (b.records s.tree).2 }) := rfl

theorem discard_of {α : Type} (x : Except Fault α) (s : Session) :
    (discard (Run.of x) : Run Unit).perform s = (x.map fun _ => (), s) := by
  cases x <;> rfl

/-- The record that is asked for: the first one with an id, or the newest one. -/
def chosen (b : Backups) (t : Tree) : Option Text → Option BackupRecord
  | none => (newestFirst (b.records t).1).head?
  | some id => (newestFirst (b.records t).1).find? (·.id = id)

theorem mem_records_of_chosen (h : b.chosen t id? = some record) : record ∈ (b.records t).1 := by
  refine List.mem_mergeSort.mp (?_ : record ∈ newestFirst (b.records t).1)
  cases id? with
  | none => exact List.mem_of_mem_head? h
  | some id => exact List.mem_of_find?_eq_some h

theorem id_of_chosen {id : Text} (h : b.chosen t (some id) = some record) : record.id = id := by
  simpa using List.find?_some h

/-- Whether an entry of a record was copied back. -/
def wasRestored : Text × FileOutcome → Bool
  | (_, .restored) => true
  | _ => false

theorem partition_outcomes {f : Text × FileOutcome → Bool} (hf : ∀ x, f x = wasRestored x)
    (outcomes : List (Text × FileOutcome)) :
    outcomes.partition f = (outcomes.filter wasRestored, outcomes.filter (!wasRestored ·)) := by
  rw [funext hf, List.partition_eq_filter_filter]
  rfl

/-- What restoring a record did, by what became of each entry. -/
def restoredBy (record : BackupRecord) (dryRun : Bool) (outcomes : List (Text × FileOutcome)) :
    Restored :=
  ⟨record.id, dryRun, (outcomes.filter wasRestored).map (·.1),
    (outcomes.filter (!wasRestored ·)).map (·.1)⟩

section

variable (hb : IsNormal b.project)
include hb

/-- Asking for a backup gives what is asked for, if its id is one. -/
theorem perform_get (id? : Option Text) (s : Session) :
    ∃ x notices, (b.get id?).perform s = (x, { s with notices }) ∧
      ∀ record, x = .ok record ↔ b.chosen s.tree id? = some record ∧ ∀ id ∈ id?, IsId id := by
  cases id? with
  | none =>
    simp only [get, Run.perform_bind, perform_list, chosen]
    cases hrecords : newestFirst (b.records s.tree).1 with
    | nil => exact ⟨_, _, rfl, by simp⟩
    | cons newest rest => exact ⟨_, _, rfl, by simp⟩
  | some id =>
    simp only [get, Run.perform_bind, discard_of, perform_list, chosen]
    cases hplace : b.place id with
    | error e =>
      have hnot : ¬ IsId id := fun hid => by
        rw [(place_eq_ok hb).mpr ⟨hid, rfl⟩] at hplace
        cases hplace
      exact ⟨_, _, rfl, by simp [hnot]⟩
    | ok path =>
      have hid : IsId id := ((place_eq_ok hb).mp hplace).1
      simp only [Except.map]
      cases hrecords : newestFirst (b.records s.tree).1 with
      | nil => exact ⟨_, _, rfl, by simp⟩
      | cons newest rest =>
        cases hfind : (newest :: rest).find? (·.id = id) with
        | none => exact ⟨_, _, by simp only [hfind]; rfl, by simp⟩
        | some record => exact ⟨_, _, by simp only [hfind]; rfl, by simp [hid]⟩

/-- What is asked for is restored if its id is one. Otherwise nothing is. -/
theorem perform_restore (id? : Option Text) (dryRun : Bool) (s : Session) :
    (∃ record source notices, b.chosen s.tree id? = some record ∧ b.place record.id = .ok source ∧
      (b.restore id? dryRun).perform s =
        (.ok (restoredBy record dryRun (b.restoreEach source dryRun s.tree record.files).2),
          { s with tree := (b.restoreEach source dryRun s.tree record.files).1, notices })) ∨
    ((∀ record, b.chosen s.tree id? = some record → ¬ IsId record.id) ∧
      ∃ e notices, (b.restore id? dryRun).perform s = (.error e, { s with notices })) := by
  obtain ⟨x, notices, hget, hx⟩ := perform_get hb id? s
  cases x with
  | error e =>
    refine Or.inr ⟨fun record hc hid => ?_, e, notices, ?_⟩
    · have hids : ∀ id ∈ id?, IsId id := by
        rintro id rfl
        exact id_of_chosen hc ▸ hid
      cases (hx record).mpr ⟨hc, hids⟩
    · simp only [restore, Run.perform_bind, hget]
  | ok record =>
    have hc := ((hx record).mp rfl).1
    cases hplace : b.place record.id with
    | error e =>
      refine Or.inr ⟨fun record' hc' hid => ?_, e, notices, ?_⟩
      · rw [hc, Option.some.injEq] at hc'
        rw [hc', (place_eq_ok hb).mpr ⟨hid, rfl⟩] at hplace
        cases hplace
      · simp only [restore, Run.perform_bind, hget, hplace, Run.perform_of]
    | ok source =>
      obtain ⟨noticed, hrun⟩ : ∃ noticed, (b.restore id? dryRun).perform s =
          (.ok (restoredBy record dryRun (b.restoreEach source dryRun s.tree record.files).2),
            { s with
              tree := (b.restoreEach source dryRun s.tree record.files).1
              notices := noticed }) := by
        simp only [restore, Run.perform_bind, hget, hplace, Run.perform_of, Run.perform_get,
          Run.perform_setTree, Run.perform_note, Run.perform_pure]
        rw [partition_outcomes fun ⟨_, outcome⟩ => by cases outcome <;> rfl]
        exact ⟨_, rfl⟩
      exact Or.inl ⟨record, source, noticed, hc, hplace, hrun⟩

/-- The path of what is in the directory of the backups. -/
theorem HasDirectory.locate_down (h : b.HasDirectory t B) (hns : ∀ n ∈ ns, IsName n)
    (hne : ns ≠ []) (hd : t.find? (B ++ ns.dropLast) = some .directory)
    (hl : ∀ target, t.find? (B ++ ns) ≠ some (.link target)) (fl : Bool) :
    t.locate fl b.cwd (b.below (directoryName :: ns)) = .ok (B ++ ns) := by
  have hbelow : b.below (directoryName :: ns) =
      write (root b.project) ((names b.project ++ [directoryName]) ++ ns) := by
    rw [below, List.append_assoc, List.singleton_append]
  rw [hbelow]
  exact Tree.locate_down h.wellFormed hb.isLead
    (isName_names hb (by simpa using isName_directoryName)) h.walk h.directory b.cwd hns hne hd hl
    fl

theorem HasDirectory.locate_directory (h : b.HasDirectory t B) :
    t.locate true b.cwd b.directory = .ok B := by
  have hname : ∀ n ∈ [directoryName], IsName n := by simpa using isName_directoryName
  rw [directory_eq hb, locate_normal (isNormal_below hb hname), names_below hb hname, h.walk]

/-- A directory with a record in it. -/
theorem HasDirectory.recordIn_eq (h : b.HasDirectory t B) (hid : IsId id)
    (hown : t.find? (B ++ [id]) = some .directory)
    (hrecord : t.find? (B ++ [id] ++ [recordName]) = some (.file bytes)) :
    b.recordIn t id = some (b.below [directoryName, id, recordName], BackupRecord.read bytes) := by
  have hchild : child (child b.directory id) recordName =
      b.below [directoryName, id, recordName] := by
    rw [child_directory hb hid, child_below_name hb (isName_pair hid) isName_recordName]
    rfl
  have hdir : t.isDirectory b.cwd (child b.directory id) = true := by
    rw [child_directory hb hid]
    refine isDirectory_iff.mpr ⟨B ++ [id], ?_, hown⟩
    exact h.locate_down hb (by simpa using hid.isName) (by simp) (by simpa using h.directory)
      (fun target => by simp [hown]) true
  have hlocate : t.locate true b.cwd (b.below [directoryName, id, recordName]) =
      .ok (B ++ [id, recordName]) := by
    refine h.locate_down hb (by simpa using ⟨hid.isName, isName_recordName⟩) (by simp)
      (by simpa using hown) ?_ true
    intro target
    rw [List.append_assoc, List.singleton_append] at hrecord
    rw [hrecord]
    simp
  rw [List.append_assoc, List.singleton_append] at hrecord
  have hfile := isFile_iff.mpr ⟨_, _, hlocate, hrecord⟩
  have hread := read_eq_ok.mpr ⟨_, hlocate, hrecord⟩
  rw [recordIn, hchild]
  simp only [hdir, hid.head, hfile, Bool.and_self, if_true, hread]

/-- The records that are found. -/
theorem HasDirectory.records_eq (h : b.HasDirectory t B) :
    (b.records t).1 = ((t.names B).filterMap (b.recordIn t)).filterMap (·.2.toOption) := by
  have hl := h.locate_directory hb
  have hdir : t.isDirectory b.cwd b.directory = true :=
    isDirectory_iff.mpr ⟨B, hl, h.directory⟩
  rewrite [records, hdir, hl]
  refine List.filterMap_congr fun x _ => ?_
  obtain ⟨path, e | record⟩ := x <;> rfl

theorem Kept.mem_records (hk : b.Kept t B record) : record ∈ (b.records t).1 := by
  rw [hk.records_eq hb, List.mem_filterMap]
  refine ⟨_, List.mem_filterMap.mpr ⟨record.id, mem_names.mpr ?_,
    hk.recordIn_eq hb hk.isId hk.own hk.record_eq⟩, ?_⟩
  · rw [hk.own]
    exact Option.some_ne_none _
  · rw [BackupRecord.read_write hk.plain]
    rfl

/-- A record is found by its id if no other one has it. -/
theorem Kept.chosen (hk : b.Kept t B record)
    (hunique : ∀ r ∈ (b.records t).1, r.id = record.id → r = record) :
    b.chosen t (some record.id) = some record := by
  have hmem : record ∈ newestFirst (b.records t).1 := List.mem_mergeSort.mpr (hk.mem_records hb)
  rw [Backups.chosen]
  cases hf : (newestFirst (b.records t).1).find? (·.id = record.id) with
  | none =>
    have := List.find?_eq_none.mp hf record hmem
    simp at this
  | some r =>
    have hid := List.find?_some hf
    rw [decide_eq_true_eq] at hid
    rw [hunique r (List.mem_mergeSort.mp (List.mem_of_find?_eq_some hf)) hid]

/-- A file copied back from a backup that is kept. -/
theorem Kept.restoreFile_eq (hk : b.Kept t B record)
    (hf : b.KeptFile t (B ++ [record.id]) ns D bytes) :
    b.restoreFile (b.below [directoryName, record.id]) false t (Text.join [slash] ns) =
      (t.set D (.file bytes), .restored) := by
  have hpair := isName_pair hk.isId
  have hns := hf.isName
  have hsource : t.locate true b.cwd (b.below ([directoryName, record.id] ++ ns)) =
      .ok (B ++ [record.id] ++ ns) := by
    rw [List.append_assoc, List.singleton_append, List.cons_append, List.singleton_append]
    refine hk.locate_down hb ?_ (by simp) ?_ (fun target => ?_) true
    · intro n hn
      rcases List.mem_cons.mp hn with rfl | hn
      · exact hk.isId.isName
      · exact hns n hn
    · obtain ⟨m, ms, rfl⟩ := List.exists_cons_of_ne_nil hf.ne_nil
      have hlast := List.dropLast_append_getLast (List.cons_ne_nil m ms)
      have habove : t.find? (B ++ [record.id] ++ (m :: ms).dropLast) = some .directory := by
        refine hk.wellFormed.above _ ((m :: ms).getLast (List.cons_ne_nil m ms)) ?_
        rw [List.append_assoc, hlast, hf.copied]
        exact Option.some_ne_none _
      rw [List.dropLast_cons_of_ne_nil (List.cons_ne_nil m ms)]
      simpa using habove
    · have hcopied := hf.copied
      rw [List.append_assoc, List.singleton_append] at hcopied
      rw [hcopied]
      simp
  have htarget : t.locate true b.cwd (b.below ns) = .ok D := by
    rw [locate_normal (isNormal_below hb hns), names_below hb hns, hf.walk]
  have hparent : t.isDirectory b.cwd (parent (b.below ns)) = true := by
    have hdrop : ∀ n ∈ ns.dropLast, IsName n := fun n hn => hns n (List.dropLast_subset ns hn)
    have hwalk := hf.walk
    rw [← List.dropLast_append_getLast hf.ne_nil, ← List.append_assoc] at hwalk
    obtain ⟨mid, hmid, hdir⟩ := walk_split hk.wellFormed rfl (by simp) hwalk
    rw [parent_below hb hns hf.ne_nil]
    refine isDirectory_iff.mpr ⟨mid, ?_, hdir⟩
    rw [locate_normal (isNormal_below hb hdrop), names_below hb hdrop, hmid]
  have hmade : t.makeDirectories b.cwd (parent (b.below ns)) true = .ok t := by
    refine makeDirectories_of_isDirectory hk.wellFormed ?_ hparent
    rw [parent_below hb hns hf.ne_nil]
    exact isNormal_below hb fun n hn => hns n (List.dropLast_subset ns hn)
  have hcopy := copy_eq_ok hsource hf.copied htarget hf.free fun h => hf.outside ns h.symm
  have hrelative := relative?_eq hb (isNormal_below hb hns) hns hf.ne_nil (names_below hb hns)
  have hfile := isFile_iff.mpr ⟨_, _, hsource, hf.copied⟩
  rw [restoreFile, child_below hb hpair hns, child_project hb hns]
  simp only [hrelative, Option.isNone_some, hfile, Bool.not_true, Bool.or_self, copyFile, hmade,
    hcopy]
  rfl

/-- What copying a file back changes. -/
theorem Kept.set (hk : b.Kept t B record)
    (hf : b.KeptFile t (B ++ [record.id]) ns D bytes) :
    let u := t.set D (.file bytes)
    b.Kept u B record ∧ t.SameWays u ∧
      ∀ q, u.find? q = if q = D then some (.file bytes) else t.find? q := by
  intro u
  have hne : D ≠ [] := by
    rintro rfl
    exact hf.free rfl
  have hset : ∀ q, u.find? q = if q = D then some (.file bytes) else t.find? q :=
    fun q => find?_set hne _ q
  have hwf : u.WellFormed := by
    rcases walk_result hk.wellFormed (isSteps_of_isName (isName_names hb hf.isName)) rfl hf.walk
      with hdir | ⟨D', n, heq, hn, hdir⟩
    · exact absurd hdir hf.free
    · have hfree := hf.free
      rw [heq] at hfree
      show (t.set D _).WellFormed
      rw [heq]
      exact hk.wellFormed.set hdir hn fun h => absurd h hfree
  have hways : t.SameWays u := by
    intro q
    by_cases hq : q = D
    · have hold : t.way D = none := by
        cases hD : t.find? D with
        | none => exact way_missing hD
        | some e =>
          cases e with
          | file old => exact way_file hD
          | directory => exact absurd hD hf.free
          | link target => exact absurd hD (walk_ne_link rfl hk.wellFormed hf.walk target)
      rw [hq, hold]
      exact way_file (by rw [hset, if_pos rfl])
    · exact way_of_find? (by rw [hset, if_neg hq])
  refine ⟨hk.of_sameWays hwf hways fun ms => ?_, hways, hset⟩
  rw [hset, if_neg fun h => hf.outside ms h.symm]

/-- All files are copied back: each place that a name leads to holds what was copied under one of
the names that lead there, and nothing else is changed. -/
theorem Kept.restoreEach_eq (hk : b.Kept t B record) {files : List Text}
    (hfiles : ∀ name ∈ files, name ∈ record.files) :
    ∃ u, b.restoreEach (b.below [directoryName, record.id]) false t files =
        (u, files.map (·, .restored)) ∧ b.Kept u B record ∧ t.SameWays u ∧
      ∀ q, (u.find? q = t.find? q ∧ ∀ ns bytes, Text.join [slash] ns ∈ files →
          ¬ b.KeptFile t (B ++ [record.id]) ns q bytes) ∨
        ∃ ns bytes, Text.join [slash] ns ∈ files ∧
          b.KeptFile t (B ++ [record.id]) ns q bytes ∧ u.find? q = some (.file bytes) := by
  induction files generalizing t with
  | nil => exact ⟨t, rfl, hk, fun _ => rfl, fun q => Or.inl ⟨rfl, by simp⟩⟩
  | cons name files ih =>
    obtain ⟨ns, D, bytes, rfl, hf⟩ := hk.files name (hfiles name List.mem_cons_self)
    obtain ⟨hkv, hways, hset⟩ := hk.set hb hf
    obtain ⟨u, heach, hku, hways', hplaces⟩ :=
      ih hkv fun name hname => hfiles name (List.mem_cons_of_mem _ hname)
    have hcopies : ∀ ms, (t.set D (.file bytes)).find? (B ++ [record.id] ++ ms) =
        t.find? (B ++ [record.id] ++ ms) := fun ms => by
      rw [hset, if_neg fun h => hf.outside ms h.symm]
    refine ⟨u, ?_, hku, fun q => (hways' q).trans (hways q), fun q => ?_⟩
    · rw [restoreEach, hk.restoreFile_eq hb hf]
      dsimp only
      rw [heach]
      rfl
    rcases hplaces q with ⟨hsame, hnone⟩ | ⟨ms, bytes', hmem, hf', hq⟩
    · by_cases hqD : q = D
      · refine Or.inr ⟨ns, bytes, List.mem_cons_self, hqD ▸ hf, ?_⟩
        rw [hsame, hset, if_pos hqD]
      · refine Or.inl ⟨by rw [hsame, hset, if_neg hqD], fun ms bytes' hmem hf' => ?_⟩
        rcases List.mem_cons.mp hmem with heq | hmem
        · exact hqD (hf'.unique hf heq).1
        · exact hnone ms bytes' hmem (hf'.of_sameWays hways hcopies)
    · exact Or.inr ⟨ms, bytes', List.mem_cons_of_mem _ hmem,
        hf'.of_sameWays hways.symm fun ms => (hcopies ms).symm, hq⟩

omit hb in
theorem restoredBy_restored (record : BackupRecord) (files : List Text) :
    restoredBy record dryRun (files.map (·, .restored)) =
      { id := record.id, dryRun := dryRun, files := files } := by
  have hall : (files.map (·, FileOutcome.restored)).filter wasRestored =
      files.map (·, .restored) := List.filter_eq_self.mpr (by simp [wasRestored])
  have hnone : (files.map (·, FileOutcome.restored)).filter (!wasRestored ·) = [] :=
    List.filter_eq_nil_iff.mpr (by simp [wasRestored])
  rw [restoredBy, hall, hnone, List.map_map, List.map_nil]
  simp only [Function.comp_def, List.map_id']

/-- A backup that is kept, and whose id no other record has, is restored. -/
theorem Kept.perform_restore (hk : b.Kept s.tree B record)
    (hunique : ∀ r ∈ (b.records s.tree).1, r.id = record.id → r = record) :
    ∃ u notices, (b.restore (some record.id) false).perform s =
        (.ok { id := record.id, dryRun := false, files := record.files },
          { s with tree := u, notices }) ∧
      u.WellFormed ∧ s.tree.SameWays u ∧
      ∀ q, (u.find? q = s.tree.find? q ∧ ∀ ns bytes, Text.join [slash] ns ∈ record.files →
          ¬ b.KeptFile s.tree (B ++ [record.id]) ns q bytes) ∨
        ∃ ns bytes, Text.join [slash] ns ∈ record.files ∧
          b.KeptFile s.tree (B ++ [record.id]) ns q bytes ∧ u.find? q = some (.file bytes) := by
  obtain ⟨u, heach, hku, hways, hplaces⟩ := hk.restoreEach_eq hb fun _ h => h
  have hchosen := hk.chosen hb hunique
  rcases Backups.perform_restore hb (some record.id) false s with
    ⟨r, source, notices, hc, hplace, hrun⟩ | ⟨hnot, -⟩
  · obtain rfl : record = r := Option.some.inj (hchosen.symm.trans hc)
    obtain rfl := ((place_eq_ok hb).mp hplace).2
    rw [heach, restoredBy_restored] at hrun
    exact ⟨u, notices, hrun, hku.wellFormed, hways, hplaces⟩
  · exact absurd hk.isId (hnot record hchosen)

end

end Backups
end ModuleGraph
