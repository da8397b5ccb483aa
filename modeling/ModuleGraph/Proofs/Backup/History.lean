import ModuleGraph.Proofs.Backup.Store
import Mathlib.Data.List.Perm.Basic

/-!
What is in the store of the backups after any run of it.

* `History`: backups are made and deleted, some of that fails, and the project is edited between;
* `Stored`: what every step keeps (`Stored.outside`, `Stored.create_eq_ok`,
  `Stored.create_eq_error`, `Stored.delete_eq_ok`);
* `History.stored`: so it holds after every history;
* `exists_newestFirst`: the order of the list is that of the moments;
* `list_history`: the list has what was made and not deleted, the latest first.
-/

namespace ModuleGraph
namespace Backups

open ModuleGraph.Path ModuleGraph.Tree

variable {b : Backups} {s s' : Session} {t u : Tree} {P B : Place} {id : Text} {fault : Fault}
  {record : BackupRecord} {live : List (Moment × BackupRecord)} {settings : Settings}
  {description : Text}

/-- An edit of the project outside of its backups. -/
structure Outside (b : Backups) (P : Place) (t u : Tree) : Prop where
  project : b.HasProject u P
  store_eq : ∀ ns, u.find? (store P ++ ns) = t.find? (store P ++ ns)
  no_directory : t.isDirectory b.cwd b.directory = false →
    u.isDirectory b.cwd b.directory = false

/-- What is done to the backups of the project at `P`, and the backups that were made since and not
deleted, each with the moment that the clock showed. Between two steps the clock may be set. -/
inductive History (b : Backups) (P : Place) : Session → List (Moment × BackupRecord) → Prop
  | start {s : Session} (hproject : b.HasProject s.tree P)
      (hnone : s.tree.isDirectory b.cwd b.directory = false) : History b P s []
  | edit {s s' : Session} {live : List (Moment × BackupRecord)} (h : History b P s live)
      (hedit : b.Outside P s.tree s'.tree) : History b P s' live
  | create {s s' : Session} {live : List (Moment × BackupRecord)} (h : History b P s live)
      (settings : Settings) (description : Text) {record : BackupRecord}
      (hclock : s.clock.tick.1.IsValid)
      (hcreate : (b.create settings description).perform s = (.ok record, s')) :
      History b P s' ((s.clock.tick.1, record) :: live)
  | createFailed {s s' : Session} {live : List (Moment × BackupRecord)} (h : History b P s live)
      (settings : Settings) (description : Text) {fault : Fault}
      (hcreate : (b.create settings description).perform s = (.error fault, s')) :
      History b P s' live
  | delete {s s' : Session} {live : List (Moment × BackupRecord)} (h : History b P s live)
      (id : Text) (hdelete : (b.delete id).perform s = (.ok (), s')) :
      History b P s' (live.filter (·.2.id ≠ id))
  | deleteFailed {s s' : Session} {live : List (Moment × BackupRecord)} (h : History b P s live)
      (id : Text) {fault : Fault} (hdelete : (b.delete id).perform s = (.error fault, s')) :
      History b P s' live

/-- The project with a directory of backups, or without one. -/
structure Stored (b : Backups) (t : Tree) (P : Place) (live : List (Moment × BackupRecord)) : Prop
    extends HasProject b t P where
  contents : t.isDirectory b.cwd b.directory = false ∧ live = [] ∨
    t.find? (store P) = some .directory ∧ Contents t (store P) live

theorem Stored.outside (h : b.Stored t P live) (hedit : b.Outside P t u) : b.Stored u P live := by
  refine ⟨hedit.project, h.contents.imp (And.imp_left hedit.no_directory) fun ⟨hdir, hc⟩ => ?_⟩
  have hstore := hedit.store_eq []
  rw [List.append_nil] at hstore
  exact ⟨hstore.trans hdir, hc.frame hedit.store_eq⟩

theorem perform_delete (b : Backups) (id : Text) (s : Session) : (b.delete id).perform s =
    match b.place id with
    | .error e => (.error e, s)
    | .ok target =>
      if s.tree.isDirectory b.cwd target then
        match s.tree.removeDirectory b.cwd target with
        | .error e => (.error (.backupNotDeleted id e), s)
        | .ok t => (.ok (), { s with tree := t, notices := s.notices ++ [.backupDeleted id] })
      else (.error (.backupMissing id), s) := by
  simp only [delete, Run.perform_bind, Run.perform_of, Run.perform_get]
  cases b.place id with
  | error e => rfl
  | ok target =>
    dsimp only
    cases s.tree.isDirectory b.cwd target with
    | false => rfl
    | true =>
      cases s.tree.removeDirectory b.cwd target with
      | error e => rfl
      | ok t => rfl

/-- A backup that is not deleted is left as it was. -/
theorem tree_of_delete_eq_error (h : (b.delete id).perform s = (.error fault, s')) : s' = s := by
  rw [perform_delete] at h
  split at h
  · cases h
    rfl
  · split at h
    · split at h
      · cases h
        rfl
      · cases h
    · cases h
      rfl

section

variable (hb : IsNormal b.project)
include hb

/-- The directory of a new backup is in that of the backups, which had no other backups than those
that are known. -/
theorem Stored.fresh (h : b.Stored t P live) {t₁ : Tree} {T : Place} (hgrown : Grown t t₁)
    (hT : b.Fresh t₁ id T)
    (hmake : t.makeDirectories b.cwd (child b.directory id) false = .ok t₁) :
    T = store P ++ [id] ∧ Contents t₁ (store P) live ∧ b.HasProject t₁ P ∧
      t₁.find? (store P) = some .directory := by
  have hold : Contents t (store P) live ∧
      (t.find? (store P) = none ∨ t.find? (store P) = some .directory) := by
    rcases h.contents with ⟨hnone, rfl⟩ | ⟨hdir, hc⟩
    · have hmissing := h.find?_store hb hT.isId hnone hmake
      exact ⟨.of_missing h.wellFormed hmissing, Or.inl hmissing⟩
    · exact ⟨hc, Or.inr hdir⟩
  have hc := hold.1.grow hgrown
  have hproject : b.HasProject t₁ P :=
    h.toHasProject.of_frame hgrown.wellFormed fun q _ hq => hgrown.find? hq
  obtain ⟨B, rfl, hB⟩ := hT.last
  have hstore : t₁.walk true maxLinks [] (names b.project ++ [directoryName]) = .ok (store P) :=
    hproject.walk_store fun _ target => by
      have hlink := hc.no_link [] target
      rwa [List.append_nil] at hlink
  obtain rfl := Except.ok.inj (hstore.symm.trans hB)
  refine ⟨rfl, hc, hproject, hT.wellFormed.above _ id ?_⟩
  rw [hT.directory]
  exact Option.some_ne_none _

/-- A backup that is made is one more. -/
theorem Stored.create_eq_ok (h : b.Stored s.tree P live) (hcwd : isAbsolute b.cwd = true)
    (hclock : s.clock.tick.1.IsValid)
    (hcreate : (b.create settings description).perform s = (.ok record, s')) :
    b.Stored s'.tree P ((s.clock.tick.1, record) :: live) := by
  obtain ⟨hid, htime, t₁, T, root, scan, hmake, hgrown, -, hT, -, -, hm⟩ :=
    Backups.create_eq_ok hb hcwd h.wellFormed hcreate
  obtain ⟨rfl, hc, hproject, hdir⟩ := h.fresh hb hgrown hT hmake
  have hkept : ∀ q, t₁.find? q ≠ none → s'.tree.find? q = t₁.find? q := fun q hq => hm.find? hT hq
  refine ⟨hproject.of_frame hm.wellFormed fun q _ => hkept q, Or.inr ⟨?_, ?_⟩⟩
  · rw [hkept _ (by rw [hdir]; exact Option.some_ne_none _), hdir]
  · exact hc.made hT rfl hm hclock hid htime

/-- A backup that is not made is none. -/
theorem Stored.create_eq_error (h : b.Stored s.tree P live) (hcwd : isAbsolute b.cwd = true)
    (hcreate : (b.create settings description).perform s = (.error fault, s')) :
    b.Stored s'.tree P live := by
  rcases Backups.create_eq_error hb hcwd h.wellFormed hcreate with
    ⟨-, -, htree⟩ | ⟨t₁, T, hmake, hgrown, hT, hcopying, hrecord⟩
  · rwa [htree]
  · obtain ⟨rfl, hc, hproject, hdir⟩ := h.fresh hb hgrown hT hmake
    have hkept : ∀ q, t₁.find? q ≠ none → s'.tree.find? q = t₁.find? q :=
      fun q hq => hcopying.find? hT hq
    refine ⟨hproject.of_frame hcopying.wellFormed fun q _ => hkept q, Or.inr ⟨?_, ?_⟩⟩
    · rw [hkept _ (by rw [hdir]; exact Option.some_ne_none _), hdir]
    · exact hc.failed hT hcopying hrecord

/-- Without a directory of backups there is none of a backup. -/
theorem isDirectory_below_eq_false (ht : t.WellFormed) (hid : IsId id)
    (h : t.isDirectory b.cwd b.directory = false) :
    t.isDirectory b.cwd (b.below [directoryName, id]) = false := by
  have hname : ∀ n ∈ [directoryName], IsName n := by simpa using isName_directoryName
  have hpair := isName_pair hid
  rw [← Bool.not_eq_true, isDirectory_iff] at h ⊢
  rintro ⟨p, hp, -⟩
  have hsplit : names b.project ++ [directoryName, id] =
      (names b.project ++ [directoryName]) ++ [id] := by simp
  rw [locate_normal (isNormal_below hb hpair), names_below hb hpair, hsplit] at hp
  obtain ⟨mid, hmid, hdir⟩ := walk_split ht rfl (by simp) hp
  refine h ⟨mid, ?_, hdir⟩
  rw [directory_eq hb, locate_normal (isNormal_below hb hname), names_below hb hname, hmid]

/-- A backup that is deleted is gone, and it alone. -/
theorem Stored.delete_eq_ok (h : b.Stored s.tree P live)
    (hdelete : (b.delete id).perform s = (.ok (), s')) :
    b.Stored s'.tree P (live.filter (·.2.id ≠ id)) := by
  rw [perform_delete] at hdelete
  split at hdelete
  · cases hdelete
  rename_i target hplace
  obtain ⟨hid, rfl⟩ := (place_eq_ok hb).mp hplace
  split at hdelete
  case isFalse => cases hdelete
  rename_i hisdir
  split at hdelete
  · cases hdelete
  rename_i t hremove
  cases hdelete
  rcases h.contents with ⟨hnone, -⟩ | ⟨hdir, hc⟩
  · rw [isDirectory_below_eq_false hb h.wellFormed hid hnone] at hisdir
    cases hisdir
  have hstore := h.hasDirectory hdir
  have hl : s.tree.locate false b.cwd (b.below [directoryName, id]) = .ok (store P ++ [id]) :=
    hstore.locate_down hb (by simpa using hid.isName) (by simp) (by simpa using hdir)
      (fun target => hc.no_link _ target) false
  obtain rfl : s.tree.remove (store P ++ [id]) = t := by
    rw [removeDirectory, hl] at hremove
    dsimp only at hremove
    split at hremove
    · exact Except.ok.inj hremove
    all_goals cases hremove
  have hne : store P ++ [id] ≠ [] := by simp
  have hframe : ∀ q, ¬ store P ++ [id] <+: q →
      (s.tree.remove (store P ++ [id])).find? q = s.tree.find? q := fun q hq => by
    rw [find?_remove hne, if_neg hq]
  refine ⟨h.toHasProject.of_frame (h.wellFormed.remove hne) fun q hq _ => hframe q fun hpre =>
    hq ((List.prefix_append _ _).trans hpre), Or.inr ⟨?_, hc.remove id⟩⟩
  rw [hframe _ fun hpre => ?_, hdir]
  have hlen := hpre.length_le
  rw [List.length_append, List.length_singleton] at hlen
  omega

/-- What every step keeps holds after every history. -/
theorem History.stored (hcwd : isAbsolute b.cwd = true) (h : b.History P s live) :
    b.Stored s.tree P live := by
  induction h with
  | start hproject hnone => exact ⟨hproject, Or.inl ⟨hnone, rfl⟩⟩
  | edit _ hedit ih => exact ih.outside hedit
  | create _ settings description hclock hcreate ih => exact ih.create_eq_ok hb hcwd hclock hcreate
  | createFailed _ settings description hcreate ih => exact ih.create_eq_error hb hcwd hcreate
  | delete _ id hdelete ih => exact ih.delete_eq_ok hb hdelete
  | deleteFailed _ id hdelete ih => rwa [tree_of_delete_eq_error hdelete]

theorem Stored.perm_records (h : b.Stored t P live) : (b.records t).1.Perm (live.map (·.2)) := by
  rcases h.contents with ⟨hnone, rfl⟩ | ⟨hdir, hc⟩
  · rw [records, hnone]
    exact .nil
  · exact hc.perm_records hb (h.hasDirectory hdir)

end

/-- Items that were mapped and put into another order come from items in another order. -/
theorem exists_of_perm_map {α β : Type} {f : α → β} {xs : List α} {ys : List β}
    (h : ys.Perm (xs.map f)) : ∃ zs : List α, ys = zs.map f ∧ zs.Perm xs := by
  have hmap : List.Forall₂ (fun y x => y = f x) (xs.map f) xs := by
    rw [List.forall₂_map_left_iff]
    exact List.forall₂_same.mpr fun _ _ => rfl
  obtain ⟨zs, hzs, hperm⟩ := List.perm_comp_forall₂ h hmap
  exact ⟨zs, List.forall₂_eq_eq_eq ▸ List.forall₂_map_right_iff.mpr hzs, hperm⟩

theorem pairwise_newestFirst (records : List BackupRecord) :
    (newestFirst records).Pairwise fun r r' => Text.le r'.timestamp r.timestamp = true :=
  List.pairwise_mergeSort
    (fun r r' r'' h h' => Text.le_trans r''.timestamp r'.timestamp r.timestamp h' h)
    (fun r r' => Text.le_total r'.timestamp r.timestamp) records

/-- The order of the timestamps is that of the moments. -/
theorem Contents.exists_newestFirst {records : List BackupRecord} (h : Contents t B live)
    (hperm : records.Perm (live.map (·.2))) : ∃ latest : List (Moment × BackupRecord),
      newestFirst records = latest.map (·.2) ∧ latest.Perm live ∧
        latest.Pairwise fun x y => y.1.Before x.1 := by
  obtain ⟨latest, heq, hlatest⟩ := exists_of_perm_map ((List.mergeSort_perm _ _).trans hperm)
  have hsorted := pairwise_newestFirst records
  rw [newestFirst, heq, List.pairwise_map] at hsorted
  have hdistinct : latest.Pairwise fun x y => x.1 ≠ y.1 :=
    (hlatest.pairwise_iff fun hne => hne.symm).mpr h.distinct
  refine ⟨latest, heq, hlatest, (hsorted.and hdistinct).imp_of_mem ?_⟩
  rintro x y hx hy ⟨hle, hne⟩
  have hx := h.backup x (hlatest.subset hx)
  have hy := h.backup y (hlatest.subset hy)
  rw [Text.le_iff, hx.timestamp_eq, hy.timestamp_eq] at hle
  rcases Moment.before_trichotomy x.1 y.1 with hlt | heq | hlt
  · exact absurd (Moment.iso_lt hx.valid hy.valid hlt) hle
  · exact absurd heq hne
  · exact hlt

/-- At the moment of a backup that is there no other one is made. -/
theorem Stored.create_taken (hb : IsNormal b.project) (h : b.Stored s.tree P live)
    {x : Moment × BackupRecord} (hx : x ∈ live) (hclock : s.clock.tick.1 = x.1)
    (settings : Settings) (description : Text) :
    (b.create settings description).perform s =
      (.error (.backupNotCreated (child b.directory x.2.id) .exists),
        { s with clock := s.clock.tick.2 }) := by
  rcases h.contents with ⟨-, rfl⟩ | ⟨hdir, hc⟩
  · cases hx
  have hbackup := hc.backup x hx
  have htaken := (h.hasDirectory hdir).makeDirectories_taken hb hbackup.isId
    (hbackup.own h.wellFormed)
  obtain ⟨commit, notices, -, hcreate⟩ := perform_create b settings description s
  rw [hcreate]
  dsimp only
  rw [hclock, ← hbackup.id_eq, htaken]

/-- After every history the list has the backups that were made and not deleted since, each as it
was when it was made, and the latest first. At the moment of one of them no other backup is made,
and what fails, fails without a change of the tree. -/
theorem list_history {settings : Settings} {cwd : Text} {P : Place} {s : Session}
    {live : List (Moment × BackupRecord)} (hcwd : isAbsolute cwd = true)
    (h : (ofSettings settings cwd).History P s live) :
    let b := ofSettings settings cwd
    (∃ (latest : List (Moment × BackupRecord)) (s' : Session),
      b.list.perform s = (.ok (latest.map (·.2)), s') ∧ s'.tree = s.tree ∧ latest.Perm live ∧
        latest.Pairwise fun x y => y.1.Before x.1) ∧
    (∀ x ∈ live, s.clock.tick.1 = x.1 → ∀ (settings : Settings) (description : Text),
      ∃ cause s', (b.create settings description).perform s =
          (.error (.backupNotCreated (child b.directory x.2.id) cause), s') ∧
        s'.tree = s.tree) ∧
    ∀ id fault s', (b.delete id).perform s = (.error fault, s') → s'.tree = s.tree := by
  intro b
  have hb : IsNormal b.project := isNormal_absolute hcwd settings.projectRoot
  have hstored := h.stored hb hcwd
  refine ⟨?_, fun x hx hclock settings description => ?_, fun id fault s' hdelete => ?_⟩
  · have hperm := hstored.perm_records hb
    have hlist := perform_list b s
    rcases hstored.contents with ⟨-, rfl⟩ | ⟨-, hc⟩
    · rw [List.map_nil, List.perm_nil] at hperm
      rw [hperm, newestFirst, List.mergeSort_nil] at hlist
      exact ⟨[], _, hlist, rfl, .nil, .nil⟩
    · obtain ⟨latest, heq, hlatest, hsorted⟩ := hc.exists_newestFirst hperm
      rw [heq] at hlist
      exact ⟨latest, _, hlist, rfl, hlatest, hsorted⟩
  · exact ⟨_, _, hstored.create_taken hb hx hclock settings description, rfl⟩
  · rw [tree_of_delete_eq_error hdelete]

theorem hasProject_sample : sampleBackups.HasProject sample.tree ["p"] where
  wellFormed := by decide
  directory := rfl
  walk := by cbv

/-- A backup, and the clock set back to the moment of it. -/
theorem list_history_sample : ∃ record s₁ s₂,
    (sampleBackups.create {} []).perform sample = (.ok record, s₁) ∧
    sampleBackups.History ["p"] s₂ [(.start, record)] ∧ s₂.clock = sample.clock ∧
    (∃ s', sampleBackups.list.perform s₂ = (.ok [record], s')) ∧
    ∃ cause s', (sampleBackups.create {} []).perform s₂ =
        (.error (.backupNotCreated (child sampleBackups.directory record.id) cause), s') ∧
      s'.tree = s₂.tree := by
  obtain ⟨record, s₁, hcreate, hid, -⟩ := create_sample []
  have hcwd : isAbsolute sample.cwd = true := by decide
  have hclock : sample.clock.tick.1.IsValid := by
    refine ⟨?_, ?_, ?_, ?_, ?_, ?_, ?_⟩ <;> decide
  have hnone : sample.tree.isDirectory sampleBackups.cwd sampleBackups.directory = false := by cbv
  have hmade := (History.start hasProject_sample hnone).create {} [] hclock hcreate
  have hproject := (hmade.stored isNormal_sample hcwd).toHasProject
  let s₂ : Session := { s₁ with clock := sample.clock }
  have hhistory : sampleBackups.History ["p"] s₂ [(.start, record)] :=
    hmade.edit ⟨hproject, fun _ => rfl, id⟩
  obtain ⟨⟨latest, s', hlist, -, hperm, -⟩, htaken, -⟩ := list_history hcwd hhistory
  rw [List.perm_singleton.mp hperm] at hlist
  exact ⟨record, s₁, s₂, hcreate, hhistory, rfl, ⟨s', hlist⟩,
    htaken _ List.mem_cons_self rfl {} []⟩

end Backups
end ModuleGraph
