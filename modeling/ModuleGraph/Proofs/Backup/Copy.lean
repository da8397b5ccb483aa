import ModuleGraph.Proofs.Backup.Place
import ModuleGraph.Proofs.Files.Scan

/-!
Copying files into the directory of a backup.

* `Finds`: the names below the project lead to an entry, without a link on the way;
* `Listed`, `Fresh`: a path that is to be copied, and the new directory;
* `Copying`: a tree in which some files have been copied, everything else being as it was;
* `copyFile_listed`, `copyAll_listed`: copying a file, and all of them, does not fail.
-/

namespace ModuleGraph
namespace Backups

open ModuleGraph.Path ModuleGraph.Tree

variable {b : Backups} {t t₁ u : Tree} {T p q : Place} {ns ms : List Text} {path id : Text}
  {e e' : Entry} {bytes : Bytes}

/-- Some names below the project lead to an entry. -/
def Finds (b : Backups) (t : Tree) (ns : List Text) (e : Entry) : Prop :=
  ∃ p, t.walk true maxLinks [] (names b.project ++ ns) = .ok p ∧ t.find? p = some e

theorem Finds.unique (h : b.Finds t ns e) (h' : b.Finds t ns e') : e = e' := by
  obtain ⟨p, hp, hf⟩ := h
  obtain ⟨q, hq, hf'⟩ := h'
  rw [hp, Except.ok.injEq] at hq
  rw [hq, hf'] at hf
  exact (Option.some.inj hf).symm

/-- Above what the names lead to there are directories. -/
theorem Finds.above (ht : t.WellFormed) (h : b.Finds t ns e) (hms : ms <+: ns) (hne : ms ≠ ns) :
    b.Finds t ms .directory := by
  obtain ⟨rest, rfl⟩ := hms
  obtain ⟨p, hp, -⟩ := h
  have hrest : rest ≠ [] := by
    rintro rfl
    exact hne (List.append_nil ms).symm
  rw [← List.append_assoc] at hp
  obtain ⟨mid, hmid, hdir⟩ := walk_split ht rfl hrest hp
  exact ⟨mid, hmid, hdir⟩

theorem Finds.ne_link (ht : t.WellFormed) (h : b.Finds t ns e) (target : Text) :
    e ≠ .link target := by
  obtain ⟨p, hp, hf⟩ := h
  rintro rfl
  exact walk_ne_link rfl ht hp target hf

/-- A file that is to be backed up, by its names below the project. -/
structure Listed (b : Backups) (t : Tree) (path : Text) (ns : List Text) : Prop where
  normal : IsNormal path
  ne_nil : ns ≠ []
  names_eq : names path = names b.project ++ ns
  isFile : t.isFile b.cwd path = true

theorem Listed.isName (h : b.Listed t path ns) : ∀ n ∈ ns, IsName n := fun n hn =>
  h.normal.isName n (h.names_eq ▸ List.mem_append_right _ hn)

theorem Listed.finds (h : b.Listed t path ns) : ∃ bytes, b.Finds t ns (.file bytes) := by
  obtain ⟨p, bytes, hl, hf⟩ := isFile_iff.mp h.isFile
  rw [locate_normal h.normal, h.names_eq] at hl
  exact ⟨bytes, p, hl, hf⟩

/-- A tree in which some files have been copied below the directory at `T`. -/
structure Copying (b : Backups) (t₁ t : Tree) (T : Place) : Prop where
  wellFormed : t.WellFormed
  outside : ∀ q, (∀ ns, ns ≠ [] → q ≠ T ++ ns) → t.find? q = t₁.find? q
  inside : ∀ ns e, ns ≠ [] → t.find? (T ++ ns) = some e → b.Finds t₁ ns e

/-- The directory of a new backup: nothing is in it yet. -/
structure Fresh (b : Backups) (t₁ : Tree) (id : Text) (T : Place) : Prop where
  wellFormed : t₁.WellFormed
  isId : IsId id
  walk : t₁.walk true maxLinks [] (names b.project ++ [directoryName, id]) = .ok T
  last : ∃ B, T = B ++ [id] ∧ t₁.walk true maxLinks [] (names b.project ++ [directoryName]) = .ok B
  directory : t₁.find? T = some .directory
  empty : ∀ ns, ns ≠ [] → t₁.find? (T ++ ns) = none

section

variable (hb : IsNormal b.project) (hT : b.Fresh t₁ id T)
include hT

theorem Fresh.copying : b.Copying t₁ t₁ T where
  wellFormed := hT.wellFormed
  outside _ _ := rfl
  inside ns e hne hf := by
    rw [hT.empty ns hne] at hf
    cases hf

/-- What is there is not below the new directory. -/
theorem Fresh.not_below (hq : t₁.find? q ≠ none) : ∀ ns, ns ≠ [] → q ≠ T ++ ns := by
  rintro ns hne rfl
  exact hq (hT.empty ns hne)

theorem Copying.find? (hc : b.Copying t₁ t T) (hq : t₁.find? q ≠ none) : t.find? q = t₁.find? q :=
  hc.outside q (hT.not_below hq)

theorem Copying.leads (hc : b.Copying t₁ t T) : t₁.Leads t := by
  intro q e hq
  have hf := (way_eq_some.mp hq).1
  rwa [way_of_find? (hc.find? hT (by rw [hf]; exact Option.some_ne_none _))]

theorem Copying.walk (hc : b.Copying t₁ t T) :
    t.walk true maxLinks [] (names b.project ++ [directoryName, id]) = .ok T := by
  refine walk_leads (hc.leads hT) hT.walk fun hway => ?_
  rw [way_directory hT.directory] at hway
  cases hway

theorem Copying.directory (hc : b.Copying t₁ t T) : t.find? T = some .directory :=
  (hc.leads hT).find?_directory hT.directory

omit hT in
/-- A path of the backup, by the names that lead to its directory and the ones after them. -/
theorem below_append (ns : List Text) : b.below ([directoryName, id] ++ ns) =
    write (root b.project) ((names b.project ++ [directoryName, id]) ++ ns) := by
  rw [below, List.append_assoc]

theorem Fresh.isName_append (hns : ∀ n ∈ ns, IsName n) :
    ∀ n ∈ [directoryName, id] ++ ns, IsName n :=
  fun n hn => (List.mem_append.mp hn).elim (isName_pair hT.isId n) (hns n)

/-- Names above those of a listed file lead to directories. -/
theorem Fresh.above (hl : b.Listed t₁ path ns) (hms : ms <+: ns.dropLast) :
    ms ≠ ns ∧ b.Finds t₁ ms .directory := by
  have hne : ms ≠ ns := by
    rintro rfl
    have hlen := hms.length_le
    rw [List.length_dropLast] at hlen
    have := List.length_pos_of_ne_nil hl.ne_nil
    omega
  obtain ⟨bytes, hfinds⟩ := hl.finds
  exact ⟨hne, hfinds.above hT.wellFormed (hms.trans (List.dropLast_prefix ns)) hne⟩

include hb

/-- The directories above the copy of a listed file. -/
theorem makeDirectories_listed (hc : b.Copying t₁ t T) (hl : b.Listed t₁ path ns) :
    ∃ u, t.makeDirectories b.cwd (parent (b.below ([directoryName, id] ++ ns))) true = .ok u ∧
      b.Copying t₁ u T ∧ Grown t u ∧ u.find? (T ++ ns.dropLast) = some .directory := by
  have hts := isName_names hb (isName_pair hT.isId)
  have hdrop : ∀ n ∈ ns.dropLast, IsName n := fun n hn => hl.isName n (List.dropLast_subset ns hn)
  have hclear : t.Clear T ns.dropLast := by
    intro ms hms hne
    cases hf : t.find? (T ++ ms) with
    | none => exact Or.inl rfl
    | some e =>
      rw [(hc.inside ms e hne hf).unique (hT.above hl hms).2]
      exact Or.inr rfl
  obtain ⟨u, hu, hwf, hway, hframe⟩ := makeDirectories_below hc.wellFormed hb.isLead hts
    (hc.walk hT) (hc.directory hT) b.cwd hdrop hclear
  have hgrown := grown_makeDirectories hc.wellFormed hu
  have hparent : parent (b.below ([directoryName, id] ++ ns)) =
      write (root b.project) ((names b.project ++ [directoryName, id]) ++ ns.dropLast) := by
    rw [parent_below hb (hT.isName_append hl.isName) (by simp),
      List.dropLast_append_of_ne_nil hl.ne_nil, below_append]
  refine ⟨u, by rw [hparent, hu], ⟨hwf, fun q hq => ?_, fun ms e hne hf => ?_⟩, hgrown, ?_⟩
  · rw [hframe q, hc.outside q hq]
    rintro ⟨ms, hne, -, heq⟩
    exact hq ms hne heq
  · by_cases honway : OnWay T ns.dropLast (T ++ ms)
    · rw [hway _ honway, Option.some.injEq] at hf
      obtain ⟨ms', -, hms', heq⟩ := honway
      obtain rfl := List.append_cancel_left heq
      exact hf ▸ (hT.above hl hms').2
    · rw [hframe _ honway] at hf
      exact hc.inside ms e hne hf
  · by_cases hne : ns.dropLast = []
    · rw [hne, List.append_nil, hgrown.find? (by rw [hc.directory hT]; simp), hc.directory hT]
    · exact hway _ ⟨_, hne, List.prefix_refl _, rfl⟩

/-- Copying a listed file does not fail, and copies what the file holds. -/
theorem copyFile_listed (hc : b.Copying t₁ t T) (hl : b.Listed t₁ path ns) :
    ∃ u bytes, b.copyFile t path (b.below ([directoryName, id] ++ ns)) = (u, none) ∧
      b.Copying t₁ u T ∧ (∀ q, t.find? q ≠ none → u.find? q ≠ none) ∧
      (∀ q other, u.find? q = some (.file other) → t.find? q = some (.file other) ∨ q = T ++ ns) ∧
      b.Finds t₁ ns (.file bytes) ∧ u.find? (T ++ ns) = some (.file bytes) := by
  obtain ⟨made, hmade, hcm, hgrown, hdir⟩ := makeDirectories_listed hb hT hc hl
  obtain ⟨p, bytes, hp, hf⟩ := isFile_iff.mp hl.isFile
  have hp' := hp
  rw [locate_normal hl.normal, hl.names_eq] at hp'
  have hfinds : b.Finds t₁ ns (.file bytes) := ⟨p, hp', hf⟩
  have hne : t₁.find? p ≠ none := by
    rw [hf]
    exact Option.some_ne_none _
  have hfm : made.find? p = some (.file bytes) := (hcm.find? hT hne).trans hf
  have hsource : made.locate true b.cwd path = .ok p := by
    rw [locate_normal hl.normal] at hp ⊢
    refine walk_leads (hcm.leads hT) hp fun _ => ?_
    exact way_file hfm
  have hold : ∀ e, made.find? (T ++ ns) = some e → e = .file bytes := fun e he =>
    (hcm.inside ns e hl.ne_nil he).unique hfinds
  have htarget : made.locate true b.cwd (b.below ([directoryName, id] ++ ns)) =
      .ok (T ++ ns) := by
    rw [below_append]
    exact locate_down hcm.wellFormed hb.isLead (isName_names hb (isName_pair hT.isId))
      (hcm.walk hT) (hcm.directory hT) b.cwd hl.isName hl.ne_nil hdir
      (fun target hlink => by cases hold _ hlink) true
  have hcopy := copy_eq_ok hsource hfm htarget (fun h => by cases hold _ h)
    (hT.not_below hne ns hl.ne_nil)
  have hset := fun q => find?_set (t := made) (p := T ++ ns) (by simp [hl.ne_nil]) (.file bytes) q
  refine ⟨made.set (T ++ ns) (.file bytes), bytes, ?_, ⟨?_, fun q hq => ?_, fun ms e hms he => ?_⟩,
    fun q hq => ?_, fun q other hq => ?_, hfinds, ?_⟩
  · rw [copyFile, hmade]
    dsimp only
    rw [hcopy]
  · have hlast := List.dropLast_append_getLast hl.ne_nil
    rw [← hlast, ← List.append_assoc] at hold ⊢
    exact hcm.wellFormed.set hdir (hl.isName _ (List.getLast_mem hl.ne_nil))
      fun h => by cases hold _ h
  · rw [hset, if_neg (hq ns hl.ne_nil), hcm.outside q hq]
  · rw [hset] at he
    split at he
    · rename_i heq
      obtain rfl := List.append_cancel_left heq
      exact Option.some.inj he ▸ hfinds
    · exact hcm.inside ms e hms he
  · rw [hset]
    split
    · simp
    · rwa [hgrown.find? hq]
  · rw [hset] at hq
    split at hq
    · exact Or.inr ‹_›
    · rcases hgrown.grows q with hsame | ⟨-, hdirectory⟩
      · exact Or.inl (hsame ▸ hq)
      · cases hdirectory.symm.trans hq
  · rw [hset, if_pos rfl]

omit hb hT in
-- without this the equation is looked for inside the two functions
attribute [local irreducible] relative? copyFile in
/-- A first file that is copied, and the ones after it. -/
theorem copyAll_cons (target : Text) (path : Text) (rest : List Text) :
    b.copyAll target t (path :: rest) =
      match b.copyFile t path (child target ((b.relative? path).getD [])) with
      | (t, failure) =>
        match b.copyAll target t rest with
        | (t, files, notices) =>
          match failure with
          | some e => (t, files, .notBackedUp path e :: notices)
          | none => (t, (b.relative? path).getD [] :: files, notices) := rfl

/-- All listed files are copied. -/
theorem copyAll_listed {paths : List Text} (hc : b.Copying t₁ t T)
    (hl : ∀ path ∈ paths, ∃ ns, b.Listed t₁ path ns) :
    ∃ u files, b.copyAll (b.below [directoryName, id]) t paths = (u, files, []) ∧
      b.Copying t₁ u T ∧ (∀ q, t.find? q ≠ none → u.find? q ≠ none) ∧
      (∀ q other, u.find? q = some (.file other) → t.find? q = some (.file other) ∨
        ∃ ns, q = T ++ ns ∧ Text.join [slash] ns ∈ files) ∧
      List.Forall₂ (fun path name => ∃ ns bytes, b.Listed t₁ path ns ∧
        name = Text.join [slash] ns ∧ b.Finds t₁ ns (.file bytes) ∧
        u.find? (T ++ ns) = some (.file bytes)) paths files := by
  induction paths generalizing t with
  | nil => exact ⟨t, [], rfl, hc, fun _ h => h, fun _ _ h => Or.inl h, .nil⟩
  | cons path paths ih =>
    obtain ⟨ns, hns⟩ := hl path List.mem_cons_self
    obtain ⟨v, bytes, hcopy, hcv, hkeep, hone, hfinds, hv⟩ := copyFile_listed hb hT hc hns
    obtain ⟨u, files, hall, hcu, hkeep', hmore, hfiles⟩ :=
      ih hcv fun p hp => hl p (List.mem_cons_of_mem _ hp)
    have hname : (b.relative? path).getD [] = Text.join [slash] ns := by
      rw [relative?_eq hb hns.normal hns.isName hns.ne_nil hns.names_eq]
      rfl
    refine ⟨u, Text.join [slash] ns :: files, ?_, hcu, fun q hq => hkeep' q (hkeep q hq),
      fun q other hq => ?_, .cons ⟨ns, bytes, hns, rfl, hfinds, ?_⟩ hfiles⟩
    · have hchild := child_below hb (isName_pair hT.isId) hns.isName
      rw [copyAll_cons, hname, hchild, hcopy]
      dsimp only
      rw [hall]
    · rcases hmore q other hq with hv' | ⟨ms, rfl, hms⟩
      · rcases hone q other hv' with ht' | rfl
        · exact Or.inl ht'
        · exact Or.inr ⟨ns, rfl, List.mem_cons_self⟩
      · exact Or.inr ⟨ms, rfl, List.mem_cons_of_mem _ hms⟩
    · have hne := hkeep' _ (by rw [hv]; exact Option.some_ne_none _)
      obtain ⟨e, he⟩ := Option.ne_none_iff_exists'.mp hne
      rw [he, (hcu.inside ns e hns.ne_nil he).unique hfinds]

end

end Backups
end ModuleGraph
