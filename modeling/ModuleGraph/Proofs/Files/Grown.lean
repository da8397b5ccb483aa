import ModuleGraph.Proofs.Files.Scan

/-!
A scan of a tree that has some directories more.

* `Old`, `New`, `Pending`: what there is to scan before and after the growth;
* `NoNewEnds`: no link gets an end by it, so an old path leads where it led (`Grown.stat_old`);
* `Grown.passed`, `Grown.finds`: so the scan goes the same way, with new directories to enter that
  have nothing to find in them;
* `Grown.mem_scan`: it lists what it listed.
-/

namespace ModuleGraph
namespace Tree

variable {t u : Tree} {cwd path top : Text} {rules rules' : ScanRules} {scanned : Scanned}
  {root D : Place} {visited visited' : List Place} {xs ys found : List Text}

/-- A path that was there before the tree grew. -/
def Old (t : Tree) (path : Text) : Prop :=
  ∃ p, t.locate false [] path = .ok p ∧ t.find? p ≠ none

/-- A path to a directory that came with the growth. -/
def New (t u : Tree) (path : Text) : Prop :=
  ∃ p, (∀ fl, u.locate fl [] path = .ok p) ∧ u.find? p = some .directory ∧ t.find? p = none

/-- What there is to scan before and after: new directories are among it afterwards. -/
inductive Pending (t u : Tree) : List Text → List Text → Prop
  | nil : Pending t u [] []
  | old {path : Text} {xs ys : List Text} (hpath : Path.IsNormal path) (h : Old t path)
      (hrest : Pending t u xs ys) : Pending t u (path :: xs) (path :: ys)
  | new {path : Text} {xs ys : List Text} (hpath : Path.IsNormal path) (h : New t u path)
      (hrest : Pending t u xs ys) : Pending t u xs (path :: ys)

/-- No link that led nowhere leads anywhere after the growth. -/
def NoNewEnds (t u : Tree) : Prop :=
  ∀ path, Path.IsNormal path → t.isLink [] path = true → t.present [] path = false →
    u.present [] path = false

theorem present_eq_false : t.present cwd path = false ↔ ∃ e, t.stat cwd path = .error e := by
  rw [present]
  cases t.stat cwd path with
  | error e => simp
  | ok e => simp

variable (hu : Grown t u)
include hu

/-- What an old path leads to is what it led to. -/
theorem Grown.stat_old (hends : NoNewEnds t u) (hpath : Path.IsNormal path) (hold : Old t path)
    {e : Entry} (h : u.stat [] path = .ok e) :
    ∃ p, t.locate true [] path = .ok p ∧ u.locate true [] path = .ok p ∧
      t.find? p = some e := by
  obtain ⟨q, hq, hne⟩ := hold
  cases hstat : t.stat [] path with
  | ok d =>
    obtain ⟨p, hl, hf⟩ := stat_eq_ok.mp hstat
    have hl' := hu.locate hl (by rw [hf]; exact Option.some_ne_none _)
    obtain ⟨p', hp', hf'⟩ := stat_eq_ok.mp h
    rw [hl', Except.ok.injEq] at hp'
    subst hp'
    rw [hu.find? (by rw [hf]; exact Option.some_ne_none _), hf, Option.some.injEq] at hf'
    exact ⟨p, hl, hl', hf' ▸ hf⟩
  | error d =>
    by_cases hlink : t.isLink [] path = true
    · obtain ⟨d', hd'⟩ := present_eq_false.mp
        (hends path hpath hlink (present_eq_false.mpr ⟨d, hstat⟩))
      rw [hd'] at h
      cases h
    · have hl := locate_true_of_not_isLink hq (Bool.not_eq_true _ ▸ hlink)
      obtain ⟨d', hd'⟩ := Option.ne_none_iff_exists'.mp hne
      rw [stat_eq_ok.mpr ⟨q, hl, hd'⟩] at hstat
      cases hstat

theorem Grown.stat_error {e : FileError} (h : u.stat [] path = .error e) :
    ∃ d, t.stat [] path = .error d := by
  cases hstat : t.stat [] path with
  | error d => exact ⟨d, rfl⟩
  | ok d =>
    obtain ⟨p, hl, hf⟩ := stat_eq_ok.mp hstat
    have hne : t.find? p ≠ none := by
      rw [hf]
      exact Option.some_ne_none _
    rw [stat_eq_ok.mpr ⟨p, hu.locate hl hne, (hu.find? hne).trans hf⟩] at h
    cases h

omit hu in
theorem New.stat_ne (h : New t u path) {e : Entry} (hne : e ≠ .directory) :
    u.stat [] path ≠ .ok e := by
  obtain ⟨p, hl, hf, -⟩ := h
  rw [stat_eq_ok.mpr ⟨p, hl true, hf⟩]
  exact fun heq => hne (Except.ok.inj heq).symm

theorem Grown.isLink_old (hold : Old t path) : u.isLink [] path = t.isLink [] path := by
  obtain ⟨q, hq, hne⟩ := hold
  rw [isLink, isLink, hq, hu.locate hq hne]
  dsimp only
  rw [hu.find? hne]

/-- The names in a directory before the growth are those after it that were there. -/
theorem Grown.names_eq (ht : t.WellFormed) (D : Place) :
    t.names D = (u.names D).filter fun n => (t.find? (D ++ [n])).isSome := by
  refine Text.eq_of_pairwise_le (Text.pairwise_sorted _)
    ((Text.pairwise_sorted _).sublist List.filter_sublist) ?_
  refine (List.perm_ext_iff_of_nodup (ht.nodup_names D)
    ((hu.wellFormed.nodup_names D).sublist List.filter_sublist)).mpr fun n => ?_
  rw [List.mem_filter, mem_names, mem_names, Option.isSome_iff_ne_none]
  exact ⟨fun hn => ⟨by rwa [hu.find? hn], hn⟩, fun hn => hn.2⟩

/-- What is in a directory before and after. -/
theorem Grown.pending_names (ht : t.WellFormed) (hpath : Path.IsNormal path)
    (hl : u.locate true [] path = .ok D) (hD : u.find? D = some .directory)
    (hold : t.find? D = some .directory → t.locate true [] path = .ok D)
    (hrest : Pending t u xs ys) {ns : List Text} (hns : ∀ n ∈ ns, u.find? (D ++ [n]) ≠ none) :
    Pending t u ((ns.filter fun n => (t.find? (D ++ [n])).isSome).map (Path.join path) ++ xs)
      (ns.map (Path.join path) ++ ys) := by
  induction ns with
  | nil => exact hrest
  | cons n ns ih =>
    have hthere := hns n List.mem_cons_self
    have hn : Path.IsName n := hu.wellFormed.isName_of_find? hthere n (by simp)
    have hnormal := Path.isNormal_join hpath hn
    have hrest' := ih fun m hm => hns m (List.mem_cons_of_mem _ hm)
    by_cases hf : (t.find? (D ++ [n])).isSome
    · have hne := Option.isSome_iff_ne_none.mp hf
      have hDt := ht.above D n hne
      obtain ⟨k, hk⟩ := locate_join hpath (hold hDt) hDt hn
      rw [List.filter_cons, if_pos hf]
      exact .old hnormal ⟨D ++ [n], by rw [hk, walk_singleton hn], hne⟩ hrest'
    · have hnone := Option.not_isSome_iff_eq_none.mp hf
      have hdir : u.find? (D ++ [n]) = some .directory := by
        rcases hu.grows (D ++ [n]) with h | h
        · rw [h] at hthere
          exact absurd hnone hthere
        · exact h.2
      obtain ⟨k, hk⟩ := locate_join hpath hl hD hn
      rw [List.filter_cons, if_neg hf]
      refine .new hnormal ⟨D ++ [n], fun fl => ?_, hdir, hnone⟩ hrest'
      rw [hk, walk_directory (not_skipped hn) hn.ne_up hdir, walk_nil]

theorem Grown.pending_entriesOf (ht : t.WellFormed) (hpath : Path.IsNormal path)
    (hl : u.locate true [] path = .ok D) (hD : u.find? D = some .directory)
    (hold : t.find? D = some .directory → t.locate true [] path = .ok D)
    (hrest : Pending t u xs ys) :
    Pending t u (Scan.entriesOf t path D ++ xs) (Scan.entriesOf u path D ++ ys) := by
  rw [Scan.entriesOf, hu.names_eq ht]
  exact hu.pending_names ht hpath hl hD hold hrest fun n hn => mem_names.mp hn

/-- An old path that is passed over was passed over before. -/
theorem Grown.passed (hends : NoNewEnds t u) (hpath : Path.IsNormal path) (hold : Old t path)
    (hvisited : ∀ p, t.find? p = some .directory → (p ∈ visited' ↔ p ∈ visited))
    (h : Scan.Passed u rules root visited' path) : Scan.Passed t rules root visited path := by
  cases h with
  | missing h =>
    obtain ⟨d, hd⟩ := hu.stat_error h
    exact .missing hd
  | excluded h hexclude =>
    obtain ⟨p, hlt, -, hf⟩ := hu.stat_old hends hpath hold h
    exact .excluded (stat_eq_ok.mpr ⟨p, hlt, hf⟩) hexclude
  | linked h hl hlink =>
    obtain ⟨p, hlt, hlu, hf⟩ := hu.stat_old hends hpath hold h
    rw [hlu, Except.ok.injEq] at hl
    subst hl
    exact .linked (stat_eq_ok.mpr ⟨p, hlt, hf⟩) hlt (hu.isLink_old hold ▸ hlink)
  | visited h hl hknown =>
    obtain ⟨p, hlt, hlu, hf⟩ := hu.stat_old hends hpath hold h
    rw [hlu, Except.ok.injEq] at hl
    subst hl
    refine .visited (stat_eq_ok.mpr ⟨p, hlt, hf⟩) hlt fun hnew => hknown ⟨?_, fun hmem => ?_⟩
    · exact hu.wellFormed.mem_directories.mpr (hu.leads.find?_directory hf)
    · exact hnew.2 ((hvisited p hf).mp hmem)
  | untaken h hne htakes =>
    obtain ⟨p, hlt, -, hf⟩ := hu.stat_old hends hpath hold h
    exact .untaken (stat_eq_ok.mpr ⟨p, hlt, hf⟩) hne htakes

/-- A scan finds what it found before the tree grew, if no link has got an end. -/
theorem Grown.finds (ht : t.WellFormed) (hends : NoNewEnds t u)
    (hfinds : Scan.Finds u rules root visited' ys found) (hpending : Pending t u xs ys)
    (hvisited : ∀ p, t.find? p = some .directory → (p ∈ visited' ↔ p ∈ visited)) :
    Scan.Finds t rules root visited xs found := by
  induction hfinds generalizing xs visited with
  | nil =>
    cases hpending
    exact .nil
  | pass hpassed _ ih =>
    cases hpending with
    | old hpath hold hrest =>
      exact .pass (hu.passed hends hpath hold hvisited hpassed) (ih hrest hvisited)
    | new hpath h hrest => exact ih hrest hvisited
  | @enter _ path _ _ _ hexclude hl hlink hnew _ ih =>
    have hD := hu.wellFormed.mem_directories.mp hnew.1
    cases hpending with
    | old hpath hold hrest =>
      obtain ⟨p, hlt, hlu, hf⟩ := hu.stat_old hends hpath hold (stat_eq_ok.mpr ⟨_, hl, hD⟩)
      rw [hlu, Except.ok.injEq] at hl
      subst hl
      have hnew' : p ∈ t.directories ∧ p ∉ visited :=
        ⟨ht.mem_directories.mpr hf, fun hmem => hnew.2 ((hvisited p hf).mpr hmem)⟩
      refine .enter hexclude hlt (hu.isLink_old hold ▸ hlink) hnew'
        (ih (hu.pending_entriesOf ht hpath hlu hD (fun _ => hlt) hrest) fun q hq => ?_)
      rw [List.mem_cons, List.mem_cons, hvisited q hq]
    | new hpath h hrest =>
      -- nothing stood in a directory that is new
      obtain ⟨p, hlu, hf, hnone⟩ := h
      rw [hlu true, Except.ok.injEq] at hl
      subst hl
      have hnoDir : t.find? p ≠ some .directory := by rw [hnone]; simp
      have hempty : Scan.entriesOf t path p = [] := by
        rw [Scan.entriesOf, List.map_eq_nil_iff, List.eq_nil_iff_forall_not_mem]
        exact fun n hn => mem_names.mp hn (ht.find?_below hnoDir (by simp))
      have hentries := hu.pending_entriesOf ht hpath (hlu true) hf (fun h => absurd h hnoDir) hrest
      rw [hempty, List.nil_append] at hentries
      refine ih hentries fun q hq => ?_
      have hne : q ≠ p := fun h => hnoDir (h ▸ hq)
      rw [List.mem_cons, hvisited q hq]
      exact ⟨fun h => h.resolve_left hne, Or.inr⟩
  | take hstat hne htakes _ ih =>
    cases hpending with
    | old hpath hold hrest =>
      obtain ⟨p, hlt, -, hf⟩ := hu.stat_old hends hpath hold hstat
      exact .take (stat_eq_ok.mpr ⟨p, hlt, hf⟩) hne htakes (ih hrest hvisited)
    | new hpath h hrest => exact absurd hstat (h.stat_ne hne)

/-- What a scan listed it lists in a tree that has grown, if its suffix is asked for again. -/
theorem Grown.mem_scan (ht : t.WellFormed) (hends : NoNewEnds t u) (htop : Path.IsNormal top)
    (h : t.scan cwd top rules = .ok scanned) (hexclude : rules'.exclude = rules.exclude)
    (hpath : path ∈ scanned.paths) (htakes : rules'.takes (Path.name path) = true) :
    u.isDirectory cwd top = true ∧
      ∃ scanned', u.scan cwd top rules' = .ok scanned' ∧ path ∈ scanned'.paths := by
  obtain ⟨p, hl, hf, rfl⟩ := scan_eq_ok.mp h
  have habsolute := htop.absolute_eq cwd
  have hl' := hu.locate hl (by rw [hf]; exact Option.some_ne_none _)
  have hf' := hu.leads.find?_directory hf
  refine ⟨isDirectory_iff.mpr ⟨p, habsolute ▸ hl', hf'⟩, _,
    scan_eq_ok.mpr ⟨p, hl', hf', rfl⟩, ?_⟩
  rw [habsolute] at hl hl' hpath ⊢
  have hpending := hu.pending_entriesOf ht htop (locate_cwd htop true cwd [] ▸ hl') hf'
    (fun _ => locate_cwd htop true cwd [] ▸ hl) .nil
  rw [List.append_nil, List.append_nil] at hpending
  rw [← (hu.finds ht hends (Scan.finds_scanFrom ..) hpending fun _ _ => Iff.rfl).paths_eq ht]
  exact mem_scanFrom_suffixes hexclude hpath htakes

end Tree
end ModuleGraph
