import ModuleGraph.Files.Change
import ModuleGraph.Proofs.Files.Walk

/-!
What making directories, writing and copying files change.

* `MoreDirectories`, `Grown`: a tree with some directories more; making directories does nothing
  else to a tree (`moreDirectories_makeDirectories`, `grown_makeDirectories`);
* `makeDirectories_fresh`: a directory that must not be there is made with nothing in it;
* `makeDirectories_of_isDirectory`: one that may be there and is stays as it is;
* `Paved`, `makeDirectories_below`: the directories made below a place where no other thing is in
  the way;
* `replaceFile_eq_ok`, `write_eq_ok`, `copy_eq_ok`: a file that takes the place of another, one
  written, and one copied to another place.
-/

namespace ModuleGraph
namespace Tree

variable {t u v : Tree} {p q D T : Place} {e : Entry} {n : Text} {fl existOk : Bool} {k : Nat}
  {ns ms ts : List Text} {cwd path lead : Text} {bytes : Bytes}

theorem stat_eq_ok : t.stat cwd path = .ok e ↔
    ∃ p, t.locate true cwd path = .ok p ∧ t.find? p = some e := by
  rw [stat]
  cases t.locate true cwd path with
  | error e => simp
  | ok p => cases hf : t.find? p <;> simp [hf]

theorem isDirectory_iff : t.isDirectory cwd path = true ↔
    ∃ p, t.locate true cwd path = .ok p ∧ t.find? p = some .directory := by
  rw [← stat_eq_ok, isDirectory]
  split <;> simp_all

theorem read_eq_ok : t.read cwd path = .ok bytes ↔
    ∃ p, t.locate true cwd path = .ok p ∧ t.find? p = some (.file bytes) := by
  rw [← stat_eq_ok, read]
  split <;> simp_all

theorem isFile_iff : t.isFile cwd path = true ↔
    ∃ p bytes, t.locate true cwd path = .ok p ∧ t.find? p = some (.file bytes) := by
  rw [exists_comm]
  simp only [← stat_eq_ok]
  rw [isFile]
  split <;> simp_all

/-- Where the second tree is not as the first one, it has a new directory. -/
def MoreDirectories (t u : Tree) : Prop :=
  ∀ q, u.find? q = t.find? q ∨ t.find? q = none ∧ u.find? q = some .directory

theorem MoreDirectories.refl (t : Tree) : t.MoreDirectories t := fun _ => Or.inl rfl

theorem MoreDirectories.trans (h : t.MoreDirectories u) (h' : u.MoreDirectories v) :
    t.MoreDirectories v := by
  intro q
  rcases h' q with hq | ⟨hnone, hq⟩
  · rw [hq]
    exact h q
  · rcases h q with hq' | ⟨-, hq'⟩
    · exact Or.inr ⟨hq' ▸ hnone, hq⟩
    · rw [hq'] at hnone
      cases hnone

/-- The files are the same. -/
theorem MoreDirectories.file_iff (h : t.MoreDirectories u) :
    u.find? q = some (.file bytes) ↔ t.find? q = some (.file bytes) := by
  rcases h q with hq | ⟨hnone, hdir⟩
  · rw [hq]
  · rw [hnone, hdir]
    simp

theorem moreDirectories_set (hf : t.find? p = none) :
    t.MoreDirectories (t.set p .directory) := by
  intro q
  have hp : p ≠ [] := by
    rintro rfl
    cases hf
  rw [find?_set hp]
  split
  · rename_i hq
    exact Or.inr ⟨hq ▸ hf, rfl⟩
  · exact Or.inl rfl

theorem moreDirectories_makeDirectory (h : t.makeDirectory cwd path = .ok u) :
    t.MoreDirectories u := by
  rw [makeDirectory] at h
  split at h
  · cases h
  split at h
  · cases h
  · rename_i hf
    cases h
    exact moreDirectories_set hf

/-- A directory is made where nothing stands. -/
theorem makeOne_new (hl : t.locate false cwd path = .ok p) (hf : t.find? p = none)
    (existOk : Bool) : t.makeOne cwd path existOk = .ok (t.set p .directory) := by
  rw [makeOne, makeDirectory, hl]
  dsimp only
  rw [hf]

/-- No directory is made in one that is missing. -/
theorem makeOne_nowhere (hl : t.locate false cwd path = .error .notFound) (existOk : Bool) :
    t.makeOne cwd path existOk = .error .notFound := by
  rw [makeOne, makeDirectory, hl]

/-- No directory is made where something stands that will not do. -/
theorem makeOne_taken (hl : t.locate false cwd path = .ok p) (hf : t.find? p = some e)
    (hdo : (existOk && t.isDirectory cwd path) = false) :
    t.makeOne cwd path existOk = .error .exists := by
  rw [makeOne, makeDirectory, hl]
  simp only [hf, hdo]
  rfl

theorem makeOne_eq_ok (h : t.makeOne cwd path existOk = .ok u) :
    t.makeDirectory cwd path = .ok u ∨
      existOk = true ∧ t.isDirectory cwd path = true ∧ u = t := by
  rw [makeOne] at h
  split at h
  · cases h
  · split at h
    · rename_i hcond
      rw [Bool.and_eq_true] at hcond
      rw [Except.ok.injEq] at h
      exact Or.inr ⟨hcond.1, hcond.2, h.symm⟩
    · cases h
  · rename_i hmake
    exact Or.inl (hmake.trans h)

theorem moreDirectories_makeOne (h : t.makeOne cwd path existOk = .ok u) :
    t.MoreDirectories u := by
  rcases makeOne_eq_ok h with h | ⟨-, -, rfl⟩
  · exact moreDirectories_makeDirectory h
  · exact .refl u

theorem moreDirectories_makeWithParents {names : List Text}
    (h : makeWithParents cwd lead existOk t names = .ok u) : t.MoreDirectories u := by
  induction names generalizing existOk u with
  | nil => exact moreDirectories_makeOne h
  | cons name above ih =>
    rw [makeWithParents] at h
    split at h
    · split at h
      · cases h
      · rename_i v hv
        exact (ih hv).trans (moreDirectories_makeOne h)
    · exact moreDirectories_makeOne h

/-- Wherever a path leads, directories are all that is new after they are made. -/
theorem moreDirectories_makeDirectories (h : t.makeDirectories cwd path existOk = .ok u) :
    t.MoreDirectories u := moreDirectories_makeWithParents h

/-- The second tree has everything that the first has, and some directories more. -/
structure Grown (t u : Tree) : Prop where
  wellFormed : u.WellFormed
  grows : t.MoreDirectories u

theorem Grown.refl (ht : t.WellFormed) : Grown t t := ⟨ht, .refl t⟩

theorem Grown.trans (h : Grown t u) (h' : Grown u v) : Grown t v :=
  ⟨h'.wellFormed, h.grows.trans h'.grows⟩

theorem Grown.find? (h : Grown t u) (hq : t.find? q ≠ none) : u.find? q = t.find? q :=
  (h.grows q).resolve_right fun h => hq h.1

theorem Grown.leads (h : Grown t u) : t.Leads u := by
  intro q e hq
  have hf := (way_eq_some.mp hq).1
  rw [way_of_find? (h.find? (by rw [hf]; exact Option.some_ne_none _))]
  exact hq

/-- What leads to an entry leads there when there are more directories. -/
theorem Grown.walk {here : Place} {steps : List Text} (hu : Grown t u)
    (h : t.walk fl k here steps = .ok p) (hp : t.find? p ≠ none) :
    u.walk fl k here steps = .ok p :=
  walk_leads hu.leads h fun hway => by rw [way_of_find? (hu.find? hp), hway]

theorem Grown.locate (hu : Grown t u) (h : t.locate fl cwd path = .ok p) (hp : t.find? p ≠ none) :
    u.locate fl cwd path = .ok p := by
  rw [Tree.locate] at h ⊢
  split at h
  · cases h
  · rename_i hne
    rw [if_neg hne]
    exact hu.walk h hp

theorem grown_set (ht : t.WellFormed) (hD : t.find? D = some .directory) (hn : Path.IsName n)
    (hf : t.find? (D ++ [n]) = none) : Grown t (t.set (D ++ [n]) .directory) :=
  ⟨ht.set hD hn fun _ => rfl, moreDirectories_set hf⟩

/-- A path leads to a directory, or to a name in one. -/
theorem locate_result (ht : t.WellFormed) (h : t.locate fl cwd path = .ok p) :
    t.find? p = some .directory ∨
      ∃ D n, p = D ++ [n] ∧ Path.IsName n ∧ t.find? D = some .directory := by
  rw [locate] at h
  split at h
  · cases h
  · exact walk_result ht (isSteps_splitOn _) rfl h

theorem makeDirectory_eq_ok (ht : t.WellFormed) (h : t.makeDirectory cwd path = .ok u) :
    ∃ p, t.locate false cwd path = .ok p ∧ t.find? p = none ∧ u = t.set p .directory ∧
      Grown t u := by
  rw [makeDirectory] at h
  cases hl : t.locate false cwd path with
  | error e =>
    rw [hl] at h
    cases h
  | ok p =>
    rw [hl] at h
    dsimp only at h
    cases hf : t.find? p with
    | some e =>
      rw [hf] at h
      cases h
    | none =>
      rw [hf, Except.ok.injEq] at h
      refine ⟨p, rfl, hf, h.symm, ?_⟩
      rcases locate_result ht hl with hdir | ⟨D, n, rfl, hn, hD⟩
      · rw [hf] at hdir
        cases hdir
      · exact h ▸ grown_set ht hD hn hf

theorem grown_makeOne (ht : t.WellFormed) (h : t.makeOne cwd path existOk = .ok u) :
    Grown t u := by
  rcases makeOne_eq_ok h with h | ⟨-, -, rfl⟩
  · obtain ⟨-, -, -, -, hgrown⟩ := makeDirectory_eq_ok ht h
    exact hgrown
  · exact .refl ht

/-- The last directory is made in a tree with the missing directories above it. -/
theorem exists_of_makeWithParents (ht : t.WellFormed) {names : List Text}
    (h : makeWithParents cwd lead existOk t names = .ok u) :
    ∃ v, Grown t v ∧ v.makeOne cwd (Path.write lead names.reverse) existOk = .ok u := by
  induction names generalizing existOk u with
  | nil => exact ⟨t, .refl ht, h⟩
  | cons n above ih =>
    rw [makeWithParents] at h
    split at h
    · split at h
      · cases h
      · rename_i v hv
        obtain ⟨w, hw, hmake⟩ := ih hv
        exact ⟨v, hw.trans (grown_makeOne hw.wellFormed hmake), h⟩
    · exact ⟨t, .refl ht, h⟩

/-- A directory is made, or those above it are and then it is. -/
theorem makeDirectories_concat (t : Tree) (hlead : Path.IsLead lead) (cwd : Text) (existOk : Bool)
    (hn : ∀ m ∈ ns ++ [n], Path.IsName m) :
    t.makeDirectories cwd (Path.write lead (ns ++ [n])) existOk =
      match t.makeOne cwd (Path.write lead (ns ++ [n])) existOk with
      | .error .notFound =>
        match t.makeDirectories cwd (Path.write lead ns) true with
        | .error e => .error e
        | .ok t => t.makeOne cwd (Path.write lead (ns ++ [n])) existOk
      | outcome => outcome := by
  have hfront : ∀ m ∈ ns, Path.IsName m := fun m hm => hn m (List.mem_append_left _ hm)
  have hnames : (Path.names (Path.write lead (ns ++ [n]))).reverse = n :: ns.reverse := by
    rw [Path.names_write hlead hn, List.reverse_append, List.reverse_singleton,
      List.singleton_append]
  have hback : (n :: ns.reverse).reverse = ns ++ [n] := by simp
  rewrite [makeDirectories, hnames, Path.root_write hlead hn, makeWithParents, hback,
    makeDirectories, Path.root_write hlead hfront, Path.names_write hlead hfront]
  rfl

/-- Directories are made in two steps, those above first. -/
theorem exists_of_makeDirectories (ht : t.WellFormed)
    (h : t.makeDirectories cwd path existOk = .ok u) :
    ∃ v, Grown t v ∧ v.makeOne cwd (Path.tidy path) existOk = .ok u := by
  obtain ⟨v, hv, hmake⟩ := exists_of_makeWithParents ht h
  rw [List.reverse_reverse] at hmake
  exact ⟨v, hv, hmake⟩

/-- Making directories does nothing else to a tree. -/
theorem grown_makeDirectories (ht : t.WellFormed)
    (h : t.makeDirectories cwd path existOk = .ok u) : Grown t u := by
  obtain ⟨v, hv, hmake⟩ := exists_of_makeDirectories ht h
  exact hv.trans (grown_makeOne hv.wellFormed hmake)

/-- A path to something missing leads there when a directory was made. -/
theorem walk_made (h : t.walk false k p ns = .ok q) (hq : t.find? q = none) (hu : t.Leads u)
    (hmade : u.find? q = some .directory) (fl : Bool) : u.walk fl k p ns = .ok q := by
  rw [walk_eq_ok] at h ⊢
  induction h with
  | nil k here => exact .nil k here
  | skip hskip _ ih => exact .skip hskip (ih hq hmade)
  | up hmove hup _ ih => exact .up hmove hup (ih hq hmade)
  | last hmove hup => exact .directory hmove hup hmade (.nil _ _)
  | directory hmove hup hfind _ ih =>
    exact .directory hmove hup (hu.find?_directory hfind) (ih hq hmade)
  | link _ _ _ hfind =>
    rw [hfind] at hq
    cases hq
  | follow hmove hup hfind hfl _ ih =>
    exact .follow hmove hup (hu.find?_link hfind) (fun hrest => absurd (hfl hrest) (by decide))
      (ih hq hmade)

/-- A directory that must not be there is made where nothing was, with nothing in it. -/
theorem makeDirectories_fresh (ht : t.WellFormed) (hpath : Path.IsNormal path)
    (h : t.makeDirectories cwd path false = .ok u) :
    ∃ T, (∀ fl, u.locate fl cwd path = .ok T) ∧ t.find? T = none ∧
      u.find? T = some .directory ∧ ∀ ns, ns ≠ [] → u.find? (T ++ ns) = none := by
  obtain ⟨v, hv, hmake⟩ := exists_of_makeDirectories ht h
  rw [Path.tidy, ← hpath.eq_write] at hmake
  rcases makeOne_eq_ok hmake with hmake | ⟨hfalse, -⟩
  · obtain ⟨T, hl, hf, rfl, hgrown⟩ := makeDirectory_eq_ok hv.wellFormed hmake
    have hne : T ≠ [] := by
      rintro rfl
      cases hf
    have hdir : (v.set T .directory).find? T = some .directory := by rw [find?_set hne, if_pos rfl]
    refine ⟨T, fun fl => ?_, ?_, hdir, fun ns hns => ?_⟩
    · rw [locate_normal hpath] at hl ⊢
      exact walk_made hl hf hgrown.leads hdir fl
    · exact (hv.grows T).elim (fun h => h ▸ hf) fun h => h.1
    · rw [find?_set hne, if_neg (by simpa using hns)]
      exact hv.wellFormed.find?_below (by rw [hf]; simp) hns
  · cases hfalse

/-- A directory that may be there, and is, stays as it is. -/
theorem makeOne_of_isDirectory (ht : t.WellFormed) (h : t.isDirectory cwd path = true) :
    t.makeOne cwd path true = .ok t := by
  obtain ⟨p, hl, hf⟩ := isDirectory_iff.mp h
  have hmake : t.makeDirectory cwd path = .error .exists := by
    rw [locate] at hl
    split at hl
    · cases hl
    · rename_i hne
      obtain ⟨q, hq, hfound⟩ :=
        walk_false_of_true hl (by rw [hf]; exact Option.some_ne_none _) rfl ht
      rw [makeDirectory, locate, if_neg hne, hq]
      dsimp only
      cases hfq : t.find? q with
      | none => exact absurd hfq hfound
      | some e => rfl
  rw [makeOne, hmake]
  simp [h]

/-- Directories that may be there are not made if the last one is. -/
theorem makeDirectories_of_tidy (ht : t.WellFormed)
    (h : t.isDirectory cwd (Path.tidy path) = true) : t.makeDirectories cwd path true = .ok t := by
  have hone := makeOne_of_isDirectory ht h
  rw [Path.tidy] at hone
  rw [makeDirectories]
  cases hns : (Path.names path).reverse with
  | nil =>
    rw [List.reverse_eq_nil_iff.mp hns] at hone
    rw [makeWithParents, hone]
  | cons n above =>
    rw [makeWithParents, ← hns, List.reverse_reverse]
    simp only [hone]

theorem makeDirectories_of_isDirectory (ht : t.WellFormed) (hpath : Path.IsNormal path)
    (h : t.isDirectory cwd path = true) : t.makeDirectories cwd path true = .ok t := by
  refine makeDirectories_of_tidy ht ?_
  rwa [Path.tidy, ← hpath.eq_write]

/-- Below a place, a chain of directories ends before something that is missing. -/
theorem exists_missing (hT : t.find? T = some .directory) (hms : t.find? (T ++ ms) = none) :
    (∃ as n bs, ms = as ++ n :: bs ∧ t.find? (T ++ as) = some .directory ∧
      t.find? (T ++ as ++ [n]) = none) ∨
    ∃ as, as <+: ms ∧ as ≠ [] ∧ t.find? (T ++ as) ≠ none ∧ t.find? (T ++ as) ≠ some .directory := by
  induction ms using List.reverseRecOn with
  | nil =>
    rw [List.append_nil, hT] at hms
    cases hms
  | append_singleton ms n ih =>
    by_cases hdir : t.find? (T ++ ms) = some .directory
    · exact Or.inl ⟨ms, n, [], rfl, hdir, by rw [List.append_assoc, hms]⟩
    · by_cases hnone : t.find? (T ++ ms) = none
      · rcases ih hnone with ⟨as, m, bs, rfl, has, hm⟩ | ⟨as, hpre, h⟩
        · exact Or.inl ⟨as, m, bs ++ [n], by simp, has, hm⟩
        · exact Or.inr ⟨as, hpre.trans (List.prefix_append ms [n]), h⟩
      · refine Or.inr ⟨ms, List.prefix_append ms [n], ?_, hnone, hdir⟩
        rintro rfl
        rw [List.append_nil] at hdir
        exact hdir hT

/-- Nothing but directories is in the way of some names below a place. -/
def Clear (t : Tree) (T : Place) (ns : List Text) : Prop :=
  ∀ ms, ms <+: ns → ms ≠ [] → t.find? (T ++ ms) = none ∨ t.find? (T ++ ms) = some .directory

theorem Clear.of_prefix (h : t.Clear T ns) (hms : ms <+: ns) : t.Clear T ms :=
  fun as hpre hne => h as (hpre.trans hms) hne

/-- The places on the way from a directory to one below it. -/
def OnWay (T : Place) (ns : List Text) (q : Place) : Prop :=
  ∃ ms, ms ≠ [] ∧ ms <+: ns ∧ q = T ++ ms

theorem onWay_concat : OnWay T (ns ++ [n]) q ↔ q = T ++ (ns ++ [n]) ∨ OnWay T ns q := by
  simp only [OnWay, List.prefix_concat_iff]
  constructor
  · rintro ⟨ms, hne, rfl | hpre, rfl⟩
    · exact Or.inl rfl
    · exact Or.inr ⟨ms, hne, hpre, rfl⟩
  · rintro (rfl | ⟨ms, hne, hpre, rfl⟩)
    · exact ⟨_, by simp, Or.inl rfl, rfl⟩
    · exact ⟨ms, hne, Or.inr hpre, rfl⟩

theorem WellFormed.find?_onWay (ht : t.WellFormed) (hd : t.find? (T ++ ns) = some .directory)
    (hq : OnWay T ns q) : t.find? q = some .directory := by
  obtain ⟨ms, -, ⟨as, rfl⟩, rfl⟩ := hq
  by_cases has : as = []
  · rwa [has, List.append_nil] at hd
  · rw [← List.append_assoc] at hd
    exact ht.find?_above has (by rw [hd]; exact Option.some_ne_none _)

/-- Directories stand all the way in the second tree, and nothing else is new. -/
structure Paved (t u : Tree) (T : Place) (ns : List Text) : Prop where
  wellFormed : u.WellFormed
  way : ∀ q, OnWay T ns q → u.find? q = some .directory
  frame : ∀ q, ¬ OnWay T ns q → u.find? q = t.find? q

theorem WellFormed.paved (ht : t.WellFormed) (hd : t.find? (T ++ ns) = some .directory) :
    Paved t t T ns :=
  ⟨ht, fun _ => ht.find?_onWay hd, fun _ _ => rfl⟩

/-- One directory more at the end of the way. -/
theorem Paved.concat (h : Paved t u T ns) (hv : v.WellFormed)
    (hlast : v.find? (T ++ (ns ++ [n])) = some .directory)
    (hframe : ∀ q, q ≠ T ++ (ns ++ [n]) → v.find? q = u.find? q) : Paved t v T (ns ++ [n]) := by
  refine ⟨hv, fun q hq => ?_, fun q hq => ?_⟩
  · by_cases heq : q = T ++ (ns ++ [n])
    · rw [heq, hlast]
    · rw [hframe q heq, h.way q ((onWay_concat.mp hq).resolve_left heq)]
  · have hnot := mt onWay_concat.mpr hq
    rw [not_or] at hnot
    rw [hframe q hnot.1, h.frame q hnot.2]

section Below

variable (ht : t.WellFormed) (hlead : Path.IsLead lead) (hts : ∀ n ∈ ts, Path.IsName n)
  (hT : t.walk true maxLinks [] ts = .ok T) (hdir : t.find? T = some .directory)
include hts hT hdir hlead

/-- A path below a directory goes on from there. -/
theorem locate_below (cwd : Text) (hns : ∀ n ∈ ns, Path.IsName n) (hne : ns ≠ []) :
    ∃ k, ∀ fl, t.locate fl cwd (Path.write lead (ts ++ ns)) = t.walk fl k T ns := by
  obtain ⟨k, -, hwalk⟩ := walk_append hT hdir
  have hn : ∀ n ∈ ts ++ ns, Path.IsName n := fun n hn =>
    (List.mem_append.mp hn).elim (hts n) (hns n)
  refine ⟨k, fun fl => ?_⟩
  rw [locate_normal (Path.isNormal_write hlead hn), Path.names_write hlead hn, hwalk fl ns hne]

include ht

/-- A path down through directories. -/
theorem locate_down (cwd : Text) (hns : ∀ n ∈ ns, Path.IsName n) (hne : ns ≠ [])
    (hd : t.find? (T ++ ns.dropLast) = some .directory)
    (hl : ∀ target, t.find? (T ++ ns) ≠ some (.link target)) (fl : Bool) :
    t.locate fl cwd (Path.write lead (ts ++ ns)) = .ok (T ++ ns) := by
  obtain ⟨k, hk⟩ := locate_below hlead hts hT hdir cwd hns hne
  rw [hk fl]
  refine walk_down hns (fun ms hpre hms hms' => ht.find?_onWay hd ⟨ms, hms, ?_, rfl⟩) hl fl k
  rw [← List.dropLast_append_getLast hne] at hpre hms'
  exact (List.prefix_concat_iff.mp hpre).resolve_left hms'

/-- A directory made in one that is there. -/
theorem makeOne_down (cwd : Text) (hns : ∀ m ∈ ns ++ [n], Path.IsName m)
    (hd : t.find? (T ++ ns) = some .directory)
    (hf : t.find? (T ++ (ns ++ [n])) = none ∨ t.find? (T ++ (ns ++ [n])) = some .directory) :
    ∃ u, t.makeOne cwd (Path.write lead (ts ++ (ns ++ [n]))) true = .ok u ∧ u.WellFormed ∧
      u.find? (T ++ (ns ++ [n])) = some .directory ∧
      ∀ q, q ≠ T ++ (ns ++ [n]) → u.find? q = t.find? q := by
  have hn : ∀ m ∈ ts ++ (ns ++ [n]), Path.IsName m := fun m hm =>
    (List.mem_append.mp hm).elim (hts m) (hns m)
  have hnormal := Path.isNormal_write hlead hn
  have hlocate := locate_down ht hlead hts hT hdir cwd hns (by simp)
    (by rwa [List.dropLast_concat])
    (fun target hlink => by rcases hf with hf | hf <;> rw [hf] at hlink <;> cases hlink)
  rcases hf with hf | hf
  · have hset := fun q => find?_set (t := t) (p := T ++ (ns ++ [n])) (by simp) .directory q
    refine ⟨_, makeOne_new (hlocate false) hf true, ?_, ?_, fun q hq => ?_⟩
    · rw [← List.append_assoc] at hf ⊢
      exact (grown_set ht hd (hns n (by simp)) hf).wellFormed
    · rw [hset, if_pos rfl]
    · rw [hset, if_neg hq]
  · exact ⟨t, makeOne_of_isDirectory ht (isDirectory_iff.mpr ⟨_, hlocate true, hf⟩), ht,
      hf, fun _ _ => rfl⟩

/-- A directory is not made in one that is missing. -/
theorem makeOne_missing (cwd : Text) (hns : ∀ m ∈ ns ++ [n], Path.IsName m) (hclear : t.Clear T ns)
    (hf : t.find? (T ++ ns) = none) :
    t.makeOne cwd (Path.write lead (ts ++ (ns ++ [n]))) true = .error .notFound := by
  obtain ⟨k, hk⟩ := locate_below hlead hts hT hdir cwd hns (by simp)
  have hmissing : t.walk false k T (ns ++ [n]) = .error .notFound := by
    rcases exists_missing hdir hf with ⟨as, m, bs, rfl, has, hm⟩ | ⟨as, hpre, hne, hnot, hnot'⟩
    · rw [List.append_assoc, List.cons_append]
      refine walk_missing (fun x hx => hns x (by simp [hx])) (hns m (by simp)) ?_ hm (by simp) _ _
      rintro ms ⟨cs, rfl⟩ -
      by_cases hcs : cs = []
      · rwa [hcs, List.append_nil] at has
      · rw [← List.append_assoc] at has
        exact ht.find?_above hcs (by rw [has]; exact Option.some_ne_none _)
    · exact ((hclear as hpre hne).elim hnot hnot').elim
  exact makeOne_nowhere ((hk false).trans hmissing) true

/-- The directories made below a place, if nothing else is in the way. -/
theorem makeDirectories_below (cwd : Text) (hns : ∀ n ∈ ns, Path.IsName n) (hclear : t.Clear T ns) :
    ∃ u, t.makeDirectories cwd (Path.write lead (ts ++ ns)) true = .ok u ∧ Paved t u T ns := by
  induction ns using List.reverseRecOn with
  | nil =>
    have hnormal := Path.isNormal_write hlead hts
    have hisdir : t.isDirectory cwd (Path.write lead ts) = true := by
      refine isDirectory_iff.mpr ⟨T, ?_, hdir⟩
      rw [locate_normal hnormal, Path.names_write hlead hts, hT]
    rw [List.append_nil]
    refine ⟨t, makeDirectories_of_isDirectory ht hnormal hisdir, ht.paved ?_⟩
    rwa [List.append_nil]
  | append_singleton ns n ih =>
    have hfront : ∀ m ∈ ns, Path.IsName m := fun m hm => hns m (by simp [hm])
    have hn : ∀ m ∈ ts ++ (ns ++ [n]), Path.IsName m := fun m hm =>
      (List.mem_append.mp hm).elim (hts m) (hns m)
    have hclear' := hclear.of_prefix (List.prefix_append ns [n])
    have hunfold := makeDirectories_concat t hlead cwd true
      (List.append_assoc ts ns [n] ▸ hn)
    rw [List.append_assoc] at hunfold
    by_cases hd : t.find? (T ++ ns) = some .directory
    · obtain ⟨u, hu, hwf, hlast, hframe⟩ := makeOne_down ht hlead hts hT hdir cwd hns hd
        (hclear _ (List.prefix_refl _) (by simp))
      exact ⟨u, by rw [hunfold, hu], (ht.paved hd).concat hwf hlast hframe⟩
    · -- the last directory can be made only after those above it
      have hne : ns ≠ [] := by
        rintro rfl
        rw [List.append_nil] at hd
        exact hd hdir
      have hnone := (hclear' ns (List.prefix_refl ns) hne).resolve_right hd
      have hmissing := makeOne_missing ht hlead hts hT hdir cwd hns hclear' hnone
      obtain ⟨v, hv, hpaved⟩ := ih hfront hclear'
      have hgrown := grown_makeDirectories ht hv
      have hTv : v.walk true maxLinks [] ts = .ok T :=
        hgrown.walk hT (by rw [hdir]; exact Option.some_ne_none _)
      have hdirv : v.find? T = some .directory := by
        rw [hgrown.find? (by rw [hdir]; exact Option.some_ne_none _), hdir]
      have hlast : v.find? (T ++ (ns ++ [n])) = none ∨
          v.find? (T ++ (ns ++ [n])) = some .directory := by
        rcases hgrown.grows (T ++ (ns ++ [n])) with h | h
        · rw [h]
          exact hclear _ (List.prefix_refl _) (by simp)
        · exact Or.inr h.2
      obtain ⟨u, hu, hwfu, hlastu, hframeu⟩ := makeOne_down hpaved.wellFormed hlead hts hTv hdirv
        cwd hns (hpaved.way _ ⟨ns, hne, List.prefix_refl ns, rfl⟩) hlast
      exact ⟨u, by rw [hunfold, hmissing, hv]; exact hu, hpaved.concat hwfu hlastu hframeu⟩

end Below

/-- What takes the place of an old file, or of a link. -/
theorem replaceFile_eq_ok (h : t.replaceFile cwd path bytes = .ok u) :
    ∃ q, t.locate false cwd path = .ok q ∧ q ≠ [] ∧ u = t.set q (.file bytes) := by
  rw [replaceFile] at h
  split at h
  · cases h
  rename_i q hl
  split at h
  · cases h
  · rename_i hnot
    exact ⟨q, hl, fun hq => hnot (hq ▸ rfl), (Except.ok.inj h).symm⟩

/-- Writing to a file, or where a file can be. -/
theorem write_eq_ok (hl : t.locate true cwd path = .ok p) (hf : t.find? p ≠ some .directory)
    (bytes : Bytes) : t.write cwd path bytes = .ok (t.set p (.file bytes)) := by
  rw [write, hl]
  dsimp only
  split
  · rename_i hdir
    exact absurd hdir hf
  · rfl

/-- A file copied to another place that is not a directory. -/
theorem copy_eq_ok {source target : Text} (hsource : t.locate true cwd source = .ok p)
    (hbytes : t.find? p = some (.file bytes)) (htarget : t.locate true cwd target = .ok q)
    (hf : t.find? q ≠ some .directory) (hne : p ≠ q) :
    t.copy cwd source target = .ok (t.set q (.file bytes)) := by
  have hnot : t.isDirectory cwd target = false := by
    rw [← Bool.not_eq_true, isDirectory_iff]
    rintro ⟨r, hr, hdir⟩
    rw [htarget, Except.ok.injEq] at hr
    exact hf (hr ▸ hdir)
  have hother : t.sameEntry cwd source target = false := by
    rw [sameEntry, hsource, htarget]
    simp [hne]
  have hread := read_eq_ok.mpr ⟨p, hsource, hbytes⟩
  rw [copy]
  simp only [hnot, Bool.false_eq_true, if_false, hother, hread]
  exact write_eq_ok htarget hf bytes

end Tree
end ModuleGraph
