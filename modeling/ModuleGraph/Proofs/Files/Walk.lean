import ModuleGraph.Files.Walk
import ModuleGraph.Proofs.Files.Tree
import ModuleGraph.Proofs.Path.Follow

/-!
Where paths lead, and what that depends on.

* `Goes`, `walk_eq_ok`: the ways in which a path leads to a place;
* `walk_leads`: a path leads to the same place in every tree that has the directories and links;
* `SameWays.walk_iff`: files may come, go and change without changing where paths lead;
* `walk_result`: a path leads to a directory or to an entry of one, which may be missing;
* `walk_append`, `walk_split`: a path goes through a directory if one of its beginnings leads there;
* `walk_down`, `walk_missing`: a path without links on it;
* `walk_eq_follow`: where there are no links a path leads to where its steps do;
* `locate_normal`: a path in normal form is walked by its names.
-/

namespace ModuleGraph

/-- Can a path go on at this entry? -/
def Entry.leadsOn : Entry → Bool
  | .file _ => false
  | _ => true

namespace Tree

variable {t u : Tree} {p q here mid : Place} {e : Entry} {n step : Text} {fl : Bool} {k : Nat}
  {steps xs ys ns rest : List Text} {cwd path : Text}

/-- What a path finds at a place if it can go on there. -/
def way (t : Tree) (p : Place) : Option Entry := (t.find? p).filter Entry.leadsOn

/-- Every directory and every link of the first tree is one of the second. -/
def Leads (t u : Tree) : Prop := ∀ q e, t.way q = some e → u.way q = some e

theorem way_eq_some : t.way p = some e ↔ t.find? p = some e ∧ e.leadsOn = true := by
  rw [way, Option.filter_eq_some_iff]

theorem way_eq_none : t.way p = none ↔ t.find? p = none ∨ ∃ b, t.find? p = some (.file b) := by
  rw [way]
  cases t.find? p with
  | none => simp
  | some e => cases e <;> simp [Entry.leadsOn]

theorem way_missing (h : t.find? p = none) : t.way p = none := way_eq_none.mpr (Or.inl h)

theorem way_file {bytes : Bytes} (h : t.find? p = some (.file bytes)) : t.way p = none :=
  way_eq_none.mpr (Or.inr ⟨bytes, h⟩)

theorem way_of_find? (h : u.find? p = t.find? p) : u.way p = t.way p := by rw [way, way, h]

theorem way_directory (h : t.find? p = some .directory) : t.way p = some .directory :=
  way_eq_some.mpr ⟨h, rfl⟩

theorem way_link {target : Text} (h : t.find? p = some (.link target)) :
    t.way p = some (.link target) := way_eq_some.mpr ⟨h, rfl⟩

theorem Leads.find?_directory (h : t.Leads u) (hp : t.find? p = some .directory) :
    u.find? p = some .directory := (way_eq_some.mp (h p _ (way_directory hp))).1

theorem Leads.find?_link (h : t.Leads u) {target : Text} (hp : t.find? p = some (.link target)) :
    u.find? p = some (.link target) := (way_eq_some.mp (h p _ (way_link hp))).1

theorem walk_nil (t : Tree) (fl : Bool) (k : Nat) (here : Place) :
    t.walk fl k here [] = .ok here := by rw [walk]

theorem walk_skip (h : step = [] ∨ step = Path.here) (fl : Bool) (k : Nat) (here : Place) :
    t.walk fl k here (step :: rest) = t.walk fl k here rest := by rw [walk, if_pos h]

theorem walk_up (h : ¬ (step = [] ∨ step = Path.here)) (hup : step = Path.up) (fl : Bool) (k : Nat)
    (here : Place) : t.walk fl k here (step :: rest) = t.walk fl k here.dropLast rest := by
  rw [walk, if_neg h, if_pos hup]

section Step

variable (h : ¬ (step = [] ∨ step = Path.here)) (hup : step ≠ Path.up)
include h hup

theorem walk_none (hf : t.find? (here ++ [step]) = none) (fl : Bool) (k : Nat) :
    t.walk fl k here (step :: rest) =
      if rest = [] then .ok (here ++ [step]) else .error .notFound := by
  rw [walk, if_neg h, if_neg hup]
  simp only [hf]

theorem walk_file {bytes : Bytes} (hf : t.find? (here ++ [step]) = some (.file bytes)) (fl : Bool)
    (k : Nat) :
    t.walk fl k here (step :: rest) =
      if rest = [] then .ok (here ++ [step]) else .error .notDirectory := by
  rw [walk, if_neg h, if_neg hup]
  simp only [hf]

theorem walk_directory (hf : t.find? (here ++ [step]) = some .directory) (fl : Bool) (k : Nat) :
    t.walk fl k here (step :: rest) = t.walk fl k (here ++ [step]) rest := by
  rw [walk, if_neg h, if_neg hup]
  simp only [hf]

theorem walk_link_last {target : Text} (hf : t.find? (here ++ [step]) = some (.link target))
    (hlast : rest = [] ∧ (!fl) = true) (k : Nat) :
    t.walk fl k here (step :: rest) = .ok (here ++ [step]) := by
  rw [walk, if_neg h, if_neg hup]
  simp only [hf]
  rw [if_pos hlast]

theorem walk_link_follow {target : Text} (hf : t.find? (here ++ [step]) = some (.link target))
    (hlast : ¬ (rest = [] ∧ (!fl) = true)) (k : Nat) :
    t.walk fl (k + 1) here (step :: rest) =
      t.walk fl k (if Path.isAbsolute target then [] else here)
        (target.splitOn Path.slash ++ rest) := by
  rw [walk, if_neg h, if_neg hup]
  simp only [hf]
  rw [if_neg hlast]

end Step

/-- The ways in which a path leads to a place. -/
inductive Goes (t : Tree) (fl : Bool) : Nat → Place → List Text → Place → Prop
  | nil (k : Nat) (here : Place) : Goes t fl k here [] here
  | skip {k : Nat} {here p : Place} {step : Text} {rest : List Text}
      (hskip : step = [] ∨ step = Path.here) (hrest : Goes t fl k here rest p) :
      Goes t fl k here (step :: rest) p
  | up {k : Nat} {here p : Place} {step : Text} {rest : List Text}
      (hmove : ¬ (step = [] ∨ step = Path.here)) (hup : step = Path.up)
      (hrest : Goes t fl k here.dropLast rest p) : Goes t fl k here (step :: rest) p
  | last {k : Nat} {here : Place} {step : Text} (hmove : ¬ (step = [] ∨ step = Path.here))
      (hup : step ≠ Path.up) (hway : t.way (here ++ [step]) = none) :
      Goes t fl k here [step] (here ++ [step])
  | directory {k : Nat} {here p : Place} {step : Text} {rest : List Text}
      (hmove : ¬ (step = [] ∨ step = Path.here)) (hup : step ≠ Path.up)
      (hfind : t.find? (here ++ [step]) = some .directory)
      (hrest : Goes t fl k (here ++ [step]) rest p) : Goes t fl k here (step :: rest) p
  | link {k : Nat} {here : Place} {step target : Text} (hfl : fl = false)
      (hmove : ¬ (step = [] ∨ step = Path.here)) (hup : step ≠ Path.up)
      (hfind : t.find? (here ++ [step]) = some (.link target)) :
      Goes t fl k here [step] (here ++ [step])
  | follow {k : Nat} {here p : Place} {step target : Text} {rest : List Text}
      (hmove : ¬ (step = [] ∨ step = Path.here)) (hup : step ≠ Path.up)
      (hfind : t.find? (here ++ [step]) = some (.link target)) (hfl : rest = [] → fl = true)
      (hrest : Goes t fl k (if Path.isAbsolute target then [] else here)
        (target.splitOn Path.slash ++ rest) p) : Goes t fl (k + 1) here (step :: rest) p

theorem goes_of_walk (h : t.walk fl k here steps = .ok p) : Goes t fl k here steps p := by
  fun_induction walk t fl k here steps with
  | case1 k here =>
    obtain rfl := Except.ok.inj h
    exact .nil k here
  | case2 k here step rest hskip ih => exact .skip hskip (ih h)
  | case3 k here rest hmove ih => exact .up hmove rfl (ih h)
  | case4 k here step hmove hup place hf =>
    obtain rfl := Except.ok.inj h
    exact .last hmove hup (way_missing hf)
  | case6 k here step hmove hup place b hf =>
    obtain rfl := Except.ok.inj h
    exact .last hmove hup (way_file hf)
  | case8 k here step rest hmove hup place hf ih => exact .directory hmove hup hf (ih h)
  | case9 k here step rest hmove hup place target hf hend =>
    obtain ⟨rfl, hfl⟩ := hend
    obtain rfl := Except.ok.inj h
    exact .link (by simpa using hfl) hmove hup hf
  | case11 here step rest hmove hup place target hf hend k start ih =>
    exact .follow hmove hup hf (fun hrest => by simpa [hrest] using hend) (ih h)
  | case5 | case7 | case10 => cases h

theorem Goes.walk_eq (h : Goes t fl k here steps p) : t.walk fl k here steps = .ok p := by
  induction h with
  | nil => rw [walk_nil]
  | skip hskip _ ih => rw [walk_skip hskip, ih]
  | up hmove hup _ ih => rw [walk_up hmove hup, ih]
  | last hmove hup hway =>
    obtain hf | ⟨b, hf⟩ := way_eq_none.mp hway
    · rw [walk_none hmove hup hf, if_pos rfl]
    · rw [walk_file hmove hup hf, if_pos rfl]
  | directory hmove hup hfind _ ih => rw [walk_directory hmove hup hfind, ih]
  | link hfl hmove hup hfind => rw [walk_link_last hmove hup hfind ⟨rfl, by simp [hfl]⟩]
  | follow hmove hup hfind hfl _ ih =>
    rw [walk_link_follow hmove hup hfind fun hend => by simp [hfl hend.1] at hend, ih]

theorem walk_eq_ok : t.walk fl k here steps = .ok p ↔ Goes t fl k here steps p :=
  ⟨goes_of_walk, Goes.walk_eq⟩

/-- A path leads to the same place in a tree that has all the directories and links. -/
theorem walk_leads (h : t.Leads u) (hw : t.walk fl k here steps = .ok p)
    (hp : t.way p = none → u.way p = none) : u.walk fl k here steps = .ok p := by
  rw [walk_eq_ok] at hw ⊢
  induction hw with
  | nil k here => exact .nil k here
  | skip hskip _ ih => exact .skip hskip (ih hp)
  | up hmove hup _ ih => exact .up hmove hup (ih hp)
  | last hmove hup hway => exact .last hmove hup (hp hway)
  | directory hmove hup hfind _ ih => exact .directory hmove hup (h.find?_directory hfind) (ih hp)
  | link hfl hmove hup hfind => exact .link hfl hmove hup (h.find?_link hfind)
  | follow hmove hup hfind hfl _ ih => exact .follow hmove hup (h.find?_link hfind) hfl (ih hp)

/-- Two trees with the same directories and the same links. -/
def SameWays (t u : Tree) : Prop := ∀ q, u.way q = t.way q

theorem SameWays.symm (h : t.SameWays u) : u.SameWays t := fun q => (h q).symm

theorem SameWays.leads (h : t.SameWays u) : t.Leads u := fun q _ hq => (h q).trans hq

/-- The contents of files, and which are there, do not change where a path leads. -/
theorem SameWays.walk_iff (h : t.SameWays u) :
    u.walk fl k here steps = .ok p ↔ t.walk fl k here steps = .ok p :=
  ⟨fun hw => walk_leads h.symm.leads hw fun hq => (h p) ▸ hq,
    fun hw => walk_leads h.leads hw fun hq => (h p).trans hq⟩

theorem SameWays.locate_iff (h : t.SameWays u) :
    u.locate fl cwd path = .ok p ↔ t.locate fl cwd path = .ok p := by
  rw [locate, locate]
  split
  · exact Iff.rfl
  · exact h.walk_iff

theorem SameWays.find?_directory (h : t.SameWays u) :
    u.find? p = some .directory ↔ t.find? p = some .directory :=
  ⟨h.symm.leads.find?_directory, h.leads.find?_directory⟩

/-- Steps of a path: no slash is in them. -/
def IsSteps (steps : List Text) : Prop := ∀ s ∈ steps, Path.slash ∉ s

theorem isSteps_splitOn (p : Text) : IsSteps (p.splitOn Path.slash) :=
  fun _ => Text.not_mem_of_mem_splitOn

theorem IsSteps.tail (h : IsSteps (step :: rest)) : IsSteps rest :=
  fun s hs => h s (List.mem_cons_of_mem _ hs)

theorem IsSteps.append (h : IsSteps xs) (h' : IsSteps ys) : IsSteps (xs ++ ys) :=
  fun s hs => (List.mem_append.mp hs).elim (h s) (h' s)

theorem isSteps_of_isName (h : ∀ n ∈ ns, Path.IsName n) : IsSteps ns :=
  fun n hn => (h n hn).no_slash

theorem IsSteps.isName (h : IsSteps (step :: rest)) (hs : ¬ (step = [] ∨ step = Path.here))
    (hup : step ≠ Path.up) : Path.IsName step :=
  ⟨h step List.mem_cons_self, fun hn => hs (Or.inl hn), fun hn => hs (Or.inr hn), hup⟩

theorem WellFormed.find?_dropLast (ht : t.WellFormed) (h : t.find? here = some .directory) :
    t.find? here.dropLast = some .directory := by
  rcases List.eq_nil_or_concat here with rfl | ⟨front, m, rfl⟩
  · rfl
  · rw [List.concat_eq_append] at h ⊢
    rw [List.dropLast_concat]
    exact ht.above front m (by rw [h]; exact Option.some_ne_none _)

theorem find?_start (h : t.find? here = some .directory) (target : Text) :
    t.find? (if Path.isAbsolute target then [] else here) = some .directory := by
  split
  · rfl
  · exact h

/-- A path leads to a directory, or to an entry of a directory that may be missing. -/
theorem walk_result (ht : t.WellFormed) (hs : IsSteps steps)
    (hhere : t.find? here = some .directory) (h : t.walk fl k here steps = .ok p) :
    t.find? p = some .directory ∨
      ∃ D n, p = D ++ [n] ∧ Path.IsName n ∧ t.find? D = some .directory := by
  rw [walk_eq_ok] at h
  induction h with
  | nil => exact Or.inl hhere
  | skip _ _ ih => exact ih hs.tail hhere
  | up _ _ _ ih => exact ih hs.tail (ht.find?_dropLast hhere)
  | last hmove hup | link _ hmove hup => exact Or.inr ⟨_, _, rfl, hs.isName hmove hup, hhere⟩
  | directory _ _ hfind _ ih => exact ih hs.tail hfind
  | @follow _ _ _ _ target _ _ _ _ _ _ ih =>
    exact ih ((isSteps_splitOn target).append hs.tail) (find?_start hhere target)

/-- A path that is followed to its end does not lead to a link. -/
theorem walk_ne_link (hhere : t.find? here = some .directory) (ht : t.WellFormed)
    (h : t.walk true k here steps = .ok p) (target : Text) : t.find? p ≠ some (.link target) := by
  rw [walk_eq_ok] at h
  induction h with
  | nil => simp [hhere]
  | skip _ _ ih => exact ih hhere
  | up _ _ _ ih => exact ih (ht.find?_dropLast hhere)
  | last _ _ hway =>
    intro hlink
    rw [way_link hlink] at hway
    cases hway
  | directory _ _ hfind _ ih => exact ih hfind
  | link hfl => cases hfl
  | @follow _ _ _ _ target' _ _ _ _ _ _ ih => exact ih (find?_start hhere target')

/-- Behind a beginning that leads to a directory, a path goes on from there. -/
theorem walk_append (h : t.walk true k here xs = .ok mid) (hmid : t.find? mid = some .directory) :
    ∃ k' ≤ k, ∀ fl ys, ys ≠ [] → t.walk fl k here (xs ++ ys) = t.walk fl k' mid ys := by
  rw [walk_eq_ok] at h
  induction h with
  | nil k here => exact ⟨k, Nat.le_refl k, fun fl ys _ => rfl⟩
  | skip hskip _ ih =>
    obtain ⟨k', hk, hys⟩ := ih hmid
    refine ⟨k', hk, fun fl ys hne => ?_⟩
    rw [List.cons_append, walk_skip hskip, hys fl ys hne]
  | up hmove hup _ ih =>
    obtain ⟨k', hk, hys⟩ := ih hmid
    refine ⟨k', hk, fun fl ys hne => ?_⟩
    rw [List.cons_append, walk_up hmove hup, hys fl ys hne]
  | last _ _ hway =>
    rw [way_directory hmid] at hway
    cases hway
  | directory hmove hup hfind _ ih =>
    obtain ⟨k', hk, hys⟩ := ih hmid
    refine ⟨k', hk, fun fl ys hne => ?_⟩
    rw [List.cons_append, walk_directory hmove hup hfind, hys fl ys hne]
  | link hfl => cases hfl
  | follow hmove hup hfind _ _ ih =>
    obtain ⟨k', hk, hys⟩ := ih hmid
    refine ⟨k', Nat.le_succ_of_le hk, fun fl ys hne => ?_⟩
    rw [List.cons_append, walk_link_follow hmove hup hfind (by simp [hne]), ← List.append_assoc,
      hys fl ys hne]

/-- Before its last steps a path leads to a directory. -/
theorem walk_split (ht : t.WellFormed) (hhere : t.find? here = some .directory) (hne : ys ≠ [])
    (h : t.walk fl k here (xs ++ ys) = .ok p) :
    ∃ mid, t.walk true k here xs = .ok mid ∧ t.find? mid = some .directory := by
  simp only [walk_eq_ok] at h ⊢
  generalize hzs : xs ++ ys = zs at h
  induction h generalizing xs with
  | nil => exact absurd (List.append_eq_nil_iff.mp hzs).2 hne
  | skip hskip _ ih =>
    rcases List.append_eq_cons_iff.mp hzs with ⟨rfl, -⟩ | ⟨xs, rfl, rfl⟩
    · exact ⟨_, .nil _ _, hhere⟩
    · obtain ⟨mid, hmid, hdir⟩ := ih hhere rfl
      exact ⟨mid, .skip hskip hmid, hdir⟩
  | up hmove hup _ ih =>
    rcases List.append_eq_cons_iff.mp hzs with ⟨rfl, -⟩ | ⟨xs, rfl, rfl⟩
    · exact ⟨_, .nil _ _, hhere⟩
    · obtain ⟨mid, hmid, hdir⟩ := ih (ht.find?_dropLast hhere) rfl
      exact ⟨mid, .up hmove hup hmid, hdir⟩
  | last | link =>
    obtain ⟨rfl, -⟩ | ⟨-, hys⟩ := List.append_eq_singleton_iff.mp hzs
    · exact ⟨_, .nil _ _, hhere⟩
    · exact absurd hys hne
  | directory hmove hup hfind _ ih =>
    rcases List.append_eq_cons_iff.mp hzs with ⟨rfl, -⟩ | ⟨xs, rfl, rfl⟩
    · exact ⟨_, .nil _ _, hhere⟩
    · obtain ⟨mid, hmid, hdir⟩ := ih hfind rfl
      exact ⟨mid, .directory hmove hup hfind hmid, hdir⟩
  | @follow _ _ _ _ target _ hmove hup hfind _ _ ih =>
    rcases List.append_eq_cons_iff.mp hzs with ⟨rfl, -⟩ | ⟨xs, rfl, rfl⟩
    · exact ⟨_, .nil _ _, hhere⟩
    · obtain ⟨mid, hmid, hdir⟩ := ih (find?_start hhere target) (List.append_assoc _ _ _)
      exact ⟨mid, .follow hmove hup hfind (fun _ => rfl) hmid, hdir⟩

/-- A path that is there when it is followed to its end is there when it is not. -/
theorem walk_false_of_true (h : t.walk true k here steps = .ok p) (hp : t.find? p ≠ none)
    (hhere : t.find? here = some .directory) (ht : t.WellFormed) :
    ∃ q, t.walk false k here steps = .ok q ∧ t.find? q ≠ none := by
  simp only [walk_eq_ok] at h ⊢
  induction h with
  | nil k here => exact ⟨here, .nil k here, hp⟩
  | skip hskip _ ih =>
    obtain ⟨q, hq, hthere⟩ := ih hp hhere
    exact ⟨q, .skip hskip hq, hthere⟩
  | up hmove hup _ ih =>
    obtain ⟨q, hq, hthere⟩ := ih hp (ht.find?_dropLast hhere)
    exact ⟨q, .up hmove hup hq, hthere⟩
  | last hmove hup hway => exact ⟨_, .last hmove hup hway, hp⟩
  | directory hmove hup hfind _ ih =>
    obtain ⟨q, hq, hthere⟩ := ih hp hfind
    exact ⟨q, .directory hmove hup hfind hq, hthere⟩
  | link hfl => cases hfl
  | @follow _ _ _ _ target rest hmove hup hfind _ _ ih =>
    by_cases hrest : rest = []
    · subst hrest
      exact ⟨_, .link rfl hmove hup hfind, by simp [hfind]⟩
    · obtain ⟨q, hq, hthere⟩ := ih hp (find?_start hhere target)
      exact ⟨q, .follow hmove hup hfind (fun h => absurd h hrest) hq, hthere⟩

theorem not_skipped (h : Path.IsName n) : ¬ (n = [] ∨ n = Path.here) :=
  fun hn => hn.elim h.ne_nil h.ne_here

/-- A path that does not end at a link leads where it ends. -/
theorem walk_true_of_false (h : t.walk false k here steps = .ok p)
    (hlink : ∀ target, t.find? p ≠ some (.link target)) : t.walk true k here steps = .ok p := by
  rw [walk_eq_ok] at h ⊢
  induction h with
  | nil k here => exact .nil k here
  | skip hskip _ ih => exact .skip hskip (ih hlink)
  | up hmove hup _ ih => exact .up hmove hup (ih hlink)
  | last hmove hup hway => exact .last hmove hup hway
  | directory hmove hup hfind _ ih => exact .directory hmove hup hfind (ih hlink)
  | link _ _ _ hfind => exact absurd hfind (hlink _)
  | follow hmove hup hfind _ _ ih => exact .follow hmove hup hfind (fun _ => rfl) (ih hlink)

/-- One more step leads to the entry of that name. -/
theorem walk_singleton {n : Text} (hn : Path.IsName n) (k : Nat) (here : Place) :
    t.walk false k here [n] = .ok (here ++ [n]) := by
  cases hf : t.find? (here ++ [n]) with
  | none => rw [walk_none (not_skipped hn) hn.ne_up hf, if_pos rfl]
  | some e =>
    cases e with
    | file bytes => rw [walk_file (not_skipped hn) hn.ne_up hf, if_pos rfl]
    | directory => rw [walk_directory (not_skipped hn) hn.ne_up hf, walk_nil]
    | link target => rw [walk_link_last (not_skipped hn) hn.ne_up hf ⟨rfl, rfl⟩]

/-- A path of names that goes down through directories leads down, if no link is at its end. -/
theorem walk_down (hn : ∀ n ∈ ns, Path.IsName n)
    (hd : ∀ ms, ms <+: ns → ms ≠ [] → ms ≠ ns → t.find? (here ++ ms) = some .directory)
    (hl : ∀ target, t.find? (here ++ ns) ≠ some (.link target)) (fl : Bool) (k : Nat) :
    t.walk fl k here ns = .ok (here ++ ns) := by
  induction ns generalizing here with
  | nil => rw [walk_nil, List.append_nil]
  | cons n ns ih =>
    have hname := hn n List.mem_cons_self
    have hskip := not_skipped hname
    cases ns with
    | nil =>
      cases hf : t.find? (here ++ [n]) with
      | none => rw [walk_none hskip hname.ne_up hf, if_pos rfl]
      | some e =>
        cases e with
        | file b => rw [walk_file hskip hname.ne_up hf, if_pos rfl]
        | directory => rw [walk_directory hskip hname.ne_up hf, walk_nil]
        | link target => exact absurd hf (hl target)
    | cons m ns =>
      have hf := hd [n] ⟨m :: ns, rfl⟩ (by simp) (by simp)
      have hassoc : here ++ n :: m :: ns = (here ++ [n]) ++ m :: ns := by simp
      rw [walk_directory hskip hname.ne_up hf, hassoc]
      refine ih (fun x hx => hn x (List.mem_cons_of_mem _ hx)) (fun ms hpre hne hne' => ?_)
        (fun target => hassoc ▸ hl target)
      have hcons := hd (n :: ms) (List.cons_prefix_cons.mpr ⟨rfl, hpre⟩) (by simp)
        fun heq => hne' (List.cons_eq_cons.mp heq).2
      simpa using hcons

/-- Where there are no links a path that leads anywhere leads to where its steps do. -/
theorem walk_eq_follow (hlinks : ∀ q target, t.find? q ≠ some (.link target))
    (h : t.walk fl k here steps = .ok p) : p = Path.follow here steps := by
  rw [walk_eq_ok] at h
  induction h with
  | nil => rfl
  | skip hskip _ ih => rw [Path.follow_cons, Path.step, if_pos hskip, ih]
  | up _ hup _ ih => rw [Path.follow_cons, hup, Path.step_up, ih]
  | last hmove hup =>
    rw [Path.follow_cons, Path.step, if_neg hmove, if_neg hup]
    rfl
  | directory hmove hup _ _ ih =>
    rw [Path.follow_cons, Path.step, if_neg hmove, if_neg hup, ih]
  | link _ _ _ hfind | follow _ _ hfind => exact absurd hfind (hlinks _ _)

/-- A path whose first missing entry is not its last one leads nowhere. -/
theorem walk_missing (hn : ∀ n ∈ xs, Path.IsName n) (hname : Path.IsName n)
    (hd : ∀ ms, ms <+: xs → ms ≠ [] → t.find? (here ++ ms) = some .directory)
    (hf : t.find? (here ++ xs ++ [n]) = none) (hne : ys ≠ []) (fl : Bool) (k : Nat) :
    t.walk fl k here (xs ++ n :: ys) = .error .notFound := by
  induction xs generalizing here with
  | nil =>
    rw [List.append_nil] at hf
    rw [List.nil_append, walk_none (not_skipped hname) hname.ne_up hf, if_neg hne]
  | cons x xs ih =>
    have hx := hn x List.mem_cons_self
    have hfx := hd [x] ⟨xs, rfl⟩ (by simp)
    rw [List.cons_append, walk_directory (not_skipped hx) hx.ne_up hfx]
    refine ih (fun y hy => hn y (List.mem_cons_of_mem _ hy)) (fun ms hpre hne => ?_) ?_
    · have hcons := hd (x :: ms) (List.cons_prefix_cons.mpr ⟨rfl, hpre⟩) (by simp)
      simpa using hcons
    · simpa using hf

/-- A path in normal form is walked by its names, whatever slashes it begins with. -/
theorem locate_normal (h : Path.IsNormal path) (t : Tree) (fl : Bool) (cwd : Text) :
    t.locate fl cwd path = t.walk fl maxLinks [] (Path.names path) := by
  have hne : path ≠ [] := by
    rintro rfl
    cases h.absolute
  have hempty : ∀ ns : List Text, (∀ n ∈ ns, Path.IsName n) →
      t.walk fl maxLinks [] ((Text.join [Path.slash] ns).splitOn Path.slash) =
        t.walk fl maxLinks [] ns := by
    intro ns hns
    cases ns with
    | nil => exact walk_skip (Or.inl rfl) _ _ _
    | cons n ns =>
      rw [Text.splitOn_join (fun m hm => (hns m hm).no_slash) (List.cons_ne_nil _ _)]
  have hlead : ∀ rest : Text,
      t.walk fl maxLinks [] (Text.splitOn Path.slash (Path.slash :: rest)) =
        t.walk fl maxLinks [] (Text.splitOn Path.slash rest) := by
    intro rest
    have hsplit : Text.splitOn Path.slash (Path.slash :: rest) =
        [] :: Text.splitOn Path.slash rest := Text.splitOn_append_cons List.not_mem_nil rest
    rw [hsplit, walk_skip (Or.inl rfl)]
  have hsplit : t.walk fl maxLinks [] (path.splitOn Path.slash) =
      t.walk fl maxLinks [] (Path.names path) := by
    conv_lhs => rw [h.eq_write, h.isLead.write_eq]
    rcases h.isLead with hl | hl <;> rw [hl]
    · rw [List.singleton_append, hlead, hempty _ h.isName]
    · rw [List.cons_append, List.singleton_append, hlead, hlead, hempty _ h.isName]
  rw [locate, if_neg hne, Path.join, if_pos h.absolute, hsplit]

/-- Where there are no links a path leads to the place that its normal form names. -/
theorem locate_eq_names (hlinks : ∀ q target, t.find? q ≠ some (.link target))
    (hcwd : Path.isAbsolute cwd = true) (h : t.locate fl cwd path = .ok p) :
    p = Path.names (Path.absolute cwd path) := by
  have hjoin : (if Path.isAbsolute path then path else Path.join cwd path) =
      Path.join cwd path := by
    split
    · rename_i habsolute
      rw [Path.join, if_pos habsolute]
    · rfl
  rw [locate] at h
  split at h
  · cases h
  · rw [Path.absolute, hjoin, Path.names_normalize_follow (Path.isAbsolute_join hcwd path)]
    exact walk_eq_follow hlinks h

end Tree
end ModuleGraph
