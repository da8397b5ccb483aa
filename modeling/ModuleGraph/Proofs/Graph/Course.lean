import ModuleGraph.Proofs.Graph.Once

/-!
The course of the depth-first search, round by round and with no bound on the rounds.

* `Act`, `Course`: the roots taken and the rounds done until the stack is empty and no root is left;
* `exists_course`, `Course.unique`: there is one course, and it ends where the search does;
* `Course.length_rounds`: it takes as many rounds as remain less at its end;
* `Consistent`, `Inv.consistent`: what stack, path, positions and colours say of each other;
* `step?`, `Layout.step?_eq`: nothing that a round asks for is missing;
* `looked?`, `pushed?`, `popped?`, `round_cases`: the edge that a round looks at, and the nodes that
  it puts on the stack and takes off.
-/

namespace ModuleGraph
namespace Search

variable {g : Graph} {s s' : Search} {node root target : Text} {top : Frame} {below : List Frame}
variable {roots : List Text}

/-- The state in which the first round from a root starts. -/
def rooted (g : Graph) (root : Text) (s : Search) : Search :=
  ({ s with path := [], position := [] } : Search).enter g root

/-- What is done next: a root is taken, or a round starts in a state. -/
inductive Act
  | root (node : Text)
  | round (start : Search)
  deriving Repr, DecidableEq

/-- The search from some roots. Rounds are done as long as the stack is not empty; then the next
root is taken if it is white, and passed over if not. -/
inductive Course (g : Graph) : List Text → Search → List Act → Search → Prop
  | done {s : Search} (hs : s.stack = []) : Course g [] s [] s
  | pass {s s' : Search} {root : Text} {roots : List Text} {acts : List Act} (hs : s.stack = [])
      (hc : s.colourOf root ≠ .white) (h : Course g roots s acts s') :
      Course g (root :: roots) s acts s'
  | root {s s' : Search} {root : Text} {roots : List Text} {acts : List Act} (hs : s.stack = [])
      (hw : s.colourOf root = .white) (h : Course g roots (s.rooted g root) acts s') :
      Course g (root :: roots) s (.root root :: acts) s'
  | round {s s' : Search} {roots : List Text} {acts : List Act} (hs : s.stack ≠ [])
      (h : Course g roots (s.step g) acts s') : Course g roots s (.round s :: acts) s'

variable {acts acts' : List Act}

/-- The search goes one way only. -/
theorem Course.unique {t : Search} (h : Course g roots s acts s') (h' : Course g roots s acts' t) :
    acts' = acts ∧ t = s' := by
  induction h generalizing acts' t with
  | done hs =>
    cases h' with
    | done => exact ⟨rfl, rfl⟩
    | round hs' => exact absurd hs hs'
  | pass hs hc _ ih =>
    cases h' with
    | pass _ _ h' => exact ih h'
    | root _ hw => exact absurd hw hc
    | round hs' => exact absurd hs hs'
  | root hs hw _ ih =>
    cases h' with
    | pass _ hc => exact absurd hw hc
    | root _ _ h' =>
      obtain ⟨rfl, rfl⟩ := ih h'
      exact ⟨rfl, rfl⟩
    | round hs' => exact absurd hs hs'
  | round hs _ ih =>
    cases h' with
    | done hs' => exact absurd hs' hs
    | pass hs' => exact absurd hs' hs
    | root hs' => exact absurd hs' hs
    | round _ h' =>
      obtain ⟨rfl, rfl⟩ := ih h'
      exact ⟨rfl, rfl⟩

/-- What goes on after a bounded number of rounds goes on after some rounds. -/
theorem Course.of_run {rounds : Nat} (h : Course g roots (Search.run g rounds s) acts s') :
    ∃ acts', Course g roots s acts' s' := by
  induction rounds generalizing s with
  | zero => exact ⟨acts, h⟩
  | succ rounds ih =>
    rw [Search.run] at h
    split at h
    · exact ⟨acts, h⟩
    · rename_i hs
      obtain ⟨acts', h'⟩ := ih h
      exact ⟨_, .round (fun hnil => hs (List.isEmpty_iff.mpr hnil)) h'⟩

/-- From every list of roots the search ends, and the rounds that it was allowed sufficed. -/
theorem exists_course (hg : g.WellFormed) (hr : roots ⊆ g.nodes) (h : Inv g none s)
    (hs : s.stack = []) : ∃ acts, Course g roots s acts (roots.foldl (visitRoot g) s) := by
  induction roots generalizing s with
  | nil => exact ⟨[], .done hs⟩
  | cons root roots ih =>
    obtain ⟨hi, hstack, -⟩ := h.visitRoot hg hs (hr List.mem_cons_self)
    obtain ⟨acts, hcourse⟩ := ih (fun n hn => hr (List.mem_cons_of_mem _ hn)) hi hstack
    rw [List.foldl_cons]
    rw [visitRoot] at hcourse ⊢
    split at hcourse
    · rename_i hw
      rw [if_pos hw]
      obtain ⟨acts', hcourse⟩ := hcourse.of_run
      exact ⟨_, .root hs hw hcourse⟩
    · rename_i hc
      rw [if_neg hc]
      exact ⟨acts, .pass hs hc hcourse⟩

namespace Act

/-- The state in which a round starts. -/
def round? : Act → Option Search
  | .root _ => none
  | .round s => some s

end Act

/-- All rounds of a course start in states of the search, and it ends in one. -/
theorem Course.reached (h : Course g roots s acts s') (hr : roots ⊆ g.nodes) (hs : Reached g s) :
    (∀ t ∈ acts.filterMap Act.round?, Reached g t ∧ t.stack ≠ []) ∧ Reached g s' := by
  induction h with
  | done => exact ⟨by simp, hs⟩
  | pass _ _ _ ih => exact ih (fun n hn => hr (List.mem_cons_of_mem _ hn)) hs
  | root hnil hw _ ih =>
    exact ih (fun n hn => hr (List.mem_cons_of_mem _ hn))
      (hs.root hnil hw (hr List.mem_cons_self))
  | round hne _ ih =>
    obtain ⟨hrounds, hend⟩ := ih hr hs.step
    refine ⟨fun t ht => ?_, hend⟩
    rw [List.filterMap_cons_some (f := Act.round?) rfl, List.mem_cons] at ht
    rcases ht with rfl | ht
    · exact ⟨hs, hne⟩
    · exact hrounds t ht

/-- A course takes as many rounds as remain less at its end. -/
theorem Course.length_rounds (hg : g.WellFormed) (h : Course g roots s acts s')
    (hr : roots ⊆ g.nodes) (hs : Reached g s) :
    remaining g s = (acts.filterMap Act.round?).length + remaining g s' := by
  induction h with
  | done => exact (Nat.zero_add _).symm
  | pass _ _ _ ih => exact ih (fun n hn => hr (List.mem_cons_of_mem _ hn)) hs
  | @root s _ _ _ _ hnil hw _ ih =>
    have hn := hr List.mem_cons_self
    rw [List.filterMap_cons_none rfl,
      ← ih (fun n hn => hr (List.mem_cons_of_mem _ hn)) (hs.root hnil hw hn)]
    exact (remaining_enter hg (s := { s with path := [], position := [] }) hw hn).symm
  | @round s _ _ _ hne _ ih =>
    obtain ⟨top, below, hstack⟩ := List.exists_cons_of_ne_nil hne
    rw [List.filterMap_cons_some (f := Act.round?) rfl, List.length_cons,
      remaining_step hg (hs.inv hg).layout hstack, ih hr hs.step]
    omega

/-- What stack, path, positions and colours say of each other: the path lists the stack from the
bottom, along edges; the positions are the places in it, and nothing else; its nodes are those that
are grey; and no successor of a black node is white. -/
structure Consistent (g : Graph) (s : Search) : Prop where
  path_eq : s.path = (s.stack.map (·.node)).reverse
  position_eq : ∀ i (hi : i < s.path.length), Entries.get? s.path[i] s.position = some i
  position_mem : ∀ n ∈ Entries.keys s.position, n ∈ s.path
  grey_iff : ∀ n, s.colourOf n = .grey ↔ n ∈ s.path
  path_chain : s.path.IsChain g.Edge
  black_edge : ∀ a b, s.colourOf a = .black → g.Edge a b →
    s.colourOf b = .black ∨ s.colourOf b = .grey

theorem Layout.mem_keys_position (h : Layout g s) :
    node ∈ Entries.keys s.position ↔ node ∈ s.path := by
  rw [Entries.mem_keys_iff, h.position_eq]
  by_cases hm : node ∈ s.path
  · simp [hm]
  · simp [hm]

theorem Inv.consistent (h : Inv g none s) : Consistent g s where
  path_eq := h.layout.path_eq
  position_eq i hi := by
    rw [h.layout.position_eq, if_pos (List.getElem_mem hi), h.layout.path_nodup.idxOf_getElem]
  position_mem n hn := h.layout.mem_keys_position.mp hn
  grey_iff := h.layout.grey_iff
  path_chain := h.layout.path_chain
  black_edge a b ha hab := by
    obtain ⟨c, hc⟩ := h.clocked
    rcases hc.black_edge a b ha hab with hclosing | ⟨hb, -⟩
    · obtain ⟨d, hd, hde⟩ := List.mem_filterMap.mp hclosing
      have hb := (Cycle.mem_nodes_of_mem_edges (Cycle.closingEdge_mem hde)).2
      have hseen := hc.cycles_seen d hd b hb
      cases hcolour : s.colourOf b with
      | white => exact absurd hcolour hseen
      | grey => exact Or.inr rfl
      | black => exact Or.inl rfl
    · exact Or.inl hb

/-- An edge into the grey node `target`, which stands at place `i`, closes a cycle. -/
def closeFrom (i : Nat) (target : Text) (s : Search) : Search :=
  let nodes := s.path.drop i ++ [target]
  let ring := Cycle.ring nodes
  if ring ∈ s.rings then s
  else { s with cycles := s.cycles ++ [⟨nodes⟩], rings := ring :: s.rings }

/-- One round that gives nothing if something that it asks for is missing: the top of the stack, its
next successor, the end of the path, or the position of a node. -/
def step? (g : Graph) (s : Search) : Option Search :=
  s.stack.head?.bind fun top =>
    if top.index = top.targets.length then
      if s.path ≠ [] ∧ top.node ∈ Entries.keys s.position then
        some (s.leave top.node s.stack.tail)
      else none
    else
      top.targets[top.index]?.bind fun target =>
        let s := s.advance top s.stack.tail
        match s.colourOf target with
        | .grey => (Entries.get? target s.position).map fun i => s.closeFrom i target
        | .white => some (s.enter g target)
        | .black => some s

/-- Nothing that a round asks for is missing. -/
theorem Layout.step?_eq (h : Layout g s) (hs : s.stack ≠ []) : s.step? g = some (s.step g) := by
  obtain ⟨top, below, hstack⟩ := List.exists_cons_of_ne_nil hs
  have hmem := h.top_mem_path hstack
  rw [step?, hstack, List.head?_cons, Option.bind_some, List.tail_cons]
  rcases step_cases (g := g) hstack with ⟨ht, he⟩ | ⟨target, ht, hcase⟩
  · have hindex : top.index = top.targets.length :=
      Nat.le_antisymm (h.index_le top (hstack ▸ List.mem_cons_self))
        (List.getElem?_eq_none_iff.mp ht)
    rw [if_pos hindex, if_pos ⟨List.ne_nil_of_mem hmem, h.mem_keys_position.mpr hmem⟩, he]
  · have hlt := (List.getElem?_eq_some_iff.mp ht).1
    rw [if_neg (Nat.ne_of_lt hlt), ht, Option.bind_some]
    simp only [colourOf_advance]
    rcases hcase with ⟨hc, he⟩ | ⟨hc, he⟩ | ⟨hc, he⟩
    · have hposition : Entries.get? target (s.advance top below).position =
          some (s.path.idxOf target) := by
        rw [show (s.advance top below).position = s.position from rfl, h.position_eq,
          if_pos ((h.grey_iff target).mp hc)]
      rw [hc, he, Search.close, hposition]
      rfl
    · rw [hc, he]
    · rw [hc, he]

/-- The edge that a round looks at, if a successor of the top of the stack is left. -/
def looked? (s : Search) : Option (Text × Text) :=
  s.stack.head?.bind fun top => top.targets[top.index]?.map (top.node, ·)

/-- The node that a round puts on the stack: the target of the edge, if it is white. -/
def pushed? (s : Search) : Option Text :=
  (s.looked?.map (·.2)).filter fun target => s.colourOf target = .white

/-- The node that a round takes off the stack, if it looks at no edge. -/
def popped? (s : Search) : Option Text :=
  if s.looked?.isNone then s.stack.head?.map (·.node) else none

/-- All that a round does, together with what it looks at, pushes and pops. -/
theorem round_cases (hs : s.stack = top :: below) :
    (top.targets[top.index]? = none ∧ s.looked? = none ∧ s.pushed? = none ∧
        s.popped? = some top.node ∧ s.step g = s.leave top.node below) ∨
      ∃ target, top.targets[top.index]? = some target ∧ s.looked? = some (top.node, target) ∧
        s.popped? = none ∧
        ((s.colourOf target = .grey ∧ s.pushed? = none ∧
            s.step g = (s.advance top below).close target) ∨
          (s.colourOf target = .white ∧ s.pushed? = some target ∧
            s.step g = (s.advance top below).enter g target) ∨
          (s.colourOf target = .black ∧ s.pushed? = none ∧ s.step g = s.advance top below)) := by
  rcases step_cases (g := g) hs with ⟨ht, he⟩ | ⟨target, ht, hcase⟩
  · have hlooked : s.looked? = none := by simp [looked?, hs, ht]
    exact Or.inl ⟨ht, hlooked, by simp [pushed?, hlooked], by simp [popped?, hlooked, hs], he⟩
  · have hlooked : s.looked? = some (top.node, target) := by simp [looked?, hs, ht]
    refine Or.inr ⟨target, ht, hlooked, by simp [popped?, hlooked], ?_⟩
    rcases hcase with ⟨hc, he⟩ | ⟨hc, he⟩ | ⟨hc, he⟩
    · exact Or.inl ⟨hc, by simp [pushed?, hlooked, hc], he⟩
    · exact Or.inr (Or.inl ⟨hc, by simp [pushed?, hlooked, hc], he⟩)
    · exact Or.inr (Or.inr ⟨hc, by simp [pushed?, hlooked, hc], he⟩)

/-- The stack after a round: the top is one edge further, or away, and on it is what was pushed. -/
theorem stack_step (hs : s.stack ≠ []) :
    (s.step g).stack = (s.pushed?.toList.map fun node => ⟨node, g.successors node, 0⟩) ++
      if s.looked?.isSome then s.stack.modifyHead fun top => { top with index := top.index + 1 }
      else s.stack.tail := by
  obtain ⟨top, below, hstack⟩ := List.exists_cons_of_ne_nil hs
  rcases round_cases (g := g) hstack with
    ⟨-, hlooked, hpushed, -, he⟩ | ⟨target, -, hlooked, -, hcase⟩
  · simp [he, hlooked, hpushed, hstack, leave]
  · rcases hcase with ⟨-, hpushed, he⟩ | ⟨-, hpushed, he⟩ | ⟨-, hpushed, he⟩
    · simp [he, hlooked, hpushed, hstack, (close_eq _ _).2.1, advance]
    · simp [he, hlooked, hpushed, hstack, enter, advance]
    · simp [he, hlooked, hpushed, hstack, advance]

/-- A round in which the search does what it is to do: it starts and ends in a consistent state,
nothing that it asks for is missing, and the stack changes by what it looks at and pushes. -/
structure Orderly (g : Graph) (s : Search) : Prop where
  before : Consistent g s
  found : s.step? g = some (s.step g)
  stack_eq : (s.step g).stack =
    (s.pushed?.toList.map fun node => ⟨node, g.successors node, 0⟩) ++
      if s.looked?.isSome then s.stack.modifyHead fun top => { top with index := top.index + 1 }
      else s.stack.tail
  after : Consistent g (s.step g)

theorem Reached.orderly (hg : g.WellFormed) (h : Reached g s) (hs : s.stack ≠ []) :
    Orderly g s where
  before := (h.inv hg).consistent
  found := (h.inv hg).layout.step?_eq hs
  stack_eq := stack_step hs
  after := (h.step.inv hg).consistent

end Search
end ModuleGraph
