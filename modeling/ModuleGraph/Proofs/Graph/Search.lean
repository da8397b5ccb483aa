import ModuleGraph.Proofs.Graph.Layout

/-!
What the depth-first search knows about edges.

* `Settled`: an edge of which nothing more is to be said, for it closes a reported cycle or leads
  to a black node;
* `Clocked`: there are moments at which nodes came onto the stack and left it, such that every
  other edge of a black node leads to one that left earlier;
* `Inv.step`: the whole invariant is kept by a round of the search.

Two back edges never give the same ring: the nodes of a reported cycle stand in the order in which
they came onto the stack, and of the rotations of a ring only one does. So nothing that the search
leaves out as a repetition is a new cycle.
-/

namespace ModuleGraph
namespace Search

variable {g : Graph} {s s' : Search} {node target : Text} {top : Frame} {below : List Frame}

/-- The edges by which the cycles found so far were closed. -/
def closing (s : Search) : List (Text × Text) := s.cycles.filterMap Cycle.closingEdge

/-- The edge closes a cycle that was found, or its target is done. -/
def Settled (s : Search) (a b : Text) : Prop := (a, b) ∈ s.closing ∨ s.colourOf b = .black

/-- In each frame of a stack the edges looked at are settled, but for the one that led to the
frame above. -/
def Progress (s : Search) : Option Text → List Frame → Prop
  | _, [] => True
  | above, f :: below =>
    (∀ t ∈ f.targets.take f.index, s.Settled f.node t ∨ above = some t) ∧
      Progress s (some f.node) below

/-- The moments at which nodes came onto the stack and left it, and the next moment. -/
structure Stamps where
  entered : Text → Nat
  left : Text → Nat
  now : Nat

/-- The order in which nodes came and went. -/
structure Clocked (g : Graph) (s : Search) (c : Stamps) : Prop where
  entered_lt : ∀ n, s.colourOf n ≠ .white → c.entered n < c.now
  left_lt : ∀ n, s.colourOf n = .black → c.left n < c.now
  path_sorted : s.path.Pairwise fun a b => c.entered a < c.entered b
  cycles_sorted : ∀ d ∈ s.cycles, d.nodes.dropLast.Pairwise fun a b => c.entered a < c.entered b
  cycles_seen : ∀ d ∈ s.cycles, ∀ n ∈ d.nodes, s.colourOf n ≠ .white
  black_edge : ∀ a b, s.colourOf a = .black → g.Edge a b →
    (a, b) ∈ s.closing ∨ (s.colourOf b = .black ∧ c.left b < c.left a)

/-- The cycles found are simple, and the rings are theirs. -/
structure Found (g : Graph) (s : Search) : Prop where
  simple : ∀ c ∈ s.cycles, c.IsSimple g
  mem_rings : ∀ r ∈ s.rings, ∃ c ∈ s.cycles, Cycle.ring c.nodes = r

/-- The invariant of the search. Between two rounds `above` is nothing; within a round it is the
target that the edge just looked at leads to. -/
structure Inv (g : Graph) (above : Option Text) (s : Search) : Prop where
  layout : Layout g s
  found : Found g s
  progress : s.Progress above s.stack
  clocked : ∃ c, Clocked g s c

theorem Settled.mono {a b : Text} (h : s.Settled a b) (hc : s.closing ⊆ s'.closing)
    (hb : s.colourOf b = .black → s'.colourOf b = .black) : s'.Settled a b := h.imp (hc ·) hb

theorem Progress.mono {above : Option Text} {stack : List Frame} (h : s.Progress above stack)
    (hc : s.closing ⊆ s'.closing) (hb : ∀ n, s.colourOf n = .black → s'.colourOf n = .black) :
    s'.Progress above stack := by
  induction stack generalizing above with
  | nil => trivial
  | cons f below ih =>
    refine ⟨fun t ht => ?_, ih h.2⟩
    exact (h.1 t ht).imp (fun hs => hs.mono hc (hb t)) id

/-- What led to the frame above is done or closes a cycle as well. -/
theorem Progress.settle {above : Text} {stack : List Frame} (h : s.Progress (some above) stack)
    (ha : ∀ f ∈ stack.head?, s.Settled f.node above) : s.Progress none stack := by
  cases stack with
  | nil => trivial
  | cons f below =>
    refine ⟨fun t ht => ?_, h.2⟩
    rcases h.1 t ht with hs | he
    · exact Or.inl hs
    · rw [Option.some.injEq] at he
      subst he
      exact Or.inl (ha f rfl)

/-- One more edge of the top is looked at; it is still to be settled. -/
theorem Progress.advance (h : s.Progress none (top :: below))
    (ht : top.targets[top.index]? = some target) :
    s.Progress (some target) ({ top with index := top.index + 1 } :: below) := by
  refine ⟨fun t hm => ?_, h.2⟩
  simp only [List.take_add_one, ht, Option.toList_some, List.mem_append, List.mem_singleton] at hm
  rcases hm with hm | rfl
  · exact Or.inl ((h.1 t hm).resolve_right (by simp))
  · exact Or.inr rfl

theorem closing_subset (h : s.cycles ⊆ s'.cycles) : s.closing ⊆ s'.closing := by
  intro e he
  obtain ⟨c, hc, hce⟩ := List.mem_filterMap.mp he
  exact List.mem_filterMap.mpr ⟨c, h hc, hce⟩

theorem Clocked.leave {c : Stamps} (h : Clocked g s c) (hl : Layout g s)
    (hs : s.stack = top :: below) (hp : s.Progress none s.stack)
    (hdone : top.targets.length ≤ top.index) :
    Clocked g (s.leave top.node below)
      { c with left := fun n => if n = top.node then c.now else c.left n, now := c.now + 1 } where
  entered_lt n hn := by
    rw [colourOf_leave] at hn
    refine Nat.lt_succ_of_lt (h.entered_lt n ?_)
    by_cases he : n = top.node
    · subst he
      rw [hl.colourOf_top hs]
      simp
    · rwa [if_neg he] at hn
  left_lt n hn := by
    rw [colourOf_leave] at hn
    by_cases he : n = top.node
    · simp [he]
    · rw [if_neg he] at hn
      simp only [if_neg he]
      exact Nat.lt_succ_of_lt (h.left_lt n hn)
  path_sorted := h.path_sorted.sublist (List.dropLast_sublist _)
  cycles_sorted := h.cycles_sorted
  cycles_seen d hd n hn := by
    rw [colourOf_leave]
    split
    · simp
    · exact h.cycles_seen d hd n hn
  black_edge a b ha hab := by
    rw [colourOf_leave] at ha
    have hgrey := hl.colourOf_top hs
    -- A target that was black before is not the node that leaves now, which was grey.
    have hleft : ∀ n, s.colourOf n = .black →
        (s.leave top.node below).colourOf n = .black ∧ n ≠ top.node := by
      intro n hn
      rw [colourOf_leave]
      refine ⟨by split <;> [rfl; exact hn], ?_⟩
      rintro rfl
      rw [hgrey] at hn
      cases hn
    by_cases he : a = top.node
    · subst he
      rw [hs] at hp
      have hb : b ∈ top.targets.take top.index := by
        rw [List.take_of_length_le hdone, hl.targets_eq top (hs ▸ List.mem_cons_self)]
        exact Graph.edge_iff.mp hab
      rcases (hp.1 b hb).resolve_right (by simp) with hc | hc
      · exact Or.inl hc
      · obtain ⟨h1, h2⟩ := hleft b hc
        refine Or.inr ⟨h1, ?_⟩
        simpa [h2] using h.left_lt b hc
    · rw [if_neg he] at ha
      rcases h.black_edge a b ha hab with hc | ⟨hc, hlt⟩
      · exact Or.inl hc
      · obtain ⟨h1, h2⟩ := hleft b hc
        exact Or.inr ⟨h1, by simpa [he, h2] using hlt⟩

theorem Clocked.enter {c : Stamps} (h : Clocked g s c) (hl : Layout g s)
    (hw : s.colourOf node = .white) :
    Clocked g (s.enter g node)
      { c with entered := fun n => if n = node then c.now else c.entered n, now := c.now + 1 } := by
  have hne : ∀ n, s.colourOf n ≠ .white → n ≠ node := by
    rintro n hn rfl
    exact hn hw
  have hpath : ∀ n ∈ s.path, s.colourOf n ≠ .white := by
    intro n hn
    rw [(hl.grey_iff n).mpr hn]
    simp
  have hkept : ∀ l : List Text, (∀ n ∈ l, s.colourOf n ≠ .white) →
      l.Pairwise (fun a b => c.entered a < c.entered b) →
      l.Pairwise (fun a b => (if a = node then c.now else c.entered a) <
        (if b = node then c.now else c.entered b)) := by
    intro l hl hp
    refine hp.imp_of_mem ?_
    intro a b ha hb hab
    rwa [if_neg (hne a (hl a ha)), if_neg (hne b (hl b hb))]
  refine
    { entered_lt := fun n hn => ?_
      left_lt := fun n hn => ?_
      path_sorted := ?_
      cycles_sorted := fun d hd => hkept _
        (fun n hn => h.cycles_seen d hd n (List.dropLast_subset _ hn)) (h.cycles_sorted d hd)
      cycles_seen := fun d hd n hn => ?_
      black_edge := fun a b ha hab => ?_ }
  · by_cases he : n = node
    · simp [he]
    · rw [colourOf_enter, if_neg he] at hn
      simp only [if_neg he]
      exact Nat.lt_succ_of_lt (h.entered_lt n hn)
  · rw [colourOf_enter] at hn
    by_cases he : n = node
    · simp [he] at hn
    · rw [if_neg he] at hn
      exact Nat.lt_succ_of_lt (h.left_lt n hn)
  · show (s.path ++ [node]).Pairwise _
    rw [List.pairwise_append]
    refine ⟨hkept _ hpath h.path_sorted, by simp, ?_⟩
    intro a ha b hb
    obtain rfl := List.mem_singleton.mp hb
    simpa [hne a (hpath a ha)] using h.entered_lt a (hpath a ha)
  · rw [colourOf_enter]
    split
    · simp
    · exact h.cycles_seen d hd n hn
  · rw [colourOf_enter] at ha
    by_cases he : a = node
    · simp [he] at ha
    · rw [if_neg he] at ha
      refine (h.black_edge a b ha hab).imp id ?_
      rintro ⟨hb, hlt⟩
      refine ⟨?_, hlt⟩
      rw [colourOf_enter, if_neg (hne b (by simp [hb])), hb]

/-- Looking at an edge changes no colour, path or cycle. -/
theorem Clocked.advance {c : Stamps} (h : Clocked g s c) : Clocked g (s.advance top below) c where
  entered_lt := h.entered_lt
  left_lt := h.left_lt
  path_sorted := h.path_sorted
  cycles_sorted := h.cycles_sorted
  cycles_seen := h.cycles_seen
  black_edge := h.black_edge

/-- The cycle that an edge into a grey node closes, in the order in which its nodes came. -/
theorem Clocked.sorted_closedNodes {c : Stamps} (h : Clocked g s c) (hl : Layout g s)
    (hs : s.stack = top :: below) (ht : s.colourOf node = .grey) :
    (s.closedNodes node).dropLast.Pairwise (fun a b => c.entered a < c.entered b) ∧
      ∀ n ∈ s.closedNodes node, s.colourOf n ≠ .white := by
  obtain ⟨front, heq, hsuffix, -⟩ := hl.closedNodes_eq hs ht
  have hsplit : front ++ [top.node, node] = (front ++ [top.node]) ++ [node] := by simp
  rw [heq, hsplit, List.dropLast_concat]
  refine ⟨h.path_sorted.sublist hsuffix.sublist, ?_⟩
  intro n hn
  have hg : s.colourOf n = .grey := by
    rcases List.mem_append.mp hn with hn | hn
    · exact (hl.grey_iff n).mpr (hsuffix.subset hn)
    · rwa [List.mem_singleton.mp hn]
  simp [hg]

/-- A ring that was found before is that of the same cycle. -/
theorem closedNodes_mem_of_ring_mem {c : Stamps} (hl : Layout g s) (hf : Found g s)
    (hc : Clocked g s c) (hs : s.stack = top :: below) (ht : s.colourOf node = .grey)
    (he : g.Edge top.node node) (hr : Cycle.ring (s.closedNodes node) ∈ s.rings) :
    ⟨s.closedNodes node⟩ ∈ s.cycles := by
  obtain ⟨d, hd, hring⟩ := hf.mem_rings _ hr
  have hperm : d.nodes.dropLast.Perm (s.closedNodes node).dropLast :=
    (Cycle.ring_perm d.nodes).symm.trans ((List.Perm.of_eq hring).trans (Cycle.ring_perm _))
  have hopen : d.nodes.dropLast = (s.closedNodes node).dropLast :=
    hperm.eq_of_pairwise (fun a b _ _ h₁ h₂ => absurd h₁ (Nat.lt_asymm h₂))
      (hc.cycles_sorted d hd) (hc.sorted_closedNodes hl hs ht).1
  have hsimple := (hl.simple_close hs ht he).1
  have heq := Cycle.eq_of_dropLast_eq (hf.simple d hd).toIsWalk hsimple.toIsWalk hopen
  exact heq ▸ hd

theorem close_def (s : Search) (node : Text) :
    s.close node =
      if Cycle.ring (s.closedNodes node) ∈ s.rings then s
      else { s with
        cycles := s.cycles ++ [⟨s.closedNodes node⟩]
        rings := Cycle.ring (s.closedNodes node) :: s.rings } := rfl

/-- After an edge into a grey node its cycle is among those found, and nothing else is new. -/
theorem cycles_close {c : Stamps} (hl : Layout g s) (hf : Found g s) (hc : Clocked g s c)
    (hs : s.stack = top :: below) (ht : s.colourOf node = .grey) (he : g.Edge top.node node) :
    s.cycles ⊆ (s.close node).cycles ∧ ⟨s.closedNodes node⟩ ∈ (s.close node).cycles ∧
      ∀ d ∈ (s.close node).cycles, d ∈ s.cycles ∨ d = ⟨s.closedNodes node⟩ := by
  by_cases hr : Cycle.ring (s.closedNodes node) ∈ s.rings
  · rw [close_def, if_pos hr]
    exact ⟨fun _ hd => hd, closedNodes_mem_of_ring_mem hl hf hc hs ht he hr,
      fun _ hd => Or.inl hd⟩
  · have hclose : (s.close node).cycles = s.cycles ++ [⟨s.closedNodes node⟩] := by
      rw [close_def, if_neg hr]
    rw [hclose]
    exact ⟨List.subset_append_left _ _, by simp, fun d hd => by simpa using hd⟩

theorem close_eq (s : Search) (node : Text) :
    (s.close node).colour = s.colour ∧ (s.close node).stack = s.stack ∧
      (s.close node).path = s.path ∧ (s.close node).position = s.position := by
  rw [close_def]
  split <;> exact ⟨rfl, rfl, rfl, rfl⟩

theorem colourOf_close (s : Search) (node n : Text) :
    (s.close node).colourOf n = s.colourOf n := by
  rw [colourOf, (close_eq s node).1, colourOf]

theorem mem_rings_close {r : List Text} (h : r ∈ (s.close node).rings) :
    r ∈ s.rings ∨ r = Cycle.ring (s.closedNodes node) := by
  rw [close_def] at h
  split at h
  · exact Or.inl h
  · exact (List.mem_cons.mp h).symm

theorem Layout.close (h : Layout g s) (node : Text) : Layout g (s.close node) := by
  obtain ⟨_, hstack, hpath, hposition⟩ := close_eq s node
  exact
    { path_eq := by rw [hpath, hstack, h.path_eq]
      path_nodup := hpath ▸ h.path_nodup
      path_chain := hpath ▸ h.path_chain
      path_mem := hpath ▸ h.path_mem
      position_eq := by
        rw [hpath, hposition]
        exact h.position_eq
      grey_iff := by
        intro n
        rw [colourOf_close, hpath]
        exact h.grey_iff n
      targets_eq := hstack ▸ h.targets_eq
      index_le := hstack ▸ h.index_le }

theorem Clocked.close {c : Stamps} (h : Clocked g s c) (hl : Layout g s) (hf : Found g s)
    (hs : s.stack = top :: below) (ht : s.colourOf node = .grey) (he : g.Edge top.node node) :
    Clocked g (s.close node) c := by
  obtain ⟨hsub, _, hnew⟩ := cycles_close hl hf h hs ht he
  obtain ⟨hsorted, hseen⟩ := h.sorted_closedNodes hl hs ht
  refine
    { entered_lt := fun n hn => h.entered_lt n (by rwa [colourOf_close] at hn)
      left_lt := fun n hn => h.left_lt n (by rwa [colourOf_close] at hn)
      path_sorted := by rw [(close_eq s node).2.2.1]; exact h.path_sorted
      cycles_sorted := fun d hd => ?_
      cycles_seen := fun d hd n hn => ?_
      black_edge := fun a b ha hab => ?_ }
  · rcases hnew d hd with hd | rfl
    · exact h.cycles_sorted d hd
    · exact hsorted
  · rw [colourOf_close]
    rcases hnew d hd with hd | rfl
    · exact h.cycles_seen d hd n hn
    · exact hseen n hn
  · rw [colourOf_close] at ha ⊢
    exact (h.black_edge a b ha hab).imp (closing_subset hsub ·) id

theorem Found.close {c : Stamps} (h : Found g s) (hl : Layout g s) (hc : Clocked g s c)
    (hs : s.stack = top :: below) (ht : s.colourOf node = .grey) (he : g.Edge top.node node) :
    Found g (s.close node) := by
  obtain ⟨hsub, hmem, hnew⟩ := cycles_close hl h hc hs ht he
  refine { simple := fun d hd => ?_, mem_rings := fun r hr => ?_ }
  · rcases hnew d hd with hd | rfl
    · exact h.simple d hd
    · exact (hl.simple_close hs ht he).1
  · rcases mem_rings_close hr with hr | rfl
    · obtain ⟨d, hd, hdr⟩ := h.mem_rings r hr
      exact ⟨d, hsub hd, hdr⟩
    · exact ⟨_, hmem, rfl⟩

theorem Inv.leave (h : Inv g none s) (hs : s.stack = top :: below)
    (hdone : top.targets.length ≤ top.index) : Inv g none (s.leave top.node below) := by
  obtain ⟨c, hc⟩ := h.clocked
  have hp := h.progress
  rw [hs] at hp
  have hblack : ∀ n, s.colourOf n = .black → (s.leave top.node below).colourOf n = .black := by
    intro n hn
    rw [colourOf_leave]
    split
    · rfl
    · exact hn
  have hbelow : (s.leave top.node below).Progress (some top.node) below :=
    hp.2.mono (List.Subset.refl _) hblack
  refine
    { layout := h.layout.leave hs
      found := ⟨h.found.simple, h.found.mem_rings⟩
      progress := hbelow.settle fun f _ => Or.inr ?_
      clocked := ⟨_, hc.leave h.layout hs h.progress hdone⟩ }
  rw [colourOf_leave, if_pos rfl]

theorem Inv.advance (h : Inv g none s) (hs : s.stack = top :: below)
    (ht : top.targets[top.index]? = some target) : Inv g (some target) (s.advance top below) := by
  obtain ⟨c, hc⟩ := h.clocked
  have hp := h.progress
  rw [hs] at hp
  exact
    { layout := h.layout.advance hs (List.getElem?_eq_some_iff.mp ht).1
      found := ⟨h.found.simple, h.found.mem_rings⟩
      progress := (hp.advance ht).mono (List.Subset.refl _) fun _ hn => hn
      clocked := ⟨c, hc.advance⟩ }

theorem Inv.enter (h : Inv g (some node) s) (hw : s.colourOf node = .white) (hn : node ∈ g.nodes)
    (he : ∀ f ∈ s.stack.head?, g.Edge f.node node) : Inv g none (s.enter g node) := by
  obtain ⟨c, hc⟩ := h.clocked
  have hblack : ∀ n, s.colourOf n = .black → (s.enter g node).colourOf n = .black := by
    intro n hb
    rw [colourOf_enter, if_neg, hb]
    rintro rfl
    rw [hw] at hb
    cases hb
  exact
    { layout := h.layout.enter hw hn he
      found := ⟨h.found.simple, h.found.mem_rings⟩
      progress := ⟨by simp, h.progress.mono (List.Subset.refl _) hblack⟩
      clocked := ⟨_, hc.enter h.layout hw⟩ }

theorem Inv.close (h : Inv g (some node) s) (hs : s.stack = top :: below)
    (ht : s.colourOf node = .grey) (he : g.Edge top.node node) :
    Inv g none (s.close node) := by
  obtain ⟨c, hc⟩ := h.clocked
  obtain ⟨hsub, hmem, -⟩ := cycles_close h.layout h.found hc hs ht he
  have hp : (s.close node).Progress (some node) (s.close node).stack := by
    rw [(close_eq s node).2.1]
    exact h.progress.mono (closing_subset hsub) fun n hn => by rwa [colourOf_close]
  refine
    { layout := h.layout.close node
      found := h.found.close h.layout hc hs ht he
      progress := hp.settle fun f hf => Or.inl ?_
      clocked := ⟨c, hc.close h.layout h.found hs ht he⟩ }
  rw [(close_eq s node).2.1, hs] at hf
  obtain rfl : top = f := by simpa using hf
  exact List.mem_filterMap.mpr ⟨_, hmem, (h.layout.simple_close hs ht he).2⟩

theorem Inv.pass (h : Inv g (some node) s) (hb : s.colourOf node = .black) : Inv g none s where
  layout := h.layout
  found := h.found
  progress := h.progress.settle fun _ _ => Or.inr hb
  clocked := h.clocked

/-- All that a round does with a stack that is not empty. -/
theorem step_cases (hs : s.stack = top :: below) :
    (top.targets[top.index]? = none ∧ s.step g = s.leave top.node below) ∨
      ∃ target, top.targets[top.index]? = some target ∧
        ((s.colourOf target = .grey ∧ s.step g = (s.advance top below).close target) ∨
          (s.colourOf target = .white ∧ s.step g = (s.advance top below).enter g target) ∨
          (s.colourOf target = .black ∧ s.step g = s.advance top below)) := by
  cases ht : top.targets[top.index]? with
  | none => exact Or.inl ⟨rfl, by simp [step, hs, ht]⟩
  | some target =>
    refine Or.inr ⟨target, rfl, ?_⟩
    have hcolour : Search.colourOf
        { s with stack := { top with index := top.index + 1 } :: below } target =
        s.colourOf target := colourOf_advance ..
    cases hc : s.colourOf target with
    | white => exact Or.inr (Or.inl ⟨rfl, by simp only [step, hs, ht, hcolour, hc, advance]⟩)
    | grey => exact Or.inl ⟨rfl, by simp only [step, hs, ht, hcolour, hc, advance]⟩
    | black => exact Or.inr (Or.inr ⟨rfl, by simp only [step, hs, ht, hcolour, hc, advance]⟩)

/-- The edge that a frame looks at next. -/
theorem Layout.edge_of_getElem? (h : Layout g s) (hs : s.stack = top :: below)
    (ht : top.targets[top.index]? = some target) : g.Edge top.node target := by
  rw [Graph.edge_iff, ← h.targets_eq top (hs ▸ List.mem_cons_self)]
  exact List.mem_of_getElem? ht

/-- A round of the search keeps the invariant. -/
theorem Inv.step (hg : g.WellFormed) (h : Inv g none s) : Inv g none (s.step g) := by
  cases hs : s.stack with
  | nil => simpa [Search.step, hs] using h
  | cons top below =>
    rcases step_cases (g := g) hs with ⟨ht, he⟩ | ⟨target, ht, hcase⟩
    · rw [he]
      exact h.leave hs (List.getElem?_eq_none_iff.mp ht)
    · have ha := h.advance hs ht
      have hedge := h.layout.edge_of_getElem? hs ht
      rcases hcase with ⟨hc, he⟩ | ⟨hc, he⟩ | ⟨hc, he⟩
      · rw [he]
        exact ha.close rfl hc hedge
      · rw [he]
        refine ha.enter hc (hg.target_mem hedge) ?_
        intro f hf
        obtain rfl : { top with index := top.index + 1 } = f := by
          simpa [Search.advance] using hf
        exact hedge
      · rw [he]
        exact ha.pass hc

/-- Any number of rounds keeps what one round keeps. -/
theorem run_of_step {P : Search → Prop} (hstep : ∀ s, P s → P (s.step g)) (h : P s)
    (rounds : Nat) : P (Search.run g rounds s) := by
  induction rounds generalizing s with
  | zero => exact h
  | succ rounds ih =>
    rw [Search.run]
    split
    · exact h
    · exact ih (hstep s h)

theorem Inv.run (hg : g.WellFormed) (h : Inv g none s) (rounds : Nat) :
    Inv g none (Search.run g rounds s) := run_of_step (fun _ hs => hs.step hg) h rounds

end Search
end ModuleGraph
