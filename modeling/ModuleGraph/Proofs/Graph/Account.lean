import ModuleGraph.Proofs.Graph.Course

/-!
What the search does to each node and to each edge.

* `Added`: from one property to a weaker one, the things of which the second alone holds, each once;
* `Marks`, `Course.added`: what each act adds to a property, the course adds to it;
* `marks_seen`, `marks_done`, `marks_looked`: the nodes pushed are those that are white no more, the
  nodes popped those that are black, and the edges looked at are those of the black nodes and, in
  the frames of the stack, those before the index;
* `search_accounted`: every round is orderly, every node is pushed and popped once, every edge is
  looked at once, and there is one round for each node and each edge.
-/

namespace ModuleGraph
namespace Search

section Added

variable {α : Type} {p q r : α → Prop} {xs ys : List α} {y : α}

/-- The first property gives the second, and the list holds, each once, the things of which the
second holds and the first does not. -/
structure Added (p q : α → Prop) (xs : List α) : Prop where
  mono : ∀ x, p x → q x
  nodup : xs.Nodup
  mem_iff : ∀ x, x ∈ xs ↔ q x ∧ ¬ p x

theorem Added.none (h : ∀ x, q x ↔ p x) : Added p q [] where
  mono x := (h x).mpr
  nodup := List.nodup_nil
  mem_iff x := by
    rw [h]
    simp

theorem Added.one (hy : ¬ p y) (h : ∀ x, q x ↔ p x ∨ x = y) : Added p q [y] where
  mono x hx := (h x).mpr (Or.inl hx)
  nodup := List.nodup_singleton y
  mem_iff x := by
    rw [List.mem_singleton, h]
    constructor
    · rintro rfl
      exact ⟨Or.inr rfl, hy⟩
    · rintro ⟨hx, hnot⟩
      exact hx.resolve_left hnot

/-- What is added first is not added again. -/
theorem Added.append (h : Added p q xs) (h' : Added q r ys) : Added p r (xs ++ ys) where
  mono x hx := h'.mono x (h.mono x hx)
  nodup := by
    refine List.nodup_append.mpr ⟨h.nodup, h'.nodup, ?_⟩
    rintro x hx y hy rfl
    exact ((h'.mem_iff x).mp hy).2 ((h.mem_iff x).mp hx).1
  mem_iff x := by
    rw [List.mem_append, h.mem_iff, h'.mem_iff]
    constructor
    · rintro (⟨hq, hp⟩ | ⟨hr, hq⟩)
      · exact ⟨h'.mono x hq, hp⟩
      · exact ⟨hr, fun hp => hq (h.mono x hp)⟩
    · rintro ⟨hr, hp⟩
      by_cases hq : q x
      · exact Or.inl ⟨hq, hp⟩
      · exact Or.inr ⟨hr, hq⟩

/-- What is added to nothing is all that there is in the end. -/
theorem Added.perm (h : Added p q xs) (hp : ∀ x, ¬ p x) (hys : ys.Nodup)
    (hq : ∀ x, q x ↔ x ∈ ys) : xs.Perm ys := by
  refine (List.perm_ext_iff_of_nodup h.nodup hys).mpr fun x => ?_
  rw [h.mem_iff, hq]
  exact ⟨And.left, fun hx => ⟨hx, hp x⟩⟩

end Added

variable {g : Graph} {s s' : Search} {node root target : Text} {top : Frame} {below : List Frame}
variable {roots : List Text} {acts : List Act}

namespace Act

/-- The node that comes onto the stack. -/
def pushed? : Act → Option Text
  | .root node => some node
  | .round s => s.pushed?

/-- The node that leaves the stack. -/
def popped? : Act → Option Text
  | .root _ => none
  | .round s => s.popped?

/-- The edge that is looked at. -/
def looked? : Act → Option (Text × Text)
  | .root _ => none
  | .round s => s.looked?

end Act

/-- Every act of the search adds to a property what it does to one thing at most. -/
structure Marks {α : Type} (g : Graph) (p : Search → α → Prop) (event : Act → Option α) :
    Prop where
  root : ∀ {s : Search} {root : Text}, Reached g s → s.stack = [] → s.colourOf root = .white →
    Added (p s) (p (s.rooted g root)) (event (.root root)).toList
  round : ∀ {s : Search} {top : Frame} {below : List Frame}, Reached g s →
    s.stack = top :: below → Added (p s) (p (s.step g)) (event (.round s)).toList

/-- What each act adds, the course adds. -/
theorem Course.added {α : Type} {p : Search → α → Prop} {event : Act → Option α}
    (hm : Marks g p event) (h : Course g roots s acts s') (hr : roots ⊆ g.nodes)
    (hs : Reached g s) : Added (p s) (p s') (acts.filterMap event) := by
  have hcons : ∀ (a : Act) (acts : List Act),
      (a :: acts).filterMap event = (event a).toList ++ acts.filterMap event := by
    intro a acts
    rw [List.filterMap_cons]
    cases event a <;> rfl
  induction h with
  | done => exact .none fun _ => Iff.rfl
  | pass _ _ _ ih => exact ih (fun n hn => hr (List.mem_cons_of_mem _ hn)) hs
  | root hnil hw _ ih =>
    rw [hcons]
    exact (hm.root hs hnil hw).append
      (ih (fun n hn => hr (List.mem_cons_of_mem _ hn)) (hs.root hnil hw (hr List.mem_cons_self)))
  | round hne _ ih =>
    obtain ⟨top, below, hstack⟩ := List.exists_cons_of_ne_nil hne
    rw [hcons]
    exact (hm.round hs hstack).append (ih hr hs.step)

theorem colourOf_rooted (n : Text) :
    (s.rooted g root).colourOf n = if n = root then .grey else s.colourOf n := colourOf_enter ..

/-- A node that gets a colour for the first time is no longer white. -/
theorem added_seen {t : Search} (hw : s.colourOf node = .white)
    (ht : ∀ n, t.colourOf n = if n = node then .grey else s.colourOf n) :
    Added (fun n => s.colourOf n ≠ .white) (fun n => t.colourOf n ≠ .white) [node] := by
  refine .one (fun h => h hw) fun n => ?_
  rw [ht]
  by_cases hn : n = node
  · simp [hn]
  · simp [hn]

/-- The nodes that are no longer white have been pushed. -/
theorem marks_seen (hg : g.WellFormed) :
    Marks g (fun s n => s.colourOf n ≠ .white) Act.pushed? where
  root _ _ hw := added_seen hw colourOf_rooted
  round {s top below} h hs := by
    have hl := (h.inv hg).layout
    rcases round_cases (g := g) hs with
      ⟨-, -, hpushed, -, he⟩ |
        ⟨target, -, -, -, ⟨hc, hpushed, he⟩ | ⟨hc, hpushed, he⟩ | ⟨hc, hpushed, he⟩⟩
    all_goals rw [Act.pushed?, hpushed, he]
    · refine .none fun n => ?_
      rw [colourOf_leave]
      by_cases hn : n = top.node
      · simp [hn, hl.colourOf_top hs]
      · simp [hn]
    · exact .none fun n => by rw [colourOf_close, colourOf_advance]
    · exact added_seen (s := s) hc (colourOf_enter g (s.advance top below) target)
    · exact .none fun n => by rw [colourOf_advance]

/-- A colour other than black for a node that is not black. -/
theorem added_done {t : Search} (hw : s.colourOf node = .white)
    (ht : ∀ n, t.colourOf n = if n = node then .grey else s.colourOf n) :
    Added (fun n => s.colourOf n = .black) (fun n => t.colourOf n = .black) [] := by
  refine .none fun n => ?_
  rw [ht]
  by_cases hn : n = node
  · simp [hn, hw]
  · simp [hn]

/-- The nodes that are black have been popped. -/
theorem marks_done (hg : g.WellFormed) :
    Marks g (fun s n => s.colourOf n = .black) Act.popped? where
  root _ _ hw := added_done hw colourOf_rooted
  round {s top below} h hs := by
    have hl := (h.inv hg).layout
    rcases round_cases (g := g) hs with
      ⟨-, -, -, hpopped, he⟩ | ⟨target, -, -, hpopped, ⟨hc, -, he⟩ | ⟨hc, -, he⟩ | ⟨hc, -, he⟩⟩
    all_goals rw [Act.popped?, hpopped, he]
    · refine .one (by rw [hl.colourOf_top hs]; simp) fun n => ?_
      rw [colourOf_leave]
      by_cases hn : n = top.node
      · simp [hn]
      · simp [hn]
    · exact .none fun n => by rw [colourOf_close, colourOf_advance]
    · exact added_done (s := s) hc (colourOf_enter g (s.advance top below) target)
    · exact .none fun n => by rw [colourOf_advance]

theorem looked_advance {a b : Text} (hs : s.stack = top :: below)
    (ht : top.targets[top.index]? = some target) :
    (s.advance top below).Looked a b ↔ s.Looked a b ∨ (top.node = a ∧ b = target) := by
  have htake : top.targets.take (top.index + 1) = top.targets.take top.index ++ [target] := by
    rw [List.take_add_one, ht]
    rfl
  simp only [Looked, hs, advance, List.mem_cons, exists_eq_or_imp, htake,
    List.mem_append, List.not_mem_nil, or_false, and_or_left]
  constructor
  · rintro (hb | (hf | hf) | hf)
    · exact Or.inl (Or.inl hb)
    · exact Or.inl (Or.inr (Or.inl hf))
    · exact Or.inr hf
    · exact Or.inl (Or.inr (Or.inr hf))
  · rintro ((hb | hf | hf) | hf)
    · exact Or.inl hb
    · exact Or.inr (Or.inl (Or.inl hf))
    · exact Or.inr (Or.inr hf)
    · exact Or.inr (Or.inl (Or.inr hf))

theorem looked_close {a b : Text} : (s.close node).Looked a b ↔ s.Looked a b := by
  rw [Looked, Looked, colourOf_close, (close_eq s node).2.1]

/-- Of a node that comes onto the stack no edge has been looked at. -/
theorem looked_enter {a b : Text} (hw : s.colourOf node = .white) :
    (s.enter g node).Looked a b ↔ s.Looked a b := by
  have hblack : (s.enter g node).colourOf a = .black ↔ s.colourOf a = .black := by
    rw [colourOf_enter]
    by_cases ha : a = node
    · simp [ha, hw]
    · simp [ha]
  rw [Looked, Looked, hblack]
  simp [enter]

/-- Of a node that leaves the stack all edges have been looked at. -/
theorem Layout.looked_leave {a b : Text} (h : Layout g s) (hs : s.stack = top :: below)
    (hdone : top.targets.length ≤ top.index) (he : g.Edge a b) :
    (s.leave top.node below).Looked a b ↔ s.Looked a b := by
  rw [Looked, Looked, colourOf_leave, hs]
  by_cases ha : a = top.node
  · subst ha
    refine iff_of_true (Or.inl (if_pos rfl)) (Or.inr ⟨top, List.mem_cons_self, rfl, ?_⟩)
    rw [List.take_of_length_le hdone, h.targets_eq top (hs ▸ List.mem_cons_self)]
    exact Graph.edge_iff.mp he
  · simp [Search.leave, ha, Ne.symm ha]

/-- The edges that have been looked at are those that a round looked at. -/
theorem marks_looked (hg : g.WellFormed) :
    Marks g (fun s e => g.Edge e.1 e.2 ∧ s.Looked e.1 e.2) Act.looked? where
  root {s root} _ hs hw := by
    refine .none fun e => and_congr_right fun _ => ?_
    exact looked_enter (s := { s with path := [], position := [] }) hw
  round {s top below} h hs := by
    have hl := (h.inv hg).layout
    rcases round_cases (g := g) hs with ⟨ht, hlooked, -, -, he⟩ | ⟨target, ht, hlooked, -, hcase⟩
    · rw [Act.looked?, hlooked, he]
      refine .none fun e => and_congr_right fun hedge => ?_
      exact hl.looked_leave hs (List.getElem?_eq_none_iff.mp ht) hedge
    · have hedge := hl.edge_of_getElem? hs ht
      have hstep : ∀ a b, (s.step g).Looked a b ↔ (s.advance top below).Looked a b := by
        intro a b
        rcases hcase with ⟨-, -, he⟩ | ⟨hc, -, he⟩ | ⟨-, -, he⟩
        · rw [he, looked_close]
        · rw [he, looked_enter (s := s.advance top below) hc]
        · rw [he]
      rw [Act.looked?, hlooked]
      refine .one (fun hlook => hl.not_looked hg hs ht hlook.2) fun e => ?_
      rw [hstep, looked_advance hs ht, and_or_left]
      refine or_congr_right ⟨fun ⟨_, h₁, h₂⟩ => Prod.ext h₁.symm h₂, ?_⟩
      rintro rfl
      exact ⟨hedge, rfl, rfl⟩

/-- Only nodes get a colour. -/
theorem Reached.mem_nodes (hg : g.WellFormed) (h : Reached g s) (hc : s.colourOf node ≠ .white) :
    node ∈ g.nodes := by
  induction h with
  | start => exact absurd (colourOf_start g node) hc
  | root _ _ _ hn ih =>
    rw [colourOf_enter] at hc
    split at hc
    · rename_i heq
      exact heq ▸ hn
    · exact ih hc
  | @step s h ih =>
    cases hs : s.stack with
    | nil => exact ih (by simpa [Search.step, hs] using hc)
    | cons top below =>
      have hl := (h.inv hg).layout
      rcases step_cases (g := g) hs with ⟨-, he⟩ | ⟨target, ht, ⟨-, he⟩ | ⟨-, he⟩ | ⟨-, he⟩⟩
      · rw [he, colourOf_leave] at hc
        split at hc
        · rename_i heq
          exact hl.path_mem _ (heq ▸ hl.top_mem_path hs)
        · exact ih hc
      · rw [he, colourOf_close] at hc
        exact ih hc
      · rw [he, colourOf_enter] at hc
        split at hc
        · rename_i heq
          exact heq ▸ hg.target_mem (hl.edge_of_getElem? hs ht)
        · exact ih hc
      · rw [he] at hc
        exact ih hc

/-- The whole search is a course. -/
theorem exists_course_complete (hg : g.WellFormed) :
    ∃ acts, Course g g.nodes (start g) acts (complete g) :=
  exists_course hg (List.Subset.refl _) (inv_start g) rfl

section Whole

variable (hg : g.WellFormed) (h : Course g g.nodes (start g) acts (complete g))
include hg h

theorem Course.orderly (hs : s ∈ acts.filterMap Act.round?) : Orderly g s := by
  obtain ⟨hreached, hne⟩ := (h.reached (List.Subset.refl _) .start).1 s hs
  exact hreached.orderly hg hne

theorem Course.perm_pushed : (acts.filterMap Act.pushed?).Perm g.nodes := by
  obtain ⟨-, hend⟩ := h.reached (List.Subset.refl _) .start
  refine (h.added (marks_seen hg) (List.Subset.refl _) .start).perm
    (fun n hn => hn (colourOf_start g n)) hg.nodes_nodup fun n => ⟨hend.mem_nodes hg, fun hn => ?_⟩
  rw [(complete_spec hg).2.2 n hn]
  simp

theorem Course.perm_popped : (acts.filterMap Act.popped?).Perm g.nodes := by
  obtain ⟨-, hend⟩ := h.reached (List.Subset.refl _) .start
  refine (h.added (marks_done hg) (List.Subset.refl _) .start).perm (fun n hn => ?_)
    hg.nodes_nodup fun n => ⟨fun hn => hend.mem_nodes hg (by rw [hn]; simp),
      (complete_spec hg).2.2 n⟩
  rw [colourOf_start] at hn
  cases hn

theorem Course.perm_looked : (acts.filterMap Act.looked?).Perm g.edges := by
  refine (h.added (marks_looked hg) (List.Subset.refl _) .start).perm ?_
    (Graph.nodup_edges hg.nodes_nodup hg.successors_nodup) fun e => ?_
  · rintro e ⟨-, hb | ⟨f, hf, -⟩⟩
    · rw [colourOf_start] at hb
      cases hb
    · cases hf
  · rw [Graph.mem_edges_iff hg.nodes_nodup]
    exact ⟨And.left, fun he => ⟨he, Or.inl ((complete_spec hg).2.2 _ (hg.source_mem he))⟩⟩

/-- At first a round remains for each node and each edge, and at the end none. -/
theorem Course.length_complete :
    (acts.filterMap Act.round?).length = g.nodes.length + g.edgeCount := by
  obtain ⟨-, hstack, hblack⟩ := complete_spec hg
  have hstart : remaining g (start g) = g.nodes.length + g.edgeCount := by
    have hwhite : ∀ n ∈ g.nodes, (if (start g).colourOf n = .white then roundsFor g n else 0) =
        roundsFor g n := fun n _ => if_pos (colourOf_start g n)
    rw [← sum_roundsFor hg, remaining, whiteRounds, List.map_congr_left hwhite]
    exact Nat.zero_add _
  have hend : remaining g (complete g) = 0 := by
    have hnone : ∀ n ∈ g.nodes,
        (if (complete g).colourOf n = .white then roundsFor g n else 0) = 0 :=
      fun n hn => if_neg (by rw [hblack n hn]; simp)
    rw [remaining, whiteRounds, hstack, List.map_congr_left hnone]
    simp
  have hlength := h.length_rounds hg (List.Subset.refl _) .start
  rw [hstart, hend] at hlength
  exact hlength.symm

end Whole

/-- The search goes one way, with no bound on its rounds, and ends where the bounded one does. Each
round starts and ends in a consistent state and finds what it asks for. Every node is pushed once
and popped once, every edge is looked at once, there is one round for each node and each edge, and
at the end every node is black. -/
theorem search_accounted (h : g.Built) :
    ∃ acts, Course g g.nodes (start g) acts (complete g) ∧
      (∀ acts' s', Course g g.nodes (start g) acts' s' → acts' = acts ∧ s' = complete g) ∧
      (∀ s ∈ acts.filterMap Act.round?, Orderly g s) ∧
      (acts.filterMap Act.pushed?).Perm g.nodes ∧
      (acts.filterMap Act.popped?).Perm g.nodes ∧
      (acts.filterMap Act.looked?).Perm g.edges ∧
      (acts.filterMap Act.round?).length = g.nodes.length + g.edgeCount ∧
      ∀ n ∈ g.nodes, (complete g).colourOf n = .black := by
  have hg := h.wellFormed
  obtain ⟨acts, hcourse⟩ := exists_course_complete hg
  exact ⟨acts, hcourse, fun _ _ h' => hcourse.unique h', fun _ hs => hcourse.orderly hg hs,
    hcourse.perm_pushed hg, hcourse.perm_popped hg, hcourse.perm_looked hg,
    hcourse.length_complete hg, (complete_spec hg).2.2⟩

/-- Two modules that use each other, and one that uses the first of them and is a second root. -/
theorem search_accounted_roots :
    let g := ((Graph.empty.addEdge "a" "b").addEdge "b" "a").addEdge "c" "a"
    ∃ acts, Course g g.nodes (start g) acts (complete g) ∧
      (acts.filterMap Act.pushed?).Perm ["a", "b", "c"] ∧
      (acts.filterMap Act.looked?).Perm [("a", "b"), ("b", "a"), ("c", "a")] ∧
      (acts.filterMap Act.round?).length = 6 := by
  obtain ⟨acts, hcourse, -, -, hpushed, -, hlooked, hlength, -⟩ :=
    search_accounted (((Graph.Built.empty.addEdge "a" "b").addEdge "b" "a").addEdge "c" "a")
  exact ⟨acts, hcourse, hpushed, hlooked, hlength⟩

end Search
end ModuleGraph
