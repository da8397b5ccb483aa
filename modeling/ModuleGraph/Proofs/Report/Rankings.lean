import ModuleGraph.Proofs.Graph.Edges
import ModuleGraph.Proofs.Report.Statistics
import ModuleGraph.Proofs.Sorting

/-!
The rankings of nodes and of files.

* `Ranks`: a ranking of the items that count, by falling counts and a second order between items
  of one count;
* `Ranks.count_le`, `Ranks.sum`: what is left out of the first of a ranking counts no more than
  what is in them, and the counts add up to those of all items;
* `ranks_mergeSort`, `take_ranked`: sorting gives a ranking, and it can be cut before or after the
  items that do not count are dropped;
* `Tally.ofKeys_eq`, `pairwise_eraseDups`: a tally has each key with the number of its occurrences,
  in the order of the first of these;
* `rankings_exact`: the rankings of the nodes of a graph and of the files.
-/

namespace ModuleGraph

/-- The items with a count other than zero, higher counts first. Of two items with one count that
one is first that stands before the other. -/
structure Ranks {α : Type} (items : List α) (count : α → Nat) (before : α → α → Prop)
    (ranking : List α) : Prop where
  perm : ranking.Perm (items.filter fun a => count a != 0)
  falling : ranking.Pairwise fun a b => count b < count a ∨ count a = count b ∧ before a b

/-- Each listing shows the first items of one ranking, and no item that is left out counts more than
one of these. -/
def ListsRanking {α β : Type} (items : List α) (count : α → Nat) (before : α → α → Prop)
    (shown : α → β) (listing : Nat → List β) : Prop :=
  ∃ ranking, Ranks items count before ranking ∧
    ∀ n, listing n = (ranking.take n).map shown ∧
      ∀ a ∈ ranking.take n, ∀ b ∈ items, b ∉ ranking.take n → count b ≤ count a

/-- In a list the first occurrence of the one item is before that of the other. -/
def Earlier (xs : List Text) (a b : Text) : Prop := xs.idxOf a < xs.idxOf b

section Ranking

variable {α : Type} {items ranking : List α} {count : α → Nat} {before : α → α → Prop}

/-- What is not among the first `n` of a ranking counts no more than what is. -/
theorem Ranks.count_le (h : Ranks items count before ranking) {n : Nat} {a b : α}
    (ha : a ∈ ranking.take n) (hb : b ∈ items) (hnot : b ∉ ranking.take n) :
    count b ≤ count a := by
  by_cases hzero : count b = 0
  · omega
  have hmem : b ∈ ranking := h.perm.mem_iff.mpr (List.mem_filter.mpr ⟨hb, by simpa using hzero⟩)
  rw [← List.take_append_drop n ranking, List.mem_append] at hmem
  have hfalling := h.falling
  rw [← List.take_append_drop n ranking, List.pairwise_append] at hfalling
  have hab := hfalling.2.2 a ha b (hmem.resolve_left hnot)
  omega

/-- The counts of a ranking add up to those of all items. -/
theorem Ranks.sum (h : Ranks items count before ranking) :
    (ranking.map count).sum = (items.map count).sum := by
  rw [(h.perm.map count).sum_eq]
  clear h
  induction items with
  | nil => rfl
  | cons a items ih =>
    by_cases ha : count a = 0 <;> simp [ha, ih]

variable {le : α → α → Bool} (htrans : ∀ a b c, le a b = true → le b c = true → le a c = true)
  (htotal : ∀ a b, (le a b || le b a) = true)
include htrans htotal

/-- Items sorted by falling counts, those that do not count left out. -/
theorem ranks_mergeSort {R : α → α → Prop} (hR : items.Pairwise R)
    (hle : ∀ a b, le a b = true → (le b a = true → R a b) →
      count b < count a ∨ count a = count b ∧ before a b) :
    Ranks items count before ((items.mergeSort le).filter fun a => count a != 0) where
  perm := (List.mergeSort_perm items le).filter _
  falling := ((pairwise_mergeSort_stable htrans htotal hR).imp fun h => hle _ _ h.1 h.2).filter _

/-- The first items are cut out before or after those that do not count are dropped. -/
theorem take_ranked (hle : ∀ a b, le a b = true → count b ≤ count a) (n : Nat) :
    ((items.mergeSort le).take n).filter (fun a => count a != 0) =
      ((items.mergeSort le).filter fun a => count a != 0).take n := by
  refine filter_take ((List.pairwise_mergeSort htrans htotal items).imp fun {a b} hab hb => ?_) n
  have h := hle a b hab
  simp only [bne_iff_ne, ne_eq] at hb ⊢
  omega

end Ranking

theorem earlier_append {xs : List Text} {a b : Text} (ys : List Text) (hb : b ∈ xs)
    (h : Earlier xs a b) : Earlier (xs ++ ys) a b := by
  have ha : a ∈ xs := List.idxOf_lt_length_iff.mp (Nat.lt_trans h (List.idxOf_lt_length_of_mem hb))
  rw [Earlier, List.idxOf_append_of_mem ha, List.idxOf_append_of_mem hb]
  exact h

/-- Items that are kept once are in the order of their first occurrences. -/
theorem pairwise_eraseDups (xs : List Text) : xs.eraseDups.Pairwise (Earlier xs) := by
  induction xs using List.reverseRecOn with
  | nil => exact List.Pairwise.nil
  | append_singleton xs x ih =>
    have hold : xs.eraseDups.Pairwise (Earlier (xs ++ [x])) :=
      ih.imp_of_mem fun _ hb => earlier_append [x] (List.mem_eraseDups.mp hb)
    rw [Graph.eraseDups_concat, Graph.insertLast]
    split
    · exact hold
    · rename_i hx
      rw [List.mem_eraseDups] at hx
      refine List.pairwise_append.mpr ⟨hold, List.pairwise_singleton _ _, fun a ha b hb => ?_⟩
      rw [List.mem_eraseDups] at ha
      rw [List.mem_singleton.mp hb, Earlier, List.idxOf_append_of_mem ha,
        List.idxOf_append_of_notMem hx]
      exact Nat.lt_of_lt_of_le (List.idxOf_lt_length_of_mem ha) (Nat.le_add_right _ _)

namespace Tally

/-- Some items with their counts. -/
def ofCounts (items : List Text) (count : Text → Nat) : Tally :=
  items.map fun a => (a, (count a : Int))

theorem get?_ofKeys (key : Text) (keys : List Text) :
    (Entries.get? key (ofKeys keys)).getD 0 = (keys.count key : Int) := by
  induction keys using List.reverseRecOn with
  | nil => rfl
  | append_singleton keys k ih =>
    rw [ofKeys] at ih ⊢
    rw [List.foldl_append, List.foldl_cons, List.foldl_nil, get?_count, ih, List.count_append,
      List.count_singleton]
    by_cases hk : k = key <;> simp [hk]

/-- A tally has each key once, with the number of its occurrences. -/
theorem ofKeys_eq (keys : List Text) :
    ofKeys keys = ofCounts keys.eraseDups fun key => keys.count key := by
  have hnodup : (Entries.keys (ofKeys keys)).Nodup := by
    rw [keys_ofKeys]
    exact Graph.nodup_eraseDups keys
  rw [ofCounts, ← keys_ofKeys, Entries.keys, List.map_map]
  refine ((List.map_congr_left fun e he => ?_).trans (List.map_id _)).symm
  rw [Function.comp_apply, ← get?_ofKeys, Entries.get?_of_mem hnodup he, Option.getD_some, id]

theorem sum_ofKeys (keys : List Text) : ((ofKeys keys).map (·.2)).sum = keys.length := by
  induction keys using List.reverseRecOn with
  | nil => rfl
  | append_singleton keys k ih =>
    rw [ofKeys] at ih ⊢
    rw [List.foldl_append, List.foldl_cons, List.foldl_nil, sum_count, ih, List.length_append]
    rfl

variable {items : List Text} {count : Text → Nat}

theorem sum_ofCounts (items : List Text) (count : Text → Nat) :
    ((ofCounts items count).map (·.2)).sum = ((items.map count).sum : Nat) := by
  induction items with
  | nil => rfl
  | cons a items ih =>
    simp only [ofCounts, List.map_cons, List.sum_cons] at ih ⊢
    rw [ih]
    omega

/-- The items that count, sorted by falling counts. -/
def ranked (items : List Text) (count : Text → Nat) : List Text :=
  (items.mergeSort fun a b => decide (count b ≤ count a)).filter fun a => count a != 0

theorem count_trans (a b c : Text) (hab : decide (count b ≤ count a) = true)
    (hbc : decide (count c ≤ count b) = true) : decide (count c ≤ count a) = true := by
  rw [decide_eq_true_eq] at hab hbc ⊢
  omega

theorem count_total (a b : Text) :
    (decide (count b ≤ count a) || decide (count a ≤ count b)) = true := by
  rw [Bool.or_eq_true, decide_eq_true_eq, decide_eq_true_eq]
  omega

theorem ranks_ranked {R : Text → Text → Prop} (hR : items.Pairwise R) :
    Ranks items count R (ranked items count) := by
  refine ranks_mergeSort count_trans count_total hR fun a b hab hstable => ?_
  rw [decide_eq_true_eq] at hab hstable
  rcases Nat.lt_or_eq_of_le hab with h | h
  · exact .inl h
  · exact .inr ⟨h.symm, hstable (Nat.le_of_eq h.symm)⟩

/-- The highest counts of a tally are those of the first items of its ranking. -/
theorem filter_take_descending (n : Nat) :
    ((descending (ofCounts items count)).take n).filter (·.2 != 0) =
      ofCounts ((ranked items count).take n) count := by
  have hsorted : descending (ofCounts items count) =
      ofCounts (items.mergeSort fun a b => decide (count b ≤ count a)) count := by
    refine (List.map_mergeSort fun a _ b _ => ?_).symm
    simp
  have hnonzero : ((·.2 != 0) : Text × Int → Bool) ∘ (fun a => (a, (count a : Int))) =
      fun a => count a != 0 := by
    funext a
    simp [bne]
  rw [hsorted, ranked, ← take_ranked count_trans count_total (fun a b h => of_decide_eq_true h) n,
    ofCounts, ← List.map_take, List.filter_map, hnonzero]
  rfl

end Tally

theorem Ranks.lists {α β : Type} {items ranking : List α} {count : α → Nat}
    {before : α → α → Prop} {shown : α → β} {listing : Nat → List β}
    (h : Ranks items count before ranking)
    (hlisting : ∀ n, listing n = (ranking.take n).map shown) :
    ListsRanking items count before shown listing :=
  ⟨ranking, h, fun n => ⟨hlisting n, fun _ ha _ => h.count_le ha⟩⟩

/-- A ranking has no more items than there are counts in all. -/
theorem Ranks.length_le {α : Type} {items ranking : List α} {count : α → Nat}
    {before : α → α → Prop} (h : Ranks items count before ranking) :
    ranking.length ≤ (items.map count).sum := by
  rw [← h.sum, ← List.length_map count]
  refine List.length_le_sum_of_one_le _ fun k hk => ?_
  obtain ⟨a, ha, rfl⟩ := List.mem_map.mp hk
  have hcount := (List.mem_filter.mp (h.perm.mem_iff.mp ha)).2
  rw [bne_iff_ne] at hcount
  omega

namespace Graph

variable {g : Graph}

theorem outDegrees_eq (hnodes : g.nodes.Nodup) :
    g.outDegrees = Tally.ofCounts g.nodes g.outDegree := by
  have h := congrArg (List.map fun x : Text × Nat => (x.1, (x.2 : Int))) (map_outDegree hnodes)
  rw [List.map_map, List.map_map] at h
  exact h.symm

theorem inDegree_eq (g : Graph) (b : Text) : g.inDegree b = (g.edges.map (·.2)).count b := by
  rw [inDegree, List.count_eq_countP, List.countP_map]
  refine List.countP_congr fun e _ => ?_
  rw [Function.comp_apply, decide_eq_true_eq, beq_iff_eq]

theorem inDegrees_eq (g : Graph) :
    g.inDegrees = Tally.ofCounts (g.edges.map (·.2)).eraseDups g.inDegree := by
  rw [inDegrees, Tally.ofKeys_eq, funext g.inDegree_eq]

theorem mostDependencies_eq (hnodes : g.nodes.Nodup) (n : Nat) :
    g.mostDependencies n =
      Tally.ofCounts ((Tally.ranked g.nodes g.outDegree).take n) g.outDegree := by
  rw [mostDependencies, outDegrees_eq hnodes]
  exact Tally.filter_take_descending n

theorem mostReferenced_eq (g : Graph) (n : Nat) :
    g.mostReferenced n = Tally.ofCounts
      ((Tally.ranked (g.edges.map (·.2)).eraseDups g.inDegree).take n) g.inDegree := by
  rw [← Tally.filter_take_descending, ← inDegrees_eq]
  refine (List.filter_eq_self.mpr fun e he => ?_).symm
  -- only targets of edges are counted
  have hmem := (List.mergeSort_perm _ _).mem_iff.mp (List.mem_of_mem_take he)
  rw [inDegrees_eq] at hmem
  obtain ⟨b, hb, rfl⟩ := List.mem_map.mp hmem
  have hcount := List.count_pos_iff.mpr (List.mem_eraseDups.mp hb)
  rw [← inDegree_eq] at hcount
  rw [bne_iff_ne]
  dsimp only
  omega

/-- Every edge leads to one target. -/
theorem sum_inDegree (g : Graph) :
    ((g.edges.map (·.2)).eraseDups.map g.inDegree).sum = g.edgeCount := by
  have hsum := Tally.sum_ofKeys (g.edges.map (·.2))
  rw [← inDegrees, inDegrees_eq, Tally.sum_ofCounts, List.length_map, length_edges] at hsum
  exact Int.ofNat.inj hsum

end Graph

namespace Statistics

/-- The order of the files: those with more imports first, then by path. -/
def fileBefore (a b : Source) : Bool :=
  rankedBefore (a.imports.length, a.path) (b.imports.length, b.path)

theorem fileBefore_iff {a b : Source} : fileBefore a b = true ↔
    b.imports.length < a.imports.length ∨
      a.imports.length = b.imports.length ∧ ¬ b.path < a.path := by
  simp only [fileBefore, rankedBefore, Bool.or_eq_true, Bool.and_eq_true, decide_eq_true_eq,
    beq_iff_eq, Text.le_iff]

theorem fileBefore_trans (a b c : Source) :
    fileBefore a b = true → fileBefore b c = true → fileBefore a c = true :=
  rankedBefore_trans _ _ _

theorem fileBefore_total (a b : Source) : (fileBefore a b || fileBefore b a) = true :=
  rankedBefore_total _ _

/-- The files with imports in their order. -/
def rankedFiles (sources : List Source) : List Source :=
  (sources.mergeSort fileBefore).filter fun s => s.imports.length != 0

theorem ranks_rankedFiles (sources : List Source) :
    Ranks sources (·.imports.length) (fun s t => ¬ t.path < s.path) (rankedFiles sources) :=
  ranks_mergeSort fileBefore_trans fileBefore_total
    (List.pairwise_of_forall fun _ _ => trivial) fun _ _ hst _ => fileBefore_iff.mp hst

theorem topFiles_eq (root : Option Text) (n : Nat) (sources : List Source) :
    topFiles root n sources = ((rankedFiles sources).take n).map fun s =>
      (Path.display s.path root, s.imports.length) := by
  have hempty : (fun s : Source => !s.imports.isEmpty) = fun s => s.imports.length != 0 := by
    funext s
    cases s.imports <;> rfl
  have hcount : ∀ a b : Source, fileBefore a b = true → b.imports.length ≤ a.imports.length := by
    intro a b hab
    rcases fileBefore_iff.mp hab with h | ⟨h, -⟩ <;> omega
  rw [rankedFiles, ← take_ranked fileBefore_trans fileBefore_total hcount, topFiles, hempty]
  rfl

end Statistics

/-- The listings of the nodes with the most edges from them, of the nodes with the most edges into
them and of the files with the most imports are the first items of rankings by falling counts: nodes
with as many edges from them stand in the order of the nodes, those with as many edges into them in
the order in which edges first lead to them, files with as many imports by path. An edge is counted
once, and all edges are counted if the listing is long enough. -/
theorem rankings_exact (g : Graph) (hnodes : g.nodes.Nodup)
    (htargets : ∀ node, (g.successors node).Nodup) :
    let targets := g.edges.map (·.2)
    g.edges.Nodup ∧ (∀ a b, (a, b) ∈ g.edges ↔ g.hasEdge a b = true) ∧
    ListsRanking g.nodes g.outDegree (Earlier g.nodes) (fun a => (a, (g.outDegree a : Int)))
      (fun n => g.mostDependencies n) ∧
    ListsRanking targets.eraseDups g.inDegree (Earlier targets) (fun b => (b, (g.inDegree b : Int)))
      (fun n => g.mostReferenced n) ∧
    (∀ n : Nat, g.edgeCount ≤ n →
      ((g.mostDependencies n).map (·.2)).sum = g.edgeCount ∧
      ((g.mostReferenced n).map (·.2)).sum = g.edgeCount) ∧
    ∀ (root : Option Text) (sources : List Source),
      ListsRanking sources (·.imports.length) (fun s t => ¬ t.path < s.path)
        (fun s => (Path.display s.path root, s.imports.length))
        (fun n => Statistics.topFiles root n sources) := by
  intro targets
  have hfrom : Ranks g.nodes g.outDegree (Earlier g.nodes) (Tally.ranked g.nodes g.outDegree) := by
    have hearlier := pairwise_eraseDups g.nodes
    rw [Graph.eraseDups_of_nodup hnodes] at hearlier
    exact Tally.ranks_ranked hearlier
  have hinto : Ranks targets.eraseDups g.inDegree (Earlier targets)
      (Tally.ranked targets.eraseDups g.inDegree) :=
    Tally.ranks_ranked (pairwise_eraseDups targets)
  refine ⟨g.nodup_edges hnodes htargets, fun a b => g.mem_edges_iff hnodes,
    hfrom.lists (g.mostDependencies_eq hnodes), hinto.lists g.mostReferenced_eq,
    fun n hn => ⟨?_, ?_⟩, fun root sources => (Statistics.ranks_rankedFiles sources).lists fun n =>
      Statistics.topFiles_eq root n sources⟩
  · have hlength := hfrom.length_le
    rw [g.sum_outDegree hnodes] at hlength
    rw [g.mostDependencies_eq hnodes, List.take_of_length_le (Nat.le_trans hlength hn),
      Tally.sum_ofCounts, hfrom.sum, g.sum_outDegree hnodes]
  · have hlength := hinto.length_le
    rw [g.sum_inDegree] at hlength
    rw [g.mostReferenced_eq, List.take_of_length_le (Nat.le_trans hlength hn),
      Tally.sum_ofCounts, hinto.sum, g.sum_inDegree]

/-- Two nodes with as many edges from them, and two with as many into them. -/
def tiedGraph : Graph := ⟨[("d", []), ("b", ["c", "a"]), ("a", ["a", "c"]), ("c", ["b"])]⟩

theorem rankings_exact_tied :
    (tiedGraph.nodes.Nodup ∧ ∀ node, (tiedGraph.successors node).Nodup) ∧
      ListsRanking tiedGraph.nodes tiedGraph.outDegree (Earlier tiedGraph.nodes)
        (fun a => (a, (tiedGraph.outDegree a : Int))) (fun n => tiedGraph.mostDependencies n) ∧
      tiedGraph.mostDependencies 2 = ([("b", 2), ("a", 2)] : List (Text × Int)) ∧
      tiedGraph.mostReferenced 2 = ([("c", 2), ("a", 2)] : List (Text × Int)) ∧
      ((tiedGraph.mostReferenced 5).map (·.2)).sum = 5 := by
  have hnodes : tiedGraph.nodes.Nodup := by decide
  have htargets : ∀ node, (tiedGraph.successors node).Nodup := by
    intro node
    by_cases hnode : node ∈ tiedGraph.nodes
    · have hall : ∀ a ∈ tiedGraph.nodes, (tiedGraph.successors a).Nodup := by decide
      exact hall node hnode
    · rw [Graph.successors, Entries.get?_eq_none_iff.mpr hnode]
      exact List.nodup_nil
  obtain ⟨-, -, hfrom, -, hsum, -⟩ := rankings_exact tiedGraph hnodes htargets
  exact ⟨⟨hnodes, htargets⟩, hfrom, by cbv, by cbv, (hsum 5 (by decide)).2⟩

end ModuleGraph
