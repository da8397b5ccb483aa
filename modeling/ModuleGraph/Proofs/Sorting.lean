import Mathlib.Data.List.Basic

/-!
Sorting keeps the order of what is alike.

* `filter_mergeSort`: items that may stand in any order keep theirs;
* `pairwise_mergeSort_stable`: so of two items that may stand in any order the one that came first
  comes first;
* `filter_take`: where what passes a test stands in front, it does not matter whether the rest is
  left out before or after the list is cut.
-/

namespace ModuleGraph

variable {α : Type} {le : α → α → Bool} {p : α → Bool} {l : List α}

section Order

variable (htrans : ∀ a b c, le a b = true → le b c = true → le a c = true)
  (htotal : ∀ a b, (le a b || le b a) = true)
include htrans htotal

/-- Items that may stand in any order keep theirs. -/
theorem filter_mergeSort (hp : ∀ a b, p a = true → p b = true → le a b = true) (l : List α) :
    (l.mergeSort le).filter p = l.filter p := by
  have hle : (l.filter p).Pairwise fun a b => le a b = true :=
    List.pairwise_filter.mpr (List.pairwise_of_forall fun a b ha hb => hp a b ha hb)
  have hsub : ((l.filter p).filter p).Sublist ((l.mergeSort le).filter p) :=
    (List.sublist_mergeSort htrans htotal hle List.filter_sublist).filter p
  rw [List.filter_filter, List.filter_congr (q := p) (by simp)] at hsub
  refine (hsub.eq_of_length ?_).symm
  exact ((List.mergeSort_perm l le).filter p).length_eq.symm

/-- Of two items that may stand in any order the one that came first comes first. -/
theorem pairwise_mergeSort_stable {R : α → α → Prop} (h : l.Pairwise R) :
    (l.mergeSort le).Pairwise fun a b => le a b = true ∧ (le b a = true → R a b) := by
  rw [List.pairwise_iff_forall_sublist]
  intro a b hsub
  have hab := List.pairwise_iff_forall_sublist.mp (List.pairwise_mergeSort htrans htotal l) hsub
  refine ⟨hab, fun hba => ?_⟩
  have haa : le a a = true := htrans a b a hab hba
  -- both are among the items that are like the first of them
  have hlike : [a, b].Sublist (l.filter fun x => le a x && le x a) := by
    have hboth := hsub.filter fun x => le a x && le x a
    rw [filter_mergeSort htrans htotal fun x y hx hy => ?_] at hboth
    · simpa [haa, hab, hba] using hboth
    · rw [Bool.and_eq_true] at hx hy
      exact htrans x a y hx.2 hy.1
  exact List.pairwise_iff_forall_sublist.mp h (hlike.trans List.filter_sublist)

end Order

/-- Where what passes a test stands in front, the rest can be left out before the list is cut. -/
theorem filter_take (h : l.Pairwise fun a b => p b = true → p a = true) (n : Nat) :
    (l.take n).filter p = (l.filter p).take n := by
  induction l generalizing n with
  | nil => simp
  | cons a l ih =>
    obtain ⟨hfirst, hrest⟩ := List.pairwise_cons.mp h
    cases n with
    | zero => simp
    | succ n =>
      by_cases ha : p a = true
      · rw [List.take_succ_cons, List.filter_cons_of_pos ha, List.filter_cons_of_pos ha,
          List.take_succ_cons, ih hrest]
      · have hnone : l.filter p = [] :=
          List.filter_eq_nil_iff.mpr fun b hb hpb => ha (hfirst b hb hpb)
        rw [List.take_succ_cons, List.filter_cons_of_neg ha, List.filter_cons_of_neg ha, ih hrest,
          hnone, List.take_nil, List.take_nil]

end ModuleGraph
