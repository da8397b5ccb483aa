import ModuleGraph.Proofs.Graph.Walk
import ModuleGraph.Proofs.Text.Order
import Mathlib.Data.List.Rotate

/-!
A ring names a closed walk up to rotation.

* `least_eq_of_perm`: where a ring begins does not depend on where the walk begins;
* `eq_of_isRotated`: without repetitions, rotations that begin alike are the same;
* `ring_eq_iff`: so the rings of two walks are the same exactly if the walks are rotations of each
  other;
* `isRotated_reverse_iff`: a walk around three nodes or more is no rotation of the way back;
* `ring_identifies`: both together, for closed sequences of nodes.
-/

namespace ModuleGraph
namespace Cycle

variable {t : Text} {ts us c d : List Text}

theorem least_mem (h : ts ≠ []) : least ts ∈ ts := by
  fun_induction least ts with
  | case1 => exact absurd rfl h
  | case2 t => exact List.mem_singleton_self t
  | case3 t rest hne m hlt ih => exact List.mem_cons_of_mem _ (ih hne)
  | case4 t rest hne m hlt ih => exact List.mem_cons_self

theorem least_le (h : t ∈ ts) : Text.le (least ts) t = true := by
  have hrefl : ∀ u, Text.le u u = true := fun u => Text.le_iff.mpr (List.lt_irrefl u)
  fun_induction least ts with
  | case1 => cases h
  | case2 u => exact List.mem_singleton.mp h ▸ hrefl t
  | case3 u rest hne m hlt ih =>
    rcases List.mem_cons.mp h with rfl | h
    · exact Text.le_iff.mpr (List.lt_asymm hlt)
    · exact ih h
  | case4 u rest hne m hlt ih =>
    rcases List.mem_cons.mp h with rfl | h
    · exact hrefl t
    · exact Text.le_trans _ _ _ (Text.le_iff.mpr hlt) (ih h)

/-- The least of some texts does not depend on their order. -/
theorem least_eq_of_perm (h : ts.Perm us) : least ts = least us := by
  by_cases hts : ts = []
  · subst hts
    rw [h.nil_eq]
  · have hus : us ≠ [] := fun hus => hts (hus ▸ h).eq_nil
    have hle := least_le (h.mem_iff.mpr (least_mem hus))
    exact Text.le_antisymm hle (least_le (h.mem_iff.mp (least_mem hts)))

theorem ring_eq_rotate (nodes : List Text) :
    ring nodes = nodes.dropLast.rotate (nodes.dropLast.idxOf (least nodes.dropLast)) :=
  (List.rotate_eq_drop_append_take List.idxOf_le_length).symm

theorem ring_isRotated (nodes : List Text) : ring nodes ~r nodes.dropLast := by
  rw [ring_eq_rotate]
  exact (List.IsRotated.forall _ _)

/-- A ring begins with its least node. -/
theorem head?_ring (h : c.dropLast ≠ []) : (ring c).head? = some (least c.dropLast) := by
  have hlt := List.idxOf_lt_length_of_mem (least_mem h)
  rw [ring_eq_rotate, List.head?_rotate hlt, List.getElem?_eq_getElem hlt, List.getElem_idxOf]

/-- Rotations that begin alike are the same, if nothing is repeated. -/
theorem eq_of_isRotated (hr : ts ~r us) (hn : ts.Nodup) (hhead : ts.head? = us.head?) :
    ts = us := by
  obtain ⟨n, rfl⟩ := hr
  rcases List.eq_nil_or_concat ts with rfl | ⟨front, x, hx⟩
  · rfl
  · have hpos : 0 < ts.length := by simp [hx]
    have hlt := Nat.mod_lt n hpos
    rw [← List.rotate_mod, List.head?_rotate hlt, List.head?_eq_getElem?] at hhead
    have hzero : 0 = n % ts.length := (List.getElem?_inj hpos hn).mp hhead
    rw [← List.rotate_mod, ← hzero, List.rotate_zero]

/-- The rings of two closed walks are the same exactly if the walks are rotations of each other, as
long as one of them meets no node twice. -/
theorem ring_eq_iff (hc : c.dropLast.Nodup) : ring c = ring d ↔ c.dropLast ~r d.dropLast := by
  constructor
  · intro h
    exact (ring_isRotated c).symm.trans (h ▸ ring_isRotated d)
  · intro h
    by_cases hnil : c.dropLast = []
    · have hd : d.dropLast = [] := (hnil ▸ h.perm).nil_eq.symm
      rw [ring_eq_rotate, ring_eq_rotate, hnil, hd]
    · have hd : d.dropLast ≠ [] := fun hd => hnil (hd ▸ h.perm).eq_nil
      refine eq_of_isRotated ?_ ((ring_perm c).nodup_iff.mpr hc) ?_
      · exact (ring_isRotated c).trans (h.trans (ring_isRotated d).symm)
      · rw [head?_ring hnil, head?_ring hd, least_eq_of_perm h.perm]

example : ring ["b", "a", "b"] = ring ["a", "b", "a"] := by decide

/-- A list without repetitions that reads the same from both ends has one element at most. -/
theorem length_le_one_of_reverse_eq (h : ts.reverse = ts) (hn : ts.Nodup) : ts.length ≤ 1 := by
  cases ts with
  | nil => exact Nat.zero_le 1
  | cons a rest =>
    rcases List.eq_nil_or_concat rest with rfl | ⟨front, b, rfl⟩
    · exact Nat.le_refl 1
    · have hends : b = a := by simpa using congrArg List.head? h
      simp [hends] at hn

/-- A list without repetitions is a rotation of its reverse only if it has two elements at most. -/
theorem isRotated_reverse_iff (hn : ts.Nodup) : ts.reverse ~r ts ↔ ts.length ≤ 2 := by
  cases ts with
  | nil => simp
  | cons a rest =>
    -- turned by one, the reverse begins like the list
    have hturned : (a :: rest).reverse ~r (a :: rest.reverse) := by
      rw [List.reverse_cons]
      exact List.isRotated_concat a rest.reverse
    have hiff : (a :: rest).reverse ~r (a :: rest) ↔ rest.reverse = rest := by
      constructor
      · intro h
        have hnodup : (a :: rest.reverse).Nodup :=
          hturned.nodup_iff.mp (List.nodup_reverse.mpr hn)
        exact List.tail_eq_of_cons_eq (eq_of_isRotated (hturned.symm.trans h) hnodup rfl)
      · intro h
        rwa [h] at hturned
    rw [hiff, List.length_cons, Nat.succ_le_succ_iff]
    constructor
    · exact fun h => length_le_one_of_reverse_eq h (List.nodup_cons.mp hn).2
    · intro h
      match rest, h with
      | [], _ => rfl
      | [_], _ => rfl

/-- A sequence of nodes that ends where it starts, has two entries at least and no node twice but
the one where it starts and ends. -/
structure IsClosed (nodes : List Text) : Prop where
  two_le_length : 2 ≤ nodes.length
  closed : nodes.head? = nodes.getLast?
  nodup : nodes.dropLast.Nodup

/-- The way back around a closed sequence is closed, and its ring is the reversed one. -/
theorem IsClosed.reverse (h : IsClosed c) :
    IsClosed c.reverse ∧ c.reverse.dropLast ~r c.dropLast.reverse := by
  obtain ⟨a, rest, hc⟩ := eq_cons_concat (c := ⟨c⟩) h.two_le_length h.closed
  obtain rfl : c = a :: (rest ++ [a]) := hc
  have hback : (a :: (rest ++ [a])).reverse = (a :: rest.reverse) ++ [a] := by simp
  have hopen : (a :: (rest ++ [a])).dropLast = a :: rest := by
    rw [← List.cons_append, List.dropLast_concat]
  have hturned : (a :: rest.reverse) ~r (a :: rest).reverse := by
    rw [List.reverse_cons]
    exact List.IsRotated.symm (List.isRotated_concat a rest.reverse)
  refine ⟨{ two_le_length := ?_, closed := ?_, nodup := ?_ }, ?_⟩
  · rw [List.length_reverse]
    exact h.two_le_length
  · rw [List.head?_reverse, List.getLast?_reverse]
    exact h.closed.symm
  · rw [hback, List.dropLast_concat, hturned.nodup_iff, List.nodup_reverse, ← hopen]
    exact h.nodup
  · rw [hback, List.dropLast_concat, hopen]
    exact hturned

/-- Rings of three nodes or more tell a closed sequence from every one that goes the other way. -/
theorem ring_eq_reversed_iff (hc : IsClosed c) (h : d.dropLast ~r c.dropLast.reverse) :
    ring c = ring d ↔ c.dropLast.length ≤ 2 := by
  rw [ring_eq_iff hc.nodup, ← isRotated_reverse_iff hc.nodup]
  exact ⟨fun hcd => (hcd.trans h).symm, fun hback => (h.trans hback).symm⟩

/-- The ring of a closed sequence names it up to rotation. A sequence that goes the other way around
has the same ring only if there are two nodes at most, and the reverse is such a sequence. -/
theorem ring_identifies (hc : IsClosed c) :
    (ring c = ring d ↔ c.dropLast ~r d.dropLast) ∧
      (d.dropLast ~r c.dropLast.reverse → (ring c = ring d ↔ c.dropLast.length ≤ 2)) ∧
      IsClosed c.reverse ∧ (ring c = ring c.reverse ↔ c.dropLast.length ≤ 2) :=
  ⟨ring_eq_iff hc.nodup, ring_eq_reversed_iff hc, hc.reverse.1,
    ring_eq_reversed_iff hc hc.reverse.2⟩

/-- Three modules around which one goes from two places, and the other way. -/
theorem ring_identifies_three :
    let c : List Text := ["b", "c", "a", "b"]
    let d : List Text := ["a", "b", "c", "a"]
    IsClosed c ∧ ring c = ring d ∧ ring c ≠ ring c.reverse := by
  intro c d
  have hc : IsClosed c := ⟨by decide, by decide, by decide⟩
  have h := ring_identifies (d := d) hc
  exact ⟨hc, h.1.mpr ⟨2, by decide⟩, fun hback => absurd (h.2.2.2.mp hback) (by decide)⟩

end Cycle
end ModuleGraph
