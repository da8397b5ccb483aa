import ModuleGraph.Text.Basic
import Mathlib.Data.List.Basic

/-!
The order of texts by code point.

* `le_trans`, `le_total`, `le_antisymm`: it is a linear order;
* `pairwise_sorted`: sorting puts texts into it;
* `eq_of_pairwise_le`: the texts of a list can be put into it in one way only.
-/

namespace ModuleGraph
namespace Text

variable {a b c : Text}

theorem le_iff : le a b = true ↔ ¬ b < a := by rw [le, Bool.not_eq_true', decide_eq_false_iff_not]

theorem le_trans (a b c : Text) (hab : le a b = true) (hbc : le b c = true) : le a c = true := by
  rw [le_iff, List.not_lt] at hab hbc ⊢
  exact List.le_trans hab hbc

theorem le_total (a b : Text) : (le a b || le b a) = true := by
  rw [Bool.or_eq_true, le_iff, le_iff, List.not_lt, List.not_lt]
  exact List.le_total a b

theorem le_antisymm (hab : le a b = true) (hba : le b a = true) : a = b := by
  rw [le_iff, List.not_lt] at hab hba
  exact List.le_antisymm hab hba

theorem pairwise_sorted (ts : List Text) : (sorted ts).Pairwise fun a b => le a b = true :=
  List.pairwise_mergeSort le_trans le_total ts

/-- Of the same texts only one list is sorted. -/
theorem eq_of_pairwise_le {as bs : List Text} (ha : as.Pairwise fun a b => le a b = true)
    (hb : bs.Pairwise fun a b => le a b = true) (h : as.Perm bs) : as = bs :=
  h.eq_of_pairwise (fun _ _ _ _ => le_antisymm) ha hb

end Text
end ModuleGraph
