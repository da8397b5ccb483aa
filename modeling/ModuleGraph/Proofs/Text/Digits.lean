import ModuleGraph.Proofs.Text.Order
import Mathlib

/-!
Numbers written with a fixed number of digits, to a base of at most sixteen.

* `fill_succ`, `length_fill`: the last digit, and how many there are;
* `fill_lt`, `fill_append_lt`: such texts have the order of the numbers that they stand for.
-/

namespace ModuleGraph
namespace Text

variable {base width m n : Nat} {a b s t : Text}

/-- The digits of a number with zeros in front up to a width. -/
def fill (base width n : Nat) : Text :=
  List.replicate (width - (Nat.toDigits base n).length) '0' ++ Nat.toDigits base n

theorem fill_one (h : n < base) : fill base 1 n = [Nat.digitChar n] := by
  rw [fill, Nat.toDigits_of_lt_base h]
  rfl

/-- The last digit of a number with at least two places. -/
theorem fill_succ (hbase : 1 < base) (hwidth : 0 < width) (n : Nat) :
    fill base (width + 1) n = fill base width (n / base) ++ [Nat.digitChar (n % base)] := by
  rw [fill, fill]
  by_cases hn : n < base
  · have hzero : Nat.toDigits base 0 = ['0'] := Nat.toDigits_of_lt_base (by omega)
    have hrep : List.replicate width '0' = List.replicate (width - 1) '0' ++ ['0'] := by
      rw [← List.replicate_succ', Nat.sub_add_cancel hwidth]
    rw [Nat.toDigits_of_lt_base hn, Nat.div_eq_of_lt hn, hzero, Nat.mod_eq_of_lt hn,
      List.length_singleton, List.length_singleton, Nat.add_sub_cancel, hrep]
  · rw [Nat.toDigits_of_base_le hbase (by omega), List.length_append, List.length_singleton,
      Nat.add_sub_add_right, List.append_assoc]

theorem div_lt_pow (hn : n < base ^ (width + 1)) : n / base < base ^ width := by
  rw [Nat.pow_succ] at hn
  exact Nat.div_lt_of_lt_mul (Nat.mul_comm _ _ ▸ hn)

theorem length_fill (hbase : 1 < base) (hwidth : 0 < width) (hn : n < base ^ width) :
    (fill base width n).length = width := by
  induction width, hwidth using Nat.le_induction generalizing n with
  | base => rw [fill_one (by simpa using hn), List.length_singleton]
  | succ width hwidth ih =>
    rw [fill_succ hbase hwidth, List.length_append, List.length_singleton, ih (div_lt_pow hn)]

/-- The first difference decides, if the texts before it are equally long. -/
theorem append_lt_append (h : a < b) (hlen : a.length = b.length) (s t : Text) :
    a ++ s < b ++ t := by
  induction a generalizing b with
  | nil =>
    cases b with
    | nil => exact absurd h (List.lt_irrefl _)
    | cons d b => cases hlen
  | cons c a ih =>
    cases b with
    | nil => cases hlen
    | cons d b =>
      rw [List.cons_append, List.cons_append, List.cons_lt_cons_iff]
      rw [List.cons_lt_cons_iff] at h
      exact h.imp id fun h => ⟨h.1, ih h.2 (Nat.succ.inj hlen)⟩

theorem digitChar_lt : ∀ n < 16, ∀ m < n, Nat.digitChar m < Nat.digitChar n := by decide

/-- Numbers of one width have the order of what they stand for. -/
theorem fill_lt (hbase : 1 < base) (hle : base ≤ 16) (hwidth : 0 < width)
    (hn : n < base ^ width) (h : m < n) : fill base width m < fill base width n := by
  induction width, hwidth using Nat.le_induction generalizing m n with
  | base =>
    have hn : n < base := by simpa using hn
    rw [fill_one (by omega), fill_one hn, List.cons_lt_cons_iff]
    exact Or.inl (digitChar_lt n (by omega) m h)
  | succ width hwidth ih =>
    rw [fill_succ hbase hwidth, fill_succ hbase hwidth]
    have hn' := div_lt_pow hn
    rcases Nat.lt_or_ge (m / base) (n / base) with hdiv | hdiv
    · refine append_lt_append (ih hn' hdiv) ?_ _ _
      rw [length_fill hbase hwidth (Nat.lt_trans hdiv hn'), length_fill hbase hwidth hn']
    · have heq : m / base = n / base := Nat.le_antisymm (Nat.div_le_div_right (Nat.le_of_lt h)) hdiv
      have hm := Nat.div_add_mod m base
      have hmod := Nat.div_add_mod n base
      have hlast := Nat.mod_lt n (by omega : 0 < base)
      rw [heq] at hm ⊢
      exact List.append_left_lt (List.cons_lt_cons_iff.mpr
        (Or.inl (digitChar_lt _ (by omega) _ (by omega))))

/-- What follows equal numbers decides; else the numbers do. -/
theorem fill_append_lt (hbase : 1 < base) (hle : base ≤ 16) (hwidth : 0 < width)
    (hm : m < base ^ width) (hn : n < base ^ width) (h : m < n ∨ m = n ∧ s < t) :
    fill base width m ++ s < fill base width n ++ t := by
  rcases h with h | ⟨rfl, h⟩
  · refine append_lt_append (fill_lt hbase hle hwidth hn h) ?_ s t
    rw [length_fill hbase hwidth hm, length_fill hbase hwidth hn]
  · exact List.append_left_lt h

end Text
end ModuleGraph
