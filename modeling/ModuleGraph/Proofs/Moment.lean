import ModuleGraph.Moment
import ModuleGraph.Proofs.Text.Digits

/-!
The order of moments and of their texts.

* `IsValid`, `Before`: moments of the calendar, and which of two is earlier;
* `iso_lt`, `stamp_lt`: the texts of moments have the order of the moments, with and without a
  fraction;
* `slash_not_mem_stamp`: a stamp can stand in a file name.
-/

namespace ModuleGraph
namespace Moment

variable {m n : Moment} {s t : Text} {sep : Char}

/-- A moment that a clock can show. -/
structure IsValid (m : Moment) : Prop where
  year : 1 ≤ m.year ∧ m.year ≤ 9999
  month : 1 ≤ m.month ∧ m.month ≤ 12
  day : 1 ≤ m.day ∧ m.day ≤ daysIn m.year m.month
  hour : m.hour < 24
  minute : m.minute < 60
  second : m.second < 60
  micro : m.micro < 1000000

/-- The numbers of a moment, the largest unit first. -/
def fields (m : Moment) : List Nat :=
  [m.year, m.month, m.day, m.hour, m.minute, m.second, m.micro]

/-- Is the first moment the earlier one? -/
def Before (m n : Moment) : Prop := m.fields < n.fields

theorem before_iff : m.Before n ↔ m.year < n.year ∨ m.year = n.year ∧
    (m.month < n.month ∨ m.month = n.month ∧ (m.day < n.day ∨ m.day = n.day ∧
      (m.hour < n.hour ∨ m.hour = n.hour ∧ (m.minute < n.minute ∨ m.minute = n.minute ∧
        (m.second < n.second ∨ m.second = n.second ∧ m.micro < n.micro))))) := by
  simp [Before, fields, List.cons_lt_cons_iff]

/-- Of two moments one is earlier, or they are the same. -/
theorem before_trichotomy (m n : Moment) : m.Before n ∨ m = n ∨ n.Before m := by
  obtain ⟨y, mo, d, h, mi, s, u⟩ := m
  obtain ⟨y', mo', d', h', mi', s', u'⟩ := n
  rw [before_iff, before_iff, Moment.mk.injEq]
  dsimp only
  omega

theorem daysIn_le (year month : Nat) : daysIn year month ≤ 31 := by
  rw [daysIn]
  split
  · split <;> omega
  · split <;> omega

theorem padded_append_lt {width x y : Nat} (hwidth : 0 < width) (hx : x < 10 ^ width)
    (hy : y < 10 ^ width) (h : x < y ∨ x = y ∧ s < t) :
    padded width x ++ s < padded width y ++ t :=
  Text.fill_append_lt (by decide) (by decide) hwidth hx hy h

theorem cons_lt (c : Char) (h : s < t) : c :: s < c :: t :=
  List.cons_lt_cons_iff.mpr (Or.inr ⟨rfl, h⟩)

/-- The texts of moments up to the second, and what follows them, have the order of the moments. -/
theorem dateTime_lt (hm : m.IsValid) (hn : n.IsValid) (h : m.Before n)
    (hlast : m.micro < n.micro → s < t) :
    m.dateText ++ 'T' :: m.timeText sep ++ s < n.dateText ++ 'T' :: n.timeText sep ++ t := by
  have hday := Nat.le_trans hm.day.2 (daysIn_le _ _)
  have hday' := Nat.le_trans hn.day.2 (daysIn_le _ _)
  have h₁ := hm.year
  have h₂ := hm.month
  have h₃ := hm.hour
  have h₄ := hm.minute
  have h₅ := hm.second
  have k₁ := hn.year
  have k₂ := hn.month
  have k₃ := hn.hour
  have k₄ := hn.minute
  have k₅ := hn.second
  rw [before_iff] at h
  simp only [dateText, timeText, List.append_assoc, List.cons_append]
  refine padded_append_lt (by decide) (by omega) (by omega)
    (h.imp_right (And.imp_right fun h => ?_))
  refine cons_lt _ (padded_append_lt (by decide) (by omega) (by omega)
    (h.imp_right (And.imp_right fun h => ?_)))
  refine cons_lt _ (padded_append_lt (by decide) (by omega) (by omega)
    (h.imp_right (And.imp_right fun h => ?_)))
  refine cons_lt _ (padded_append_lt (by decide) (by omega) (by omega)
    (h.imp_right (And.imp_right fun h => ?_)))
  refine cons_lt _ (padded_append_lt (by decide) (by omega) (by omega)
    (h.imp_right (And.imp_right fun h => ?_)))
  exact cons_lt _ (padded_append_lt (by decide) (by omega) (by omega)
    (h.imp_right (And.imp_right hlast)))

/-- A whole second comes before its fractions, though its text is shorter. -/
theorem iso_lt (hm : m.IsValid) (hn : n.IsValid) (h : m.Before n) : m.iso < n.iso := by
  have hiso : ∀ m : Moment, m.iso = m.dateText ++ 'T' :: m.timeText ':' ++
      ((if m.micro = 0 then [] else '.' :: padded 6 m.micro) ++ ("+00:00" : Text)) :=
    fun _ => List.append_assoc _ _ _
  rw [hiso, hiso]
  refine dateTime_lt hm hn h fun hmicro => ?_
  have hfraction : n.micro ≠ 0 := by omega
  rw [if_neg hfraction]
  split
  · exact List.cons_lt_cons_iff.mpr (Or.inl (by decide))
  · exact cons_lt _ (padded_append_lt (by decide) hm.micro hn.micro (Or.inl hmicro))

theorem stamp_lt (hm : m.IsValid) (hn : n.IsValid) (h : m.Before n) : m.stamp < n.stamp := by
  have hstamp : ∀ m : Moment, m.stamp =
      m.dateText ++ 'T' :: m.timeText '-' ++ ('-' :: (padded 6 m.micro ++ ['Z'])) := by
    intro m
    simp [stamp]
  rw [hstamp, hstamp]
  exact dateTime_lt hm hn h fun hmicro =>
    cons_lt _ (padded_append_lt (by decide) hm.micro hn.micro (Or.inl hmicro))

/-- A stamp tells which moment it is of. -/
theorem eq_of_stamp_eq (hm : m.IsValid) (hn : n.IsValid) (h : m.stamp = n.stamp) : m = n := by
  rcases before_trichotomy m n with hlt | heq | hlt
  · exact absurd (h ▸ stamp_lt hm hn hlt) (List.lt_irrefl _)
  · exact heq
  · exact absurd (h ▸ stamp_lt hn hm hlt) (List.lt_irrefl _)

theorem slash_not_mem_padded (width n : Nat) : '/' ∉ padded width n := by
  intro h
  have hdigit : ('/' : Char).isDigit = true := by
    rcases List.mem_append.mp h with h | h
    · cases List.eq_of_mem_replicate h
    · exact Nat.isDigit_of_mem_toDigits (by decide) (by decide) h
  cases hdigit

/-- No slash is in a stamp. -/
theorem slash_not_mem_stamp (m : Moment) : '/' ∉ m.stamp := by
  simp [stamp, dateText, timeText, slash_not_mem_padded]

end Moment
end ModuleGraph
