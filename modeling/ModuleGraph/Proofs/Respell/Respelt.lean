import ModuleGraph.Proofs.Respell.Recorded

/-!
Texts that differ in quoted specifiers only.

* `Respelt`: the relation, piece by piece from quote to quote;
* `Respelt.inv`, `Respelt.inv_last`: how a text is respelled up to its first quote;
* `Respelt.comp`: respelling twice is respelling once, if nothing is respelled again.
-/

namespace ModuleGraph

open Cursor

/-- The quote that a character opens. -/
def opening (c : Char) : Option Char := if isQuote c then some c else none

/-- The second text is the first one with some of its quoted specifiers respelled. The first
argument is the quote that stands before the texts, if one does. -/
inductive Respelt (R : Text → Text → Prop) : Option Char → Text → Text → Prop
  | last {o : Option Char} {w : Text} : w.IsUnquoted → Respelt R o w w
  | keep {o : Option Char} {w : Text} {q : Char} {s t : Text} : w.IsUnquoted →
      isQuote q = true → Respelt R (some q) s t → Respelt R o (w ++ q :: s) (w ++ q :: t)
  | respell {q : Char} {v w s t : Text} : v.IsUnquoted → w.IsUnquoted → isQuote q = true →
      R v w → Respelt R (some q) s t → Respelt R (some q) (v ++ q :: s) (w ++ q :: t)

namespace Respelt

variable {R Q : Text → Text → Prop} {o : Option Char} {s t u w : Text} {c : Char}

theorem isUnquoted_nil : Text.IsUnquoted [] := by
  intro c hc
  simp at hc

theorem isUnquoted_cons (hc : isQuote c = false) (hw : w.IsUnquoted) :
    Text.IsUnquoted (c :: w) := by
  intro d hd
  rcases List.mem_cons.mp hd with rfl | hd
  · exact hc
  · exact hw d hd

theorem mono (h : Respelt R o s t) (hRQ : ∀ v w, R v w → Q v w) : Respelt Q o s t := by
  induction h with
  | last hw => exact .last hw
  | keep hw hq _ ih => exact .keep hw hq ih
  | respell hv hw hq hR _ ih => exact .respell hv hw hq (hRQ _ _ hR) ih

theorem of_none (h : Respelt R none s t) : Respelt R o s t := by
  cases h with
  | last hw => exact .last hw
  | keep hw hq h => exact .keep hw hq h

/-- One more character in front. -/
theorem cons (h : Respelt R (opening c) s t) : Respelt R o (c :: s) (c :: t) := by
  by_cases hc : isQuote c = true
  · rw [opening, if_pos hc] at h
    exact .keep isUnquoted_nil hc h
  · rw [opening, if_neg hc] at h
    rw [Bool.not_eq_true] at hc
    cases h with
    | last hw => exact .last (isUnquoted_cons hc hw)
    | keep hw hq h => exact .keep (isUnquoted_cons hc hw) hq h

theorem append_left (hw : w.IsUnquoted) (h : Respelt R none s t) :
    Respelt R o (w ++ s) (w ++ t) := by
  induction w generalizing o with
  | nil => exact h.of_none
  | cons c w ih =>
    have hc : opening c = none := by simp [opening, hw c List.mem_cons_self]
    refine cons ?_
    rw [hc]
    exact ih fun d hd => hw d (List.mem_cons_of_mem _ hd)

theorem refl (o : Option Char) (s : Text) : Respelt R o s s := by
  induction s generalizing o with
  | nil => exact .last isUnquoted_nil
  | cons c s ih => exact cons (ih _)

/-- Two texts one after the other, with a character between them that is not a quote. -/
theorem append {s' t' : Text} (hc : isQuote c = false) (h : Respelt R o s t)
    (h' : Respelt R none s' t') : Respelt R o (s ++ c :: s') (t ++ c :: t') := by
  induction h with
  | last hw =>
    refine append_left hw (cons ?_)
    simpa [opening, hc] using h'
  | keep hw hq _ ih =>
    rw [List.append_assoc, List.append_assoc]
    exact .keep hw hq ih
  | respell hv hw hq hR _ ih =>
    rw [List.append_assoc, List.append_assoc]
    exact .respell hv hw hq hR ih

/-- What stands before the first quote of a text, the quote, and what follows it are unique. -/
theorem append_cons_inj {v w s t : Text} {p q : Char} (hv : v.IsUnquoted) (hw : w.IsUnquoted)
    (hp : isQuote p = true) (hq : isQuote q = true) (h : v ++ p :: s = w ++ q :: t) :
    v = w ∧ p = q ∧ s = t := by
  induction v generalizing w with
  | nil =>
    cases w with
    | nil =>
      obtain ⟨rfl, rfl⟩ := List.cons_eq_cons.mp h
      exact ⟨rfl, rfl, rfl⟩
    | cons d w =>
      obtain ⟨rfl, _⟩ := List.cons_eq_cons.mp h
      rw [hw _ List.mem_cons_self] at hp
      cases hp
  | cons c v ih =>
    cases w with
    | nil =>
      obtain ⟨rfl, _⟩ := List.cons_eq_cons.mp h
      rw [hv _ List.mem_cons_self] at hq
      cases hq
    | cons d w =>
      obtain ⟨rfl, htail⟩ := List.cons_eq_cons.mp h
      obtain ⟨rfl, rfl, rfl⟩ := ih (fun x hx => hv x (List.mem_cons_of_mem _ hx))
        (fun x hx => hw x (List.mem_cons_of_mem _ hx)) htail
      exact ⟨rfl, rfl, rfl⟩

theorem not_isUnquoted {q : Char} (hq : isQuote q = true) (h : (w ++ q :: s).IsUnquoted) :
    False := by
  have := h q (by simp)
  rw [hq] at this
  cases this

/-- How a text that begins with an unquoted part and a quote is respelled. -/
theorem inv {q : Char} (hw : w.IsUnquoted) (hq : isQuote q = true)
    (h : Respelt R o (w ++ q :: s) u) :
    ∃ v t, u = v ++ q :: t ∧ Respelt R (some q) s t ∧
      (v = w ∨ o = some q ∧ v.IsUnquoted ∧ R w v) := by
  generalize hs : w ++ q :: s = s' at h
  cases h with
  | last hw' => exact (not_isUnquoted hq (hs ▸ hw')).elim
  | keep hw' hq' h =>
    obtain ⟨rfl, rfl, rfl⟩ := append_cons_inj hw hw' hq hq' hs
    exact ⟨_, _, rfl, h, Or.inl rfl⟩
  | respell hv' hw' hq' hR h =>
    obtain ⟨rfl, rfl, rfl⟩ := append_cons_inj hw hv' hq hq' hs
    exact ⟨_, _, rfl, h, Or.inr ⟨rfl, hw', hR⟩⟩

theorem inv_last (hw : w.IsUnquoted) (h : Respelt R o w u) : u = w := by
  cases h with
  | last _ => rfl
  | keep _ hq _ => exact (not_isUnquoted hq hw).elim
  | respell _ _ hq _ _ => exact (not_isUnquoted hq hw).elim

/-- If nothing is respelled that was respelled before, two respellings are one. -/
theorem comp (hRQ : ∀ v w x, R v w → ¬ Q w x) (h : Respelt R o s t) (h' : Respelt Q o t u) :
    Respelt (fun v w => R v w ∨ Q v w) o s u := by
  induction h generalizing u with
  | last hw =>
    obtain rfl := inv_last hw h'
    exact .last hw
  | keep hw hq _ ih =>
    obtain ⟨v, t', rfl, ht, rfl | ⟨rfl, hv, hQ⟩⟩ := inv hw hq h'
    · exact .keep hw hq (ih ht)
    · exact .respell hw hv hq (Or.inr hQ) (ih ht)
  | respell hv hw hq hR _ ih =>
    obtain ⟨x, t', rfl, ht, rfl | ⟨-, -, hQ⟩⟩ := inv hw hq h'
    · exact .respell hv hw hq (Or.inl hR) (ih ht)
    · exact absurd hQ (hRQ _ _ _ hR)

end Respelt
end ModuleGraph
