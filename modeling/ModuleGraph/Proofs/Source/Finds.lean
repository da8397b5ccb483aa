import ModuleGraph.Proofs.Source.Level

/-!
The finds of a recogniser in two texts that are cut into the same stretches.

* `Beside.offset_le_iff`: places come in the same order on both sides;
* `dead_of_opens`: no statement begins in a specifier that is sealed;
* `forall₂_findAll`: what is found on the one side is found on the other.
-/

namespace ModuleGraph

open Cursor

/-- A recogniser that succeeds only where a statement may begin. -/
def Statement.Opens {α : Type} (recognise : Cursor → Option α) : Prop :=
  ∀ c a, recognise c = some a → ∃ w ∈ openingWords, ∃ x back, c.rest = w ++ x :: back ∧
    (Text.isBlank x = true ∨ x = '(')

namespace Stretch

variable {R : Text → Text → Prop} {ps done todo : List Stretch} {c d c' d' : Cursor} {s t : Text}

theorem Placed.of_mem {o : Option Char} (h : Placed R o ps) (hm : Stretch.respelled s t ∈ ps) :
    R s t := by
  obtain ⟨done, todo, hps⟩ := List.append_of_mem hm
  exact (h.split hps).1

/-- No stretch is empty on either side. -/
theorem Placed.ne_nil {o : Option Char} (h : Placed R o ps)
    (hR : ∀ s t, R s t → s.IsQuotable ∧ t.IsQuotable) {m : Stretch} (hm : m ∈ ps) :
    old m ≠ [] ∧ new m ≠ [] := by
  cases m with
  | kept x => exact ⟨List.cons_ne_nil _ _, List.cons_ne_nil _ _⟩
  | respelled s t =>
    obtain ⟨hs, ht⟩ := hR s t (h.of_mem hm)
    exact ⟨hs.ne_nil, ht.ne_nil⟩

theorem length_spell_le {side : Stretch → Text} {ms ns : List Stretch} (h : ms <+: ns) :
    (spell side ms).length ≤ (spell side ns).length := by
  obtain ⟨ks, rfl⟩ := h
  rw [spell_append, List.length_append]
  exact Nat.le_add_right _ _

theorem eq_of_length_spell_le {side : Stretch → Text} {ms ns : List Stretch} (h : ms <+: ns)
    (hne : ∀ m ∈ ns, side m ≠ []) (hle : (spell side ns).length ≤ (spell side ms).length) :
    ms = ns := by
  obtain ⟨ks, rfl⟩ := h
  rw [spell_append, List.length_append] at hle
  cases ks with
  | nil => rw [List.append_nil]
  | cons k ks =>
    have hk := List.length_pos_iff.mpr (hne k (by simp))
    rw [spell_cons, List.length_append] at hle
    omega

/-- Places come in the same order on both sides. -/
theorem Beside.offset_le_iff (hne : ∀ m ∈ ps, old m ≠ [] ∧ new m ≠ []) (h : Beside ps c d)
    (h' : Beside ps c' d') : c.offset ≤ c'.offset ↔ d.offset ≤ d'.offset := by
  obtain ⟨done, todo, hps, rfl, rfl⟩ := h
  obtain ⟨done', todo', hps', rfl, rfl⟩ := h'
  show (spell old done).length ≤ (spell old done').length ↔
    (spell new done).length ≤ (spell new done').length
  have hpre : done <+: ps := ⟨todo, hps.symm⟩
  rcases List.prefix_or_prefix_of_prefix hpre ⟨todo', hps'.symm⟩ with hle | hle
  · exact iff_of_true (length_spell_le hle) (length_spell_le hle)
  · constructor
    · intro hlen
      have heq := eq_of_length_spell_le hle (fun m hm => (hne m (hpre.subset hm)).1) hlen
      exact heq ▸ Nat.le_refl _
    · intro hlen
      have heq := eq_of_length_spell_le hle (fun m hm => (hne m (hpre.subset hm)).2) hlen
      exact heq ▸ Nat.le_refl _

theorem isUnquoted_openingWords {w : Text} (hw : w ∈ Statement.openingWords) :
    w.IsUnquoted := by
  have h : ∀ v ∈ Statement.openingWords, v.all (fun c => !isQuote c) = true := by decide
  exact Form.isUnquoted_word (h w hw)

/-- What stands before a quote, if no quote is in it. -/
theorem exists_of_append_quote {v u back : Text} {q : Char} (hq : isQuote q = true)
    (hv : v.IsUnquoted) (h : s ++ q :: u = v ++ back) : ∃ z, s = v ++ z := by
  rcases List.append_eq_append_iff.mp h with ⟨as, rfl, has⟩ | ⟨bs, rfl, -⟩
  · cases as with
    | nil => exact ⟨[], by rw [List.append_nil, List.append_nil]⟩
    | cons a as =>
      obtain ⟨rfl, -⟩ := List.cons_eq_cons.mp has
      rw [hv q (by simp)] at hq
      cases hq
  · exact ⟨bs, rfl⟩

/-- In a specifier between quotes no statement begins. -/
theorem dead_of_opens {α : Type} {recognise : Cursor → Option α}
    (ho : Statement.Opens recognise) (hs : Inert s) {q : Char} (hq : isQuote q = true)
    (u : Text) : Dead recognise s (q :: u) := by
  intro front x back hsplit offset before
  rw [Option.eq_none_iff_forall_ne_some]
  intro a ha
  obtain ⟨w, hw, y, back', hrest, hy⟩ := ho _ a ha
  have hyq : isQuote y = false := by
    rcases hy with hy | rfl
    · exact Form.not_isQuote_of_isBlank hy
    · rfl
  have hlead : (w ++ [y]).IsUnquoted := by
    refine (isUnquoted_openingWords hw).append fun z hz => ?_
    rw [List.mem_singleton] at hz
    exact hz ▸ hyq
  have hrest : (x :: back) ++ q :: u = (w ++ [y]) ++ back' := by
    rw [List.append_assoc]
    exact hrest
  obtain ⟨z, hz⟩ := exists_of_append_quote hq hlead hrest
  have hno := hs.no_statement w hw front y z (by rw [hsplit, hz]; simp)
  rcases hy with hy | hy
  · rw [hno.1] at hy
    cases hy
  · exact hno.2 hy

section Search

variable {α : Type} {recognise : Cursor → Option α} {stop : α → Nat}

theorem spell_concat (side : Stretch → Text) (done : List Stretch) (m : Stretch) :
    spell side (done ++ [m]) = spell side done ++ side m := by
  rw [spell_append, spell_cons, spell_nil, List.append_nil]

/-- A search passes over a stretch in which nothing is recognised. -/
theorem findFrom_spell_dead (side : Stretch → Text) (done : List Stretch) {m : Stretch}
    (h : Dead recognise (side m) (spell side todo)) (resume : Nat) :
    findFrom recognise stop resume (spell side done).length (spell side done).getLast?
        (spell side (m :: todo)) =
      findFrom recognise stop resume (spell side (done ++ [m])).length
        (spell side (done ++ [m])).getLast? (spell side todo) := by
  rw [spell_cons, findFrom_dead h, spell_concat, List.length_append, List.getLast?_append]

/-- A search at a kept character. -/
theorem findFrom_spell_kept {side : Stretch → Text} (hside : ∀ x, side (kept x) = [x])
    (done todo : List Stretch) (x : Char) (resume : Nat) :
    findFrom recognise stop resume (spell side done).length (spell side done).getLast?
        (spell side (kept x :: todo)) =
      if (spell side done).length < resume then
        findFrom recognise stop resume (spell side (done ++ [kept x])).length
          (spell side (done ++ [kept x])).getLast? (spell side todo)
      else match recognise (placeAt side done (kept x :: todo)) with
        | none => findFrom recognise stop resume (spell side (done ++ [kept x])).length
            (spell side (done ++ [kept x])).getLast? (spell side todo)
        | some a => a :: findFrom recognise stop (stop a) (spell side (done ++ [kept x])).length
            (spell side (done ++ [kept x])).getLast? (spell side todo) := by
  have hlen : (spell side (done ++ [kept x])).length = (spell side done).length + 1 := by
    rw [spell_concat, hside, List.length_append]
    rfl
  have hlast : (spell side (done ++ [kept x])).getLast? = some x := by
    rw [spell_concat, hside, List.getLast?_concat]
  rw [hlen, hlast, placeAt_kept hside, spell_cons, hside]
  rfl

/-- The finds from two places on that stand between the same stretches. -/
theorem forall₂_findFrom {stop : α → Cursor} {r : α → α → Prop} (hp : Placed R none ps)
    (hR : ∀ s t, R s t → Sealed s ∧ Sealed t) (ho : Statement.Opens recognise)
    (hstep : ∀ c d, Level ps c d → Option.Rel r (recognise c) (recognise d))
    (hstop : ∀ a b, r a b → Beside ps (stop a) (stop b)) (hps : ps = done ++ todo)
    (h : Beside ps c d) :
    List.Forall₂ r
      (findFrom recognise (fun a => (stop a).offset) c.offset (spell old done).length
        (spell old done).getLast? (spell old todo))
      (findFrom recognise (fun a => (stop a).offset) d.offset (spell new done).length
        (spell new done).getLast? (spell new todo)) := by
  induction todo generalizing done c d with
  | nil => exact .nil
  | cons m todo ih =>
    have hps' : ps = (done ++ [m]) ++ todo := by rw [hps, List.append_assoc]; rfl
    have ih {c d : Cursor} (h : Beside ps c d) := ih hps' h
    cases m with
    | respelled s t =>
      obtain ⟨hst, q, todo', hq, rfl, -⟩ := hp.split hps
      obtain ⟨hs, ht⟩ := hR s t hst
      rw [findFrom_spell_dead old done (dead_of_opens ho hs.toInert hq _),
        findFrom_spell_dead new done (dead_of_opens ho ht.toInert hq _)]
      exact ih h
    | kept x =>
      have hquotable : ∀ s t, R s t → s.IsQuotable ∧ t.IsQuotable := fun s t hst =>
        ⟨(hR s t hst).1.quotable, (hR s t hst).2.quotable⟩
      have hlt : (spell old done).length < c.offset ↔ (spell new done).length < d.offset := by
        have hle := h.offset_le_iff (fun m hm => hp.ne_nil hquotable hm)
          ⟨done, kept x :: todo, hps, rfl, rfl⟩
        rw [← Nat.not_le, ← Nat.not_le]
        exact not_congr hle
      rw [findFrom_spell_kept (fun _ => rfl), findFrom_spell_kept (fun _ => rfl)]
      by_cases hold : (spell old done).length < c.offset
      · rw [if_pos hold, if_pos (hlt.mp hold)]
        exact ih h
      · rw [if_neg hold, if_neg (mt hlt.mpr hold)]
        have hrel := hstep _ _ ⟨done, kept x :: todo, hps, clear_kept _ _, rfl, rfl⟩
        generalize recognise (placeAt old done (kept x :: todo)) = a at hrel
        generalize recognise (placeAt new done (kept x :: todo)) = b at hrel
        cases hrel with
        | none => exact ih h
        | some hab => exact .cons hab (ih (hstop _ _ hab))

/-- What is found in one text is found in the other. -/
theorem forall₂_findAll {stop : α → Cursor} {r : α → α → Prop} (hp : Placed R none ps)
    (hR : ∀ s t, R s t → Sealed s ∧ Sealed t) (ho : Statement.Opens recognise)
    (hstep : ∀ c d, Level ps c d → Option.Rel r (recognise c) (recognise d))
    (hstop : ∀ a b, r a b → Beside ps (stop a) (stop b)) :
    List.Forall₂ r (findAll recognise (fun a => (stop a).offset) (spell old ps))
      (findAll recognise (fun a => (stop a).offset) (spell new ps)) := by
  have hstart : Beside ps (placeAt old [] ps) (placeAt new [] ps) := ⟨[], ps, rfl, rfl, rfl⟩
  have hps : ps = [] ++ ps := rfl
  exact forall₂_findFrom hp hR ho hstep hstop hps hstart

end Search

end Stretch
end ModuleGraph
