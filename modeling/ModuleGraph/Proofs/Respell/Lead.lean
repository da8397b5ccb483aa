import ModuleGraph.Proofs.Respell.Recorded

/-!
What may stand before the opening quote of a statement.

* `IsLead`: the beginnings of statements, as texts; `lead_iff` says that they are what the
  recogniser passes over;
* `opens`: a text at whose end a statement begins; `opens_iff` puts it in terms of `IsLead`;
* `not_mem_slash`, `exists_word`: no slash is in the beginning of a statement, and a word is.
-/

namespace ModuleGraph

open Cursor

namespace Form

/-- The word that a statement begins with. -/
def leadWord : Form → Text
  | .fromClause => Binding.fromWord
  | .sideEffect => Statement.importWord
  | .require => Statement.requireWord
  | .dynamic => Statement.importWord

/-- What may stand between the word of a statement and its opening quote. -/
def IsGap : Form → Text → Prop
  | .fromClause, w => w.all Text.isBlank = true
  | .sideEffect, w => w ≠ [] ∧ w.all Text.isBlank = true
  | .require, w | .dynamic, w =>
    ∃ u v : Text, u.all Text.isBlank = true ∧ v.all Text.isBlank = true ∧ w = u ++ '(' :: v

/-- A whole beginning of a statement, up to its opening quote. -/
def IsLead (f : Form) (w : Text) : Prop := ∃ gap, f.IsGap gap ∧ w = f.leadWord ++ gap

/-- Does a statement that begins in this text open the quote that follows the text? -/
def opensFrom (f : Form) : Option Char → Text → Bool
  | _, [] => false
  | before, x :: w => (f.lead ⟨0, before, x :: w⟩).any (·.rest.isEmpty) || opensFrom f (some x) w

/-- Does a statement that begins in this text, after a quote or at the beginning of a line, open
the quote that follows the text? -/
def opens (f : Form) (w : Text) : Bool := f.opensFrom none w

variable {f : Form} {c d : Cursor} {w v t rest : Text} {before : Option Char} {offset : Nat}

/-- After a run comes nothing that could go on with it. -/
def Halts (t : Text) : Prop := t.head?.any Text.isBlank = false

theorem Halts.nil : Halts [] := rfl

theorem Halts.quote {q : Char} (h : isQuote q = true) (t : Text) : Halts (q :: t) := by
  rw [Halts, List.head?_cons, Option.any_some, ← Bool.not_eq_true]
  intro hb
  rw [not_isQuote_of_isBlank hb] at h
  cases h

theorem skip_blanks (hw : w.all Text.isBlank = true) (ht : Halts t) (offset : Nat)
    (before : Option Char) :
    blanks ⟨offset, before, w ++ t⟩ = ⟨offset + w.length, w.getLast?.or before, t⟩ := by
  rw [blanks, skip_all_append hw]
  cases t with
  | nil => rfl
  | cons x t => exact skip_of_not (by simpa [Halts] using ht) _ _ _

theorem passes_blanks_halts (c : Cursor) :
    ∃ w, Passes c w c.blanks ∧ w.all Text.isBlank = true ∧ Halts c.blanks.rest :=
  passes_skip Text.isBlank c

theorem literal_append (w : Text) (offset : Nat) (before : Option Char) (t : Text) :
    literal w ⟨offset, before, w ++ t⟩ = some ⟨offset + w.length, w.getLast?.or before, t⟩ := by
  induction w generalizing offset before with
  | nil => rfl
  | cons x w ih =>
    have hchar : char x ⟨offset, before, x :: (w ++ t)⟩ = some ⟨offset + 1, some x, w ++ t⟩ := by
      simp [char]
    rw [List.cons_append, literal, hchar, Option.bind_some, ih, List.length_cons,
      getLast?_or_cons, Nat.add_assoc, Nat.add_comm 1]

theorem word_append (hb : before.any Text.isWord = false) (w : Text) (offset : Nat) (t : Text) :
    word w ⟨offset, before, w ++ t⟩ = some ⟨offset + w.length, w.getLast?.or before, t⟩ := by
  rw [word, insideWord, if_neg (by simp [hb]), literal_append]

theorem not_insideWord_of_word (h : c.word w = some d) : c.before.any Text.isWord = false := by
  rw [word] at h
  split at h
  · cases h
  · simpa [insideWord] using ‹¬ c.insideWord = true›

/-- One place of a text, given by what comes after it. -/
theorem Passes.eq_mk (h : Passes c w d) :
    c = ⟨c.offset, c.before, w ++ d.rest⟩ ∧
      d = ⟨c.offset + w.length, w.getLast?.or c.before, d.rest⟩ := by
  obtain ⟨hrest, hoffset, hbefore⟩ := h
  exact ⟨by rw [← hrest], by rw [← hoffset, ← hbefore]⟩

/-- A call's beginning is recognised. -/
theorem callLead_append (hb : before.any Text.isWord = false) (word : Text) {u v : Text}
    (hu : u.all Text.isBlank = true) (hv : v.all Text.isBlank = true) (ht : Halts t)
    (offset : Nat) :
    callLead word ⟨offset, before, (word ++ (u ++ '(' :: v)) ++ t⟩ =
      some ⟨offset + (word ++ (u ++ '(' :: v)).length,
        (word ++ (u ++ '(' :: v)).getLast?.or before, t⟩ := by
  have hopen : Halts ('(' :: (v ++ t)) := rfl
  have hsplit : (word ++ (u ++ '(' :: v)) ++ t = word ++ (u ++ '(' :: (v ++ t)) := by simp
  have hchar : ∀ offset before, char '(' ⟨offset, before, '(' :: (v ++ t)⟩ =
      some ⟨offset + 1, some '(', v ++ t⟩ := by
    intro offset before
    simp [char]
  rw [callLead, hsplit, word_append hb, Option.bind_some, skip_blanks hu hopen, hchar,
    Option.map_some, skip_blanks hv ht, getLast?_or_append, getLast?_or_append,
    getLast?_or_cons]
  have hlen : offset + word.length + u.length + 1 + v.length =
      offset + (word ++ (u ++ '(' :: v)).length := by
    simp only [List.length_append, List.length_cons]
    omega
  rw [hlen]

theorem exists_of_callLead {word : Text} (h : callLead word c = some d) :
    c.before.any Text.isWord = false ∧ ∃ u v : Text, u.all Text.isBlank = true ∧
      v.all Text.isBlank = true ∧ Passes c (word ++ (u ++ '(' :: v)) d ∧ Halts d.rest := by
  obtain ⟨e, he, h⟩ := Option.bind_eq_some_iff.mp h
  obtain ⟨o, ho, rfl⟩ := Option.map_eq_some_iff.mp h
  obtain ⟨u, hu, hu', -⟩ := passes_blanks_halts e
  obtain ⟨v, hv, hv', hhalts⟩ := passes_blanks_halts o
  exact ⟨not_insideWord_of_word he, u, v, hu', hv',
    (passes_word he).trans (hu.trans ((passes_char ho).trans hv)), hhalts⟩

/-- The recogniser of a statement's beginning passes over exactly the beginnings of statements,
up to something that is not blank. -/
theorem lead_iff : f.lead c = some d ↔
    c.before.any Text.isWord = false ∧ ∃ w, f.IsLead w ∧ Passes c w d ∧ Halts d.rest := by
  constructor
  · intro h
    cases f with
    | fromClause =>
      obtain ⟨e, he, rfl⟩ := Option.map_eq_some_iff.mp h
      obtain ⟨w, hw, hall, hhalts⟩ := passes_blanks_halts e
      exact ⟨not_insideWord_of_word he, _, ⟨w, hall, rfl⟩, (passes_word he).trans hw, hhalts⟩
    | sideEffect =>
      obtain ⟨e, he, h⟩ := Option.bind_eq_some_iff.mp h
      obtain ⟨w, hw, hall, hhalts⟩ := passes_blanks_halts e
      rw [blanks1, skip1] at h
      split at h
      · cases h
      · rename_i x rest hrest
        split at h
        · rename_i hx
          rw [Option.some.injEq] at h
          subst h
          have hne : w ≠ [] := by
            rintro rfl
            have hsame : (e.skip Text.isBlank).rest = x :: rest := hw.rest_eq.symm.trans hrest
            rw [Halts, blanks, hsame, List.head?_cons, Option.any_some, hx] at hhalts
            cases hhalts
          exact ⟨not_insideWord_of_word he, _, ⟨w, ⟨hne, hall⟩, rfl⟩, (passes_word he).trans hw,
            hhalts⟩
        · cases h
    | require =>
      obtain ⟨hb, u, v, hu, hv, hpass, hhalts⟩ := exists_of_callLead h
      exact ⟨hb, _, ⟨_, ⟨u, v, hu, hv, rfl⟩, rfl⟩, hpass, hhalts⟩
    | dynamic =>
      obtain ⟨hb, u, v, hu, hv, hpass, hhalts⟩ := exists_of_callLead h
      exact ⟨hb, _, ⟨_, ⟨u, v, hu, hv, rfl⟩, rfl⟩, hpass, hhalts⟩
  · rintro ⟨hb, w, ⟨gap, hgap, rfl⟩, hpass, hhalts⟩
    obtain ⟨hc, hd⟩ := Passes.eq_mk hpass
    rw [hc, hd]
    cases f with
    | fromClause =>
      rw [lead, leadWord, List.append_assoc, word_append hb, Option.map_some,
        skip_blanks hgap hhalts, ← getLast?_or_append, List.length_append, Nat.add_assoc]
    | sideEffect =>
      obtain ⟨hne, hall⟩ := hgap
      obtain ⟨x, gap, rfl⟩ := List.exists_cons_of_ne_nil hne
      have hx : Text.isBlank x = true := List.all_eq_true.mp hall x List.mem_cons_self
      rw [lead, leadWord, List.append_assoc, word_append hb, Option.bind_some, blanks1, skip1]
      simp only [List.cons_append, hx, if_true]
      have hskip := skip_blanks hall hhalts (c.offset + Statement.importWord.length)
        (Statement.importWord.getLast?.or c.before)
      rw [blanks, List.cons_append] at hskip
      rw [hskip, ← getLast?_or_append, List.length_append, Nat.add_assoc]
    | require =>
      obtain ⟨u, v, hu, hv, rfl⟩ := hgap
      exact callLead_append hb _ hu hv hhalts _
    | dynamic =>
      obtain ⟨u, v, hu, hv, rfl⟩ := hgap
      exact callLead_append hb _ hu hv hhalts _

/-- The beginning of a statement that is a whole text. -/
theorem any_lead_iff : (f.lead ⟨offset, before, w⟩).any (·.rest.isEmpty) = true ↔
    before.any Text.isWord = false ∧ f.IsLead w := by
  rw [Option.any_eq_true]
  constructor
  · rintro ⟨d, hd, hrest⟩
    obtain ⟨hb, v, hv, hpass, -⟩ := lead_iff.mp hd
    have hw : w = v ++ d.rest := hpass.rest_eq
    rw [List.isEmpty_iff.mp hrest, List.append_nil] at hw
    exact ⟨hb, hw ▸ hv⟩
  · rintro ⟨hb, hw⟩
    refine ⟨⟨offset + w.length, w.getLast?.or before, []⟩, ?_, rfl⟩
    exact lead_iff.mpr ⟨hb, w, hw, ⟨by simp, rfl, rfl⟩, .nil⟩

theorem opensFrom_iff : f.opensFrom before w = true ↔
    ∃ front back : Text, w = front ++ back ∧ (front.getLast?.or before).any Text.isWord = false ∧
      f.IsLead back := by
  induction w generalizing before with
  | nil =>
    constructor
    · intro h
      cases h
    · rintro ⟨front, back, hw, -, gap, -, rfl⟩
      have hword : f.leadWord ≠ [] := by cases f <;> decide
      simp only [List.nil_eq, List.append_eq_nil_iff] at hw
      exact absurd hw.2.1 hword
  | cons x w ih =>
    rw [opensFrom, Bool.or_eq_true, any_lead_iff, ih]
    constructor
    · rintro (⟨hb, hlead⟩ | ⟨front, back, rfl, hb, hlead⟩)
      · exact ⟨[], x :: w, rfl, hb, hlead⟩
      · exact ⟨x :: front, back, rfl, by rwa [getLast?_or_cons], hlead⟩
    · rintro ⟨front, back, hw, hb, hlead⟩
      cases front with
      | nil =>
        obtain rfl : x :: w = back := hw
        exact Or.inl ⟨hb, hlead⟩
      | cons y front =>
        obtain ⟨rfl, rfl⟩ := List.cons_eq_cons.mp hw
        exact Or.inr ⟨front, back, rfl, by rwa [getLast?_or_cons] at hb, hlead⟩

/-- A statement begins at the end of a text, where no word is cut in two. -/
theorem opens_iff : f.opens w = true ↔
    ∃ front back : Text, w = front ++ back ∧ front.getLast?.any Text.isWord = false ∧
      f.IsLead back := by
  rw [opens, opensFrom_iff]
  simp only [Option.or_none]

/-- After a quote no word is cut in two. -/
theorem opensFrom_quote {q : Char} (hq : isQuote q = true) (w : Text) :
    f.opensFrom (some q) w = f.opens w := by
  have hword : Text.isWord q = false := by
    simp only [isQuote, Bool.or_eq_true, beq_iff_eq] at hq
    rcases hq with rfl | rfl <;> decide
  rw [Bool.eq_iff_iff, opensFrom_iff, opens_iff]
  have hlast : ∀ front : Text, (front.getLast?.or (some q)).any Text.isWord =
      front.getLast?.any Text.isWord := by
    intro front
    cases front.getLast? with
    | none => exact hword
    | some x => rfl
  simp only [hlast]

theorem exists_of_mem_gap {x : Char} (h : f.IsGap w) (hx : x ∈ w) :
    Text.isBlank x = true ∨ x = '(' := by
  have hcall : (∃ u v : Text, u.all Text.isBlank = true ∧ v.all Text.isBlank = true ∧
      w = u ++ '(' :: v) → Text.isBlank x = true ∨ x = '(' := by
    rintro ⟨u, v, hu, hv, rfl⟩
    rcases List.mem_append.mp hx with hx | hx
    · exact Or.inl (List.all_eq_true.mp hu x hx)
    · rcases List.mem_cons.mp hx with rfl | hx
      · exact Or.inr rfl
      · exact Or.inl (List.all_eq_true.mp hv x hx)
  cases f with
  | fromClause => exact Or.inl (List.all_eq_true.mp h x hx)
  | sideEffect => exact Or.inl (List.all_eq_true.mp h.2 x hx)
  | require => exact hcall h
  | dynamic => exact hcall h

/-- The beginning of a statement has no characters but those of its word, blanks and a
bracket. -/
theorem IsLead.mem {x : Char} (h : f.IsLead w) (hx : x ∈ w) :
    x ∈ f.leadWord ∨ Text.isBlank x = true ∨ x = '(' := by
  obtain ⟨gap, hgap, rfl⟩ := h
  exact (List.mem_append.mp hx).imp id (exists_of_mem_gap hgap)

theorem IsLead.isUnquoted (h : f.IsLead w) : w.IsUnquoted := by
  intro x hx
  rcases h.mem hx with hx | hx | rfl
  · have hword : f.leadWord.all (fun c => !isQuote c) = true := by cases f <;> decide
    exact isUnquoted_word hword x hx
  · exact not_isQuote_of_isBlank hx
  · rfl

theorem IsLead.not_mem_slash (h : f.IsLead w) : '/' ∉ w := by
  intro hx
  rcases h.mem hx with hx | hx | hx
  · revert hx
    cases f <;> decide
  · revert hx
    decide
  · revert hx
    decide

/-- A word begins where a statement does. -/
theorem IsLead.exists_cons (h : f.IsLead w) : ∃ x v, w = x :: v ∧ x ≠ '.' := by
  obtain ⟨gap, -, rfl⟩ := h
  cases f <;> exact ⟨_, _, rfl, by decide⟩

theorem IsLead.ne_nil (h : f.IsLead w) : w ≠ [] := by
  obtain ⟨x, v, rfl, -⟩ := h.exists_cons
  exact List.cons_ne_nil x v

end Form
end ModuleGraph
