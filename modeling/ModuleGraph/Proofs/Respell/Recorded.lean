import ModuleGraph.Proofs.Respell.Aliasing
import ModuleGraph.Proofs.Text.Cursor
import ModuleGraph.Respell.Basic

/-!
What computed rules do to a text, and what is recorded of it.

* `editAt_computed`: an edit respells what stands between two quotes, and nothing else;
* `specifierOf_enclosed`: the specifier that is recorded is what stands between the quotes;
* `aliased_of_mem_changes`: every recorded change is from a specifier to its aliased form.
-/

namespace ModuleGraph

open Cursor

/-- A text in which no quote stands. -/
def Text.IsUnquoted (t : Text) : Prop := ∀ c ∈ t, isQuote c = false

/-- A text that can stand between quotes. -/
structure Text.IsQuotable (t : Text) : Prop where
  ne_nil : t ≠ []
  all : t.all isQuotable = true

/-- A specifier between quotes after the beginning of a statement. -/
def enclosed (lead : Text) (quote : Char) (s : Text) : Text := lead ++ quote :: s ++ [quote]

theorem Text.IsQuotable.isUnquoted {t : Text} (h : t.IsQuotable) : t.IsUnquoted := by
  intro c hc
  have hq := List.all_eq_true.mp h.all c hc
  simp only [isQuotable, Bool.and_eq_true, Bool.not_eq_true'] at hq
  exact hq.1

theorem Text.IsUnquoted.append {s t : Text} (hs : s.IsUnquoted) (ht : t.IsUnquoted) :
    (s ++ t).IsUnquoted := fun c hc => (List.mem_append.mp hc).elim (hs c) (ht c)

namespace Cursor

variable {q : Char} {s : Text}

theorem not_isQuotable_of_isQuote (h : isQuote q = true) : isQuotable q = false := by
  simp [isQuotable, h]

/-- What can stand between quotes is read whole between two quotes that are the same. -/
theorem quoted_enclosed (hq : isQuote q = true) (hs : s.IsQuotable) (offset : Nat)
    (before : Option Char) (t : Text) :
    quoted ⟨offset, before, q :: (s ++ q :: t)⟩ =
      some ⟨⟨offset + 1, some q, s ++ q :: t⟩, s, q, ⟨offset + 1 + s.length + 1, some q, t⟩⟩ := by
  have hne : offset + 1 + s.length ≠ offset + 1 := by
    have hpos := List.length_pos_iff.mpr hs.ne_nil
    omega
  have hskip := skip_append hs.all (not_isQuotable_of_isQuote hq) (offset + 1) (some q) t
  have hupTo : upTo ⟨offset + 1, some q, s ++ q :: t⟩
      ⟨offset + 1 + s.length, s.getLast?.or (some q), q :: t⟩ = s := by
    rw [upTo, Nat.add_sub_cancel_left, List.take_left]
  simp only [quoted, hq, if_true, next, hskip, hupTo]
  rw [if_neg hne]
  simp [char]

end Cursor

namespace Form

theorem not_isQuote_of_isBlank {c : Char} (h : Text.isBlank c = true) : isQuote c = false := by
  rw [← Bool.not_eq_true]
  intro hq
  simp only [isQuote, Bool.or_eq_true, beq_iff_eq] at hq
  rcases hq with rfl | rfl <;> revert h <;> decide

theorem isUnquoted_of_blanks {w : Text} (h : w.all Text.isBlank = true) : w.IsUnquoted :=
  fun c hc => not_isQuote_of_isBlank (List.all_eq_true.mp h c hc)

theorem passes_blanks (c : Cursor) : ∃ w, Passes c w c.blanks ∧ w.IsUnquoted := by
  obtain ⟨w, hw, hall, _⟩ := passes_skip Text.isBlank c
  exact ⟨w, hw, isUnquoted_of_blanks hall⟩

theorem passes_callLead {w : Text} (hw : w.IsUnquoted) {c d : Cursor}
    (h : callLead w c = some d) : ∃ v, Passes c v d ∧ v.IsUnquoted := by
  obtain ⟨e, he, h⟩ := Option.bind_eq_some_iff.mp h
  obtain ⟨o, ho, h⟩ := Option.map_eq_some_iff.mp h
  obtain ⟨u, hu, hu'⟩ := passes_blanks e
  obtain ⟨v, hv, hv'⟩ := passes_blanks o
  have hopen : Text.IsUnquoted ['('] := by
    intro x hx
    rw [List.mem_singleton] at hx
    exact hx ▸ rfl
  exact ⟨_, (passes_word he).trans (hu.trans ((passes_char ho).trans (h ▸ hv))),
    hw.append (hu'.append (hopen.append hv'))⟩

theorem isUnquoted_word {w : Text} (h : w.all (fun c => !isQuote c) = true) : w.IsUnquoted := by
  intro c hc
  simpa using List.all_eq_true.mp h c hc

/-- No quote stands in what precedes the opening quote of a statement. -/
theorem passes_lead {f : Form} {c d : Cursor} (h : f.lead c = some d) :
    ∃ w, Passes c w d ∧ w.IsUnquoted := by
  cases f with
  | fromClause =>
    obtain ⟨e, he, h⟩ := Option.map_eq_some_iff.mp h
    obtain ⟨v, hv, hv'⟩ := passes_blanks e
    exact ⟨_, (passes_word he).trans (h ▸ hv), (isUnquoted_word (by decide)).append hv'⟩
  | sideEffect =>
    obtain ⟨e, he, h⟩ := Option.bind_eq_some_iff.mp h
    obtain ⟨v, hv, hall⟩ := passes_skip1 h
    exact ⟨_, (passes_word he).trans hv,
      (isUnquoted_word (by decide)).append (isUnquoted_of_blanks hall)⟩
  | require => exact passes_callLead (isUnquoted_word (by decide)) h
  | dynamic => exact passes_callLead (isUnquoted_word (by decide)) h

end Form

namespace Rule

/-- The text that a computed rule puts in the place of a specifier. -/
def respelled (a : Aliasing) (cwd file s : Text) : Text := (a.aliased cwd file s).getD s

/-- An edit of a computed rule is about one quoted specifier, and respells it alone. -/
theorem editAt_computed {f : Form} {a : Aliasing} {cwd file : Text} {c : Cursor} {e : Edit}
    (h : (computed f a).editAt cwd file c = some e) :
    ∃ lead quote s rest, lead.IsUnquoted ∧ isQuote quote = true ∧ s.IsQuotable ∧
      c.rest = enclosed lead quote s ++ rest ∧
      e = ⟨c.offset, c.offset + (enclosed lead quote s).length, enclosed lead quote s,
        enclosed lead quote (respelled a cwd file s)⟩ := by
  obtain ⟨inner, hinner, h⟩ := Option.bind_eq_some_iff.mp h
  obtain ⟨q, hq, h⟩ := Option.map_eq_some_iff.mp h
  obtain ⟨lead, hlead, hunquoted⟩ := Form.passes_lead hinner
  obtain ⟨hquote, hne, hall, hopen, hclose⟩ := quoted_eq_some hq
  have hstop : Passes c (enclosed lead q.quote q.text) q.stop := by
    have := hlead.trans (hopen.trans hclose)
    simpa [enclosed] using this
  refine ⟨lead, q.quote, q.text, q.stop.rest, hunquoted, hquote, ⟨hne, hall⟩, hstop.rest_eq, ?_⟩
  rw [← h, hstop.upTo_eq, hlead.upTo_eq, hstop.offset_eq, respelled]
  cases a.aliased cwd file q.text <;> simp [enclosed]

end Rule

namespace Respell

theorem dead_looselyQuoted {lead : Text} (h : lead.IsUnquoted) (t : Text) :
    Dead looselyQuoted lead t := by
  intro front x back hw offset before
  have hx : isQuote x = false := h x (by simp [hw])
  simp [looselyQuoted, hx]

/-- The recorded specifier of a statement is the one between its quotes. -/
theorem specifierOf_enclosed {lead s : Text} {quote : Char} (hl : lead.IsUnquoted)
    (hq : isQuote quote = true) (hs : s.IsQuotable) :
    specifierOf (enclosed lead quote s) = s := by
  have hquote : isQuotable quote = false := by simp [isQuotable, hq]
  have hloose : looselyQuoted ⟨lead.length, lead.getLast?.or none, quote :: (s ++ [quote])⟩ =
      some (s, ⟨lead.length + 1 + s.length + 1, some quote, []⟩) := by
    have hskip := skip_append hs.all hquote (lead.length + 1) (some quote) []
    have hlen : s.length ≠ 0 := by simpa using hs.ne_nil
    simp only [looselyQuoted, hq, if_true, next, hskip]
    simp [hq, hlen, upTo]
  have hfind : Cursor.findAll looselyQuoted (·.2.offset) (enclosed lead quote s) =
      (s, ⟨lead.length + 1 + s.length + 1, some quote, []⟩) ::
        Cursor.findFrom looselyQuoted (·.2.offset) (lead.length + 1 + s.length + 1)
          (0 + lead.length + 1) (some quote) (s ++ [quote]) := by
    have hsplit : enclosed lead quote s = lead ++ quote :: (s ++ [quote]) := by simp [enclosed]
    rw [Cursor.findAll, hsplit, findFrom_dead (dead_looselyQuoted hl _), findFrom,
      if_neg (Nat.not_lt_zero _), Nat.zero_add, hloose]
  rw [specifierOf, hfind]

/-- What is recorded of an edit of a computed rule is a specifier and its aliased form. -/
theorem aliased_of_recordEdit {f : Form} {a : Aliasing} {cwd file : Text} {c : Cursor} {e : Edit}
    {n : Nat} {change : Change} (hquotable : ∀ s t, s.IsQuotable → a.aliased cwd file s = some t →
      t.IsQuotable)
    (h : (Rule.computed f a).editAt cwd file c = some e)
    (hr : recordEdit (.computed f a) n e = some change) :
    change.before.IsQuotable ∧ a.aliased cwd file change.before = some change.after := by
  obtain ⟨lead, quote, s, rest, hl, hq, hs, -, rfl⟩ := Rule.editAt_computed h
  unfold recordEdit at hr
  split at hr
  · cases hr
  · rename_i hne
    rw [Option.some.injEq] at hr
    subst hr
    dsimp only at hne ⊢
    rw [specifierOf_enclosed hl hq hs]
    cases ht : a.aliased cwd file s with
    | none => simp [Rule.respelled, ht] at hne
    | some t =>
      refine ⟨hs, ?_⟩
      rw [Rule.respelled, ht, Option.getD_some,
        specifierOf_enclosed hl hq (hquotable s t hs ht)]

/-- The edits that a rule makes on a line. -/
theorem mem_respellLine {cwd file : Text} {rules : List Rule} {n : Nat} {line : Text}
    {change : Change} (h : change ∈ (respellLine cwd file rules n line).2) :
    ∃ rule ∈ rules, ∃ c e, rule.editAt cwd file c = some e ∧
      recordEdit rule n e = some change := by
  have hfold : ∀ state : Text × List Change,
      change ∈ (rules.foldl (applyRule cwd file n) state).2 → change ∈ state.2 ∨
        ∃ rule ∈ rules, ∃ c e, rule.editAt cwd file c = some e ∧
          recordEdit rule n e = some change := by
    clear h
    induction rules with
    | nil => exact fun _ h => Or.inl h
    | cons rule rules ih =>
      intro state h
      rcases ih _ h with h | ⟨r, hr, h⟩
      · rcases List.mem_append.mp h with h | h
        · exact Or.inl h
        · obtain ⟨e, he, hrecord⟩ := List.mem_filterMap.mp h
          obtain ⟨c, hc, -⟩ := mem_findFrom he
          exact Or.inr ⟨rule, List.mem_cons_self, c, e, hc, hrecord⟩
      · exact Or.inr ⟨r, List.mem_cons_of_mem _ hr, h⟩
  exact (hfold _ h).resolve_left (by simp)

/-- What is recorded was an edit of one of the rules. -/
theorem exists_edit_of_mem_changes {cwd file content : Text} {rules : List Rule} {change : Change}
    (h : change ∈ (text cwd file rules content).changes) :
    ∃ rule ∈ rules, ∃ n c e, rule.editAt cwd file c = some e ∧
      recordEdit rule n e = some change := by
  obtain ⟨done, hdone, hc⟩ := List.mem_flatMap.mp h
  obtain ⟨⟨line, n⟩, -, rfl⟩ := List.mem_map.mp hdone
  obtain ⟨rule, hrule, c, e, hedit⟩ := mem_respellLine hc
  exact ⟨rule, hrule, n, c, e, hedit⟩

/-- Every change that computed rules record is from a specifier to its aliased form. -/
theorem aliased_of_mem_changes {a : Aliasing} {cwd file content : Text} {change : Change}
    (hquotable : ∀ s t, s.IsQuotable → a.aliased cwd file s = some t → t.IsQuotable)
    (h : change ∈ (text cwd file (Rule.computedRules a) content).changes) :
    change.before.IsQuotable ∧ a.aliased cwd file change.before = some change.after := by
  obtain ⟨rule, hrule, n, c, e, he, hr⟩ := exists_edit_of_mem_changes h
  obtain ⟨f, -, rfl⟩ := List.mem_map.mp hrule
  exact aliased_of_recordEdit hquotable he hr

end Respell
end ModuleGraph
