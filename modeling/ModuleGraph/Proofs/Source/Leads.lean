import ModuleGraph.Proofs.Source.Recognised

/-!
What stands before the opening quote of an import that is found.

* `Moves`: one place of a text comes after another;
* `exists_lead`: before the opening quote of an import stands the beginning of a statement as the
  rules know it, or the word `type`;
* `exists_of_mem_findAll`: what is found in a text is found at a place of it.
-/

namespace ModuleGraph

open Cursor

/-- After a blank no word is cut in two. -/
theorem Text.not_isWord_of_blanks {w : Text} (hw : w ≠ []) (hall : w.all isBlank = true)
    (v : Text) : (v ++ w).getLast?.any isWord = false := by
  obtain ⟨x, hx⟩ := Option.isSome_iff_exists.mp (List.getLast?_isSome.mpr hw)
  have hblank : isBlank x = true := List.all_eq_true.mp hall x (List.mem_of_getLast? hx)
  have hname := not_isName_of_isBlank hblank
  rw [List.getLast?_append, hx, Option.some_or, Option.any_some]
  simp only [isName, Bool.or_eq_false_iff] at hname
  exact hname.1

namespace Cursor

variable {c d e : Cursor} {w v : Text} {p : Char → Bool}

/-- The second place comes after the first one, or is the same. -/
def Moves (c d : Cursor) : Prop := ∃ w, Passes c w d

theorem Moves.trans (h : Moves c d) (h' : Moves d e) : Moves c e := by
  obtain ⟨w, hw⟩ := h
  obtain ⟨v, hv⟩ := h'
  exact ⟨w ++ v, hw.trans hv⟩

theorem moves_char {x : Char} (h : c.char x = some d) : Moves c d := ⟨_, passes_char h⟩

theorem moves_literal (h : c.literal w = some d) : Moves c d := ⟨_, passes_literal h⟩

theorem moves_skip (p : Char → Bool) (c : Cursor) : Moves c (c.skip p) := by
  obtain ⟨w, hw, -⟩ := passes_skip p c
  exact ⟨w, hw⟩

theorem moves_skip1 (h : c.skip1 p = some d) : Moves c d := by
  obtain ⟨w, hw, -⟩ := passes_skip1 h
  exact ⟨w, hw⟩

/-- A run that may not be empty is passed over whole. -/
theorem exists_of_skip1 (h : c.skip1 p = some d) : ∃ w, w ≠ [] ∧ w.all p = true ∧ Passes c w d := by
  obtain ⟨w, hw, hall⟩ := passes_skip1 h
  refine ⟨w, ?_, hall, hw⟩
  rintro rfl
  have hrest : c.rest = d.rest := hw.rest_eq
  rw [skip1] at h
  split at h
  · cases h
  · rename_i x rest hr
    split at h
    · rename_i hx
      rw [Option.some.injEq] at h
      obtain ⟨-, -, -, hend⟩ := passes_skip p c
      rw [h, ← hrest, hr, List.head?_cons, Option.any_some, hx] at hend
      cases hend
    · cases h

/-- Whatever is found in a text is recognised at a place of it. -/
theorem exists_of_mem_findAll {α : Type} {recognise : Cursor → Option α} {stop : α → Nat}
    {t : Text} {a : α} (h : a ∈ findAll recognise stop t) :
    ∃ front rest, t = front ++ rest ∧
      recognise ⟨front.length, front.getLast?, rest⟩ = some a := by
  obtain ⟨front, rest, ht, hfound⟩ := exists_of_mem_findFrom h
  rw [Nat.zero_add, Option.or_none] at hfound
  exact ⟨front, rest, ht, hfound⟩

end Cursor

/-- The kind of the imports that have a statement's beginning before their quote. -/
def Form.kind : Form → ImportKind
  | .fromClause | .sideEffect => .static
  | .require => .require
  | .dynamic => .dynamic

namespace Statement

variable {c d e : Cursor} {f : Found} {w : Text} {k : ImportKind}

theorem moves_wordGap (h : wordGap w c = some d) : Moves c d := by
  obtain ⟨e, he, h⟩ := Option.bind_eq_some_iff.mp h
  exact (moves_literal he).trans (moves_skip1 h)

theorem moves_braces (h : braces c = some d) : Moves c d := by
  obtain ⟨e, he, h⟩ := Option.bind_eq_some_iff.mp h
  exact (moves_char he).trans ((moves_skip _ _).trans (moves_char h))

theorem moves_namespaceAs (h : namespaceAs c = some d) : Moves c d := by
  obtain ⟨e, he, h⟩ := Option.bind_eq_some_iff.mp h
  obtain ⟨g, hg, h⟩ := Option.bind_eq_some_iff.mp h
  exact (moves_char he).trans ((moves_skip _ _).trans ((moves_wordGap hg).trans (moves_skip1 h)))

theorem moves_bound (h : bound c = some d) : Moves c d := by
  rcases eq_some_of_orElse h with h | h
  · exact moves_braces h
  · rcases eq_some_of_orElse h with h | h
    · exact moves_namespaceAs h
    · exact moves_skip1 h

/-- What a text ends with before the opening quote of an import of a kind: the beginning of a
statement of a form that rules know and that has the kind, or the word `type`. -/
def EndsWithLead (k : ImportKind) (before : Option Char) (w : Text) : Prop :=
  ∃ front back, w = front ++ back ∧
    ((front.getLast?.or before).any Text.isWord = false ∧
        (∃ g : Form, g.kind = k ∧ g.IsLead back) ∨
      k = .static ∧ ∃ gap, back = Binding.typeWord ++ gap ∧ gap.all Text.isBlank = true)

/-- Between two places stands a text that ends so. -/
def Leads (k : ImportKind) (c e : Cursor) : Prop := ∃ w, Passes c w e ∧ EndsWithLead k c.before w

theorem Leads.behind (h : Moves c d) (h' : Leads k d e) : Leads k c e := by
  obtain ⟨v, hv⟩ := h
  obtain ⟨_, hw, front, back, rfl, hlead⟩ := h'
  refine ⟨_, hv.trans hw, v ++ front, back, (List.append_assoc _ _ _).symm, ?_⟩
  rw [getLast?_or_append, ← hv.before_eq]
  exact hlead

/-- A place that has the beginning of a statement before it. -/
theorem leads_of_lead {g : Form} (hw : g.IsLead w) (hpass : Passes c w e)
    (hb : c.before.any Text.isWord = false) : Leads g.kind c e :=
  ⟨w, hpass, [], w, rfl, Or.inl ⟨hb, g, rfl, hw⟩⟩

theorem not_insideWord_of_blanks1 (h : c.blanks1 = some d) :
    d.before.any Text.isWord = false := by
  obtain ⟨gap, hne, hgap, hpass⟩ := exists_of_skip1 h
  have hlast := Text.not_isWord_of_blanks hne hgap []
  rw [hpass.before_eq]
  obtain ⟨x, hx⟩ := Option.isSome_iff_exists.mp (List.getLast?_isSome.mpr hne)
  rw [List.nil_append, hx] at hlast
  rw [hx]
  exact hlast

theorem leads_clauseEnd (h : clauseEnd c = some e) : Leads .static c e := by
  obtain ⟨c₁, h₁, h⟩ := Option.bind_eq_some_iff.mp h
  obtain ⟨c₂, h₂, h⟩ := Option.bind_eq_some_iff.mp h
  obtain ⟨c₃, h₃, rfl⟩ := Option.map_eq_some_iff.mp h
  obtain ⟨gap, hgap, hall, -⟩ := Form.passes_blanks_halts c₃
  have hlead : Form.IsLead .fromClause (Binding.fromWord ++ gap) := ⟨gap, hall, rfl⟩
  exact Leads.behind ((moves_bound h₁).trans (moves_skip1 h₂))
    (leads_of_lead hlead ((passes_literal h₃).trans hgap) (not_insideWord_of_blanks1 h₂))

theorem leads_clause (h : clause c = some e) : Leads .static c e := by
  rcases eq_some_of_orElse h with h | h
  · obtain ⟨c₁, h₁, h⟩ := Option.bind_eq_some_iff.mp h
    obtain ⟨c₂, h₂, h⟩ := Option.bind_eq_some_iff.mp h
    exact Leads.behind ((moves_skip1 h₁).trans ((moves_skip _ _).trans
      ((moves_char h₂).trans (moves_skip _ _)))) (leads_clauseEnd h)
  · exact leads_clauseEnd h

/-- The specifier of a static import follows a clause, or stands where the clause would. -/
theorem Tailed.exists_quoted (h : Tailed c f) :
    ∃ e, e.quoted = some f.quoted ∧ (Leads .static c e ∨ e = c) := by
  cases h with
  | clause clause quoted => exact ⟨_, quoted, Or.inl (leads_clause clause)⟩
  | alone quoted => exact ⟨c, quoted, Or.inr rfl⟩

theorem Called.exists_quoted {g : Form} (hg : g = .require ∨ g = .dynamic)
    (hword : c.word g.leadWord = some d) (h : Called d f) :
    ∃ e, e.quoted = some f.quoted ∧ Leads g.kind c e := by
  obtain ⟨b, hb, hq⟩ := h.quoted
  obtain ⟨u, hu, hallu, -⟩ := Form.passes_blanks_halts d
  obtain ⟨v, hv, hallv, -⟩ := Form.passes_blanks_halts b
  have hgap : g.IsGap (u ++ '(' :: v) := by
    rcases hg with rfl | rfl <;> exact ⟨u, v, hallu, hallv, rfl⟩
  exact ⟨_, hq, leads_of_lead ⟨_, hgap, rfl⟩
    ((passes_word hword).trans (hu.trans ((passes_char hb).trans hv)))
    (Form.not_insideWord_of_word hword)⟩

/-- Before the opening quote of an import stands the beginning of a statement of its kind as the
rules know it, or the word `type`. -/
theorem exists_lead (h : k.recognise c = some f) :
    ∃ e, e.quoted = some f.quoted ∧ Leads k c e := by
  cases reading_of_recognise h with
  | static word gap tail =>
    obtain ⟨w, hne, hall, hgap⟩ := exists_of_skip1 gap
    obtain ⟨e, he, hlead | rfl⟩ := tail.exists_quoted
    · exact ⟨e, he, Leads.behind ⟨_, (passes_word word).trans hgap⟩ hlead⟩
    · have hlead : Form.IsLead .sideEffect (Statement.importWord ++ w) := ⟨w, ⟨hne, hall⟩, rfl⟩
      exact ⟨e, he, leads_of_lead hlead ((passes_word word).trans hgap)
        (Form.not_insideWord_of_word word)⟩
  | typed word gap type tail =>
    have hmoves : Moves c _ := Moves.trans ⟨_, passes_word word⟩ (moves_skip1 gap)
    obtain ⟨e, he, hlead | rfl⟩ := tail.exists_quoted
    · exact ⟨e, he, Leads.behind (hmoves.trans (moves_wordGap type)) hlead⟩
    · obtain ⟨d, hd, htype⟩ := Option.bind_eq_some_iff.mp type
      obtain ⟨u, -, hu, hpass⟩ := exists_of_skip1 htype
      exact ⟨e, he, Leads.behind hmoves
        ⟨_, (passes_literal hd).trans hpass, [], _, rfl, Or.inr ⟨rfl, u, rfl, hu⟩⟩⟩
  | dynamic word call => exact call.exists_quoted (g := .dynamic) (Or.inr rfl) word
  | require word call => exact call.exists_quoted (g := .require) (Or.inl rfl) word
  | @bound _ d e _ _ _ _ _ gap target sign word call =>
    have htarget : Moves d e := by
      rcases eq_some_of_orElse target with h | h
      · exact moves_skip1 h
      · exact moves_braces h
    obtain ⟨q, hq, hlead⟩ := call.exists_quoted (g := .require) (Or.inl rfl) word
    exact ⟨q, hq, Leads.behind ((moves_wordGap gap).trans (htarget.trans ((moves_skip _ _).trans
      ((moves_char sign).trans (moves_skip _ _))))) hlead⟩

/-- The text before the opening quote of a find. -/
def Found.front (f : Found) (t : Text) : Text := t.take (f.quoted.inside.offset - 1)

/-- Where an import that is found in a text stands: its specifier is between two quotes that are
the same, and what is before them ends as it does before an import. -/
theorem exists_of_found {t : Text}
    (h : f ∈ findAll k.recognise (·.stop.offset) t) :
    ∃ back, f.quoted.inside.offset = (f.front t).length + 1 ∧
      t = f.front t ++ f.quoted.quote :: (f.quoted.text ++ f.quoted.quote :: back) ∧
      isQuote f.quoted.quote = true ∧ f.quoted.text.IsQuotable ∧
      EndsWithLead k none (f.front t) := by
  obtain ⟨z, rest, rfl, hfound⟩ := exists_of_mem_findAll h
  obtain ⟨e, he, w, hw, hlead⟩ := exists_lead hfound
  obtain ⟨hquote, hne, hall, hopen, hclose⟩ := quoted_eq_some he
  have hrest : rest = w ++ (f.quoted.quote :: (f.quoted.text ++ f.quoted.quote ::
      f.quoted.stop.rest)) := by
    have h := ((hw.trans hopen).trans hclose).rest_eq
    simpa using h
  have hoffset : f.quoted.inside.offset = (z ++ w).length + 1 := by
    rw [(hw.trans hopen).offset_eq]
    simp only [List.length_append, List.length_singleton]
    omega
  have hfront : f.front (z ++ rest) = z ++ w := by
    rw [Found.front, hoffset, Nat.add_sub_cancel, hrest, ← List.append_assoc, List.take_left]
  refine ⟨f.quoted.stop.rest, hfront ▸ hoffset, ?_, hquote, ⟨hne, hall⟩, ?_⟩
  · rw [hfront, List.append_assoc, ← hrest]
  · rw [hfront]
    obtain ⟨front, back, rfl, hlead⟩ := hlead
    refine ⟨z ++ front, back, (List.append_assoc _ _ _).symm, ?_⟩
    rw [getLast?_or_append, Option.or_none]
    exact hlead

end Statement
end ModuleGraph
