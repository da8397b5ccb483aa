import ModuleGraph.Proofs.Respell.Again
import ModuleGraph.Proofs.Respell.Meaning
import ModuleGraph.Proofs.Text.Lines

/-!
Respelling a text that is put together from lines, and one statement in it.

* `after_append`: the text before a line end and the text after it are respelled apart;
* `opens_unique`: a text ends with the beginning of a statement of one form at most;
* `Slot`: a line around its one quoted text; `respellLine_fill`: the first rule that takes the text
  up counts;
* `after_statement`: computed rules respell the specifier of a statement and nothing around it.
-/

namespace ModuleGraph

open Cursor Cut

namespace Text

variable {w : Text} {x : Char}

theorem all_isQuotable (hw : w.IsUnquoted) (hline : '\n' ∉ w) : w.all isQuotable = true := by
  rw [List.all_eq_true]
  intro x hx
  have hne : x ≠ '\n' := fun h => hline (h ▸ hx)
  simp [isQuotable, hw x hx, hne]

end Text

namespace Form

variable {f g : Form} {w : Text}

/-- The form of the statement whose beginning may stand at the end of a text, by its last
characters that are not blank. -/
def atEnd (w : Text) : Option Form :=
  match w.reverse.dropWhile Text.isBlank with
  | 'm' :: _ => some .fromClause
  | 't' :: _ => some .sideEffect
  | '(' :: rest =>
    match rest.dropWhile Text.isBlank with
    | 'e' :: _ => some .require
    | 't' :: _ => some .dynamic
    | _ => none
  | _ => none

theorem dropWhile_blanks {x : Char} (hw : w.all Text.isBlank = true) (hx : Text.isBlank x = false)
    (t : Text) : (w.reverse ++ x :: t).dropWhile Text.isBlank = x :: t := by
  have hreverse : w.reverse.all Text.isBlank = true := by rwa [List.all_reverse]
  rw [List.dropWhile_append_of_pos (List.all_eq_true.mp hreverse), List.dropWhile_cons_of_neg]
  simp [hx]

/-- The last character before the blanks at the end of a text. -/
theorem dropWhile_word {word gap : Text} {x : Char} (init : Text) (hword : word = init ++ [x])
    (hx : Text.isBlank x = false) (hgap : gap.all Text.isBlank = true) (front : Text) :
    (front ++ (word ++ gap)).reverse.dropWhile Text.isBlank =
      x :: (front ++ init).reverse := by
  have hreverse : (front ++ (word ++ gap)).reverse =
      gap.reverse ++ x :: (front ++ init).reverse := by simp [hword]
  rw [hreverse, dropWhile_blanks hgap hx]

/-- The last character before a bracket with blanks around it. -/
theorem dropWhile_call {word u v : Text} {x : Char} (init : Text) (hword : word = init ++ [x])
    (hx : Text.isBlank x = false) (hu : u.all Text.isBlank = true)
    (hv : v.all Text.isBlank = true) (front : Text) :
    ∃ rest, (front ++ (word ++ (u ++ '(' :: v))).reverse.dropWhile Text.isBlank = '(' :: rest ∧
      rest.dropWhile Text.isBlank = x :: (front ++ init).reverse := by
  refine ⟨u.reverse ++ x :: (front ++ init).reverse, ?_, dropWhile_blanks hu hx _⟩
  have hreverse : (front ++ (word ++ (u ++ '(' :: v))).reverse =
      v.reverse ++ '(' :: (u.reverse ++ x :: (front ++ init).reverse) := by simp [hword]
  rw [hreverse, dropWhile_blanks hv (by decide)]

/-- Which form a beginning of a statement has is seen at its end, whatever stands before it. -/
theorem atEnd_of_isLead (h : f.IsLead w) (front : Text) : atEnd (front ++ w) = some f := by
  obtain ⟨gap, hgap, rfl⟩ := h
  cases f with
  | fromClause =>
    have hlast := dropWhile_word ['f', 'r', 'o'] (rfl : leadWord .fromClause = _) (by decide) hgap
      front
    rw [atEnd, hlast]
    rfl
  | sideEffect =>
    have hlast := dropWhile_word ['i', 'm', 'p', 'o', 'r'] (rfl : leadWord .sideEffect = _)
      (by decide) hgap.2 front
    rw [atEnd, hlast]
    rfl
  | require =>
    obtain ⟨u, v, hu, hv, rfl⟩ := hgap
    obtain ⟨rest, hopen, hlast⟩ := dropWhile_call ['r', 'e', 'q', 'u', 'i', 'r']
      (rfl : leadWord .require = _) (by decide) hu hv front
    simp only [atEnd, hopen, hlast]
  | dynamic =>
    obtain ⟨u, v, hu, hv, rfl⟩ := hgap
    obtain ⟨rest, hopen, hlast⟩ := dropWhile_call ['i', 'm', 'p', 'o', 'r']
      (rfl : leadWord .dynamic = _) (by decide) hu hv front
    simp only [atEnd, hopen, hlast]

theorem atEnd_of_opens (h : f.opens w = true) : atEnd w = some f := by
  obtain ⟨front, back, rfl, -, hlead⟩ := opens_iff.mp h
  exact atEnd_of_isLead hlead front

/-- A text ends with the beginning of a statement of one form at most. -/
theorem opens_unique (hf : f.opens w = true) (hg : g.opens w = true) : f = g := by
  have hsome := (atEnd_of_opens hf).symm.trans (atEnd_of_opens hg)
  exact Option.some.inj hsome

end Form

/-- A line around its one quoted text, which a statement of this form opens. -/
structure Slot (f : Form) where
  front : Text
  lead : Text
  quote : Char
  back : Text
  front_isUnquoted : front.IsUnquoted
  front_word : front.getLast?.any Text.isWord = false
  isLead : f.IsLead lead
  isQuote : isQuote quote = true
  back_all : back.all isQuotable = true

namespace Slot

variable {f : Form} {s : Text}

/-- The line with this text between its quotes. -/
def fill (slot : Slot f) (s : Text) : Text :=
  slot.front ++ enclosed slot.lead slot.quote s ++ slot.back

/-- What stands before the quotes. -/
def before (slot : Slot f) : Text := slot.front ++ slot.lead

theorem fill_eq (slot : Slot f) (s : Text) :
    slot.fill s = slot.before ++ spell [⟨slot.quote, s⟩, ⟨slot.quote, slot.back⟩] := by
  simp [fill, before, enclosed]

theorem opens (slot : Slot f) : f.opens slot.before = true :=
  Form.opens_iff.mpr ⟨slot.front, slot.lead, rfl, slot.front_word, slot.isLead⟩

theorem isUnquoted_before (slot : Slot f) : slot.before.IsUnquoted :=
  slot.front_isUnquoted.append slot.isLead.isUnquoted

theorem isProper (slot : Slot f) (hs : s.all isQuotable = true) :
    ∀ c ∈ [(⟨slot.quote, s⟩ : Cut), ⟨slot.quote, slot.back⟩], c.IsProper := by
  simpa using And.intro (Cut.IsProper.mk slot.isQuote hs)
    (Cut.IsProper.mk slot.isQuote slot.back_all)

end Slot

namespace Rule

variable {a : Aliasing} {cwd file : Text}

theorem isPlain_computedRules : ∀ rule ∈ computedRules a, rule.IsPlain := by
  intro rule hrule
  obtain ⟨f, -, rfl⟩ := List.mem_map.mp hrule
  trivial

theorem isTidy_computedRules
    (h : ∀ s t, s.IsQuotable → a.aliased cwd file s = some t → t.IsQuotable) :
    ∀ rule ∈ computedRules a, rule.IsTidy cwd file := by
  intro rule hrule
  obtain ⟨f, -, rfl⟩ := List.mem_map.mp hrule
  exact isTidy_computed f h

variable {rule : Rule} {q : Char} {s t : Text} {o : Bool} {n : Nat}

/-- A rule that does not take up what stands between two quotes leaves it. -/
theorem sweep_pair_passed (h : o = true → rule.replacement cwd file s = none) (u : Text) :
    rule.sweep cwd file n o [⟨q, s⟩, ⟨q, u⟩] = ([⟨q, s⟩, ⟨q, u⟩], []) := by
  rw [sweep_passed fun ho => by rw [taken, if_pos rfl, h ho]]
  rfl

theorem sweep_pair_taken (h : rule.replacement cwd file s = some t) (u : Text) :
    rule.sweep cwd file n true [⟨q, s⟩, ⟨q, u⟩] = ([⟨q, t⟩, ⟨q, u⟩], rule.record n s t) := by
  rw [sweep_taken (by rw [taken, if_pos rfl, h]), sweep, List.append_nil]

end Rule

namespace Respell

variable {cwd file : Text} {rules : List Rule} {a : Aliasing}

theorem fst_foldl_applyRule (n m : Nat) (rules : List Rule) (line : Text)
    (changes changes' : List Change) :
    (rules.foldl (applyRule cwd file n) (line, changes)).1 =
      (rules.foldl (applyRule cwd file m) (line, changes')).1 := by
  induction rules generalizing line changes changes' with
  | nil => rfl
  | cons rule rules ih =>
    rw [List.foldl_cons, List.foldl_cons, applyRule, applyRule]
    exact ih _ _ _

/-- The number of a line is only recorded. -/
theorem fst_respellLine (n m : Nat) (line : Text) :
    (respellLine cwd file rules n line).1 = (respellLine cwd file rules m line).1 :=
  fst_foldl_applyRule n m rules line [] []

theorem after_eq (content : Text) :
    (text cwd file rules content).after =
      Text.unlines (content.lines.map fun l => (respellLine cwd file rules 1 l).1) := by
  have hmap : ∀ (lines : List Text) (n : Nat),
      (respellLines cwd file rules n lines).map (·.1) =
        lines.map fun l => (respellLine cwd file rules 1 l).1 := by
    intro lines
    induction lines with
    | nil => exact fun _ => rfl
    | cons line lines ih =>
      intro n
      rw [respellLines_cons, List.map_cons, List.map_cons, ih (n + 1), fst_respellLine n 1]
  rw [text, hmap]

/-- Respelling goes line by line. -/
theorem lines_after (hp : ∀ rule ∈ rules, rule.IsPlain)
    (hr : ∀ rule ∈ rules, rule.IsTidy cwd file) (content : Text) :
    (text cwd file rules content).after.lines =
      content.lines.map fun l => (respellLine cwd file rules 1 l).1 := by
  rw [after_eq]
  refine Text.lines_unlines ?_ ?_
  · simp [Text.lines, Text.splitOn_ne_nil]
  · intro l hl
    obtain ⟨line, hline, rfl⟩ := List.mem_map.mp hl
    exact not_mem_respellLine hp hr 1 (Text.not_mem_of_mem_splitOn hline)

/-- What stands before a line end and what stands after it are respelled apart. -/
theorem after_append (s t : Text) :
    (text cwd file rules (s ++ '\n' :: t)).after =
      (text cwd file rules s).after ++ '\n' :: (text cwd file rules t).after := by
  rw [after_eq, after_eq, after_eq, Text.lines_append, List.map_append, Text.unlines_append]
  · simp [Text.lines, Text.splitOn_ne_nil]
  · simp [Text.lines, Text.splitOn_ne_nil]

theorem after_nil : (text cwd file rules []).after = [] := by
  have hnil : ∀ changes, (rules.foldl (applyRule cwd file 1) ([], changes)).1 = [] := by
    induction rules with
    | nil => exact fun _ => rfl
    | cons rule rules ih =>
      intro changes
      rw [List.foldl_cons]
      exact ih _
  have hline : (respellLine cwd file rules 1 []).1 = [] := hnil []
  simp [after_eq, Text.lines, hline, Text.unlines, Text.join]

theorem after_unlines (ls : List Text) :
    (text cwd file rules (Text.unlines ls)).after =
      Text.unlines (ls.map fun l => (text cwd file rules l).after) := by
  induction ls with
  | nil => exact after_nil
  | cons l ls ih =>
    by_cases h : ls = []
    · subst h
      simp [Text.unlines, Text.join]
    · rw [Text.unlines_cons h, after_append, ih, List.map_cons,
        Text.unlines_cons (by simpa using h)]

/-- One line. -/
theorem after_line {line : Text} (h : '\n' ∉ line) :
    (text cwd file rules line).after = (respellLine cwd file rules 1 line).1 := by
  rw [after_eq, Text.lines, Text.splitOn_of_not_mem h]
  simp [Text.unlines, Text.join]

/-- A text in which no quote stands is left alone. -/
theorem after_unquoted (hp : ∀ rule ∈ rules, rule.IsPlain)
    (hr : ∀ rule ∈ rules, rule.IsTidy cwd file) {w : Text} (hw : w.IsUnquoted) :
    (text cwd file rules w).after = w := by
  have hline : ∀ l ∈ w.lines, (respellLine cwd file rules 1 l).1 = l := by
    intro l hl
    have hl' : l.IsUnquoted := fun x hx => hw x (Text.mem_of_mem_splitOn hl hx).1
    have hsweep := respellLine_spell hp hr 1 hl' (List.forall_mem_nil Cut.IsProper)
    rw [spell_nil, List.append_nil] at hsweep
    have hnone : (sweepAll cwd file 1 l rules []).1 = [] := by
      clear hsweep hp hr
      have hfold : ∀ changes, (rules.foldl (sweepRule cwd file 1 l) ([], changes)).1 = [] := by
        induction rules with
        | nil => exact fun _ => rfl
        | cons rule rules ih => exact fun _ => ih _
      exact hfold []
    rw [hsweep, hnone, spell_nil, List.append_nil]
  rw [after_eq, List.map_congr_left hline, List.map_id', Text.unlines, Text.lines,
    Text.join_splitOn]

/-- Rules that do not take up what stands between the quotes of a line with two leave it. -/
theorem foldl_sweepRule_pair {w s : Text} {n : Nat}
    (h : ∀ rule ∈ rules, rule.form.opens w = true → rule.replacement cwd file s = none)
    (q : Char) (u : Text) (changes : List Change) :
    rules.foldl (sweepRule cwd file n w) ([⟨q, s⟩, ⟨q, u⟩], changes) =
      ([⟨q, s⟩, ⟨q, u⟩], changes) := by
  induction rules with
  | nil => rfl
  | cons rule rules ih =>
    rw [List.foldl_cons, sweepRule, Rule.sweep_pair_passed (h rule List.mem_cons_self),
      List.append_nil]
    exact ih fun r hr => h r (List.mem_cons_of_mem _ hr)

/-- The first rule that takes up what stands between the quotes of a line with two replaces it, if
no later rule takes up what it puts there. -/
theorem sweepAll_pair {pre post : List Rule} {rule : Rule} {w s t : Text}
    (hpre : ∀ r ∈ pre, r.form.opens w = true → r.replacement cwd file s = none)
    (hopen : rule.form.opens w = true) (hnew : rule.replacement cwd file s = some t)
    (hpost : ∀ r ∈ post, r.form.opens w = true → r.replacement cwd file t = none)
    (q : Char) (u : Text) (n : Nat) :
    sweepAll cwd file n w (pre ++ rule :: post) [⟨q, s⟩, ⟨q, u⟩] =
      ([⟨q, t⟩, ⟨q, u⟩], rule.record n s t) := by
  rw [sweepAll, List.foldl_append, foldl_sweepRule_pair hpre, List.foldl_cons, sweepRule, hopen,
    Rule.sweep_pair_taken hnew, foldl_sweepRule_pair hpost, List.nil_append]

/-- In a line with one quoted text the first rule that takes it up replaces it, if no later rule
takes up what it puts there. -/
theorem respellLine_fill {pre post : List Rule} {rule : Rule} {s t : Text}
    (hp : ∀ r ∈ pre ++ rule :: post, r.IsPlain)
    (hr : ∀ r ∈ pre ++ rule :: post, r.IsTidy cwd file) (slot : Slot rule.form)
    (hs : s.all isQuotable = true)
    (hpre : ∀ r ∈ pre, r.form = rule.form → r.replacement cwd file s = none)
    (hnew : rule.replacement cwd file s = some t)
    (hpost : ∀ r ∈ post, r.form = rule.form → r.replacement cwd file t = none) (n : Nat) :
    respellLine cwd file (pre ++ rule :: post) n (slot.fill s) =
      (slot.fill t, rule.record n s t) := by
  have hsame : ∀ {r : Rule}, r.form.opens slot.before = true → r.form = rule.form :=
    fun h => Form.opens_unique h slot.opens
  rw [slot.fill_eq, slot.fill_eq, respellLine_spell hp hr n slot.isUnquoted_before
    (slot.isProper hs), sweepAll_pair (fun r hmem h => hpre r hmem (hsame h)) slot.opens hnew
    fun r hmem h => hpost r hmem (hsame h)]

/-- Of the computed rules it is the one for the form of the statement. -/
theorem respellLine_computed {f : Form} {s : Text}
    (h : ∀ s t, s.IsQuotable → a.aliased cwd file s = some t → t.IsQuotable) (slot : Slot f)
    (hs : s.IsQuotable) (n : Nat) :
    respellLine cwd file (Rule.computedRules a) n (slot.fill s) =
      (slot.fill (Rule.respelled a cwd file s),
        (Rule.computed f a).record n s (Rule.respelled a cwd file s)) := by
  obtain ⟨fs, gs, hsplit, hfs, hgs⟩ : ∃ fs gs, Form.all = fs ++ f :: gs ∧ f ∉ fs ∧ f ∉ gs := by
    cases f
    · exact ⟨[], _, rfl, by decide, by decide⟩
    · exact ⟨[_], _, rfl, by decide, by decide⟩
    · exact ⟨[_, _], _, rfl, by decide, by decide⟩
    · exact ⟨[_, _, _], _, rfl, by decide, by decide⟩
  have hother : ∀ hs : List Form, f ∉ hs → ∀ t, ∀ r ∈ hs.map (Rule.computed · a),
      r.form = (Rule.computed f a).form → r.replacement cwd file t = none := by
    intro hs hf t r hr hsame
    obtain ⟨g, hg, rfl⟩ := List.mem_map.mp hr
    obtain rfl : g = f := hsame
    exact absurd hg hf
  have hnew : (Rule.computed f a).replacement cwd file s =
      some (Rule.respelled a cwd file s) := by
    rw [Rule.replacement, if_neg (by simpa using hs.ne_nil)]
  have hrules : Rule.computedRules a =
      fs.map (Rule.computed · a) ++ Rule.computed f a :: gs.map (Rule.computed · a) := by
    rw [Rule.computedRules, hsplit, List.map_append, List.map_cons]
  have hplain := Rule.isPlain_computedRules (a := a)
  have htidy := Rule.isTidy_computedRules h
  rw [hrules] at hplain htidy ⊢
  exact respellLine_fill hplain htidy slot hs.all (hother fs hfs _) hnew (hother gs hgs _) n

/-- A text that is one such line. -/
theorem after_fill {f : Form} {s : Text}
    (h : ∀ s t, s.IsQuotable → a.aliased cwd file s = some t → t.IsQuotable) (slot : Slot f)
    (hline : '\n' ∉ slot.before) (hs : s.IsQuotable) :
    (text cwd file (Rule.computedRules a) (slot.fill s)).after =
      slot.fill (Rule.respelled a cwd file s) := by
  have hquote : slot.quote ≠ '\n' := by
    intro heq
    have hend := slot.isQuote
    rw [heq] at hend
    revert hend
    decide
  have hfill : '\n' ∉ slot.fill s := by
    rw [slot.fill_eq]
    simp [hline, Text.not_mem_of_all_isQuotable hs.all,
      Text.not_mem_of_all_isQuotable slot.back_all, hquote.symm]
  rw [after_line hfill, respellLine_computed h slot hs]

/-- Computed rules respell the specifier of a statement whose beginning is on one line, and leave
what is around it. -/
theorem after_statement {f : Form} {front lead s back : Text} {q : Char}
    (h : ∀ s t, s.IsQuotable → a.aliased cwd file s = some t → t.IsQuotable)
    (hfront : front.IsUnquoted) (hword : front.getLast?.any Text.isWord = false)
    (hlead : f.IsLead lead) (hline : '\n' ∉ lead) (hq : isQuote q = true) (hs : s.IsQuotable)
    (hback : back.IsUnquoted) :
    (text cwd file (Rule.computedRules a) (front ++ enclosed lead q s ++ back)).after =
      front ++ enclosed lead q (Rule.respelled a cwd file s) ++ back := by
  have hsame : ∀ {w : Text}, w.IsUnquoted →
      (text cwd file (Rule.computedRules a) w).after = w :=
    after_unquoted Rule.isPlain_computedRules (Rule.isTidy_computedRules h)
  have hslot : ∀ {v u : Text}, v.all isQuotable = true → v.getLast?.any Text.isWord = false →
      u.all isQuotable = true →
      (text cwd file (Rule.computedRules a) (v ++ enclosed lead q s ++ u)).after =
        v ++ enclosed lead q (Rule.respelled a cwd file s) ++ u := by
    intro v u hv hvword hu
    have hnewline : '\n' ∉ v ++ lead := by
      rw [List.mem_append, not_or]
      exact ⟨Text.not_mem_of_all_isQuotable hv, hline⟩
    exact after_fill h
      ⟨v, lead, q, u, Rule.isUnquoted_of_all hv, hvword, hlead, hq, hu⟩ hnewline hs
  have htail : ∀ {v : Text}, v.all isQuotable = true → v.getLast?.any Text.isWord = false →
      (text cwd file (Rule.computedRules a) (v ++ enclosed lead q s ++ back)).after =
        v ++ enclosed lead q (Rule.respelled a cwd file s) ++ back := by
    intro v hv hvword
    obtain ⟨line, hno, rfl | ⟨later, rfl⟩⟩ := Text.exists_firstLine back
    · exact hslot hv hvword (Text.all_isQuotable hback hno)
    · have hlineQ : Text.IsUnquoted line := fun x hx => hback x (by simp [hx])
      have hlaterQ : Text.IsUnquoted later := fun x hx => hback x (by simp [hx])
      have hone := hslot hv hvword (Text.all_isQuotable hlineQ hno)
      rw [← List.append_assoc, after_append, hone, hsame hlaterQ, ← List.append_assoc]
  obtain ⟨line, hno, rfl | ⟨earlier, rfl⟩⟩ := Text.exists_lastLine front
  · exact htail (Text.all_isQuotable hfront hno) hword
  · have hlineQ : Text.IsUnquoted line := fun x hx => hfront x (by simp [hx])
    have hearlierQ : Text.IsUnquoted earlier := fun x hx => hfront x (by simp [hx])
    have hlineWord := Text.any_getLast?_lastLine hword
    rw [Text.lastLine_append_cons, Text.lastLine_of_not_mem hno] at hlineWord
    have hone := htail (Text.all_isQuotable hlineQ hno) hlineWord
    have hassoc : ∀ t, earlier ++ '\n' :: line ++ t ++ back =
        earlier ++ '\n' :: (line ++ t ++ back) := by simp
    rw [hassoc, hassoc, after_append, hone, hsame hearlierQ]

end Respell
end ModuleGraph
