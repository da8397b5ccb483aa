import ModuleGraph.Proofs.Source.Extraction
import ModuleGraph.Proofs.Source.Printed

/-!
A printed statement is recognised at its beginning.

* `Finds`: a recogniser finds a specifier between two quotes, with one text before them and one
  behind; it is put together as the recognisers are;
* `finds_form`: each form is recognised by what recognises its kind.
-/

namespace ModuleGraph

open Cursor

namespace PlainSpecifier

variable (s : PlainSpecifier)

theorem not_isQuote {x : Char} (hx : x ∈ s.text) : isQuote x = false := by
  have hplain := List.all_eq_true.mp s.plain x hx
  rw [Bool.and_eq_true, Bool.not_eq_true'] at hplain
  exact hplain.1

theorem not_isBlank {x : Char} (hx : x ∈ s.text) : Text.isBlank x = false := by
  have hplain := List.all_eq_true.mp s.plain x hx
  rw [Bool.and_eq_true, Bool.not_eq_true', Bool.not_eq_true'] at hplain
  exact hplain.2

theorem not_mem_lineEnd : '\n' ∉ s.text := fun h =>
  absurd (s.not_isBlank h) (by decide)

theorem isQuotable : s.text.IsQuotable := by
  refine ⟨s.ne_nil, List.all_eq_true.mpr fun x hx => ?_⟩
  have hline : x ≠ '\n' := fun h => s.not_mem_lineEnd (h ▸ hx)
  simp [Cursor.isQuotable, s.not_isQuote hx, hline]

end PlainSpecifier

namespace Statement

open Stretch (not_isBlank_of_isQuote not_isName_of_isQuote)

/-- A sign and a call of `require`. -/
def signedCall (c : Cursor) : Option Found :=
  (c.blanks.char '=').bind fun d => requireCall d.blanks

/-- A name or a pattern, a sign and a call of `require`. -/
def boundCall (c : Cursor) : Option Found :=
  (c.name.orElse fun _ => braces c).bind fun e =>
    (signedCall e).map fun f => { f with binding := some (c.upTo e) }

theorem boundRequire_eq (c : Cursor) : boundRequire c =
    if c.insideWord then none
    else (variableWords.findSome? fun w => wordGap w c).bind boundCall := by
  unfold boundCall
  simp only [boundRequire, signedCall, Option.map_bind]
  rfl

/-- A run of name characters ends at one place only. -/
theorem eq_of_append_names {n w t u : Text} {x z : Char} (hn : n.all Text.isName = true)
    (hw : w.all Text.isName = true) (hx : Text.isName x = false) (hz : Text.isName z = false)
    (h : n ++ x :: t = w ++ z :: u) : n = w ∧ x :: t = z :: u := by
  have htake : ∀ (m : Text) (y : Char) (r : Text), m.all Text.isName = true →
      Text.isName y = false → (m ++ y :: r).takeWhile Text.isName = m := by
    intro m y r hm hy
    rw [List.takeWhile_append_of_pos (List.all_eq_true.mp hm),
      List.takeWhile_cons_of_neg (by simp [hy]), List.append_nil]
  have hnw : n = w := by rw [← htake n x t hn hx, h, htake w z u hw hz]
  exact ⟨hnw, List.append_cancel_left (hnw ▸ h)⟩

/-- A word that is read in a name is the name, and a blank follows it. -/
theorem eq_of_wordGap {n w t : Text} {x : Char} {offset : Nat} {before : Option Char} {e : Cursor}
    (hn : n.all Text.isName = true) (hw : w.all Text.isName = true) (hx : Text.isName x = false)
    (h : wordGap w ⟨offset, before, n ++ x :: t⟩ = some e) : n = w ∧ Text.isBlank x = true := by
  obtain ⟨d, hd, he⟩ := Option.bind_eq_some_iff.mp h
  obtain ⟨z, u, hrest, hz⟩ := blank_of_blanks1 he
  have htext : n ++ x :: t = w ++ z :: u := by rw [← hrest, ← (passes_literal hd).rest_eq]
  obtain ⟨hname, hcons⟩ := eq_of_append_names hn hw hx (Text.not_isName_of_isBlank hz) htext
  obtain ⟨rfl, -⟩ := List.cons_eq_cons.mp hcons
  exact ⟨hname, hz⟩

theorem fails_wordGap_name {w : Text} (hw : w.all Text.isName = true) (n : Identifier) {x : Char}
    (hx : Text.isName x = false) (h : n.text = w → Text.isBlank x = false) (t : Text) :
    Fails (wordGap w) (n.text ++ x :: t) := by
  intro offset before
  rw [Option.eq_none_iff_forall_ne_some]
  intro e he
  obtain ⟨hname, hblank⟩ := eq_of_wordGap n.all hw hx he
  rw [h hname] at hblank
  cases hblank

theorem ne_of_isQuote {q x : Char} (hq : isQuote q = true) (hx : isQuote x = false) : q ≠ x := by
  rintro rfl
  rw [hq] at hx
  cases hx

theorem fails_quoted {x : Char} (hx : isQuote x = false) (t : Text) :
    Fails Cursor.quoted (x :: t) := by
  intro offset before
  simp [quoted, hx]

/-- A recogniser finds a specifier between two quotes, with `w` before them and `v` behind, when
`b` comes before all of it and `t` after it. -/
def Finds (r : Cursor → Option Found) (b : Option Char) (w : Text) (q : Char) (s : PlainSpecifier)
    (v t : Text) : Prop :=
  ∀ offset, ∃ f, r ⟨offset, b, w ++ q :: (s.text ++ q :: (v ++ t))⟩ = some f ∧
    f.quoted.inside.offset = offset + w.length + 1 ∧ f.quoted.text = s.text ∧
      f.stop.offset = offset + (w ++ q :: (s.text ++ q :: v)).length

section Finds

variable {f : Cursor → Option Cursor} {r r' : Cursor → Option Found} {q : Char} {b : Option Char}
  {s : PlainSpecifier} {u v w t : Text}

theorem Finds.behind (hr : Finds r (w.getLast?.or b) u q s v t)
    (hf : ∀ offset, f ⟨offset, b, w ++ (u ++ q :: (s.text ++ q :: (v ++ t)))⟩ =
      some ⟨offset + w.length, w.getLast?.or b, u ++ q :: (s.text ++ q :: (v ++ t))⟩) :
    Finds (fun c => (f c).bind r) b (w ++ u) q s v t := by
  intro offset
  obtain ⟨found, hfound, hinside, htext, hstop⟩ := hr (offset + w.length)
  refine ⟨found, ?_, ?_, htext, ?_⟩
  · dsimp only
    rw [List.append_assoc, hf, Option.bind_some, hfound]
  · rw [hinside, List.length_append, Nat.add_assoc offset]
  · simp only [hstop, List.length_append, List.length_cons]
    omega

theorem Finds.orElse (hr : Finds r b u q s v t) (r' : Cursor → Option Found) :
    Finds (fun c => (r c).orElse fun _ => r' c) b u q s v t := by
  intro offset
  obtain ⟨found, hfound, hrest⟩ := hr offset
  exact ⟨found, by dsimp only; rw [hfound]; rfl, hrest⟩

theorem Fails.orElse_finds (hr : Fails r (u ++ q :: (s.text ++ q :: (v ++ t))))
    (hr' : Finds r' b u q s v t) : Finds (fun c => (r c).orElse fun _ => r' c) b u q s v t := by
  intro offset
  obtain ⟨found, hfound, hrest⟩ := hr' offset
  exact ⟨found, by dsimp only; rw [hr]; exact hfound, hrest⟩

/-- What is bound does not matter. -/
theorem Finds.rebind (hr : Finds r b u q s v t) (binding : Cursor → Option Text) :
    Finds (fun c => (r c).map fun f => { f with binding := binding c }) b u q s v t := by
  intro offset
  obtain ⟨found, hfound, hrest⟩ := hr offset
  dsimp only
  rw [hfound, Option.map_some]
  exact ⟨_, rfl, hrest⟩

/-- What is found behind a blank. -/
theorem Finds.after_blank {z : Char} (hr : Finds r (some ' ') (z :: u) q s v t)
    (hz : Text.isBlank z = false) :
    Finds (fun c => r c.blanks) b (' ' :: z :: u) q s v t := by
  intro offset
  obtain ⟨found, hfound, hinside, htext, hstop⟩ := hr (offset + 1)
  refine ⟨found, ?_, ?_, htext, ?_⟩
  · dsimp only
    rw [List.cons_append, List.cons_append, blanks_space hz, ← List.cons_append, hfound]
  · simp only [hinside, List.length_cons]
    omega
  · simp only [hstop, List.length_cons, List.length_append]
    omega

variable (s) (hq : isQuote q = true)

include hq

/-- A specifier between two quotes, whatever is bound. -/
theorem finds_quoted (binding : Cursor → Option Text) (b : Option Char) (t : Text) :
    Finds (fun c => c.quoted.map fun d => ⟨binding c, d, d.stop⟩) b [] q s [] t := by
  intro offset
  dsimp only
  rw [List.nil_append, List.nil_append, quoted_enclosed hq s.isQuotable, Option.map_some]
  refine ⟨_, rfl, rfl, rfl, ?_⟩
  simp only [List.length_append, List.length_cons, List.length_nil]
  omega

/-- A specifier between call brackets. -/
theorem finds_call (b : Option Char) (t : Text) : Finds call b ['('] q s [')'] t := by
  intro offset
  have hblank := not_isBlank_of_isQuote hq
  have hopen : char '(' ⟨offset, b, '(' :: q :: (s.text ++ q :: ')' :: t)⟩ =
      some ⟨offset + 1, some '(', q :: (s.text ++ q :: ')' :: t)⟩ := steps_char '(' _ offset b
  have hclose : char ')' ⟨offset + 1 + 1 + s.text.length + 1, some q, ')' :: t⟩ =
      some ⟨offset + 1 + 1 + s.text.length + 1 + 1, some ')', t⟩ := steps_char ')' t _ _
  rw [call, List.singleton_append, List.singleton_append, blanks_of_not (by decide), hopen,
    Option.bind_some, blanks_of_not hblank, quoted_enclosed hq s.isQuotable, Option.bind_some,
    blanks_of_not (by decide), hclose]
  refine ⟨_, rfl, rfl, rfl, ?_⟩
  simp only [List.length_append, List.length_cons, List.length_nil]
  omega

/-- A call behind its word. -/
theorem finds_word_call (hb : b.any Text.isWord = false) (w t : Text) :
    Finds (fun c => (c.word w).bind call) b (w ++ ['(']) q s [')'] t :=
  (finds_call s hq _ t).behind fun offset => Form.word_append hb w offset _

/-- The blanks after the word `import`. -/
theorem finds_gap (hb : b.any Text.isWord = false) (hu : u.head?.any Text.isBlank = false)
    (hr : Finds r (some ' ') u q s v t) :
    Finds (fun c => ((c.word importWord).bind blanks1).bind r) b (importWord ++ ' ' :: u) q s v
      t := by
  have hgap : ∀ offset, (word importWord ⟨offset, b, (importWord ++ [' ']) ++
      (u ++ q :: (s.text ++ q :: (v ++ t)))⟩).bind blanks1 =
      some ⟨offset + (importWord ++ [' ']).length, (importWord ++ [' ']).getLast?.or b,
        u ++ q :: (s.text ++ q :: (v ++ t))⟩ := by
    intro offset
    have hblanks : Steps blanks1 [' '] (u ++ q :: (s.text ++ q :: (v ++ t))) := by
      cases u with
      | nil => exact steps_blanks1 (not_isBlank_of_isQuote hq) _
      | cons y u => exact steps_blanks1 (by simpa using hu) _
    rw [List.append_assoc, Form.word_append hb, Option.bind_some, hblanks]
    rfl
  have htext : importWord ++ ' ' :: u = (importWord ++ [' ']) ++ u := by simp
  rw [htext]
  exact hr.behind hgap

/-- No clause begins with a quote. -/
theorem fails_clause_quote (t : Text) : Fails clause (q :: t) := by
  have hname := fails_name (not_isName_of_isQuote hq) t
  have hbraces : Fails braces (q :: t) := (fails_char (ne_of_isQuote hq rfl) t).bind _
  have hstar : Fails namespaceAs (q :: t) := (fails_char (ne_of_isQuote hq rfl) t).bind _
  exact (hname.bind _).orElse ((hbraces.orElse (hstar.orElse hname)).bind _)

theorem finds_sideEffect (hb : b.any Text.isWord = false) (t : Text) :
    Finds staticImport b ImportForm.sideEffect.lead q s [] t := by
  have hword : Fails (literal Binding.typeWord) (q :: (s.text ++ q :: t)) :=
    (fails_char (ne_of_isQuote hq rfl) _).bind _
  have htype : Fails (wordGap Binding.typeWord) (q :: (s.text ++ q :: t)) := hword.bind _
  have htail : Finds staticTail (some ' ') [] q s [] t :=
    ((fails_clause_quote hq _).bind _).orElse_finds (finds_quoted s hq (fun _ => none) _ t)
  exact finds_gap s hq hb rfl ((htype.bind _).orElse_finds htail)

/-- A clause and the specifier behind it. -/
theorem finds_staticTail (c : ImportClause) (b : Option Char) (t : Text) :
    Finds staticTail b (c.print ++ ' ' :: (Binding.fromWord ++ [' '])) q s [] t := by
  have hclause := steps_clause c (not_isBlank_of_isQuote hq) (s.text ++ q :: t)
  -- What is bound depends on the place where the clause begins, so that place is fixed first.
  intro offset
  let w : Text := c.print ++ ' ' :: (Binding.fromWord ++ [' '])
  let start : Cursor := ⟨offset, b, w ++ q :: (s.text ++ q :: t)⟩
  have hquoted := finds_quoted s hq (fun e => some (start.upTo e)) (w.getLast?.or b) t
  have hfinds := (hquoted.behind fun offset => hclause offset b).orElse fun c =>
    c.quoted.map fun d => ⟨none, d, d.stop⟩
  have hfound := hfinds offset
  rw [List.append_nil] at hfound
  exact hfound

/-- The word `from` is no clause. -/
theorem fails_staticTail_from (t : Text) :
    Fails staticTail (Binding.fromWord ++ ' ' :: q :: t) := by
  let n : Identifier := ⟨Binding.fromWord, by decide⟩
  have hblank := not_isBlank_of_isQuote hq
  have hcomma : Fails (fun c => (c.blanks.char ',').bind fun c => clauseEnd c.blanks)
      (' ' :: q :: t) := ((fails_char (ne_of_isQuote hq rfl) t).after_blank hblank).bind _
  have hfrom : Fails (literal Binding.fromWord) (q :: t) :=
    (fails_char (ne_of_isQuote hq rfl) t).bind _
  have hend : Fails (fun c => c.blanks1.bind fun c => (c.literal Binding.fromWord).map blanks)
      ([' '] ++ q :: t) := (steps_blanks1 hblank t).fails fun _ => hfrom.map _
  have hname : Fails (fun c => c.name.bind fun c => (c.blanks.char ',').bind fun c =>
      clauseEnd c.blanks) (n.text ++ ' ' :: q :: t) :=
    (steps_name n (by decide) _).fails fun _ => hcomma
  have hbound : Fails clauseEnd (n.text ++ ' ' :: q :: t) :=
    (steps_bound_name n (by decide) _).fails fun _ => hend
  exact ((hname.orElse hbound).bind _).orElse ((fails_quoted (x := 'f') (by decide) _).map _)

/-- Where the word `type` is bound and does not stand before what is bound, it is taken as that
only. -/
theorem fails_typed (c : ImportClause) (t : Text) :
    Fails (fun c => (wordGap Binding.typeWord c).bind staticTail)
      (c.print ++ ' ' :: (Binding.fromWord ++ [' ']) ++ q :: t) := by
  cases c with
  | name n =>
    by_cases hn : n.text = Binding.typeWord
    · have htext : (ImportClause.name n).print ++ ' ' :: (Binding.fromWord ++ [' ']) ++ q :: t =
          (Binding.typeWord ++ [' ']) ++ 'f' :: ('r' :: 'o' :: 'm' :: ' ' :: q :: t) := by
        rw [ImportClause.print, hn]
        rfl
      rw [htext]
      exact (steps_wordGap Binding.typeWord (by decide) _).fails fun _ =>
        fails_staticTail_from hq t
    · rw [ImportClause.print, List.append_assoc]
      exact (fails_wordGap_name rfl n (x := ' ') (by decide) (fun h => absurd h hn) _).bind _
  | part p =>
    obtain ⟨y, w, hp, hy⟩ := exists_print_part p
    rw [ImportClause.print, hp]
    refine ((fails_literal ?_ (by decide) _).bind _).bind _
    rcases hy with rfl | rfl <;> decide
  | both n p =>
    have hgap := fails_wordGap_name (w := Binding.typeWord) rfl n (x := ',') (by decide)
      (fun _ => by decide) (' ' :: (p.print ++ (' ' :: (Binding.fromWord ++ [' ']) ++ q :: t)))
    rw [ImportClause.print, List.append_assoc, List.append_assoc, List.cons_append,
      List.cons_append]
    exact hgap.bind _

theorem finds_clause (hb : b.any Text.isWord = false) (typed : Bool) (c : ImportClause) (t : Text) :
    Finds staticImport b (ImportForm.clause typed c).lead q s [] t := by
  obtain ⟨y, w, hprint, hy, -⟩ := exists_print_clause c
  have htail := finds_staticTail s hq c
  cases typed with
  | false =>
    refine finds_gap s hq hb ?_ ((fails_typed hq c _).orElse_finds (htail (some ' ') t))
    simp [hprint, hy]
  | true =>
    have hgap := steps_wordGap Binding.typeWord hy
      (w ++ ' ' :: (Binding.fromWord ++ [' ']) ++ q :: (s.text ++ q :: t))
    have htyped := (htail _ t).behind (b := some ' ') fun offset => by
      rw [hprint]
      exact hgap offset (some ' ')
    refine finds_gap s hq hb (by rfl) ?_
    exact htyped.orElse staticTail

/-- The sign, the word `require` and its call. -/
theorem finds_signedCall (b : Option Char) (t : Text) :
    Finds signedCall b (' ' :: '=' :: ' ' :: (requireWord ++ ['('])) q s [')'] t := by
  have hcall := finds_word_call s hq (b := some ' ') (by decide) requireWord t
  have hbehind : Finds (fun c => requireCall c.blanks) (some '=')
      (' ' :: (requireWord ++ ['('])) q s [')'] t :=
    Finds.after_blank (r := requireCall) hcall (by decide)
  exact hbehind.behind (f := fun c => c.blanks.char '=') fun offset =>
    (steps_char '=' _).after_blank (by decide) offset b

/-- What is bound, and the call. -/
theorem finds_boundCall (target : RequireTarget) (b : Option Char) (t : Text) :
    Finds boundCall b (target.print ++ ' ' :: '=' :: ' ' :: (requireWord ++ ['('])) q s [')']
      t := by
  have htarget := steps_target target
    ('=' :: ' ' :: (requireWord ++ ['(']) ++ q :: (s.text ++ q :: ([')'] ++ t)))
  intro offset
  let start : Cursor := ⟨offset, b, (target.print ++ ' ' :: '=' :: ' ' :: (requireWord ++ ['('])) ++
    q :: (s.text ++ q :: ([')'] ++ t))⟩
  have hcall := (finds_signedCall s hq (target.print.getLast?.or b) t).rebind fun e =>
    some (start.upTo e)
  exact hcall.behind (f := fun c => c.name.orElse fun _ => braces c)
    (fun offset => htarget offset b) offset

theorem finds_require (hb : b.any Text.isWord = false) (word : { w // w ∈ variableWords })
    (target : RequireTarget) (t : Text) :
    Finds requireImport b (ImportForm.require word target).lead q s [')'] t := by
  obtain ⟨y, v, hprint, hy⟩ := exists_print_target target
  have htarget := finds_boundCall s hq target ((word.1 ++ [' ']).getLast?.or b) t
  have hgap := steps_variableGap word.2 hy
    (v ++ ' ' :: '=' :: ' ' :: (requireWord ++ ['(']) ++ q :: (s.text ++ q :: ([')'] ++ t)))
  have hlead : (ImportForm.require word target).lead =
      (word.1 ++ [' ']) ++ (target.print ++ ' ' :: '=' :: ' ' :: (requireWord ++ ['('])) := by
    simp [ImportForm.lead]
  have hbound : Finds boundRequire b (ImportForm.require word target).lead q s [')'] t := by
    have hfinds := htarget.behind (f := fun c => variableWords.findSome? fun w => wordGap w c)
      fun offset => by rw [hprint]; exact hgap offset b
    intro offset
    have hinside : ∀ t, ¬ Cursor.insideWord ⟨offset, b, t⟩ = true := fun t => by
      simp [insideWord, hb]
    rw [hlead]
    simp only [boundRequire_eq, if_neg (hinside _)]
    exact hfinds offset
  exact hbound.orElse requireCall

/-- Every form is recognised at its beginning, with the specifier between the quotes. -/
theorem finds_form (hb : b.any Text.isWord = false) (form : ImportForm) (t : Text) :
    Finds form.kind.recognise b form.lead q s form.close t := by
  cases form with
  | sideEffect => exact finds_sideEffect s hq hb t
  | clause typed c => exact finds_clause s hq hb typed c t
  | require word target => exact finds_require s hq hb word target t
  | dynamic bound => exact finds_word_call s hq hb importWord t

end Finds
end Statement
end ModuleGraph
