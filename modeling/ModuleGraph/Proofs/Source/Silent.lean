import ModuleGraph.Proofs.Source.Recognised

/-!
Where in a printed statement nothing is recognised.

* `Lone`: a text that does not go on to an import of the kind after any of these words;
* `dead_name`: nothing is recognised in a name that ends in no such word, or that such a text
  follows;
* `dead_front`, `dead_lead`, `dead_specifier`: nothing is recognised in the parts of a statement but
  the import itself.
-/

namespace ModuleGraph

open Cursor Statement

variable {k : ImportKind} {n u v w t : Text} {x y z q : Char}

section Dead

variable {α : Type} {r : Cursor → Option α}

theorem dead_nil (t : Text) : Dead r [] t := by
  intro front x back h
  simp at h

theorem dead_cons (hx : Fails r (x :: (w ++ t))) (hw : Dead r w t) : Dead r (x :: w) t := by
  intro front y back h offset before
  cases front with
  | nil =>
    obtain ⟨rfl, rfl⟩ := List.cons_eq_cons.mp h
    exact hx offset before
  | cons a front =>
    obtain ⟨-, h⟩ := List.cons_eq_cons.mp h
    exact hw front y back h offset before

theorem dead_append (hv : Dead r v (w ++ t)) (hw : Dead r w t) : Dead r (v ++ w) t := by
  induction v with
  | nil => exact hw
  | cons x v ih =>
    have hx : Fails r (x :: (v ++ (w ++ t))) := hv [] x v rfl
    rw [← List.append_assoc] at hx
    exact dead_cons hx (ih hv.tail)

end Dead

/-- No import begins with a character that is of no name. -/
theorem fails_of_not_isName (hx : Text.isName x = false) (t : Text) :
    Fails k.recognise (x :: t) := by
  intro offset before
  rw [Option.eq_none_iff_forall_ne_some]
  intro f hf
  obtain ⟨w, hw, z, back, hrest, -⟩ := ImportKind.opens hf
  obtain ⟨hne, hall⟩ := ImportKind.mem_words hw
  obtain ⟨y, w, rfl⟩ := List.exists_cons_of_ne_nil hne
  obtain ⟨rfl, -⟩ := List.cons_eq_cons.mp hrest
  simp [hx] at hall

/-- The text does not go on to an import after any of the words. -/
def Lone (k : ImportKind) (t : Text) : Prop := ∀ w ∈ k.words, Fails k.recognise (w ++ t)

theorem not_isName_of_opens (h : Text.isBlank x = true ∨ x = '(') : Text.isName x = false := by
  rcases h with hx | rfl
  · exact Text.not_isName_of_isBlank hx
  · decide

/-- An import that begins in a name begins with the end of it. -/
theorem dead_name (hn : n.all Text.isName = true) (hx : Text.isName x = false)
    (h : ∀ w ∈ k.words, w <:+ n → Fails k.recognise (w ++ x :: t)) :
    Dead k.recognise n (x :: t) := by
  intro front y back hsplit offset before
  rw [Option.eq_none_iff_forall_ne_some]
  intro f hf
  obtain ⟨w, hw, z, rest, hrest, hz⟩ := ImportKind.opens hf
  have hback : (y :: back).all Text.isName = true := by
    rw [hsplit, List.all_append, Bool.and_eq_true] at hn
    exact hn.2
  obtain ⟨rfl, -⟩ := eq_of_append_names hback (ImportKind.mem_words hw).2 hx
    (not_isName_of_opens hz) hrest
  have hnone := h _ hw ⟨front, hsplit.symm⟩ offset before
  rw [List.cons_append, hf] at hnone
  cases hnone

theorem dead_of_lone (n : Identifier) (hx : Text.isName x = false) (h : Lone k (x :: t)) :
    Dead k.recognise n.text (x :: t) := dead_name n.all hx fun w hw _ => h w hw

theorem dead_word (hn : n.all Text.isName = true) (hx : Text.isName x = false)
    (hno : ∀ w ∈ k.words, ¬ w <:+ n) : Dead k.recognise n (x :: t) :=
  dead_name hn hx fun w hw hsuffix => absurd hsuffix (hno w hw)

theorem dead_mark (hx : Text.isName x = false) (hw : Dead k.recognise w t) :
    Dead k.recognise (x :: w) t := dead_cons (fails_of_not_isName hx _) hw

/-- No import goes on with such a character. -/
theorem lone_mark (hx : Text.isName x = false) (hblank : Text.isBlank x = false)
    (hbracket : x ≠ '(') (t : Text) : Lone k (x :: t) := by
  intro w hw offset before
  rw [Option.eq_none_iff_forall_ne_some]
  intro f hf
  obtain ⟨v, hv, z, rest, hrest, hz⟩ := ImportKind.opens hf
  obtain ⟨-, hcons⟩ := eq_of_append_names (ImportKind.mem_words hw).2 (ImportKind.mem_words hv).2 hx
    (not_isName_of_opens hz) hrest
  obtain ⟨rfl, -⟩ := List.cons_eq_cons.mp hcons
  rcases hz with hz | hz
  · rw [hblank] at hz
    cases hz
  · exact hbracket hz

section Kinds

theorem fails_word {β : Type} {g : Cursor → Option β}
    (h : Fails (fun c => (c.literal w).bind g) t) : Fails (fun c => (c.word w).bind g) t := by
  intro offset before
  dsimp only
  rw [Cursor.word]
  split
  · rfl
  · exact h offset before

/-- A word and what must not follow it. -/
theorem fails_word_bind {β : Type} {g : Cursor → Option β} (h : Fails g t) (w : Text) :
    Fails (fun c => (c.word w).bind g) (w ++ t) :=
  fails_word ((steps_literal w t).fails fun _ => h)

theorem fails_staticImport (hx : Text.isBlank x = false) (t : Text) :
    Fails staticImport (importWord ++ x :: t) := by
  have hgap := fails_word_bind (fails_blanks1 hx t) importWord
  exact hgap.bind _

theorem fails_staticImport_blank (hz : Text.isBlank z = false)
    (htype : Fails (wordGap Binding.typeWord) (z :: t)) (htail : Fails staticTail (z :: t)) :
    Fails staticImport (importWord ++ ' ' :: z :: t) := by
  have hrest := (htype.bind fun _ => staticTail).orElse htail
  have hgap := fails_word_bind ((steps_blanks1 hz t).fails fun _ => hrest) importWord
  intro offset before
  have hassoc := hgap offset before
  dsimp only at hassoc
  rw [← Option.bind_assoc] at hassoc
  exact hassoc

theorem fails_call (hz : Text.isBlank z = false) (hne : z ≠ '(') (t : Text) :
    Fails call (' ' :: z :: t) := ((fails_char hne t).after_blank hz).bind _

/-- No declaration begins with a word that no blank follows, or with another word. -/
theorem fails_variableGap (hw : w.all Text.isName = true) (hx : Text.isName x = false)
    (h : w ∈ variableWords → Text.isBlank x = false) (t : Text) :
    Fails (fun c => variableWords.findSome? fun v => wordGap v c) (w ++ x :: t) := by
  intro offset before
  rw [List.findSome?_eq_none_iff]
  intro v hv
  rw [Option.eq_none_iff_forall_ne_some]
  intro e he
  have hvall : ∀ v ∈ variableWords, v.all Text.isName = true := by decide
  obtain ⟨rfl, hblank⟩ := eq_of_wordGap hw (hvall v hv) hx he
  rw [h hv] at hblank
  cases hblank

theorem fails_boundRequire (h : Fails (fun c => (variableWords.findSome? fun v =>
    wordGap v c).bind boundCall) t) : Fails boundRequire t := by
  intro offset before
  rw [boundRequire_eq]
  split
  · rfl
  · exact h offset before

/-- The word `require` is none of the words of a declaration, and the other way round. -/
theorem fails_requireImport_word (hx : Text.isName x = false) (h : Fails call (x :: t)) :
    Fails requireImport (requireWord ++ x :: t) := by
  have hgap := fails_variableGap (w := requireWord) (by decide) hx (fun h => absurd h (by decide)) t
  exact (fails_boundRequire (hgap.bind _)).orElse (fails_word_bind h requireWord)

theorem fails_requireCall (hx : x ≠ 'r') (t : Text) : Fails requireCall (x :: t) := by
  have hword : Fails (literal requireWord) (x :: t) := (fails_char hx t).bind _
  exact fails_word (hword.bind _)

theorem fails_requireImport_variable (hw : w ∈ variableWords)
    (h : Fails (fun c => (variableWords.findSome? fun v => wordGap v c).bind boundCall) (w ++ t)) :
    Fails requireImport (w ++ t) := by
  have hhead : ∀ w ∈ variableWords, w ≠ [] ∧ w.head? ≠ some 'r' := by decide
  obtain ⟨hne, hr⟩ := hhead w hw
  obtain ⟨x, w, rfl⟩ := List.exists_cons_of_ne_nil hne
  have hx : x ≠ 'r' := fun hx => hr (by rw [hx]; rfl)
  exact (fails_boundRequire h).orElse (fails_requireCall hx (w ++ t))

/-- After the words of a declaration neither a name nor a pattern begins so. -/
theorem fails_boundCall (hx : Text.isName z = false) (hne : z ≠ '{') (t : Text) :
    Fails boundCall (z :: t) :=
  ((fails_name hx t).orElse ((fails_char hne t).bind _)).bind _

/-- A name after which no sign with a call follows. -/
theorem fails_boundCall_name (m : Identifier) (h : Fails signedCall (' ' :: t)) :
    Fails boundCall (m.text ++ ' ' :: t) :=
  ((steps_name (x := ' ') m (by decide) t).orElse braces).fails fun _ => h.map _

/-- What stands after the words by which a call of `require` or its declaration begins. -/
theorem lone_require (hz : Text.isBlank z = false) (hne : z ≠ '(') (h : Fails boundCall (z :: t)) :
    Lone .require (' ' :: z :: t) := by
  intro w hw
  rcases List.mem_cons.mp hw with rfl | hw
  · exact fails_requireImport_word (by decide) (fails_call hz hne t)
  · refine fails_requireImport_variable hw ?_
    have hgap := (steps_variableGap hw hz t).fails (h := fun _ => boundCall) fun _ => h
    rwa [List.append_assoc] at hgap

theorem lone_dynamic (hz : Text.isBlank z = false) (hne : z ≠ '(') (t : Text) :
    Lone .dynamic (' ' :: z :: t) := by
  intro w hw
  rw [List.mem_singleton.mp hw]
  exact fails_word_bind (fails_call hz hne t) importWord

theorem lone_static (hx : Text.isBlank x = false) (t : Text) : Lone .static (x :: t) := by
  intro w hw
  rw [List.mem_singleton.mp hw]
  exact fails_staticImport hx t

/-- A mark after a blank. -/
theorem lone_blank_mark (hz : z = '=' ∨ z = '}') (t : Text) : Lone k (' ' :: z :: t) := by
  have hblank : Text.isBlank z = false := by rcases hz with rfl | rfl <;> decide
  have hname : Text.isName z = false := by rcases hz with rfl | rfl <;> decide
  obtain ⟨hbracket, hbrace, hstar, ht⟩ : z ≠ '(' ∧ z ≠ '{' ∧ z ≠ '*' ∧ z ≠ 't' := by
    rcases hz with rfl | rfl <;> decide
  cases k with
  | static =>
    intro w hw
    rw [List.mem_singleton.mp hw]
    have hquote : isQuote z = false := by rcases hz with rfl | rfl <;> decide
    have hbound : Fails bound (z :: t) := ((fails_char hbrace t).bind _).orElse
      (((fails_char hstar t).bind _).orElse (fails_name hname t))
    have hclause : Fails clause (z :: t) := ((fails_name hname t).bind _).orElse (hbound.bind _)
    have htail : Fails staticTail (z :: t) :=
      (hclause.bind _).orElse ((fails_quoted hquote t).map _)
    exact fails_staticImport_blank hblank (((fails_char ht t).bind _).bind _) htail
  | dynamic => exact lone_dynamic hblank hbracket t
  | require => exact lone_require hblank hbracket (fails_boundCall hname hbrace t)

/-- A bracket that no specifier follows. -/
theorem lone_bracket (h : Fails (fun c => c.blanks.quoted) t) : Lone k ('(' :: t) := by
  intro w hw
  have hcall : Fails call ('(' :: t) := by
    have hinner : Fails (fun c => c.blanks.quoted.bind fun q =>
        (q.stop.blanks.char ')').map fun stop => (⟨none, q, stop⟩ : Found)) t := h.bind _
    exact ((steps_char '(' t).no_blank (by decide)).fails fun _ => hinner
  cases k with
  | static => exact lone_static (by decide) t w hw
  | dynamic =>
    rw [List.mem_singleton.mp hw]
    exact fails_word_bind hcall importWord
  | require =>
    rcases List.mem_cons.mp hw with rfl | hw
    · exact fails_requireImport_word (by decide) hcall
    · have hall := (ImportKind.mem_words (k := .require) (List.mem_cons_of_mem _ hw)).2
      have hgap := fails_variableGap (x := '(') hall (by decide) (fun _ => by decide) t
      exact fails_requireImport_variable hw (hgap.bind _)

/-- A name after a blank, where no specifier and no call is bound. -/
theorem lone_blank_name (hk : k ≠ .static) (m : Identifier) (hy : Text.isBlank y = false)
    (hne : y ≠ '=') (t : Text) : Lone k (' ' :: (m.text ++ ' ' :: y :: t)) := by
  obtain ⟨z, v, hm, hz⟩ := m.exists_cons
  have hbracket : z ≠ '(' := Text.ne_of_isName hz (by decide)
  have hsign : Fails signedCall (' ' :: y :: t) := ((fails_char hne t).after_blank hy).bind _
  have hcall := fails_boundCall_name m hsign
  rw [hm] at hcall ⊢
  cases k with
  | static => exact absurd rfl hk
  | dynamic => exact lone_dynamic (Text.not_isBlank_of_isName hz) hbracket _
  | require => exact lone_require (Text.not_isBlank_of_isName hz) hbracket hcall

end Kinds

section Parts

/-- Between two names of an item no import begins, whatever lone text follows. -/
def Separates (k : ImportKind) (separator : Text) : Prop :=
  ∀ (n m : Identifier) (x : Char) (t : Text), Text.isName x = false → Lone k (x :: t) →
    Dead k.recognise (n.text ++ (separator ++ m.text)) (x :: t)

theorem separates_colon : Separates k [':', ' '] := by
  intro n m x t hx hl
  have hcolon : Lone k (':' :: ' ' :: m.text ++ x :: t) :=
    lone_mark (by decide) (by decide) (by decide) _
  refine dead_append (dead_of_lone n (by decide) hcolon) ?_
  exact dead_mark (by decide) (dead_mark (by decide) (dead_of_lone m hx hl))

/-- The word before a new name. -/
theorem dead_as (hx : Text.isName x = false) (t : Text) :
    Dead k.recognise Binding.asWord (x :: t) :=
  dead_word (by decide) hx (by cases k <;> decide)

theorem separates_as (hk : k ≠ .static) : Separates k (' ' :: (Binding.asWord ++ [' '])) := by
  intro n m x t hx hl
  obtain ⟨y, v, hm, hy⟩ := m.exists_cons
  have hname : y ≠ '=' := Text.ne_of_isName hy (by decide)
  have hlone := lone_blank_name hk ⟨Binding.asWord, by decide⟩ (Text.not_isBlank_of_isName hy) hname
    (v ++ x :: t)
  have htext : ' ' :: (Binding.asWord ++ [' ']) ++ m.text =
      ' ' :: (Binding.asWord ++ ' ' :: m.text) := rfl
  rw [htext]
  refine dead_append (dead_of_lone n (by decide) ?_) ?_
  · rw [hm]
    exact hlone
  · refine dead_mark (by decide) (dead_append (dead_as (by decide) _) ?_)
    exact dead_mark (by decide) (dead_of_lone m hx hl)

section Items

variable {separator : Text} (hs : Separates k separator)

include hs

theorem dead_item (i : BoundItem) (hx : Text.isName x = false) (hl : Lone k (x :: t)) :
    Dead k.recognise (i.print separator) (x :: t) := by
  rw [BoundItem.print]
  cases i.renamed with
  | none =>
    rw [List.append_nil]
    exact dead_of_lone i.name hx hl
  | some m => exact hs i.name m x t hx hl

theorem dead_items (items : List BoundItem) (t : Text) :
    Dead k.recognise (BoundItem.printItems separator items) (' ' :: '}' :: t) := by
  fun_induction BoundItem.printItems separator items with
  | case1 => exact dead_nil _
  | case2 i => exact dead_item hs i (by decide) (lone_blank_mark (Or.inr rfl) t)
  | case3 i j rest ih =>
    have hlone : Lone k (',' :: ' ' :: BoundItem.printItems separator (j :: rest) ++
        ' ' :: '}' :: t) := lone_mark (by decide) (by decide) (by decide) _
    exact dead_append (dead_item hs i (by decide) hlone)
      (dead_mark (by decide) (dead_mark (by decide) ih))

/-- No import begins in a list in braces. -/
theorem dead_list (items : List BoundItem) (t : Text) :
    Dead k.recognise (BoundItem.printList separator items) t := by
  have hclose : Dead k.recognise [' ', '}'] t :=
    dead_mark (by decide) (dead_mark (by decide) (dead_nil t))
  exact dead_mark (by decide) (dead_mark (by decide) (dead_append (dead_items hs items t) hclose))

end Items

theorem dead_part (hk : k ≠ .static) (p : ImportPart) (hx : Text.isName x = false)
    (hl : Lone k (x :: t)) : Dead k.recognise p.print (x :: t) := by
  cases p with
  | list items => exact dead_list (separates_as hk) items _
  | everything n =>
    refine dead_mark (by decide) (dead_mark (by decide) (dead_append (dead_as (by decide) _) ?_))
    exact dead_mark (by decide) (dead_of_lone n hx hl)

/-- No import of another kind begins in a clause. -/
theorem dead_clause (hk : k ≠ .static) (c : ImportClause) (hx : Text.isName x = false)
    (hl : Lone k (x :: t)) : Dead k.recognise c.print (x :: t) := by
  cases c with
  | name n => exact dead_of_lone n hx hl
  | part p => exact dead_part hk p hx hl
  | both n p =>
    have hcomma : Lone k (',' :: ' ' :: p.print ++ x :: t) :=
      lone_mark (by decide) (by decide) (by decide) _
    exact dead_append (dead_of_lone n (by decide) hcomma)
      (dead_mark (by decide) (dead_mark (by decide) (dead_part hk p hx hl)))

theorem dead_target (target : RequireTarget) (t : Text) :
    Dead k.recognise target.print (' ' :: '=' :: t) := by
  cases target with
  | name n => exact dead_of_lone n (by decide) (lone_blank_mark (Or.inl rfl) t)
  | pattern items => exact dead_list separates_colon items _

/-- After the word `import` and a blank no import of another kind begins. -/
theorem dead_import (hk : k ≠ .static) (hz : Text.isBlank z = false) (hne : z ≠ '(') (t : Text) :
    Dead k.recognise importWord (' ' :: z :: t) := by
  cases k with
  | static => exact absurd rfl hk
  | dynamic => exact dead_name (by decide) (by decide) fun w hw _ => lone_dynamic hz hne t w hw
  | require => exact dead_word (by decide) (by decide) (by decide)

open Stretch (not_isBlank_of_isQuote not_isName_of_isQuote)

/-- What stands before the opening quote of an import of another kind. -/
theorem dead_lead (form : ImportForm) (hk : form.kind ≠ k) (hq : isQuote q = true) (t : Text) :
    Dead k.recognise form.lead (q :: t) := by
  have hblank := not_isBlank_of_isQuote hq
  have hspace : ∀ t, Dead k.recognise [' '] t := fun t => dead_mark (by decide) (dead_nil t)
  cases form with
  | sideEffect =>
    exact dead_append (dead_import hk.symm hblank (ne_of_isQuote hq rfl) t) (hspace _)
  | clause typed c =>
    have hlone := lone_blank_name hk.symm ⟨Binding.fromWord, by decide⟩ hblank
      (ne_of_isQuote hq rfl) t
    have hfrom : Dead k.recognise (Binding.fromWord ++ [' ']) (q :: t) :=
      dead_append (dead_word (by decide) (by decide) (by cases k <;> decide)) (hspace _)
    have hclause : Dead k.recognise (c.print ++ ' ' :: (Binding.fromWord ++ [' '])) (q :: t) :=
      dead_append (dead_clause hk.symm c (by decide) hlone) (dead_mark (by decide) hfrom)
    obtain ⟨y, w, hprint, hy, hbracket⟩ := exists_print_clause c
    cases typed with
    | false =>
      refine dead_append (v := importWord) ?_ (dead_mark (by decide) hclause)
      have himport := dead_import hk.symm hy hbracket
        (w ++ ' ' :: (Binding.fromWord ++ [' ']) ++ q :: t)
      rw [hprint]
      exact himport
    | true =>
      have htype : Dead k.recognise (Binding.typeWord ++ [' '])
          (c.print ++ ' ' :: (Binding.fromWord ++ [' ']) ++ q :: t) :=
        dead_append (dead_word (by decide) (by decide) (by cases k <;> decide)) (hspace _)
      refine dead_append (v := importWord) ?_ (dead_mark (by decide) (dead_append htype hclause))
      exact dead_import hk.symm (z := 't') (by decide) (by decide) _
  | require word target =>
    have hwords : ∀ k ∈ ImportKind.all, ∀ v ∈ variableWords, v.all Text.isName = true ∧
        (k ≠ .require → ∀ w ∈ k.words, ¬ w <:+ v) := by decide
    have hcall : ∀ w ∈ k.words, ¬ w <:+ requireWord := by
      cases k with
      | require => exact absurd rfl hk
      | static => decide
      | dynamic => decide
    obtain ⟨hall, hno⟩ := hwords k (by cases k <;> decide) word.1 word.2
    have hrequire : Dead k.recognise (requireWord ++ ['(']) (q :: t) :=
      dead_append (dead_word (by decide) (by decide) hcall) (dead_mark (by decide) (dead_nil _))
    have htarget : Dead k.recognise (target.print ++ ' ' :: '=' :: ' ' :: (requireWord ++ ['(']))
        (q :: t) :=
      dead_append (dead_target target _)
        (dead_mark (by decide) (dead_mark (by decide) (dead_mark (by decide) hrequire)))
    exact dead_append (dead_word hall (by decide) (hno hk.symm)) (dead_mark (by decide) htarget)
  | dynamic bound =>
    have himport : Dead k.recognise importWord ('(' :: q :: t) := by
      cases k with
      | static =>
        exact dead_name (by decide) (by decide) fun w hw _ => lone_static (by decide) _ w hw
      | dynamic => exact absurd rfl hk
      | require => exact dead_word (by decide) (by decide) (by decide)
    exact dead_append himport (dead_mark (by decide) (dead_nil _))

/-- The word by which the name of a dynamic import is declared begins no other import. -/
theorem dead_const (n : Identifier) (t : Text) : Dead k.recognise ImportForm.constWord
    (' ' :: (n.text ++ ' ' :: '=' :: ' ' :: (ImportForm.awaitWord ++ t))) := by
  cases k with
  | static => exact dead_word (by decide) (by decide) (by decide)
  | dynamic => exact dead_word (by decide) (by decide) (by decide)
  | require =>
    obtain ⟨y, v, hn, hy⟩ := n.exists_cons
    have hsign : Fails signedCall (' ' :: '=' :: ' ' :: (ImportForm.awaitWord ++ t)) :=
      ((steps_char '=' _).after_blank (by decide)).fails fun _ =>
        (fails_requireCall (x := 'a') (by decide) _).after_blank (by decide)
    have hbound : Fails boundCall
        (y :: (v ++ ' ' :: '=' :: ' ' :: (ImportForm.awaitWord ++ t))) := by
      rw [← List.cons_append, ← hn]
      exact fails_boundCall_name n hsign
    have hconst : ImportForm.constWord ∈ variableWords := by decide
    have hgap := (steps_variableGap hconst (Text.not_isBlank_of_isName hy) _).fails fun _ => hbound
    have hwords : ∀ w ∈ requireWord :: variableWords, w <:+ ImportForm.constWord →
        w = ImportForm.constWord := by decide
    refine dead_name (by decide) (by decide) fun w hw hsuffix => ?_
    rw [hwords w hw hsuffix, hn]
    exact fails_requireImport_variable hconst hgap

/-- What stands before the word of an import. -/
theorem dead_front (form : ImportForm) (t : Text) : Dead k.recognise form.front t := by
  cases form with
  | sideEffect | clause | require => exact dead_nil t
  | dynamic bound =>
    cases bound with
    | none => exact dead_nil t
    | some n =>
      have hawait : Dead k.recognise (ImportForm.awaitWord ++ [' ']) t :=
        dead_append (dead_word (by decide) (by decide) (by cases k <;> decide))
          (dead_mark (by decide) (dead_nil t))
      have hsign : Dead k.recognise (' ' :: '=' :: ' ' :: (ImportForm.awaitWord ++ [' '])) t :=
        dead_mark (by decide) (dead_mark (by decide) (dead_mark (by decide) hawait))
      have hname : Dead k.recognise n.text
          (' ' :: '=' :: ' ' :: (ImportForm.awaitWord ++ [' ']) ++ t) :=
        dead_of_lone n (by decide) (lone_blank_mark (Or.inl rfl) _)
      have hconst := dead_const (k := k) n (' ' :: t)
      have htext : ' ' :: (n.text ++ ' ' :: '=' :: ' ' :: (ImportForm.awaitWord ++ ' ' :: t)) =
          ' ' :: (n.text ++ ' ' :: '=' :: ' ' :: (ImportForm.awaitWord ++ [' '])) ++ t := by simp
      rw [htext] at hconst
      exact dead_append hconst (dead_mark (by decide) (dead_append hname hsign))

end Parts

section Specifier

open Stretch (not_isBlank_of_isQuote not_isName_of_isQuote)

/-- The text is at the end of a line. -/
def EndsLine (u : Text) : Prop := u = [] ∨ ∃ v, u = '\n' :: v

/-- The quote that closes a specifier opens none: its line has no other. -/
theorem fails_quoted_close (hq : isQuote q = true) (hv : v.all isQuotable = true)
    (hu : EndsLine u) : Fails Cursor.quoted (q :: (v ++ u)) := by
  intro offset before
  have hskip : skip isQuotable ⟨offset + 1, some q, v ++ u⟩ =
      ⟨offset + 1 + v.length, v.getLast?.or (some q), u⟩ := by
    rcases hu with rfl | ⟨t, rfl⟩
    · exact skip_all_append hv _ _ _
    · exact skip_append hv (by decide) _ _ _
  have hchar : ∀ offset before, char q ⟨offset, before, u⟩ = none := by
    rcases hu with rfl | ⟨t, rfl⟩
    · exact fun _ _ => rfl
    · exact fails_char (ne_of_isQuote hq (by decide)).symm t
  simp only [Cursor.quoted, hq, next, hskip, hchar, Option.map_none, ite_self]

/-- In a specifier no import begins: after a bracket no quote opens another specifier. -/
theorem dead_specifier (s : PlainSpecifier) (hq : isQuote q = true) (hv : v.all isQuotable = true)
    (hu : EndsLine u) : Dead k.recognise s.text (q :: (v ++ u)) := by
  intro front x back hsplit offset before
  rw [Option.eq_none_iff_forall_ne_some]
  intro f hf
  obtain ⟨w, hw, y, rest, hrest, hy⟩ := ImportKind.opens hf
  have hopen : (w ++ [y]).IsUnquoted := by
    intro a ha
    rw [← Bool.not_eq_true]
    intro hquote
    rcases List.mem_append.mp ha with ha | ha
    · have hname := List.all_eq_true.mp (ImportKind.mem_words hw).2 a ha
      rw [not_isName_of_isQuote hquote] at hname
      cases hname
    · rw [List.mem_singleton.mp ha] at hquote
      rcases hy with hy | rfl
      · rw [Form.not_isQuote_of_isBlank hy] at hquote
        cases hquote
      · cases hquote
  have htext : (x :: back) ++ q :: (v ++ u) = (w ++ [y]) ++ rest := by
    rw [List.append_assoc]
    exact hrest
  obtain ⟨z, hz⟩ := Stretch.exists_of_append_quote hq hopen htext
  have hmem : ∀ a ∈ (w ++ [y]) ++ z, a ∈ s.text := by
    intro a ha
    rw [hsplit, hz]
    exact List.mem_append_right front ha
  have hblank : Text.isBlank y = false := s.not_isBlank (hmem y (by simp))
  rcases hy with hy | rfl
  · rw [hblank] at hy
    cases hy
  · have hquoted : Fails (fun c => c.blanks.quoted) (z ++ q :: (v ++ u)) := by
      cases z with
      | nil => exact (fails_quoted_close hq hv hu).no_blank (not_isBlank_of_isQuote hq)
      | cons a z =>
        have ha := hmem a (by simp)
        exact (fails_quoted (s.not_isQuote ha) _).no_blank (s.not_isBlank ha)
    have hnone := lone_bracket (k := k) hquoted w hw offset before
    have hback : x :: (back ++ q :: (v ++ u)) = w ++ '(' :: (z ++ q :: (v ++ u)) := by
      rw [← List.cons_append, hz]
      simp
    rw [← hback, hf] at hnone
    cases hnone

theorem dead_marks (hw : ∀ x ∈ w, Text.isName x = false) (t : Text) :
    Dead k.recognise w t := by
  induction w with
  | nil => exact dead_nil t
  | cons x w ih =>
    exact dead_mark (hw x List.mem_cons_self) (ih fun y hy => hw y (List.mem_cons_of_mem _ hy))

/-- In an import no import of another kind begins. -/
theorem dead_call (form : ImportForm) (hk : form.kind ≠ k) (s : PlainSpecifier)
    (hq : isQuote q = true) (hv : v.all isQuotable = true) (hu : EndsLine u) :
    Dead k.recognise (form.lead ++ q :: (s.text ++ q :: form.close)) (v ++ u) := by
  have hquote := not_isName_of_isQuote hq
  have hclose : (∀ x ∈ form.close, Text.isName x = false) ∧
      form.close.all isQuotable = true := by
    cases form with
    | sideEffect | clause => exact ⟨by simp [ImportForm.close], rfl⟩
    | require | dynamic => exact ⟨by simp [ImportForm.close]; decide, rfl⟩
  have hspecifier : Dead k.recognise s.text (q :: form.close ++ (v ++ u)) := by
    have hall : (form.close ++ v).all isQuotable = true := by
      rw [List.all_append, hclose.2, hv]
      rfl
    have hdead := dead_specifier (k := k) s hq hall hu
    rwa [List.append_assoc] at hdead
  have hend : Dead k.recognise (q :: form.close) (v ++ u) :=
    dead_mark hquote (dead_marks hclose.1 _)
  exact dead_append (dead_lead form hk hq _)
    (dead_mark hquote (dead_append hspecifier hend))

end Specifier

end ModuleGraph
