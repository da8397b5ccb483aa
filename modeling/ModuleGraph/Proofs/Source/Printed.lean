import ModuleGraph.Proofs.Respell.Lead
import ModuleGraph.Proofs.Source.Level
import ModuleGraph.Source.Basic

/-!
Statements that import a module, and how they are printed.

* `ImportStatement`: the statement forms that are recognised, with what they bind, the quote used
  and the specifier; `ImportStatement.print` writes one;
* `Steps`, `Fails`: a step of a recogniser passes over a text, or does not succeed before it;
* `steps_braces`, `steps_clause`: a printed list and a printed clause are passed over whole.
-/

namespace ModuleGraph

open Cursor

namespace Text

/-- The code points of the blanks. -/
def blankCodes : List Nat := [9, 10, 11, 12, 13, 28, 29, 30, 31, 32, 0x85, 0xA0, 0x1680, 0x2000,
  0x2001, 0x2002, 0x2003, 0x2004, 0x2005, 0x2006, 0x2007, 0x2008, 0x2009, 0x200A, 0x2028, 0x2029,
  0x202F, 0x205F, 0x3000]

/-- No blank belongs to a name. -/
theorem not_isName_of_isBlank {c : Char} (h : isBlank c = true) : isName c = false := by
  have hcodes : ∀ n ∈ blankCodes, isName (Char.ofNat n) = false := by decide +kernel
  have hmem : c.toNat ∈ blankCodes := by
    simp only [isBlank, Bool.or_eq_true, Bool.and_eq_true, decide_eq_true_eq, beq_iff_eq] at h
    simp only [blankCodes, List.mem_cons, List.not_mem_nil, or_false]
    omega
  rw [← Char.ofNat_toNat c]
  exact hcodes _ hmem

theorem not_isBlank_of_isName {c : Char} (h : isName c = true) : isBlank c = false := by
  rw [← Bool.not_eq_true]
  intro hblank
  rw [not_isName_of_isBlank hblank] at h
  cases h

theorem ne_of_isName {c d : Char} (hc : isName c = true) (hd : isName d = false) : c ≠ d := by
  rintro rfl
  rw [hd] at hc
  cases hc

end Text

/-- A name as it stands in a statement. -/
structure Identifier where
  text : Text
  valid : Text.isIdentifier text = true

/-- A specifier as it stands between quotes: no quote and no blank is in it. -/
structure PlainSpecifier where
  text : Text
  ne_nil : text ≠ []
  plain : text.all (fun x => !isQuote x && !Text.isBlank x) = true

/-- A name in braces, and the name that it gets. -/
structure BoundItem where
  name : Identifier
  renamed : Option Identifier

/-- `{ x, y as z }` or `* as n`. -/
inductive ImportPart
  | list (items : List BoundItem)
  | everything (name : Identifier)

/-- What stands between `import` and `from`. -/
inductive ImportClause
  | name (name : Identifier)
  | part (part : ImportPart)
  | both (name : Identifier) (part : ImportPart)

/-- What the result of `require` is bound to. -/
inductive RequireTarget
  | name (name : Identifier)
  | pattern (items : List BoundItem)

/-- The forms of a statement that imports a module. -/
inductive ImportForm
  | sideEffect
  | clause (typed : Bool) (clause : ImportClause)
  | require (word : { w // w ∈ Statement.variableWords }) (target : RequireTarget)
  | dynamic (bound : Option Identifier)

/-- A statement that imports a module. -/
structure ImportStatement where
  form : ImportForm
  quote : { q // isQuote q = true }
  specifier : PlainSpecifier
  semicolon : Bool

def BoundItem.print (separator : Text) (i : BoundItem) : Text :=
  i.name.text ++ match i.renamed with
    | none => []
    | some name => separator ++ name.text

/-- Items with commas between them. -/
def BoundItem.printItems (separator : Text) : List BoundItem → Text
  | [] => []
  | [i] => i.print separator
  | i :: j :: rest => i.print separator ++ ',' :: ' ' :: printItems separator (j :: rest)

/-- Items in braces. -/
def BoundItem.printList (separator : Text) (items : List BoundItem) : Text :=
  '{' :: ' ' :: (printItems separator items ++ [' ', '}'])

def ImportPart.print : ImportPart → Text
  | .list items => BoundItem.printList (' ' :: (Binding.asWord ++ [' '])) items
  | .everything n => '*' :: ' ' :: (Binding.asWord ++ ' ' :: n.text)

def ImportClause.print : ImportClause → Text
  | .name n => n.text
  | .part p => p.print
  | .both n p => n.text ++ ',' :: ' ' :: p.print

def RequireTarget.print : RequireTarget → Text
  | .name n => n.text
  | .pattern items => BoundItem.printList [':', ' '] items

namespace ImportForm

def constWord : Text := ['c', 'o', 'n', 's', 't']

def awaitWord : Text := ['a', 'w', 'a', 'i', 't']

/-- What stands before the call of `import`. -/
def front : ImportForm → Text
  | .dynamic (some n) =>
    constWord ++ ' ' :: (n.text ++ ' ' :: '=' :: ' ' :: (awaitWord ++ [' ']))
  | _ => []

/-- What stands before the opening quote, from the word by which the form is recognised on. -/
def lead : ImportForm → Text
  | .sideEffect => Statement.importWord ++ [' ']
  | .clause typed c => Statement.importWord ++ ' ' ::
      ((if typed then Binding.typeWord ++ [' '] else []) ++
        (c.print ++ ' ' :: (Binding.fromWord ++ [' '])))
  | .require word target =>
    word.1 ++ ' ' :: (target.print ++ ' ' :: '=' :: ' ' :: (Statement.requireWord ++ ['(']))
  | .dynamic _ => Statement.importWord ++ ['(']

/-- What stands after the closing quote. -/
def close : ImportForm → Text
  | .sideEffect | .clause .. => []
  | .require .. | .dynamic _ => [')']

def kind : ImportForm → ImportKind
  | .sideEffect | .clause .. => .static
  | .require .. => .require
  | .dynamic _ => .dynamic

end ImportForm

/-- The statement as one line. -/
def ImportStatement.print (s : ImportStatement) : Text :=
  s.form.front ++ (s.form.lead ++ s.quote.1 :: (s.specifier.text ++ s.quote.1 :: s.form.close)) ++
    if s.semicolon then [';'] else []

example : ImportStatement.print {
    form := .clause true (.both ⟨"a", by decide⟩
      (.list [⟨⟨"x", by decide⟩, some ⟨"y", by decide⟩⟩]))
    quote := ⟨'\'', rfl⟩
    specifier := ⟨"./b", by decide, by decide⟩
    semicolon := true } = ("import type a, \x7b x as y \x7d from './b';" : Text) := by decide

namespace Identifier

variable (n : Identifier)

theorem ne_nil : n.text ≠ [] := by
  have hvalid := n.valid
  rw [Text.isIdentifier, Bool.and_eq_true] at hvalid
  simpa using hvalid.1

theorem all : n.text.all Text.isName = true := by
  have hvalid := n.valid
  rw [Text.isIdentifier, Bool.and_eq_true] at hvalid
  exact hvalid.2

theorem isName_of_mem {x : Char} (hx : x ∈ n.text) : Text.isName x = true :=
  List.all_eq_true.mp n.all x hx

theorem exists_cons : ∃ x w, n.text = x :: w ∧ Text.isName x = true := by
  obtain ⟨x, w, hn⟩ := List.exists_cons_of_ne_nil n.ne_nil
  exact ⟨x, w, hn, n.isName_of_mem (hn ▸ List.mem_cons_self)⟩

end Identifier

theorem BoundItem.not_mem_printItems {x : Char} (hx : Text.isName x = false) (hcomma : x ≠ ',')
    (hblank : x ≠ ' ') {separator : Text} (hs : x ∉ separator) (items : List BoundItem) :
    x ∉ printItems separator items := by
  have hname : ∀ n : Identifier, x ∉ n.text := fun n hn =>
    Text.ne_of_isName (n.isName_of_mem hn) hx rfl
  have hitem : ∀ i : BoundItem, x ∉ i.print separator := by
    intro i h
    rw [BoundItem.print] at h
    rcases List.mem_append.mp h with h | h
    · exact hname _ h
    · cases hr : i.renamed with
      | none => simp [hr] at h
      | some m =>
        rw [hr] at h
        exact (List.mem_append.mp h).elim hs (hname m)
  intro h
  fun_induction printItems separator items with
  | case1 => cases h
  | case2 i => exact hitem i h
  | case3 i j rest ih => exact ih (by simpa [hitem i, hcomma, hblank] using h)

theorem Identifier.not_mem_lineEnd (n : Identifier) : '\n' ∉ n.text := fun hn =>
  Text.ne_of_isName (n.isName_of_mem hn) (by decide) rfl

theorem BoundItem.not_mem_lineEnd {separator : Text} (hs : '\n' ∉ separator)
    (items : List BoundItem) : '\n' ∉ printList separator items := by
  have hitems := not_mem_printItems (by decide) (by decide) (by decide) hs items
  simp [printList, hitems]

theorem ImportPart.not_mem_lineEnd (p : ImportPart) : '\n' ∉ p.print := by
  cases p with
  | list items => exact BoundItem.not_mem_lineEnd (by decide) items
  | everything n => simp [print, n.not_mem_lineEnd, Binding.asWord]

theorem ImportClause.not_mem_lineEnd (c : ImportClause) : '\n' ∉ c.print := by
  cases c with
  | name n => exact n.not_mem_lineEnd
  | part p => exact p.not_mem_lineEnd
  | both n p => simp [print, n.not_mem_lineEnd, p.not_mem_lineEnd]

theorem RequireTarget.not_mem_lineEnd (target : RequireTarget) : '\n' ∉ target.print := by
  cases target with
  | name n => exact n.not_mem_lineEnd
  | pattern items => exact BoundItem.not_mem_lineEnd (by decide) items

namespace Statement

/-- A step passes over `w` when `t` follows. -/
def Steps (f : Cursor → Option Cursor) (w t : Text) : Prop :=
  ∀ offset before, f ⟨offset, before, w ++ t⟩ = some ⟨offset + w.length, w.getLast?.or before, t⟩

/-- A step does not succeed before `t`. -/
def Fails {α : Type} (f : Cursor → Option α) (t : Text) : Prop :=
  ∀ offset before, f ⟨offset, before, t⟩ = none

variable {f g : Cursor → Option Cursor} {w v t : Text} {x y z : Char}

theorem Steps.bind (hf : Steps f w (v ++ t)) (hg : Steps g v t) :
    Steps (fun c => (f c).bind g) (w ++ v) t := by
  intro offset before
  dsimp only
  rw [List.append_assoc, hf, Option.bind_some, hg, List.length_append, Nat.add_assoc,
    getLast?_or_append]

theorem Steps.fails {α : Type} {h : Cursor → Cursor → Option α} (hf : Steps f w t)
    (hh : ∀ c, Fails (h c) t) : Fails (fun c => (f c).bind (h c)) (w ++ t) := by
  intro offset before
  dsimp only
  rw [hf, Option.bind_some, hh]

theorem Fails.bind {α β : Type} {f : Cursor → Option α} (hf : Fails f t)
    (g : Cursor → α → Option β) : Fails (fun c => (f c).bind (g c)) t := by
  intro offset before
  dsimp only
  rw [hf, Option.bind_none]

theorem Fails.map {α β : Type} {f : Cursor → Option α} (hf : Fails f t) (g : Cursor → α → β) :
    Fails (fun c => (f c).map (g c)) t := by
  intro offset before
  dsimp only
  rw [hf, Option.map_none]

theorem Steps.orElse (hf : Steps f w t) (g : Cursor → Option Cursor) :
    Steps (fun c => (f c).orElse fun _ => g c) w t := by
  intro offset before
  dsimp only
  rw [hf]
  rfl

theorem Fails.orElse_steps (hf : Fails f (w ++ t)) (hg : Steps g w t) :
    Steps (fun c => (f c).orElse fun _ => g c) w t := by
  intro offset before
  dsimp only
  rw [hf]
  exact hg offset before

theorem Fails.orElse {α : Type} {f g : Cursor → Option α} (hf : Fails f t) (hg : Fails g t) :
    Fails (fun c => (f c).orElse fun _ => g c) t := by
  intro offset before
  dsimp only
  rw [hf]
  exact hg offset before

theorem steps_char (x : Char) (t : Text) : Steps (char x) [x] t := by
  intro offset before
  simp [char]

theorem fails_char (h : y ≠ x) (t : Text) : Fails (char x) (y :: t) := by
  intro offset before
  simp [char, h]

theorem steps_literal (w t : Text) : Steps (literal w) w t := fun offset before =>
  Form.literal_append w offset before t

/-- What cannot begin with the first character of a word does not begin with the word. -/
theorem fails_literal (h : w.head? ≠ some x) (hw : w ≠ []) (t : Text) :
    Fails (literal w) (x :: t) := by
  obtain ⟨y, w, rfl⟩ := List.exists_cons_of_ne_nil hw
  have hxy : x ≠ y := fun heq => h (by rw [heq]; rfl)
  exact (fails_char hxy t).bind _

theorem steps_blanks (hne : w ≠ []) (hall : w.all Text.isBlank = true)
    (hz : Text.isBlank z = false) (t : Text) : Steps blanks1 w (z :: t) := by
  intro offset before
  obtain ⟨x, v, rfl⟩ := List.exists_cons_of_ne_nil hne
  have hx : Text.isBlank x = true := List.all_eq_true.mp hall x List.mem_cons_self
  rw [List.cons_append, blanks1, skip1]
  simp only [hx, if_true]
  exact congrArg some (skip_append hall hz offset before t)

theorem steps_blanks1 (hz : Text.isBlank z = false) (t : Text) : Steps blanks1 [' '] (z :: t) :=
  steps_blanks (by decide) (by decide) hz t

theorem fails_blanks1 (hx : Text.isBlank x = false) (t : Text) : Fails blanks1 (x :: t) := by
  intro offset before
  simp [blanks1, skip1, hx]

theorem blanks_of_not (hz : Text.isBlank z = false) (offset : Nat) (before : Option Char)
    (t : Text) : blanks ⟨offset, before, z :: t⟩ = ⟨offset, before, z :: t⟩ :=
  skip_of_not hz offset before t

theorem blanks_space (hz : Text.isBlank z = false) (offset : Nat) (before : Option Char)
    (t : Text) : blanks ⟨offset, before, ' ' :: z :: t⟩ = ⟨offset + 1, some ' ', z :: t⟩ := by
  have hall : ([' '] : Text).all Text.isBlank = true := by decide
  exact skip_append hall hz offset before t

/-- A step that is taken behind blanks. -/
theorem Steps.after_blank {w : Text} (hf : Steps f (z :: w) t) (hz : Text.isBlank z = false) :
    Steps (fun c => f c.blanks) (' ' :: z :: w) t := by
  intro offset before
  have hlength : offset + 1 + (z :: w).length = offset + (' ' :: z :: w).length := by
    simp only [List.length_cons]
    omega
  have hlast : (' ' :: z :: w).getLast?.or before = (z :: w).getLast?.or (some ' ') :=
    getLast?_or_append [' '] (z :: w) before
  dsimp only
  rw [List.cons_append, List.cons_append, blanks_space hz, ← List.cons_append, hf, hlength, hlast]

theorem Steps.no_blank {w : Text} (hf : Steps f (z :: w) t) (hz : Text.isBlank z = false) :
    Steps (fun c => f c.blanks) (z :: w) t := by
  intro offset before
  dsimp only
  rw [List.cons_append, blanks_of_not hz, ← List.cons_append, hf]

theorem Fails.after_blank {α : Type} {f : Cursor → Option α} (hf : Fails f (z :: t))
    (hz : Text.isBlank z = false) : Fails (fun c => f c.blanks) (' ' :: z :: t) := by
  intro offset before
  dsimp only
  rw [blanks_space hz, hf]

theorem Fails.no_blank {α : Type} {f : Cursor → Option α} (hf : Fails f (z :: t))
    (hz : Text.isBlank z = false) : Fails (fun c => f c.blanks) (z :: t) := by
  intro offset before
  dsimp only
  rw [blanks_of_not hz, hf]

theorem steps_wordGap (w : Text) (hz : Text.isBlank z = false) (t : Text) :
    Steps (wordGap w) (w ++ [' ']) (z :: t) :=
  (steps_literal w _).bind (steps_blanks1 hz t)

/-- A character after which a name goes on no further. -/
theorem steps_name (n : Identifier) (hx : Text.isName x = false) (t : Text) :
    Steps name n.text (x :: t) := by
  obtain ⟨y, w, hn, hy⟩ := n.exists_cons
  have hall := n.all
  rw [hn] at hall ⊢
  intro offset before
  rw [name, skip1, List.cons_append]
  simp only [hy, if_true]
  exact congrArg some (skip_append hall hx offset before t)

theorem fails_name (hx : Text.isName x = false) (t : Text) : Fails name (x :: t) := by
  intro offset before
  simp [name, skip1, hx]

/-- Items in braces are passed over whole. -/
theorem steps_braces {separator : Text} (hs : '}' ∉ separator) (items : List BoundItem) (t : Text) :
    Steps braces (BoundItem.printList separator items) t := by
  let inside : Text := ' ' :: (BoundItem.printItems separator items ++ [' '])
  have hinside : inside.all (· != '}') = true := by
    rw [List.all_eq_true]
    intro x hx
    have hne : x ≠ '}' := by
      rintro rfl
      have hitems := BoundItem.not_mem_printItems (x := '}') (by decide) (by decide) (by decide) hs
        items
      simp [inside, hitems] at hx
    simpa using hne
  have hrest : Steps (fun c => (c.skip (· != '}')).char '}') (inside ++ ['}']) t := by
    intro offset before
    dsimp only
    rw [List.append_assoc, List.singleton_append, skip_append hinside (by decide),
      List.length_append, ← Nat.add_assoc, getLast?_or_append]
    exact steps_char '}' t _ _
  have hprint : BoundItem.printList separator items = ['{'] ++ (inside ++ ['}']) := by
    simp [BoundItem.printList, inside]
  rw [hprint]
  exact (steps_char '{' _).bind hrest

/-- A word and the blank before a name. -/
theorem steps_wordGap_name (w : Text) (n : Identifier) (t : Text) :
    Steps (wordGap w) (w ++ [' ']) (n.text ++ t) := by
  obtain ⟨y, v, hn, hy⟩ := n.exists_cons
  rw [hn]
  exact steps_wordGap w (Text.not_isBlank_of_isName hy) _

/-- `* as n` is passed over. -/
theorem steps_everything (n : Identifier) (hx : Text.isName x = false) (t : Text) :
    Steps namespaceAs (ImportPart.everything n).print (x :: t) := by
  have hgap := (steps_wordGap_name Binding.asWord n (x :: t)).after_blank (by decide)
  have hname := hgap.bind (steps_name n hx t)
  exact (steps_char '*' _).bind hname

/-- What a part of a clause binds is passed over. -/
theorem steps_bound_part (p : ImportPart) (hx : Text.isName x = false) (t : Text) :
    Steps bound p.print (x :: t) := by
  cases p with
  | list items => exact (steps_braces (by decide) items _).orElse _
  | everything n =>
    have hbraces : Fails braces ((ImportPart.everything n).print ++ x :: t) :=
      (fails_char (by decide) _).bind _
    exact hbraces.orElse_steps ((steps_everything n hx t).orElse _)

theorem steps_bound_name (n : Identifier) (hx : Text.isName x = false) (t : Text) :
    Steps bound n.text (x :: t) := by
  obtain ⟨y, w, hn, hy⟩ := n.exists_cons
  have hbraces : Fails braces (n.text ++ x :: t) := by
    rw [hn]
    exact (fails_char (Text.ne_of_isName hy (by decide)) _).bind _
  have hstar : Fails namespaceAs (n.text ++ x :: t) := by
    rw [hn]
    exact (fails_char (Text.ne_of_isName hy (by decide)) _).bind _
  exact hbraces.orElse_steps (hstar.orElse_steps (steps_name n hx t))

/-- What an import binds, the word `from` and the blanks around it. -/
theorem steps_clauseEnd {w : Text} (hw : ∀ x t, Text.isName x = false → Steps bound w (x :: t))
    (hz : Text.isBlank z = false) (t : Text) :
    Steps clauseEnd (w ++ ' ' :: (Binding.fromWord ++ [' '])) (z :: t) := by
  have hfrom : Steps (fun c => (c.literal Binding.fromWord).map blanks) (Binding.fromWord ++ [' '])
      (z :: t) := by
    intro offset before
    dsimp only
    rw [List.append_assoc, steps_literal, Option.map_some, List.singleton_append, blanks_space hz]
    rfl
  have hend := (steps_blanks1 (z := 'f') (by decide) _).bind hfrom
  exact (hw ' ' _ (by decide)).bind hend

theorem exists_print_part (p : ImportPart) : ∃ y w, p.print = y :: w ∧ (y = '{' ∨ y = '*') := by
  cases p with
  | list items => exact ⟨'{', _, rfl, Or.inl rfl⟩
  | everything n => exact ⟨'*', _, rfl, Or.inr rfl⟩

theorem exists_print_clause (c : ImportClause) :
    ∃ y w, c.print = y :: w ∧ Text.isBlank y = false ∧ y ≠ '(' := by
  have hpart : ∀ p : ImportPart, ∃ y w, p.print = y :: w ∧ Text.isBlank y = false ∧ y ≠ '(' := by
    intro p
    obtain ⟨y, w, hp, hy⟩ := exists_print_part p
    refine ⟨y, w, hp, ?_⟩
    rcases hy with rfl | rfl <;> decide
  have hname : ∀ (n : Identifier) (t : Text), ∃ y w, n.text ++ t = y :: w ∧
      Text.isBlank y = false ∧ y ≠ '(' := by
    intro n t
    obtain ⟨y, w, hn, hy⟩ := n.exists_cons
    refine ⟨y, w ++ t, ?_, Text.not_isBlank_of_isName hy, Text.ne_of_isName hy (by decide)⟩
    rw [hn, List.cons_append]
  cases c with
  | name n => simpa [ImportClause.print] using hname n []
  | part p => exact hpart p
  | both n p => exact hname n _

theorem steps_clause_part (p : ImportPart) (hz : Text.isBlank z = false) (t : Text) :
    Steps clauseEnd (p.print ++ ' ' :: (Binding.fromWord ++ [' '])) (z :: t) :=
  steps_clauseEnd (fun _ _ hx => steps_bound_part p hx _) hz t

/-- An import clause is passed over. -/
theorem steps_clause (c : ImportClause) (hz : Text.isBlank z = false) (t : Text) :
    Steps clause (c.print ++ ' ' :: (Binding.fromWord ++ [' '])) (z :: t) := by
  cases c with
  | name n =>
    have hcomma : Fails (fun c => (c.blanks.char ',').bind fun c => clauseEnd c.blanks)
        (' ' :: (Binding.fromWord ++ [' ']) ++ z :: t) :=
      ((fails_char (by decide) _).after_blank (by decide)).bind _
    have hname := (steps_name (x := ' ') n (by decide) _).fails fun _ => hcomma
    have hend := steps_clauseEnd (fun _ _ hx => steps_bound_name n hx _) hz t
    refine Fails.orElse_steps ?_ hend
    rw [ImportClause.print, List.append_assoc]
    exact hname
  | part p =>
    obtain ⟨y, w, hp, hy⟩ := exists_print_part p
    have hname : Fails name (p.print ++ ' ' :: (Binding.fromWord ++ [' ']) ++ z :: t) := by
      rw [hp]
      refine fails_name ?_ _
      rcases hy with rfl | rfl <;> decide
    exact (hname.bind _).orElse_steps (steps_clause_part p hz t)
  | both n p =>
    obtain ⟨y, w, hp, hy⟩ := exists_print_part p
    have hblank : Text.isBlank y = false := by rcases hy with rfl | rfl <;> decide
    have hpart := steps_clause_part p hz t
    rw [hp, List.cons_append] at hpart
    have hcomma := ((steps_char ',' _).no_blank (by decide)).bind (hpart.after_blank hblank)
    have hboth := ((steps_name (x := ',') n (by decide) _).bind hcomma).orElse clauseEnd
    have htext : (n.text ++ ',' :: ' ' :: (y :: w)) ++ ' ' :: (Binding.fromWord ++ [' ']) =
        n.text ++ ([','] ++ ' ' :: y :: (w ++ ' ' :: (Binding.fromWord ++ [' ']))) := by simp
    rw [ImportClause.print, hp, htext]
    exact hboth

/-- What `require` is bound to is passed over. -/
theorem steps_target (target : RequireTarget) (t : Text) :
    Steps (fun c => c.name.orElse fun _ => braces c) target.print (' ' :: t) := by
  cases target with
  | name n => exact (steps_name n (by decide) t).orElse _
  | pattern items =>
    have hname : Fails name ((RequireTarget.pattern items).print ++ ' ' :: t) :=
      fails_name (by decide) _
    exact hname.orElse_steps (steps_braces (by decide) items _)

theorem exists_print_target (target : RequireTarget) :
    ∃ y w, target.print = y :: w ∧ Text.isBlank y = false := by
  cases target with
  | name n =>
    obtain ⟨y, w, hn, hy⟩ := n.exists_cons
    exact ⟨y, w, hn, Text.not_isBlank_of_isName hy⟩
  | pattern items => exact ⟨'{', _, rfl, by decide⟩

/-- The word that opens a declaration and the blank after it. -/
theorem steps_variableGap {w : Text} (hw : w ∈ variableWords) {z : Char}
    (hz : Text.isBlank z = false) (t : Text) :
    Steps (fun c => variableWords.findSome? fun w => wordGap w c) (w ++ [' ']) (z :: t) := by
  intro offset before
  have hgap := steps_wordGap w hz t offset before
  have hother : ∀ (v : Text) (x : Char) (u : Text), v.head? ≠ some x → v ≠ [] →
      wordGap v ⟨offset, before, x :: u⟩ = none := fun v x u hx hv =>
    (fails_literal hx hv u).bind (fun _ => blanks1) offset before
  have hwords : w = ['c', 'o', 'n', 's', 't'] ∨ w = ['l', 'e', 't'] ∨ w = ['v', 'a', 'r'] := by
    simpa [variableWords] using hw
  dsimp only [variableWords]
  -- No two of the words begin alike.
  rcases hwords with rfl | rfl | rfl
  · rw [List.findSome?_cons, hgap]
  · rw [List.findSome?_cons, List.cons_append, List.cons_append,
      hother _ 'l' _ (by decide) (by decide), List.findSome?_cons]
    rw [List.cons_append, List.cons_append] at hgap
    rw [hgap]
  · rw [List.findSome?_cons, List.cons_append, List.cons_append,
      hother _ 'v' _ (by decide) (by decide), List.findSome?_cons,
      hother _ 'v' _ (by decide) (by decide), List.findSome?_cons]
    rw [List.cons_append, List.cons_append] at hgap
    rw [hgap]

end Statement
end ModuleGraph
