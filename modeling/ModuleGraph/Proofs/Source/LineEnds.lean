import ModuleGraph.Proofs.Source.Leads
import ModuleGraph.Proofs.Text.Lines
import ModuleGraph.Proofs.Text.Twin

/-!
What is extracted from a text does not depend on the characters that its lines end in.

* `Binding.names_crlf`, `Binding.exportNames_crlf`: a clause binds the same names;
* `Twin.staticImport`, `Twin.exportList` and the like: a form is recognised at both of two
  corresponding places or at neither;
* `findImports_crlf`, `findExports_crlf`: the imports and exports are the same.
-/

namespace ModuleGraph

open Cursor
open Stretch (rel_bind rel_map rel_orElse rel_findSome? rel_getD)

theorem rel_getLast? {α β : Type} {r : α → β → Prop} {xs : List α} {ys : List β}
    (h : List.Forall₂ r xs ys) : Option.Rel r xs.getLast? ys.getLast? := by
  have hreverse := List.forall₂_reverse_iff.mpr h
  rw [← List.head?_reverse, ← List.head?_reverse]
  generalize xs.reverse = as at hreverse
  generalize ys.reverse = bs at hreverse
  cases hreverse with
  | nil => exact .none
  | cons hxy _ => exact .some hxy

namespace Cursor

variable {t : Text} {c d : Cursor}

theorem Twin.asSeparator (h : Twin t c d) :
    Option.Rel (Twin t) (Binding.asSeparator c) (Binding.asSeparator d) :=
  rel_bind (rel_bind h.blanks1 fun _ _ h => h.literal rfl) fun _ _ h => h.blanks1

theorem Twin.colonSeparator (h : Twin t c d) :
    Option.Rel (Twin t) (Binding.colonSeparator c) (Binding.colonSeparator d) :=
  rel_map (h.blanks.char rfl) fun _ _ h => h.blanks

theorem Twin.renameSeparator (h : Twin t c d) :
    Option.Rel (Twin t) (Binding.renameSeparator c) (Binding.renameSeparator d) :=
  rel_orElse h.asSeparator h.colonSeparator

end Cursor

/-- What follows the last separator. -/
theorem Text.afterLast_crlf {separator : Cursor → Option Cursor}
    (hends : TakesLineEnds separator id)
    (hstep : ∀ t c d, Twin t c d → Option.Rel (Twin t) (separator c) (separator d)) (t : Text) :
    afterLast separator t.crlf = (afterLast separator t).crlf := by
  have hrel := rel_getLast? (forall₂_findAll_crlf hends (hstep t) fun _ _ h => h)
  unfold afterLast
  dsimp only [id] at hrel
  generalize (findAll separator Cursor.offset t).getLast? = a at hrel ⊢
  generalize (findAll separator Cursor.offset t.crlf).getLast? = b at hrel ⊢
  cases hrel with
  | none => rfl
  | some h => exact h.rest_eq

namespace Binding

variable {t : Text} {c d : Cursor}

/-- A separator begins with a run of blanks, so with all of a line end. -/
theorem takesLineEnds_of_moves {separator : Cursor → Option Cursor}
    (hinside : ∀ offset before w, separator ⟨offset, before, '\r' :: '\n' :: w⟩ =
      separator ⟨offset + 1, some '\r', '\n' :: w⟩)
    (hmoves : ∀ c d, separator c = some d → Moves c.blanks d) :
    TakesLineEnds separator id where
  none_inside offset before w h := (hinside offset before w).symm.trans h
  le_stop offset before w d h := by
    obtain ⟨v, hv⟩ := hmoves _ _ h
    obtain ⟨u, hu, -⟩ := passes_skip Text.isBlank ⟨offset + 2, some '\n', w⟩
    have hblanks : (Cursor.blanks ⟨offset, before, '\r' :: '\n' :: w⟩).offset =
        offset + 2 + u.length := hu.offset_eq
    have hd := hv.offset_eq
    show offset + 2 ≤ d.offset
    omega

theorem moves_asSeparator (h : asSeparator c = some d) : Moves c.blanks d := by
  obtain ⟨e, he, h⟩ := Option.bind_eq_some_iff.mp h
  obtain ⟨b, hb, he⟩ := Option.bind_eq_some_iff.mp he
  have hblanks : b = c.blanks := by
    unfold Cursor.blanks1 Cursor.skip1 at hb
    split at hb
    · cases hb
    · split at hb
      · exact (Option.some.inj hb).symm
      · cases hb
  exact hblanks ▸ (moves_literal he).trans (moves_skip1 h)

theorem moves_colonSeparator (h : colonSeparator c = some d) : Moves c.blanks d := by
  obtain ⟨e, he, rfl⟩ := Option.map_eq_some_iff.mp h
  exact (moves_char he).trans (moves_skip _ e)

theorem takesLineEnds_asSeparator : TakesLineEnds asSeparator id :=
  takesLineEnds_of_moves (fun _ _ _ => rfl) fun _ _ => moves_asSeparator

theorem takesLineEnds_renameSeparator : TakesLineEnds renameSeparator id := by
  refine takesLineEnds_of_moves (fun _ _ _ => rfl) fun c d h => ?_
  rcases eq_some_of_orElse h with h | h
  · exact moves_asSeparator h
  · exact moves_colonSeparator h

theorem dropFrom_crlf (t : Text) : dropFrom t.crlf = (dropFrom t).crlf := by
  have hbefore : ∀ u : Text, (Text.replaceChar '\n' ['\n', '\r'] u).reverse = Text.crlf u.reverse :=
    fun u => Text.reverse_replaceChar '\n' ['\n', '\r'] u
  have hhead : ∀ u : Text, (Text.replaceChar '\n' ['\n', '\r'] u).head? = u.head? := by
    intro u
    cases u with
    | nil => rfl
    | cons x u => by_cases hx : x = '\n' <;> simp [Text.replaceChar_cons, hx]
  unfold dropFrom
  rw [Text.reverse_crlf, Text.after?_replaceChar (by decide) (by decide)]
  cases Text.after? fromWord.reverse t.reverse with
  | none => rfl
  | some before =>
    dsimp only [Option.map_some]
    rw [hhead, hbefore, Text.trimRight_crlf]
    split <;> rfl

theorem dropType_crlf (t : Text) : dropType t.crlf = (dropType t).crlf := by
  have hrel := rel_bind ((twin_start t).literal (w := typeWord) rfl) fun _ _ h => h.blanks1
  unfold dropType
  generalize ((start t).literal typeWord).bind _ = a at hrel ⊢
  generalize ((start t.crlf).literal typeWord).bind _ = b at hrel ⊢
  cases hrel with
  | none => rfl
  | some h => exact h.rest_eq

/-- An identifier holds no line end. -/
theorem identifier_crlf (t : Text) : (if t.crlf.isIdentifier then some t.crlf else none) =
    if t.isIdentifier then some t else none := by
  rw [Text.isIdentifier_crlf]
  split
  · rename_i h
    rw [Text.crlf_of_isIdentifier h]
  · rfl

theorem namespaceName_crlf (t : Text) : namespaceName t.crlf = namespaceName t := by
  have hrel := rel_bind (rel_bind ((twin_start t).char (x := '*') rfl) fun _ _ h =>
    h.blanks.literal (w := asWord) rfl) fun _ _ h => h.blanks1
  unfold namespaceName
  generalize (((start t).char '*').bind _).bind _ = a at hrel ⊢
  generalize (((start t.crlf).char '*').bind _).bind _ = b at hrel ⊢
  cases hrel with
  | none => rfl
  | some h =>
    dsimp only
    rw [h.rest_eq, identifier_crlf]

theorem headName_crlf (t : Text) : headName t.crlf = headName t := by
  rw [headName, headName, namespaceName_crlf, identifier_crlf]

theorem cutBraces_crlf (t : Text) :
    cutBraces t.crlf = ((cutBraces t).1.crlf, (cutBraces t).2.map Text.crlf) := by
  have hdrop : ∀ u : Text, u.crlf.drop ((Text.crlf (u.takeWhile (· != '{'))).length + 1) =
      Text.crlf (u.drop ((u.takeWhile (· != '{')).length + 1)) := by
    intro u
    induction u with
    | nil => rfl
    | cons x u ih =>
      by_cases hx : x = '{'
      · simp [hx, Text.crlf_cons]
      · by_cases hend : x = '\n'
        · simp [hend, Text.crlf_lineEnd, ih]
        · simp [hx, Text.crlf_cons hend, ih]
  simp only [cutBraces, hdrop, Text.takeWhile_crlf (p := (· != '{')) rfl,
    Text.takeWhile_crlf (p := (· != '}')) rfl, Text.mem_crlf (x := '{') (by decide),
    Text.mem_crlf (x := '}') (by decide)]
  split <;> rfl

theorem exportName_crlf (item : Text) : exportName item.crlf = exportName item := by
  simp only [exportName, Text.trim_crlf, dropType_crlf, Text.isEmpty_crlf,
    Text.afterLast_crlf takesLineEnds_asSeparator fun _ _ _ => Twin.asSeparator, identifier_crlf]

theorem itemName_crlf (item : Text) : itemName item.crlf = itemName item := by
  simp only [itemName, Text.trim_crlf, dropType_crlf, Text.isEmpty_crlf,
    Text.afterLast_crlf takesLineEnds_renameSeparator fun _ _ _ => Twin.renameSeparator,
    Text.takeWhile_crlf (p := (· != '=')) rfl, identifier_crlf]

theorem exportNames_crlf (list : Text) : exportNames list.crlf = exportNames list := by
  rw [exportNames, exportNames, Text.splitOn_crlf rfl, List.filterMap_map]
  exact List.filterMap_congr fun item _ => exportName_crlf item

theorem names_crlf (clause : Text) : names clause.crlf = names clause := by
  have hhead : ∀ ps : List Text, (ps.map Text.crlf).filterMap (fun part => headName part.trim) =
      ps.filterMap fun part => headName part.trim := by
    intro ps
    rw [List.filterMap_map]
    refine List.filterMap_congr fun part _ => ?_
    rw [Function.comp_apply, Text.trim_crlf, headName_crlf]
  simp only [names, Text.trim_crlf, dropFrom_crlf, cutBraces_crlf,
    Text.splitOn_crlf (c := ',') rfl, hhead]
  congr 1
  cases (cutBraces (dropFrom clause.trim)).2 with
  | none => rfl
  | some inner =>
    dsimp only [Option.map_some]
    rw [Text.splitOn_crlf rfl, List.filterMap_map]
    exact List.filterMap_congr fun item _ => itemName_crlf item

end Binding

namespace Cursor

variable {t w : Text} {c d e e' : Cursor} {p : Char → Bool}

/-- Two imports as found, with corresponding texts that bind names. -/
structure TwinFound (t : Text) (f g : Statement.Found) : Prop where
  binding : g.binding = f.binding.map Text.crlf
  quoted : TwinQuoted t f.quoted g.quoted
  stop : Twin t f.stop g.stop

theorem Twin.wordGap (h : Twin t c d) (hw : w.all Text.isInline = true) :
    Option.Rel (Twin t) (Statement.wordGap w c) (Statement.wordGap w d) :=
  rel_bind (h.literal hw) fun _ _ h => h.blanks1

theorem Twin.maybeGap (h : Twin t c d) (hw : w.all Text.isInline = true) :
    Twin t (Statement.maybeGap w c) (Statement.maybeGap w d) :=
  rel_getD (h.wordGap hw) h

theorem Twin.findSome?_wordGap (h : Twin t c d) {ws : List Text}
    (hws : ∀ w ∈ ws, w.all Text.isInline = true) :
    Option.Rel (Twin t) (ws.findSome? fun w => Statement.wordGap w c)
      (ws.findSome? fun w => Statement.wordGap w d) :=
  rel_findSome? (List.forall₂_same.mpr fun w hw => h.wordGap (hws w hw))

theorem Twin.braces (h : Twin t c d) :
    Option.Rel (Twin t) (Statement.braces c) (Statement.braces d) :=
  rel_bind (h.char rfl) fun _ _ h => (h.skip rfl).char rfl

theorem Twin.namespaceAs (h : Twin t c d) :
    Option.Rel (Twin t) (Statement.namespaceAs c) (Statement.namespaceAs d) :=
  rel_bind (h.char rfl) fun _ _ h => rel_bind (h.blanks.wordGap rfl) fun _ _ h => h.name

theorem Twin.bound (h : Twin t c d) :
    Option.Rel (Twin t) (Statement.bound c) (Statement.bound d) :=
  rel_orElse h.braces (rel_orElse h.namespaceAs h.name)

theorem Twin.clauseEnd (h : Twin t c d) :
    Option.Rel (Twin t) (Statement.clauseEnd c) (Statement.clauseEnd d) :=
  rel_bind h.bound fun _ _ h => rel_bind h.blanks1 fun _ _ h =>
    rel_map (h.literal rfl) fun _ _ h => h.blanks

theorem Twin.clause (h : Twin t c d) :
    Option.Rel (Twin t) (Statement.clause c) (Statement.clause d) :=
  rel_orElse
    (rel_bind h.name fun _ _ h => rel_bind (h.blanks.char rfl) fun _ _ h => h.blanks.clauseEnd)
    h.clauseEnd

theorem Twin.staticTail (h : Twin t c d) :
    Option.Rel (TwinFound t) (Statement.staticTail c) (Statement.staticTail d) :=
  rel_orElse
    (rel_bind h.clause fun _ _ he =>
      rel_map he.quoted fun _ _ hq => ⟨congrArg some (h.upTo he), hq, hq.stop⟩)
    (rel_map h.quoted fun _ _ hq => ⟨rfl, hq, hq.stop⟩)

theorem Twin.staticImport (h : Twin t c d) :
    Option.Rel (TwinFound t) (Statement.staticImport c) (Statement.staticImport d) :=
  rel_bind (rel_bind (h.word rfl) fun _ _ h => h.blanks1) fun _ _ h =>
    rel_orElse (rel_bind (h.wordGap rfl) fun _ _ h => h.staticTail) h.staticTail

theorem Twin.call (h : Twin t c d) :
    Option.Rel (TwinFound t) (Statement.call c) (Statement.call d) :=
  rel_bind (h.blanks.char rfl) fun _ _ h => rel_bind h.blanks.quoted fun _ _ hq =>
    rel_map (hq.stop.blanks.char rfl) fun _ _ h => ⟨rfl, hq, h⟩

theorem Twin.dynamicImport (h : Twin t c d) :
    Option.Rel (TwinFound t) (Statement.dynamicImport c) (Statement.dynamicImport d) :=
  rel_bind (h.word rfl) fun _ _ h => h.call

theorem Twin.requireCall (h : Twin t c d) :
    Option.Rel (TwinFound t) (Statement.requireCall c) (Statement.requireCall d) :=
  rel_bind (h.word rfl) fun _ _ h => h.call

theorem Twin.boundRequire (h : Twin t c d) :
    Option.Rel (TwinFound t) (Statement.boundRequire c) (Statement.boundRequire d) := by
  unfold Statement.boundRequire
  rw [h.insideWord_eq]
  split
  · exact .none
  · exact rel_bind (h.findSome?_wordGap (by decide)) fun _ _ h =>
      rel_bind (rel_orElse h.name h.braces) fun _ _ he =>
        rel_bind (he.blanks.char rfl) fun _ _ hd =>
          rel_map hd.blanks.requireCall fun _ _ hf =>
            ⟨congrArg some (h.upTo he), hf.quoted, hf.stop⟩

theorem Twin.requireImport (h : Twin t c d) :
    Option.Rel (TwinFound t) (Statement.requireImport c) (Statement.requireImport d) :=
  rel_orElse h.boundRequire h.requireCall

theorem Twin.exportGap (h : Twin t c d) :
    Option.Rel (Twin t) (Statement.exportGap c) (Statement.exportGap d) :=
  rel_bind (h.word rfl) fun _ _ h => h.blanks1

theorem Twin.functionGap (h : Twin t c d) :
    Option.Rel (Twin t) (Statement.functionGap c) (Statement.functionGap d) :=
  rel_bind (h.literal rfl) fun _ _ h =>
    rel_orElse (rel_bind (h.blanks.char rfl) fun _ _ h => h.blanks1) h.blanks1

theorem Twin.foldl_maybeGap (h : Twin t c d) {ws : List Text}
    (hws : ∀ w ∈ ws, w.all Text.isInline = true) :
    Twin t (ws.foldl (fun c w => Statement.maybeGap w c) c)
      (ws.foldl (fun c w => Statement.maybeGap w c) d) := by
  induction ws generalizing c d with
  | nil => exact h
  | cons w ws ih =>
    exact ih (h.maybeGap (hws w List.mem_cons_self)) fun v hv => hws v (List.mem_cons_of_mem _ hv)

/-- Two exported names as found. -/
structure TwinNamed (t : Text) (m n : Statement.Named) : Prop where
  place : Twin t m.place n.place
  name : n.name = m.name
  stop : Twin t m.stop n.stop

/-- The text of a run that ends at a line end. -/
theorem Twin.upTo_of_all (h : Twin t c d) (he : Twin t e e') (hw : Passes c w e)
    (hall : w.all p = true) (hp : p '\n' = false) : d.upTo e' = c.upTo e := by
  rw [h.upTo he, hw.upTo_eq]
  refine Text.crlf_of_not_mem fun hmem => ?_
  have hend := List.all_eq_true.mp hall _ hmem
  rw [hp] at hend
  cases hend

theorem Twin.exportDeclaration (h : Twin t c d) :
    Option.Rel (TwinNamed t) (Statement.exportDeclaration c) (Statement.exportDeclaration d) :=
  rel_bind h.exportGap fun c d h => by
    have hwords : ∀ w ∈ Statement.modifierWords, w.all Text.isInline = true := by decide
    have h := h.foldl_maybeGap hwords
    refine rel_bind (rel_orElse h.functionGap (h.findSome?_wordGap (by decide))) fun c d h => ?_
    have hname := h.name
    cases hc : c.name with
    | none =>
      rw [hc] at hname
      generalize d.name = b at hname ⊢
      cases hname
      exact .none
    | some e =>
      obtain ⟨w, hw, hall⟩ := passes_skip1 hc
      rw [hc] at hname
      generalize d.name = b at hname ⊢
      cases hname with
      | some he => exact .some ⟨h, h.upTo_of_all he hw hall (by decide), he⟩

theorem Twin.exportDefault (h : Twin t c d) :
    Option.Rel (fun x y => Twin t x.1 y.1 ∧ Twin t x.2 y.2) (Statement.exportDefault c)
      (Statement.exportDefault d) :=
  rel_bind (rel_bind h.exportGap fun _ _ h => h.literal rfl) fun c' d' h' => by
    rw [h'.rest_eq, Text.any_head?_crlf (by decide)]
    split
    · exact .none
    · exact .some ⟨h, h'⟩

theorem Twin.origin (h : Twin t c d) :
    Option.Rel (TwinQuoted t) (Statement.origin c) (Statement.origin d) :=
  rel_bind (h.blanks.literal rfl) fun _ _ h => h.blanks.quoted

/-- Two export lists as found, with corresponding texts in the braces. -/
structure TwinListed (t : Text) (l m : Statement.Listed) : Prop where
  place : Twin t l.place m.place
  names : m.names = l.names.crlf
  origin : Option.Rel (TwinQuoted t) l.origin m.origin
  stop : Twin t l.stop m.stop

theorem Twin.exportList (h : Twin t c d) :
    Option.Rel (TwinListed t) (Statement.exportList c) (Statement.exportList d) := by
  refine rel_bind h.exportGap fun _ _ hgap => rel_bind ((hgap.maybeGap rfl).char rfl)
    fun _ _ hopen => rel_map ((hopen.skip rfl).char rfl) fun e e' hend => ?_
  have hnames := hopen.upTo (hopen.skip (p := (· != '}')) rfl)
  have horigin := hend.origin
  generalize Statement.origin e = a at horigin
  generalize Statement.origin e' = b at horigin
  cases horigin with
  | none => exact ⟨h, hnames, .none, hend⟩
  | some hq => exact ⟨h, hnames, .some hq, hq.stop⟩

/-- The ends of a run that ends at a line end, with the texts up to them. -/
theorem Twin.runEnds (hr : p '\r' = false) (hn : p '\n' = false) (h : Twin t c d) :
    List.Forall₂ (fun e e' => Twin t e e' ∧ d.upTo e' = c.upTo e)
      (Statement.runEnds p c.offset c.rest []) (Statement.runEnds p d.offset d.rest []) := by
  have hends : ∀ (u v : Text) (a b : Cursor) (xs ys : List Cursor), a.rest = u → Twin t a b →
      Passes c v a → v.all p = true →
      List.Forall₂ (fun e e' => Twin t e e' ∧ d.upTo e' = c.upTo e) xs ys →
      List.Forall₂ (fun e e' => Twin t e e' ∧ d.upTo e' = c.upTo e)
        (Statement.runEnds p a.offset a.rest xs) (Statement.runEnds p b.offset b.rest ys) := by
    intro u
    induction u with
    | nil =>
      intro v a b xs ys hu hab _ _ hxy
      rw [hab.rest_eq, hu]
      exact hxy
    | cons x u ih =>
      intro v a b xs ys hu hab hv hall hxy
      by_cases hx : p x = true
      · have hne : x ≠ '\n' := by
          rintro rfl
          rw [hn] at hx
          cases hx
        have hb : b.rest = x :: Text.crlf u := by rw [hab.rest_eq, hu, Text.crlf_cons hne]
        have hsame : Text.crlf [x] = [x] := Text.crlf_cons hne []
        have hstep : Passes a [x] ⟨a.offset + 1, some x, u⟩ := ⟨hu, rfl, rfl⟩
        have hstep' : Passes b [x] ⟨b.offset + 1, some x, Text.crlf u⟩ := ⟨hb, rfl, rfl⟩
        have hnext := hab.step hstep (hsame.symm ▸ hstep')
        have hallx : (v ++ [x]).all p = true := by simp [hall, hx]
        rw [hu, hb, Statement.runEnds, Statement.runEnds, if_pos hx, if_pos hx]
        exact ih (v ++ [x]) _ _ _ _ rfl hnext (hv.trans hstep) hallx
          (.cons ⟨hnext, h.upTo_of_all hnext (hv.trans hstep) hallx hn⟩ hxy)
      · rw [Bool.not_eq_true] at hx
        have hstops : ∀ (y : Char) (z : Text) (k : Nat) (zs : List Cursor), p y = false →
            Statement.runEnds p k (y :: z) zs = zs := by
          intro y z k zs hy
          rw [Statement.runEnds, hy]
          rfl
        rw [hu, hstops x u _ _ hx]
        by_cases hend : x = '\n'
        · rw [hab.rest_eq, hu, hend, Text.crlf_lineEnd, hstops _ _ _ _ hr]
          exact hxy
        · rw [hab.rest_eq, hu, Text.crlf_cons hend, hstops _ _ _ _ hx]
          exact hxy
  exact hends c.rest [] c d [] [] rfl h (.refl c) rfl .nil

/-- Two exports of all names as found. -/
structure TwinStarred (t : Text) (x y : Statement.Starred) : Prop where
  place : Twin t x.place y.place
  name : y.name = x.name
  origin : TwinQuoted t x.origin y.origin

theorem Twin.starName (h : Twin t c d) :
    Option.Rel (fun x y => y.1 = x.1 ∧ TwinQuoted t x.2 y.2) (Statement.starName c)
      (Statement.starName d) :=
  rel_bind (h.blanks.wordGap rfl) fun _ _ h => by
    have hends := h.runEnds (p := Text.isName) (by decide) (by decide)
    refine rel_findSome? (hends.imp fun e e' he => ?_)
    exact rel_map he.1.origin fun _ _ hq => ⟨he.2, hq⟩

theorem Twin.exportStar (h : Twin t c d) :
    Option.Rel (TwinStarred t) (Statement.exportStar c) (Statement.exportStar d) :=
  rel_bind h.exportGap fun _ _ hgap => rel_bind ((hgap.maybeGap rfl).char rfl) fun _ _ he =>
    rel_orElse (rel_map he.starName fun _ _ hname => ⟨h, congrArg some hname.1, hname.2⟩)
      (rel_map he.origin fun _ _ hq => ⟨h, rfl, hq⟩)

end Cursor

/-- A statement does not begin at a line end. -/
theorem Statement.Opens.takesLineEnds {α : Type} {recognise : Cursor → Option α}
    (ho : Opens recognise) (stop : α → Cursor) : TakesLineEnds recognise stop := by
  have hfirst : ∀ v ∈ openingWords, v ≠ [] ∧ v.head?.any Text.isBlank = false := by decide
  have hnone : ∀ offset before x w, Text.isBlank x = true →
      recognise ⟨offset, before, x :: w⟩ = none := by
    intro offset before x w hx
    rw [Option.eq_none_iff_forall_ne_some]
    intro a ha
    obtain ⟨v, hv, y, back, hrest, -⟩ := ho _ a ha
    obtain ⟨hne, hblank⟩ := hfirst v hv
    obtain ⟨z, v, rfl⟩ := List.exists_cons_of_ne_nil hne
    obtain ⟨rfl, -⟩ := List.cons_eq_cons.mp hrest
    rw [List.head?_cons, Option.any_some, hx] at hblank
    cases hblank
  constructor
  · intro offset before w _
    exact hnone _ _ _ _ rfl
  · intro offset before w a ha
    rw [hnone _ _ _ _ rfl] at ha
    cases ha

namespace Cursor

variable {t : Text}

/-- The offsets of two corresponding places. -/
def TwinOffset (t : Text) (m n : Nat) : Prop := ∃ c d, Twin t c d ∧ m = c.offset ∧ n = d.offset

theorem TwinOffset.le_iff (m n m' n' : Nat) (h : TwinOffset t m n) (h' : TwinOffset t m' n') :
    m ≤ m' ↔ n ≤ n' := by
  obtain ⟨c, d, hcd, rfl, rfl⟩ := h
  obtain ⟨c', d', hcd', rfl, rfl⟩ := h'
  exact hcd.offset_le_iff hcd'

/-- The line ends before two corresponding places are as many. -/
theorem Twin.lineOf_eq {c d : Cursor} (h : Twin t c d) :
    (LineIndex.ofText t.crlf).lineOf d.offset = (LineIndex.ofText t).lineOf c.offset := by
  obtain ⟨front, hc, hd⟩ := h
  have htake : ∀ {u v : Text} {e : Cursor}, Passes (start u) v e → u.take e.offset = v := by
    intro u v e he
    have hrest : u = v ++ e.rest := he.rest_eq
    have hoffset : e.offset = v.length := by simpa [start] using he.offset_eq
    rw [hoffset, hrest, List.take_left]
  rw [LineIndex.lineOf_ofText, LineIndex.lineOf_ofText, htake hc, htake hd, Text.count_crlf]

end Cursor

/-- Found at corresponding places, the same thing comes at the same place of the order. -/
theorem inOrder_crlf {α : Type} {t : Text} {xs ys : List (Nat × α)}
    (h : List.Forall₂ (fun x y => TwinOffset t x.1 y.1 ∧ x.2 = y.2) xs ys) :
    inOrder ys = inOrder xs := by
  have hrel := forall₂_inOrder TwinOffset.le_iff h
  rw [List.forall₂_eq_eq_eq] at hrel
  exact hrel.symm

theorem importsOf_crlf (marks : List Text) (t : Text) (kind : ImportKind) :
    List.Forall₂ (fun x y => TwinOffset t x.1 y.1 ∧ x.2 = y.2)
      (Source.importsOf marks (LineIndex.ofText t) t kind)
      (Source.importsOf marks (LineIndex.ofText t.crlf) t.crlf kind) := by
  have hfound : ∀ f g, TwinFound t f g →
      TwinOffset t (Import.ofFound marks (LineIndex.ofText t) kind f).1
        (Import.ofFound marks (LineIndex.ofText t.crlf) kind g).1 ∧
      (Import.ofFound marks (LineIndex.ofText t) kind f).2 =
        (Import.ofFound marks (LineIndex.ofText t.crlf) kind g).2 := by
    intro f g h
    refine ⟨⟨_, _, h.quoted.inside, rfl, rfl⟩, ?_⟩
    have hbindings : (g.binding.map Binding.names).getD [] =
        (f.binding.map Binding.names).getD [] := by
      rw [h.binding, Option.map_map]
      congr 2
      funext clause
      exact Binding.names_crlf clause
    simp only [Import.ofFound, h.quoted.text, h.quoted.inside.lineOf_eq, hbindings]
  have hstep : ∀ c d, Twin t c d →
      Option.Rel (TwinFound t) (kind.recognise c) (kind.recognise d) := by
    intro c d h
    cases kind with
    | static => exact h.staticImport
    | dynamic => exact h.dynamicImport
    | require => exact h.requireImport
  have hends := kind.opens_recognise.takesLineEnds (·.stop)
  rw [Source.importsOf_eq, Source.importsOf_eq, List.forall₂_map_left_iff,
    List.forall₂_map_right_iff]
  exact (forall₂_findAll_crlf hends hstep fun _ _ h => h.stop).imp hfound

/-- The imports of a text do not depend on how its lines end. -/
theorem findImports_crlf (marks : List Text) (t : Text) :
    Source.findImports marks t.crlf = Source.findImports marks t := by
  refine inOrder_crlf (t := t) ?_
  exact List.rel_flatMap (List.forall₂_same.mpr fun kind _ => rfl) fun kind kind' hkind => by
    subst hkind
    exact importsOf_crlf marks t kind

/-- The exports of a text do not depend on how its lines end. -/
theorem findExports_crlf (t : Text) : Source.findExports t.crlf = Source.findExports t := by
  refine inOrder_crlf (t := t) ?_
  refine List.rel_append (List.rel_append (List.rel_append ?_ ?_) ?_) ?_
  · rw [Export.declared, Export.declared, List.forall₂_map_left_iff, List.forall₂_map_right_iff]
    have hfinds := forall₂_findAll_crlf (t := t)
      (Statement.opens_exportDeclaration.takesLineEnds _)
      (fun _ _ h => h.exportDeclaration) fun _ _ h => h.stop
    refine hfinds.imp fun m n h => ⟨⟨_, _, h.place, rfl, rfl⟩, ?_⟩
    rw [h.name, h.place.lineOf_eq]
  · rw [Export.defaults, Export.defaults, List.forall₂_map_left_iff, List.forall₂_map_right_iff]
    have hfinds := forall₂_findAll_crlf (t := t) (Statement.opens_exportDefault.takesLineEnds _)
      (fun _ _ h => h.exportDefault) fun _ _ h => h.2
    refine hfinds.imp ?_
    rintro ⟨c, e⟩ ⟨c', e'⟩ ⟨hc, -⟩
    refine ⟨⟨_, _, hc, rfl, rfl⟩, ?_⟩
    dsimp only at hc ⊢
    rw [hc.lineOf_eq]
  · refine List.rel_flatMap (forall₂_findAll_crlf (Statement.opens_exportList.takesLineEnds _)
      (fun _ _ h => h.exportList) fun _ _ h => h.stop) fun l m h => ?_
    obtain ⟨hplace, hnames, horigin, -⟩ := h
    dsimp only
    rw [hnames, Binding.exportNames_crlf, List.forall₂_map_left_iff, List.forall₂_map_right_iff,
      List.forall₂_same]
    intro name _
    refine ⟨⟨_, _, hplace, rfl, rfl⟩, ?_⟩
    generalize l.origin = a at horigin ⊢
    generalize m.origin = b at horigin ⊢
    cases horigin with
    | none => simp only [hplace.lineOf_eq]
    | some hq => simp only [hq.text, hq.inside.lineOf_eq, Option.map_some, Option.isSome_some]
  · rw [Export.starred, Export.starred, List.forall₂_map_left_iff, List.forall₂_map_right_iff]
    have hfinds := forall₂_findAll_crlf (t := t) (Statement.opens_exportStar.takesLineEnds _)
      (fun _ _ h => h.exportStar) fun _ _ h => h.origin.stop
    refine hfinds.imp fun x y h => ⟨⟨_, _, h.place, rfl, rfl⟩, ?_⟩
    rw [h.name, h.origin.text, h.origin.inside.lineOf_eq]

end ModuleGraph
