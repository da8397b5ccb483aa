import ModuleGraph.Proofs.Respell.Printing
import ModuleGraph.Proofs.Source.Silent

/-!
The names in a printed clause.

* `Binding.Clause`: an import clause or a destructuring pattern, with the blanks between its
  tokens; `Clause.print` writes it and `Clause.bound` lists the names it binds;
* `steps_typeGap`, `fails_typeGap_mark`: where the word `type` is cut off an item;
* `afterLast_of_dead`, `afterLast_of_found`: what stands behind the last separator of an item;
* `ImportItem.itemName_print`, `PatternItem.itemName_print`: an item is read as the name it binds,
  unless its own name is taken for the word `type`;
* `names_print`: so the names of a clause are those it binds just when it has no such item.
-/

namespace ModuleGraph

open Cursor Statement

/-- At least one blank. -/
abbrev Blanks := { g : Gap // g.1 ≠ [] }

namespace Binding

/-- `x`, `x as y`, `type x` or `type x as y`, as it stands between two commas. -/
structure ImportItem where
  before : Gap
  /-- The blanks after the word `type`, if that stands in front. -/
  typed : Option Blanks
  name : Identifier
  /-- The new name, and the blanks before and after the word `as`. -/
  renamed : Option (Blanks × Blanks × Identifier)
  after : Gap

/-- `x` or `x: y`, with a default or without, as it stands between two commas. -/
structure PatternItem where
  before : Gap
  name : Identifier
  /-- The new name, and the blanks before and after the colon. -/
  renamed : Option (Gap × Gap × Identifier)
  /-- The default, and the blanks before and after the sign `=`. -/
  fallback : Option (Gap × Gap × Identifier)
  after : Gap

/-- `* as n`, or items in braces; the blanks count if there is no item. -/
inductive Part
  | everything (star : Gap) (turn : Blanks) (name : Identifier)
  | list (blanks : Gap) (items : List ImportItem)

/-- What an import clause has before the word `from`. The blanks of the last form stand around the
comma. -/
inductive Imported
  | name (name : Identifier)
  | part (part : Part)
  | both (name : Identifier) (before after : Gap) (part : Part)

/-- An import clause, with the blanks before the word `from`, or a destructuring pattern. -/
inductive Clause
  | imported (names : Imported) (turn : Blanks)
  | pattern (blanks : Gap) (items : List PatternItem)

namespace ImportItem

variable (i : ImportItem)

/-- The item from its own name on. -/
def main : Text :=
  i.name.text ++ match i.renamed with
    | none => []
    | some (u, v, n) => u.1.1 ++ (asWord ++ (v.1.1 ++ n.text))

def print : Text :=
  i.before.1 ++ ((match i.typed with
    | none => []
    | some g => typeWord ++ g.1.1) ++ i.main ++ i.after.1)

/-- The name that the item binds. -/
def bound : Identifier :=
  match i.renamed with
  | none => i.name
  | some (_, _, n) => n

/-- The item is `type as y`, where `type` is the name that is imported. -/
def Mistaken : Prop := i.typed = none ∧ i.name.text = typeWord ∧ i.renamed ≠ none

end ImportItem

/-- A default behind a name. -/
def printFallback : Option (Gap × Gap × Identifier) → Text
  | none => []
  | some (u, v, n) => u.1 ++ '=' :: (v.1 ++ n.text)

namespace PatternItem

variable (i : PatternItem)

/-- The item without the blanks around it. -/
def main : Text :=
  i.name.text ++ match i.renamed with
    | none => printFallback i.fallback
    | some (u, v, n) => u.1 ++ ':' :: (v.1 ++ (n.text ++ printFallback i.fallback))

def print : Text := i.before.1 ++ (i.main ++ i.after.1)

/-- The name that the item binds. -/
def bound : Identifier :=
  match i.renamed with
  | none => i.name
  | some (_, _, n) => n

/-- The item is `type` with a default after a blank. -/
def Mistaken : Prop :=
  i.name.text = typeWord ∧ i.renamed = none ∧ ∃ d ∈ i.fallback, d.1.1 ≠ []

end PatternItem

/-- What stands between braces: the items with commas between them, or blanks. -/
def printItems {α : Type} (print : α → Text) (blanks : Gap) : List α → Text
  | [] => blanks.1
  | i :: rest => Text.join [','] ((i :: rest).map print)

namespace Part

def print : Part → Text
  | .everything star turn n => '*' :: (star.1 ++ (asWord ++ (turn.1.1 ++ n.text)))
  | .list blanks items => '{' :: (printItems ImportItem.print blanks items ++ ['}'])

def bound : Part → List Text
  | .everything _ _ n => [n.text]
  | .list _ items => items.map (·.bound.text)

def Told : Part → Prop
  | .everything .. => True
  | .list _ items => ∀ i ∈ items, ¬ i.Mistaken

end Part

namespace Imported

def print : Imported → Text
  | .name n => n.text
  | .part p => p.print
  | .both n u v p => n.text ++ (u.1 ++ ',' :: (v.1 ++ p.print))

def bound : Imported → List Text
  | .name n => [n.text]
  | .part p => p.bound
  | .both n _ _ p => n.text :: p.bound

def Told : Imported → Prop
  | .name _ => True
  | .part p | .both _ _ _ p => p.Told

end Imported

namespace Clause

def print : Clause → Text
  | .imported names turn => names.print ++ (turn.1.1 ++ fromWord)
  | .pattern blanks items => '{' :: (printItems PatternItem.print blanks items ++ ['}'])

/-- The local names that the clause binds, left to right. -/
def bound : Clause → List Text
  | .imported names _ => names.bound
  | .pattern _ items => items.map (·.bound.text)

/-- No name in the clause is taken for the word `type`. -/
def Told : Clause → Prop
  | .imported names _ => names.Told
  | .pattern _ items => ∀ i ∈ items, ¬ i.Mistaken

end Clause

end Binding

namespace Text

variable {g h t u v w : Text}

/-- There is something in the text, and no blank at either end of it. -/
structure Solid (t : Text) : Prop where
  ne_nil : t ≠ []
  first : t.head?.any isBlank = false
  last : t.getLast?.any isBlank = false

theorem Solid.trim_eq (ht : Solid t) : t.trim = t := trim_of_ends ht.first ht.last

/-- What stands between two such texts does not count. -/
theorem Solid.between (hu : Solid u) (hv : Solid v) (w : Text) : Solid (u ++ (w ++ v)) where
  ne_nil := List.append_ne_nil_of_left_ne_nil hu.ne_nil _
  first := by
    rw [List.head?_append_of_ne_nil _ hu.ne_nil]
    exact hu.first
  last := by
    rw [← List.append_assoc, List.getLast?_append_of_ne_nil _ hv.ne_nil]
    exact hv.last

theorem solid_singleton {x : Char} (hx : isBlank x = false) : Solid [x] :=
  ⟨by simp, by simpa using hx, by simpa using hx⟩

theorem solid_of_names (hne : w ≠ []) (hall : w.all isName = true) : Solid w := by
  have hblank : ∀ x ∈ w, isBlank x = false := fun x hx =>
    not_isBlank_of_isName (List.all_eq_true.mp hall x hx)
  refine ⟨hne, ?_, ?_⟩
  · rw [Option.any_eq_false]
    exact fun x hx => by simp [hblank x (List.mem_of_mem_head? hx)]
  · rw [Option.any_eq_false]
    exact fun x hx => by simp [hblank x (List.mem_of_getLast? hx)]

theorem Solid.exists_cons (ht : Solid t) : ∃ x w, t = x :: w ∧ isBlank x = false := by
  obtain ⟨x, w, rfl⟩ := List.exists_cons_of_ne_nil ht.ne_nil
  exact ⟨x, w, rfl, by simpa using ht.first⟩

theorem dropWhile_gap (hg : g.all isBlank = true) (ht : t.head?.any isBlank = false) :
    (g ++ t).dropWhile isBlank = t := by
  rw [List.dropWhile_append_of_pos (List.all_eq_true.mp hg)]
  cases t with
  | nil => rfl
  | cons x t => exact List.dropWhile_cons_of_neg (by simpa using ht)

/-- Blanks around a text are cut off. -/
theorem Solid.trim_append (ht : Solid t) (hg : g.all isBlank = true) (hh : h.all isBlank = true) :
    (g ++ (t ++ h)).trim = t := by
  have hfirst : (t ++ h).head?.any isBlank = false := by
    rw [List.head?_append_of_ne_nil _ ht.ne_nil]
    exact ht.first
  have hreverse : h.reverse.all isBlank = true := by rwa [List.all_reverse]
  have hlast : t.reverse.head?.any isBlank = false := by
    rw [List.head?_reverse]
    exact ht.last
  rw [trim, dropWhile_gap hg hfirst, trimRight, List.reverse_append, dropWhile_gap hreverse hlast,
    List.reverse_reverse]

theorem trim_blanks (hg : g.all isBlank = true) : g.trim = [] := by
  have hdrop := dropWhile_gap hg (t := []) rfl
  rw [List.append_nil] at hdrop
  rw [trim, hdrop]
  rfl

end Text

theorem Text.not_mem_of_names {w : Text} {x : Char} (hw : w.all isName = true)
    (hx : isName x = false) : x ∉ w :=
  fun hmem => ne_of_isName (List.all_eq_true.mp hw x hmem) hx rfl

theorem Identifier.not_mem (n : Identifier) {x : Char} (hx : Text.isName x = false) :
    x ∉ n.text := Text.not_mem_of_names n.all hx

theorem Gap.not_mem (g : Gap) {x : Char} (hx : Text.isBlank x = false) : x ∉ g.1 := fun hmem => by
  rw [List.all_eq_true.mp g.2 x hmem] at hx
  cases hx

theorem Identifier.solid (n : Identifier) : Text.Solid n.text :=
  Text.solid_of_names n.ne_nil n.all

namespace Binding

variable {g r t u v w : Text} {x : Char}

/-! ### The word `type` -/

theorem steps_typeGap (hne : g ≠ []) (hall : g.all Text.isBlank = true)
    (hx : Text.isBlank x = false) (t : Text) : Steps (wordGap typeWord) (typeWord ++ g) (x :: t) :=
  (steps_literal typeWord _).bind (steps_blanks hne hall hx t)

theorem dropType_of_steps (h : Steps (wordGap typeWord) w t) : dropType (w ++ t) = t := by
  have hstep : (literal typeWord (start (w ++ t))).bind blanks1 = _ := h 0 none
  rw [dropType, hstep]

theorem dropType_of_fails (h : Fails (wordGap typeWord) t) : dropType t = t := by
  have hnone : (literal typeWord (start t)).bind blanks1 = none := h 0 none
  rw [dropType, hnone]

/-- A name at the end of a text is not followed by a blank. -/
theorem fails_wordGap_end (w : Text) (n : Identifier) : Fails (wordGap w) n.text := by
  intro offset before
  rw [Option.eq_none_iff_forall_ne_some]
  intro d hd
  obtain ⟨c, hc, hd⟩ := Option.bind_eq_some_iff.mp hd
  obtain ⟨x, back, hrest, hx⟩ := blank_of_blanks1 hd
  have htext : n.text = w ++ c.rest := (passes_literal hc).rest_eq
  have hmem : x ∈ n.text := by simp [htext, hrest]
  have hname := n.isName_of_mem hmem
  rw [Text.not_isName_of_isBlank hx] at hname
  cases hname

/-- A name that is not the word is kept before any mark, and so is the word if no blank stands
between. -/
theorem fails_typeGap_mark (n : Identifier) (g : Gap) (hx : Text.isName x = false)
    (hblank : Text.isBlank x = false) (h : n.text = typeWord → g.1 = []) (t : Text) :
    Fails (wordGap typeWord) (n.text ++ (g.1 ++ x :: t)) := by
  cases hg : g.1 with
  | nil => exact fails_wordGap_name (by decide) n hx (fun _ => hblank) t
  | cons y w =>
    have hy : Text.isBlank y = true := List.all_eq_true.mp g.2 y (by simp [hg])
    have hname : n.text ≠ typeWord := fun htype => by simp [h htype] at hg
    exact fails_wordGap_name (by decide) n (Text.not_isName_of_isBlank hy)
      (fun htype => absurd htype hname) _

/-! ### What stands between two names -/

theorem steps_asSeparator (s u : Blanks) (hx : Text.isBlank x = false) (t : Text) :
    Steps renameSeparator (s.1.1 ++ (asWord ++ u.1.1)) (x :: t) := by
  have hword := (steps_literal asWord (u.1.1 ++ x :: t)).bind (steps_blanks u.2 u.1.2 hx t)
  have hblanks : Steps blanks1 s.1.1 (asWord ++ u.1.1 ++ x :: t) :=
    steps_blanks (z := 'a') s.2 s.1.2 (by decide) _
  have hall := hblanks.bind hword
  refine Steps.orElse ?_ colonSeparator
  intro offset before
  rw [asSeparator, Option.bind_assoc]
  exact hall offset before

/-- A colon is no separator of the other kind, whatever blanks stand before it. -/
theorem fails_asSeparator_colon (g : Gap) (t : Text) : Fails asSeparator (g.1 ++ ':' :: t) := by
  have hword : Fails (wordGap asWord) (':' :: t) :=
    (fails_literal (by decide) (by decide) t).bind _
  intro offset before
  rw [asSeparator, Option.bind_assoc]
  by_cases hg : g.1 = []
  · have hblanks : Fails blanks1 (':' :: t) := fails_blanks1 (by decide) t
    rw [hg]
    exact hblanks.bind (fun _ => wordGap asWord) offset before
  · have hblanks : Steps blanks1 g.1 (':' :: t) := steps_blanks hg g.2 (by decide) t
    exact hblanks.fails (fun _ => hword) offset before

theorem steps_colonSeparator (g h : Gap) (hx : Text.isBlank x = false) (t : Text) :
    Steps renameSeparator (g.1 ++ ':' :: h.1) (x :: t) := by
  refine Fails.orElse_steps ?_ ?_
  · rw [List.append_assoc, List.cons_append]
    exact fails_asSeparator_colon g _
  · intro offset before
    have hlength : offset + g.1.length + 1 + h.1.length = offset + (g.1 ++ ':' :: h.1).length := by
      simp only [List.length_append, List.length_cons]
      omega
    have hchar (d : Option Char) : char ':' ⟨offset + g.1.length, d, ':' :: (h.1 ++ x :: t)⟩ =
        some ⟨offset + g.1.length + 1, some ':', h.1 ++ x :: t⟩ := by simp [char]
    rw [colonSeparator, blanks, List.append_assoc, List.cons_append, skip_append g.2 (by decide),
      hchar, Option.map_some, blanks, skip_append h.2 hx, getLast?_or_append, getLast?_or_cons,
      hlength]

theorem fails_renameSeparator (hx : Text.isBlank x = false) (hne : x ≠ ':') (t : Text) :
    Fails renameSeparator (x :: t) := by
  refine Fails.orElse ?_ ?_
  · exact ((fails_blanks1 hx t).bind _).bind _
  · exact ((fails_char hne t).no_blank hx).map _

theorem dead_of_names (hw : w.all Text.isName = true) (t : Text) : Dead renameSeparator w t := by
  intro front x back hsplit
  have hname : Text.isName x = true := List.all_eq_true.mp hw x (by simp [hsplit])
  exact fails_renameSeparator (Text.not_isBlank_of_isName hname)
    (Text.ne_of_isName hname (by decide)) _

/-- In blanks no separator begins if none goes on behind them. -/
theorem dead_gap (hg : g.all Text.isBlank = true) (hx : Text.isBlank x = false) (hne : x ≠ ':')
    (has : Fails (wordGap asWord) (x :: t)) : Dead renameSeparator g (x :: t) := by
  intro front y back hsplit
  have hy : (y :: back).all Text.isBlank = true := by
    rw [hsplit, List.all_append, Bool.and_eq_true] at hg
    exact hg.2
  refine Fails.orElse ?_ ?_
  · intro offset before
    rw [asSeparator, Option.bind_assoc]
    have hblanks : Steps blanks1 (y :: back) (x :: t) := steps_blanks (by simp) hy hx t
    exact hblanks.fails (fun _ => has) offset before
  · intro offset before
    rw [colonSeparator, blanks, ← List.cons_append, skip_append hy hx, fails_char hne t]
    rfl

/-- Blanks and a name, at the end of a text. -/
theorem dead_gap_name (g : Gap) (n : Identifier) : Dead renameSeparator (g.1 ++ n.text) [] := by
  refine dead_append ?_ (dead_of_names n.all [])
  obtain ⟨y, v, hn, hy⟩ := n.exists_cons
  have has := fails_wordGap_end asWord n
  rw [List.append_nil]
  rw [hn] at has ⊢
  exact dead_gap g.2 (Text.not_isBlank_of_isName hy) (Text.ne_of_isName hy (by decide)) has

/-- A default at the end of a text, with the name before it. -/
theorem dead_fallback (n : Identifier) (d : Option (Gap × Gap × Identifier)) :
    Dead renameSeparator (n.text ++ printFallback d) [] := by
  refine dead_append (dead_of_names n.all _) ?_
  cases d with
  | none => exact dead_nil []
  | some d =>
    obtain ⟨u, v, m⟩ := d
    have hsign : Dead renameSeparator ('=' :: (v.1 ++ m.text)) [] :=
      dead_cons (fails_renameSeparator (by decide) (by decide) _) (dead_gap_name v m)
    refine dead_append ?_ hsign
    exact dead_gap u.2 (by decide) (by decide) ((fails_literal (by decide) (by decide) _).bind _)

theorem afterLast_of_dead (h : Dead renameSeparator t []) :
    t.afterLast renameSeparator = t := by
  have hfind : findFrom renameSeparator Cursor.offset 0 0 none (t ++ []) = [] :=
    findFrom_dead h 0 0 none
  rw [List.append_nil] at hfind
  rw [Text.afterLast, findAll, hfind]
  rfl

/-- The last separator is the one that nothing else is found before or behind. -/
theorem afterLast_of_found (hu : Dead renameSeparator u (w ++ t)) (hne : w ≠ [])
    (hw : Steps renameSeparator w t) (ht : Dead renameSeparator t []) :
    (u ++ (w ++ t)).afterLast renameSeparator = t := by
  let found : Cursor := ⟨0 + u.length + w.length, w.getLast?.or (u.getLast?.or none), t⟩
  have hfind : findAll renameSeparator Cursor.offset (u ++ (w ++ t)) =
      found :: findFrom renameSeparator Cursor.offset found.offset found.offset w.getLast? t := by
    rw [findAll, findFrom_dead hu]
    exact findFrom_found (Nat.zero_le _) hne (hw _ _) rfl
  have hrest : findFrom renameSeparator Cursor.offset found.offset found.offset w.getLast?
      (t ++ []) = [] := findFrom_dead ht _ _ _
  rw [List.append_nil] at hrest
  rw [Text.afterLast, hfind, hrest]
  rfl

/-! ### One item -/

/-- The name that is read from what stands behind the separators. -/
theorem itemName_of {item : Text} (hdrop : dropType item.trim = r) (hr : r ≠ [])
    (hafter : r.afterLast renameSeparator = v) (hv : Text.Solid v)
    (hw : Text.trim (v.takeWhile (· != '=')) = w) :
    itemName item = if Text.isIdentifier w then some w else none := by
  have hempty : r.isEmpty = false := by simpa using hr
  simp only [itemName, hdrop, hempty, hafter, hv.trim_eq, hw, Bool.false_eq_true, if_false]

/-- A text without the sign stands before the sign as a whole. -/
theorem takeWhile_sign (h : '=' ∉ u) (t : Text) :
    (u ++ t).takeWhile (· != '=') = u ++ t.takeWhile (· != '=') := by
  refine List.takeWhile_append_of_pos fun x hx => ?_
  rw [bne_iff_ne]
  rintro rfl
  exact h hx

theorem solid_fallback (n : Identifier) (d : Option (Gap × Gap × Identifier)) :
    Text.Solid (n.text ++ printFallback d) := by
  cases d with
  | none =>
    rw [printFallback, List.append_nil]
    exact n.solid
  | some d =>
    obtain ⟨u, v, m⟩ := d
    have hbetween := n.solid.between m.solid (u.1 ++ '=' :: v.1)
    simpa [printFallback] using hbetween

/-- A name is read without the default behind it. -/
theorem trim_takeWhile_fallback (n : Identifier) (d : Option (Gap × Gap × Identifier)) :
    Text.trim ((n.text ++ printFallback d).takeWhile (· != '=')) = n.text := by
  rw [takeWhile_sign (n.not_mem (by decide))]
  cases d with
  | none =>
    rw [printFallback, List.takeWhile_nil, List.append_nil]
    exact n.solid.trim_eq
  | some d =>
    obtain ⟨u, v, m⟩ := d
    rw [printFallback, takeWhile_sign (u.not_mem (by decide)),
      List.takeWhile_cons_of_neg (by decide), List.append_nil]
    exact n.solid.trim_append (g := []) rfl u.2

theorem itemName_of_fallback {item : Text} (n : Identifier)
    (d : Option (Gap × Gap × Identifier)) (hdrop : dropType item.trim = r) (hr : r ≠ [])
    (hafter : r.afterLast renameSeparator = n.text ++ printFallback d) :
    itemName item = some n.text := by
  rw [itemName_of hdrop hr hafter (solid_fallback n d) (trim_takeWhile_fallback n d),
    if_pos n.valid]

namespace ImportItem

variable (i : ImportItem)

theorem solid_main : Text.Solid i.main := by
  rw [main]
  cases i.renamed with
  | none => simpa using i.name.solid
  | some r =>
    obtain ⟨u, v, n⟩ := r
    have hbetween := i.name.solid.between n.solid (u.1.1 ++ (asWord ++ v.1.1))
    simpa using hbetween

/-- Behind the separators of an item stands the name that it binds. -/
theorem afterLast_main : i.main.afterLast renameSeparator = i.bound.text := by
  rw [main, bound]
  cases i.renamed with
  | none =>
    rw [List.append_nil]
    exact afterLast_of_dead (dead_of_names i.name.all [])
  | some r =>
    obtain ⟨u, v, n⟩ := r
    obtain ⟨y, w, hn, hy⟩ := n.exists_cons
    have hsteps := steps_asSeparator u v (Text.not_isBlank_of_isName hy) w
    rw [← hn] at hsteps
    have hfound := afterLast_of_found (dead_of_names i.name.all _) (by simp [asWord]) hsteps
      (dead_of_names n.all [])
    simpa using hfound

theorem itemName_of_main {item : Text} (hdrop : dropType item.trim = i.main) :
    itemName item = some i.bound.text := by
  refine itemName_of_fallback i.bound none hdrop i.solid_main.ne_nil ?_
  rw [i.afterLast_main, printFallback, List.append_nil]

theorem trim_print_untyped (h : i.typed = none) : i.print.trim = i.main := by
  rw [print, h, List.nil_append]
  exact i.solid_main.trim_append i.before.2 i.after.2

theorem trim_print_typed {g : Blanks} (h : i.typed = some g) :
    i.print.trim = typeWord ++ g.1.1 ++ i.main := by
  have hword : Text.Solid typeWord := Text.solid_of_names (by decide) (by decide)
  have hsolid := hword.between i.solid_main g.1.1
  rw [← List.append_assoc] at hsolid
  rw [print, h]
  exact hsolid.trim_append i.before.2 i.after.2

/-- The word `type` is not read off an item whose own name does not have the look of it. -/
theorem fails_typeGap (h : i.name.text = typeWord → i.renamed = none) :
    Fails (wordGap typeWord) i.main := by
  rw [main]
  cases hr : i.renamed with
  | none =>
    rw [List.append_nil]
    exact fails_wordGap_end typeWord i.name
  | some r =>
    obtain ⟨u, v, n⟩ := r
    obtain ⟨x, w, hu⟩ := List.exists_cons_of_ne_nil u.2
    have hx : Text.isBlank x = true := List.all_eq_true.mp u.1.2 x (by simp [hu])
    have hname : i.name.text = typeWord → Text.isBlank x = false := by
      intro htype
      rw [h htype] at hr
      cases hr
    simp only [hu, List.cons_append]
    exact fails_wordGap_name (by decide) i.name (Text.not_isName_of_isBlank hx) hname _

theorem itemName_print (h : ¬ i.Mistaken) : itemName i.print = some i.bound.text := by
  refine i.itemName_of_main ?_
  cases htyped : i.typed with
  | none =>
    rw [i.trim_print_untyped htyped]
    refine dropType_of_fails (i.fails_typeGap fun htype => ?_)
    by_contra hrenamed
    exact h ⟨htyped, htype, hrenamed⟩
  | some g =>
    obtain ⟨x, w, hmain, hx⟩ := i.solid_main.exists_cons
    rw [i.trim_print_typed htyped, hmain]
    exact dropType_of_steps (steps_typeGap g.2 g.1.2 hx w)

/-- Of `type as y` the first word is left out, and the others are no name. -/
theorem itemName_print_mistaken (h : i.Mistaken) : itemName i.print = none := by
  obtain ⟨htyped, htype, hrenamed⟩ := h
  obtain ⟨⟨u, v, n⟩, hr⟩ := Option.ne_none_iff_exists'.mp hrenamed
  let rest : Text := asWord ++ (v.1.1 ++ n.text)
  have hmain : i.main = typeWord ++ u.1.1 ++ rest := by simp [main, htype, hr, rest]
  have hdrop : dropType i.print.trim = rest := by
    rw [i.trim_print_untyped htyped, hmain]
    exact dropType_of_steps (steps_typeGap u.2 u.1.2 (x := 'a') (by decide) _)
  have hdead : Dead renameSeparator rest [] :=
    dead_append (dead_of_names (by decide) _) (dead_gap_name v.1 n)
  have hsolid : Text.Solid rest :=
    Text.Solid.between (Text.solid_of_names (by decide) (by decide)) n.solid v.1.1
  have hgap : '=' ∉ v.1.1 := v.1.not_mem (by decide)
  have hn : '=' ∉ n.text := n.not_mem (by decide)
  have hno : '=' ∉ rest := by simp [rest, asWord, hgap, hn]
  have hsign := takeWhile_sign hno []
  rw [List.takeWhile_nil, List.append_nil] at hsign
  have hname : Text.isIdentifier rest = false := by
    obtain ⟨x, w, hv⟩ := List.exists_cons_of_ne_nil v.2
    have hx : Text.isBlank x = true := List.all_eq_true.mp v.1.2 x (by simp [hv])
    simp [Text.isIdentifier, rest, hv, Text.not_isName_of_isBlank hx]
  rw [itemName_of hdrop hsolid.ne_nil (afterLast_of_dead hdead) hsolid
    (by rw [hsign, hsolid.trim_eq]), hname]
  rfl

end ImportItem

namespace PatternItem

variable (i : PatternItem)

theorem solid_main : Text.Solid i.main := by
  rw [main]
  cases i.renamed with
  | none => exact solid_fallback i.name i.fallback
  | some r =>
    obtain ⟨u, v, n⟩ := r
    have hbetween := i.name.solid.between (solid_fallback n i.fallback) (u.1 ++ ':' :: v.1)
    simpa using hbetween

theorem trim_print : i.print.trim = i.main := i.solid_main.trim_append i.before.2 i.after.2

/-- Behind a colon stands the new name, with the default. -/
theorem afterLast_colon (hw : w.all Text.isName = true) (u v : Gap) (n : Identifier)
    (d : Option (Gap × Gap × Identifier)) :
    (w ++ (u.1 ++ ':' :: (v.1 ++ (n.text ++ printFallback d)))).afterLast renameSeparator =
      n.text ++ printFallback d := by
  obtain ⟨y, t, ht, hy⟩ := (solid_fallback n d).exists_cons
  have hsteps := steps_colonSeparator u v hy t
  rw [← ht] at hsteps
  have hfound := afterLast_of_found (dead_of_names hw _) (by simp) hsteps (dead_fallback n d)
  simpa using hfound

theorem fails_typeGap_fallback (h : ¬ i.Mistaken) (hr : i.renamed = none) :
    Fails (wordGap typeWord) (i.name.text ++ printFallback i.fallback) := by
  cases hd : i.fallback with
  | none =>
    rw [printFallback, List.append_nil]
    exact fails_wordGap_end typeWord i.name
  | some d =>
    obtain ⟨u, v, n⟩ := d
    refine fails_typeGap_mark i.name u (by decide) (by decide) (fun htype => ?_) _
    by_contra hu
    exact h ⟨htype, hr, (u, v, n), hd, hu⟩

theorem itemName_print (h : ¬ i.Mistaken) : itemName i.print = some i.bound.text := by
  cases hr : i.renamed with
  | none =>
    have hmain : i.main = i.name.text ++ printFallback i.fallback := by rw [main, hr]
    have hdrop : dropType i.print.trim = i.name.text ++ printFallback i.fallback := by
      rw [i.trim_print, hmain]
      exact dropType_of_fails (i.fails_typeGap_fallback h hr)
    have hbound : i.bound = i.name := by rw [bound, hr]
    rw [hbound]
    exact itemName_of_fallback i.name i.fallback hdrop (solid_fallback _ _).ne_nil
      (afterLast_of_dead (dead_fallback _ _))
  | some r =>
    obtain ⟨u, v, n⟩ := r
    let rest : Text := v.1 ++ (n.text ++ printFallback i.fallback)
    have hmain : i.main = i.name.text ++ (u.1 ++ ':' :: rest) := by rw [main, hr]
    have hbound : i.bound = n := by rw [bound, hr]
    rw [hbound]
    by_cases htype : i.name.text = typeWord ∧ u.1 ≠ []
    · -- the word is cut off, and the item begins with the colon
      have hdrop : dropType i.print.trim = ':' :: rest := by
        rw [i.trim_print, hmain, htype.1, ← List.append_assoc]
        exact dropType_of_steps (steps_typeGap htype.2 u.2 (by decide) rest)
      exact itemName_of_fallback n i.fallback hdrop (by simp)
        (afterLast_colon (w := []) rfl ⟨[], rfl⟩ v n i.fallback)
    · have hkept : i.name.text = typeWord → u.1 = [] := fun hname => by
        by_contra hu
        exact htype ⟨hname, hu⟩
      have hdrop : dropType i.print.trim = i.name.text ++ (u.1 ++ ':' :: rest) := by
        rw [i.trim_print, hmain]
        exact dropType_of_fails (fails_typeGap_mark i.name u (by decide) (by decide) hkept rest)
      exact itemName_of_fallback n i.fallback hdrop (by simp)
        (afterLast_colon i.name.all u v n i.fallback)

/-- Of `type = d` the name is left out. -/
theorem itemName_print_mistaken (h : i.Mistaken) : itemName i.print = none := by
  obtain ⟨htype, hr, ⟨u, v, n⟩, hd, hu⟩ := h
  let rest : Text := '=' :: (v.1 ++ n.text)
  have hmain : i.main = typeWord ++ u.1 ++ rest := by
    simp [main, hr, htype, Option.mem_def.mp hd, printFallback, rest]
  have hdrop : dropType i.print.trim = rest := by
    rw [i.trim_print, hmain]
    exact dropType_of_steps (steps_typeGap hu u.2 (by decide) _)
  have hdead : Dead renameSeparator rest [] :=
    dead_cons (fails_renameSeparator (by decide) (by decide) _) (dead_gap_name v n)
  have hsolid : Text.Solid rest :=
    Text.Solid.between (Text.solid_singleton (by decide)) n.solid v.1
  rw [itemName_of hdrop hsolid.ne_nil (afterLast_of_dead hdead) hsolid rfl]
  rfl

end PatternItem

/-! ### A whole clause -/

/-- The names bound by the parts outside the braces. -/
def headNames (t : Text) : List Text := (t.splitOn ',').filterMap fun part => headName part.trim

/-- The names in a clause whose ends are cut off. -/
def namesIn (t : Text) : List Text :=
  headNames (cutBraces t).1 ++
    match (cutBraces t).2 with
    | some inner => (inner.splitOn ',').filterMap itemName
    | none => []

theorem names_eq (clause : Text) : names clause = namesIn (dropFrom clause.trim) := rfl

theorem dropFrom_turn (ht : Text.Solid t) (g : Blanks) :
    dropFrom (t ++ (g.1.1 ++ fromWord)) = t := by
  have hsplit : (t ++ (g.1.1 ++ fromWord)).reverse =
      fromWord.reverse ++ (g.1.1.reverse ++ t.reverse) := by simp
  obtain ⟨x, w, hg⟩ := List.exists_cons_of_ne_nil (mt List.reverse_eq_nil_iff.mp g.2)
  have hx : Text.isBlank x = true :=
    List.all_eq_true.mp g.1.2 x (List.mem_reverse.mp (hg ▸ List.mem_cons_self))
  have hreverse : g.1.1.reverse.all Text.isBlank = true := by
    rw [List.all_reverse]
    exact g.1.2
  have hlast : t.reverse.head?.any Text.isBlank = false := by
    rw [List.head?_reverse]
    exact ht.last
  have hblank : (g.1.1.reverse ++ t.reverse).head?.any Text.isBlank = true := by simp [hg, hx]
  rw [dropFrom, hsplit, Text.after?_eq_some.mpr rfl]
  simp only [hblank, if_true]
  rw [Text.trimRight, List.reverse_reverse, Text.dropWhile_gap hreverse hlast, List.reverse_reverse]

theorem dropFrom_brace (t : Text) : dropFrom (t ++ ['}']) = t ++ ['}'] := by
  have hnone : Text.after? fromWord.reverse (t ++ ['}']).reverse = none := by
    rw [List.reverse_append]
    rfl
  rw [dropFrom, hnone]

theorem cutBraces_of_not_mem (h : '{' ∉ t) : cutBraces t = (t, none) := by
  simp [cutBraces, h]

/-- What has no opening brace goes before the first one. -/
theorem cutBraces_append (hu : '{' ∉ u) (t : Text) :
    cutBraces (u ++ t) = (u ++ (cutBraces t).1, (cutBraces t).2) := by
  have hne : ∀ x ∈ u, (x != '{') = true := fun x hx => by
    rw [bne_iff_ne]
    rintro rfl
    exact hu hx
  have hdrop (n : Nat) : (u ++ t).drop (u.length + n) = t.drop n := by
    rw [List.drop_append, List.drop_of_length_le (Nat.le_add_right _ _), List.nil_append,
      Nat.add_sub_cancel_left]
  have hmem : '{' ∈ u ++ t ↔ '{' ∈ t := by simp [hu]
  rw [cutBraces, cutBraces, List.takeWhile_append_of_pos hne, List.length_append, Nat.add_assoc,
    hdrop]
  simp only [hmem]
  split <;> rfl

theorem cutBraces_braces (hu : '}' ∉ u) : cutBraces ('{' :: (u ++ ['}'])) = ([], some u) := by
  have hne : ∀ x ∈ u, (x != '}') = true := fun x hx => by
    rw [bne_iff_ne]
    rintro rfl
    exact hu hx
  have htail : (u ++ ['}']).takeWhile (· != '}') = u := by
    rw [List.takeWhile_append_of_pos hne, List.takeWhile_cons_of_neg (by decide), List.append_nil]
  simp [cutBraces, htail]

theorem namesIn_braces (hu : '}' ∉ u) :
    namesIn ('{' :: (u ++ ['}'])) = (u.splitOn ',').filterMap itemName := by
  rw [namesIn, cutBraces_braces hu]
  rfl

theorem namesIn_of_not_mem (h : '{' ∉ t) : namesIn t = headNames t := by
  rw [namesIn, cutBraces_of_not_mem h]
  exact List.append_nil _

theorem headName_name (n : Identifier) : headName n.text = some n.text := by
  obtain ⟨x, w, hn, hx⟩ := n.exists_cons
  have hstar : char '*' (start n.text) = none := by
    rw [hn]
    exact fails_char (Text.ne_of_isName hx (by decide)) w 0 none
  rw [headName, namespaceName, hstar]
  exact if_pos n.valid

theorem headNames_cons (n : Identifier) (g : Gap) (t : Text) :
    headNames (n.text ++ (g.1 ++ ',' :: t)) = n.text :: headNames t := by
  have hcomma : ',' ∉ n.text ++ g.1 := by
    rw [List.mem_append, not_or]
    exact ⟨n.not_mem (by decide), g.not_mem (by decide)⟩
  have htrim : (n.text ++ g.1).trim = n.text := n.solid.trim_append (g := []) rfl g.2
  rw [headNames, ← List.append_assoc, Text.splitOn_append_cons hcomma, List.filterMap_cons, htrim,
    headName_name]
  rfl

theorem headNames_gap (g : Gap) : headNames g.1 = [] := by
  rw [headNames, Text.splitOn_of_not_mem (g.not_mem (by decide)), List.filterMap_cons,
    Text.trim_blanks g.2]
  rfl

theorem headNames_name (n : Identifier) : headNames n.text = [n.text] := by
  rw [headNames, Text.splitOn_of_not_mem (n.not_mem (by decide)), List.filterMap_cons,
    n.solid.trim_eq, headName_name]
  rfl

theorem namespaceName_everything (g : Gap) (s : Blanks) (n : Identifier) :
    namespaceName ('*' :: (g.1 ++ (asWord ++ (s.1.1 ++ n.text)))) = some n.text := by
  obtain ⟨y, w, hn, hy⟩ := n.exists_cons
  let inner : Cursor := ⟨1 + g.1.length, g.1.getLast?.or (some '*'), asWord ++ s.1.1 ++ n.text⟩
  have hstar (t : Text) : char '*' (start ('*' :: t)) = some ⟨1, some '*', t⟩ := by
    simp [char, start]
  have hgap : blanks ⟨1, some '*', g.1 ++ (asWord ++ (s.1.1 ++ n.text))⟩ = inner := by
    rw [← List.append_assoc asWord]
    exact skip_append (x := 'a') g.2 (by decide) _ _ _
  have hblanks := steps_blanks s.2 s.1.2 (Text.not_isBlank_of_isName hy) w
  rw [← hn] at hblanks
  have hword : (literal asWord inner).bind blanks1 = _ :=
    (steps_literal asWord (s.1.1 ++ n.text)).bind hblanks _ _
  rw [namespaceName, hstar, Option.bind_some, hgap, hword]
  exact if_pos n.valid

theorem headNames_everything (v g : Gap) (s : Blanks) (n : Identifier) :
    headNames (v.1 ++ (Part.everything g s n).print) = [n.text] := by
  let words : Text := '*' :: (g.1 ++ (asWord ++ s.1.1))
  have hprint : (Part.everything g s n).print = words ++ n.text := by simp [Part.print, words]
  have hcomma : ',' ∉ v.1 ++ (words ++ n.text) := by
    have hgap (g : Gap) : ',' ∉ g.1 := g.not_mem (by decide)
    have hname : ',' ∉ n.text := n.not_mem (by decide)
    simp [words, asWord, hgap, hname]
  have hsolid : Text.Solid (words ++ n.text) :=
    Text.Solid.between (Text.solid_singleton (by decide)) n.solid _
  have htrim := hsolid.trim_append v.2 (h := []) rfl
  rw [List.append_nil, ← hprint] at htrim
  rw [← hprint] at hcomma
  have hname : headName (Part.everything g s n).print = some n.text := by
    rw [headName, Part.print, namespaceName_everything]
  rw [headNames, Text.splitOn_of_not_mem hcomma, List.filterMap_cons, htrim, hname]
  rfl

theorem ImportItem.not_mem_print (i : ImportItem) (hn : Text.isName x = false)
    (hb : Text.isBlank x = false) : x ∉ i.print := by
  have hgap (g : Gap) : x ∉ g.1 := g.not_mem hb
  have hname (n : Identifier) : x ∉ n.text := n.not_mem hn
  have htype : x ∉ typeWord := Text.not_mem_of_names (by decide) hn
  have has : x ∉ asWord := Text.not_mem_of_names (by decide) hn
  rw [print, main]
  cases i.typed <;> cases i.renamed <;> simp [hgap, hname, htype, has]

theorem PatternItem.not_mem_print (i : PatternItem) (hn : Text.isName x = false)
    (hb : Text.isBlank x = false) (hcolon : x ≠ ':') (hsign : x ≠ '=') : x ∉ i.print := by
  have hgap (g : Gap) : x ∉ g.1 := g.not_mem hb
  have hname (n : Identifier) : x ∉ n.text := n.not_mem hn
  rw [print, main]
  cases i.fallback <;> cases i.renamed <;> simp [printFallback, hgap, hname, hcolon, hsign]

section Items

variable {α : Type} {print : α → Text}

theorem not_mem_printItems (hx : ∀ i, x ∉ print i) (hb : Text.isBlank x = false) (hne : x ≠ ',')
    (blanks : Gap) (items : List α) : x ∉ printItems print blanks items := by
  cases items with
  | nil => exact blanks.not_mem hb
  | cons i rest =>
    intro hmem
    rcases Text.mem_join hmem with h | ⟨p, hp, h⟩
    · exact hne h
    · obtain ⟨j, -, rfl⟩ := List.mem_map.mp hp
      exact hx j h

/-- The names read between braces are those of the items. -/
theorem filterMap_printItems (hcomma : ∀ i, ',' ∉ print i) (blanks : Gap) (items : List α) :
    ((printItems print blanks items).splitOn ',').filterMap itemName =
      items.filterMap fun i => itemName (print i) := by
  cases items with
  | nil =>
    have hnone : itemName blanks.1 = none := by
      rw [itemName, Text.trim_blanks blanks.2]
      rfl
    rw [printItems, Text.splitOn_of_not_mem (blanks.not_mem (by decide)), List.filterMap_cons,
      hnone]
    rfl
  | cons i rest =>
    have hpieces : ∀ p ∈ (i :: rest).map print, ',' ∉ p := by
      intro p hp
      obtain ⟨j, -, rfl⟩ := List.mem_map.mp hp
      exact hcomma j
    rw [printItems, Text.splitOn_join hpieces (by simp), List.filterMap_map]
    rfl

/-- If an item is read as its name or not at all, the names of a list tell which. -/
theorem filterMap_eq_map_iff {f : α → Option Text} {g : α → Text} {p : α → Prop}
    (hpos : ∀ i, p i → f i = some (g i)) (hneg : ∀ i, ¬ p i → f i = none) (items : List α) :
    items.filterMap f = items.map g ↔ ∀ i ∈ items, p i := by
  induction items with
  | nil => simp
  | cons i rest ih =>
    by_cases hi : p i
    · simp [hpos i hi, hi, ih]
    · have hlength := List.length_filterMap_le f rest
      have hne : rest.filterMap f ≠ g i :: rest.map g := fun h => by
        have heq := congrArg List.length h
        rw [List.length_cons, List.length_map] at heq
        omega
      simp [hneg i hi, hi, hne]

end Items

/-- After the blanks before it a part is read as the names it binds. -/
theorem namesIn_part (v : Gap) (p : Part) : namesIn (v.1 ++ p.print) = p.bound ↔ p.Told := by
  have hgap (g : Gap) : '{' ∉ g.1 := g.not_mem (by decide)
  cases p with
  | everything g s n =>
    have hname : '{' ∉ n.text := n.not_mem (by decide)
    have hno : '{' ∉ v.1 ++ (Part.everything g s n).print := by
      simp [Part.print, asWord, hgap, hname]
    rw [namesIn_of_not_mem hno, headNames_everything]
    simp [Part.bound, Part.Told]
  | list blanks items =>
    have hclose : '}' ∉ printItems ImportItem.print blanks items :=
      not_mem_printItems (fun i => i.not_mem_print (by decide) (by decide)) (by decide) (by decide)
        blanks items
    rw [namesIn, Part.print, cutBraces_append (hgap v), cutBraces_braces hclose, List.append_nil,
      headNames_gap, List.nil_append]
    dsimp only
    rw [filterMap_printItems fun i => i.not_mem_print (by decide) (by decide)]
    exact filterMap_eq_map_iff (fun i => i.itemName_print)
      (fun i h => i.itemName_print_mistaken (not_not.mp h)) items

theorem namesIn_default (n : Identifier) (u : Gap) (t : Text) :
    namesIn (n.text ++ (u.1 ++ ',' :: t)) = n.text :: namesIn t := by
  have hno : '{' ∉ n.text ++ (u.1 ++ [',']) := by
    have hgap : '{' ∉ u.1 := u.not_mem (by decide)
    have hname : '{' ∉ n.text := n.not_mem (by decide)
    simp [hgap, hname]
  have hsplit (t : Text) : n.text ++ (u.1 ++ ',' :: t) = n.text ++ (u.1 ++ [',']) ++ t := by simp
  rw [namesIn, hsplit, cutBraces_append hno]
  dsimp only
  rw [← hsplit, headNames_cons]
  rfl

theorem namesIn_imported (c : Imported) : namesIn c.print = c.bound ↔ c.Told := by
  cases c with
  | name n =>
    have hname : '{' ∉ n.text := n.not_mem (by decide)
    rw [Imported.print, namesIn_of_not_mem hname, headNames_name]
    simp [Imported.bound, Imported.Told]
  | part p => exact namesIn_part ⟨[], rfl⟩ p
  | both n u v p =>
    rw [Imported.print, namesIn_default, Imported.bound, List.cons_inj_right]
    exact namesIn_part v p

theorem Part.solid_print (p : Part) : Text.Solid p.print := by
  cases p with
  | everything g s n =>
    have hbetween := (Text.solid_singleton (x := '*') (by decide)).between n.solid
      (g.1 ++ (asWord ++ s.1.1))
    simpa [print] using hbetween
  | list blanks items =>
    exact (Text.solid_singleton (by decide)).between (Text.solid_singleton (by decide)) _

theorem Imported.solid_print (c : Imported) : Text.Solid c.print := by
  cases c with
  | name n => exact n.solid
  | part p => exact p.solid_print
  | both n u v p =>
    have hbetween := n.solid.between p.solid_print (u.1 ++ ',' :: v.1)
    simpa [print] using hbetween

/-- The names of a printed clause are those it binds, in their order, just when none of its items is
mistaken for one with the word `type` in front: `type as y`, or `type` with a default after a
blank. -/
theorem names_print (c : Clause) (front back : Gap) :
    names (front.1 ++ (c.print ++ back.1)) = c.bound ↔ c.Told := by
  cases c with
  | imported c turn =>
    have hword : Text.Solid fromWord := Text.solid_of_names (by decide) (by decide)
    have hsolid : Text.Solid (c.print ++ (turn.1.1 ++ fromWord)) := c.solid_print.between hword _
    rw [Clause.print, names_eq, hsolid.trim_append front.2 back.2, dropFrom_turn c.solid_print]
    exact namesIn_imported c
  | pattern blanks items =>
    have hsolid : Text.Solid ('{' :: (printItems PatternItem.print blanks items ++ ['}'])) :=
      (Text.solid_singleton (by decide)).between (Text.solid_singleton (by decide)) _
    have hclose : '}' ∉ printItems PatternItem.print blanks items :=
      not_mem_printItems
        (fun i => i.not_mem_print (by decide) (by decide) (by decide) (by decide))
        (by decide) (by decide) blanks items
    rw [Clause.print, names_eq, hsolid.trim_append front.2 back.2, ← List.cons_append,
      dropFrom_brace, List.cons_append, namesIn_braces hclose,
      filterMap_printItems fun i => i.not_mem_print (by decide) (by decide) (by decide) (by decide)]
    exact filterMap_eq_map_iff (fun i => i.itemName_print)
      (fun i h => i.itemName_print_mistaken (not_not.mp h)) items

example : names "type, \x7b as as type, from, type as \x7d\nfrom " =
    (["type", "type", "from", "as"] : List Text) := by decide

/-- One blank. -/
def space : Blanks := ⟨⟨[' '], by decide⟩, by decide⟩

/-- The braces of `{ type as y }`. -/
def typeRenamed : Part := .list space.1 [{
  before := space.1
  typed := none
  name := ⟨typeWord, by decide⟩
  renamed := some (space, space, ⟨['y'], by decide⟩)
  after := space.1 }]

/-- The first name of `type as y` and the name of `type = d` are taken for the word, and what is
left is no name. -/
theorem not_names_print :
    names "\x7b type as y \x7d from " = [] ∧ names "\x7b type = d \x7d" = [] ∧
      ¬ ∀ (c : Clause) (front back : Gap), names (front.1 ++ (c.print ++ back.1)) = c.bound := by
  refine ⟨by decide, by decide, fun h => ?_⟩
  have hprint : (Clause.imported (.part typeRenamed) space).print =
      ("\x7b type as y \x7d from" : Text) := by decide
  have hbound := h (.imported (.part typeRenamed) space) ⟨[], rfl⟩ space.1
  rw [hprint] at hbound
  revert hbound
  decide

end Binding
end ModuleGraph
