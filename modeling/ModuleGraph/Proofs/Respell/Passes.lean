import ModuleGraph.Proofs.Respell.Framed
import ModuleGraph.Proofs.Respell.Inside
import Mathlib.Algebra.Order.BigOperators.Group.List
import Mathlib.Algebra.Order.Ring.Nat

/-!
Respelling a text over and over.

* `Leaves`: a rule takes up specifiers of one kind and puts others in their place;
* `stages_once`: so from rule to rule and from pass to pass, what stands between two quotes of a
  line changes once at most;
* `weight_after`: each text that is recorded is one less of the kind;
* `exists_settled`: so after some passes, at most as many as there are quotes, nothing changes;
* `passes_settle`: the computed and the fixed rules `Settle` a text in this way.
-/

namespace ModuleGraph

open Cursor Cut

/-- From a text of some kind to one that is not of the kind. -/
def Leaves (p : Text → Bool) (s t : Text) : Prop := p s = true ∧ p t = false

theorem isOnce_leaves (p : Text → Bool) : IsOnce (Leaves p) := by
  intro s t u hst htu
  rw [Leaves, hst.2] at htu
  cases htu.1

/-- How often the things in a list change from one to the next. -/
def turns {α : Type} [DecidableEq α] : List α → Nat
  | x :: y :: l => (if x = y then 0 else 1) + turns (y :: l)
  | _ => 0

/-- There is no way back to the kind, so a text of the kind changes once at most, and any other
text never. -/
theorem turns_cons_le {p : Text → Bool} {o o' : Option Text} {later : List (Option Text)}
    (hstep : o' = o ∨ o.any p = true ∧ o'.any p = false)
    (hlater : turns (o' :: later) ≤ if o'.any p then 1 else 0) :
    turns (o :: o' :: later) ≤ if o.any p then 1 else 0 := by
  rw [turns]
  rcases hstep with rfl | ⟨hbefore, hafter⟩
  · rwa [if_pos rfl, Nat.zero_add]
  · rw [hafter, if_neg (by decide)] at hlater
    rw [hbefore, if_pos rfl, Nat.le_zero.mp hlater]
    split <;> decide

namespace Touched

variable {Q : Text → Text → Prop} {p : Text → Bool} {cs ds : List Cut} {ps : List (Text × Text)}

/-- Each piece is kept, or becomes another one. -/
theorem getElem?_piece (h : Touched Q cs ds ps) (j : Nat) :
    (ds.map Cut.piece)[j]? = (cs.map Cut.piece)[j]? ∨
      ∃ s t, Q s t ∧ (cs.map Cut.piece)[j]? = some s ∧ (ds.map Cut.piece)[j]? = some t := by
  induction h generalizing j with
  | nil => exact Or.inl rfl
  | keep c _ ih =>
    cases j with
    | zero => exact Or.inl rfl
    | succ j => exact ih j
  | @touch _ _ _ c t hst _ _ ih =>
    cases j with
    | zero => exact Or.inr ⟨c.piece, t, hst, rfl, rfl⟩
    | succ j => exact ih j

/-- Each touched piece is one of the kind less. -/
theorem countP_piece (h : Touched (Leaves p) cs ds ps) :
    (ds.map Cut.piece).countP p + ps.length = (cs.map Cut.piece).countP p := by
  induction h with
  | nil => rfl
  | keep c _ ih =>
    rw [List.map_cons, List.map_cons, List.countP_cons, List.countP_cons]
    omega
  | touch c hst _ _ ih =>
    rw [List.map_cons, List.map_cons, List.countP_cons, List.countP_cons, hst.1, hst.2,
      List.length_cons]
    simp only [Bool.false_eq_true, if_false, if_true]
    omega

end Touched

namespace Text

/-- The texts behind the quotes of a text that are of some kind. -/
def weight (p : Text → Bool) (content : Text) : Nat :=
  (content.lines.map fun l => l.pieces.tail.countP p).sum

theorem countP_unlines (q : Char → Bool) (hq : q '\n' = false) (ls : List Text) :
    (unlines ls).countP q = (ls.map (List.countP q)).sum := by
  induction ls with
  | nil => rfl
  | cons l ls ih =>
    by_cases h : ls = []
    · subst h
      simp [unlines, join]
    · rw [unlines_cons h, List.countP_append, List.countP_cons, hq, ih, List.map_cons,
        List.sum_cons]
      simp

/-- There are as many texts behind the quotes of a line as quotes. -/
theorem countP_pieces_le (p : Text → Bool) {line : Text} (hline : '\n' ∉ line) :
    line.pieces.tail.countP p ≤ line.countP isQuote := by
  obtain ⟨w, cs, rfl, hw, hcs⟩ := exists_spell hline
  have hquotes := congrArg List.length (quotes_spell hw hcs)
  rw [quotes, ← List.countP_eq_length_filter, List.length_map] at hquotes
  rw [hquotes, pieces_spell hw hcs, List.tail_cons]
  exact (List.countP_le_length).trans_eq (List.length_map _)

theorem weight_le (p : Text → Bool) (content : Text) :
    content.weight p ≤ content.countP isQuote := by
  have hcontent : content = unlines content.lines := (join_splitOn '\n' content).symm
  conv => rhs; rw [hcontent]
  rw [countP_unlines isQuote rfl]
  refine List.sum_le_sum fun l hl => ?_
  exact countP_pieces_le p (not_mem_of_mem_splitOn hl)

end Text

namespace Respell

/-- The stages of a line: its quotes stay, and what stands between two of them changes once at
most. -/
structure Once (line : Text) (stages : List Text) : Prop where
  quotes : ∀ l ∈ stages, l.quotes = line.quotes
  turns : ∀ j : Nat, turns (stages.map fun l => l.pieces[j]?) ≤ 1

/-- A line before each of some rules and after them all. -/
def stages (cwd file : Text) : List Rule → Text → List Text
  | [], line => [line]
  | rule :: rules, line =>
    line :: stages cwd file rules (respellLine cwd file [rule] 1 line).1

/-- A text that is respelled so many times over. -/
def passes (cwd file : Text) (rules : List Rule) : Nat → Text → Text
  | 0, content => content
  | n + 1, content => passes cwd file rules n (text cwd file rules content).after

/-- Passes over a text come to an end. The lines are what the rules over and over make of them, and
what stands between two quotes changes once at most. Every pass changes something until, after at
most as many passes as there are quotes, nothing is changed or recorded any more. -/
structure Settle (cwd file : Text) (rules : List Rule) (content : Text) : Prop where
  lines : ∀ n, (passes cwd file rules n content).lines.map some = content.lines.map fun l =>
    (stages cwd file (List.replicate n rules).flatten l).getLast?
  once : ∀ n, ∀ l ∈ content.lines, Once l (stages cwd file (List.replicate n rules).flatten l)
  settled : ∃ k ≤ content.countP isQuote, ∀ m,
    ((text cwd file rules (passes cwd file rules m content)).hasChanges = true ↔ m < k) ∧
    (k ≤ m → text cwd file rules (passes cwd file rules m content) =
      ⟨passes cwd file rules k content, passes cwd file rules k content, []⟩)

variable {cwd file line content mark : Text} {a : Aliasing} {p : Text → Bool} {rule : Rule}
  {rules more : List Rule}

theorem exists_stages (cwd file : Text) (rules : List Rule) (line : Text) :
    ∃ later, stages cwd file rules line = line :: later := by
  cases rules with
  | nil => exact ⟨[], rfl⟩
  | cons rule rules => exact ⟨_, rfl⟩

/-- One list of rules after the other. -/
theorem fst_respellLine_append (rules more : List Rule) (line : Text) :
    (respellLine cwd file (rules ++ more) 1 line).1 =
      (respellLine cwd file more 1 (respellLine cwd file rules 1 line).1).1 := by
  rw [respellLine, List.foldl_append]
  exact fst_foldl_applyRule 1 1 more _ _ _

/-- The last stage of a line is the line after all rules. -/
theorem getLast?_stages (rules : List Rule) (line : Text) :
    (stages cwd file rules line).getLast? = some (respellLine cwd file rules 1 line).1 := by
  induction rules generalizing line with
  | nil => rfl
  | cons rule rules ih =>
    rw [stages, List.getLast?_cons, ih, Option.getD_some, ← fst_respellLine_append,
      List.singleton_append]

/-- One rule on a line leaves the quotes, and each piece, unless it replaces one of the kind by one
that is not. -/
theorem stage (hp : rule.IsPlain) (hr : rule.IsTidy cwd file)
    (hQ : rule.Moves cwd file (Leaves p)) (hline : '\n' ∉ line) :
    let next := (respellLine cwd file [rule] 1 line).1
    '\n' ∉ next ∧ next.quotes = line.quotes ∧ ∀ j : Nat, next.pieces[j]? = line.pieces[j]? ∨
      line.pieces[j]?.any p = true ∧ next.pieces[j]?.any p = false := by
  have hp' : ∀ r ∈ [rule], r.IsPlain := by simpa using hp
  have hr' : ∀ r ∈ [rule], r.IsTidy cwd file := by simpa using hr
  have hQ' : ∀ r ∈ [rule], r.Moves cwd file (Leaves p) := by simpa using hQ
  intro next
  obtain ⟨w, cs, ds, ps, hcs, hds, hw, hproper, hproper', htouched, -⟩ :=
    exists_touched hp' hr' hQ' (isOnce_leaves p) 1 hline
  refine ⟨not_mem_respellLine hp' hr' 1 hline, ?_, fun j => ?_⟩
  · rw [show next = w ++ spell ds from hds, hcs, Text.quotes_spell hw hproper,
      Text.quotes_spell hw hproper', htouched.quotes]
  · rw [show next = w ++ spell ds from hds, hcs, Text.pieces_spell hw hproper,
      Text.pieces_spell hw hproper']
    cases j with
    | zero => exact Or.inl rfl
    | succ j =>
      rw [List.getElem?_cons_succ, List.getElem?_cons_succ]
      refine (htouched.getElem?_piece j).imp id ?_
      rintro ⟨s, t, hst, hs, ht⟩
      rw [hs, ht]
      exact hst

/-- What is true of a list of rules is true of the list over and over. -/
theorem forall_flatten {P : Rule → Prop} (h : ∀ rule ∈ rules, P rule) (n : Nat) :
    ∀ rule ∈ (List.replicate n rules).flatten, P rule := by
  intro rule hrule
  obtain ⟨rs, hrs, hmem⟩ := List.mem_flatten.mp hrule
  rw [List.eq_of_mem_replicate hrs] at hmem
  exact h rule hmem

section

variable (hp : ∀ rule ∈ rules, rule.IsPlain) (hr : ∀ rule ∈ rules, rule.IsTidy cwd file)

include hp hr

/-- Passes over a text are the rules over and over on each of its lines. -/
theorem lines_passes (n : Nat) (content : Text) :
    (passes cwd file rules n content).lines = content.lines.map fun l =>
      (respellLine cwd file (List.replicate n rules).flatten 1 l).1 := by
  induction n generalizing content with
  | zero => exact (List.map_id' _).symm
  | succ n ih =>
    rw [passes, ih, lines_after hp hr, List.map_map]
    refine List.map_congr_left fun l _ => ?_
    rw [List.replicate_succ, List.flatten_cons, fst_respellLine_append, Function.comp_apply]

variable (hQ : ∀ rule ∈ rules, rule.Moves cwd file (Leaves p))

include hQ

/-- The quotes of a line stay, and what stands between two of them changes once at most. -/
theorem stages_once (hline : '\n' ∉ line) :
    (∀ l ∈ stages cwd file rules line, l.quotes = line.quotes) ∧
      ∀ j : Nat, turns ((stages cwd file rules line).map fun l => l.pieces[j]?) ≤
        if line.pieces[j]?.any p then 1 else 0 := by
  -- the bound is 0 for a piece that is not of the kind: this carries over from what a rule made
  induction rules generalizing line with
  | nil => exact ⟨by simp [stages], fun j => Nat.zero_le _⟩
  | cons rule rules ih =>
    obtain ⟨hnext, hquotes, hpieces⟩ := stage (hp rule List.mem_cons_self)
      (hr rule List.mem_cons_self) (hQ rule List.mem_cons_self) hline
    obtain ⟨hlater, hturns⟩ := ih (fun r h => hp r (List.mem_cons_of_mem _ h))
      (fun r h => hr r (List.mem_cons_of_mem _ h)) (fun r h => hQ r (List.mem_cons_of_mem _ h))
      hnext
    rw [stages]
    generalize (respellLine cwd file [rule] 1 line).1 = next at *
    refine ⟨?_, fun j => ?_⟩
    · intro l hl
      rcases List.mem_cons.mp hl with rfl | hl
      · rfl
      · rw [hlater l hl, hquotes]
    · obtain ⟨later, hstages⟩ := exists_stages cwd file rules next
      have hj := hturns j
      rw [hstages, List.map_cons] at hj
      rw [hstages, List.map_cons, List.map_cons]
      exact turns_cons_le (hpieces j) hj

/-- What is recorded of a line is what it has less of the kind. -/
theorem weight_respellLine (n : Nat) (hline : '\n' ∉ line) :
    (respellLine cwd file rules n line).1.pieces.tail.countP p +
      (respellLine cwd file rules n line).2.length = line.pieces.tail.countP p := by
  obtain ⟨w, cs, ds, ps, hcs, hds, hw, hproper, hproper', htouched, hperm⟩ :=
    exists_touched hp hr hQ (isOnce_leaves p) n hline
  have hlength := hperm.length_eq
  rw [List.length_map] at hlength
  rw [← hlength, hds, hcs, Text.pieces_spell hw hproper, Text.pieces_spell hw hproper',
    List.tail_cons, List.tail_cons]
  exact htouched.countP_piece

theorem weight_after (content : Text) :
    (text cwd file rules content).after.weight p + (text cwd file rules content).changes.length =
      content.weight p := by
  have hlines : ∀ (lines : List Text) (n : Nat), (∀ l ∈ lines, '\n' ∉ l) →
      (lines.map fun l => (respellLine cwd file rules 1 l).1.pieces.tail.countP p).sum +
        ((respellLines cwd file rules n lines).flatMap (·.2)).length =
          (lines.map fun l => l.pieces.tail.countP p).sum := by
    intro lines
    induction lines with
    | nil => exact fun _ _ => rfl
    | cons line lines ih =>
      intro n hno
      have hone := weight_respellLine hp hr hQ n (hno line List.mem_cons_self)
      have hrest := ih (n + 1) fun l hl => hno l (List.mem_cons_of_mem _ hl)
      rw [fst_respellLine n 1] at hone
      rw [respellLines_cons, List.flatMap_cons, List.length_append, List.map_cons, List.map_cons,
        List.sum_cons, List.sum_cons]
      omega
  have hall := hlines content.lines 1 fun l hl => Text.not_mem_of_mem_splitOn hl
  rw [Text.weight, lines_after hp hr, List.map_map]
  exact hall

/-- After some passes a text is settled. Every pass before that makes it lighter. -/
theorem exists_settled (content : Text) :
    ∃ k ≤ content.weight p, ∀ m,
      ((text cwd file rules (passes cwd file rules m content)).hasChanges = true ↔ m < k) ∧
      (k ≤ m → text cwd file rules (passes cwd file rules m content) =
        ⟨passes cwd file rules k content, passes cwd file rules k content, []⟩) := by
  induction hweight : content.weight p using Nat.strongRecOn generalizing content with
  | _ weight ih =>
    subst hweight
    have hiff := hasChanges_iff hp hr hQ (isOnce_leaves p) content
    have hlighter := weight_after hp hr hQ content
    by_cases hchanges : (text cwd file rules content).changes = []
    · have hno : (text cwd file rules content).hasChanges = false := by
        rw [← Bool.not_eq_true, hiff]
        exact not_not.mpr hchanges
      have hafter : (text cwd file rules content).after = content := bne_eq_false_iff_eq.mp hno
      have hpasses : ∀ m, passes cwd file rules m content = content := by
        intro m
        induction m with
        | zero => rfl
        | succ m ih => rw [passes, hafter, ih]
      have htext : text cwd file rules content = ⟨content, content, []⟩ := by
        calc text cwd file rules content
            = ⟨content, (text cwd file rules content).after,
                (text cwd file rules content).changes⟩ := rfl
          _ = ⟨content, content, []⟩ := by rw [hafter, hchanges]
      refine ⟨0, Nat.zero_le _, fun m => ?_⟩
      rw [hpasses, hno]
      exact ⟨by simp, fun _ => htext⟩
    · have hpos := List.length_pos_iff.mpr hchanges
      obtain ⟨k, hk, hsettled⟩ := ih _ (by omega) (text cwd file rules content).after rfl
      refine ⟨k + 1, by omega, fun m => ?_⟩
      cases m with
      | zero => exact ⟨by simp [passes, hiff, hchanges], fun h => absurd h (by omega)⟩
      | succ m =>
        obtain ⟨hm, hm'⟩ := hsettled m
        exact ⟨hm.trans (by omega), fun h => hm' (by omega)⟩

theorem settle (content : Text) : Settle cwd file rules content where
  lines := by
    intro n
    rw [lines_passes hp hr, List.map_map]
    exact List.map_congr_left fun l _ => (getLast?_stages _ l).symm
  once := by
    intro n l hl
    obtain ⟨hquotes, hturns⟩ := stages_once (forall_flatten hp n) (forall_flatten hr n)
      (forall_flatten hQ n) (Text.not_mem_of_mem_splitOn hl)
    refine ⟨hquotes, fun j => (hturns j).trans ?_⟩
    split <;> decide
  settled := by
    obtain ⟨k, hk, hsettled⟩ := exists_settled hp hr hQ content
    exact ⟨k, hk.trans (content.weight_le p), hsettled⟩

end

/-- A computed rule puts something in the place of a relative specifier that is not relative. -/
theorem moves_relative (hcwd : Path.isAbsolute cwd = true) (hm : IsMark a.mark) :
    ∀ rule ∈ Rule.computedRules a, rule.Moves cwd file (Leaves Specifier.isRelative) := by
  intro rule hrule s t ht hne
  have hst := Rule.moves_computedRules rule hrule s t ht hne
  exact ⟨(Aliasing.aliased_eq_some.mp hst).1, not_isRelative_aliased hcwd hm hst⟩

/-- However often a text is respelled, with the computed rules or with the fixed rules for the
usual directories, its lines keep their quotes, and what stands between two quotes is replaced once
at most. So after some passes, at most as many as the text has quotes, no pass changes or records
anything any more. Depths other than the usual ones will do, except that of a rule that asks for no
step. -/
theorem passes_settle (hcwd : Path.isAbsolute cwd = true) (hfile : Path.isAbsolute file = true)
    (hq : file.all isQuotable = true) (hm : IsMark mark) (hmark : mark.all isQuotable = true)
    (root : Text) (skip : Bool) {depths : List Int} (hdepths : 0 ∉ depths) (content : Text) :
    ∀ rules ∈ [Rule.computedRules ⟨root, mark, skip⟩,
        Rule.fixedRules mark Rule.knownDirectories depths],
      Settle cwd file rules content := by
  intro rules hrules
  rw [List.mem_cons, List.mem_singleton] at hrules
  rcases hrules with rfl | rfl
  · have htidy := Rule.isTidy_computedRules (a := ⟨root, mark, skip⟩) fun s t =>
      Aliasing.isQuotable_aliased_of_absolute hcwd hfile hq hmark
    exact settle Rule.isPlain_computedRules htidy (moves_relative hcwd hm) content
  · exact settle (p := fun s => s.startsWith ['.', '.', '/']) (isPlain_fixedRules mark depths)
      (isTidy_fixedRules hmark cwd file depths) (moves_fixedRules hm hdepths cwd file) content

/-- The first pass puts the beginning of a statement before a quote, for which the second pass
respells what comes after it. -/
theorem passes_settle_twice :
    let rules := Rule.computedRules ⟨"/p/src", atMark, true⟩
    let passed := fun n => passes "/p" "/p/src/a/f.ts" rules n "import '../from/.'../y'"
    passed 1 = "import '@/from'../y'" ∧ passed 2 = "import '@/from'@/y'" ∧
      ∀ m, 2 < m → (text "/p" "/p/src/a/f.ts" rules (passed m)).hasChanges = false := by
  intro rules passed
  have hcwd : Path.isAbsolute "/p" = true := by decide
  have hfile : Path.isAbsolute "/p/src/a/f.ts" = true := by decide
  have hm : IsMark atMark := ⟨by decide, by decide⟩
  have hdepths : 0 ∉ Rule.knownDepths := by decide
  have hsettle := passes_settle hcwd hfile (by decide) hm (by decide) "/p/src" true hdepths
    "import '../from/.'../y'" rules (by simp [rules])
  obtain ⟨k, hk, hsettled⟩ := hsettle.settled
  refine ⟨by decide, by decide, fun m hlt => ?_⟩
  rw [← Bool.not_eq_true, (hsettled m).1, Nat.not_lt]
  have hthree : List.countP isQuote "import '../from/.'../y'".toList = 3 := by decide
  exact hk.trans (hthree.trans_le hlt)

end Respell
end ModuleGraph
