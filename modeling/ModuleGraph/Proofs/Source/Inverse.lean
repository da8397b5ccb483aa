import ModuleGraph.Proofs.Source.Silent
import ModuleGraph.Proofs.Text.Lines
import ModuleGraph.Source.Extract

/-!
What is extracted from printed statements is what was printed.

* `findFrom_print`: over one line a search finds the import there, if it is of its kind, and
  nothing else;
* `Located.locate`, `Located.finds_printAll`: the statements of some lines with their places, and
  the finds of a kind as those of them that are of the kind;
* `Located.line_eq`: a place is on the line of its statement;
* `inOrder_eq`: items at different offsets, put into the order of these;
* `extract_printed`: one import for each statement, in order, with its specifier, kind and line.
-/

namespace ModuleGraph

open Cursor Statement

namespace ImportStatement

/-- What stands between the beginning of a statement and its specifier. -/
def place (s : ImportStatement) : Nat := (s.form.front ++ s.form.lead).length + 1

/-- The import alone, without what it is bound to before it and the sign after it. -/
def call (s : ImportStatement) : Text :=
  s.form.lead ++ s.quote.1 :: (s.specifier.text ++ s.quote.1 :: s.form.close)

def sign (s : ImportStatement) : Text := if s.semicolon then [';'] else []

theorem print_eq (s : ImportStatement) : s.print = s.form.front ++ s.call ++ s.sign := rfl

variable (s : ImportStatement)

theorem place_le : s.place ≤ s.print.length := by
  simp only [place, print_eq, call, List.length_append, List.length_cons]
  omega

theorem sign_marks : (∀ x ∈ s.sign, Text.isName x = false) ∧ s.sign.all isQuotable = true := by
  rw [sign]
  cases s.semicolon with
  | false => simp
  | true => simp; decide

/-- Before the word of an import no word ends. -/
theorem getLast?_front {b : Option Char} (hb : b.any Text.isWord = false) :
    (s.form.front.getLast?.or b).any Text.isWord = false := by
  cases s.form with
  | sideEffect | clause | require => exact hb
  | dynamic bound =>
    cases bound with
    | none => exact hb
    | some n =>
      have hfront : (ImportForm.dynamic (some n)).front = (ImportForm.constWord ++ ' ' ::
          (n.text ++ ' ' :: '=' :: ' ' :: ImportForm.awaitWord)) ++ [' '] := by
        simp [ImportForm.front]
      rw [hfront, List.getLast?_concat]
      rfl

theorem not_mem_front : '\n' ∉ s.form.front := by
  have hwords : '\n' ∉ ImportForm.constWord ∧ '\n' ∉ ImportForm.awaitWord := by decide
  cases s.form with
  | sideEffect | clause | require => simp [ImportForm.front]
  | dynamic bound =>
    cases bound with
    | none => simp [ImportForm.front]
    | some n => simp [ImportForm.front, hwords, n.not_mem_lineEnd]

theorem not_mem_lead : '\n' ∉ s.form.lead := by
  have hwords : '\n' ∉ importWord ∧ '\n' ∉ requireWord ∧ '\n' ∉ Binding.typeWord ∧
      '\n' ∉ Binding.fromWord := by decide
  have hvariable : ∀ w ∈ variableWords, '\n' ∉ w := by decide
  cases s.form with
  | sideEffect => simp [ImportForm.lead, hwords]
  | clause typed c => cases typed <;> simp [ImportForm.lead, hwords, c.not_mem_lineEnd]
  | require w target =>
    simp [ImportForm.lead, hwords, hvariable w.1 w.2, target.not_mem_lineEnd]
  | dynamic bound => simp [ImportForm.lead, hwords]

/-- A statement is on one line. -/
theorem not_mem_print : '\n' ∉ s.print := by
  have hquote : '\n' ≠ s.quote.1 := (ne_of_isQuote s.quote.2 (by decide)).symm
  have hclose : '\n' ∉ s.form.close := by
    cases s.form <;> simp [ImportForm.close]
  have hsign : '\n' ∉ s.sign := by
    rw [sign]
    cases s.semicolon <;> simp
  simp [print_eq, call, s.not_mem_front, s.not_mem_lead, hclose, hsign,
    s.specifier.not_mem_lineEnd, hquote]

end ImportStatement

/-- The offset and the text of a specifier that was found. -/
def Statement.Found.read (f : Found) : Nat × Text := (f.quoted.inside.offset, f.quoted.text)

/-- Over one printed statement a search finds the import there, if it is of its kind, and nothing
else. -/
theorem findFrom_print (s : ImportStatement) (k : ImportKind) {resume offset : Nat}
    (hr : resume ≤ offset) {b : Option Char} (hb : b.any Text.isWord = false) {u : Text}
    (hu : EndsLine u) :
    ∃ found resume' b', resume' ≤ offset + s.print.length ∧
      findFrom k.recognise (·.stop.offset) resume offset b (s.print ++ u) =
        found ++ findFrom k.recognise (·.stop.offset) resume' (offset + s.print.length) b' u ∧
      found.map Found.read =
        if s.form.kind = k then [(offset + s.place, s.specifier.text)] else [] := by
  have htext : s.print ++ u = s.form.front ++ (s.call ++ (s.sign ++ u)) := by
    simp [ImportStatement.print_eq]
  have hlength : offset + s.print.length =
      offset + s.form.front.length + s.call.length + s.sign.length := by
    simp only [ImportStatement.print_eq, List.length_append]
    omega
  rw [htext, hlength, findFrom_dead (dead_front s.form _)]
  have hsign := dead_marks (k := k) s.sign_marks.1 u
  by_cases hk : s.form.kind = k
  · have hb' := s.getLast?_front hb
    obtain ⟨f, hf, hinside, hspecifier, hstop⟩ := finds_form s.specifier s.quote.2 hb' s.form
      (s.sign ++ u) (offset + s.form.front.length)
    have hcall : s.form.lead ++ s.quote.1 :: (s.specifier.text ++
        s.quote.1 :: (s.form.close ++ (s.sign ++ u))) = s.call ++ (s.sign ++ u) := by
      simp [ImportStatement.call]
    have hne : s.call ≠ [] := by simp [ImportStatement.call]
    rw [hk, hcall] at hf
    rw [findFrom_found (by omega) hne hf hstop, findFrom_dead hsign, hstop, if_pos hk]
    refine ⟨[f], _, _, Nat.le_add_right _ _, rfl, ?_⟩
    rw [List.map_singleton, Found.read, hinside, hspecifier, ImportStatement.place,
      List.length_append, Nat.add_assoc, Nat.add_assoc, Nat.add_assoc]
  · have hcall : Dead k.recognise s.call (s.sign ++ u) :=
      dead_call s.form hk s.specifier s.quote.2 s.sign_marks.2 hu
    rw [findFrom_dead hcall, findFrom_dead hsign, if_neg hk]
    exact ⟨[], resume, _, by omega, rfl, rfl⟩

/-- A printed statement with the offset of its specifier and the number of its line. -/
structure Located where
  offset : Nat
  line : Nat
  statement : ImportStatement

namespace Located

/-- The kind of the import and its specifier, with the offset of it and the line. -/
def read (l : Located) : Nat × (Text × ImportKind × Int) :=
  (l.offset, (l.statement.specifier.text, l.statement.form.kind, (l.line : Int)))

/-- The statements, printed one to a line, from an offset and a line on. -/
def locate (offset line : Nat) : List ImportStatement → List Located
  | [] => []
  | s :: ss => ⟨offset + s.place, line, s⟩ :: locate (offset + s.print.length + 1) (line + 1) ss

end Located

/-- The statements one to a line, the last line ended or not. -/
def ImportStatement.printAll (ss : List ImportStatement) (ended : Bool) : Text :=
  Text.unlines (ss.map print) ++ if ended then ['\n'] else []

namespace Located

open ImportStatement (printAll)

theorem printAll_cons_cons (s s' : ImportStatement) (ss : List ImportStatement) (ended : Bool) :
    printAll (s :: s' :: ss) ended = s.print ++ '\n' :: printAll (s' :: ss) ended := by
  simp only [printAll, Text.unlines, Text.join, List.map_cons, List.intercalate_cons_cons,
    List.append_assoc, List.cons_append, List.nil_append]

theorem printAll_singleton (s : ImportStatement) (ended : Bool) :
    printAll [s] ended = s.print ++ if ended then ['\n'] else [] := by
  simp [printAll, Text.unlines, Text.join]

theorem exists_printAll (s : ImportStatement) (ss : List ImportStatement) (ended : Bool) :
    ∃ rest, printAll (s :: ss) ended = s.print ++ rest := by
  cases ss with
  | nil => exact ⟨_, printAll_singleton s ended⟩
  | cons s' ss => exact ⟨_, printAll_cons_cons s s' ss ended⟩

/-- The statements of one kind, as they are read. -/
def readsOf (k : ImportKind) (ls : List Located) : List (Nat × Text) :=
  (ls.filter (·.statement.form.kind = k)).map fun l => (l.offset, l.statement.specifier.text)

theorem readsOf_locate (k : ImportKind) (offset line : Nat) (s : ImportStatement)
    (ss : List ImportStatement) : readsOf k (locate offset line (s :: ss)) =
      (if s.form.kind = k then [(offset + s.place, s.specifier.text)] else []) ++
        readsOf k (locate (offset + s.print.length + 1) (line + 1) ss) := by
  rw [locate, readsOf, readsOf, List.filter_cons]
  by_cases hk : s.form.kind = k
  · simp [hk]
  · simp [hk]

/-- A search finds the imports of its kind, one for each statement. -/
theorem finds_printAll (k : ImportKind) (ss : List ImportStatement) (ended : Bool) (line : Nat)
    {resume offset : Nat} (hr : resume ≤ offset) {b : Option Char}
    (hb : b.any Text.isWord = false) :
    (findFrom k.recognise (·.stop.offset) resume offset b (printAll ss ended)).map Found.read =
      readsOf k (locate offset line ss) := by
  have hbreak (t : Text) : Dead k.recognise ['\n'] t := dead_mark (by decide) (dead_nil t)
  have hend : ∀ resume offset b, findFrom k.recognise (·.stop.offset) resume offset b
      (if ended then ['\n'] else []) = [] := by
    intro resume offset b
    cases ended with
    | false => rfl
    | true => exact findFrom_dead (hbreak []) resume offset b
  induction ss generalizing offset line resume b with
  | nil =>
    rw [printAll, List.map_nil, Text.unlines, Text.join, List.intercalate_nil, List.nil_append,
      hend]
    rfl
  | cons s ss ih =>
    rw [readsOf_locate]
    cases ss with
    | nil =>
      have hline : EndsLine (if ended then ['\n'] else []) := by
        cases ended with
        | false => exact Or.inl rfl
        | true => exact Or.inr ⟨[], rfl⟩
      obtain ⟨found, resume', b', -, hfind, hread⟩ := findFrom_print s k hr hb hline
      rw [printAll_singleton, hfind, hend, List.append_nil, hread]
      exact (List.append_nil _).symm
    | cons s' ss =>
      have hline : EndsLine ('\n' :: printAll (s' :: ss) ended) := Or.inr ⟨_, rfl⟩
      obtain ⟨found, resume', b', hle, hfind, hread⟩ := findFrom_print s k hr hb hline
      have hrest : (findFrom k.recognise (·.stop.offset) resume' (offset + s.print.length + 1)
          (some '\n') (printAll (s' :: ss) ended)).map Found.read =
            readsOf k (locate (offset + s.print.length + 1) (line + 1) (s' :: ss)) :=
        ih (line + 1) (by omega) (by decide)
      have hnext : findFrom k.recognise (·.stop.offset) resume' (offset + s.print.length) b'
          ('\n' :: printAll (s' :: ss) ended) = findFrom k.recognise (·.stop.offset) resume'
            (offset + s.print.length + 1) (some '\n') (printAll (s' :: ss) ended) :=
        findFrom_dead (hbreak _) resume' _ b'
      rw [printAll_cons_cons, hfind, hnext, List.map_append, hread, hrest]

theorem lt_of_mem_locate {offset line : Nat} {ss : List ImportStatement} {l : Located}
    (h : l ∈ locate offset line ss) : offset < l.offset := by
  induction ss generalizing offset line with
  | nil => cases h
  | cons s ss ih =>
    rcases List.mem_cons.mp h with rfl | h
    · simp only [ImportStatement.place]
      omega
    · have hlt := ih h
      omega

theorem pairwise_locate (offset line : Nat) (ss : List ImportStatement) :
    (locate offset line ss).Pairwise fun l l' => l.offset < l'.offset := by
  induction ss generalizing offset line with
  | nil => exact .nil
  | cons s ss ih =>
    refine List.pairwise_cons.mpr ⟨fun l hl => ?_, ih _ _⟩
    have hlt := lt_of_mem_locate hl
    have hle := s.place_le
    simp only
    omega

/-- A statement stands on its line. -/
theorem line_eq (front : Text) {ss : List ImportStatement} {ended : Bool} {l : Located}
    (h : l ∈ locate front.length (front.count '\n' + 1) ss) :
    ((front ++ printAll ss ended).take l.offset).count '\n' + 1 = l.line := by
  induction ss generalizing front with
  | nil => cases h
  | cons s ss ih =>
    have hcount : (s.print).count '\n' = 0 := List.count_eq_zero.mpr s.not_mem_print
    rcases List.mem_cons.mp h with rfl | h
    · obtain ⟨rest, hrest⟩ := exists_printAll s ss ended
      have hbefore : '\n' ∉ s.print.take s.place := fun hmem =>
        s.not_mem_print (List.mem_of_mem_take hmem)
      simp only
      rw [List.take_length_add_append, hrest, List.take_append_of_le_length s.place_le,
        List.count_append, List.count_eq_zero.mpr hbefore, Nat.add_zero]
    · cases ss with
      | nil => cases h
      | cons s' ss =>
        have htext : front ++ printAll (s :: s' :: ss) ended =
            (front ++ s.print ++ ['\n']) ++ printAll (s' :: ss) ended := by
          simp [printAll_cons_cons]
        have hlength : (front ++ s.print ++ ['\n']).length = front.length + s.print.length + 1 := by
          simp only [List.length_append, List.length_singleton]
        have hline : (front ++ s.print ++ ['\n']).count '\n' = front.count '\n' + 1 := by
          simp [hcount]
        rw [htext]
        refine ih (front ++ s.print ++ ['\n']) ?_
        rw [hlength, hline]
        exact h

theorem map_locate (offset line : Nat) (ss : List ImportStatement) :
    (locate offset line ss).map (·.read.2) = (ss.zipIdx line).map fun (s, n) =>
      (s.specifier.text, s.form.kind, (n : Int)) := by
  induction ss generalizing offset line with
  | nil => rfl
  | cons s ss ih =>
    rw [locate, List.map_cons, ih, List.zipIdx_cons, List.map_cons]
    rfl

/-- Statements taken kind by kind are all statements. -/
theorem perm_kinds (ls : List Located) :
    (ImportKind.all.flatMap fun k => ls.filter (·.statement.form.kind = k)).Perm ls := by
  induction ls with
  | nil => simp
  | cons l ls ih =>
    simp only [ImportKind.all, List.flatMap_cons, List.flatMap_nil, List.append_nil] at ih ⊢
    cases hk : l.statement.form.kind with
    | static =>
      simp only [List.filter_cons, hk]
      simpa using ih
    | dynamic =>
      simp only [List.filter_cons, hk]
      simpa using List.perm_middle.trans (ih.cons l)
    | require =>
      simp only [List.filter_cons, hk]
      rw [← List.append_assoc] at ih ⊢
      simpa using List.perm_middle.trans (ih.cons l)

end Located

section Order

variable {α β : Type}

/-- Items at different offsets, put into the order of these. -/
theorem inOrder_eq {xs ys : List (Nat × α)} (hperm : xs.Perm ys)
    (hys : ys.Pairwise fun y y' => y.1 < y'.1) : inOrder xs = ys.map (·.2) := by
  let sorted := xs.mergeSort fun a b => decide (a.1 ≤ b.1)
  have hsorted : sorted.Pairwise fun a b => decide (a.1 ≤ b.1) = true :=
    List.pairwise_mergeSort (by simp; omega) (by simp; omega) xs
  have hxs : sorted.Perm ys := (List.mergeSort_perm _ _).trans hperm
  have hdistinct : sorted.Pairwise fun a b => a.1 ≠ b.1 :=
    (hxs.pairwise_iff fun hne => hne.symm).mpr (hys.imp Nat.ne_of_lt)
  have hlt : sorted.Pairwise fun a b => a.1 < b.1 :=
    (hsorted.and hdistinct).imp fun ⟨hle, hne⟩ =>
      Nat.lt_of_le_of_ne (of_decide_eq_true hle) hne
  have heq : sorted = ys :=
    hxs.eq_of_pairwise (fun a b _ _ h h' => absurd h (Nat.lt_asymm h')) hlt hys
  rw [inOrder, ← heq]

theorem map_inOrder (g : α → β) (xs : List (Nat × α)) :
    (inOrder xs).map g = inOrder (xs.map fun x => (x.1, g x.2)) := by
  have hmap := List.map_mergeSort (f := fun x : Nat × α => (x.1, g x.2)) (l := xs)
    (r := fun a b => decide (a.1 ≤ b.1)) (s := fun a b => decide (a.1 ≤ b.1)) fun _ _ _ _ => rfl
  rw [inOrder, inOrder, ← hmap, List.map_map, List.map_map]
  rfl

end Order

/-- Nothing is cut off a specifier. -/
theorem PlainSpecifier.trim_eq (s : PlainSpecifier) : s.text.trim = s.text := by
  refine Text.trim_of_ends ?_ ?_
  · rw [Option.any_eq_false]
    exact fun x hx => by simp [s.not_isBlank (List.mem_of_mem_head? hx)]
  · rw [Option.any_eq_false]
    exact fun x hx => by simp [s.not_isBlank (List.mem_of_getLast? hx)]

namespace Source

/-- What an import says of a statement. -/
def outline (i : Import) : Text × ImportKind × Int := (i.specifier, i.kind, i.line)

/-- The imports of one kind are the statements of the kind. -/
theorem importsOf_printed (marks : List Text) (ss : List ImportStatement) (ended : Bool)
    (k : ImportKind) :
    let text := ImportStatement.printAll ss ended
    (importsOf marks (.ofText text) text k).map (fun i => (i.1, outline i.2)) =
      ((Located.locate 0 1 ss).filter (·.statement.form.kind = k)).map Located.read := by
  intro text
  let mark : Nat × Text → Nat × (Text × ImportKind × Int) := fun x =>
    (x.1, (x.2.trim, k, ((LineIndex.ofText text).lineOf x.1 : Int)))
  have hfinds : (findAll k.recognise (·.stop.offset) text).map Found.read =
      Located.readsOf k (Located.locate 0 1 ss) :=
    Located.finds_printAll k ss ended 1 (Nat.le_refl 0) rfl
  have hmap : (importsOf marks (.ofText text) text k).map (fun i => (i.1, outline i.2)) =
      ((findAll k.recognise (·.stop.offset) text).map Found.read).map mark := by
    rw [importsOf_eq, List.map_map, List.map_map]
    rfl
  rw [hmap, hfinds, Located.readsOf, List.map_map]
  refine List.map_congr_left fun l hl => ?_
  obtain ⟨hmem, hkind⟩ := List.mem_filter.mp hl
  have hline : (text.take l.offset).count '\n' + 1 = l.line :=
    Located.line_eq [] hmem
  have hnumber : (LineIndex.ofText text).lineOf l.offset = l.line := by
    rw [LineIndex.lineOf_ofText, hline]
  simp only [Function.comp_apply, mark, Located.read, l.statement.specifier.trim_eq, hnumber,
    of_decide_eq_true hkind]

/-- From statements printed one to a line one import is extracted for each, in order, with its
specifier, its kind and its line. -/
theorem extract_printed (marks : List Text) (path : Text) (ss : List ImportStatement)
    (ended : Bool) :
    (extract marks path (ImportStatement.printAll ss ended)).imports.map
        (fun i => (i.specifier, i.kind, i.line)) =
      (ss.zipIdx 1).map fun (s, n) => (s.specifier.text, s.form.kind, (n : Int)) := by
  let text := ImportStatement.printAll ss ended
  let ls := Located.locate 0 1 ss
  have hkinds : (ImportKind.all.flatMap (importsOf marks (.ofText text) text)).map
      (fun i => (i.1, outline i.2)) = (ImportKind.all.flatMap fun k =>
        ls.filter (·.statement.form.kind = k)).map Located.read := by
    rw [List.map_flatMap, List.map_flatMap]
    exact congrArg (ImportKind.all.flatMap ·) (funext (importsOf_printed marks ss ended))
  have hperm := (Located.perm_kinds ls).map Located.read
  have hordered : (ls.map Located.read).Pairwise fun y y' => y.1 < y'.1 :=
    List.pairwise_map.mpr (Located.pairwise_locate 0 1 ss)
  have hfound : (findImports marks text).map outline = (ss.zipIdx 1).map fun (s, n) =>
      (s.specifier.text, s.form.kind, (n : Int)) := by
    rw [findImports, map_inOrder, hkinds, inOrder_eq hperm hordered, List.map_map]
    exact Located.map_locate 0 1 ss
  rw [← hfound, extract, List.map_map]
  rfl

end Source

end ModuleGraph
