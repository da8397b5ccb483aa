import ModuleGraph.Proofs.Source.Unused

/-!
The search for unused names, in terms of the statements that bind them.

* `statements`, `exists_keyword`: an import together with the place where its statement begins;
* `exists_runAt_before`, `exists_runAt_behind`: the runs before and behind a place of a text, by its
  lines;
* `Clear`, `clear_of_opening`: a name for which the lines that are left out tell the statement;
* `find?_alone`: such a name is reported exactly if it stands nowhere outside its statement.
-/

namespace ModuleGraph

open Cursor Statement

namespace Text

variable {v w name : Text} {n : Nat}

theorem RunAt.add_length_le (h : RunAt name w n) : n + name.length ≤ w.length := by
  obtain ⟨front, back, rfl, rfl, -⟩ := h.exists_split
  simp only [List.length_append]
  omega

/-- The runs before a place, if none is on the line of the place, are those of the lines before. -/
theorem exists_runAt_before (h : ¬ IsRun name v.lastLine) (w : Text) :
    (∃ n, RunAt name (v ++ w) n ∧ n + name.length ≤ v.length) ↔
      ∃ l ∈ v.lines.dropLast, IsRun name l := by
  constructor
  · rintro ⟨n, hrun, hn⟩
    obtain ⟨l, hl, hrun⟩ := isRun_iff_lines.mp ⟨n, hrun.left hn⟩
    rw [lines_eq_concat, List.mem_append, List.mem_singleton] at hl
    rcases hl with hl | rfl
    · exact ⟨l, hl, hrun⟩
    · exact absurd hrun h
  · rintro ⟨l, hl, hrun⟩
    obtain ⟨line, hline, rfl | ⟨front, rfl⟩⟩ := exists_lastLine v
    · rw [lines_of_not_mem hline] at hl
      cases hl
    · rw [dropLast_lines hline] at hl
      obtain ⟨n, hrun⟩ := isRun_iff_lines.mpr ⟨l, hl, hrun⟩
      refine ⟨n, ?_, ?_⟩
      · rw [List.append_assoc, List.cons_append]
        exact hrun.append_cons (by decide) _
      · have hle := hrun.add_length_le
        rw [List.length_append]
        omega

/-- The runs behind a place, if none is on the line of the place, are those of the lines behind. -/
theorem exists_runAt_behind (h : ¬ IsRun name w.firstLine) (v : Text) :
    (∃ n, RunAt name (v ++ w) n ∧ v.length ≤ n) ↔ ∃ l ∈ w.lines.tail, IsRun name l := by
  constructor
  · rintro ⟨n, hrun, hn⟩
    obtain ⟨k, rfl⟩ := Nat.exists_eq_add_of_le hn
    obtain ⟨l, hl, hrun⟩ := isRun_iff_lines.mp ⟨k, hrun.right⟩
    rw [lines_eq_cons, List.mem_cons] at hl
    rcases hl with rfl | hl
    · exact absurd hrun h
    · exact ⟨l, hl, hrun⟩
  · rintro ⟨l, hl, hrun⟩
    obtain ⟨line, hline, rfl | ⟨back, rfl⟩⟩ := exists_firstLine w
    · rw [lines_of_not_mem hline] at hl
      cases hl
    · rw [lines_append, lines_of_not_mem hline] at hl
      obtain ⟨n, hrun⟩ := isRun_iff_lines.mpr ⟨l, hl, hrun⟩
      refine ⟨(v ++ line).length + 1 + n, ?_, ?_⟩
      · rw [← List.append_assoc]
        exact hrun.cons_append (by decide) _
      · rw [List.length_append]
        omega

end Text

namespace Source

variable {k : ImportKind} {t : Text} {c : Cursor} {f : Found}

/-- The finds of one kind of import, each with the place where it begins. -/
def statements (k : ImportKind) (t : Text) : List (Cursor × Found) :=
  findAll (fun c => (k.recognise c).map (c, ·)) (·.2.stop.offset) t

theorem map_snd_statements (k : ImportKind) (t : Text) :
    (statements k t).map (·.2) = findAll k.recognise (·.stop.offset) t := by
  suffices h : ∀ (t : Text) (resume offset : Nat) (before : Option Char),
      (findFrom (fun c => (k.recognise c).map (c, ·)) (·.2.stop.offset) resume offset before t).map
        (·.2) = findFrom k.recognise (·.stop.offset) resume offset before t from h t 0 0 none
  intro t
  induction t with
  | nil => intros; rfl
  | cons x t ih =>
    intro resume offset before
    simp only [findFrom]
    split
    · exact ih _ _ _
    · cases k.recognise ⟨offset, before, x :: t⟩ with
      | none => exact ih _ _ _
      | some f => exact congrArg (f :: ·) (ih _ _ _)

/-- A statement stands in a text between what comes before its place and what comes behind the
closing quote of its specifier; the specifier is on the line on which this quote is. -/
theorem exists_of_mem_statements (h : (c, f) ∈ statements k t) :
    k.recognise c = some f ∧ ∃ front text : Text,
      t = front ++ (text ++ f.quoted.stop.rest) ∧ c.rest = text ++ f.quoted.stop.rest ∧
      c.offset = front.length ∧ f.quoted.stop.offset = (front ++ text).length ∧
      (t.take f.quoted.inside.offset).count '\n' = (front ++ text).count '\n' := by
  obtain ⟨front, rest, rfl, hfound⟩ := exists_of_mem_findAll h
  obtain ⟨g, hg, hpair⟩ := Option.map_eq_some_iff.mp hfound
  obtain ⟨rfl, rfl⟩ := Prod.mk.inj hpair
  obtain ⟨e, he, lead, hlead, -⟩ := exists_lead hg
  obtain ⟨hquote, -, hall, hopen, hclose⟩ := quoted_eq_some he
  have hinside := hlead.trans hopen
  have hstop := hinside.trans hclose
  refine ⟨hg, front, _, ?_, hstop.rest_eq, rfl, ?_, ?_⟩
  · exact congrArg (front ++ ·) hstop.rest_eq
  · exact hstop.offset_eq.trans List.length_append.symm
  · -- neither the specifier nor its closing quote is a line end
    have hnone : (g.quoted.text ++ [g.quoted.quote]).count '\n' = 0 := by
      rw [List.count_eq_zero]
      intro hmem
      rcases List.mem_append.mp hmem with hmem | hmem
      · exact absurd (List.all_eq_true.mp hall _ hmem) (by decide)
      · rw [← List.mem_singleton.mp hmem] at hquote
        cases hquote
    have htake : (front ++ rest).take g.quoted.inside.offset =
        front ++ (lead ++ [g.quoted.quote]) := by
      have hlength : g.quoted.inside.offset = (front ++ (lead ++ [g.quoted.quote])).length :=
        hinside.offset_eq.trans List.length_append.symm
      have hrest : rest = lead ++ [g.quoted.quote] ++ g.quoted.inside.rest := hinside.rest_eq
      rw [hlength, hrest, ← List.append_assoc front (lead ++ [g.quoted.quote]), List.take_left]
    symm
    rw [← List.append_assoc front (lead ++ [g.quoted.quote]), List.count_append, hnone, htake,
      Nat.add_zero]

/-- A statement that binds names begins with `import`, `const`, `let` or `var`. -/
theorem exists_keyword (h : k.recognise c = some f) (hbinding : f.binding ≠ none) :
    ∃ word ∈ Unused.openingWords, ∃ rest, c.rest = word ++ rest := by
  cases reading_of_recognise h with
  | static word | typed word =>
    exact ⟨importWord, List.mem_cons_self, _, (passes_word word).rest_eq⟩
  | dynamic _ call | require _ call => exact absurd call.unbound hbinding
  | @bound word _ _ _ _ _ _ mem gap =>
    obtain ⟨d, hd, -⟩ := Option.bind_eq_some_iff.mp gap
    exact ⟨word, List.mem_cons_of_mem _ mem, _, (passes_literal hd).rest_eq⟩

end Source

/-- The import is what is found at the place `c`. -/
structure Import.FoundAt (marks : List Text) (content : Text) (i : Import) (c : Cursor)
    (f : Found) : Prop where
  mem : (c, f) ∈ Source.statements i.kind content
  bare_eq : i.bare = (Import.ofFound marks (.ofText content) i.kind f).2

/-- An import that binds names is found where one of the opening words stands. -/
theorem Source.Extracted.exists_foundAt {marks : List Text} {s : Source} (h : s.Extracted marks)
    {i : Import} (hi : i ∈ s.imports) (hbound : i.bindings ≠ []) :
    ∃ c f, i.FoundAt marks s.content c f ∧
      ∃ word ∈ Unused.openingWords, ∃ rest, c.rest = word ++ rest := by
  obtain ⟨k, f, hf, hbare⟩ := h.exists_found hi
  obtain rfl : i.kind = k := congrArg Import.kind hbare
  rw [← map_snd_statements] at hf
  obtain ⟨⟨c, f⟩, hmem, rfl⟩ := List.mem_map.mp hf
  refine ⟨c, f, ⟨hmem, hbare⟩, exists_keyword (exists_of_mem_statements hmem).1 fun hnone => ?_⟩
  have hbindings : i.bindings = (f.binding.map Binding.names).getD [] :=
    congrArg Import.bindings hbare
  exact hbound (by rw [hbindings, hnone]; rfl)

namespace Unused

open Source

variable {marks : List Text} {s : Source} {i : Import} {content name : Text} {c : Cursor}
  {f : Found} {k : ImportKind}

/-- The line on which a statement begins. -/
def firstOf (content : Text) (c : Cursor) : Nat := (LineIndex.ofText content).lineOf c.offset

/-- The line of the specifier of a statement. -/
def lastOf (content : Text) (f : Found) : Nat :=
  (LineIndex.ofText content).lineOf f.quoted.inside.offset

/-- A name for which the lines that are left out tell its statement: every line on which it stands
is left out exactly if it is one of the statement, and next to the statement, on the first of its
lines and on the last one, the name does not stand. -/
structure Clear (content name : Text) (c : Cursor) (f : Found) : Prop where
  lines : ∀ x ∈ content.lines.zipIdx 1, name ∈ x.1.tokens →
    (Own content.lines (lastOf content f) x.2 ↔ firstOf content c ≤ x.2 ∧ x.2 ≤ lastOf content f)
  before : name ∉ (Text.lastLine (content.take c.offset)).tokens
  behind : name ∉ f.quoted.stop.rest.firstLine.tokens

theorem firstOf_le_lastOf (hmem : (c, f) ∈ statements k content) :
    firstOf content c ≤ lastOf content f := by
  obtain ⟨-, front, text, rfl, -, hoffset, -, hcount⟩ := exists_of_mem_statements hmem
  rw [firstOf, lastOf, LineIndex.lineOf_ofText, LineIndex.lineOf_ofText, hcount, hoffset,
    List.take_left, List.count_append]
  omega

/-- What is left out for a statement are its own lines, if the first of them opens a statement,
no other one does, and there are not too many. -/
theorem own_iff_of_opening {lines : List Text} {first last : Nat}
    (hopening : first = 1 ∨ Opening (lines[first - 1]?.getD []))
    (hinner : ∀ l ∈ (lines.take last).drop first, ¬ Opening l) (hle : first ≤ last)
    (hlast : last ≤ lines.length) (hspan : last ≤ first + maxSpan) {j : Nat} (hj : 1 ≤ j) :
    Own lines last j ↔ first ≤ j ∧ j ≤ last := by
  constructor
  · rintro ⟨hlast, -, hnone⟩
    refine ⟨?_, hlast⟩
    by_contra hlt
    rcases hopening with rfl | hopening
    · omega
    · refine hnone _ (List.mem_iff_getElem?.mpr ⟨first - 1 - j, ?_⟩) hopening
      rw [List.getElem?_drop, List.getElem?_take_of_lt (by omega),
        show j + (first - 1 - j) = first - 1 by omega, List.getElem?_eq_getElem (by omega)]
      rfl
  · rintro ⟨hfirst, hlast⟩
    refine ⟨hlast, by omega, fun l hl => hinner l ?_⟩
    have hdrop : (lines.take last).drop j = ((lines.take last).drop first).drop (j - first) := by
      rw [List.drop_drop, Nat.add_sub_cancel' hfirst]
    exact List.mem_of_mem_drop (hdrop ▸ hl)

/-- A name is clear if it stands on none of the lines of its statement outside of that statement,
and the statement has the layout of `own_iff_of_opening`. -/
theorem clear_of_opening (hmem : (c, f) ∈ statements k content)
    (hopening : firstOf content c = 1 ∨
      Opening (content.lines[firstOf content c - 1]?.getD []))
    (hinner : ∀ l ∈ (content.lines.take (lastOf content f)).drop (firstOf content c), ¬ Opening l)
    (hspan : lastOf content f ≤ firstOf content c + maxSpan)
    (hbefore : name ∉ (Text.lastLine (content.take c.offset)).tokens)
    (hbehind : name ∉ f.quoted.stop.rest.firstLine.tokens) : Clear content name c f where
  lines _ hx _ := own_iff_of_opening hopening hinner (firstOf_le_lastOf hmem)
    (LineIndex.lineOf_le_length content _).2 hspan (List.mem_zipIdx hx).1
  before := hbefore
  behind := hbehind

/-- A token of the lines that are not left out stands outside the statement. -/
theorem mem_outside_iff (hmem : (c, f) ∈ statements k content)
    (h : Clear content name c f) :
    name ∈ (outside content.lines (lastOf content f)).flatMap Text.tokens ↔
      ∃ n, Text.RunAt name content n ∧
        (n + name.length ≤ c.offset ∨ f.quoted.stop.offset ≤ n) := by
  obtain ⟨-, front, text, hcontent, -, hoffset, hstop, hcount⟩ := exists_of_mem_statements hmem
  have hfront : content.take c.offset = front := by rw [hcontent, hoffset, List.take_left]
  have hfirst : firstOf content c = front.count '\n' + 1 := by
    rw [firstOf, LineIndex.lineOf_ofText, hfront]
  have hlast : lastOf content f = (front ++ text).count '\n' + 1 := by
    rw [lastOf, LineIndex.lineOf_ofText, hcount]
  have htake : content.lines.take (firstOf content c - 1) = front.lines.dropLast := by
    rw [hfirst, hcontent, Nat.add_sub_cancel, Text.take_lines]
  have hdrop : content.lines.drop (lastOf content f) = f.quoted.stop.rest.lines.tail := by
    rw [hlast, hcontent, ← List.append_assoc, Text.drop_lines]
  -- on a line with the name it is the same to be left out and to be one of the statement
  have hlines : name ∈ (outside content.lines (lastOf content f)).flatMap Text.tokens ↔
      ∃ l ∈ front.lines.dropLast ++ f.quoted.stop.rest.lines.tail, Text.IsRun name l := by
    rw [← htake, ← hdrop, ← map_filter_zipIdx
      (p := fun k => decide ¬ (firstOf content c ≤ k ∧ k ≤ lastOf content f)) (by omega)
      (firstOf_le_lastOf hmem) (LineIndex.lineOf_le_length content _).2 fun k _ => decide_eq_true_iff,
      outside, List.mem_flatMap]
    simp only [List.mem_map, List.mem_filter, decide_eq_true_iff, ← Text.mem_tokens_iff]
    constructor
    · rintro ⟨l, ⟨x, ⟨hx, hown⟩, rfl⟩, htoken⟩
      exact ⟨x.1, ⟨x, ⟨hx, (not_congr (h.lines x hx htoken)).mp hown⟩, rfl⟩, htoken⟩
    · rintro ⟨l, ⟨x, ⟨hx, hout⟩, rfl⟩, htoken⟩
      exact ⟨x.1, ⟨x, ⟨hx, (not_congr (h.lines x hx htoken)).mpr hout⟩, rfl⟩, htoken⟩
  have hbefore := Text.exists_runAt_before
    (fun hrun => h.before (hfront ▸ Text.mem_tokens_iff.mpr hrun)) (text ++ f.quoted.stop.rest)
  have hbehind := Text.exists_runAt_behind
    (fun hrun => h.behind (Text.mem_tokens_iff.mpr hrun)) (front ++ text)
  rw [← hcontent, ← hoffset] at hbefore
  rw [List.append_assoc, ← hcontent, ← hstop] at hbehind
  rw [hlines]
  simp only [List.mem_append, or_and_right, and_or_left, exists_or]
  exact or_congr hbefore.symm hbehind.symm

/-- The search for unused names puts its result together from a list for each import. What it
lists for an import are names that the import binds, unless it is a dynamic one. An import that
binds names is found at a place where one of the opening words stands, and a name that is clear
there is listed exactly if it stands neither before that place nor behind the closing quote of
the specifier. -/
theorem find?_alone (h : s.Extracted marks) :
    ∃ found : List (List UnusedName), find? s = some found.flatten ∧
      List.Forall₂ (fun i names =>
        (∀ u ∈ names, i.kind ≠ .dynamic ∧
          ∃ name ∈ i.bindings, u = ⟨fileOf s i, i.specifier, name, i.line⟩) ∧
        (i.bindings ≠ [] → ∃ c f, i.FoundAt marks s.content c f ∧
          ∃ word ∈ openingWords, ∃ rest, c.rest = word ++ rest) ∧
        ∀ c f, i.FoundAt marks s.content c f → i.kind ≠ .dynamic → ∀ name ∈ i.bindings,
          Clear s.content name c f →
          (⟨fileOf s i, i.specifier, name, i.line⟩ ∈ names ↔
            ¬ ∃ n, Text.RunAt name s.content n ∧
              (n + name.length ≤ c.offset ∨ f.quoted.stop.offset ≤ n))) s.imports found := by
  refine ⟨s.imports.map (unusedOf s), ?_, ?_⟩
  · rw [find?, mapM_eq_some fun i hi => ofImport_eq h hi]
    rfl
  · rw [List.forall₂_map_right_iff, List.forall₂_same]
    intro i hi
    refine ⟨fun u hu => ?_, h.exists_foundAt hi, fun c f hfound hstatic name hname hclear => ?_⟩
    · rw [unusedOf] at hu
      split at hu
      · cases hu
      · rename_i hstatic
        obtain ⟨name, hname, rfl⟩ := List.mem_map.mp hu
        exact ⟨hstatic, name, (List.mem_filter.mp hname).1, rfl⟩
    · have hline : i.line.toNat = lastOf s.content f := by
        have hline : i.line = lastOf s.content f := congrArg Import.line hfound.bare_eq
        rw [hline, Int.toNat_natCast]
      rw [unusedOf, if_neg hstatic, hline, ← mem_outside_iff hfound.mem hclear]
      simp [hname]

/-- The statement opens a line of its own, and nothing else stands on its lines. -/
def below : Text := "'use strict'\nimport \x7b\n  a,\n  b,\n\x7d from './x'\nlog(a, $b)\n"

theorem find?_alone_below :
    let s := Source.extract ["@/"] "/p/a.ts" below
    s.Extracted ["@/"] ∧ ∃ i ∈ s.imports, i.kind ≠ .dynamic ∧ i.bindings = ["a", "b"] ∧
      ∃ c f, i.FoundAt ["@/"] s.content c f ∧ (∀ name ∈ i.bindings, Clear s.content name c f) ∧
        (∃ n, Text.RunAt "a" below n ∧ (n + 1 ≤ c.offset ∨ f.quoted.stop.offset ≤ n)) ∧
        ¬ ∃ n, Text.RunAt "b" below n ∧ (n + 1 ≤ c.offset ∨ f.quoted.stop.offset ≤ n) := by
  intro s
  have hs : s.Extracted ["@/"] := extracted_extract _ _ _
  let i : Import := { specifier := "./x", line := 5, kind := .static, category := .relative,
                      file := some "/p/a.ts", bindings := ["a", "b"] }
  have himports : s.imports = [i] := by decide +kernel
  have hi : i ∈ s.imports := himports ▸ List.mem_singleton_self i
  obtain ⟨c, f, hfound, -⟩ := hs.exists_foundAt hi (by decide)
  have hlayout : ∀ x ∈ statements .static below,
      Opening (below.lines[firstOf below x.1 - 1]?.getD []) ∧
      (∀ l ∈ (below.lines.take (lastOf below x.2)).drop (firstOf below x.1), ¬ Opening l) ∧
      lastOf below x.2 ≤ firstOf below x.1 + maxSpan ∧
      ∀ name ∈ i.bindings, name ∉ (Text.lastLine (below.take x.1.offset)).tokens ∧
        name ∉ x.2.quoted.stop.rest.firstLine.tokens := by
    decide +kernel
  obtain ⟨hopening, hinner, hspan, htokens⟩ := hlayout (c, f) hfound.mem
  have hclear : ∀ name ∈ i.bindings, Clear below name c f := fun name hname =>
    clear_of_opening hfound.mem (Or.inr hopening) hinner hspan (htokens name hname).1
      (htokens name hname).2
  obtain ⟨found, hfind, hall⟩ := find?_alone hs
  rw [himports] at hall
  obtain ⟨names, rest, ⟨-, -, hnames⟩, hrest, rfl⟩ := List.forall₂_cons_left_iff.mp hall
  obtain rfl := List.forall₂_nil_left_iff.mp hrest
  have hreport : find? s = some [⟨"/p/a.ts", "./x", "b", 5⟩] := by decide +kernel
  have hone : names = [⟨"/p/a.ts", "./x", "b", 5⟩] := by
    rw [hreport, List.flatten_singleton] at hfind
    exact (Option.some.inj hfind).symm
  have hiff := hnames c f hfound (by decide)
  refine ⟨hs, i, hi, by decide, rfl, c, f, hfound, hclear, ?_, ?_⟩
  · by_contra hnone
    have hmem := (hiff "a" (by decide) (hclear "a" (by decide))).mpr hnone
    rw [hone] at hmem
    exact absurd hmem (by decide)
  · exact (hiff "b" (by decide) (hclear "b" (by decide))).mp (hone ▸ by decide)

/-- The name is used behind its import, on the same line. -/
def sameLine : Text := "import \x7b a \x7d from './x'; a()"

theorem not_find?_alone :
    ¬ ∀ (marks : List Text) (s : Source), s.Extracted marks →
      ∃ found : List (List UnusedName), find? s = some found.flatten ∧
        List.Forall₂ (fun i names => ∀ c f, i.FoundAt marks s.content c f → i.kind ≠ .dynamic →
          ∀ name ∈ i.bindings, (⟨fileOf s i, i.specifier, name, i.line⟩ ∈ names ↔
            ¬ ∃ n, Text.RunAt name s.content n ∧
              (n + name.length ≤ c.offset ∨ f.quoted.stop.offset ≤ n))) s.imports found := by
  intro h
  let s := Source.extract ["@/"] "/p/a.ts" sameLine
  have hs : s.Extracted ["@/"] := extracted_extract _ _ _
  let i : Import := { specifier := "./x", line := 1, kind := .static, category := .relative,
                      file := some "/p/a.ts", bindings := ["a"] }
  have himports : s.imports = [i] := by decide +kernel
  obtain ⟨c, f, hfound, -⟩ := hs.exists_foundAt (himports ▸ List.mem_singleton_self i) (by decide)
  obtain ⟨found, hfind, hall⟩ := h ["@/"] s hs
  rw [himports] at hall
  obtain ⟨names, rest, hnames, hrest, rfl⟩ := List.forall₂_cons_left_iff.mp hall
  obtain rfl := List.forall₂_nil_left_iff.mp hrest
  have hreport : find? s = some [⟨"/p/a.ts", "./x", "a", 1⟩] := by decide +kernel
  have hone : names = [⟨"/p/a.ts", "./x", "a", 1⟩] := by
    rw [hreport, List.flatten_singleton] at hfind
    exact (Option.some.inj hfind).symm
  have hstop : ∀ x ∈ statements .static sameLine, x.2.quoted.stop.offset ≤ 25 := by
    decide
  have hrun : Text.RunAt "a" sameLine 25 :=
    ⟨by decide, "import \x7b a \x7d from './x'; ", "()", by decide, by decide, by decide, by decide⟩
  exact (hnames c f hfound (by decide) "a" (by decide)).mp (hone ▸ by decide)
    ⟨25, hrun, Or.inr (hstop (c, f) hfound.mem)⟩

end Unused
end ModuleGraph
