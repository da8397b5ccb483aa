import ModuleGraph.Proofs.Respell.Reach
import ModuleGraph.Proofs.Text.Tokens

/-!
The search for unused names, in terms of lines and of the identifiers in them.

* `Opening`, `opens_iff`: a line that opens a statement;
* `Own`, `own_iff`: the lines that are left out for a specifier, from its own line upwards;
* `otherLines_eq`: the text that is searched is made of all other lines;
* `isIdentifier_of_mem_names`: whatever an import binds is an identifier;
* `find?_tokens`: the search succeeds, and lists the names that are no token of the other lines.
-/

namespace ModuleGraph

open Cursor Statement

namespace Unused

/-- A line that begins, behind any blanks, with one of the opening words as a whole word; before it
may stand `export` and blanks. -/
def Opening (line : Text) : Prop :=
  ∃ gap lead word rest : Text, line = gap ++ (lead ++ (word ++ rest)) ∧
    gap.all Text.isBlank = true ∧
    (lead = [] ∨ ∃ space : Text, space ≠ [] ∧ space.all Text.isBlank = true ∧
      lead = exportWord ++ space) ∧
    word ∈ openingWords ∧ rest.head?.any Text.isWord = false

theorem exists_of_openingWord {c d : Cursor} (h : openingWord c = some d) :
    ∃ word ∈ openingWords, Passes c word d ∧ d.rest.head?.any Text.isWord = false := by
  obtain ⟨e, he, h⟩ := Option.bind_eq_some_iff.mp h
  obtain ⟨word, hword, he⟩ := List.exists_of_findSome?_eq_some he
  split at h
  · cases h
  · rename_i hrest
    obtain rfl := Option.some.inj h
    exact ⟨word, hword, passes_literal he, Bool.not_eq_true _ ▸ hrest⟩

/-- No opening word begins with another one or with `export`. -/
theorem openingWord_append {word rest : Text} (hw : word ∈ openingWords)
    (hrest : rest.head?.any Text.isWord = false) (offset : Nat) (before : Option Char) :
    (openingWord ⟨offset, before, word ++ rest⟩).isSome = true ∧
      wordGap exportWord ⟨offset, before, word ++ rest⟩ = none ∧
      ∃ x tail, word = x :: tail ∧ Text.isBlank x = false := by
  have hwords : openingWords = [['i', 'm', 'p', 'o', 'r', 't'], ['c', 'o', 'n', 's', 't'],
      ['l', 'e', 't'], ['v', 'a', 'r']] := rfl
  have hopening := hwords ▸ hw
  simp only [List.mem_cons, List.not_mem_nil, or_false] at hopening
  refine ⟨?_, ?_, ?_⟩
  · rcases hopening with rfl | rfl | rfl | rfl <;>
      simp [openingWord, hwords, literal, Cursor.char, hrest]
  · rcases hopening with rfl | rfl | rfl | rfl <;>
      simp [wordGap, exportWord, literal, Cursor.char]
  · rcases hopening with rfl | rfl | rfl | rfl <;> exact ⟨_, _, rfl, by decide⟩

theorem opens_iff {line : Text} : opens line = true ↔ Opening line := by
  constructor
  · intro h
    obtain ⟨d, hd⟩ := Option.isSome_iff_exists.mp h
    obtain ⟨gap, hgap, hall, -⟩ := passes_skip Text.isBlank (Cursor.start line)
    obtain ⟨word, hword, hpass, hrest⟩ := exists_of_openingWord hd
    cases hexport : wordGap exportWord (Cursor.start line).blanks with
    | none =>
      rw [maybeGap, hexport] at hpass
      have hline : line = gap ++ word ++ d.rest := (hgap.trans hpass).rest_eq
      exact ⟨gap, [], word, d.rest, by simpa using hline, hall, Or.inl rfl, hword, hrest⟩
    | some e =>
      rw [maybeGap, hexport] at hpass
      obtain ⟨f, hf, he⟩ := Option.bind_eq_some_iff.mp hexport
      obtain ⟨space, hspace, hblank, hpassed⟩ := exists_of_skip1 he
      have hline : line = gap ++ (exportWord ++ (space ++ word)) ++ d.rest :=
        (hgap.trans ((passes_literal hf).trans (hpassed.trans hpass))).rest_eq
      exact ⟨gap, exportWord ++ space, word, d.rest, by simpa using hline, hall,
        Or.inr ⟨space, hspace, hblank, rfl⟩, hword, hrest⟩
  · rintro ⟨gap, lead, word, rest, rfl, hgap, hlead, hword, hrest⟩
    obtain ⟨x, tail, rfl, hx⟩ := (openingWord_append hword hrest 0 none).2.2
    rw [opens]
    rcases hlead with rfl | ⟨space, hspace, hblank, rfl⟩
    · have hblanks := skip_append (p := Text.isBlank) hgap hx 0 none (tail ++ rest)
      obtain ⟨hopen, hno, -⟩ := openingWord_append hword hrest (0 + gap.length)
        (gap.getLast?.or none)
      rw [List.nil_append, Cursor.start, blanks, List.cons_append, hblanks, maybeGap]
      rw [List.cons_append] at hno hopen
      rwa [hno]
    · have hblanks := skip_append (p := Text.isBlank) (x := 'e') hgap (by decide) 0 none
        (['x', 'p', 'o', 'r', 't'] ++ (space ++ (x :: tail ++ rest)))
      have hgapped : Steps (wordGap exportWord) (exportWord ++ space) (x :: (tail ++ rest)) :=
        Steps.bind (steps_literal _ _) (steps_blanks hspace hblank hx _)
      have hstep := hgapped (0 + gap.length) (gap.getLast?.or none)
      have hline : gap ++ (exportWord ++ space ++ (x :: tail ++ rest)) =
          gap ++ 'e' :: (['x', 'p', 'o', 'r', 't'] ++ (space ++ (x :: tail ++ rest))) := by
        simp [exportWord]
      have hrestart : exportWord ++ space ++ x :: (tail ++ rest) =
          'e' :: (['x', 'p', 'o', 'r', 't'] ++ (space ++ (x :: tail ++ rest))) := by
        simp [exportWord]
      rw [hrestart] at hstep
      rw [hline, Cursor.start, blanks, hblanks, maybeGap, hstep]
      exact (openingWord_append hword hrest _ _).1

instance : DecidablePred Opening := fun _ => decidable_of_iff _ opens_iff

/-- The line `k` is left out for a specifier on the line `last`: it is this line or one of the
fifty above it, and no line behind it, up to the last one, opens a statement. -/
def Own (lines : List Text) (last k : Nat) : Prop :=
  k ≤ last ∧ last ≤ k + maxSpan ∧ ∀ l ∈ (lines.take last).drop k, ¬ Opening l

instance (lines : List Text) (last k : Nat) : Decidable (Own lines last k) :=
  inferInstanceAs (Decidable (_ ∧ _ ∧ _))

/-- The lines that are not left out. -/
def outside (lines : List Text) (last : Nat) : List Text :=
  ((lines.zipIdx 1).filter fun x => ¬ Own lines last x.2).map (·.1)

/-- The way up ends at the first line, at the limit, or at a line that opens a statement; no line
below that one does. -/
theorem openingLine_spec (lines : Array Text) (span : Nat) {n : Nat} (hn : 1 ≤ n) :
    1 ≤ openingLine lines span n ∧ openingLine lines span n ≤ n ∧
      n ≤ openingLine lines span n + span ∧
      (∀ j, openingLine lines span n < j → j ≤ n → opens (lines.getD (j - 1) []) = false) ∧
      (openingLine lines span n = 1 ∨ n = openingLine lines span n + span ∨
        opens (lines.getD (openingLine lines span n - 1) []) = true) := by
  induction span generalizing n with
  | zero =>
    exact ⟨hn, Nat.le_refl n, Nat.le_refl n, fun j hj hj' => absurd hj (Nat.not_lt.mpr hj'),
      Or.inr (Or.inl rfl)⟩
  | succ span ih =>
    by_cases hstop : (decide (n ≤ 1) || opens (lines.getD (n - 1) [])) = true
    · have hfirst : openingLine lines (span + 1) n = n := if_pos hstop
      rw [hfirst]
      refine ⟨hn, Nat.le_refl n, Nat.le_add_right _ _, fun j hj hj' => by omega, ?_⟩
      rw [Bool.or_eq_true, decide_eq_true_eq] at hstop
      exact hstop.imp (fun h => Nat.le_antisymm h hn) Or.inr
    · have hfirst : openingLine lines (span + 1) n = openingLine lines span (n - 1) :=
        if_neg hstop
      rw [Bool.or_eq_true, not_or, decide_eq_true_eq, Nat.not_le, Bool.not_eq_true] at hstop
      obtain ⟨hpos, hle, hspan, hno, hend⟩ := ih (n := n - 1) (by omega)
      rw [hfirst]
      refine ⟨hpos, by omega, by omega, fun j hj hj' => ?_, ?_⟩
      · by_cases hjn : j = n
        · rw [hjn]
          exact hstop.2
        · exact hno j hj (by omega)
      · refine hend.imp id (Or.imp (fun h => ?_) id)
        omega

theorem forall_mem_drop_take {p : Text → Prop} {lines : List Text} {last k : Nat}
    (hlast : last ≤ lines.length) : (∀ l ∈ (lines.take last).drop k, p l) ↔
      ∀ j, k < j → j ≤ last → p (lines.toArray.getD (j - 1) []) := by
  have hget : ∀ j, j < lines.length → lines.toArray.getD j [] = lines[j]?.getD [] := by
    intro j hj
    rw [Array.getD_eq_getD_getElem?, List.getElem?_toArray]
  constructor
  · intro h j hk hj
    refine h _ (List.mem_iff_getElem?.mpr ⟨j - 1 - k, ?_⟩)
    have hj' : j - 1 < lines.length := by omega
    rw [hget _ hj', List.getElem?_drop, List.getElem?_take_of_lt (by omega),
      show k + (j - 1 - k) = j - 1 by omega, List.getElem?_eq_getElem hj']
    rfl
  · intro h l hl
    obtain ⟨i, hi⟩ := List.mem_iff_getElem?.mp hl
    rw [List.getElem?_drop] at hi
    have hlt : k + i < last := by
      by_contra hge
      rw [List.getElem?_eq_none (by rw [List.length_take]; omega)] at hi
      cases hi
    rw [List.getElem?_take_of_lt hlt] at hi
    have hl := h (k + i + 1) (by omega) (by omega)
    rwa [hget _ (by omega), Nat.add_sub_cancel, hi] at hl

/-- The lines that are left out are those from the end of the way up to the specifier. -/
theorem own_iff {lines : List Text} {last k : Nat} (hpos : 1 ≤ last) (hlast : last ≤ lines.length)
    (hk : 1 ≤ k) :
    Own lines last k ↔ openingLine lines.toArray maxSpan last ≤ k ∧ k ≤ last := by
  obtain ⟨-, hle, hspan, hno, hend⟩ := openingLine_spec lines.toArray maxSpan hpos
  rw [Own, forall_mem_drop_take hlast]
  generalize openingLine lines.toArray maxSpan last = first at *
  constructor
  · rintro ⟨hlast, hlimit, hnone⟩
    refine ⟨?_, hlast⟩
    by_contra hlt
    rcases hend with h | h | h
    · omega
    · omega
    · exact hnone first (by omega) (by omega) (opens_iff.mp h)
  · rintro ⟨hfirst, hlast⟩
    refine ⟨hlast, by omega, fun j hj hj' hopening => ?_⟩
    have hopens := hno j (by omega) hj'
    rw [opens_iff.mpr hopening] at hopens
    cases hopens

/-- Without the items from one place up to another, what comes before and what comes behind is
left. -/
theorem map_filter_zipIdx {lines : List Text} {p : Nat → Bool} {first last : Nat}
    (hfirst : 1 ≤ first) (hle : first ≤ last) (hlast : last ≤ lines.length)
    (hp : ∀ k, 1 ≤ k → (p k = true ↔ ¬ (first ≤ k ∧ k ≤ last))) :
    ((lines.zipIdx 1).filter fun x => p x.2).map (·.1) =
      lines.take (first - 1) ++ lines.drop last := by
  have hkeep : ∀ (ls : List Text) (n : Nat), 1 ≤ n →
      (∀ k, n ≤ k → k < n + ls.length → ¬ (first ≤ k ∧ k ≤ last)) →
      ((ls.zipIdx n).filter fun x => p x.2).map (·.1) = ls := by
    intro ls n hn hk
    rw [List.filter_eq_self.mpr fun x hx => ?_, List.zipIdx_map_fst]
    obtain ⟨hge, hlt, -⟩ := List.mem_zipIdx hx
    exact (hp _ (by omega)).mpr (hk _ hge hlt)
  have hleave : ∀ (ls : List Text) (n : Nat), first ≤ n → n + ls.length ≤ last + 1 →
      ((ls.zipIdx n).filter fun x => p x.2) = [] := by
    intro ls n hn hk
    rw [List.filter_eq_nil_iff]
    intro x hx htrue
    obtain ⟨hge, hlt, -⟩ := List.mem_zipIdx hx
    exact (hp _ (by omega)).mp htrue ⟨by omega, by omega⟩
  have hsplit : lines = lines.take (first - 1) ++
      ((lines.take last).drop (first - 1) ++ lines.drop last) := by
    have htake := List.take_append_drop (first - 1) (lines.take last)
    rw [List.take_take, Nat.min_eq_left (by omega)] at htake
    rw [← List.append_assoc, htake, List.take_append_drop]
  have hbefore : (lines.take (first - 1)).length = first - 1 := by
    rw [List.length_take]
    omega
  have hmiddle : ((lines.take last).drop (first - 1)).length = last - (first - 1) := by
    rw [List.length_drop, List.length_take]
    omega
  conv_lhs => rw [hsplit]
  rw [List.zipIdx_append, List.zipIdx_append, List.filter_append, List.filter_append,
    List.map_append, List.map_append, hkeep _ _ (Nat.le_refl 1) (fun k _ hk => by omega),
    hleave _ _ (by omega) (by omega), hkeep _ _ (by omega) (fun k hk _ => by omega)]
  rfl

/-- The text that is searched is made of the lines that are not left out. -/
theorem otherLines_eq {lines : List Text} {last : Nat} (hpos : 1 ≤ last)
    (hlast : last ≤ lines.length) :
    otherLines lines.toArray last = Text.unlines (outside lines last) := by
  obtain ⟨hfirst, hle, -⟩ := openingLine_spec lines.toArray maxSpan hpos
  rw [otherLines, if_neg (by omega), Int.toNat_natCast, List.toList_toArray, outside]
  refine congrArg Text.unlines (map_filter_zipIdx (p := fun k => decide ¬ Own lines last k) hfirst
    hle hlast fun k hk => ?_).symm
  rw [decide_eq_true_eq, own_iff hpos hlast hk]

end Unused

namespace Binding

variable {name clause : Text}

theorem isIdentifier_of_headName {part : Text} (h : headName part = some name) :
    Text.isIdentifier name = true := by
  rw [headName] at h
  split at h
  · rename_i n hn
    obtain rfl := Option.some.inj h
    rw [namespaceName] at hn
    split at hn
    · split at hn
      · rename_i hident
        exact Option.some.inj hn ▸ hident
      · cases hn
    · cases hn
  · split at h
    · rename_i hident
      exact Option.some.inj h ▸ hident
    · cases h

theorem isIdentifier_of_itemName {item : Text} (h : itemName item = some name) :
    Text.isIdentifier name = true := by
  rw [itemName] at h
  dsimp only at h
  split at h
  · cases h
  · split at h
    · rename_i hident
      exact Option.some.inj h ▸ hident
    · cases h

/-- Whatever a clause binds is an identifier. -/
theorem isIdentifier_of_mem_names (h : name ∈ names clause) : Text.isIdentifier name = true := by
  rw [names] at h
  dsimp only at h
  rcases List.mem_append.mp h with h | h
  · obtain ⟨part, -, hpart⟩ := List.mem_filterMap.mp h
    exact isIdentifier_of_headName hpart
  · split at h
    · obtain ⟨item, -, hitem⟩ := List.mem_filterMap.mp h
      exact isIdentifier_of_itemName hitem
    · cases h

end Binding

/-- The import as it is found, without the file that it is in and the path that it leads to. -/
def Import.bare (i : Import) : Import := { i with file := none, resolved := none }

namespace Source

variable {marks : List Text} {s : Source}

/-- The imports of a source are those that are found in its content. -/
def Extracted (marks : List Text) (s : Source) : Prop :=
  s.imports.map Import.bare = findImports marks s.content

theorem extracted_extract (marks : List Text) (path content : Text) :
    (extract marks path content).Extracted marks := by
  have hbare : ∀ i ∈ findImports marks content,
      Import.bare { i with file := some path } = i := by
    intro i hi
    obtain ⟨k, f, -, rfl⟩ := mem_findImports.mp hi
    rfl
  show ((findImports marks content).map fun i => { i with file := some path }).map Import.bare = _
  rw [List.map_map]
  exact (List.map_congr_left hbare).trans (List.map_id _)

/-- An import of a source is one of the finds. -/
theorem Extracted.exists_found (h : s.Extracted marks) {i : Import} (hi : i ∈ s.imports) :
    ∃ k : ImportKind, ∃ f ∈ findAll k.recognise (·.stop.offset) s.content,
      i.bare = (Import.ofFound marks (.ofText s.content) k f).2 :=
  mem_findImports.mp (h ▸ List.mem_map_of_mem hi)

/-- The line of an import is one of the text. -/
theorem Extracted.line_mem (h : s.Extracted marks) {i : Import} (hi : i ∈ s.imports) :
    1 ≤ i.line ∧ i.line ≤ s.content.lines.length := by
  obtain ⟨k, f, -, hf⟩ := h.exists_found hi
  have hline : i.line = (LineIndex.ofText s.content).lineOf f.quoted.inside.offset :=
    congrArg Import.line hf
  rw [hline]
  exact_mod_cast LineIndex.lineOf_le_length s.content f.quoted.inside.offset

/-- Whatever an import binds is an identifier. -/
theorem Extracted.isIdentifier (h : s.Extracted marks) {i : Import} (hi : i ∈ s.imports)
    {name : Text} (hname : name ∈ i.bindings) : Text.isIdentifier name = true := by
  obtain ⟨k, f, -, hf⟩ := h.exists_found hi
  have hbindings : i.bindings = (f.binding.map Binding.names).getD [] :=
    congrArg Import.bindings hf
  rw [hbindings] at hname
  cases hb : f.binding with
  | none =>
    rw [hb] at hname
    cases hname
  | some clause =>
    rw [hb] at hname
    exact Binding.isIdentifier_of_mem_names hname

end Source

namespace Unused

open Source

variable {marks : List Text} {s : Source}

theorem mapM_eq_some {α β : Type} {f : α → Option β} {g : α → β} {xs : List α}
    (h : ∀ x ∈ xs, f x = some (g x)) : xs.mapM f = some (xs.map g) := by
  induction xs with
  | nil => rfl
  | cons x xs ih =>
    rw [List.mapM_cons, h x List.mem_cons_self, ih fun y hy => h y (List.mem_cons_of_mem _ hy)]
    rfl

/-- The names of an import that are no token of the lines that are not left out. -/
def unusedOf (s : Source) (i : Import) : List UnusedName :=
  if i.kind = .dynamic then []
  else (i.bindings.filter fun name =>
    name ∉ (outside s.content.lines i.line.toNat).flatMap Text.tokens).map fun name =>
      ⟨fileOf s i, i.specifier, name, i.line⟩

/-- An identifier occurs in the text that is searched exactly if it is a token of one of its
lines. -/
theorem occurs_otherLines {lines : List Text} {last : Nat} (hpos : 1 ≤ last)
    (hlast : last ≤ lines.length) {name : Text} (h : Text.isIdentifier name = true) :
    occurs name (otherLines lines.toArray last) = true ↔
      name ∈ (outside lines last).flatMap Text.tokens := by
  rw [occurs_iff h, otherLines_eq hpos hlast, Text.isRun_unlines, List.mem_flatMap]
  simp only [Text.mem_tokens_iff]

theorem ofImport_eq (h : s.Extracted marks) {i : Import} (hi : i ∈ s.imports) :
    ofImport s s.content.lines.toArray i = some (unusedOf s i) := by
  obtain ⟨hpos, hlast⟩ := h.line_mem hi
  obtain ⟨last, hline⟩ := Int.eq_ofNat_of_zero_le (show 0 ≤ i.line by omega)
  rw [hline] at hpos hlast
  have hpos : 1 ≤ last := by exact_mod_cast hpos
  have hlast : last ≤ s.content.lines.length := by exact_mod_cast hlast
  rw [ofImport, unusedOf]
  by_cases hdynamic : i.kind = .dynamic
  · simp [hdynamic]
  · by_cases hempty : i.bindings = []
    · simp [hempty]
    · have hskip : (i.bindings.isEmpty || decide (i.kind = .dynamic)) = false := by
        simp [hempty, hdynamic]
      have hinside : ¬ (s.content.lines.toArray.size : Int) < i.line := by
        rw [hline, List.size_toArray]
        omega
      rw [hskip, if_neg (by simp), if_neg hinside, if_neg hdynamic]
      dsimp only
      refine congrArg some (congrArg (List.map _) (List.filter_congr fun name hname => ?_))
      rw [hline, Int.toNat_natCast, Bool.eq_iff_iff, decide_eq_true_eq, Bool.not_eq_true',
        ← occurs_otherLines hpos hlast (h.isIdentifier hi hname), Bool.not_eq_true]

/-- The search for unused names in the imports that were found in the text itself never goes past
the lines of the text. It lists, import by import and name by name, what an import that is not
dynamic binds and what is no token of the lines that are not left out for it. -/
theorem find?_tokens (h : s.Extracted marks) :
    (∀ i ∈ s.imports, 1 ≤ i.line ∧ i.line ≤ s.content.lines.length) ∧
    find? s = some (s.imports.flatMap fun i =>
      if i.kind = .dynamic then []
      else (i.bindings.filter fun name =>
        name ∉ (outside s.content.lines i.line.toNat).flatMap Text.tokens).map fun name =>
          ⟨fileOf s i, i.specifier, name, i.line⟩) := by
  refine ⟨fun i hi => h.line_mem hi, ?_⟩
  rw [find?, mapM_eq_some fun i hi => ofImport_eq h hi, Option.map_some, List.flatMap_def]
  rfl

/-- A list over several lines: the lines of the statement are left out, `$b` is not `b`. -/
def listed : Text := "import \x7b\n  a,\n  b,\n\x7d from './x'\nlog(a, $b)\n"

theorem find?_tokens_listed :
    (Source.extract ["@/"] "/p/a.ts" listed).Extracted ["@/"] ∧
      find? (Source.extract ["@/"] "/p/a.ts" listed) = some [⟨"/p/a.ts", "./x", "b", 4⟩] :=
  ⟨extracted_extract _ _ _, (find?_tokens (extracted_extract _ _ _)).2.trans (by decide +kernel)⟩

end Unused
end ModuleGraph
