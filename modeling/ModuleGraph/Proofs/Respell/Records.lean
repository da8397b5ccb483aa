import ModuleGraph.Proofs.Respell.Framed

/-!
What is on record is what was written.

* `Text.HoldsQuoted`: a text stands whole between two quotes of a line;
* `records_faithful`: a change is recorded from a specifier to its aliased form, and the line with
  the number of the change holds that form, unless a directory below the root has a quote or a line
  end in its name;
* `not_records_faithful`: if one has, something else is recorded.
-/

namespace ModuleGraph

open Cursor Cut

/-- The text stands whole between two equal quotes of the line. -/
def Text.HoldsQuoted (line t : Text) : Prop :=
  ∃ front q back, line = front ++ q :: (t ++ q :: back) ∧ isQuote q = true ∧ t.IsQuotable

namespace Respell

variable {a : Aliasing} {cwd file content : Text} {c : Change}

/-- The line of a change holds the new specifier, if aliased forms can stand between quotes. -/
theorem holdsQuoted_of_mem_changes (hcwd : Path.isAbsolute cwd = true) (hm : IsMark a.mark)
    (hquotable : ∀ s t, s.IsQuotable → a.aliased cwd file s = some t → t.IsQuotable)
    (hc : c ∈ (text cwd file (Rule.computedRules a) content).changes) :
    ∃ i line, c.line = (i + 1 : Nat) ∧
      (text cwd file (Rule.computedRules a) content).after.lines[i]? = some line ∧
      line.HoldsQuoted c.after := by
  have hp := Rule.isPlain_computedRules (a := a)
  have hr := Rule.isTidy_computedRules hquotable
  obtain ⟨hbefore, hal⟩ := aliased_of_mem_changes hquotable hc
  obtain ⟨i, hi, hnumber⟩ := exists_line_of_mem_changes hc
  have hline := List.getElem?_eq_getElem hi
  have hafter := getElem?_lines_after hp hr content i
  rw [hline, Option.map_some] at hafter
  refine ⟨i, _, hnumber, hafter, ?_⟩
  have hmem : c ∈ Change.onLine (i + 1) (text cwd file (Rule.computedRules a) content).changes :=
    List.mem_filter.mpr ⟨hc, decide_eq_true hnumber⟩
  rw [onLine_changes hline] at hmem
  obtain ⟨w, cs, ds, ps, -, hds, -, -, hproper, htouched, hperm⟩ :=
    exists_touched hp hr Rule.moves_computedRules (isOnce_aliased hcwd hm file) (i + 1)
      (Text.not_mem_of_mem_splitOn (List.mem_of_getElem? hline))
  have hpair : (c.before, c.after) ∈ ps :=
    hperm.mem_iff.mpr (List.mem_map.mpr ⟨c, hmem, rfl⟩)
  obtain ⟨front, q, back, hspell, hq⟩ := htouched.exists_enclosed hpair
  obtain ⟨d, hd, rfl⟩ := List.mem_map.mp hq
  refine ⟨w ++ front, d.quote, back, ?_, (hproper d hd).isQuote, hquotable _ _ hbefore hal⟩
  rw [hds, hspell, List.append_assoc]

/-- At any absolute path, a change that a computed rule records is from a specifier to its aliased
form, and the line with its number holds that form whole between two quotes. Only a name with a
quote or a line end in it is in the way, and only that of a directory of the file which is further
down than the root: such a name is put between the quotes as it is. -/
theorem records_faithful {root mark : Text} (hcwd : Path.isAbsolute cwd = true) (hm : IsMark mark)
    (hmark : mark.all isQuotable = true)
    (hbelow : ∀ n ∈ (Path.names (Path.absolute cwd file)).dropLast.drop
      (Path.names (Path.absolute cwd root)).length, n.all isQuotable = true)
    (skip : Bool) (content : Text) :
    let a : Aliasing := ⟨root, mark, skip⟩
    let r := text cwd file (Rule.computedRules a) content
    ∀ c ∈ r.changes, a.aliased cwd file c.before = some c.after ∧
      ∃ i line, c.line = (i + 1 : Nat) ∧ r.after.lines[i]? = some line ∧
        line.HoldsQuoted c.after := by
  intro a r c hc
  have hquotable : ∀ s t, s.IsQuotable → a.aliased cwd file s = some t → t.IsQuotable := by
    intro s t hs ht
    rw [← Aliasing.aliased_root hcwd, ← Aliasing.aliased_absolute hcwd] at ht
    exact Aliasing.isQuotable_aliased_below (a := ⟨Path.absolute cwd root, mark, skip⟩)
      (Path.isNormal_absolute hcwd file) (Path.isNormal_absolute hcwd root) hbelow hmark hs ht
  exact ⟨(aliased_of_mem_changes hquotable hc).2,
    holdsQuoted_of_mem_changes hcwd hm hquotable hc⟩

/-- A quote above the root does not count. -/
theorem records_faithful_above :
    let a : Aliasing := ⟨"/it's/src", atMark, true⟩
    let r := text "/p" "/it's/src/a/f.ts" (Rule.computedRules a) "import '../x'"
    r.changes = [⟨"../x", "@/x", 1, "relative-to-alias:side-effect"⟩] ∧
      ∀ c ∈ r.changes, a.aliased "/p" "/it's/src/a/f.ts" c.before = some c.after ∧
        ∃ i line, c.line = (i + 1 : Nat) ∧ r.after.lines[i]? = some line ∧
          line.HoldsQuoted c.after :=
  have hcwd : Path.isAbsolute "/p" = true := by decide
  ⟨by decide, records_faithful hcwd ⟨by decide, by decide⟩ (by decide) (by decide) true
    "import '../x'"⟩

/-- Of a new specifier with a quote from a directory in it, what stands before the quote is
recorded; of one with a line end, the whole statement. -/
theorem not_records_faithful :
    (¬ ∀ cwd file root content : Text, Path.isAbsolute cwd = true → Path.isAbsolute file = true →
      let a : Aliasing := ⟨root, atMark, true⟩
      let r := text cwd file (Rule.computedRules a) content
      ∀ c ∈ r.changes, a.aliased cwd file c.before = some c.after ∧
        ∃ i line, c.line = (i + 1 : Nat) ∧ r.after.lines[i]? = some line ∧
          line.HoldsQuoted c.after) ∧
    (text "/p" "/p/src/it's/b/f.ts" (Rule.computedRules ⟨"/p/src", atMark, true⟩)
      "import '../x'").changes = [⟨"../x", "@/it", 1, "relative-to-alias:side-effect"⟩] ∧
    (text "/p" "/p/src/l\nm/b/f.ts" (Rule.computedRules ⟨"/p/src", atMark, true⟩)
      "import '../x'").changes =
        [⟨"../x", "import '@/l\nm/x'", 1, "relative-to-alias:side-effect"⟩] := by
  have hquote : (text "/p" "/p/src/it's/b/f.ts" (Rule.computedRules ⟨"/p/src", atMark, true⟩)
      "import '../x'").changes = [⟨"../x", "@/it", 1, "relative-to-alias:side-effect"⟩] := by
    decide
  refine ⟨fun h => ?_, hquote, by decide⟩
  have hfaithful := h "/p" "/p/src/it's/b/f.ts" "/p/src" "import '../x'" (by decide) (by decide)
  dsimp only at hfaithful
  rw [hquote] at hfaithful
  have haliased := (hfaithful _ List.mem_cons_self).1
  revert haliased
  decide

end Respell
end ModuleGraph
