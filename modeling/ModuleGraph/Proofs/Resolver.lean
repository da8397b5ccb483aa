import ModuleGraph.Proofs.Path
import ModuleGraph.Proofs.Sorting
import ModuleGraph.Proofs.Value.Entries
import ModuleGraph.Resolver
import Mathlib.Data.List.Basic

/-!
Which alias a resolver takes for a specifier.

* `filter_byLength`: sorting keeps the order of aliases whose marks have the same length;
* `find?_byLength`, `find?_ofEntries`: a mark that begins a specifier counts, and of equal ones the
  first, unless a longer mark does;
* `find?_longest`: so the longest one is taken.
-/

namespace ModuleGraph

/-- The path that a specifier stands for if it begins with the mark of this alias. -/
def Alias.pathOf (a : Alias) (cwd specifier : Text) : Text :=
  match specifier.drop a.mark.length with
  | [] => a.directory
  | rest => Path.absolute cwd (Path.join a.directory rest)

namespace Resolver

variable {aliases : List Alias} {a : Alias} {t : Text}

/-- The path that a specifier stands for, if it is not relative. -/
theorem basePath_of_find? {r : Resolver} {x : Alias} (ht : Specifier.isRelative t = false)
    (hfind : (r.aliases.find? fun b => t.startsWith b.mark) = some x) (file : Text) :
    r.basePath t file = some (x.pathOf r.cwd t) := by
  rw [basePath, ht, if_neg (by decide), hfind, Option.map_some]
  rfl

theorem byLength_trans (a b c : Alias) (hab : decide (b.mark.length ≤ a.mark.length) = true)
    (hbc : decide (c.mark.length ≤ b.mark.length) = true) :
    decide (c.mark.length ≤ a.mark.length) = true := by
  rw [decide_eq_true_eq] at hab hbc ⊢
  omega

theorem byLength_total (a b : Alias) :
    (decide (b.mark.length ≤ a.mark.length) || decide (a.mark.length ≤ b.mark.length)) = true := by
  rw [Bool.or_eq_true, decide_eq_true_eq, decide_eq_true_eq]
  omega

theorem pairwise_byLength (aliases : List Alias) :
    (byLength aliases).Pairwise fun a b => b.mark.length ≤ a.mark.length := by
  have h : (byLength aliases).Pairwise fun a b => decide (b.mark.length ≤ a.mark.length) = true :=
    List.pairwise_mergeSort byLength_trans byLength_total aliases
  exact h.imp fun hab => of_decide_eq_true hab

/-- Aliases whose marks have the same length keep their order. -/
theorem filter_byLength (aliases : List Alias) (n : Nat) :
    (byLength aliases).filter (fun a => a.mark.length == n) =
      aliases.filter fun a => a.mark.length == n := by
  refine filter_mergeSort byLength_trans byLength_total (fun a b ha hb => ?_) aliases
  rw [beq_iff_eq] at ha hb
  simp [ha, hb]

/-- Of the marks that begin a text, the length tells which one it is. -/
theorem eq_mark_iff {mark : Text} (hstart : t.startsWith mark = true) (other : Text) :
    (other.length = mark.length ∧ t.startsWith other = true) ↔ other = mark := by
  constructor
  · rintro ⟨hlength, hother⟩
    obtain ⟨u, hu⟩ := Text.startsWith_iff.mp hother
    obtain ⟨v, hv⟩ := Text.startsWith_iff.mp hstart
    exact (List.append_inj (hu.symm.trans hv) hlength).1
  · intro h
    rw [h]
    exact ⟨rfl, hstart⟩

/-- A mark that begins a text counts, and of equal ones the first, unless a longer mark does. -/
theorem find?_byLength (hstart : t.startsWith a.mark = true)
    (hfirst : aliases.find? (fun b => decide (b.mark = a.mark)) = some a) :
    ∃ x, (byLength aliases).find? (fun b => t.startsWith b.mark) = some x ∧
      (x = a ∨ x ∈ aliases ∧ a.mark.length < x.mark.length) := by
  have hmem : ∀ b, b ∈ byLength aliases ↔ b ∈ aliases := fun b => List.mem_mergeSort
  have ha : a ∈ byLength aliases := (hmem a).mpr (List.mem_of_find?_eq_some hfirst)
  obtain ⟨x, hx⟩ := Option.isSome_iff_exists.mp
    (List.find?_isSome (p := fun b : Alias => t.startsWith b.mark).mpr ⟨a, ha, hstart⟩)
  obtain ⟨hxstart, before, after, hsplit, hbefore⟩ := List.find?_eq_some_iff_append.mp hx
  refine ⟨x, hx, ?_⟩
  by_cases hlt : a.mark.length < x.mark.length
  · exact Or.inr ⟨(hmem x).mp (List.mem_of_find?_eq_some hx), hlt⟩
  -- otherwise the first mark that begins the text is as long as the one of the alias
  have hlength : x.mark.length = a.mark.length := by
    have hge : a.mark.length ≤ x.mark.length := by
      have hsorted := pairwise_byLength aliases
      rw [hsplit] at hsorted ha
      rcases List.mem_append.mp ha with hin | hin
      · have hno := hbefore a hin
        simp [hstart] at hno
      · rcases List.mem_cons.mp hin with rfl | hin
        · exact Nat.le_refl _
        · exact (List.pairwise_cons.mp (List.pairwise_append.mp hsorted).2.1).1 a hin
    omega
  have hsame : ∀ b : Alias, decide ((b.mark.length == a.mark.length) = true ∧
      t.startsWith b.mark = true) = decide (b.mark = a.mark) := by
    intro b
    rw [decide_eq_decide, beq_iff_eq, eq_mark_iff hstart]
  have hrestrict : ∀ xs : List Alias,
      (xs.filter fun b => b.mark.length == a.mark.length).find? (fun b => t.startsWith b.mark) =
        xs.find? fun b => decide (b.mark = a.mark) := by
    intro xs
    rw [List.find?_filter, funext hsame]
  have hxmark : x.mark = a.mark :=
    of_decide_eq_true ((hsame x).symm.trans (decide_eq_true ⟨beq_iff_eq.mpr hlength, hxstart⟩))
  have hxfirst : (byLength aliases).find? (fun b => decide (b.mark = a.mark)) = some x := by
    refine List.find?_eq_some_iff_append.mpr ⟨decide_eq_true hxmark, before, after, hsplit,
      fun b hb => ?_⟩
    have hno := hbefore b hb
    rw [Bool.not_eq_true'] at hno ⊢
    rw [decide_eq_false_iff_not]
    intro hbmark
    rw [hbmark, hstart] at hno
    cases hno
  rw [← hrestrict, filter_byLength, hrestrict, hfirst, Option.some.injEq] at hxfirst
  exact Or.inl hxfirst.symm

/-- The first alias with a mark is the one that an entry gives it. -/
theorem find?_mark {mark root : Text} {entries : Entries Text}
    (hget : Entries.get? mark entries = some root) (cwd : Text) :
    (entries.map fun e => (⟨e.1, Path.absolute cwd e.2⟩ : Alias)).find?
      (fun b => decide (b.mark = mark)) = some ⟨mark, Path.absolute cwd root⟩ := by
  induction entries with
  | nil => simp [Entries.get?] at hget
  | cons e entries ih =>
    obtain ⟨m, dir⟩ := e
    by_cases hm : m = mark
    · simp only [Entries.get?, if_pos hm, Option.some.injEq] at hget
      rw [List.map_cons, List.find?_cons_of_pos (by simp [hm]), hm, hget]
    · simp only [Entries.get?, if_neg hm] at hget
      rw [List.map_cons, List.find?_cons_of_neg (by simp [hm])]
      exact ih hget

/-- The alias that a resolver for settings takes. -/
theorem find?_ofEntries {cwd mark root : Text} {entries : Entries Text} {suffixes : List Text}
    (hnormal : ∀ e ∈ entries, Path.IsNormal e.2) (hget : Entries.get? mark entries = some root)
    (hstart : t.startsWith mark = true) :
    ∃ x, ((ofEntries cwd entries suffixes).aliases.find? fun b => t.startsWith b.mark) = some x ∧
      (x = ⟨mark, root⟩ ∨ ∃ e ∈ entries, x = ⟨e.1, e.2⟩ ∧ mark.length < e.1.length) := by
  have hfirst := find?_mark hget cwd
  rw [(hnormal _ (Entries.mem_of_get? hget)).absolute_eq] at hfirst
  obtain ⟨x, hx, hcases⟩ := find?_byLength (a := ⟨mark, root⟩) hstart hfirst
  refine ⟨x, hx, hcases.imp_right ?_⟩
  rintro ⟨hmem, hlt⟩
  obtain ⟨⟨m, dir⟩, he, rfl⟩ := List.mem_map.mp hmem
  have hdir : Path.absolute cwd dir = dir := (hnormal _ he).absolute_eq cwd
  exact ⟨(m, dir), he, congrArg (Alias.mk m) hdir, hlt⟩

/-- Of the entries whose marks begin a specifier, the one with the longest mark is taken. -/
theorem find?_longest {mark root : Text} {entries : Entries Text}
    (hget : Entries.get? mark entries = some root) (hstart : t.startsWith mark = true)
    (hlongest : ∀ e ∈ entries, t.startsWith e.1 = true → e.1.length ≤ mark.length)
    (cwd : Text) (suffixes : List Text) :
    ((ofEntries cwd entries suffixes).aliases.find? fun b => t.startsWith b.mark) =
      some ⟨mark, Path.absolute cwd root⟩ := by
  obtain ⟨x, hx, rfl | ⟨hmem, hlt⟩⟩ :=
    find?_byLength (a := ⟨mark, Path.absolute cwd root⟩) hstart (find?_mark hget cwd)
  · exact hx
  · obtain ⟨e, he, rfl⟩ := List.mem_map.mp hmem
    have hle := hlongest e he (List.find?_some (p := fun b : Alias => t.startsWith b.mark) hx)
    exact absurd hlt (Nat.not_lt.mpr hle)

end Resolver
end ModuleGraph
