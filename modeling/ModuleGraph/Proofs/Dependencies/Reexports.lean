import ModuleGraph.Proofs.Report.Validation

/-!
What a source passes on of other modules, and what becomes of it.

* `reexports`: the statements that pass names on, each with the names that are read in it;
* `mem_passedOn_extract`: a statement is a reference exactly if a name is read in it;
* `accounted_of_reference`: every reference is external, leads to a file, or is listed as one that
  leads nowhere;
* `reexports_accounted`: so is every statement in which a name is read.
-/

namespace ModuleGraph

open Cursor

namespace Source

variable {content : Text} {r : Reference}

/-- The statements of a text that pass names of another module on: where the module is named, and
the names that are read in the statement. -/
def reexports (content : Text) : List (Quoted × List Text) :=
  ((findAll Statement.exportList (·.stop.offset) content).filterMap fun l =>
    l.origin.map fun q => (q, Binding.exportNames l.names)) ++
  (findAll Statement.exportStar (·.origin.stop.offset) content).map fun s =>
    (s.origin, [s.name.getD ['*']])

/-- The reference that the origin of a statement stands for, as it is written. -/
def referenceTo (content : Text) (q : Quoted) : Reference :=
  ⟨q.text, (LineIndex.ofText content).lineOf q.inside.offset⟩

/-- A statement counts if a name is read in it. -/
theorem exists_mem_reexports_iff {p : Quoted → Prop} :
    (∃ x ∈ reexports content, x.2 ≠ [] ∧ p x.1) ↔
      (∃ l ∈ findAll Statement.exportList (·.stop.offset) content,
        ∃ q, l.origin = some q ∧ Binding.exportNames l.names ≠ [] ∧ p q) ∨
      ∃ s ∈ findAll Statement.exportStar (·.origin.stop.offset) content, p s.origin := by
  simp only [reexports, List.mem_append, List.mem_filterMap, List.mem_map, Option.map_eq_some_iff,
    or_and_right, exists_or]
  refine or_congr ⟨?_, ?_⟩ ⟨?_, ?_⟩
  · rintro ⟨x, ⟨l, hl, q, hq, rfl⟩, hne, hp⟩
    exact ⟨l, hl, q, hq, hne, hp⟩
  · rintro ⟨l, hl, q, hq, hne, hp⟩
    exact ⟨_, ⟨l, hl, q, hq, rfl⟩, hne, hp⟩
  · rintro ⟨x, ⟨s, hs, rfl⟩, -, hp⟩
    exact ⟨s, hs, hp⟩
  · rintro ⟨s, hs, hp⟩
    exact ⟨_, ⟨s, hs, rfl⟩, List.cons_ne_nil _ _, hp⟩

theorem exists_listed_iff :
    (∃ x ∈ Export.listed (.ofText content) content,
      x.2.source = some r.specifier ∧ x.2.line = r.line) ↔
    ∃ l ∈ findAll Statement.exportList (·.stop.offset) content,
      ∃ q, l.origin = some q ∧ Binding.exportNames l.names ≠ [] ∧ referenceTo content q = r := by
  simp only [Export.listed, List.mem_flatMap, List.mem_map]
  constructor
  · rintro ⟨x, ⟨l, hl, name, hname, rfl⟩, hsource, hline⟩
    obtain ⟨q, hq, htext⟩ := Option.map_eq_some_iff.mp hsource
    dsimp only at hline
    rw [hq] at hline
    refine ⟨l, hl, q, hq, List.ne_nil_of_mem hname, ?_⟩
    rw [referenceTo, htext, hline]
  · rintro ⟨l, hl, q, hq, hne, rfl⟩
    obtain ⟨name, hname⟩ := List.exists_mem_of_ne_nil _ hne
    exact ⟨_, ⟨l, hl, name, hname, rfl⟩, by rw [hq]; rfl, by rw [hq]; rfl⟩

theorem exists_starred_iff :
    (∃ x ∈ Export.starred (.ofText content) content,
      x.2.source = some r.specifier ∧ x.2.line = r.line) ↔
    ∃ s ∈ findAll Statement.exportStar (·.origin.stop.offset) content,
      referenceTo content s.origin = r := by
  simp only [Export.starred, List.mem_map]
  constructor
  · rintro ⟨x, ⟨s, hs, rfl⟩, hsource, hline⟩
    refine ⟨s, hs, ?_⟩
    dsimp only at hline
    rw [referenceTo, Option.some.inj hsource, hline]
  · rintro ⟨s, hs, rfl⟩
    exact ⟨_, ⟨s, hs, rfl⟩, rfl, rfl⟩

theorem source_eq_none_of_mem {x : Nat × Export}
    (h : x ∈ Export.declared (.ofText content) content ++
      Export.defaults (.ofText content) content) : x.2.source = none := by
  rcases List.mem_append.mp h with h | h
  · obtain ⟨n, -, rfl⟩ := List.mem_map.mp h
    rfl
  · obtain ⟨c, -, rfl⟩ := List.mem_map.mp h
    rfl

/-- What a text passes on are the statements in which a name is read, each with its module as it
is written there. -/
theorem mem_passedOn_extract {marks : List Text} {path : Text} :
    r ∈ (extract marks path content).passedOn ↔
      ∃ x ∈ reexports content, x.2 ≠ [] ∧ referenceTo content x.1 = r := by
  rw [mem_passedOn_iff isSourced_of_mem_extract,
    exists_mem_reexports_iff (p := fun q => referenceTo content q = r), ← exists_listed_iff,
    ← exists_starred_iff]
  have hmem : ∀ e : Export, e ∈ (extract marks path content).exports ↔
      ∃ x ∈ Export.declared (.ofText content) content ++
        Export.defaults (.ofText content) content ++ Export.listed (.ofText content) content ++
        Export.starred (.ofText content) content, { x.2 with file := some path } = e := by
    intro e
    simp [extract, findExports, inOrder]
  simp only [hmem]
  constructor
  · rintro ⟨e, ⟨x, hx, rfl⟩, hsource, hline⟩
    rcases List.mem_append.mp hx with hx | hx
    · rcases List.mem_append.mp hx with hx | hx
      · have hnone := source_eq_none_of_mem hx
        cases hnone.symm.trans hsource
      · exact Or.inl ⟨x, hx, hsource, hline⟩
    · exact Or.inr ⟨x, hx, hsource, hline⟩
  · rintro (⟨x, hx, hsource, hline⟩ | ⟨x, hx, hsource, hline⟩)
    · exact ⟨_, ⟨x, by simp [hx], rfl⟩, hsource, hline⟩
    · exact ⟨_, ⟨x, by simp [hx], rfl⟩, hsource, hline⟩

end Source

namespace Dependencies

variable {l : Lookup} {sources : List Source} {s : Source} {r : Reference}

/-- Every reference of a source is external and counts for its package, adds an edge from the node
of the source, or is listed as one that leads nowhere. -/
theorem accounted_of_reference (hs : s ∈ sources) (hr : r ∈ s.references) :
    (l.resolver.classify r.specifier = .external ∧
      0 < (Entries.get? (Specifier.package r.specifier) (ofSources l sources).external).getD 0) ∨
    (∃ path, l.targetOf s.path r.specifier = some path ∧
      (ofSources l sources).graph.Edge (Path.absolute l.resolver.cwd s.path)
        (Path.absolute l.resolver.cwd path)) ∨
    ∃ u ∈ (ofSources l sources).unresolved,
      u.file = s.path ∧ u.specifier = r.specifier ∧ u.line = r.line := by
  have h := accounts_ofSources l sources
  have hwalked : (s.path, r) ∈ Source.walked sources := Source.mem_walked.mpr ⟨s, hs, rfl, hr⟩
  by_cases hexternal : l.isExternal (s.path, r) = true
  · refine Or.inl ⟨of_decide_eq_true hexternal, ?_⟩
    rw [h.packages]
    exact_mod_cast List.countP_pos_iff.mpr
      ⟨(s.path, r), List.mem_filter.mpr ⟨hwalked, hexternal⟩, decide_eq_true rfl⟩
  · cases hnode : l.nodeOf (s.path, r) with
    | some node =>
      obtain ⟨path, hpath, rfl⟩ := Option.map_eq_some_iff.mp hnode
      exact Or.inr (Or.inl ⟨path, hpath, (h.edges _ _).mpr ⟨_, hwalked, rfl, hnode⟩⟩)
    | none =>
      have hlost : l.isLost (s.path, r) = true := by simp [Lookup.isLost, hexternal, hnode]
      have hmem := List.mem_filter.mpr ⟨hwalked, hlost⟩
      rw [← h.lost] at hmem
      obtain ⟨u, hu, heq⟩ := List.mem_map.mp hmem
      obtain ⟨hfile, rfl⟩ := Prod.mk.inj heq
      exact Or.inr (Or.inr ⟨u, hu, hfile, rfl, rfl⟩)

/-- What a source passes on of other modules are the statements in which a name is read. If such a
statement names the module without blanks at its ends, it is a reference like an import of the
module: it is external and counts for its package, adds an edge, or is listed as one that leads
nowhere. -/
theorem reexports_accounted (l : Lookup) {sources : List Source} {marks : List Text}
    {path content : Text} (hs : Source.extract marks path content ∈ sources) :
    (∀ r, r ∈ (Source.extract marks path content).passedOn ↔
      ∃ x ∈ Source.reexports content, x.2 ≠ [] ∧ Source.referenceTo content x.1 = r) ∧
    ∀ x ∈ Source.reexports content, x.2 ≠ [] → x.1.text.trim = x.1.text →
      ∃ r ∈ (Source.extract marks path content).references, r.specifier = x.1.text.trim ∧
        ((l.resolver.classify r.specifier = .external ∧ 0 <
          (Entries.get? (Specifier.package r.specifier) (ofSources l sources).external).getD 0) ∨
        (∃ target, l.targetOf path r.specifier = some target ∧
          (ofSources l sources).graph.Edge (Path.absolute l.resolver.cwd path)
            (Path.absolute l.resolver.cwd target)) ∨
        ∃ u ∈ (ofSources l sources).unresolved,
          u.file = path ∧ u.specifier = r.specifier ∧ u.line = r.line) := by
  refine ⟨fun r => Source.mem_passedOn_extract, fun x hx hne htrim => ?_⟩
  have hpassed : Source.referenceTo content x.1 ∈ (Source.extract marks path content).passedOn :=
    Source.mem_passedOn_extract.mpr ⟨x, hx, hne, rfl⟩
  have hr : Source.referenceTo content x.1 ∈ (Source.extract marks path content).references :=
    List.mem_append_right _ hpassed
  have hpath : (Source.extract marks path content).path = path := rfl
  have haccounted := accounted_of_reference (l := l) hs hr
  rw [hpath] at haccounted
  exact ⟨_, hr, htrim.symm, haccounted⟩

def starred : Text := "export * from './x'"

/-- Next to the source there is one more file. -/
def besideX : Lookup := ⟨⟨"/p", [], Resolver.defaultSuffixes⟩, fun file => file == "/p/x.ts"⟩

theorem reexports_accounted_starred :
    let s := Source.extract [] "/p/a.ts" starred
    s ∈ [s] ∧ (∃ x ∈ Source.reexports starred, x.2 ≠ [] ∧ x.1.text.trim = x.1.text) ∧
      (ofSources besideX [s]).graph.Edge "/p/a.ts" "/p/x.ts" := by
  intro s
  have hs : s ∈ [s] := List.mem_singleton_self s
  have hany : (Source.reexports starred).any (fun x => x.2 ≠ [] ∧ x.1.text = "./x") = true := by
    decide
  obtain ⟨x, hx, hfound⟩ := List.any_eq_true.mp hany
  obtain ⟨hne, htext⟩ := of_decide_eq_true hfound
  have htrim : x.1.text.trim = x.1.text := by
    rw [htext]
    decide
  refine ⟨hs, ⟨x, hx, hne, htrim⟩, ?_⟩
  obtain ⟨r, -, hr, hcase⟩ := (reexports_accounted besideX hs).2 x hx hne htrim
  rw [htrim, htext] at hr
  rw [hr] at hcase
  rcases hcase with ⟨hexternal, -⟩ | ⟨target, htarget, hedge⟩ | ⟨u, hu, -⟩
  · exact absurd hexternal (by decide)
  · have hx : besideX.targetOf "/p/a.ts" "./x" = some "/p/x.ts" := by decide
    obtain rfl := Option.some.inj (htarget.symm.trans hx)
    exact hedge
  · have hnone : (ofSources besideX [s]).unresolved = [] := by decide +kernel
    rw [hnone] at hu
    cases hu

/-- Statements that are no references to the module that they name: no name is read in the first
two, and the last one names it between blanks. -/
def unreferenced : List Text := ["export \x7b\x7d from './x'",
  "export \x7b a as \"b c\" \x7d from './x'", "export * from ' ./x '"]

theorem not_reexports_accounted :
    (∀ content ∈ unreferenced, (∃ x ∈ Source.reexports content, x.1.text.trim = "./x") ∧
      ∀ r ∈ (Source.extract [] "/p/a.ts" content).references, r.specifier ≠ "./x") ∧
    ¬ ∀ (marks : List Text) (path content : Text), ∀ x ∈ Source.reexports content,
      ∃ r ∈ (Source.extract marks path content).references, r.specifier = x.1.text.trim := by
  have hlost : ∀ content ∈ unreferenced,
      (∃ x ∈ Source.reexports content, x.1.text.trim = "./x") ∧
        ∀ r ∈ (Source.extract [] "/p/a.ts" content).references, r.specifier ≠ "./x" := by
    decide +kernel
  refine ⟨hlost, fun h => ?_⟩
  obtain ⟨⟨x, hx, htrim⟩, hnone⟩ := hlost _ List.mem_cons_self
  obtain ⟨r, hr, hspecifier⟩ := h [] "/p/a.ts" _ x hx
  exact hnone r hr (hspecifier.trans htrim)

end Dependencies
end ModuleGraph
