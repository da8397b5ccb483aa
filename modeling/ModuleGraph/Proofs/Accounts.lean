import ModuleGraph.Proofs.Targets
import ModuleGraph.Report.Validation
import Mathlib

/-!
Every reference of the sources is accounted for, and only once.

* `Resolver.exists_basePath`: what is not external stands for a path;
* `addReference_cases`: a reference is external, leads to a file, or is listed with the path for
  which there is no file;
* `Accounts.addReference`: the account after one more reference;
* `references_accounted`: the nodes, the edges, the packages, the references that lead nowhere and
  the counts, in terms of all references in their order.
-/

namespace ModuleGraph

namespace Tally

theorem get?_count (key p : Text) (t : Tally) :
    (Entries.get? p (t.count key)).getD 0 =
      (Entries.get? p t).getD 0 + if key = p then 1 else 0 := by
  rw [count, Entries.get?_put]
  by_cases hp : p = key
  · rw [if_pos hp, if_pos hp.symm, hp, Option.getD_some]
  · rw [if_neg hp, if_neg (Ne.symm hp), Int.add_zero]

/-- A value that is put takes the place of the one that the key had. -/
theorem sum_put (key : Text) (n : Int) (t : Tally) :
    ((Entries.put key n t).map (·.2)).sum =
      (t.map (·.2)).sum - (Entries.get? key t).getD 0 + n := by
  induction t with
  | nil => simp [Entries.put, Entries.get?]
  | cons e t ih =>
    obtain ⟨k, m⟩ := e
    by_cases hk : k = key
    · simp only [Entries.put, Entries.get?, if_pos hk, List.map_cons, List.sum_cons,
        Option.getD_some]
      omega
    · simp only [Entries.put, Entries.get?, if_neg hk, List.map_cons, List.sum_cons, ih]
      omega

theorem sum_count (key : Text) (t : Tally) :
    ((t.count key).map (·.2)).sum = (t.map (·.2)).sum + 1 := by
  rw [count, sum_put]
  omega

end Tally

namespace Graph

/-- The distinct items of a list with one more at the end. -/
theorem eraseDups_concat (xs : List Text) (x : Text) :
    (xs ++ [x]).eraseDups = insertLast x xs.eraseDups := by
  rw [List.eraseDups_append, insertLast]
  by_cases hx : x ∈ xs
  · rw [if_pos (List.mem_eraseDups.mpr hx)]
    simp [List.removeAll, hx]
  · rw [if_neg (mt List.mem_eraseDups.mp hx)]
    simp [List.removeAll, hx, List.eraseDups_cons]

theorem eraseDups_of_nodup {xs : List Text} (h : xs.Nodup) : xs.eraseDups = xs := by
  induction xs using List.reverseRecOn with
  | nil => rfl
  | append_singleton xs x ih =>
    obtain ⟨hxs, -, hx⟩ := List.nodup_append.mp h
    rw [eraseDups_concat, ih hxs, insertLast, if_neg fun hmem => hx x hmem x (by simp) rfl]

theorem insertLast_of_mem {x : Text} {xs : List Text} (h : x ∈ xs) : insertLast x xs = xs :=
  if_pos h

end Graph

namespace Resolver

/-- What is not external stands for a path: relative specifiers do, and so do those that begin with
a mark. -/
theorem exists_basePath {r : Resolver} {s : Text} (h : r.classify s ≠ .external) (file : Text) :
    ∃ base, r.basePath s file = some base := by
  rw [classify, Specifier.classify] at h
  rw [basePath]
  by_cases hrelative : Specifier.isRelative s = true
  · rw [if_pos hrelative]
    exact ⟨_, rfl⟩
  · rw [if_neg hrelative] at h ⊢
    have hmark : r.marks.any s.startsWith = true := by
      by_contra hno
      exact h (if_neg hno)
    obtain ⟨mark, hmem, hstart⟩ := List.any_eq_true.mp hmark
    obtain ⟨a, ha, rfl⟩ := List.mem_map.mp hmem
    obtain ⟨b, hb⟩ := Option.isSome_iff_exists.mp
      (List.find?_isSome (p := fun b : Alias => s.startsWith b.mark).mpr ⟨a, ha, hstart⟩)
    rw [hb]
    exact ⟨_, rfl⟩

end Resolver

namespace Source

/-- All references of some sources in their order, each with the path of its source. -/
def walked (sources : List Source) : List (Text × Reference) :=
  sources.flatMap fun s => s.references.map (s.path, ·)

theorem mem_walked {sources : List Source} {x : Text × Reference} :
    x ∈ walked sources ↔ ∃ s ∈ sources, s.path = x.1 ∧ x.2 ∈ s.references := by
  obtain ⟨file, r⟩ := x
  rw [walked, List.mem_flatMap]
  constructor
  · rintro ⟨s, hs, hx⟩
    obtain ⟨q, hq, heq⟩ := List.mem_map.mp hx
    obtain ⟨rfl, rfl⟩ := Prod.mk.inj heq
    exact ⟨s, hs, rfl, hq⟩
  · rintro ⟨s, hs, rfl, hr⟩
    exact ⟨s, hs, List.mem_map_of_mem hr⟩

end Source

namespace Lookup

/-- Is a reference external? -/
def isExternal (l : Lookup) (x : Text × Reference) : Bool :=
  decide (l.resolver.classify x.2.specifier = .external)

/-- The node of the file that a reference leads to. -/
def nodeOf (l : Lookup) (x : Text × Reference) : Option Text :=
  (l.targetOf x.1 x.2.specifier).map (Path.absolute l.resolver.cwd)

/-- Does a reference that is not external lead to no file? -/
def isLost (l : Lookup) (x : Text × Reference) : Bool := !l.isExternal x && (l.nodeOf x).isNone

theorem category_resolve (l : Lookup) (s file : Text) :
    (l.resolve s file).category = l.resolver.classify s := by
  rw [resolve, Resolver.resolve]
  by_cases h : l.resolver.classify s = .external
  · rw [if_pos h]
  · rw [if_neg h]
    split
    · rfl
    · split <;> rfl

/-- What is not external leads to a file, or to none of those that its path could mean. -/
theorem resolve_of_not_external (l : Lookup) {s : Text} (h : l.resolver.classify s ≠ .external)
    (file : Text) : ∃ base, l.resolver.basePath s file = some base ∧
      ((∃ path, l.resolve s file = { category := l.resolver.classify s, path := some path }) ∨
        l.resolve s file =
          { category := l.resolver.classify s, reason := some (.noFile base) }) := by
  obtain ⟨base, hbase⟩ := Resolver.exists_basePath h file
  refine ⟨base, hbase, ?_⟩
  rw [resolve, Resolver.resolve, if_neg h, hbase]
  dsimp only
  cases (l.resolver.candidates base).find? l.isFile with
  | some path => exact Or.inl ⟨path, rfl⟩
  | none => exact Or.inr rfl

end Lookup

namespace Dependencies

variable {l : Lookup} {file : Text} {d : Dependencies} {files : List Text}
  {seen : List (Text × Reference)}

/-- What one more reference does: it is counted, and it counts for a package, adds an edge, or is
listed with the path for which there is no file. -/
theorem addReference_cases (l : Lookup) (file : Text) (d : Dependencies) (r : Reference) :
    (l.isExternal (file, r) = true ∧ l.nodeOf (file, r) = none ∧
      addReference l file d r =
        { d with
          references := d.references + 1
          external := d.external.count (Specifier.package r.specifier) }) ∨
    (l.isExternal (file, r) = false ∧ ∃ node, l.nodeOf (file, r) = some node ∧
      addReference l file d r =
        { d with
          references := d.references + 1
          graph := d.graph.addEdge (Path.absolute l.resolver.cwd file) node }) ∨
    (l.isExternal (file, r) = false ∧ l.nodeOf (file, r) = none ∧
      ∃ base, l.resolver.basePath r.specifier file = some base ∧
      addReference l file d r =
        { d with
          references := d.references + 1
          unresolved := d.unresolved ++
            [⟨file, r.specifier, r.line, "no file matches " ++ base⟩] }) := by
  unfold addReference Lookup.isExternal Lookup.nodeOf Lookup.targetOf
  by_cases h : l.resolver.classify r.specifier = .external
  · have hcategory : (l.resolve r.specifier file).category = .external := by
      rw [l.category_resolve, h]
    refine Or.inl ⟨decide_eq_true h, ?_, ?_⟩
    · rw [Lookup.path_of_external hcategory]
      rfl
    · simp only [hcategory]
  · obtain ⟨base, hbase, hresolve⟩ := l.resolve_of_not_external h file
    refine Or.inr ?_
    rcases hresolve with ⟨path, hresolve⟩ | hresolve
    · refine Or.inl ⟨decide_eq_false h, Path.absolute l.resolver.cwd path, ?_, ?_⟩
      · rw [hresolve]
        rfl
      · rw [hresolve]
        cases hc : l.resolver.classify r.specifier with
        | external => exact absurd hc h
        | _ => rfl
    · refine Or.inr ⟨decide_eq_false h, ?_, base, hbase, ?_⟩
      · rw [hresolve]
        rfl
      · rw [hresolve]
        cases hc : l.resolver.classify r.specifier with
        | external => exact absurd hc h
        | _ => rfl

/-- The account of the references that were seen so far, given the nodes of all files. -/
structure Accounts (l : Lookup) (files : List Text) (seen : List (Text × Reference))
    (d : Dependencies) : Prop where
  nodes : d.graph.nodes = (files ++ seen.filterMap l.nodeOf).eraseDups
  edges : ∀ a b, d.graph.Edge a b ↔
    ∃ x ∈ seen, Path.absolute l.resolver.cwd x.1 = a ∧ l.nodeOf x = some b
  packages : ∀ p, (Entries.get? p d.external).getD 0 =
    ((seen.filter l.isExternal).countP fun x => decide (Specifier.package x.2.specifier = p) : Nat)
  packages_sum : (d.external.map (·.2)).sum = ((seen.filter l.isExternal).length : Int)
  lost : (d.unresolved.map fun u => (u.file, (⟨u.specifier, u.line⟩ : Reference))) =
    seen.filter l.isLost
  reasons : ∀ u ∈ d.unresolved, ∃ base,
    l.resolver.basePath u.specifier u.file = some base ∧ u.reason = "no file matches " ++ base
  references : d.references = seen.length
  parts : seen.length =
    (seen.filter l.isExternal).length + d.unresolved.length + (seen.filterMap l.nodeOf).length

/-- The account after one more reference of a file. -/
theorem Accounts.addReference (h : Accounts l files seen d)
    (hfile : Path.absolute l.resolver.cwd file ∈ files) (r : Reference) :
    Accounts l files (seen ++ [(file, r)]) (Dependencies.addReference l file d r) := by
  have hreferences : d.references + 1 = ((seen ++ [(file, r)]).length : Int) := by
    rw [h.references, List.length_append, List.length_singleton]
    rfl
  have hparts := h.parts
  rcases addReference_cases l file d r with ⟨hx, hn, hd⟩ | ⟨hx, node, hn, hd⟩ |
    ⟨hx, hn, base, hbase, hd⟩
  · -- an external reference counts for its package
    have hlost : l.isLost (file, r) = false := by rw [Lookup.isLost, hx]; rfl
    rw [hd]
    refine ⟨?_, fun a b => ?_, fun p => ?_, ?_, ?_, h.reasons, hreferences, ?_⟩
    · simp [h.nodes, hn]
    · rw [h.edges]
      simp [or_and_right, exists_or, hn]
    · simp only [Tally.get?_count, h.packages]
      by_cases hp : Specifier.package r.specifier = p <;> simp [hx, hp]
    · simp only [Tally.sum_count, h.packages_sum]
      simp [hx]
    · simp [h.lost, hlost]
    · simp [hx, hn]
      omega
  · -- a reference that leads to a file adds an edge to it
    have hlost : l.isLost (file, r) = false := by rw [Lookup.isLost, hn]; simp
    have hsource : Path.absolute l.resolver.cwd file ∈ d.graph.nodes := by
      rw [h.nodes, List.mem_eraseDups]
      exact List.mem_append_left _ hfile
    rw [hd]
    refine ⟨?_, fun a b => ?_, fun p => ?_, ?_, ?_, h.reasons, hreferences, ?_⟩
    · dsimp only
      rw [Graph.nodes_addEdge, Graph.insertLast_of_mem hsource, h.nodes, ← Graph.eraseDups_concat]
      simp [hn]
    · dsimp only
      rw [Graph.edge_addEdge, h.edges]
      simp [or_and_right, exists_or, hn, eq_comm]
    · simp [h.packages, hx]
    · simp [h.packages_sum, hx]
    · simp [h.lost, hlost]
    · simp [hx, hn]
      omega
  · -- what leads nowhere is listed with its path
    have hlost : l.isLost (file, r) = true := by rw [Lookup.isLost, hx, hn]; rfl
    rw [hd]
    refine ⟨?_, fun a b => ?_, fun p => ?_, ?_, ?_, fun u hu => ?_, hreferences, ?_⟩
    · simp [h.nodes, hn]
    · rw [h.edges]
      simp [or_and_right, exists_or, hn]
    · simp [h.packages, hx]
    · simp [h.packages_sum, hx]
    · simp [h.lost, hlost]
    · rcases List.mem_append.mp hu with hu | hu
      · exact h.reasons u hu
      · rw [List.mem_singleton.mp hu]
        exact ⟨base, hbase, rfl⟩
    · simp [hx, hn]
      omega

theorem nodes_filesOnly (cwd : Text) (sources : List Source) :
    (filesOnly cwd sources).graph.nodes =
      (sources.map fun s => Path.absolute cwd s.path).eraseDups := by
  induction sources using List.reverseRecOn with
  | nil => rfl
  | append_singleton sources s ih =>
    rw [filesOnly] at ih ⊢
    dsimp only at ih ⊢
    rw [List.foldl_append, List.foldl_cons, List.foldl_nil, Graph.nodes_addNode, ih,
      List.map_append, List.map_singleton, Graph.eraseDups_concat]

theorem successors_filesOnly (cwd : Text) (sources : List Source) (a : Text) :
    (filesOnly cwd sources).graph.successors a = [] := by
  induction sources using List.reverseRecOn with
  | nil => rfl
  | append_singleton sources s ih =>
    rw [filesOnly] at ih ⊢
    dsimp only at ih ⊢
    rw [List.foldl_append, List.foldl_cons, List.foldl_nil, Graph.successors_addNode, ih]

theorem accounts_filesOnly (l : Lookup) (sources : List Source) :
    Accounts l (sources.map fun s => Path.absolute l.resolver.cwd s.path) []
      (filesOnly l.resolver.cwd sources) where
  nodes := by rw [nodes_filesOnly, List.filterMap_nil, List.append_nil]
  edges a b := by simp [Graph.edge_iff, successors_filesOnly]
  packages p := rfl
  packages_sum := rfl
  lost := rfl
  reasons u hu := absurd hu List.not_mem_nil
  references := rfl
  parts := rfl

/-- Sources are gone through reference by reference. -/
theorem ofSources_eq_foldl (l : Lookup) (sources : List Source) :
    ofSources l sources = (Source.walked sources).foldl (fun d x => addReference l x.1 d x.2)
      (filesOnly l.resolver.cwd sources) := by
  have hsource : ∀ (d : Dependencies) (s : Source), addSource l d s =
      (s.references.map (s.path, ·)).foldl (fun d x => addReference l x.1 d x.2) d := by
    intro d s
    rw [List.foldl_map, addSource]
  rw [ofSources, Source.walked, List.foldl_flatMap, funext₂ hsource]

/-- The account of all references. -/
theorem accounts_ofSources (l : Lookup) (sources : List Source) :
    Accounts l (sources.map fun s => Path.absolute l.resolver.cwd s.path) (Source.walked sources)
      (ofSources l sources) := by
  have hrun : ∀ xs : List (Text × Reference),
      (∀ x ∈ xs, Path.absolute l.resolver.cwd x.1 ∈
        sources.map fun s => Path.absolute l.resolver.cwd s.path) →
      Accounts l (sources.map fun s => Path.absolute l.resolver.cwd s.path) xs
        (xs.foldl (fun d x => addReference l x.1 d x.2) (filesOnly l.resolver.cwd sources)) := by
    intro xs hxs
    induction xs using List.reverseRecOn with
    | nil => exact accounts_filesOnly l sources
    | append_singleton xs x ih =>
      rw [List.foldl_append, List.foldl_cons, List.foldl_nil]
      exact (ih fun y hy => hxs y (List.mem_append_left _ hy)).addReference
        (hxs x (by simp)) x.2
  rw [ofSources_eq_foldl]
  refine hrun _ fun x hx => ?_
  obtain ⟨s, hs, hpath, -⟩ := Source.mem_walked.mp hx
  exact List.mem_map.mpr ⟨s, hs, by rw [hpath]⟩

/-- The nodes are the files, then the other targets in the order in which they are first led to;
the edges go from the files to the targets of their references; each package has as many uses as
there are references to it; the references that are neither external nor lead to a file are listed
in their order, each with the path for which there is no file. So every reference is counted once,
and those that a validation calls valid are the external ones and those that lead to a file. -/
theorem references_accounted (l : Lookup) (sources : List Source) (root : Text)
    (skipped : List Text) :
    let cwd := l.resolver.cwd
    let d := ofSources l sources
    let files := sources.map fun s => Path.absolute cwd s.path
    let external := (Source.walked sources).filter fun x =>
      decide (l.resolver.classify x.2.specifier = .external)
    let targets := (Source.walked sources).filterMap fun x =>
      (l.resolve x.2.specifier x.1).path.map (Path.absolute cwd)
    d.graph.nodes = files.eraseDups ++ (targets.filter (· ∉ files)).eraseDups ∧
    (∀ a b, d.graph.hasEdge a b = true ↔ ∃ s ∈ sources, Path.absolute cwd s.path = a ∧
      ∃ r ∈ s.references, l.resolver.classify r.specifier ≠ .external ∧
        ∃ path, (l.resolve r.specifier s.path).path = some path ∧ Path.absolute cwd path = b) ∧
    (∀ p, (Entries.get? p d.external).getD 0 =
      (external.countP fun x => decide (Specifier.package x.2.specifier = p) : Nat)) ∧
    (d.unresolved.map fun u => (u.file, (⟨u.specifier, u.line⟩ : Reference))) =
      (Source.walked sources).filter (fun x =>
        decide (l.resolver.classify x.2.specifier ≠ .external) &&
          (l.resolve x.2.specifier x.1).path.isNone) ∧
    (∀ u ∈ d.unresolved, ∃ base, l.resolver.basePath u.specifier u.file = some base ∧
      u.reason = "no file matches " ++ base) ∧
    d.references = (Source.walked sources).length ∧
    d.references = (d.external.map (·.2)).sum + d.unresolved.length + targets.length ∧
    (ValidationReport.ofAnalysis (Analysis.ofSources l root sources skipped)).valid =
      external.length + targets.length := by
  intro cwd d files external targets
  have h := accounts_ofSources l sources
  have hcount : d.references = (d.external.map (·.2)).sum + d.unresolved.length +
      targets.length := by
    rw [h.references, h.packages_sum, h.parts]
    rfl
  refine ⟨?_, fun a b => ?_, h.packages, ?_, h.reasons, h.references, hcount, ?_⟩
  · have hothers : targets.removeAll files = targets.filter (· ∉ files) := by
      rw [List.removeAll]
      simp
    rw [← hothers, ← List.eraseDups_append]
    exact h.nodes
  · have hedge := h.edges a b
    rw [Graph.Edge] at hedge
    rw [hedge]
    constructor
    · rintro ⟨⟨file, r⟩, hx, hfile, hnode⟩
      obtain ⟨s, hs, hpath, hr⟩ := Source.mem_walked.mp hx
      obtain ⟨path, htarget, hb⟩ := Option.map_eq_some_iff.mp hnode
      dsimp only at hpath hfile htarget hr
      subst hpath
      refine ⟨s, hs, hfile, r, hr, fun hexternal => ?_, path, htarget, hb⟩
      have hcategory := (l.category_resolve r.specifier s.path).trans hexternal
      have hnone := Lookup.path_of_external hcategory
      rw [Lookup.targetOf, hnone] at htarget
      cases htarget
    · rintro ⟨s, hs, hfile, r, hr, -, path, htarget, hb⟩
      refine ⟨(s.path, r), Source.mem_walked.mpr ⟨s, hs, rfl, hr⟩, hfile, ?_⟩
      exact Option.map_eq_some_iff.mpr ⟨path, htarget, hb⟩
  · rw [h.lost]
    refine List.filter_congr fun x _ => ?_
    rw [Lookup.isLost, Lookup.isExternal, Lookup.nodeOf, Lookup.targetOf, Option.isNone_map,
      decide_not]
  · have hinvalid :
        (ValidationReport.ofAnalysis (Analysis.ofSources l root sources skipped)).valid =
          d.references - d.unresolved.length := by
      show d.references - ((d.unresolved.map _).length : Int) = _
      rw [List.length_map]
    rw [hinvalid, hcount, h.packages_sum]
    show _ = ((external.length : Int) + targets.length)
    have hsame : external = (Source.walked sources).filter l.isExternal := rfl
    rw [hsame]
    omega

end Dependencies
end ModuleGraph
