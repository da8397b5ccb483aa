import ModuleGraph.Proofs.Accounts
import ModuleGraph.Proofs.Resolver

/-!
In which order the aliases are given does not matter.

* `exists_longest`: of the entries whose marks begin a specifier one has the longest mark, and it
  is the only one;
* `find?_perm`: so the alias that is taken is the same in every order;
* `basePath_eq_none_iff`: what begins with no mark and is not relative is external, and that alone
  stands for no path;
* `lookup_settled`: specifiers mean the same in every order, the longest mark decides, and a
  resolution has neither a path nor a reason exactly for external specifiers.
-/

namespace ModuleGraph
namespace Resolver

variable {entries entries' : Entries Text} {s : Text}

/-- Of some entries whose marks begin a specifier one has a mark that no other one exceeds. -/
theorem exists_longest (h : ∃ e ∈ entries, s.startsWith e.1 = true) :
    ∃ e ∈ entries, s.startsWith e.1 = true ∧
      ∀ f ∈ entries, s.startsWith f.1 = true → f.1.length ≤ e.1.length := by
  let matching := (entries.filter fun e => s.startsWith e.1).toFinset
  have hmem : ∀ e, e ∈ matching ↔ e ∈ entries ∧ s.startsWith e.1 = true := by
    intro e
    rw [List.mem_toFinset, List.mem_filter]
  obtain ⟨e₀, he₀, hstart₀⟩ := h
  obtain ⟨e, he, hlongest⟩ := matching.exists_max_image (fun e => e.1.length)
    ⟨e₀, (hmem e₀).mpr ⟨he₀, hstart₀⟩⟩
  obtain ⟨he, hstart⟩ := (hmem e).mp he
  exact ⟨e, he, hstart, fun f hf hf' => hlongest f ((hmem f).mpr ⟨hf, hf'⟩)⟩

/-- No other mark that begins the specifier is as long as the longest one. -/
theorem lt_of_longest (hkeys : (Entries.keys entries).Nodup) {e : Text × Text} (he : e ∈ entries)
    (hstart : s.startsWith e.1 = true)
    (hlongest : ∀ f ∈ entries, s.startsWith f.1 = true → f.1.length ≤ e.1.length) :
    ∀ f ∈ entries, s.startsWith f.1 = true → f ≠ e → f.1.length < e.1.length := by
  intro f hf hf' hne
  refine Nat.lt_of_le_of_ne (hlongest f hf hf') fun hlength => hne ?_
  have hmark : f.1 = e.1 := (eq_mark_iff hstart f.1).mp ⟨hlength, hf'⟩
  have hsame := (Entries.get?_of_mem hkeys hf).symm.trans
    ((congrArg (Entries.get? · entries) hmark).trans (Entries.get?_of_mem hkeys he))
  exact Prod.ext hmark (Option.some.inj hsame)

/-- The alias of the entry with the longest mark is taken. -/
theorem find?_of_longest (hkeys : (Entries.keys entries).Nodup) {e : Text × Text}
    (he : e ∈ entries) (hstart : s.startsWith e.1 = true)
    (hlongest : ∀ f ∈ entries, s.startsWith f.1 = true → f.1.length ≤ e.1.length) (cwd : Text)
    (suffixes : List Text) :
    ((ofEntries cwd entries suffixes).aliases.find? fun a => s.startsWith a.mark) =
      some ⟨e.1, Path.absolute cwd e.2⟩ :=
  find?_longest (Entries.get?_of_mem hkeys he) hstart hlongest cwd suffixes

theorem mem_marks {mark cwd : Text} {suffixes : List Text} :
    mark ∈ (ofEntries cwd entries suffixes).marks ↔ ∃ e ∈ entries, e.1 = mark := by
  rw [marks, ofEntries, byLength]
  simp

/-- Without a mark that begins the specifier no alias is taken. -/
theorem find?_eq_none_of_no_mark (h : ¬ ∃ e ∈ entries, s.startsWith e.1 = true) (cwd : Text)
    (suffixes : List Text) :
    ((ofEntries cwd entries suffixes).aliases.find? fun a => s.startsWith a.mark) = none := by
  rw [List.find?_eq_none]
  intro a ha hstart
  obtain ⟨e, he, hmark⟩ := mem_marks.mp (List.mem_map_of_mem (f := Alias.mark) ha)
  exact h ⟨e, he, hmark ▸ hstart⟩

/-- The alias that is taken is the same in every order of the entries. -/
theorem find?_perm (hkeys : (Entries.keys entries).Nodup) (hperm : entries.Perm entries')
    (cwd : Text) (suffixes : List Text) :
    ((ofEntries cwd entries' suffixes).aliases.find? fun a => s.startsWith a.mark) =
      (ofEntries cwd entries suffixes).aliases.find? fun a => s.startsWith a.mark := by
  have hkeys' : (Entries.keys entries').Nodup :=
    (hperm.map fun e : Text × Text => e.1).nodup_iff.mp hkeys
  by_cases h : ∃ e ∈ entries, s.startsWith e.1 = true
  · obtain ⟨e, he, hstart, hlongest⟩ := exists_longest h
    rw [find?_of_longest hkeys he hstart hlongest,
      find?_of_longest hkeys' (hperm.mem_iff.mp he) hstart fun f hf =>
        hlongest f (hperm.mem_iff.mpr hf)]
  · have h' : ¬ ∃ e ∈ entries', s.startsWith e.1 = true := by
      rintro ⟨e, he, hstart⟩
      exact h ⟨e, hperm.mem_iff.mpr he, hstart⟩
    rw [find?_eq_none_of_no_mark h, find?_eq_none_of_no_mark h']

theorem classify_perm (hperm : entries.Perm entries') (cwd : Text) (suffixes : List Text) :
    (ofEntries cwd entries' suffixes).classify s = (ofEntries cwd entries suffixes).classify s := by
  have hmarks : (ofEntries cwd entries' suffixes).marks.any s.startsWith =
      (ofEntries cwd entries suffixes).marks.any s.startsWith := by
    rw [Bool.eq_iff_iff, List.any_eq_true, List.any_eq_true]
    simp only [mem_marks, hperm.mem_iff]
  rw [classify, classify, Specifier.classify, Specifier.classify, hmarks]

/-- The path that a specifier stands for depends on the alias alone. -/
theorem basePath_eq {r r' : Resolver} (hcwd : r'.cwd = r.cwd)
    (hfind : (r'.aliases.find? fun a => s.startsWith a.mark) =
      r.aliases.find? fun a => s.startsWith a.mark) (file : Text) :
    r'.basePath s file = r.basePath s file := by
  rw [basePath, basePath, hcwd, hfind]

/-- External specifiers, and no others, stand for no path. -/
theorem basePath_eq_none_iff {r : Resolver} {file : Text} :
    r.basePath s file = none ↔ r.classify s = .external := by
  constructor
  · intro hnone
    by_contra hexternal
    obtain ⟨base, hbase⟩ := exists_basePath hexternal file
    rw [hnone] at hbase
    cases hbase
  · intro hexternal
    rw [classify, Specifier.classify] at hexternal
    split at hexternal
    · cases hexternal
    · rename_i hrelative
      split at hexternal
      · cases hexternal
      · rename_i hmarks
        have hfind : (r.aliases.find? fun a => s.startsWith a.mark) = none := by
          rw [List.find?_eq_none]
          intro a ha hstart
          exact hmarks (List.any_eq_true.mpr ⟨a.mark, List.mem_map_of_mem ha, hstart⟩)
        rw [basePath, if_neg hrelative, hfind]
        rfl

/-- A resolution is that of an external specifier, leads to a file, or tells for which path there
is no file; it never tells that no alias begins the specifier. -/
theorem resolve_cases (r : Resolver) (isFile : Text → Bool) (s file : Text) :
    let found := r.resolve isFile s file
    (r.classify s = .external ∧ found.path = none ∧ found.reason = none) ∨
    (r.classify s ≠ .external ∧ ∃ base, r.basePath s file = some base ∧
      ((∃ path, found.path = some path ∧ found.reason = none) ∨
        (found.path = none ∧ found.reason = some (.noFile base)))) := by
  intro found
  let l : Lookup := ⟨r, isFile⟩
  by_cases hexternal : r.classify s = .external
  · have hfound : found = { category := r.classify s } := if_pos hexternal
    exact Or.inl ⟨hexternal, by rw [hfound], by rw [hfound]⟩
  · obtain ⟨base, hbase, hcases⟩ := l.resolve_of_not_external hexternal file
    refine Or.inr ⟨hexternal, base, hbase, ?_⟩
    rcases hcases with ⟨path, hfound⟩ | hfound
    · have hfound : found = _ := hfound
      exact Or.inl ⟨path, by rw [hfound], by rw [hfound]⟩
    · have hfound : found = _ := hfound
      exact Or.inr ⟨by rw [hfound], by rw [hfound]⟩

/-- Specifiers mean the same in every order of the aliases. One is external exactly if it stands
for no path. Of the marks that begin one that is not relative the longest decides, and no other of
them is as long. A resolution never tells that no alias begins the specifier, and it has neither a
path nor a reason exactly if the specifier is external. -/
theorem lookup_settled (hkeys : (Entries.keys entries).Nodup) (hperm : entries.Perm entries')
    (cwd : Text) (suffixes : List Text) (isFile : Text → Bool) (s file : Text) :
    let r := ofEntries cwd entries suffixes
    let r' := ofEntries cwd entries' suffixes
    let found := r.resolve isFile s file
    r'.classify s = r.classify s ∧ r'.basePath s file = r.basePath s file ∧
    r'.resolve isFile s file = found ∧
    (r.classify s = .external ↔ r.basePath s file = none) ∧
    (Specifier.isRelative s = false → (∃ e ∈ entries, s.startsWith e.1 = true) →
      ∃ e ∈ entries, s.startsWith e.1 = true ∧
        (∀ f ∈ entries, s.startsWith f.1 = true → f ≠ e → f.1.length < e.1.length) ∧
        r.basePath s file = some (Alias.pathOf ⟨e.1, Path.absolute cwd e.2⟩ cwd s)) ∧
    (∀ why, found.reason = some why → ∃ base, r.basePath s file = some base ∧ why = .noFile base) ∧
    (found.path = none ∧ found.reason = none ↔ r.classify s = .external) := by
  intro r r' found
  have hcwd : r'.cwd = r.cwd := rfl
  have hclassify : r'.classify s = r.classify s := classify_perm hperm cwd suffixes
  have hbasePath : r'.basePath s file = r.basePath s file :=
    basePath_eq hcwd (find?_perm hkeys hperm cwd suffixes) file
  refine ⟨hclassify, hbasePath, ?_, basePath_eq_none_iff.symm, ?_, fun why hwhy => ?_, ?_⟩
  · have hcandidates : r'.candidates = r.candidates := rfl
    show r'.resolve isFile s file = r.resolve isFile s file
    rw [resolve, resolve, hclassify, hbasePath, hcandidates]
  · intro hrelative hmark
    obtain ⟨e, he, hstart, hlongest⟩ := exists_longest hmark
    exact ⟨e, he, hstart, lt_of_longest hkeys he hstart hlongest,
      basePath_of_find? hrelative (find?_of_longest hkeys he hstart hlongest cwd suffixes) file⟩
  · rcases r.resolve_cases isFile s file with ⟨-, -, hnone⟩ |
      ⟨-, base, hbase, ⟨path, -, hnone⟩ | ⟨-, hreason⟩⟩
    · exact absurd (hwhy.symm.trans hnone) (Option.some_ne_none why)
    · exact absurd (hwhy.symm.trans hnone) (Option.some_ne_none why)
    · exact ⟨base, hbase, Option.some.inj (hwhy.symm.trans hreason)⟩
  · rcases r.resolve_cases isFile s file with ⟨hexternal, hpath, hreason⟩ |
      ⟨hexternal, base, -, ⟨path, hpath, -⟩ | ⟨-, hreason⟩⟩
    · exact iff_of_true ⟨hpath, hreason⟩ hexternal
    · exact iff_of_false (fun h => Option.some_ne_none path (hpath.symm.trans h.1)) hexternal
    · exact iff_of_false (fun h => Option.some_ne_none _ (hreason.symm.trans h.2)) hexternal

/-- The longer of two marks, one of them empty and one like a relative specifier, in both orders. -/
theorem lookup_settled_nested :
    (ofEntries "/" [("@/", "/p/src"), ("", "/p"), ("../", "/p/up"), ("@/ui/", "/p/design")]
        [".ts"]).basePath "@/ui/x" "/p/src/a.ts" = some ("/p/design/x" : Text) ∧
      (ofEntries "/" [("@/ui/", "/p/design"), ("../", "/p/up"), ("", "/p"), ("@/", "/p/src")]
        [".ts"]).basePath "@/ui/x" "/p/src/a.ts" = some ("/p/design/x" : Text) := by
  let entries : Entries Text :=
    [("@/", "/p/src"), ("", "/p"), ("../", "/p/up"), ("@/ui/", "/p/design")]
  let entries' : Entries Text :=
    [("@/ui/", "/p/design"), ("../", "/p/up"), ("", "/p"), ("@/", "/p/src")]
  have hkeys : (Entries.keys entries).Nodup := by decide
  have hperm : entries.Perm entries' := by decide
  obtain ⟨-, hsame, -, -, hlongest, -⟩ := lookup_settled hkeys hperm "/" [".ts"]
    (fun _ => false) "@/ui/x" "/p/src/a.ts"
  obtain ⟨e, he, hstart, hshorter, hbase⟩ := hlongest (by decide) (by decide)
  let best : Text × Text := ("@/ui/", "/p/design")
  have hbest : e = best := by
    by_contra hne
    have hlt := hshorter best (by decide) (by decide) (Ne.symm hne)
    have hle : ∀ f ∈ entries, f.1.length ≤ best.1.length := by decide
    exact absurd hlt (Nat.not_lt.mpr (hle e he))
  have hpath : Alias.pathOf ⟨"@/ui/", Path.absolute "/" "/p/design"⟩ "/" "@/ui/x" =
      ("/p/design/x" : Text) := by decide
  rw [hbest, hpath] at hbase
  exact ⟨hbase, hsame.trans hbase⟩

end Resolver
end ModuleGraph
