import ModuleGraph.Proofs.Path
import ModuleGraph.Proofs.Resolver
import ModuleGraph.Respell.Aliasing

/-!
An aliased specifier means the same path as the relative one that it stands for.

* `aliased_spec`: the aliased form is the mark and the names below the root of the place meant;
* `not_isRelative_aliased`: it is not read as a relative specifier;
* `absolute_join_below`, `pathOf_aliased`: seen from the root, those names lead back to that place;
* `mem_aliased`: the aliased form has no characters but those of the mark, the file and the
  specifier;
* `basePath_aliased`, `resolve_aliased`: both forms stand for one path and lead to one file.
-/

namespace ModuleGraph

/-- A mark that no relative specifier begins with. -/
structure IsMark (mark : Text) : Prop where
  not_here : mark.startsWith ['.', '/'] = false
  not_up : mark.startsWith ['.', '.', '/'] = false

namespace Specifier

/-- A specifier is relative if its first step is a dot or two. -/
theorem isRelative_iff {s : Text} :
    isRelative s = true ↔
      (s.splitOn '/').head? = some Path.here ∨ (s.splitOn '/').head? = some Path.up := by
  have hstart : ∀ p : Text, s.startsWith (p ++ ['/']) = true ↔ ∃ rest, s = p ++ '/' :: rest := by
    intro p
    rw [Text.startsWith_iff]
    simp
  have hhere := hstart Path.here
  have hup := hstart Path.up
  simp only [Path.here, Path.up, List.cons_append, List.nil_append] at hhere hup
  simp only [isRelative, Bool.or_eq_true, beq_iff_eq, hhere, hup]
  constructor
  · rintro (((h | h) | h) | h)
    · exact Or.inl (Text.head?_splitOn (by decide) (Or.inl h))
    · exact Or.inr (Text.head?_splitOn (by decide) (Or.inl h))
    · exact Or.inl (Text.head?_splitOn (by decide) (Or.inr h))
    · exact Or.inr (Text.head?_splitOn (by decide) (Or.inr h))
  · rintro (h | h)
    · rcases Text.eq_of_head?_splitOn h with h | h
      · exact Or.inl (Or.inl (Or.inl h))
      · exact Or.inl (Or.inr h)
    · rcases Text.eq_of_head?_splitOn h with h | h
      · exact Or.inl (Or.inl (Or.inr h))
      · exact Or.inr h

theorem not_isAbsolute {s : Text} (h : isRelative s = true) : Path.isAbsolute s = false := by
  rcases isRelative_iff.mp h with h | h
  all_goals
    rcases Text.eq_of_head?_splitOn h with rfl | ⟨rest, rfl⟩ <;> rfl

/-- A mark before a name is not read as relative. -/
theorem not_isRelative_append {mark name below : Text} (hm : IsMark mark) (hn : Path.IsName name)
    (hb : below = name ∨ ∃ rest, below = name ++ Path.slash :: rest) :
    isRelative (mark ++ below) = false := by
  rw [← Bool.not_eq_true, isRelative_iff]
  intro h
  by_cases hs : '/' ∈ mark
  · obtain ⟨first, rest, rfl, hfirst⟩ := List.eq_append_cons_of_mem hs
    rw [List.append_assoc, List.cons_append, Text.splitOn_append_cons hfirst] at h
    rcases h with h | h
    · obtain rfl : first = Path.here := by simpa using h
      have := hm.not_here
      rw [← Bool.not_eq_true, Text.startsWith_iff] at this
      exact this ⟨rest, rfl⟩
    · obtain rfl : first = Path.up := by simpa using h
      have := hm.not_up
      rw [← Bool.not_eq_true, Text.startsWith_iff] at this
      exact this ⟨rest, rfl⟩
  · have hhead : ((mark ++ below).splitOn '/').head? = some (mark ++ name) := by
      refine Text.head?_splitOn ?_ ?_
      · rw [List.mem_append, not_or]
        exact ⟨hs, hn.no_slash⟩
      · rcases hb with rfl | ⟨rest, rfl⟩
        · exact Or.inl rfl
        · exact Or.inr ⟨rest, by rw [List.append_assoc]; rfl⟩
    rw [hhead, Option.some.injEq, Option.some.injEq] at h
    rcases mark with _ | ⟨c, _ | ⟨d, rest⟩⟩
    · exact h.elim hn.ne_here hn.ne_up
    · rcases h with h | h
      · exact hn.ne_nil (List.cons_eq_cons.mp h).2
      · exact hn.ne_here (List.cons_eq_cons.mp h).2
    · rcases h with h | h
      · cases h
      · have hrest := (List.cons_eq_cons.mp (List.cons_eq_cons.mp h).2).2
        exact hn.ne_nil (List.append_eq_nil_iff.mp hrest).2

end Specifier

/-- The normal form of an absolute path has no characters but those of the path. -/
theorem Path.mem_absolute {cwd p : Text} {c : Char} (hp : Path.isAbsolute p = true)
    (hc : c ∈ Path.absolute cwd p) : c = Path.slash ∨ c ∈ p := by
  rw [Path.absolute, if_pos hp] at hc
  have hn := Path.isNormal_normalize hp
  rw [hn.eq_write, hn.isLead.write_eq, List.mem_append] at hc
  rcases hc with hc | hc
  · rcases hn.isLead with h | h <;> simp [h] at hc <;> exact Or.inl hc
  · rcases Text.mem_join hc with rfl | ⟨n, hmem, hc⟩
    · exact Or.inl rfl
    · rw [Path.names_normalize hp, Path.resolved, hp, List.mem_reverse] at hmem
      have hname : n ∈ Path.names p := by simpa using Path.mem_foldl_pushName hmem
      exact Or.inr (Path.mem_of_mem_names hname hc)

namespace Aliasing

variable {a : Aliasing} {cwd file s t : Text}

/-- The place that a relative specifier means. -/
theorem target_spec (cwd : Text) (hf : Path.IsNormal file) (hs : Specifier.isRelative s = true) :
    Path.IsNormal (target cwd file s) ∧ Path.root (target cwd file s) = Path.root file ∧
      ∀ n ∈ Path.names (target cwd file s), n ∈ Path.names file ∨ n ∈ Path.names s := by
  obtain ⟨hd, hroot, hnames⟩ := hf.directory
  obtain ⟨hn, hr, hmem⟩ := Path.normalize_join_spec hd (Specifier.not_isAbsolute hs)
  rw [target, hf.absolute_eq]
  refine ⟨hn, hr.trans hroot, fun n hmem' => (hmem n hmem').imp (fun h => ?_) id⟩
  rw [hnames] at h
  exact List.dropLast_subset _ h

/-- The aliased form of a specifier is the mark, and the names below the root of the place that
is meant. -/
theorem aliased_spec (hf : Path.IsNormal file) (hr : Path.IsNormal a.root)
    (h : a.aliased cwd file s = some t) :
    Specifier.isRelative s = true ∧ ∃ below, below ≠ [] ∧
      Path.names (target cwd file s) = Path.names a.root ++ below ∧
      t = a.mark ++ Text.join [Path.slash] below := by
  unfold aliased at h
  split at h
  · cases h
  · rename_i hs
    have hrel : Specifier.isRelative s = true := by
      rw [Bool.or_eq_true, not_or] at hs
      simpa using hs.1
    simp only at h
    split at h
    · cases h
    · rename_i hway
      rw [Bool.or_eq_true, not_or, beq_iff_eq, Bool.not_eq_true] at hway
      obtain ⟨below, hne, hnames, hw⟩ :=
        Path.relative_spec (target_spec cwd hf hrel).1 hr hway.1 hway.2
      rw [Option.some.injEq] at h
      exact ⟨hrel, below, hne, hnames, by rw [← h, hw]⟩

/-- What is below a root in a path that is in normal form is made of names. -/
theorem isName_below {p root : Text} {below : List Text} (hp : Path.IsNormal p)
    (h : Path.names p = Path.names root ++ below) : ∀ n ∈ below, Path.IsName n :=
  fun n hn => hp.isName n (h ▸ List.mem_append_right _ hn)

theorem not_isRelative_aliased (hm : IsMark a.mark) (hf : Path.IsNormal file)
    (hr : Path.IsNormal a.root) (h : a.aliased cwd file s = some t) :
    Specifier.isRelative t = false := by
  obtain ⟨hs, below, hne, hnames, rfl⟩ := aliased_spec hf hr h
  have hn := isName_below (target_spec cwd hf hs).1 hnames
  obtain ⟨n, ns, rfl⟩ := List.exists_cons_of_ne_nil hne
  refine Specifier.not_isRelative_append hm (hn n List.mem_cons_self) ?_
  cases ns with
  | nil => exact Or.inl (by simp [Text.join])
  | cons m ns =>
    refine Or.inr ⟨Text.join [Path.slash] (m :: ns), ?_⟩
    rw [Text.join, List.intercalate_cons_cons, List.append_assoc]
    rfl

/-- Seen from the root, the names below it lead back to the place that is meant. -/
theorem absolute_join_below (cwd : Text) {p root : Text} {below : List Text} (hp : Path.IsNormal p)
    (hr : Path.IsNormal root) (hroot : Path.root p = Path.root root)
    (h : Path.names p = Path.names root ++ below) :
    Path.absolute cwd (Path.join root (Text.join [Path.slash] below)) = p := by
  have hn := isName_below hp h
  have hb : Path.isAbsolute (Text.join [Path.slash] below) = false := by
    simpa [Path.isAbsolute] using Path.head?_join_names hn
  have hj := Path.isAbsolute_join hr.absolute (Text.join [Path.slash] below)
  rw [Path.absolute, if_pos hj, Path.normalize, Path.root_join hr hb, Path.resolved_join hr hb,
    Path.names_join_names hn, Path.foldl_pushName_of_isName hn, List.reverse_append,
    List.reverse_reverse, List.reverse_reverse, ← h, ← hroot, ← hp.eq_write]

/-- The aliased form has no characters but those of the mark, the file and the specifier. -/
theorem mem_aliased {c : Char} (hf : Path.IsNormal file) (hr : Path.IsNormal a.root)
    (h : a.aliased cwd file s = some t) (hc : c ∈ t) :
    c ∈ a.mark ∨ c = Path.slash ∨ c ∈ file ∨ c ∈ s := by
  obtain ⟨hs, below, hne, hnames, rfl⟩ := aliased_spec hf hr h
  rcases List.mem_append.mp hc with hc | hc
  · exact Or.inl hc
  · rcases Text.mem_join hc with rfl | ⟨n, hn, hc⟩
    · exact Or.inr (Or.inl rfl)
    · have hmem : n ∈ Path.names (target cwd file s) := hnames ▸ List.mem_append_right _ hn
      rcases (target_spec cwd hf hs).2.2 n hmem with hn | hn
      · exact Or.inr (Or.inr (Or.inl (Path.mem_of_mem_names hn hc)))
      · exact Or.inr (Or.inr (Or.inr (Path.mem_of_mem_names hn hc)))

/-- Only the absolute form of the file's path counts. -/
theorem aliased_absolute (hcwd : Path.isAbsolute cwd = true) (file s : Text) :
    a.aliased cwd (Path.absolute cwd file) s = a.aliased cwd file s := by
  have htarget : target cwd (Path.absolute cwd file) s = target cwd file s := by
    rw [target, target, (Path.isNormal_absolute hcwd file).absolute_eq]
  rw [aliased, aliased, htarget]

/-- Only the absolute form of the source root counts. -/
theorem aliased_root (hcwd : Path.isAbsolute cwd = true) (root mark : Text) (skip : Bool)
    (file s : Text) :
    aliased ⟨Path.absolute cwd root, mark, skip⟩ cwd file s =
      aliased ⟨root, mark, skip⟩ cwd file s := by
  have hnames : Path.absoluteNames cwd (Path.absolute cwd root) = Path.absoluteNames cwd root := by
    rw [Path.absoluteNames, (Path.isNormal_absolute hcwd root).absolute_eq, ← Path.absoluteNames]
  simp only [aliased, Path.relative, hnames]
  rfl

/-- The same at any absolute path, and for any source root. -/
theorem mem_aliased_of_absolute {c : Char} (hcwd : Path.isAbsolute cwd = true)
    (hfile : Path.isAbsolute file = true) (h : a.aliased cwd file s = some t) (hc : c ∈ t) :
    c ∈ a.mark ∨ c = Path.slash ∨ c ∈ file ∨ c ∈ s := by
  obtain ⟨root, mark, skip⟩ := a
  rw [← aliased_root hcwd, ← aliased_absolute hcwd] at h
  have hnormal := Path.isNormal_absolute hcwd file
  rcases mem_aliased hnormal (Path.isNormal_absolute hcwd root) h hc with hc | hc | hc | hc
  · exact Or.inl hc
  · exact Or.inr (Or.inl hc)
  · rcases Path.mem_absolute hfile hc with hc | hc
    · exact Or.inr (Or.inl hc)
    · exact Or.inr (Or.inr (Or.inl hc))
  · exact Or.inr (Or.inr (Or.inr hc))

/-- With the alias that it was made for, the aliased form stands for the place that is meant. -/
theorem pathOf_aliased (hf : Path.IsNormal file) (hr : Path.IsNormal a.root)
    (hroot : Path.root file = Path.root a.root) (h : a.aliased cwd file s = some t) :
    Alias.pathOf ⟨a.mark, a.root⟩ cwd t = target cwd file s := by
  obtain ⟨hs, below, hne, hnames, ht⟩ := aliased_spec hf hr h
  obtain ⟨hp, hpr, _⟩ := target_spec cwd hf hs
  have hway : Text.join [Path.slash] below ≠ [] := by
    intro hnil
    have hn := Path.names_join_names (isName_below hp hnames)
    rw [hnil, Path.names_nil] at hn
    exact hne hn.symm
  have hback := absolute_join_below cwd hp hr (hpr.trans hroot) hnames
  obtain ⟨c, rest, hc⟩ := List.exists_cons_of_ne_nil hway
  rw [Alias.pathOf, ht, List.drop_left]
  rw [hc] at hback ⊢
  exact hback

variable {r : Resolver} {x : Alias}

theorem classify_aliased (hm : IsMark a.mark) (hf : Path.IsNormal file)
    (hr : Path.IsNormal a.root) (h : a.aliased cwd file s = some t)
    (hfind : (r.aliases.find? fun b => t.startsWith b.mark) = some x) :
    r.classify t = .aliased := by
  have hstart : t.startsWith x.mark = true :=
    List.find?_some (p := fun b : Alias => t.startsWith b.mark) hfind
  have hmark : x.mark ∈ r.marks :=
    List.mem_map.mpr ⟨x, List.mem_of_find?_eq_some hfind, rfl⟩
  have hany : r.marks.any t.startsWith = true := List.any_eq_true.mpr ⟨x.mark, hmark, hstart⟩
  rw [Resolver.classify, Specifier.classify, not_isRelative_aliased hm hf hr h, if_neg (by simp),
    if_pos hany]

/-- If the alias that counts stands for the place that is meant, both forms of a specifier stand
for the same path. -/
theorem basePath_aliased (hm : IsMark a.mark) (hf : Path.IsNormal file)
    (hr : Path.IsNormal a.root) (h : a.aliased r.cwd file s = some t)
    (hfind : (r.aliases.find? fun b => t.startsWith b.mark) = some x)
    (hx : x.pathOf r.cwd t = target r.cwd file s) :
    r.basePath s file = some (target r.cwd file s) ∧ r.basePath t file = r.basePath s file := by
  obtain ⟨hs, -⟩ := aliased_spec hf hr h
  have hbase : r.basePath s file = some (target r.cwd file s) := by
    have hj := Path.isAbsolute_join hf.directory.1.absolute s
    rw [Resolver.basePath, if_pos hs, Path.absolute, if_pos hj, target, hf.absolute_eq]
  refine ⟨hbase, ?_⟩
  rw [hbase, Resolver.basePath_of_find? (not_isRelative_aliased hm hf hr h) hfind, hx]

/-- Then they lead to the same file, or nowhere for the same reason. -/
theorem resolve_aliased (hm : IsMark a.mark) (hf : Path.IsNormal file)
    (hr : Path.IsNormal a.root) (h : a.aliased r.cwd file s = some t)
    (hfind : (r.aliases.find? fun b => t.startsWith b.mark) = some x)
    (hx : x.pathOf r.cwd t = target r.cwd file s) (isFile : Text → Bool) :
    r.resolve isFile t file = { r.resolve isFile s file with category := .aliased } := by
  have hct := classify_aliased hm hf hr h hfind
  have hcs : r.classify s = .relative := by
    rw [Resolver.classify, Specifier.classify, if_pos (aliased_spec hf hr h).1]
  obtain ⟨hbs, hbt⟩ := basePath_aliased hm hf hr h hfind hx
  rw [hbs] at hbt
  rw [Resolver.resolve, Resolver.resolve, hct, hcs, hbs, hbt]
  dsimp only
  rw [if_neg (by decide), if_neg (by decide)]
  cases (r.candidates (target r.cwd file s)).find? isFile <;> rfl

end Aliasing
end ModuleGraph
