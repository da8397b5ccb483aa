import ModuleGraph.Proofs.Respell.Recorded
import ModuleGraph.Respell.Files
import Mathlib.Data.List.Basic

/-!
The aliased form of a specifier, resolved with the one alias that it was made for.

* `isQuotable_aliased`: it can stand between quotes if the mark and the file can;
* `aliased_means_same`: it leads where the relative specifier leads, and a respelling is warned
  about exactly if the specifier did not resolve before.
-/

namespace ModuleGraph
namespace Aliasing

variable {a : Aliasing} {cwd file s t : Text}

/-- The names that an aliased form has from its file are those of the directory of the file, as far
below the root as the root is. -/
theorem exists_below (hf : Path.IsNormal file) (hr : Path.IsNormal a.root)
    (h : a.aliased cwd file s = some t) :
    ∃ below, below ≠ [] ∧ t = a.mark ++ Text.join [Path.slash] below ∧
      ∀ n ∈ below, Path.IsName n ∧
        (n ∈ (Path.names file).dropLast.drop (Path.names a.root).length ∨ n ∈ Path.names s) := by
  obtain ⟨hs, below, hne, hnames, rfl⟩ := aliased_spec hf hr h
  refine ⟨below, hne, rfl, fun n hn => ⟨isName_below (target_spec cwd hf hs).1 hnames n hn, ?_⟩⟩
  obtain ⟨hd, -, hdir⟩ := hf.directory
  obtain ⟨k, new, hnew, hmem⟩ :=
    Path.exists_names_normalize_join hd (Specifier.not_isAbsolute hs)
  rw [target, hf.absolute_eq, hnew, hdir] at hnames
  have hbelow : below = ((Path.names file).dropLast.take k ++ new).drop
      (Path.names a.root).length := by rw [hnames, List.drop_left]
  rw [hbelow, List.drop_append, List.mem_append, List.drop_take] at hn
  exact hn.imp List.mem_of_mem_take fun h => hmem n (List.mem_of_mem_drop h)

/-- An aliased form can stand between quotes if the mark can and the directories of the file that
are further down than the root. -/
theorem isQuotable_aliased_below (hf : Path.IsNormal file) (hr : Path.IsNormal a.root)
    (hbelow : ∀ n ∈ (Path.names file).dropLast.drop (Path.names a.root).length,
      n.all Cursor.isQuotable = true)
    (hmark : a.mark.all Cursor.isQuotable = true) (hs : s.IsQuotable)
    (h : a.aliased cwd file s = some t) : t.IsQuotable := by
  obtain ⟨below, hne, rfl, hnames⟩ := exists_below hf hr h
  refine ⟨?_, List.all_eq_true.mpr fun c hc => ?_⟩
  · intro hnil
    have hway := (List.append_eq_nil_iff.mp hnil).2
    have hn := Path.names_join_names fun n hn => (hnames n hn).1
    rw [hway, Path.names_nil] at hn
    exact hne hn.symm
  · rcases List.mem_append.mp hc with hc | hc
    · exact List.all_eq_true.mp hmark c hc
    · rcases Text.mem_join hc with rfl | ⟨n, hn, hc⟩
      · decide
      · rcases (hnames n hn).2 with hn | hn
        · exact List.all_eq_true.mp (hbelow n hn) c hc
        · exact List.all_eq_true.mp hs.all c (Path.mem_of_mem_names hn hc)

theorem isQuotable_aliased (hf : Path.IsNormal file) (hr : Path.IsNormal a.root)
    (hfile : file.all Cursor.isQuotable = true) (hmark : a.mark.all Cursor.isQuotable = true)
    (hs : s.IsQuotable) (h : a.aliased cwd file s = some t) : t.IsQuotable := by
  refine isQuotable_aliased_below hf hr (fun n hn => ?_) hmark hs h
  have hn := List.dropLast_subset _ (List.mem_of_mem_drop hn)
  exact List.all_eq_true.mpr fun c hc =>
    List.all_eq_true.mp hfile c (Path.mem_of_mem_names hn hc)

/-- The same at any absolute path without quotes and line ends, and for any source root. -/
theorem isQuotable_aliased_of_absolute (hcwd : Path.isAbsolute cwd = true)
    (hfile : Path.isAbsolute file = true) (hq : file.all Cursor.isQuotable = true)
    (hmark : a.mark.all Cursor.isQuotable = true) (hs : s.IsQuotable)
    (h : a.aliased cwd file s = some t) : t.IsQuotable := by
  have habsolute : (Path.absolute cwd file).all Cursor.isQuotable = true := by
    rw [List.all_eq_true]
    intro c hc
    rcases Path.mem_absolute hfile hc with rfl | hc
    · decide
    · exact List.all_eq_true.mp hq c hc
  obtain ⟨root, mark, skip⟩ := a
  rw [← aliased_root hcwd, ← aliased_absolute hcwd] at h
  exact isQuotable_aliased (a := ⟨Path.absolute cwd root, mark, skip⟩)
    (Path.isNormal_absolute hcwd file) (Path.isNormal_absolute hcwd root) habsolute hmark hs h

/-- A resolver with one alias tries it for every specifier that begins with the mark. -/
theorem find?_single (hr : Path.IsNormal a.root) (cwd : Text) (suffixes : List Text)
    (below : Text) :
    ((Resolver.ofEntries cwd [(a.mark, a.root)] suffixes).aliases.find?
      fun x => (a.mark ++ below).startsWith x.mark) = some ⟨a.mark, a.root⟩ := by
  have halias : (Resolver.ofEntries cwd [(a.mark, a.root)] suffixes).aliases =
      [⟨a.mark, a.root⟩] := by
    simp [Resolver.ofEntries, Resolver.byLength, hr.absolute_eq]
  have hstart : (a.mark ++ below).startsWith a.mark = true := Text.startsWith_iff.mpr ⟨below, rfl⟩
  rw [halias]
  exact List.find?_cons_of_pos hstart

/-- With the alias that it was made for, the aliased form of a specifier is an aliased one, stands
for the same path, and leads to the same file or nowhere for the same reason. So the warnings
about a respelled text are about the specifiers that did not resolve before. -/
theorem aliased_means_same (hm : IsMark a.mark) (hf : Path.IsNormal file)
    (hr : Path.IsNormal a.root) (hroot : Path.root file = Path.root a.root)
    (suffixes : List Text) :
    let r := Resolver.ofEntries cwd [(a.mark, a.root)] suffixes
    (∀ s t, a.aliased cwd file s = some t →
      r.classify t = .aliased ∧ r.basePath t file = r.basePath s file ∧
      ∀ isFile, r.resolve isFile t file = { r.resolve isFile s file with category := .aliased }) ∧
    (file.all Cursor.isQuotable = true → a.mark.all Cursor.isQuotable = true →
      ∀ (respeller : Respeller) (tree : Tree) (content : Text),
        respeller.cwd = cwd → respeller.resolver = some r →
        let changes := (Respell.text cwd file (Rule.computedRules a) content).changes
        (∀ c ∈ changes, a.aliased cwd file c.before = some c.after) ∧
        (respeller.checkAll tree file changes).1 = changes.filterMap fun c =>
          (r.resolve (tree.isFile cwd) c.before file).reason.map (Respeller.warning file c)) := by
  intro r
  have hfind : ∀ s t, a.aliased r.cwd file s = some t →
      (r.aliases.find? fun x => t.startsWith x.mark) = some ⟨a.mark, a.root⟩ := by
    intro s t h
    obtain ⟨_, below, _, _, rfl⟩ := aliased_spec hf hr h
    exact find?_single hr cwd suffixes _
  have hpath : ∀ s t, a.aliased r.cwd file s = some t →
      Alias.pathOf ⟨a.mark, a.root⟩ r.cwd t = target r.cwd file s :=
    fun s t h => pathOf_aliased hf hr hroot h
  have hsame : ∀ s t, a.aliased cwd file s = some t → ∀ isFile,
      r.resolve isFile t file = { r.resolve isFile s file with category := .aliased } :=
    fun s t h => resolve_aliased (r := r) hm hf hr h (hfind s t h) (hpath s t h)
  refine ⟨fun s t h => ⟨?_, ?_, hsame s t h⟩, ?_⟩
  · exact classify_aliased hm hf hr h (hfind s t h)
  · exact (basePath_aliased (r := r) hm hf hr h (hfind s t h) (hpath s t h)).2
  · intro hfile hmark respeller tree content hcwd hresolver changes
    have hchange : ∀ c ∈ changes, a.aliased cwd file c.before = some c.after := fun c hc =>
      (Respell.aliased_of_mem_changes
        (fun s t hs ht => isQuotable_aliased hf hr hfile hmark hs ht) hc).2
    refine ⟨hchange, ?_⟩
    have hcheck : ∀ c ∈ changes,
        (Respeller.check ⟨r, tree.isFile respeller.cwd⟩ file c).1 =
          ((r.resolve (tree.isFile cwd) c.before file).reason.map
            (Respeller.warning file c)).toList := by
      intro c hc
      rw [Respeller.check, Lookup.resolve, hcwd, hsame _ _ (hchange c hc)]
      cases (r.resolve (tree.isFile cwd) c.before file).reason <;> rfl
    rw [Respeller.checkAll, hresolver]
    dsimp only
    rw [List.flatMap_map, List.filterMap_eq_flatMap_toList]
    exact List.flatMap_congr hcheck

/-- A specifier that leaves the directory of its file and comes back into another one. -/
theorem aliased_means_same_lib :
    (Resolver.ofEntries "/" [("@/", "/p/src")] Resolver.defaultSuffixes).basePath "@/lib/x"
        "/p/src/a/b.ts" =
      (Resolver.ofEntries "/" [("@/", "/p/src")] Resolver.defaultSuffixes).basePath "../lib/x"
        "/p/src/a/b.ts" :=
  ((aliased_means_same (a := ⟨"/p/src", "@/", true⟩) ⟨by decide, by decide⟩
    ⟨by decide, by decide⟩ ⟨by decide, by decide⟩ (by decide) _).1 "../lib/x" "@/lib/x"
    (by decide)).2.1

end Aliasing
end ModuleGraph
