import ModuleGraph.Proofs.Resolver
import ModuleGraph.Proofs.Respell.Project
import ModuleGraph.Proofs.Respell.Rewriting
import ModuleGraph.Proofs.Source.Extraction
import ModuleGraph.Proofs.Targets

/-!
Where the references of a source lead after it is respelled.

* `isProper`: an alias in normal form respells every specifier once;
* `targetOf_aliased`: a respelled specifier leads to the same file as before;
* `sameTargets_extract`: so the references of the source correspond, and lead to the same files.
-/

namespace ModuleGraph

open Cursor

namespace Aliasing

variable {a : Aliasing} {cwd file s t : Text}

theorem isProper (hcwd : Path.isAbsolute cwd = true) (hm : IsMark a.mark)
    (hr : Path.IsNormal a.root)
    (hquotable : ∀ s t, s.IsQuotable → a.aliased cwd file s = some t → t.IsQuotable) :
    a.IsProper cwd file where
  quotable := hquotable
  once s t h := by
    have hrel := not_isRelative_aliased hm (Path.isNormal_absolute hcwd file) hr
      ((aliased_absolute hcwd file s).trans h)
    rw [aliased, hrel]
    rfl

end Aliasing

namespace Respell

variable {a : Aliasing} {cwd file content : Text} {l : Lookup} {marks : List Text}

/-- The references of a source and of the source respelled. -/
theorem sameTargets_extract (ha : a.IsProper cwd file) {bytes : Bytes}
    (path : Text) :
    let r := text cwd file (Rule.computedRules a) (Utf8.decodeKeeping bytes)
    (∀ c ∈ r.changes, Inert c.before ∧ Inert c.after) →
    (∀ c ∈ r.changes, ∀ x ∈ c.before ++ c.after, Utf8.isStandIn x = false) →
    (∀ c ∈ r.changes, l.targetOf path c.after = l.targetOf path c.before) →
    Source.SameTargets l (Source.extract marks path (Utf8.decodeReplacing bytes))
      (Source.extract marks path (Utf8.decodeReplacing (Utf8.encodeKeeping r.after))) := by
  intro r hinert hclean htarget
  have hsealed : ∀ s t, Recorded r.changes s t → Sealed s ∧ Sealed t := by
    rintro s t ⟨c, hc, rfl, rfl⟩
    obtain ⟨hbefore, haliased⟩ := aliased_of_mem_changes ha.quotable hc
    obtain ⟨hs, ht⟩ := hinert c hc
    exact ⟨⟨hs, hbefore⟩, ⟨ht, ha.quotable _ _ hbefore haliased⟩⟩
  have hview : ∀ s t, Recorded r.changes s t → Utf8.view s = s ∧ Utf8.view t = t := by
    rintro s t ⟨c, hc, rfl, rfl⟩
    exact ⟨Utf8.view_eq_self fun x hx => hclean c hc x (List.mem_append_left _ hx),
      Utf8.view_eq_self fun x hx => hclean c hc x (List.mem_append_right _ hx)⟩
  obtain ⟨ps, hps, hold, hnew⟩ := Stretch.exists_placed hview (respelt_text ha _)
  have hsame : ∀ s t, t = s ∨ Recorded r.changes s t → l.targetOf path t = l.targetOf path s := by
    rintro s t (rfl | ⟨c, hc, rfl, rfl⟩)
    · rfl
    · exact htarget c hc
  have hnil : ∀ s t, t = s ∨ Recorded r.changes s t → (t = [] ↔ s = []) := by
    rintro s t (rfl | hst)
    · exact Iff.rfl
    · obtain ⟨hs, ht⟩ := hsealed s t hst
      exact iff_of_false ht.quotable.ne_nil hs.quotable.ne_nil
  have hbefore : Utf8.decodeReplacing bytes = Stretch.spell Stretch.old ps := by
    rw [hold, Utf8.view_decodeKeeping]
  have hafter : Utf8.decodeReplacing (Utf8.encodeKeeping r.after) =
      Stretch.spell Stretch.new ps := hnew.symm
  rw [hbefore, hafter]
  refine ⟨rfl, ?_, ?_⟩
  · rw [Source.extract, Source.extract, List.forall₂_map_left_iff, List.forall₂_map_right_iff]
    exact (Stretch.forall₂_findImports hps hsealed marks).imp fun i j h => hsame _ _ h
  · rw [Source.extract, Source.extract, List.forall₂_map_left_iff, List.forall₂_map_right_iff]
    refine (Stretch.forall₂_findExports hps hsealed).imp fun e f h => ⟨h.kind, ?_⟩
    obtain ⟨-, hsource⟩ := h
    change Option.Rel _ e.source f.source
    generalize e.source = u at hsource
    generalize f.source = v at hsource
    cases hsource with
    | none => exact .none
    | some huv => exact .some ⟨hnil _ _ huv, hsame _ _ huv⟩

/-- Where a respelled specifier leads, unless an alias with a longer mark takes it elsewhere. -/
theorem targetOf_aliased {mark root s t : Text} {entries : Entries Text} {suffixes : List Text}
    {r : Resolver} {isFile : Text → Bool} {skipSame : Bool} (hcwd : Path.isAbsolute cwd = true)
    (hm : IsMark mark) (hnormal : ∀ e ∈ entries, Path.IsNormal e.2)
    (hget : Entries.get? mark entries = some root)
    (hr : r = Resolver.ofEntries cwd entries suffixes)
    (hroot : Path.root (Path.absolute cwd file) = Path.root root)
    (h : (⟨root, mark, skipSame⟩ : Aliasing).aliased cwd file s = some t)
    (hlonger : ∀ e ∈ entries, mark.length < e.1.length → t.startsWith e.1 = true →
      Alias.pathOf ⟨e.1, e.2⟩ cwd t = Alias.pathOf ⟨mark, root⟩ cwd t) :
    Lookup.targetOf ⟨r, isFile⟩ (Path.absolute cwd file) t =
      Lookup.targetOf ⟨r, isFile⟩ (Path.absolute cwd file) s := by
  have hf := Path.isNormal_absolute hcwd file
  have hrootNormal : Path.IsNormal root := hnormal _ (Entries.mem_of_get? hget)
  rw [← Aliasing.aliased_absolute hcwd] at h
  obtain ⟨-, below, -, -, ht⟩ := Aliasing.aliased_spec hf hrootNormal h
  have hpath : Alias.pathOf ⟨mark, root⟩ cwd t = Aliasing.target cwd (Path.absolute cwd file) s :=
    Aliasing.pathOf_aliased hf hrootNormal hroot h
  obtain ⟨x, hfind, hx⟩ := Resolver.find?_ofEntries hnormal hget (Text.startsWith_iff.mpr ⟨_, ht⟩)
  rw [← hr] at hfind
  have hxpath : x.pathOf cwd t = Aliasing.target cwd (Path.absolute cwd file) s := by
    rcases hx with rfl | ⟨e, he, rfl, hlt⟩
    · exact hpath
    · have hstart : t.startsWith e.1 = true :=
        List.find?_some (p := fun b : Alias => t.startsWith b.mark) hfind
      exact (hlonger e he hlt hstart).trans hpath
  have hcwd' : r.cwd = cwd := hr ▸ rfl
  rw [← hcwd'] at h hf hxpath ⊢
  have hsame := Aliasing.resolve_aliased hm hf hrootNormal h hfind hxpath isFile
  rw [Lookup.targetOf, Lookup.targetOf, Lookup.resolve, Lookup.resolve, hsame]

/-- The rules of a set, if the mark is one of the aliases. -/
theorem rules_of_alias {settings : Settings} {cwd mark root : Text} {entries : Entries Text}
    (hentries : settings.aliasEntries cwd = .ok entries) (hmark : settings.mark = .text mark)
    (hroot : Entries.get? mark entries = some root) (set : Text) :
    Respell.rules settings cwd set = rulesFor settings mark root set := by
  simp only [Respell.rules, hentries, hmark, hroot, bind, Except.bind]

/-- The rules and the resolver of a project. -/
theorem rules_and_resolver {settings : Settings} {cwd mark root : Text} {entries : Entries Text}
    {rules : List Rule} {r : Resolver} (hmark : settings.mark = .text mark)
    (hentries : settings.aliasEntries cwd = .ok entries)
    (hroot : Entries.get? mark entries = some root)
    (hrules : Respell.rules settings cwd "computed" = .ok rules)
    (hr : settings.resolver cwd = .ok r) :
    rules = Rule.computedRules ⟨root, mark, settings.skipSame.isTruthy⟩ ∧
      r = Resolver.ofEntries cwd entries settings.resolveSuffixes := by
  constructor
  · rw [rules_of_alias hentries hmark hroot] at hrules
    exact (Except.ok.inj hrules).symm
  · unfold Settings.resolver at hr
    rw [hentries] at hr
    cases hr
    rfl

theorem exists_forall₂ {α β γ : Type} {P : α → β → Prop} {Q : α → γ → Prop} {S : β → γ → Prop}
    {zs : List α} (h : ∀ z ∈ zs, ∃ x y, P z x ∧ Q z y ∧ S x y) :
    ∃ xs ys, List.Forall₂ P zs xs ∧ List.Forall₂ Q zs ys ∧ List.Forall₂ S xs ys := by
  induction zs with
  | nil => exact ⟨[], [], .nil, .nil, .nil⟩
  | cons z zs ih =>
    obtain ⟨x, y, hp, hq, hs⟩ := h z List.mem_cons_self
    obtain ⟨xs, ys, hps, hqs, hss⟩ := ih fun w hw => h w (List.mem_cons_of_mem _ hw)
    exact ⟨x :: xs, y :: ys, .cons hp hps, .cons hq hqs, .cons hs hss⟩

end Respell
end ModuleGraph
