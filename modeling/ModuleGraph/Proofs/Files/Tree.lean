import ModuleGraph.Files.Tree
import ModuleGraph.Proofs.Path
import Mathlib.Data.List.Induction
import Mathlib.Data.List.Nodup
import Mathlib.Tactic.ByContra

/-!
Trees in which every entry stands in a directory.

* `WellFormed`: no place has two entries, and above every entry there are directories;
* `find?_remove`: what removing a directory changes;
* `mem_names`, `nodup_names`, `mem_directories`: the names in a directory and the directories, in
  terms of what stands where;
* `WellFormed.set`, `WellFormed.remove`: writing and removing keep a tree well formed;
* `wellFormed_iff`: a finite check of it.
-/

namespace ModuleGraph
namespace Tree

variable {t u : Tree} {p q D : Place} {e : Entry} {n : Text}

/-- A tree as it is on a disk: no place has two entries, the root has none of its own, places are
made of names, and every entry stands in a directory. -/
structure WellFormed (t : Tree) : Prop where
  nodup : (t.entries.map (·.1)).Nodup
  ne_nil : ∀ x ∈ t.entries, x.1 ≠ []
  isName : ∀ x ∈ t.entries, ∀ n ∈ x.1, Path.IsName n
  above : ∀ q n, t.find? (q ++ [n]) ≠ none → t.find? q = some .directory

theorem find?_cons (t : Tree) (n : Text) (p : Place) :
    t.find? (n :: p) = lookup (n :: p) t.entries := rfl

theorem find?_of_ne_nil (hp : p ≠ []) : t.find? p = lookup p t.entries := by
  cases p with
  | nil => exact absurd rfl hp
  | cons n p => rfl

theorem lookup_eq_some {es : List (Place × Entry)} (h : lookup p es = some e) : (p, e) ∈ es := by
  induction es with
  | nil => cases h
  | cons x es ih =>
    obtain ⟨q, d⟩ := x
    rw [lookup] at h
    split at h
    · rename_i hq
      rw [Option.some.injEq] at h
      rw [hq, h]
      exact List.mem_cons_self
    · exact List.mem_cons_of_mem _ (ih h)

theorem lookup_of_mem {es : List (Place × Entry)} (hnodup : (es.map (·.1)).Nodup)
    (h : (p, e) ∈ es) : lookup p es = some e := by
  induction es with
  | nil => cases h
  | cons x es ih =>
    obtain ⟨q, d⟩ := x
    rw [List.map_cons, List.nodup_cons] at hnodup
    rw [lookup]
    rcases List.mem_cons.mp h with heq | h
    · obtain ⟨rfl, rfl⟩ := Prod.mk.injEq _ _ _ _ ▸ heq
      exact if_pos rfl
    · have hne : q ≠ p := by
        rintro rfl
        exact hnodup.1 (List.mem_map.mpr ⟨_, h, rfl⟩)
      rw [if_neg hne]
      exact ih hnodup.2 h

theorem lookup_isSome {es : List (Place × Entry)} : (lookup p es).isSome ↔ ∃ e, (p, e) ∈ es := by
  induction es with
  | nil => simp [lookup]
  | cons x es ih =>
    obtain ⟨q, d⟩ := x
    rw [lookup]
    by_cases hq : q = p
    · rw [if_pos hq]
      simp [hq]
    · rw [if_neg hq, ih]
      simp [Ne.symm hq]

theorem find?_ne_none (hp : p ≠ []) : t.find? p ≠ none ↔ ∃ e, (p, e) ∈ t.entries := by
  rw [find?_of_ne_nil hp, ← Option.isSome_iff_ne_none, lookup_isSome]

theorem WellFormed.find?_eq_some (h : t.WellFormed) (hp : p ≠ []) :
    t.find? p = some e ↔ (p, e) ∈ t.entries := by
  rw [find?_of_ne_nil hp]
  exact ⟨lookup_eq_some, lookup_of_mem h.nodup⟩

/-- Above an entry there are directories. -/
theorem WellFormed.find?_above (h : t.WellFormed) {ns : Place} (hne : ns ≠ [])
    (hf : t.find? (q ++ ns) ≠ none) : t.find? q = some .directory := by
  induction ns using List.reverseRecOn with
  | nil => exact absurd rfl hne
  | append_singleton ns n ih =>
    rw [← List.append_assoc] at hf
    have hd := h.above _ _ hf
    cases ns with
    | nil => rwa [List.append_nil] at hd
    | cons m ns => exact ih (List.cons_ne_nil _ _) (by rw [hd]; exact Option.some_ne_none _)

/-- Below what is not a directory there is nothing. -/
theorem WellFormed.find?_below (h : t.WellFormed) (hq : t.find? q ≠ some .directory) {ns : Place}
    (hne : ns ≠ []) : t.find? (q ++ ns) = none := by
  by_contra hf
  exact hq (h.find?_above hne hf)

/-- At and below what is missing there is nothing. -/
theorem WellFormed.find?_append_of_none (h : t.WellFormed) (hq : t.find? q = none) (ns : Place) :
    t.find? (q ++ ns) = none := by
  by_cases hns : ns = []
  · rw [hns, List.append_nil, hq]
  · exact h.find?_below (by rw [hq]; simp) hns

theorem WellFormed.isName_of_find? (h : t.WellFormed) (hp : t.find? p ≠ none) :
    ∀ n ∈ p, Path.IsName n := by
  cases p with
  | nil => simp
  | cons m p =>
    obtain ⟨e, he⟩ := (find?_ne_none (List.cons_ne_nil _ _)).mp hp
    exact h.isName _ he

theorem lookup_filter {es : List (Place × Entry)} {f : Place → Bool} (h : f q = true) :
    lookup q (es.filter fun x => f x.1) = lookup q es := by
  induction es with
  | nil => rfl
  | cons x es ih =>
    obtain ⟨r, d⟩ := x
    by_cases hr : r = q
    · subst hr
      rw [List.filter_cons_of_pos (by simpa using h), lookup, lookup, if_pos rfl, if_pos rfl]
    · by_cases hf : f r = true
      · rw [List.filter_cons_of_pos (by simpa using hf), lookup, lookup, if_neg hr, if_neg hr, ih]
      · rw [List.filter_cons_of_neg (by simpa using hf), lookup, if_neg hr, ih]

/-- A directory is removed with everything below it, and nothing else is. -/
theorem find?_remove (hp : p ≠ []) (q : Place) :
    (t.remove p).find? q = if p <+: q then none else t.find? q := by
  cases q with
  | nil => simp [find?, hp]
  | cons n q =>
    rw [find?_cons, find?_cons]
    split
    · rename_i hpre
      rw [← Option.not_isSome_iff_eq_none, lookup_isSome]
      rintro ⟨e, he⟩
      have := (List.mem_filter.mp he).2
      simp only [Bool.not_eq_true', ← Bool.not_eq_true, List.isPrefixOf_iff_prefix] at this
      exact this hpre
    · rename_i hpre
      have hkeep : (!p.isPrefixOf (n :: q)) = true := by
        rw [Bool.not_eq_true', ← Bool.not_eq_true, List.isPrefixOf_iff_prefix]
        exact hpre
      exact lookup_filter (f := fun r => !p.isPrefixOf r) hkeep

theorem nameIn_eq_some : nameIn D p = some n ↔ p = D ++ [n] := by
  rw [nameIn]
  constructor
  · intro h
    split at h
    · rename_i hp
      obtain ⟨m, hm⟩ : ∃ m, p = p.dropLast ++ [m] :=
        ⟨_, (List.dropLast_concat_getLast hp.1).symm⟩
      rw [hm, List.getLast?_concat, Option.some.injEq] at h
      rw [hm, hp.2, h]
    · cases h
  · rintro rfl
    rw [if_pos ⟨by simp, List.dropLast_concat⟩, List.getLast?_concat]

/-- The names in a directory are those of the entries that stand in it. -/
theorem mem_names : n ∈ t.names D ↔ t.find? (D ++ [n]) ≠ none := by
  rw [names, Text.sorted, List.mem_mergeSort, List.mem_filterMap, find?_ne_none (by simp)]
  constructor
  · rintro ⟨⟨p, e⟩, hmem, hn⟩
    rw [nameIn_eq_some.mp hn] at hmem
    exact ⟨e, hmem⟩
  · rintro ⟨e, hmem⟩
    exact ⟨_, hmem, nameIn_eq_some.mpr rfl⟩

theorem nodup_filterMap_nameIn {ps : List Place} (h : ps.Nodup) (D : Place) :
    (ps.filterMap (nameIn D)).Nodup := by
  refine List.Nodup.filterMap (fun p q n hp hq => ?_) h
  rw [nameIn_eq_some.mp hp, nameIn_eq_some.mp hq]

theorem WellFormed.nodup_names (h : t.WellFormed) (D : Place) : (t.names D).Nodup := by
  have hmap : (t.entries.filterMap fun x => nameIn D x.1) =
      (t.entries.map (·.1)).filterMap (nameIn D) := by
    rw [List.filterMap_map]
    rfl
  rw [names, Text.sorted, List.Perm.nodup_iff (List.mergeSort_perm _ _), hmap]
  exact nodup_filterMap_nameIn h.nodup D

theorem WellFormed.mem_directories (h : t.WellFormed) :
    p ∈ t.directories ↔ t.find? p = some .directory := by
  cases p with
  | nil => simp [directories, find?]
  | cons n p =>
    rw [h.find?_eq_some (List.cons_ne_nil _ _), directories, List.mem_cons, List.mem_filterMap]
    constructor
    · rintro (hnil | ⟨⟨q, d⟩, hmem, hd⟩)
      · cases hnil
      · simp only [Option.ite_none_right_eq_some, Option.some.injEq] at hd
        rwa [hd.1, hd.2] at hmem
    · intro hmem
      exact Or.inr ⟨_, hmem, if_pos rfl⟩

theorem map_put (es : List (Place × Entry)) :
    (put p e es).map (·.1) =
      if p ∈ es.map (·.1) then es.map (·.1) else es.map (·.1) ++ [p] := by
  induction es with
  | nil => simp [put]
  | cons x es ih =>
    obtain ⟨q, d⟩ := x
    rw [put]
    by_cases hq : q = p
    · rw [if_pos hq]
      simp [hq]
    · rw [if_neg hq, List.map_cons, ih]
      simp only [List.map_cons, List.mem_cons, Ne.symm hq, false_or]
      split <;> rfl

/-- Writing an entry in a directory keeps a tree well formed, if no directory becomes anything
else. -/
theorem WellFormed.set (h : t.WellFormed) (hD : t.find? D = some .directory)
    (hn : Path.IsName n) (he : t.find? (D ++ [n]) = some .directory → e = .directory) :
    (t.set (D ++ [n]) e).WellFormed := by
  have hp : D ++ [n] ≠ [] := by simp
  obtain ⟨m, p, hcons⟩ := List.exists_cons_of_ne_nil hp
  have hentries : (t.set (D ++ [n]) e).entries = put (D ++ [n]) e t.entries := by
    rw [hcons]
    rfl
  have hplaces : ∀ x ∈ (t.set (D ++ [n]) e).entries,
      x.1 = D ++ [n] ∨ ∃ y ∈ t.entries, y.1 = x.1 := by
    intro x hx
    have hmem : x.1 ∈ (put (D ++ [n]) e t.entries).map (·.1) :=
      List.mem_map_of_mem (hentries ▸ hx)
    rw [map_put] at hmem
    split at hmem
    · exact Or.inr (List.mem_map.mp hmem)
    · rcases List.mem_append.mp hmem with hmem | hmem
      · exact Or.inr (List.mem_map.mp hmem)
      · exact Or.inl (List.mem_singleton.mp hmem)
  refine ⟨?_, fun x hx => ?_, fun x hx => ?_, fun q m hf => ?_⟩
  · rw [hentries, map_put]
    split
    · exact h.nodup
    · rename_i hmem
      refine List.nodup_append.mpr ⟨h.nodup, by simp, ?_⟩
      rintro a ha b hb rfl
      exact hmem (List.mem_singleton.mp hb ▸ ha)
  · rcases hplaces x hx with hx | ⟨y, hy, hyx⟩
    · rw [hx]
      exact hp
    · exact hyx ▸ h.ne_nil y hy
  · rcases hplaces x hx with hx | ⟨y, hy, hyx⟩
    · have hnames := h.isName_of_find? (p := D) (by rw [hD]; exact Option.some_ne_none _)
      rw [hx]
      intro k hk
      rcases List.mem_append.mp hk with hk | hk
      · exact hnames k hk
      · exact List.mem_singleton.mp hk ▸ hn
    · exact hyx ▸ h.isName y hy
  · rw [find?_set hp] at hf ⊢
    by_cases hq : q ++ [m] = D ++ [n]
    · obtain ⟨rfl, -⟩ := List.append_inj' hq rfl
      rw [if_neg]
      · exact hD
      · intro heq
        have := congrArg List.length heq
        simp at this
    · rw [if_neg hq] at hf
      have hdir := h.above q m hf
      split
      · rename_i heq
        rw [heq] at hdir
        rw [he hdir]
      · exact hdir

theorem WellFormed.remove (h : t.WellFormed) (hp : p ≠ []) : (t.remove p).WellFormed := by
  have hsub : (t.remove p).entries.Sublist t.entries := List.filter_sublist
  refine ⟨(hsub.map _).nodup h.nodup, fun x hx => h.ne_nil x (hsub.mem hx),
    fun x hx => h.isName x (hsub.mem hx), fun q n hf => ?_⟩
  rw [find?_remove hp] at hf ⊢
  have hnot : ¬ p <+: q ++ [n] := fun hpre => hf (if_pos hpre)
  rw [if_neg hnot] at hf
  rw [if_neg fun hpre => hnot (hpre.trans (List.prefix_append q [n]))]
  exact h.above q n hf

/-- Whether a tree is well formed can be seen from its entries. -/
theorem wellFormed_iff : t.WellFormed ↔ (t.entries.map (·.1)).Nodup ∧
    ∀ x ∈ t.entries, x.1 ≠ [] ∧ (∀ n ∈ x.1, Path.IsName n) ∧
      t.find? x.1.dropLast = some .directory := by
  constructor
  · refine fun h => ⟨h.nodup, fun x hx => ⟨h.ne_nil x hx, h.isName x hx, ?_⟩⟩
    obtain ⟨p, e⟩ := x
    have hne := h.ne_nil _ hx
    refine h.above _ (p.getLast hne) ?_
    rw [List.dropLast_append_getLast hne]
    exact (find?_ne_none hne).mpr ⟨e, hx⟩
  · rintro ⟨hnodup, h⟩
    refine ⟨hnodup, fun x hx => (h x hx).1, fun x hx => (h x hx).2.1, fun q n hf => ?_⟩
    obtain ⟨e, he⟩ := (find?_ne_none (by simp)).mp hf
    have hdir := (h _ he).2.2
    rwa [List.dropLast_concat] at hdir

instance (t : Tree) : Decidable t.WellFormed := decidable_of_iff' _ wellFormed_iff

end Tree
end ModuleGraph
