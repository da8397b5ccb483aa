import ModuleGraph.Value.Basic
import Mathlib.Data.List.Induction

/-!
Entries and what their keys give.

* `mem_of_get?`, `get?_eq_none_iff`: what a key gives stands there, and a key that gives nothing
  does not;
* `put_get?`, `put_of_not_mem`, `mem_put`, `ofList_of_nodup`: what putting a value changes;
* `keys_erase`, `get?_map`, `keys_map`, `map_put`: the other ways to new entries;
* `eq_of_get?`: entries with the same keys are told apart by what these give.
-/

namespace ModuleGraph
namespace Entries

variable {α β : Type} {key : Text} {v : α} {es fs : Entries α}

theorem mem_of_get? (h : get? key es = some v) : (key, v) ∈ es := by
  induction es with
  | nil => simp [get?] at h
  | cons e es ih =>
    obtain ⟨k, w⟩ := e
    by_cases hk : k = key
    · simp only [get?, if_pos hk, Option.some.injEq] at h
      simp [hk, h]
    · simp only [get?, if_neg hk] at h
      exact List.mem_cons_of_mem _ (ih h)

theorem get?_eq_none_iff : get? key es = none ↔ key ∉ keys es := by
  rw [mem_keys_iff, ← Option.isSome_iff_exists, Bool.not_eq_true, Option.isSome_eq_false_iff,
    Option.isNone_iff_eq_none]

/-- Putting the value that a key has changes nothing. -/
theorem put_get? (h : get? key es = some v) : put key v es = es := by
  induction es with
  | nil => simp [get?] at h
  | cons e es ih =>
    obtain ⟨k, w⟩ := e
    by_cases hk : k = key
    · simp only [get?, if_pos hk, Option.some.injEq] at h
      simp [put, hk, h]
    · simp only [get?, if_neg hk] at h
      simp [put, hk, ih h]

/-- A new key goes to the end. -/
theorem put_of_not_mem (h : key ∉ keys es) : put key v es = es ++ [(key, v)] := by
  induction es with
  | nil => rfl
  | cons e es ih =>
    obtain ⟨k, w⟩ := e
    simp only [keys, List.map_cons, List.mem_cons, not_or] at h
    rw [put, if_neg (Ne.symm h.1), ih h.2]
    rfl

/-- Pairs with different keys are put one after the other. -/
theorem ofList_of_nodup {pairs : List (Text × α)} (h : (keys pairs).Nodup) :
    ofList pairs = pairs := by
  rw [ofList]
  induction pairs using List.reverseRecOn with
  | nil => rfl
  | append_singleton pairs e ih =>
    rw [keys, List.map_append, List.nodup_append] at h
    rw [List.foldl_append, ih h.1]
    refine put_of_not_mem fun hmem => ?_
    exact h.2.2 e.1 hmem e.1 (by simp) rfl

theorem keys_erase (key : Text) (es : Entries α) :
    keys (erase key es) = (keys es).filter (· != key) := by
  rw [keys, keys, erase, List.filter_map]
  rfl

theorem get?_map (f : α → β) (key : Text) (es : Entries α) :
    get? key (es.map fun e => (e.1, f e.2)) = (get? key es).map f := by
  induction es with
  | nil => rfl
  | cons e es ih =>
    rw [List.map_cons, get?, get?]
    split
    · rfl
    · exact ih

theorem keys_map (f : α → β) (es : Entries α) : keys (es.map fun e => (e.1, f e.2)) = keys es := by
  rw [keys, List.map_map]
  rfl

theorem map_put (f : α → β) (key : Text) (v : α) (es : Entries α) :
    (put key v es).map (fun e => (e.1, f e.2)) = put key (f v) (es.map fun e => (e.1, f e.2)) := by
  induction es with
  | nil => rfl
  | cons e es ih =>
    obtain ⟨k, w⟩ := e
    simp only [put, List.map_cons]
    split
    · rfl
    · rw [List.map_cons, ih]

/-- Entries with the same different keys in the same order are told apart by what a key gives. -/
theorem eq_of_get? (hkeys : keys es = keys fs) (hnodup : (keys es).Nodup)
    (h : ∀ key, get? key es = get? key fs) : es = fs := by
  induction es generalizing fs with
  | nil =>
    cases fs with
    | nil => rfl
    | cons f fs => cases hkeys
  | cons e es ih =>
    cases fs with
    | nil => cases hkeys
    | cons f fs =>
      obtain ⟨k, v⟩ := e
      obtain ⟨l, w⟩ := f
      obtain ⟨hkl, hrest⟩ : k = l ∧ keys es = keys fs := List.cons.inj hkeys
      cases hkl
      obtain ⟨hk, hnodup⟩ := List.nodup_cons.mp hnodup
      have hvalue := h k
      rw [get?, get?, if_pos rfl, if_pos rfl, Option.some.injEq] at hvalue
      rw [hvalue, ih hrest hnodup fun key => ?_]
      by_cases hkey : k = key
      · subst hkey
        rw [get?_eq_none_iff.mpr hk, get?_eq_none_iff.mpr (hrest ▸ hk)]
      · have hother := h key
        rwa [get?, get?, if_neg hkey, if_neg hkey] at hother

end Entries
end ModuleGraph
