import ModuleGraph.Proofs.Files.Scan

/-!
A file that is put where nothing stood, and then moved or removed.

* `find?_erase`, `SameEntries`: what is left without one entry; trees in which the same stands
  everywhere;
* `Beside`: a tree with one file more; every path leads where it led without that file;
* `createFile_cases`, `Beside.append`, `Beside.present`, `Beside.unlink`, `Beside.moveFile`: the
  file is made, filled, found, removed without a trace, and moved in place of another.
-/

namespace ModuleGraph
namespace Tree

variable {t u v : Tree} {p q : Place} {cwd path target : Text} {bytes : Bytes}

theorem lookup_filter_ne (p q : Place) (es : List (Place × Entry)) :
    lookup q (es.filter fun e => decide (e.1 ≠ p)) = if q = p then none else lookup q es := by
  induction es with
  | nil => simp [lookup]
  | cons e es ih =>
    obtain ⟨r, d⟩ := e
    by_cases hr : r = p
    · subst hr
      rw [List.filter_cons_of_neg (by simp), ih]
      by_cases hq : q = r
      · rw [if_pos hq, if_pos hq]
      · rw [if_neg hq, if_neg hq, lookup, if_neg (Ne.symm hq)]
    · rw [List.filter_cons_of_pos (by simpa using hr), lookup, lookup, ih]
      by_cases hq : r = q
      · rw [if_pos hq, if_pos hq, if_neg (hq ▸ hr)]
      · rw [if_neg hq, if_neg hq]

/-- Without an entry nothing stands at its place; the root stays. -/
theorem find?_erase (hp : p ≠ []) (q : Place) :
    (t.erase p).find? q = if q = p then none else t.find? q := by
  cases q with
  | nil => rw [if_neg (Ne.symm hp)]; rfl
  | cons n q => exact lookup_filter_ne p (n :: q) t.entries

/-- The same stands everywhere. -/
def SameEntries (t u : Tree) : Prop := ∀ q, u.find? q = t.find? q

theorem SameEntries.moreDirectories (h : t.SameEntries u) : t.MoreDirectories u := fun q =>
  Or.inl (h q)

/-- The second tree has a file at a place where nothing stands in the first one, and is the same
everywhere else. -/
structure Beside (t u : Tree) (p : Place) (bytes : Bytes) : Prop where
  free : t.find? p = none
  find?_eq : ∀ q, u.find? q = if q = p then some (.file bytes) else t.find? q

theorem ne_nil_of_free (h : t.find? p = none) : p ≠ [] := by
  rintro rfl
  cases h

theorem beside_set (h : t.find? p = none) (bytes : Bytes) :
    Beside t (t.set p (.file bytes)) p bytes :=
  ⟨h, find?_set (ne_nil_of_free h) _⟩

/-- A file is created where nothing stands, or not at all. -/
theorem createFile_cases (t : Tree) (cwd path : Text) :
    (∃ u p, t.createFile cwd path = .ok u ∧ t.locate false cwd path = .ok p ∧ Beside t u p []) ∨
      ∃ e, t.createFile cwd path = .error e := by
  rw [createFile]
  cases hl : t.locate false cwd path with
  | error e => exact .inr ⟨e, rfl⟩
  | ok p =>
    dsimp only
    cases hf : t.find? p with
    | some e => exact .inr ⟨_, rfl⟩
    | none => exact .inl ⟨_, p, rfl, rfl, beside_set hf []⟩

namespace Beside

variable (h : Beside t u p bytes)
include h

theorem find?_self : u.find? p = some (.file bytes) := by rw [h.find?_eq, if_pos rfl]

theorem ne_nil : p ≠ [] := ne_nil_of_free h.free

/-- A file is in nobody's way. -/
theorem sameWays : t.SameWays u := by
  intro q
  by_cases hq : q = p
  · rw [hq, way_file h.find?_self, way_missing h.free]
  · exact way_of_find? ((h.find?_eq q).trans (if_neg hq))

theorem locate_iff {fl : Bool} : u.locate fl cwd path = .ok q ↔ t.locate fl cwd path = .ok q :=
  h.sameWays.locate_iff

theorem append (hl : t.locate false cwd path = .ok p) (more : Bytes) :
    ∃ v, u.append cwd path more = .ok v ∧ Beside t v p (bytes ++ more) := by
  refine ⟨u.set p (.file (bytes ++ more)), ?_, h.free, fun q => ?_⟩
  · rw [Tree.append, h.locate_iff.mpr hl]
    dsimp only
    rw [h.find?_self]
  · rw [find?_set h.ne_nil]
    split
    · rfl
    · rename_i hq
      rw [h.find?_eq, if_neg hq]

theorem present (hl : t.locate false cwd path = .ok p) : u.present cwd path = true := by
  have hstat : u.stat cwd path = .ok (.file bytes) := by
    refine stat_eq_ok.mpr ⟨p, locate_true_of_false (h.locate_iff.mpr hl) fun target => ?_,
      h.find?_self⟩
    rw [h.find?_self]
    simp
  rw [Tree.present, hstat]

/-- Without the file the tree is as it was. -/
theorem unlink (hl : t.locate false cwd path = .ok p) :
    ∃ v, u.unlink cwd path = .ok v ∧ t.SameEntries v := by
  refine ⟨u.erase p, ?_, fun q => ?_⟩
  · rw [Tree.unlink, h.locate_iff.mpr hl]
    dsimp only
    rw [h.find?_self]
  · rw [find?_erase h.ne_nil]
    split
    · rename_i hq
      rw [hq, h.free]
    · rename_i hq
      rw [h.find?_eq, if_neg hq]

/-- The file is moved to where it could have been put in the first place. -/
theorem moveFile (hl : t.locate false cwd path = .ok p)
    (hv : t.replaceFile cwd target bytes = .ok v) :
    ∃ w, u.moveFile cwd path target = .ok w ∧ v.SameEntries w := by
  obtain ⟨q, hq, hne, rfl⟩ := replaceFile_eq_ok hv
  have hmove : u.moveFile cwd path target =
      if q = p then .ok u else (u.replaceFile cwd target bytes).map (·.erase p) := by
    rw [Tree.moveFile, h.locate_iff.mpr hl]
    dsimp only
    rw [h.find?_self]
    dsimp only
    rw [h.locate_iff.mpr hq]
  rw [hmove]
  by_cases hqp : q = p
  · rw [if_pos hqp]
    refine ⟨u, rfl, fun r => ?_⟩
    rw [h.find?_eq, find?_set hne, hqp]
  · rw [if_neg hqp]
    have hput : u.replaceFile cwd target bytes = .ok (u.set q (.file bytes)) := by
      rw [replaceFile, hq] at hv
      rw [replaceFile, h.locate_iff.mpr hq]
      dsimp only at hv ⊢
      rw [h.find?_eq, if_neg hqp]
      split at hv
      · cases hv
      · rfl
    rw [hput]
    refine ⟨_, rfl, fun r => ?_⟩
    rw [find?_erase h.ne_nil, find?_set hne, find?_set hne]
    by_cases hr : r = p
    · rw [if_pos hr, if_neg fun hrq => hqp (hrq.symm.trans hr), hr, h.free]
    · rw [if_neg hr, h.find?_eq, if_neg hr]

/-- Where it could not have been put it is not moved. -/
theorem moveFile_error {e : FileError} (hl : t.locate false cwd path = .ok p)
    (hv : t.replaceFile cwd target bytes = .error e) :
    ∃ e, u.moveFile cwd path target = .error e := by
  rw [Tree.moveFile, h.locate_iff.mpr hl]
  dsimp only
  rw [h.find?_self]
  dsimp only
  rw [replaceFile] at hv
  cases hq : t.locate false cwd target with
  | error e' =>
    cases huq : u.locate false cwd target with
    | error e => exact ⟨e, rfl⟩
    | ok q =>
      rw [h.locate_iff.mp huq] at hq
      cases hq
  | ok q =>
    rw [hq] at hv
    dsimp only at hv
    split at hv
    · rename_i hdirectory
      have hqp : q ≠ p := by
        rintro rfl
        rw [h.free] at hdirectory
        cases hdirectory
      rw [h.locate_iff.mpr hq]
      dsimp only
      rw [if_neg hqp, replaceFile, h.locate_iff.mpr hq]
      dsimp only
      rw [h.find?_eq, if_neg hqp, hdirectory]
      exact ⟨_, rfl⟩
    · cases hv

end Beside
end Tree
end ModuleGraph
