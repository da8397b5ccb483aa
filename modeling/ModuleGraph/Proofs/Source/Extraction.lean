import ModuleGraph.Proofs.Source.Forms
import ModuleGraph.Proofs.Source.Reading

/-!
What is extracted from two texts of which one is the other respelled.

* `forall₂_inOrder`: what corresponds one to one does so in order, too;
* `forall₂_findImports`, `forall₂_findExports`: the imports and exports correspond one to one, with
  specifiers that are the same or respelled.
-/

namespace ModuleGraph

open Cursor

/-- Nothing is trimmed off a text with no blank at an end. -/
theorem Text.trim_of_ends {s : Text} (hfirst : s.head?.any isBlank = false)
    (hlast : s.getLast?.any isBlank = false) : s.trim = s := by
  have hdrop : ∀ t : Text, t.head?.any isBlank = false → t.dropWhile isBlank = t := by
    intro t ht
    cases t with
    | nil => rfl
    | cons x t =>
      have hx : isBlank x = false := by simpa using ht
      exact List.dropWhile_cons_of_neg (by simp [hx])
  rw [← List.head?_reverse] at hlast
  rw [trim, trimRight, hdrop s hfirst, hdrop s.reverse hlast, List.reverse_reverse]

/-- What corresponds one to one does so in order, too, if the places come in the same order on both
sides. -/
theorem forall₂_inOrder {α β : Type} {q : Nat → Nat → Prop} {r : α → β → Prop}
    (hq : ∀ m n m' n', q m n → q m' n' → (m ≤ m' ↔ n ≤ n')) {xs : List (Nat × α)}
    {ys : List (Nat × β)} (h : List.Forall₂ (fun x y => q x.1 y.1 ∧ r x.2 y.2) xs ys) :
    List.Forall₂ r (inOrder xs) (inOrder ys) := by
  obtain ⟨hlen, hzip⟩ := List.forall₂_iff_zip.mp h
  have hle : ∀ a ∈ xs.zip ys, ∀ b ∈ xs.zip ys, decide (a.1.1 ≤ b.1.1) = decide (a.2.1 ≤ b.2.1) :=
    fun a ha b hb => decide_eq_decide.mpr (hq _ _ _ _ (hzip ha).1 (hzip hb).1)
  let sorted := (xs.zip ys).mergeSort fun a b => decide (a.1.1 ≤ b.1.1)
  have hxs : sorted.map (·.1) = xs.mergeSort fun a b => decide (a.1 ≤ b.1) := by
    have hmap := List.map_mergeSort (f := Prod.fst) (l := xs.zip ys)
      (r := fun a b => decide (a.1.1 ≤ b.1.1)) (s := fun a b => decide (a.1 ≤ b.1))
      fun _ _ _ _ => rfl
    rwa [List.map_fst_zip (Nat.le_of_eq hlen)] at hmap
  have hys : sorted.map (·.2) = ys.mergeSort fun a b => decide (a.1 ≤ b.1) := by
    have hmap := List.map_mergeSort (f := Prod.snd) (l := xs.zip ys)
      (r := fun a b => decide (a.1.1 ≤ b.1.1)) (s := fun a b => decide (a.1 ≤ b.1)) hle
    rwa [List.map_snd_zip (Nat.le_of_eq hlen.symm)] at hmap
  rw [inOrder, inOrder, ← hxs, ← hys, List.forall₂_map_left_iff, List.forall₂_map_left_iff,
    List.forall₂_map_right_iff, List.forall₂_map_right_iff, List.forall₂_same]
  intro a ha
  exact (hzip (List.mem_mergeSort.mp ha)).2

namespace Stretch

variable {R : Text → Text → Prop} {ps : List Stretch}

/-- Two offsets of places between the same stretches. -/
def SamePlace (ps : List Stretch) (m n : Nat) : Prop :=
  ∃ c d, Beside ps c d ∧ m = c.offset ∧ n = d.offset

/-- Places come in the same order on both sides. -/
theorem SamePlace.le_iff (hp : Placed R none ps) (hR : ∀ s t, R s t → Sealed s ∧ Sealed t)
    (m n m' n' : Nat) (h : SamePlace ps m n) (h' : SamePlace ps m' n') : m ≤ m' ↔ n ≤ n' := by
  obtain ⟨c, d, hcd, rfl, rfl⟩ := h
  obtain ⟨c', d', hcd', rfl, rfl⟩ := h'
  exact hcd.offset_le_iff (fun m hm => hp.ne_nil (isQuotable_of_sealed hR) hm) hcd'

/-- Two imports with the same specifier, or with one that is respelled. -/
def AlikeImport (R : Text → Text → Prop) (i j : Import) : Prop :=
  j.specifier = i.specifier ∨ R i.specifier j.specifier

/-- Two exports of one kind that come from nowhere, or from specifiers that are the same or
respelled. -/
structure AlikeExport (R : Text → Text → Prop) (e f : Export) : Prop where
  kind : f.kind = e.kind
  source : Option.Rel (fun s t => t = s ∨ R s t) e.source f.source

theorem trim_of_inert {s : Text} (hs : Inert s) : s.trim = s :=
  Text.trim_of_ends hs.no_blank_first hs.no_blank_last

section Extraction

variable (hp : Placed R none ps) (hR : ∀ s t, R s t → Sealed s ∧ Sealed t)

include hp hR

omit hp in
theorem AlikeFound.ofFound {f g : Statement.Found} (h : AlikeFound R ps f g) (marks : List Text)
    (m n : LineIndex) (kind : ImportKind) :
    SamePlace ps (Import.ofFound marks m kind f).1 (Import.ofFound marks n kind g).1 ∧
      AlikeImport R (Import.ofFound marks m kind f).2 (Import.ofFound marks n kind g).2 := by
  refine ⟨⟨_, _, h.quoted.inside, rfl, rfl⟩, ?_⟩
  rcases h.quoted.text with htext | htext
  · exact Or.inl (congrArg Text.trim htext)
  · obtain ⟨hs, ht⟩ := hR _ _ htext
    refine Or.inr ?_
    show R f.quoted.text.trim g.quoted.text.trim
    rwa [trim_of_inert hs.toInert, trim_of_inert ht.toInert]

/-- The imports of one kind. -/
theorem forall₂_importsOf (marks : List Text) (m n : LineIndex) (kind : ImportKind) :
    List.Forall₂ (fun x y => SamePlace ps x.1 y.1 ∧ AlikeImport R x.2 y.2)
      (Source.importsOf marks m (spell old ps) kind)
      (Source.importsOf marks n (spell new ps) kind) := by
  have hstep : ∀ c d, Level ps c d →
      Option.Rel (AlikeFound R ps) (kind.recognise c) (kind.recognise d) := by
    intro c d h
    cases kind with
    | static => exact h.staticImport hp hR
    | dynamic => exact h.dynamicImport hp hR
    | require => exact h.requireImport hp hR
  rw [Source.importsOf_eq, Source.importsOf_eq, List.forall₂_map_left_iff,
    List.forall₂_map_right_iff]
  have hfinds := forall₂_findAll hp hR kind.opens_recognise hstep fun _ _ h => h.stop
  exact hfinds.imp fun f g h => h.ofFound hR marks m n kind

/-- The imports correspond one to one. -/
theorem forall₂_findImports (marks : List Text) :
    List.Forall₂ (AlikeImport R) (Source.findImports marks (spell old ps))
      (Source.findImports marks (spell new ps)) := by
  refine forall₂_inOrder (SamePlace.le_iff hp hR) ?_
  exact List.rel_flatMap (List.forall₂_same.mpr fun kind _ => rfl) fun kind kind' hkind => by
    subst hkind
    exact forall₂_importsOf hp hR marks _ _ kind

/-- The exports in lists. -/
theorem forall₂_listed (m n : LineIndex) :
    List.Forall₂ (fun x y => SamePlace ps x.1 y.1 ∧ AlikeExport R x.2 y.2)
      (Export.listed m (spell old ps)) (Export.listed n (spell new ps)) := by
  refine List.rel_flatMap (forall₂_findAll hp hR Statement.opens_exportList
    (fun _ _ h => h.exportList hp hR) fun _ _ h => h.stop) fun l k h => ?_
  have hsome : l.origin.isSome = k.origin.isSome := by
    have horigin := h.origin
    generalize l.origin = a at horigin
    generalize k.origin = b at horigin
    cases horigin with
    | none => rfl
    | some _ => rfl
  dsimp only
  rw [h.names, List.forall₂_map_left_iff, List.forall₂_map_right_iff, List.forall₂_same]
  intro name _
  refine ⟨⟨_, _, h.place, rfl, rfl⟩, ?_, rel_map h.origin fun _ _ hq => hq.text⟩
  simp only [hsome]

/-- The exports correspond one to one. -/
theorem forall₂_findExports :
    List.Forall₂ (AlikeExport R) (Source.findExports (spell old ps))
      (Source.findExports (spell new ps)) := by
  refine forall₂_inOrder (SamePlace.le_iff hp hR) ?_
  refine List.rel_append (List.rel_append (List.rel_append ?_ ?_) ?_) ?_
  · rw [Export.declared, Export.declared, List.forall₂_map_left_iff, List.forall₂_map_right_iff]
    have hfinds := forall₂_findAll hp hR Statement.opens_exportDeclaration
      (fun _ _ h => h.exportDeclaration hp) fun _ _ h => h.stop
    exact hfinds.imp fun _ _ h => ⟨⟨_, _, h.place, rfl, rfl⟩, rfl, .none⟩
  · rw [Export.defaults, Export.defaults, List.forall₂_map_left_iff, List.forall₂_map_right_iff]
    have hfinds := forall₂_findAll hp hR Statement.opens_exportDefault
      (fun _ _ h => h.exportDefault hp) fun _ _ h => h.2
    exact hfinds.imp fun _ _ h => ⟨⟨_, _, h.1, rfl, rfl⟩, rfl, .none⟩
  · exact forall₂_listed hp hR _ _
  · rw [Export.starred, Export.starred, List.forall₂_map_left_iff, List.forall₂_map_right_iff]
    have hfinds := forall₂_findAll hp hR Statement.opens_exportStar
      (fun _ _ h => h.exportStar hp hR) fun _ _ h => h.origin.stop
    refine hfinds.imp fun s t h => ⟨⟨_, _, h.place, rfl, rfl⟩, ?_, .some h.origin.text⟩
    simp only [h.name]

end Extraction

end Stretch
end ModuleGraph
