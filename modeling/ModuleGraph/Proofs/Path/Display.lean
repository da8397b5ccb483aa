import ModuleGraph.Proofs.Path.Directory

/-!
Paths as they are shown below a base.

* `IsNormal.no_second_slash`: behind a name of a normal form there are not two slashes in a row;
* `whole`, `whole_display`: the path can be told from the way it is shown;
* `display_injective`: paths that are shown alike are the same.
-/

namespace ModuleGraph
namespace Path

variable {p q h r : Text}

/-- Between the slashes of a normal form no piece is empty after one that is not. -/
theorem IsNormal.pairwise_pieces (hp : IsNormal p) :
    (p.splitOn slash).Pairwise fun a b => a ≠ [] → b ≠ [] := by
  have hnames : (Text.splitOn slash (Text.join [slash] (names p))).Pairwise
      fun a b => a ≠ [] → b ≠ [] := by
    cases hns : names p with
    | nil => simp [Text.join]
    | cons n ns =>
      have hname : ∀ m ∈ n :: ns, IsName m := hns ▸ hp.isName
      rw [Text.splitOn_join (fun m hm => (hname m hm).no_slash) (List.cons_ne_nil n ns)]
      exact List.pairwise_of_forall_mem_list fun _ _ m hm _ => (hname m hm).ne_nil
  -- the slashes in front only add empty pieces
  have hslash : ∀ {t : Text}, (t.splitOn slash).Pairwise (fun a b => a ≠ [] → b ≠ []) →
      (Text.splitOn slash (slash :: t)).Pairwise fun a b => a ≠ [] → b ≠ [] := by
    intro t ht
    have hsplit : Text.splitOn slash (slash :: t) = [] :: Text.splitOn slash t := by
      simp [Text.splitOn_cons, Text.splitStep]
    rw [hsplit, List.pairwise_cons]
    exact ⟨fun _ _ hne => absurd rfl hne, ht⟩
  rw [hp.eq_write, hp.isLead.write_eq]
  rcases hp.isLead with hlead | hlead
  · rw [hlead]
    exact hslash hnames
  · rw [hlead]
    exact hslash (hslash hnames)

/-- What does not end in a slash has a piece that is not empty, its last one. -/
theorem exists_piece (hne : h ≠ []) (hlast : h.getLast? ≠ some slash) :
    ∃ piece ∈ h.splitOn slash, piece ≠ [] := by
  obtain ⟨pieces, piece, hsplit⟩ :=
    (List.eq_nil_or_concat (h.splitOn slash)).resolve_left (Text.splitOn_ne_nil slash h)
  have hjoin := Text.join_splitOn slash h
  rw [hsplit, List.concat_eq_append] at hjoin
  refine ⟨piece, by simp [hsplit], ?_⟩
  rintro rfl
  by_cases hpieces : pieces = []
  · subst hpieces
    exact hne hjoin.symm
  · rw [Text.join_concat hpieces] at hjoin
    rw [← hjoin] at hlast
    simp at hlast

/-- What does not end in a slash is not followed by two of them. -/
theorem IsNormal.no_second_slash (hp : IsNormal (h ++ slash :: r)) (hne : h ≠ [])
    (hlast : h.getLast? ≠ some slash) : r.head? ≠ some slash := by
  intro hr
  obtain ⟨s, rfl⟩ : ∃ s, r = slash :: s := by
    cases r with
    | nil => cases hr
    | cons c s => exact ⟨s, by simpa using hr⟩
  obtain ⟨piece, hpiece, hfull⟩ := exists_piece hne hlast
  have hempty : [] ∈ Text.splitOn slash (slash :: s) := by
    simp [Text.splitOn_cons, Text.splitStep]
  have hpairs := hp.pairwise_pieces
  rw [Text.splitOn_append_self, List.pairwise_append] at hpairs
  exact hpairs.2.2 piece hpiece [] hempty hfull rfl

/-- The path that is shown like this below a base. -/
def whole (shown : Text) (base : Option Text) : Text :=
  match base with
  | none => shown
  | some base =>
    let head := trimSlashes (tidy base) ++ [slash]
    if head ≠ [slash] ∧ isAbsolute shown = true then shown else head ++ shown

/-- A path can be told from the way it is shown. -/
theorem whole_display (hp : IsNormal p) (base : Option Text) : whole (display p base) base = p := by
  cases base with
  | none => rfl
  | some base =>
    obtain ⟨-, -, -, hlast⟩ := exists_trimSlashes (tidy base)
    by_cases hstarts : p.startsWith (trimSlashes (tidy base) ++ [slash]) = true
    · obtain ⟨rest, hrest⟩ := Text.startsWith_iff.mp hstarts
      have hshown : display p (some base) = rest := by
        rw [display, if_pos hstarts]
        conv_lhs => rw [hrest]
        exact List.drop_left
      rw [hshown, hrest]
      refine if_neg fun ⟨hne, habsolute⟩ => ?_
      -- below a name the rest is no absolute path
      have habove : trimSlashes (tidy base) ≠ [] := by
        intro hnil
        rw [hnil] at hne
        exact hne rfl
      rw [hrest, List.append_assoc, List.singleton_append] at hp
      exact hp.no_second_slash habove hlast (by simpa [isAbsolute] using habsolute)
    · have hshown : display p (some base) = p := by rw [display, if_neg hstarts]
      rw [hshown]
      refine if_pos ⟨fun hslash => hstarts ?_, hp.absolute⟩
      rw [hslash, Text.startsWith_iff]
      obtain ⟨rest, hrest⟩ := List.head?_eq_some_iff.mp (beq_iff_eq.mp hp.absolute)
      exact ⟨rest, hrest⟩

/-- Paths that are shown alike are the same. -/
theorem display_injective (hp : IsNormal p) (hq : IsNormal q) {base : Option Text}
    (h : display p base = display q base) : p = q := by
  rw [← whole_display hp base, h, whole_display hq base]

end Path
end ModuleGraph
