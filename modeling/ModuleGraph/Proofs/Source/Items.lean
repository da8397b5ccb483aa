import ModuleGraph.Proofs.Source.Finds
import ModuleGraph.Source.Binding

/-!
The names in an export list in which quoted texts stand.

* `afterLast_quote`: what stands before a quote does not count for what is after the last `as`;
* `exportName_quote`: nor for the name that an item makes visible;
* `exportNames_spell`: so a list keeps its names when quoted texts in it are respelled.
-/

namespace ModuleGraph

open Cursor

namespace Binding

variable {c d : Cursor} {q : Char} {u v w : Text} {p : Char → Bool}

/-- Two places with the same text after them. -/
def SameRest (c d : Cursor) : Prop := c.rest = d.rest

theorem SameRest.char (h : SameRest c d) (x : Char) :
    Option.Rel SameRest (c.char x) (d.char x) := by
  rw [Cursor.char, Cursor.char, show c.rest = d.rest from h]
  split
  · exact .none
  · split
    · exact .some rfl
    · exact .none

theorem SameRest.literal (h : SameRest c d) (w : Text) :
    Option.Rel SameRest (c.literal w) (d.literal w) := by
  induction w generalizing c d with
  | nil => exact .some h
  | cons x w ih => exact Stretch.rel_bind (h.char x) fun _ _ h => ih h

theorem SameRest.skip (h : SameRest c d) (p : Char → Bool) :
    SameRest (c.skip p) (d.skip p) := by
  have hrest : ∀ (t : Text) (m n : Nat) (a b : Option Char),
      (skipFrom p m a t).rest = (skipFrom p n b t).rest := by
    intro t
    induction t with
    | nil => exact fun _ _ _ _ => rfl
    | cons x t ih =>
      intro m n a b
      rw [skipFrom, skipFrom]
      split
      · exact ih _ _ _ _
      · rfl
  rw [SameRest, Cursor.skip, Cursor.skip, show c.rest = d.rest from h]
  exact hrest _ _ _ _ _

theorem SameRest.skip1 (h : SameRest c d) (p : Char → Bool) :
    Option.Rel SameRest (c.skip1 p) (d.skip1 p) := by
  have hskip := h.skip p
  rw [Cursor.skip1, Cursor.skip1, show c.rest = d.rest from h]
  split
  · exact .none
  · split
    · exact .some hskip
    · exact .none

/-- What stands before a place does not count for a separator. -/
theorem SameRest.asSeparator (h : SameRest c d) :
    Option.Rel SameRest (asSeparator c) (asSeparator d) :=
  Stretch.rel_bind (Stretch.rel_bind (h.skip1 _) fun _ _ h => h.literal _) fun _ _ h => h.skip1 _

/-- A separator holds no quote. -/
theorem passes_asSeparator (h : asSeparator c = some d) :
    ∃ w, Passes c w d ∧ w.IsUnquoted := by
  obtain ⟨e, he, h⟩ := Option.bind_eq_some_iff.mp h
  obtain ⟨b, hb, he⟩ := Option.bind_eq_some_iff.mp he
  obtain ⟨v, hv, hv'⟩ := passes_skip1 hb
  obtain ⟨w, hw, hw'⟩ := passes_skip1 h
  exact ⟨_, hv.trans ((passes_literal he).trans hw), (Form.isUnquoted_of_blanks hv').append
    ((Form.isUnquoted_word rfl).append (Form.isUnquoted_of_blanks hw'))⟩

theorem asSeparator_of_quote (hq : isQuote q = true) (h : c.rest = q :: w) :
    asSeparator c = none := by
  rw [asSeparator, Cursor.blanks1, Cursor.skip1, h]
  simp [Stretch.not_isBlank_of_isQuote hq]

/-- The texts after the separators that are found do not depend on where the text starts. -/
theorem map_rest_findFrom (t : Text) {m n k l : Nat} {a b : Option Char}
    (h : ∀ i, m + i < k ↔ n + i < l) :
    (findFrom asSeparator Cursor.offset k m a t).map Cursor.rest =
      (findFrom asSeparator Cursor.offset l n b t).map Cursor.rest := by
  induction t generalizing m n k l a b with
  | nil => rfl
  | cons x t ih =>
    have hnext : ∀ i, m + 1 + i < k ↔ n + 1 + i < l := by
      intro i
      rw [Nat.add_assoc, Nat.add_assoc]
      exact h (1 + i)
    rw [findFrom, findFrom]
    have hlt : m < k ↔ n < l := h 0
    by_cases hm : m < k
    · rw [if_pos hm, if_pos (hlt.mp hm)]
      exact ih hnext
    · rw [if_neg hm, if_neg (mt hlt.mpr hm)]
      have hrel : Option.Rel SameRest (asSeparator ⟨m, a, x :: t⟩) (asSeparator ⟨n, b, x :: t⟩) :=
        SameRest.asSeparator rfl
      generalize hc : asSeparator ⟨m, a, x :: t⟩ = o at hrel
      generalize hd : asSeparator ⟨n, b, x :: t⟩ = o' at hrel
      cases hrel with
      | none => exact ih hnext
      | @some c d hcd =>
        obtain ⟨v, hv, -⟩ := passes_asSeparator hc
        obtain ⟨w, hw, -⟩ := passes_asSeparator hd
        have hlen := congrArg List.length (hv.rest_eq.symm.trans hw.rest_eq)
        have hcd : c.rest = d.rest := hcd
        have hoff : c.offset = m + v.length ∧ d.offset = n + w.length :=
          ⟨hv.offset_eq, hw.offset_eq⟩
        rw [List.length_append, List.length_append, hcd] at hlen
        have hstop : ∀ i, m + 1 + i < c.offset ↔ n + 1 + i < d.offset := by omega
        rw [List.map_cons, List.map_cons, hcd, ih hstop]

/-- The separators in a text with a quote in it: those before the quote, and those after it. -/
theorem findFrom_append_quote (hq : isQuote q = true) (u w : Text) {resume offset : Nat}
    (hr : resume ≤ offset + u.length + 1) (before : Option Char) :
    ∃ as bs, findFrom asSeparator Cursor.offset resume offset before (u ++ q :: w) = as ++ bs ∧
      (∀ a ∈ as, ∃ v, a.rest = v ++ q :: w) ∧
      bs.map Cursor.rest = (findAll asSeparator Cursor.offset w).map Cursor.rest := by
  induction u generalizing resume offset before with
  | nil =>
    refine ⟨[], findFrom asSeparator Cursor.offset resume (offset + 1) (some q) w, ?_, by simp, ?_⟩
    · rw [List.nil_append, List.nil_append, findFrom, asSeparator_of_quote hq rfl, ite_self]
    · refine map_rest_findFrom w fun i => ?_
      rw [List.length_nil] at hr
      omega
  | cons x u ih =>
    rw [List.length_cons] at hr
    have hr' : resume ≤ offset + 1 + u.length + 1 := by omega
    rw [List.cons_append, findFrom]
    split
    · exact ih hr' _
    · cases hc : asSeparator ⟨offset, before, x :: (u ++ q :: w)⟩ with
      | none => exact ih hr' _
      | some a =>
        obtain ⟨v, hv, hv'⟩ := passes_asSeparator hc
        obtain ⟨z, hz⟩ := Stretch.exists_of_append_quote (s := x :: u) hq hv' hv.rest_eq
        have hrest : a.rest = z ++ q :: w := by
          have h := hv.rest_eq
          have hsplit : x :: (u ++ q :: w) = v ++ (z ++ q :: w) := by
            rw [← List.append_assoc, ← hz]
            rfl
          rw [hsplit] at h
          exact (List.append_cancel_left h).symm
        have hoffset : a.offset = offset + v.length := hv.offset_eq
        have hlen := congrArg List.length hz
        rw [List.length_cons, List.length_append] at hlen
        have hresume : a.offset ≤ offset + 1 + u.length + 1 := by omega
        obtain ⟨as, bs, hfind, has, hbs⟩ := ih hresume (some x)
        refine ⟨a :: as, bs, congrArg (a :: ·) hfind, fun b hb => ?_, hbs⟩
        rcases List.mem_cons.mp hb with rfl | hb
        · exact ⟨z, hrest⟩
        · exact has b hb

/-- What is after the last separator does not depend on what stands before a quote, if it does not
hold that quote itself. -/
theorem afterLast_quote (hq : isQuote q = true) (w : Text) :
    (∃ n, ∀ u, Text.afterLast asSeparator (u ++ q :: w) = n) ∨
      ∀ u, ∃ v, Text.afterLast asSeparator (u ++ q :: w) = v ++ q :: w := by
  have hfind : ∀ u, ∃ as bs, findAll asSeparator Cursor.offset (u ++ q :: w) = as ++ bs ∧
      (∀ a ∈ as, ∃ v, a.rest = v ++ q :: w) ∧
      bs.map Cursor.rest = (findAll asSeparator Cursor.offset w).map Cursor.rest :=
    fun u => findFrom_append_quote hq u w (Nat.zero_le _) none
  cases hlast : ((findAll asSeparator Cursor.offset w).map Cursor.rest).getLast? with
  | none =>
    right
    intro u
    obtain ⟨as, bs, hab, has, hbs⟩ := hfind u
    rw [← hbs, List.getLast?_eq_none_iff, List.map_eq_nil_iff] at hlast
    rw [hlast, List.append_nil] at hab
    rw [Text.afterLast, hab]
    cases ha : as.getLast? with
    | none => exact ⟨u, rfl⟩
    | some a => exact has a (List.mem_of_getLast? ha)
  | some n =>
    left
    refine ⟨n, fun u => ?_⟩
    obtain ⟨as, bs, hab, -, hbs⟩ := hfind u
    rw [← hbs, List.getLast?_map, Option.map_eq_some_iff] at hlast
    obtain ⟨b, hb, rfl⟩ := hlast
    rw [Text.afterLast, hab, List.getLast?_append, hb]
    rfl

theorem not_isIdentifier_quote (hq : isQuote q = true) (u w : Text) :
    Text.isIdentifier (u ++ q :: w) = false := by
  rw [Text.isIdentifier, List.all_append, List.all_cons, Stretch.not_isName_of_isQuote hq]
  simp

theorem dropWhile_append_of_not {x : Char} (hx : p x = false) (u w : Text) :
    (u ++ x :: w).dropWhile p = u.dropWhile p ++ x :: w := by
  have hcons : (x :: w).dropWhile p = x :: w := List.dropWhile_cons_of_neg (by simp [hx])
  rw [List.dropWhile_append, hcons]
  split
  · rename_i hnil
    rw [List.isEmpty_iff] at hnil
    rw [hnil]
    rfl
  · rfl

/-- Trimming does not go beyond a quote. -/
theorem trim_quote (hq : isQuote q = true) (u w : Text) :
    ∃ v, Text.trim (u ++ q :: w) = v ++ q :: Text.trimRight w := by
  have hb := Stretch.not_isBlank_of_isQuote hq
  refine ⟨u.dropWhile Text.isBlank, ?_⟩
  rw [Text.trim, dropWhile_append_of_not hb, Text.trimRight, List.reverse_append,
    List.reverse_cons, List.append_assoc, List.singleton_append, dropWhile_append_of_not hb,
    List.reverse_append, List.reverse_cons, List.reverse_reverse, List.append_assoc]
  rfl

/-- The word in front does not go beyond a quote. -/
theorem dropType_quote (hq : isQuote q = true) (u w : Text) :
    ∃ v, dropType (u ++ q :: w) = v ++ q :: w := by
  unfold dropType
  split
  · rename_i c hc
    obtain ⟨e, he, hc⟩ := Option.bind_eq_some_iff.mp hc
    obtain ⟨b, hb, hb'⟩ := passes_skip1 hc
    have hpass := (passes_literal he).trans hb
    have hlead : Text.IsUnquoted (typeWord ++ b) :=
      (Form.isUnquoted_word rfl).append (Form.isUnquoted_of_blanks hb')
    obtain ⟨z, rfl⟩ := Stretch.exists_of_append_quote hq hlead hpass.rest_eq
    have hrest := hpass.rest_eq
    rw [Cursor.start, List.append_assoc] at hrest
    exact ⟨z, (List.append_cancel_left hrest).symm⟩
  · exact ⟨u, rfl⟩

/-- What stands before a quote does not count for the name that an item makes visible. -/
theorem exportName_quote (hq : isQuote q = true) (u v w : Text) :
    exportName (u ++ q :: w) = exportName (v ++ q :: w) := by
  have hname : ∃ n : Text, ∀ u, exportName (u ++ q :: w) =
      if Text.isIdentifier n then some n else none := by
    rcases afterLast_quote hq (Text.trimRight w) with ⟨n, hn⟩ | hn
    · refine ⟨n.trim, fun u => ?_⟩
      obtain ⟨x, hx⟩ := trim_quote hq u w
      obtain ⟨y, hy⟩ := dropType_quote hq x (Text.trimRight w)
      rw [exportName, hx, hy, hn, if_neg (by simp)]
    · refine ⟨[], fun u => ?_⟩
      obtain ⟨x, hx⟩ := trim_quote hq u w
      obtain ⟨y, hy⟩ := dropType_quote hq x (Text.trimRight w)
      obtain ⟨z, hz⟩ := hn y
      obtain ⟨z', hz'⟩ := trim_quote hq z (Text.trimRight w)
      have hno := not_isIdentifier_quote hq z' (Text.trimRight (Text.trimRight w))
      rw [exportName, hx, hy, hz, hz', if_neg (by simp)]
      exact (if_neg (by rw [hno]; simp)).trans (if_neg (by decide)).symm
  obtain ⟨n, hn⟩ := hname
  rw [hn, hn]

end Binding

namespace Stretch

variable {R : Text → Text → Prop} {ps : List Stretch}

/-- Two items of a list: the same, or with the same text after a quote. -/
def AlikeItem (u v : Text) : Prop :=
  u = v ∨ ∃ q x y w, isQuote q = true ∧ u = x ++ q :: w ∧ v = y ++ q :: w

theorem AlikeItem.exportName_eq {u v : Text} (h : AlikeItem u v) :
    Binding.exportName u = Binding.exportName v := by
  rcases h with rfl | ⟨q, x, y, w, hq, rfl, rfl⟩
  · rfl
  · exact Binding.exportName_quote hq x y w

/-- Items after the same or different beginnings. -/
theorem AlikeItem.append {u v : Text} {q : Char} (hq : isQuote q = true) (h : AlikeItem u v)
    (s t : Text) : AlikeItem (s ++ q :: u) (t ++ q :: v) := by
  rcases h with rfl | ⟨r, x, y, w, hr, rfl, rfl⟩
  · exact Or.inr ⟨q, s, t, u, hq, rfl, rfl⟩
  · exact Or.inr ⟨r, s ++ q :: x, t ++ q :: y, w, hr, by simp, by simp⟩

theorem AlikeItem.cons {u v : Text} (h : AlikeItem u v) (x : Char) :
    AlikeItem (x :: u) (x :: v) := by
  rcases h with rfl | ⟨q, y, z, w, hq, rfl, rfl⟩
  · exact Or.inl rfl
  · exact Or.inr ⟨q, x :: y, x :: z, w, hq, rfl, rfl⟩

theorem splitOn_cons_of_ne {sep x : Char} (hx : x ≠ sep) (t : Text) :
    Text.splitOn sep (x :: t) = (Text.splitOn sep t).modifyHead (x :: ·) := by
  rw [Text.splitOn_cons]
  unfold Text.splitStep
  rw [if_neg hx]
  cases h : Text.splitOn sep t with
  | nil => exact absurd h (Text.splitOn_ne_nil sep t)
  | cons piece pieces => rfl

/-- The first piece of a text takes what stands before it without a separator. -/
theorem splitOn_append_of_not_mem {sep : Char} {s : Text} (hs : sep ∉ s) (t : Text) :
    Text.splitOn sep (s ++ t) = (Text.splitOn sep t).modifyHead (s ++ ·) := by
  induction s with
  | nil =>
    rw [List.nil_append]
    cases Text.splitOn sep t <;> rfl
  | cons x s ih =>
    simp only [List.mem_cons, not_or] at hs
    rw [List.cons_append, splitOn_cons_of_ne (Ne.symm hs.1), ih hs.2, List.modifyHead_modifyHead]
    rfl

theorem forall₂_modifyHead {α β : Type} {r : α → β → Prop} {f : α → α} {g : β → β}
    (hfg : ∀ x y, r x y → r (f x) (g y)) {xs : List α} {ys : List β} (h : List.Forall₂ r xs ys) :
    List.Forall₂ r (xs.modifyHead f) (ys.modifyHead g) := by
  cases h with
  | nil => exact .nil
  | cons hxy h => exact .cons (hfg _ _ hxy) h

/-- The items on the two sides. -/
theorem forall₂_splitOn {o : Option Char} (hp : Placed R o ps)
    (hR : ∀ s t, R s t → ',' ∉ s ∧ ',' ∉ t) :
    List.Forall₂ AlikeItem (Text.splitOn ',' (spell old ps)) (Text.splitOn ',' (spell new ps)) := by
  induction hp with
  | nil => exact .cons (Or.inl rfl) .nil
  | @kept o x ps h ih =>
    rw [spell_cons, spell_cons, old, new, List.singleton_append, List.singleton_append]
    by_cases hx : x = ','
    · rw [hx, ← List.nil_append (',' :: spell old ps), ← List.nil_append (',' :: spell new ps),
        Text.splitOn_append_cons List.not_mem_nil, Text.splitOn_append_cons List.not_mem_nil]
      exact .cons (Or.inl rfl) ih
    · rw [splitOn_cons_of_ne hx, splitOn_cons_of_ne hx]
      exact forall₂_modifyHead (fun u v huv => huv.cons x) ih
  | @respelled q s t ps hq hst h ih =>
    obtain ⟨hs, ht⟩ := hR s t hst
    have hqc : ',' ≠ q := by
      rintro rfl
      cases hq
    have happ : ∀ (u : Text) (side : Stretch → Text), u ++ ([q] ++ spell side ps) =
        (u ++ [q]) ++ spell side ps := fun u side => (List.append_assoc u [q] _).symm
    rw [spell_cons, spell_cons, spell_cons, spell_cons, old, new, old, new, happ, happ,
      splitOn_append_of_not_mem (by simp [hs, hqc]), splitOn_append_of_not_mem (by simp [ht, hqc])]
    refine forall₂_modifyHead (fun u v huv => ?_) ih
    rw [List.append_assoc, List.append_assoc]
    exact huv.append hq s t

/-- A list keeps its names when quoted texts in it are respelled. -/
theorem exportNames_spell {o : Option Char} (hp : Placed R o ps)
    (hR : ∀ s t, R s t → ',' ∉ s ∧ ',' ∉ t) :
    Binding.exportNames (spell old ps) = Binding.exportNames (spell new ps) := by
  have hnames : ∀ {us vs : List Text}, List.Forall₂ AlikeItem us vs →
      us.filterMap Binding.exportName = vs.filterMap Binding.exportName := by
    intro us vs h
    induction h with
    | nil => rfl
    | cons huv h ih => rw [List.filterMap_cons, List.filterMap_cons, huv.exportName_eq, ih]
  exact hnames (forall₂_splitOn hp hR)

end Stretch
end ModuleGraph
