import ModuleGraph.Proofs.Respell.Lines
import ModuleGraph.Proofs.Source.Inverse
import ModuleGraph.Proofs.Source.Leads

/-!
The places of the imports in a text.

* `lt_of_mem_findFrom`, `pairwise_findFrom`: the finds of one recogniser come one after the other;
* `kind_of_endsWithLead`: what stands before an opening quote tells of which kind the import is, so
  no specifier is found as two kinds;
* `nodup_offsets`: over all kinds no specifier is found twice;
* `findImports_ordered`: the imports stand in the order of the offsets of their specifiers, no
  two at one offset, each with the specifier and the line at its offset.
-/

namespace ModuleGraph

open Cursor

namespace Cursor

variable {α : Type} {recognise : Cursor → Option α} {stop start : α → Nat}

/-- What is found has its mark behind the place where the search resumes. -/
theorem lt_of_mem_findFrom
    (hstart : ∀ c a, recognise c = some a → c.offset < start a ∧ start a ≤ stop a) {a : α}
    {t : Text} {resume offset : Nat} {before : Option Char}
    (h : a ∈ findFrom recognise stop resume offset before t) : resume < start a := by
  induction t generalizing resume offset before with
  | nil => simp [findFrom] at h
  | cons x t ih =>
    rw [findFrom] at h
    split at h
    · exact ih h
    · rename_i hresume
      split at h
      · exact ih h
      · rename_i b hb
        obtain ⟨hlt, hle⟩ : offset < start b ∧ start b ≤ stop b := hstart _ b hb
        rcases List.mem_cons.mp h with rfl | h
        · omega
        · have hnext := ih h
          omega

/-- Finds do not overlap, so their marks come one after the other. -/
theorem pairwise_findFrom
    (hstart : ∀ c a, recognise c = some a → c.offset < start a ∧ start a ≤ stop a) (t : Text)
    (resume offset : Nat) (before : Option Char) :
    (findFrom recognise stop resume offset before t).Pairwise fun a b => start a < start b := by
  induction t generalizing resume offset before with
  | nil => exact .nil
  | cons x t ih =>
    rw [findFrom]
    split
    · exact ih _ _ _
    · split
      · exact ih _ _ _
      · rename_i b hb
        refine .cons (fun a ha => ?_) (ih _ _ _)
        exact Nat.lt_of_le_of_lt (hstart _ b hb).2 (lt_of_mem_findFrom hstart ha)

end Cursor

namespace Statement

variable {c : Cursor} {f g : Found} {k k' : ImportKind} {t w : Text} {before : Option Char}

/-- What a text ends with before the opening quote of an import tells of which kind it is. -/
theorem kind_of_endsWithLead (h : EndsWithLead k before w) :
    ((Form.atEnd w).map Form.kind).getD .static = k := by
  obtain ⟨front, back, rfl, ⟨-, g, rfl, hlead⟩ | ⟨rfl, gap, rfl, hgap⟩⟩ := h
  · rw [Form.atEnd_of_isLead hlead]
    rfl
  · have hlast := Form.dropWhile_word ['t', 'y', 'p'] (rfl : Binding.typeWord = _) (by decide) hgap
      front
    rw [Form.atEnd, hlast]
    rfl

theorem Tailed.moves_stop (h : Tailed c f) : Moves f.quoted.stop f.stop := by
  cases h <;> exact ⟨[], .refl _⟩

theorem Called.moves_stop (h : Called c f) : Moves f.quoted.stop f.stop :=
  (moves_skip _ _).trans (moves_char h.closed)

/-- What is recognised goes on at least to the closing quote. -/
theorem moves_stop (h : k.recognise c = some f) : Moves f.quoted.stop f.stop := by
  cases reading_of_recognise h with
  | static _ _ tail | typed _ _ _ tail => exact tail.moves_stop
  | dynamic _ call | require _ call | bound _ _ _ _ _ _ call => exact call.moves_stop

/-- A specifier begins behind the beginning of its statement and before the end. -/
theorem offset_of_recognise (h : k.recognise c = some f) :
    c.offset < f.quoted.inside.offset ∧ f.quoted.inside.offset ≤ f.stop.offset := by
  obtain ⟨e, he, w, hw, -⟩ := exists_lead h
  obtain ⟨-, -, -, hopen, hclose⟩ := quoted_eq_some he
  obtain ⟨v, hv⟩ := moves_stop h
  have hinside := (hw.trans hopen).offset_eq
  have hstop := (hclose.trans hv).offset_eq
  rw [List.length_append, List.length_singleton] at hinside
  omega

/-- No specifier is found as one of two kinds. -/
theorem kind_unique (hf : f ∈ findAll k.recognise (·.stop.offset) t)
    (hg : g ∈ findAll k'.recognise (·.stop.offset) t)
    (hoffset : f.quoted.inside.offset = g.quoted.inside.offset) : k = k' := by
  obtain ⟨-, -, -, -, -, hlead⟩ := exists_of_found hf
  obtain ⟨-, -, -, -, -, hlead'⟩ := exists_of_found hg
  have hfront : f.front t = g.front t := by rw [Found.front, Found.front, hoffset]
  rw [← kind_of_endsWithLead hlead, ← kind_of_endsWithLead hlead', hfront]

/-- The offset of the specifier of an import. -/
def Found.offset (f : Found) : Nat := f.quoted.inside.offset

/-- Over all kinds no specifier is found twice. -/
theorem nodup_offsets (t : Text) : (ImportKind.all.flatMap fun k =>
    (findAll k.recognise (·.stop.offset) t).map Found.offset).Nodup := by
  refine List.nodup_flatMap.mpr ⟨fun k _ => ?_, ?_⟩
  · have hpairwise : (findAll k.recognise (·.stop.offset) t).Pairwise fun f g =>
        f.offset < g.offset :=
      pairwise_findFrom (fun _ _ => offset_of_recognise) t 0 0 none
    exact List.pairwise_map.mpr (hpairwise.imp Nat.ne_of_lt)
  · have hkinds : ImportKind.all.Pairwise (· ≠ ·) := by decide
    refine hkinds.imp fun {k k'} hne => List.disjoint_left.mpr ?_
    intro offset hk hk'
    obtain ⟨f, hf, rfl⟩ := List.mem_map.mp hk
    obtain ⟨g, hg, hoffset⟩ := List.mem_map.mp hk'
    exact hne (kind_unique hf hg hoffset.symm)

end Statement

namespace Source

open Statement

/-- The imports of all kinds with the offsets of their specifiers, kind by kind. -/
theorem map_fst_importsOf (marks : List Text) (index : LineIndex) (content : Text) :
    (ImportKind.all.flatMap (importsOf marks index content)).map (·.1) =
      ImportKind.all.flatMap fun k =>
        (findAll k.recognise (·.stop.offset) content).map Found.offset := by
  rw [List.map_flatMap]
  refine congrArg (ImportKind.all.flatMap ·) (funext fun k => ?_)
  rw [importsOf_eq, List.map_map]
  rfl

/-- A text up to the next quote, if one follows. -/
theorem takeWhile_quoted {s : Text} (hs : s.IsQuotable) {q : Char} (hq : isQuote q = true)
    (back : Text) : (s ++ q :: back).takeWhile (fun c => !isQuote c) = s := by
  have hall : ∀ c ∈ s, (!isQuote c) = true := by
    intro c hc
    have hquotable := List.all_eq_true.mp hs.all c hc
    rw [isQuotable, Bool.and_eq_true] at hquotable
    exact hquotable.1
  rw [List.takeWhile_append_of_pos hall, List.takeWhile_cons_of_neg (by simp [hq]), List.append_nil]

/-- The imports of a text stand in the order of the offsets of their specifiers. Every find of
every kind is among them, no two at one offset. At each offset, behind a quote, begins the text
up to the next quote, which is the same one; without the blanks at its ends it is the specifier.
The line is one more than the number of line ends before the offset. -/
theorem findImports_ordered (marks : List Text) (content : Text) :
    ∃ found : List (Nat × Import),
      found.Perm (ImportKind.all.flatMap (importsOf marks (.ofText content) content)) ∧
      findImports marks content = found.map (·.2) ∧
      (found.map (·.1)).Pairwise (· < ·) ∧
      ∀ x ∈ found, ∃ (front : Text) (quote : Char) (quoted back : Text), isQuote quote = true ∧
        content = front ++ quote :: (quoted ++ quote :: back) ∧ x.1 = front.length + 1 ∧
        quoted = (content.drop x.1).takeWhile (fun c => !isQuote c) ∧ quoted ≠ [] ∧
        x.2.specifier = quoted.trim ∧ x.2.line = 1 + (content.take x.1).count '\n' := by
  let all := ImportKind.all.flatMap (importsOf marks (.ofText content) content)
  let found := all.mergeSort fun a b => decide (a.1 ≤ b.1)
  have hperm : found.Perm all := List.mergeSort_perm _ _
  refine ⟨found, hperm, rfl, ?_, fun x hx => ?_⟩
  · have hsorted : found.Pairwise fun a b => decide (a.1 ≤ b.1) = true :=
      List.pairwise_mergeSort (by simp; omega) (by simp; omega) all
    have hnodup : (found.map (·.1)).Nodup := by
      rw [(hperm.map (·.1)).nodup_iff, map_fst_importsOf]
      exact nodup_offsets content
    refine List.pairwise_map.mpr ((hsorted.and (List.pairwise_map.mp hnodup)).imp ?_)
    rintro a b ⟨hle, hne⟩
    exact Nat.lt_of_le_of_ne (of_decide_eq_true hle) hne
  · obtain ⟨k, -, hx⟩ := List.mem_flatMap.mp (hperm.mem_iff.mp hx)
    rw [importsOf_eq] at hx
    obtain ⟨f, hf, rfl⟩ := List.mem_map.mp hx
    obtain ⟨back, hoffset, ht, hquote, hquotable, -⟩ := exists_of_found hf
    have hdrop : content.drop f.quoted.inside.offset =
        f.quoted.text ++ f.quoted.quote :: back := by
      conv_lhs => rw [ht]
      rw [hoffset]
      simp
    refine ⟨f.front content, f.quoted.quote, f.quoted.text, back, hquote, ht, hoffset, ?_,
      hquotable.ne_nil, rfl, ?_⟩
    · show _ = (content.drop f.quoted.inside.offset).takeWhile _
      rw [hdrop, takeWhile_quoted hquotable hquote]
    · show (((LineIndex.ofText content).lineOf f.quoted.inside.offset : Nat) : Int) =
        1 + ((content.take f.quoted.inside.offset).count '\n' : Nat)
      rw [LineIndex.lineOf_ofText]
      omega

end Source
end ModuleGraph
