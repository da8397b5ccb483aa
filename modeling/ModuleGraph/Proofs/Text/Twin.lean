import ModuleGraph.Proofs.Respell.Lead
import ModuleGraph.Proofs.Text.LineEnds

/-!
The same place in a text and in the text with carriage returns.

* `Twin`: the two places stand behind corresponding beginnings of the two texts;
* `Twin.char`, `Twin.skip`, `Twin.quoted`: a step succeeds at both places or at neither, and leads
  to such places again;
* `Twin.offset_le_iff`, `Twin.upTo`: such places come in the same order, with corresponding texts
  between them;
* `forall₂_findAll_crlf`: what is found in the one text is found in the other.
-/

namespace ModuleGraph
namespace Cursor

open Stretch (rel_bind)

variable {t w v : Text} {c d e c' d' : Cursor} {p : Char → Bool} {x : Char}

/-- A place in a text, and the place in the text with carriage returns that corresponds to it. -/
def Twin (t : Text) (c d : Cursor) : Prop :=
  ∃ front, Passes (start t) front c ∧ Passes (start t.crlf) front.crlf d

theorem twin_start (t : Text) : Twin t (start t) (start t.crlf) := ⟨[], .refl _, .refl _⟩

theorem Twin.rest_eq (h : Twin t c d) : d.rest = c.rest.crlf := by
  obtain ⟨front, hc, hd⟩ := h
  have hsplit : t.crlf = front.crlf ++ d.rest := hd.rest_eq
  have ht : t = front ++ c.rest := hc.rest_eq
  rw [ht, Text.crlf_append] at hsplit
  exact (List.append_cancel_left hsplit).symm

theorem Twin.before_eq (h : Twin t c d) : d.before = c.before := by
  obtain ⟨front, hc, hd⟩ := h
  rw [hd.before_eq, hc.before_eq, Text.getLast?_crlf]
  rfl

theorem Twin.insideWord_eq (h : Twin t c d) : d.insideWord = c.insideWord := by
  rw [insideWord, insideWord, h.before_eq]

/-- Corresponding texts behind such places lead to such places. -/
theorem Twin.step (h : Twin t c d) (hc : Passes c w c') (hd : Passes d w.crlf d') :
    Twin t c' d' := by
  obtain ⟨front, hc₀, hd₀⟩ := h
  refine ⟨front ++ w, hc₀.trans hc, ?_⟩
  rw [Text.crlf_append]
  exact hd₀.trans hd

/-- The place behind some of the characters that follow. -/
theorem exists_passes (h : c.rest = w ++ v) : ∃ e, Passes c w e ∧ e.rest = v :=
  ⟨⟨c.offset + w.length, w.getLast?.or c.before, v⟩, ⟨h, rfl, rfl⟩, rfl⟩

theorem Twin.exists_passes (h : Twin t c d) (hc : Passes c w c') :
    ∃ d', Passes d w.crlf d' ∧ Twin t c' d' := by
  have hrest : d.rest = w.crlf ++ c'.rest.crlf := by
    rw [h.rest_eq, hc.rest_eq, Text.crlf_append]
  obtain ⟨d', hd, -⟩ := Cursor.exists_passes hrest
  exact ⟨d', hd, h.step hc hd⟩

/-- The other way round a text may not end inside a line end. -/
theorem Twin.exists_passes_of_crlf (h : Twin t c d) (hd : Passes d w d') (hw : '\n' ∉ w)
    (hlast : w.getLast? ≠ some '\r') : ∃ c', Passes c w c' ∧ Twin t c' d' := by
  obtain ⟨u, hu, -⟩ := Text.exists_of_crlf_eq_append hw hlast (h.rest_eq.symm.trans hd.rest_eq)
  obtain ⟨c', hc, -⟩ := Cursor.exists_passes hu
  rw [← Text.crlf_of_not_mem hw] at hd
  exact ⟨c', hc, h.step hc hd⟩

/-- What follows two such places: nothing, a line end, or the same character. -/
theorem Twin.cases_on {P : Prop} (h : Twin t c d) (hnil : c.rest = [] → d.rest = [] → P)
    (hend : ∀ u : Text, c.rest = '\n' :: u → d.rest = '\r' :: '\n' :: u.crlf → P)
    (hchar : ∀ (y : Char) (u : Text), y ≠ '\n' → c.rest = y :: u → d.rest = y :: u.crlf → P) :
    P := by
  have hrest := h.rest_eq
  cases hc : c.rest with
  | nil => exact hnil hc (by rw [hrest, hc, Text.crlf_nil])
  | cons y u =>
    by_cases hy : y = '\n'
    · subst hy
      exact hend u hc (by rw [hrest, hc, Text.crlf_lineEnd])
    · exact hchar y u hy hc (by rw [hrest, hc, Text.crlf_cons hy])

theorem literal_eq_some : c.literal w = some d ↔ Passes c w d := by
  constructor
  · exact passes_literal
  · intro h
    obtain ⟨hc, hd⟩ := Form.Passes.eq_mk h
    rw [hc, hd, Form.literal_append]

/-- A word that no line end is part of. -/
theorem Twin.literal (h : Twin t c d) (hw : w.all Text.isInline = true) :
    Option.Rel (Twin t) (c.literal w) (d.literal w) := by
  have hinline : ∀ y ∈ w, y ≠ '\n' ∧ y ≠ '\r' := by
    intro y hy
    simpa [Text.isInline] using List.all_eq_true.mp hw y hy
  have hmem : '\n' ∉ w := fun hy => (hinline _ hy).1 rfl
  have hlast : w.getLast? ≠ some '\r' := fun hy => (hinline _ (List.mem_of_getLast? hy)).2 rfl
  cases hc : c.literal w with
  | some c' =>
    obtain ⟨d', hd, htwin⟩ := h.exists_passes (literal_eq_some.mp hc)
    rw [Text.crlf_of_not_mem hmem] at hd
    rw [literal_eq_some.mpr hd]
    exact .some htwin
  | none =>
    cases hd : d.literal w with
    | none => exact .none
    | some d' =>
      obtain ⟨c', hc', -⟩ := h.exists_passes_of_crlf (literal_eq_some.mp hd) hmem hlast
      rw [literal_eq_some.mpr hc'] at hc
      cases hc

theorem Twin.char (h : Twin t c d) (hx : Text.isInline x = true) :
    Option.Rel (Twin t) (c.char x) (d.char x) := by
  have hchar : ∀ e : Cursor, e.literal [x] = e.char x := by
    intro e
    rw [Cursor.literal]
    cases e.char x <;> rfl
  rw [← hchar, ← hchar]
  exact h.literal (by simp [hx])

theorem Twin.word (h : Twin t c d) (hw : w.all Text.isInline = true) :
    Option.Rel (Twin t) (c.word w) (d.word w) := by
  rw [Cursor.word, Cursor.word, h.insideWord_eq]
  split
  · exact .none
  · exact h.literal hw

/-- A run is passed over up to where it ends. -/
theorem passes_skip_of_rest (h : c.rest = w ++ v) (hw : w.all p = true)
    (hv : v.head?.any p = false) : Passes c w (c.skip p) := by
  obtain ⟨u, hu, hall, hend⟩ := passes_skip p c
  have htake : ∀ a b : Text, a.all p = true → b.head?.any p = false →
      (a ++ b).takeWhile p = a := by
    intro a b ha hb
    rw [List.takeWhile_append_of_pos (List.all_eq_true.mp ha)]
    cases b with
    | nil => simp
    | cons y b =>
      have hy : ¬ p y = true := by simpa using hb
      rw [List.takeWhile_cons_of_neg hy, List.append_nil]
  have heq : u = w := by
    rw [← htake u _ hall hend, ← hu.rest_eq, h, htake w v hw hv]
  exact heq ▸ hu

/-- A run that takes both characters of a line end, or neither. -/
theorem Twin.skip (h : Twin t c d) (hp : p '\r' = p '\n') : Twin t (c.skip p) (d.skip p) := by
  obtain ⟨w, hw, hall, hend⟩ := passes_skip p c
  refine h.step hw (passes_skip_of_rest (v := (c.skip p).rest.crlf) ?_ ?_ ?_)
  · rw [h.rest_eq, hw.rest_eq, Text.crlf_append]
  · rw [Text.all_crlf hp, hall]
  · rw [Text.any_head?_crlf hp, hend]

theorem Twin.skip1 (h : Twin t c d) (hp : p '\r' = p '\n') :
    Option.Rel (Twin t) (c.skip1 p) (d.skip1 p) := by
  have hskip := h.skip hp
  unfold Cursor.skip1
  refine h.cases_on ?_ ?_ ?_
  · intro hc hd
    rw [hc, hd]
    exact .none
  · intro u hc hd
    rw [hc, hd]
    dsimp only
    rw [hp]
    split
    · exact .some hskip
    · exact .none
  · intro y u _ hc hd
    rw [hc, hd]
    dsimp only
    split
    · exact .some hskip
    · exact .none

theorem Twin.blanks (h : Twin t c d) : Twin t c.blanks d.blanks := h.skip rfl

theorem Twin.blanks1 (h : Twin t c d) : Option.Rel (Twin t) c.blanks1 d.blanks1 := h.skip1 rfl

theorem Twin.name (h : Twin t c d) : Option.Rel (Twin t) c.name d.name := h.skip1 (by decide)

/-- A quoted text at two such places. -/
structure TwinQuoted (t : Text) (q r : Quoted) : Prop where
  text : r.text = q.text
  inside : Twin t q.inside r.inside
  stop : Twin t q.stop r.stop

theorem quoted_eq_some_of_passes {q : Char} (hq : isQuote q = true) (hw : w.IsQuotable)
    (hopen : Passes c [q] d) (hclose : Passes d (w ++ [q]) e) : c.quoted = some ⟨d, w, q, e⟩ := by
  obtain ⟨hc, hd⟩ := Form.Passes.eq_mk hopen
  obtain ⟨-, he⟩ := Form.Passes.eq_mk hclose
  have hrest : d.rest = w ++ q :: e.rest := by simp [hclose.rest_eq]
  have hlast : (w ++ [q]).getLast?.or d.before = some q := by simp
  rw [hc, hrest, List.singleton_append, quoted_enclosed hq hw, Option.some.injEq, Quoted.mk.injEq]
  refine ⟨?_, rfl, rfl, ?_⟩
  · rw [hd, hrest]
    rfl
  · rw [he, hlast, hd, List.length_append]
    simp only [List.length_singleton, Nat.add_assoc]

/-- A quoted text stands on one line. -/
theorem Twin.quoted (h : Twin t c d) : Option.Rel (TwinQuoted t) c.quoted d.quoted := by
  have hinline : ∀ {q : Char} {s : Text}, isQuote q = true → s.all isQuotable = true →
      '\n' ∉ s ++ [q] ∧ (s ++ [q]).getLast? ≠ some '\r' := by
    intro q s hq hs
    have hne : q ≠ '\n' ∧ q ≠ '\r' := by
      constructor
      · rintro rfl
        cases hq
      · rintro rfl
        cases hq
    have hmem : '\n' ∉ s := by
      intro hmem
      have hend := List.all_eq_true.mp hs _ hmem
      revert hend
      decide
    simp [hne.1.symm, hne.2, hmem]
  cases hc : c.quoted with
  | some q =>
    obtain ⟨hq, hne, hall, hopen, hclose⟩ := quoted_eq_some hc
    have hquote : '\n' ∉ [q.quote] := (hinline (s := []) hq rfl).1
    have htext := (hinline hq hall).1
    obtain ⟨d', hd, htwin⟩ := h.exists_passes hopen
    obtain ⟨e', he, htwin'⟩ := htwin.exists_passes hclose
    rw [Text.crlf_of_not_mem hquote] at hd
    rw [Text.crlf_of_not_mem htext] at he
    rw [quoted_eq_some_of_passes hq ⟨hne, hall⟩ hd he]
    exact .some ⟨rfl, htwin, htwin'⟩
  | none =>
    cases hd : d.quoted with
    | none => exact .none
    | some q =>
      obtain ⟨hq, hne, hall, hopen, hclose⟩ := quoted_eq_some hd
      obtain ⟨hquote, hquote'⟩ := hinline (s := []) hq rfl
      obtain ⟨htext, htext'⟩ := hinline hq hall
      obtain ⟨c', hc', htwin⟩ := h.exists_passes_of_crlf hopen hquote hquote'
      obtain ⟨e', he, -⟩ := htwin.exists_passes_of_crlf hclose htext htext'
      rw [quoted_eq_some_of_passes hq ⟨hne, hall⟩ hc' he] at hc
      cases hc

/-- What is passed over from one place to a later one, both seen from the same beginning. -/
theorem Passes.of_append (h : Passes c w d) (h' : Passes c (w ++ v) e) : Passes d v e where
  rest_eq := by
    have hrest := h.rest_eq.symm.trans h'.rest_eq
    rw [List.append_assoc] at hrest
    exact List.append_cancel_left hrest
  offset_eq := by
    rw [h.offset_eq, h'.offset_eq, List.length_append, Nat.add_assoc]
  before_eq := by rw [h'.before_eq, h.before_eq, getLast?_or_append]

/-- Of two such pairs of places the one lies behind the other, with corresponding texts between. -/
theorem Twin.passes_or (h : Twin t c d) (h' : Twin t c' d') :
    (∃ w, Passes c w c' ∧ Passes d w.crlf d') ∨ ∃ w, Passes c' w c ∧ Passes d' w.crlf d := by
  obtain ⟨front, hc, hd⟩ := h
  obtain ⟨front', hc', hd'⟩ := h'
  have hpre : front <+: t := ⟨c.rest, hc.rest_eq.symm⟩
  have hpre' : front' <+: t := ⟨c'.rest, hc'.rest_eq.symm⟩
  rcases List.prefix_or_prefix_of_prefix hpre hpre' with ⟨w, rfl⟩ | ⟨w, rfl⟩
  · rw [Text.crlf_append] at hd'
    exact Or.inl ⟨w, hc.of_append hc', hd.of_append hd'⟩
  · rw [Text.crlf_append] at hd
    exact Or.inr ⟨w, hc'.of_append hc, hd'.of_append hd⟩

/-- Such places come in the same order. -/
theorem Twin.offset_le_iff (h : Twin t c d) (h' : Twin t c' d') :
    c.offset ≤ c'.offset ↔ d.offset ≤ d'.offset := by
  rcases h.passes_or h' with ⟨w, hc, hd⟩ | ⟨w, hc, hd⟩
  · rw [hc.offset_eq, hd.offset_eq]
    simp
  · have hlen : w.length = 0 ↔ w.crlf.length = 0 := by
      rw [List.length_eq_zero_iff, List.length_eq_zero_iff]
      exact ⟨fun hw => by rw [hw, Text.crlf_nil], Text.eq_nil_of_crlf⟩
    rw [hc.offset_eq, hd.offset_eq]
    omega

theorem upTo_of_le (h : d.offset ≤ c.offset) : c.upTo d = [] := by
  simp [Cursor.upTo, Nat.sub_eq_zero_of_le h]

theorem Twin.upTo (h : Twin t c d) (h' : Twin t c' d') : d.upTo d' = (c.upTo c').crlf := by
  rcases h.passes_or h' with ⟨w, hc, hd⟩ | ⟨w, hc, hd⟩
  · rw [hc.upTo_eq, hd.upTo_eq]
  · have hle : c'.offset ≤ c.offset := by
      rw [hc.offset_eq]
      exact Nat.le_add_right _ _
    rw [upTo_of_le hle, upTo_of_le ((h'.offset_le_iff h).mp hle), Text.crlf_nil]

section Search

variable {α : Type} {recognise : Cursor → Option α} {stop : α → Cursor}

/-- At a line end a recogniser does not begin with the second character only, and what it finds
goes beyond both. -/
structure TakesLineEnds (recognise : Cursor → Option α) (stop : α → Cursor) : Prop where
  none_inside : ∀ offset before w, recognise ⟨offset, before, '\r' :: '\n' :: w⟩ = none →
    recognise ⟨offset + 1, some '\r', '\n' :: w⟩ = none
  le_stop : ∀ offset before w a, recognise ⟨offset, before, '\r' :: '\n' :: w⟩ = some a →
    offset + 2 ≤ (stop a).offset

/-- One step of a search over a line end. -/
theorem findFrom_lineEnd (hends : TakesLineEnds recognise stop) {resume offset : Nat}
    (hr : resume ≤ offset) (before : Option Char) (v : Text) :
    findFrom recognise (fun a => (stop a).offset) resume offset before ('\r' :: '\n' :: v) =
      match recognise ⟨offset, before, '\r' :: '\n' :: v⟩ with
      | none =>
        findFrom recognise (fun a => (stop a).offset) resume (offset + 2) (some '\n') v
      | some a =>
        a :: findFrom recognise (fun a => (stop a).offset) (stop a).offset (offset + 2)
          (some '\n') v := by
  rw [findFrom, if_neg (by omega)]
  cases ha : recognise ⟨offset, before, '\r' :: '\n' :: v⟩ with
  | none =>
    dsimp only
    rw [findFrom, if_neg (by omega), hends.none_inside _ _ _ ha]
  | some a =>
    have hstop := hends.le_stop _ _ _ _ ha
    dsimp only
    rw [findFrom, if_pos (by omega)]

/-- The finds from two such places on. -/
theorem forall₂_findFrom_crlf {r : α → α → Prop} (hends : TakesLineEnds recognise stop)
    (hstep : ∀ c d, Twin t c d → Option.Rel r (recognise c) (recognise d))
    (hstop : ∀ a b, r a b → Twin t (stop a) (stop b)) (h : Twin t c d) (he : Twin t c' d') :
    List.Forall₂ r
      (findFrom recognise (fun a => (stop a).offset) c.offset c'.offset c'.before c'.rest)
      (findFrom recognise (fun a => (stop a).offset) d.offset d'.offset d'.before d'.rest) := by
  generalize hn : c'.rest.length = n
  induction n generalizing c d c' d' with
  | zero =>
    have hc : c'.rest = [] := List.length_eq_zero_iff.mp hn
    have hd : d'.rest = [] := by rw [he.rest_eq, hc, Text.crlf_nil]
    rw [hc, hd]
    exact .nil
  | succ n ih =>
    have hrel := hstep _ _ he
    obtain ⟨m, before, rest⟩ := c'
    obtain ⟨m', before', rest'⟩ := d'
    have hbehind : c.offset ≤ m ↔ d.offset ≤ m' := h.offset_le_iff he
    refine he.cases_on ?_ ?_ ?_
    · rintro rfl -
      cases hn
    · rintro u rfl rfl
      have hnext : Twin t ⟨m + 1, some '\n', u⟩ ⟨m' + 2, some '\n', u.crlf⟩ :=
        he.step (w := ['\n']) ⟨rfl, rfl, rfl⟩ ⟨rfl, rfl, rfl⟩
      have hlen : u.length = n := by simpa using hn
      dsimp only
      by_cases hresume : c.offset ≤ m
      · have hresume' := hbehind.mp hresume
        rw [findFrom, if_neg (by omega), findFrom_lineEnd hends hresume']
        generalize recognise ⟨m, before, '\n' :: u⟩ = a at hrel
        generalize recognise ⟨m', before', '\r' :: '\n' :: u.crlf⟩ = b at hrel
        cases hrel with
        | none => exact ih h hnext hlen
        | some hab => exact .cons hab (ih (hstop _ _ hab) hnext hlen)
      · -- the search has not yet come to the place where it resumes
        have hlater : m + 1 ≤ c.offset ↔ m' + 2 ≤ d.offset := hnext.offset_le_iff h
        have hle : m' + 2 ≤ d.offset := hlater.mp (by omega)
        have hskip : findFrom recognise (fun a => (stop a).offset) d.offset m' before'
            ('\r' :: '\n' :: u.crlf) =
            findFrom recognise (fun a => (stop a).offset) d.offset (m' + 2) (some '\n') u.crlf :=
          findFrom_resume (w := ['\r', '\n']) hle before'
        rw [findFrom, if_pos (by omega), hskip]
        exact ih h hnext hlen
    · rintro y u hy rfl rfl
      have hsame : Text.crlf [y] = [y] := Text.crlf_cons hy []
      have hnext : Twin t ⟨m + 1, some y, u⟩ ⟨m' + 1, some y, u.crlf⟩ :=
        he.step (w := [y]) ⟨rfl, rfl, rfl⟩ (by rw [hsame]; exact ⟨rfl, rfl, rfl⟩)
      have hlen : u.length = n := by simpa using hn
      dsimp only
      rw [findFrom, findFrom]
      by_cases hresume : c.offset ≤ m
      · have hresume' := hbehind.mp hresume
        rw [if_neg (by omega), if_neg (by omega)]
        generalize recognise ⟨m, before, y :: u⟩ = a at hrel
        generalize recognise ⟨m', before', y :: u.crlf⟩ = b at hrel
        cases hrel with
        | none => exact ih h hnext hlen
        | some hab => exact .cons hab (ih (hstop _ _ hab) hnext hlen)
      · have hresume' := mt hbehind.mpr hresume
        rw [if_pos (by omega), if_pos (by omega)]
        exact ih h hnext hlen

/-- What is found in a text is found in the text with carriage returns. -/
theorem forall₂_findAll_crlf {r : α → α → Prop} (hends : TakesLineEnds recognise stop)
    (hstep : ∀ c d, Twin t c d → Option.Rel r (recognise c) (recognise d))
    (hstop : ∀ a b, r a b → Twin t (stop a) (stop b)) :
    List.Forall₂ r (findAll recognise (fun a => (stop a).offset) t)
      (findAll recognise (fun a => (stop a).offset) t.crlf) :=
  forall₂_findFrom_crlf hends hstep hstop (twin_start t) (twin_start t)

end Search

end Cursor
end ModuleGraph
