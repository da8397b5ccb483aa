import ModuleGraph.Proofs.Source.Stretch
import ModuleGraph.Source.Statement
import Mathlib.Data.List.Forall2

/-!
Recognisers at the same place of two texts that are cut into the same stretches.

* `Beside`, `Level`: the two places stand between the same stretches; at level places no respelled
  specifier follows;
* `skip_placeAt`, `skip_placeAt_through`: a run ends on both sides before the same stretch;
* `Level.char`, `Level.skip`, `Level.word`, `Level.quoted`: a step succeeds on both sides or on
  neither, and leads to such places again.
-/

namespace ModuleGraph

open Cursor

namespace Statement

/-- The words by which the statements that are recognised begin. -/
def openingWords : List Text := importWord :: requireWord :: exportWord :: variableWords

end Statement

/-- A specifier that reads as a specifier wherever it stands between quotes: it ends no list and
no bracket that was opened before it, nothing is trimmed off it, and no statement begins in it. -/
structure Inert (s : Text) : Prop where
  no_comma : ',' ∉ s
  no_brace : '}' ∉ s
  no_bracket : s.head? ≠ some ')'
  no_blank_first : s.head?.any Text.isBlank = false
  no_blank_last : s.getLast?.any Text.isBlank = false
  no_statement : ∀ w ∈ Statement.openingWords, ∀ front x back, s = front ++ w ++ x :: back →
    Text.isBlank x = false ∧ x ≠ '('

/-- Such a specifier that can stand between quotes. -/
structure Sealed (s : Text) : Prop extends Inert s where
  quotable : s.IsQuotable

namespace Stretch

variable {R : Text → Text → Prop} {ps done todo : List Stretch} {c d : Cursor} {x : Char}
  {p : Char → Bool} {w : Text}

/-- The place between some stretches and the others, on one side. -/
def placeAt (side : Stretch → Text) (done todo : List Stretch) : Cursor :=
  ⟨(spell side done).length, (spell side done).getLast?, spell side todo⟩

/-- Does a respelled specifier come first? -/
def Clear (todo : List Stretch) : Prop := ∀ s t todo', todo ≠ respelled s t :: todo'

theorem clear_nil : Clear [] := by
  intro s t todo' h
  cases h

theorem clear_kept (x : Char) (todo : List Stretch) : Clear (kept x :: todo) := by
  intro s t todo' h
  cases h

/-- After a character that is no quote no respelled specifier follows. -/
theorem Placed.clear (hp : Placed R none ps) (hps : ps = done ++ Stretch.kept x :: todo)
    (hx : isQuote x = false) : Clear todo := by
  rintro s t todo' rfl
  have hsplit : ps = (done ++ [Stretch.kept x]) ++ Stretch.respelled s t :: todo' := by
    simp [hps]
  obtain ⟨_, q, _, hq, _, ⟨hdone, _⟩ | ⟨done', hdone⟩⟩ := hp.split hsplit
  · simp at hdone
  · obtain ⟨_, hlast⟩ := List.append_inj' hdone rfl
    cases hlast
    rw [hx] at hq
    cases hq

section Side

variable {side : Stretch → Text} (hside : ∀ x, side (kept x) = [x])

include hside

theorem placeAt_kept (done todo : List Stretch) (x : Char) :
    placeAt side done (kept x :: todo) =
      ⟨(spell side done).length, (spell side done).getLast?, x :: spell side todo⟩ := by
  rw [placeAt, spell_cons, hside]
  rfl

theorem placeAt_append_kept (done todo : List Stretch) (x : Char) :
    placeAt side (done ++ [kept x]) todo =
      ⟨(spell side done).length + 1, some x, spell side todo⟩ := by
  rw [placeAt, spell_append, spell_cons, hside]
  simp

theorem char_placeAt_kept (done todo : List Stretch) (x y : Char) :
    (placeAt side done (kept y :: todo)).char x =
      if y = x then some (placeAt side (done ++ [kept y]) todo) else none := by
  rw [placeAt_kept hside, placeAt_append_kept hside]
  rfl

theorem next_placeAt_kept (done todo : List Stretch) (y : Char) :
    (placeAt side done (kept y :: todo)).next = placeAt side (done ++ [kept y]) todo := by
  rw [placeAt_kept hside, placeAt_append_kept hside]
  rfl

theorem skip1_placeAt_kept (done todo : List Stretch) (y : Char) :
    (placeAt side done (kept y :: todo)).skip1 p =
      if p y then some ((placeAt side done (kept y :: todo)).skip p) else none := by
  rw [placeAt_kept hside]
  rfl

theorem skip_placeAt_kept (done todo : List Stretch) {y : Char} (hy : p y = true) :
    (placeAt side done (kept y :: todo)).skip p =
      (placeAt side (done ++ [kept y]) todo).skip p := by
  have h := skip_all_append (p := p) (w := [y]) (by simp [hy]) (spell side done).length
    (spell side done).getLast? (spell side todo)
  rw [placeAt_kept hside, placeAt_append_kept hside]
  exact h

theorem skip_placeAt_of_not (done todo : List Stretch) {y : Char} (hy : p y = false) :
    (placeAt side done (kept y :: todo)).skip p = placeAt side done (kept y :: todo) := by
  rw [placeAt_kept hside]
  exact skip_of_not hy _ _ _

end Side

/-- A run goes on through a specifier of its characters. -/
theorem skip_placeAt_all (side : Stretch → Text) (done todo : List Stretch) {m : Stretch}
    (hm : (side m).all p = true) :
    (placeAt side done (m :: todo)).skip p = (placeAt side (done ++ [m]) todo).skip p := by
  have h := skip_all_append hm (spell side done).length (spell side done).getLast?
    (spell side todo)
  have happ : spell side (done ++ [m]) = spell side done ++ side m := by
    rw [spell_append, spell_cons, spell_nil, List.append_nil]
  rw [placeAt, placeAt, spell_cons, h, happ, List.length_append, List.getLast?_append]

/-- The text between two places. -/
theorem upTo_placeAt (side : Stretch → Text) (done mid todo : List Stretch) :
    (placeAt side done (mid ++ todo)).upTo (placeAt side (done ++ mid) todo) =
      spell side mid := by
  rw [upTo, placeAt, placeAt]
  dsimp only
  rw [spell_append, spell_append, List.length_append, Nat.add_sub_cancel_left, List.take_left]

theorem quoted_placeAt {side : Stretch → Text} (hside : ∀ x, side (kept x) = [x])
    {mid : List Stretch} {y : Char} (hy : isQuote y = true)
    (hskip : (placeAt side (done ++ [kept y]) (mid ++ todo)).skip isQuotable =
      placeAt side (done ++ [kept y] ++ mid) todo) :
    (placeAt side done (kept y :: (mid ++ todo))).quoted =
      if spell side mid = [] then none
      else ((placeAt side (done ++ [kept y] ++ mid) todo).char y).map fun stop =>
        ⟨placeAt side (done ++ [kept y]) (mid ++ todo), spell side mid, y, stop⟩ := by
  have hempty : (placeAt side (done ++ [kept y] ++ mid) todo).offset =
      (placeAt side (done ++ [kept y]) (mid ++ todo)).offset ↔ spell side mid = [] := by
    rw [placeAt, placeAt, ← List.length_eq_zero_iff]
    dsimp only
    rw [spell_append side (done ++ [kept y]) mid, List.length_append]
    omega
  have hquoted : (placeAt side done (kept y :: (mid ++ todo))).quoted =
      if isQuote y then
        let inside := (placeAt side done (kept y :: (mid ++ todo))).next
        let close := inside.skip isQuotable
        if close.offset = inside.offset then none
        else (close.char y).map fun stop => ⟨inside, inside.upTo close, y, stop⟩
      else none := by
    rw [placeAt_kept hside]
    rfl
  rw [hquoted, if_pos hy, next_placeAt_kept hside]
  dsimp only
  rw [hskip, upTo_placeAt]
  simp only [hempty]

theorem skip_placeAt_nil (side : Stretch → Text) (done : List Stretch) :
    (placeAt side done []).skip p = placeAt side done [] := rfl

/-- A run of characters that are no quotes ends, on both sides, before the same stretch. -/
theorem skip_placeAt (hp : Placed R none ps) (hps : ps = done ++ todo) (hclear : Clear todo)
    (hquote : ∀ q, isQuote q = true → p q = false) :
    ∃ (w : Text) (todo' : List Stretch), todo = w.map kept ++ todo' ∧ w.all p = true ∧ Clear todo' ∧
      (∀ side, (∀ x, side (kept x) = [x]) → (placeAt side done todo).skip p =
        placeAt side (done ++ w.map kept) todo') := by
  induction todo generalizing done with
  | nil =>
    refine ⟨[], [], rfl, rfl, clear_nil, fun side _ => ?_⟩
    rw [skip_placeAt_nil, List.map_nil, List.append_nil]
  | cons m todo ih =>
    cases m with
    | respelled s t => exact (hclear s t todo rfl).elim
    | kept y =>
      by_cases hy : p y = true
      · have hyq : isQuote y = false := by
          rw [← Bool.not_eq_true]
          intro h
          rw [hquote y h] at hy
          cases hy
        have hps' : ps = (done ++ [kept y]) ++ todo := by rw [hps, List.append_assoc]; rfl
        obtain ⟨w, todo', rfl, hw, hclear', hskip⟩ := ih hps' (hp.clear hps hyq)
        refine ⟨y :: w, todo', rfl, by rw [List.all_cons, hy, hw]; rfl, hclear',
          fun side hside => ?_⟩
        rw [skip_placeAt_kept hside _ _ hy, hskip side hside, List.append_assoc]
        rfl
      · rw [Bool.not_eq_true] at hy
        refine ⟨[], kept y :: todo, rfl, rfl, hclear, fun side hside => ?_⟩
        rw [skip_placeAt_of_not hside _ _ hy, List.map_nil, List.append_nil]

/-- A run that goes on through respelled specifiers ends, on both sides, before the same
character. -/
theorem skip_placeAt_through (hp : ∀ s t, respelled s t ∈ todo → s.all p = true ∧ t.all p = true)
    (done : List Stretch) :
    ∃ mid todo', todo = mid ++ todo' ∧ Clear todo' ∧
      (placeAt old done todo).skip p = placeAt old (done ++ mid) todo' ∧
      (placeAt new done todo).skip p = placeAt new (done ++ mid) todo' := by
  induction todo generalizing done with
  | nil =>
    refine ⟨[], [], rfl, clear_nil, ?_, ?_⟩
    · rw [List.append_nil]
      rfl
    · rw [List.append_nil]
      rfl
  | cons m todo ih =>
    have ih := ih (fun s t h => hp s t (List.mem_cons_of_mem _ h)) (done ++ [m])
    obtain ⟨mid, todo', rfl, hclear, hold, hnew⟩ := ih
    rw [List.append_assoc] at hold hnew
    cases m with
    | respelled s t =>
      obtain ⟨hs, ht⟩ := hp s t List.mem_cons_self
      refine ⟨respelled s t :: mid, todo', rfl, hclear, ?_, ?_⟩
      · exact (skip_placeAt_all (m := respelled s t) old done _ hs).trans hold
      · exact (skip_placeAt_all (m := respelled s t) new done _ ht).trans hnew
    | kept y =>
      by_cases hy : p y = true
      · refine ⟨kept y :: mid, todo', rfl, hclear, ?_, ?_⟩
        · rw [skip_placeAt_kept (fun _ => rfl) _ _ hy, hold]
          rfl
        · rw [skip_placeAt_kept (fun _ => rfl) _ _ hy, hnew]
          rfl
      · rw [Bool.not_eq_true] at hy
        refine ⟨[], _, rfl, clear_kept _ _, ?_, ?_⟩
        · rw [skip_placeAt_of_not (fun _ => rfl) _ _ hy, List.append_nil]
        · rw [skip_placeAt_of_not (fun _ => rfl) _ _ hy, List.append_nil]

theorem rel_bind {α β γ δ : Type} {r : α → β → Prop} {s : γ → δ → Prop} {a : Option α}
    {b : Option β} {f : α → Option γ} {g : β → Option δ} (h : Option.Rel r a b)
    (hfg : ∀ x y, r x y → Option.Rel s (f x) (g y)) : Option.Rel s (a.bind f) (b.bind g) := by
  cases h with
  | none => exact .none
  | some h => exact hfg _ _ h

theorem rel_map {α β γ δ : Type} {r : α → β → Prop} {s : γ → δ → Prop} {a : Option α}
    {b : Option β} {f : α → γ} {g : β → δ} (h : Option.Rel r a b)
    (hfg : ∀ x y, r x y → s (f x) (g y)) : Option.Rel s (a.map f) (b.map g) := by
  cases h with
  | none => exact .none
  | some h => exact .some (hfg _ _ h)

theorem rel_orElse {α β : Type} {r : α → β → Prop} {a a' : Option α} {b b' : Option β}
    (h : Option.Rel r a b) (h' : Option.Rel r a' b') :
    Option.Rel r (a.orElse fun _ => a') (b.orElse fun _ => b') := by
  cases h with
  | none => exact h'
  | some h => exact .some h

theorem rel_findSome? {α β γ δ : Type} {r : α → β → Prop} {f : γ → Option α} {g : δ → Option β}
    {xs : List γ} {ys : List δ} (h : List.Forall₂ (fun x y => Option.Rel r (f x) (g y)) xs ys) :
    Option.Rel r (xs.findSome? f) (ys.findSome? g) := by
  induction h with
  | nil => exact .none
  | @cons x y xs ys hxy _ ih =>
    rw [List.findSome?_cons, List.findSome?_cons]
    generalize f x = a at hxy
    generalize g y = b at hxy
    cases hxy with
    | none => exact ih
    | some h => exact .some h

theorem not_isBlank_of_isQuote {q : Char} (h : isQuote q = true) : Text.isBlank q = false := by
  rw [← Bool.not_eq_true]
  intro hb
  rw [Form.not_isQuote_of_isBlank hb] at h
  cases h

theorem not_isName_of_isQuote {q : Char} (h : isQuote q = true) : Text.isName q = false := by
  simp only [isQuote, Bool.or_eq_true, beq_iff_eq] at h
  rcases h with rfl | rfl <;> decide

theorem literal_of_head {q y : Char} {v : Text} (hq : isQuote q = true) (hy : isQuote y = false)
    (hc : c.rest = q :: v) (w : Text) : c.literal (y :: w) = none := by
  have hne : q ≠ y := by
    rintro rfl
    rw [hq] at hy
    cases hy
  rw [Cursor.literal, Cursor.char, hc]
  simp [hne]

/-- Two places that stand between the same stretches. -/
def Beside (ps : List Stretch) (c d : Cursor) : Prop :=
  ∃ done todo, ps = done ++ todo ∧ c = placeAt old done todo ∧ d = placeAt new done todo

/-- Two such places that no respelled specifier follows. -/
def Level (ps : List Stretch) (c d : Cursor) : Prop :=
  ∃ done todo, ps = done ++ todo ∧ Clear todo ∧ c = placeAt old done todo ∧
    d = placeAt new done todo

/-- Two quoted texts at such places, the same or one respelled. -/
structure Alike (R : Text → Text → Prop) (ps : List Stretch) (q r : Quoted) : Prop where
  text : r.text = q.text ∨ R q.text r.text
  inside : Beside ps q.inside r.inside
  stop : Beside ps q.stop r.stop

theorem Level.beside (h : Level ps c d) : Beside ps c d := by
  obtain ⟨done, todo, hps, _, hc, hd⟩ := h
  exact ⟨done, todo, hps, hc, hd⟩

/-- What follows two places: nothing, or the same character. -/
theorem Level.cases_on {P : Prop} (h : Level ps c d)
    (hnil : ∀ done, ps = done → c = placeAt old done [] → d = placeAt new done [] → P)
    (hkept : ∀ done x todo, ps = done ++ kept x :: todo → c = placeAt old done (kept x :: todo) →
      d = placeAt new done (kept x :: todo) → P) : P := by
  obtain ⟨done, todo, hps, hclear, hc, hd⟩ := h
  match todo with
  | [] => exact hnil done (by rw [hps, List.append_nil]) hc hd
  | kept x :: todo => exact hkept done x todo hps hc hd
  | respelled s t :: todo => exact (hclear s t todo rfl).elim

/-- One character, be it a quote or not. -/
theorem Level.char_beside (h : Level ps c d) (x : Char) :
    Option.Rel (Beside ps) (c.char x) (d.char x) := by
  refine h.cases_on ?_ ?_
  · rintro done - rfl rfl
    exact .none
  · rintro done y todo hps rfl rfl
    rw [char_placeAt_kept (fun _ => rfl), char_placeAt_kept (fun _ => rfl)]
    split
    · exact .some ⟨done ++ [kept y], todo, by rw [hps, List.append_assoc]; rfl, rfl, rfl⟩
    · exact .none

section Steps

variable (hp : Placed R none ps)

include hp

theorem Level.char (h : Level ps c d) (hx : isQuote x = false) :
    Option.Rel (Level ps) (c.char x) (d.char x) := by
  refine h.cases_on ?_ ?_
  · rintro done - rfl rfl
    exact .none
  · rintro done y todo hps rfl rfl
    rw [char_placeAt_kept (fun _ => rfl), char_placeAt_kept (fun _ => rfl)]
    split
    · rename_i hy
      exact .some ⟨done ++ [kept y], todo, by rw [hps, List.append_assoc]; rfl,
        hp.clear hps (hy ▸ hx), rfl, rfl⟩
    · exact .none

theorem Level.literal (h : Level ps c d) (hw : w.IsUnquoted) :
    Option.Rel (Level ps) (c.literal w) (d.literal w) := by
  induction w generalizing c d with
  | nil => exact .some h
  | cons x w ih =>
    exact rel_bind (h.char hp (hw x List.mem_cons_self)) fun c' d' h' =>
      ih h' fun y hy => hw y (List.mem_cons_of_mem _ hy)

/-- A run of characters that are no quotes. -/
theorem Level.skip (h : Level ps c d) (hquote : ∀ q, isQuote q = true → p q = false) :
    Level ps (c.skip p) (d.skip p) := by
  obtain ⟨done, todo, hps, hclear, rfl, rfl⟩ := h
  obtain ⟨w, todo', rfl, -, hclear', hskip⟩ := skip_placeAt hp hps hclear hquote
  rw [hskip old fun _ => rfl, hskip new fun _ => rfl]
  exact ⟨_, _, by rw [hps, List.append_assoc], hclear', rfl, rfl⟩

theorem Level.skip1 (h : Level ps c d) (hquote : ∀ q, isQuote q = true → p q = false) :
    Option.Rel (Level ps) (c.skip1 p) (d.skip1 p) := by
  have hskip := h.skip hp hquote
  revert hskip
  refine h.cases_on ?_ ?_
  · rintro done - rfl rfl -
    exact .none
  · rintro done y todo - rfl rfl hskip
    rw [skip1_placeAt_kept fun _ => rfl, skip1_placeAt_kept fun _ => rfl]
    split
    · exact .some hskip
    · exact .none

theorem Level.blanks (h : Level ps c d) : Level ps c.blanks d.blanks :=
  h.skip hp fun _ => not_isBlank_of_isQuote

theorem Level.blanks1 (h : Level ps c d) : Option.Rel (Level ps) c.blanks1 d.blanks1 :=
  h.skip1 hp fun _ => not_isBlank_of_isQuote

theorem Level.name (h : Level ps c d) : Option.Rel (Level ps) c.name d.name :=
  h.skip1 hp fun _ => not_isName_of_isQuote

/-- The characters before two such places are the same, but behind a respelled specifier. -/
theorem Level.before_eq (h : Level ps c d) : c.before = d.before ∨
    ∃ q v w, isQuote q = true ∧ c.rest = q :: v ∧ d.rest = q :: w := by
  obtain ⟨done, todo, hps, -, rfl, rfl⟩ := h
  rcases List.eq_nil_or_concat done with rfl | ⟨done', m, rfl⟩
  · exact Or.inl rfl
  · cases m with
    | kept x =>
      left
      rw [List.concat_eq_append, placeAt_append_kept fun _ => rfl, placeAt_append_kept fun _ => rfl]
    | respelled s t =>
      right
      rw [List.concat_eq_append, List.append_assoc] at hps
      obtain ⟨-, q, todo', hq, rfl, -⟩ := hp.split hps
      exact ⟨q, spell old todo', spell new todo', hq, rfl, rfl⟩

/-- What is not recognised inside a word, nor at a quote. -/
theorem Level.unless_insideWord (h : Level ps c d) {α β : Type} {r : α → β → Prop} {a : Option α}
    {b : Option β} (hab : Option.Rel r a b)
    (hquote : ∀ q v w, isQuote q = true → c.rest = q :: v → d.rest = q :: w →
      a = none ∧ b = none) :
    Option.Rel r (if c.insideWord then none else a) (if d.insideWord then none else b) := by
  rcases h.before_eq hp with hbefore | ⟨q, v, w, hq, hc, hd⟩
  · rw [insideWord, insideWord, hbefore]
    split
    · exact .none
    · exact hab
  · obtain ⟨rfl, rfl⟩ := hquote q v w hq hc hd
    rw [ite_self, ite_self]
    exact .none

theorem Level.word (h : Level ps c d) {y : Char} (hw : Text.IsUnquoted (y :: w)) :
    Option.Rel (Level ps) (c.word (y :: w)) (d.word (y :: w)) := by
  refine h.unless_insideWord hp (h.literal hp hw) fun q u v hq hc hd => ?_
  have hy := hw y List.mem_cons_self
  exact ⟨literal_of_head hq hy hc w, literal_of_head hq hy hd w⟩

/-- What follows a quote up to the next one: kept characters, or one respelled specifier. -/
theorem skip_isQuotable (hR : ∀ s t, R s t → s.IsQuotable ∧ t.IsQuotable) {y : Char}
    (hps : ps = done ++ kept y :: todo) :
    ∃ mid todo', todo = mid ++ todo' ∧ Clear todo' ∧
      (placeAt old (done ++ [kept y]) todo).skip isQuotable =
        placeAt old (done ++ [kept y] ++ mid) todo' ∧
      (placeAt new (done ++ [kept y]) todo).skip isQuotable =
        placeAt new (done ++ [kept y] ++ mid) todo' ∧
      (spell new mid = spell old mid ∨ spell old mid ≠ [] ∧ spell new mid ≠ [] ∧
        R (spell old mid) (spell new mid)) := by
  have hps : ps = (done ++ [kept y]) ++ todo := by rw [hps, List.append_assoc]; rfl
  by_cases hclear : Clear todo
  · obtain ⟨w, todo', rfl, -, hclear', hskip⟩ := skip_placeAt hp hps hclear
      fun _ => not_isQuotable_of_isQuote
    refine ⟨w.map kept, todo', rfl, hclear', hskip old fun _ => rfl, hskip new fun _ => rfl,
      Or.inl ?_⟩
    rw [spell_map_kept_old, spell_map_kept_new]
  · simp only [Clear, not_forall, not_not] at hclear
    obtain ⟨s, t, todo', rfl⟩ := hclear
    obtain ⟨hst, q, todo'', hq, rfl, -⟩ := hp.split hps
    obtain ⟨hs, ht⟩ := hR s t hst
    have hq := not_isQuotable_of_isQuote hq
    refine ⟨[respelled s t], kept q :: todo'', rfl, clear_kept _ _, ?_, ?_, Or.inr ?_⟩
    · rw [skip_placeAt_all (m := respelled s t) old _ _ hs.all,
        skip_placeAt_of_not (fun _ => rfl) _ _ hq]
    · rw [skip_placeAt_all (m := respelled s t) new _ _ ht.all,
        skip_placeAt_of_not (fun _ => rfl) _ _ hq]
    · have hold : spell old [respelled s t] = s := List.append_nil s
      have hnew : spell new [respelled s t] = t := List.append_nil t
      rw [hold, hnew]
      exact ⟨hs.ne_nil, ht.ne_nil, hst⟩

/-- A quoted text: the same on both sides, or respelled. -/
theorem Level.quoted (h : Level ps c d) (hR : ∀ s t, R s t → s.IsQuotable ∧ t.IsQuotable) :
    Option.Rel (Alike R ps) c.quoted d.quoted := by
  refine h.cases_on ?_ ?_
  · rintro done - rfl rfl
    exact .none
  · rintro done y todo hps rfl rfl
    by_cases hy : isQuote y = true
    · obtain ⟨mid, todo', rfl, hclear, hold, hnew, htext⟩ := skip_isQuotable hp hR hps
      have hps' : ps = done ++ [kept y] ++ mid ++ todo' := by simp [hps]
      have hinside : Beside ps (placeAt old (done ++ [kept y]) (mid ++ todo'))
          (placeAt new (done ++ [kept y]) (mid ++ todo')) :=
        ⟨_, _, by rw [hps', List.append_assoc], rfl, rfl⟩
      have hclose : Level ps (placeAt old (done ++ [kept y] ++ mid) todo')
          (placeAt new (done ++ [kept y] ++ mid) todo') := ⟨_, _, hps', hclear, rfl, rfl⟩
      rw [quoted_placeAt (fun _ => rfl) hy hold, quoted_placeAt (fun _ => rfl) hy hnew]
      rcases htext with htext | ⟨hsold, hsnew, htext⟩
      · rw [htext]
        split
        · exact .none
        · exact rel_map (hclose.char_beside y) fun _ _ hstop => ⟨Or.inl rfl, hinside, hstop⟩
      · rw [if_neg hsold, if_neg hsnew]
        exact rel_map (hclose.char_beside y) fun _ _ hstop => ⟨Or.inr htext, hinside, hstop⟩
    · have hside : ∀ side : Stretch → Text, (∀ x, side (kept x) = [x]) →
          (placeAt side done (kept y :: todo)).quoted = none := by
        intro side hside
        rw [placeAt_kept hside]
        exact if_neg hy
      rw [hside old fun _ => rfl, hside new fun _ => rfl]
      exact .none

end Steps

end Stretch
end ModuleGraph
