import ModuleGraph.Proofs.Source.Items

/-!
The statement forms at level places of two texts.

* `Level.skip_brace`, `Level.runEnds`: the runs inside a form end at corresponding places;
* `Level.staticImport`, `Level.exportList` and the like: a form is recognised on both sides or on
  neither, with quoted texts that are alike.
-/

namespace ModuleGraph

open Cursor

namespace Stretch

variable {R : Text → Text → Prop} {ps : List Stretch} {c d : Cursor} {w : Text}

/-- Two imports as found, with quoted texts that are alike. -/
structure AlikeFound (R : Text → Text → Prop) (ps : List Stretch) (f g : Statement.Found) :
    Prop where
  quoted : Alike R ps f.quoted g.quoted
  stop : Beside ps f.stop g.stop

theorem rel_getD {α β : Type} {r : α → β → Prop} {a : Option α} {b : Option β} {x : α} {y : β}
    (h : Option.Rel r a b) (hxy : r x y) : r (a.getD x) (b.getD y) := by
  cases h with
  | none => exact hxy
  | some h => exact h

theorem isQuotable_of_sealed (hR : ∀ s t, R s t → Sealed s ∧ Sealed t) (s t : Text) (h : R s t) :
    s.IsQuotable ∧ t.IsQuotable :=
  ⟨(hR s t h).1.quotable, (hR s t h).2.quotable⟩

theorem isUnquoted_of_mem {ws : List Text} (hws : ∀ w ∈ ws, w.all (fun c => !isQuote c) = true)
    (hw : w ∈ ws) : w.IsUnquoted := Form.isUnquoted_word (hws w hw)

/-- No declaration of a variable begins with a quote. -/
theorem findSome?_wordGap_of_quote {q : Char} {v : Text} (hq : isQuote q = true)
    (hc : c.rest = q :: v) :
    (Statement.variableWords.findSome? fun w => Statement.wordGap w c) = none := by
  rw [List.findSome?_eq_none_iff]
  intro w hw
  have hne : w ≠ [] := by
    rintro rfl
    revert hw
    decide
  obtain ⟨y, w, rfl⟩ := List.exists_cons_of_ne_nil hne
  have hy : isQuote y = false := isUnquoted_of_mem (by decide) hw y List.mem_cons_self
  rw [Statement.wordGap, literal_of_head hq hy hc]
  rfl

theorem Level.head?_eq (h : Level ps c d) : c.rest.head? = d.rest.head? := by
  refine h.cases_on ?_ ?_
  · rintro done - rfl rfl
    rfl
  · rintro done x todo - rfl rfl
    rfl

section Forms

variable (hp : Placed R none ps)

include hp

theorem Level.wordGap (h : Level ps c d) (hw : w.IsUnquoted) :
    Option.Rel (Level ps) (Statement.wordGap w c) (Statement.wordGap w d) :=
  rel_bind (h.literal hp hw) fun _ _ h => h.blanks1 hp

theorem Level.maybeGap (h : Level ps c d) (hw : w.IsUnquoted) :
    Level ps (Statement.maybeGap w c) (Statement.maybeGap w d) :=
  rel_getD (h.wordGap hp hw) h

theorem Level.findSome?_wordGap (h : Level ps c d) {ws : List Text}
    (hws : ∀ w ∈ ws, w.IsUnquoted) :
    Option.Rel (Level ps) (ws.findSome? fun w => Statement.wordGap w c)
      (ws.findSome? fun w => Statement.wordGap w d) :=
  rel_findSome? (List.forall₂_same.mpr fun w hw => h.wordGap hp (hws w hw))

theorem Level.namespaceAs (h : Level ps c d) :
    Option.Rel (Level ps) (Statement.namespaceAs c) (Statement.namespaceAs d) :=
  rel_bind (h.char hp rfl) fun _ _ h =>
    rel_bind ((h.blanks hp).wordGap hp (Form.isUnquoted_word rfl)) fun _ _ h => h.name hp

variable (hR : ∀ s t, R s t → Sealed s ∧ Sealed t)

include hR

/-- What stands in braces: it may hold quoted texts, of which some are respelled. -/
theorem Level.skip_brace (h : Level ps c d) :
    ∃ done mid todo, ps = done ++ mid ++ todo ∧ Clear (mid ++ todo) ∧ Clear todo ∧
      c = placeAt old done (mid ++ todo) ∧ d = placeAt new done (mid ++ todo) ∧
      c.skip (· != '}') = placeAt old (done ++ mid) todo ∧
      d.skip (· != '}') = placeAt new (done ++ mid) todo := by
  obtain ⟨done, todo, hps, hclear, rfl, rfl⟩ := h
  have hbrace : ∀ s t, respelled s t ∈ todo →
      s.all (· != '}') = true ∧ t.all (· != '}') = true := by
    intro s t hm
    obtain ⟨hs, ht⟩ := hR s t (hp.of_mem (hps ▸ List.mem_append_right done hm))
    have hall : ∀ u : Text, '}' ∉ u → u.all (· != '}') = true := by
      intro u hu
      rw [List.all_eq_true]
      intro x hx
      rw [bne_iff_ne]
      rintro rfl
      exact hu hx
    exact ⟨hall s hs.no_brace, hall t ht.no_brace⟩
  obtain ⟨mid, todo', rfl, hclear', hold, hnew⟩ := skip_placeAt_through hbrace done
  exact ⟨done, mid, todo', by rw [hps, List.append_assoc], hclear, hclear', rfl, rfl, hold, hnew⟩

theorem Level.braces (h : Level ps c d) :
    Option.Rel (Level ps) (Statement.braces c) (Statement.braces d) := by
  refine rel_bind (h.char hp rfl) fun c d h => ?_
  obtain ⟨done, mid, todo, hps, -, hclear, -, -, hold, hnew⟩ := h.skip_brace hp hR
  rw [hold, hnew]
  exact Level.char hp ⟨_, _, hps, hclear, rfl, rfl⟩ rfl

theorem Level.bound (h : Level ps c d) :
    Option.Rel (Level ps) (Statement.bound c) (Statement.bound d) :=
  rel_orElse (h.braces hp hR) (rel_orElse (h.namespaceAs hp) (h.name hp))

theorem Level.clauseEnd (h : Level ps c d) :
    Option.Rel (Level ps) (Statement.clauseEnd c) (Statement.clauseEnd d) :=
  rel_bind (h.bound hp hR) fun _ _ h => rel_bind (h.blanks1 hp) fun _ _ h =>
    rel_map (h.literal hp (Form.isUnquoted_word rfl)) fun _ _ h => h.blanks hp

theorem Level.clause (h : Level ps c d) :
    Option.Rel (Level ps) (Statement.clause c) (Statement.clause d) :=
  rel_orElse
    (rel_bind (h.name hp) fun _ _ h => rel_bind ((h.blanks hp).char hp rfl) fun _ _ h =>
      (h.blanks hp).clauseEnd hp hR)
    (h.clauseEnd hp hR)

theorem Level.staticTail (h : Level ps c d) :
    Option.Rel (AlikeFound R ps) (Statement.staticTail c) (Statement.staticTail d) :=
  rel_orElse
    (rel_bind (h.clause hp hR) fun _ _ h =>
      rel_map (h.quoted hp (isQuotable_of_sealed hR)) fun _ _ h => ⟨h, h.stop⟩)
    (rel_map (h.quoted hp (isQuotable_of_sealed hR)) fun _ _ h => ⟨h, h.stop⟩)

theorem Level.staticImport (h : Level ps c d) :
    Option.Rel (AlikeFound R ps) (Statement.staticImport c) (Statement.staticImport d) :=
  rel_bind (rel_bind (h.word hp (Form.isUnquoted_word rfl)) fun _ _ h => h.blanks1 hp)
    fun _ _ h => rel_orElse
      (rel_bind (h.wordGap hp (Form.isUnquoted_word rfl)) fun _ _ h => h.staticTail hp hR)
      (h.staticTail hp hR)

omit hR in
/-- Behind two such places, with any blanks between, stands a closing bracket or something else. -/
theorem Level.blanks_char (h : Level ps c d) {x : Char} (hx : isQuote x = false) :
    Option.Rel (Level ps) (c.blanks.char x) (d.blanks.char x) :=
  (h.blanks hp).char hp hx

/-- The bracket that closes a call does not stand in a respelled specifier. -/
theorem Beside.blanks_char (h : Beside ps c d) :
    Option.Rel (Level ps) (c.blanks.char ')') (d.blanks.char ')') := by
  obtain ⟨done, todo, hps, rfl, rfl⟩ := h
  by_cases hclear : Clear todo
  · exact Level.blanks_char hp ⟨done, todo, hps, hclear, rfl, rfl⟩ rfl
  · simp only [Clear, not_forall, not_not] at hclear
    obtain ⟨s, t, todo, rfl⟩ := hclear
    obtain ⟨hs, ht⟩ := hR s t (hp.of_mem (by simp [hps]))
    have hnone : ∀ (u : Text) (v : Text) (offset : Nat) (before : Option Char), Sealed u →
        (Cursor.blanks ⟨offset, before, u ++ v⟩).char ')' = none := by
      intro u v offset before hu
      obtain ⟨y, u, rfl⟩ := List.exists_cons_of_ne_nil hu.quotable.ne_nil
      have hblank : Text.isBlank y = false := by simpa using hu.no_blank_first
      have hy : y ≠ ')' := by simpa using hu.no_bracket
      rw [Cursor.blanks, List.cons_append, skip_of_not hblank]
      exact if_neg hy
    have hold := hnone s (spell old todo) (spell old done).length (spell old done).getLast? hs
    have hnew := hnone t (spell new todo) (spell new done).length (spell new done).getLast? ht
    rw [placeAt, placeAt, spell_cons, spell_cons]
    refine Eq.mpr (congrArg₂ (Option.Rel (Level ps)) hold hnew) .none

theorem Level.call (h : Level ps c d) :
    Option.Rel (AlikeFound R ps) (Statement.call c) (Statement.call d) :=
  rel_bind (h.blanks_char hp rfl) fun _ _ h =>
    rel_bind ((h.blanks hp).quoted hp (isQuotable_of_sealed hR)) fun _ _ h =>
      rel_map (h.stop.blanks_char hp hR) fun _ _ h' => ⟨h, h'.beside⟩

theorem Level.dynamicImport (h : Level ps c d) :
    Option.Rel (AlikeFound R ps) (Statement.dynamicImport c) (Statement.dynamicImport d) :=
  rel_bind (h.word hp (Form.isUnquoted_word rfl)) fun _ _ h => h.call hp hR

theorem Level.requireCall (h : Level ps c d) :
    Option.Rel (AlikeFound R ps) (Statement.requireCall c) (Statement.requireCall d) :=
  rel_bind (h.word hp (Form.isUnquoted_word rfl)) fun _ _ h => h.call hp hR

theorem Level.boundRequire (h : Level ps c d) :
    Option.Rel (AlikeFound R ps) (Statement.boundRequire c) (Statement.boundRequire d) := by
  refine h.unless_insideWord hp ?_ fun q v w hq hc hd => ?_
  · exact rel_bind (h.findSome?_wordGap hp fun _ => isUnquoted_of_mem (by decide)) fun _ _ h =>
      rel_bind (rel_orElse (h.name hp) (h.braces hp hR)) fun _ _ h =>
        rel_bind (h.blanks_char hp rfl) fun _ _ h =>
          rel_map ((h.blanks hp).requireCall hp hR) fun _ _ h => ⟨h.quoted, h.stop⟩
  · rw [findSome?_wordGap_of_quote hq hc, findSome?_wordGap_of_quote hq hd]
    exact ⟨rfl, rfl⟩

theorem Level.requireImport (h : Level ps c d) :
    Option.Rel (AlikeFound R ps) (Statement.requireImport c) (Statement.requireImport d) :=
  rel_orElse (h.boundRequire hp hR) (h.requireCall hp hR)

omit hR

theorem Level.exportGap (h : Level ps c d) :
    Option.Rel (Level ps) (Statement.exportGap c) (Statement.exportGap d) :=
  rel_bind (h.word hp (Form.isUnquoted_word rfl)) fun _ _ h => h.blanks1 hp

theorem Level.functionGap (h : Level ps c d) :
    Option.Rel (Level ps) (Statement.functionGap c) (Statement.functionGap d) :=
  rel_bind (h.literal hp (Form.isUnquoted_word rfl)) fun _ _ h =>
    rel_orElse (rel_bind (h.blanks_char hp rfl) fun _ _ h => h.blanks1 hp) (h.blanks1 hp)

theorem Level.foldl_maybeGap (h : Level ps c d) {ws : List Text}
    (hws : ∀ w ∈ ws, w.IsUnquoted) :
    Level ps (ws.foldl (fun c w => Statement.maybeGap w c) c)
      (ws.foldl (fun c w => Statement.maybeGap w c) d) := by
  induction ws generalizing c d with
  | nil => exact h
  | cons w ws ih =>
    exact ih (h.maybeGap hp (hws w List.mem_cons_self)) fun v hv =>
      hws v (List.mem_cons_of_mem _ hv)

/-- Two exported names as found. -/
structure AlikeNamed (ps : List Stretch) (m n : Statement.Named) : Prop where
  place : Beside ps m.place n.place
  stop : Beside ps m.stop n.stop

theorem Level.exportDeclaration (h : Level ps c d) :
    Option.Rel (AlikeNamed ps) (Statement.exportDeclaration c)
      (Statement.exportDeclaration d) :=
  rel_bind (h.exportGap hp) fun c d h => by
    have hwords : ∀ w ∈ Statement.modifierWords, w.IsUnquoted := fun _ =>
      isUnquoted_of_mem (by decide)
    have h := h.foldl_maybeGap hp hwords
    exact rel_bind (rel_orElse (h.functionGap hp)
      (h.findSome?_wordGap hp fun _ => isUnquoted_of_mem (by decide)))
      fun _ _ h => rel_map (h.name hp) fun _ _ h' => ⟨h.beside, h'.beside⟩

theorem Level.exportDefault (h : Level ps c d) :
    Option.Rel (fun x y => Beside ps x.1 y.1 ∧ Beside ps x.2 y.2) (Statement.exportDefault c)
      (Statement.exportDefault d) :=
  rel_bind (rel_bind (h.exportGap hp) fun _ _ h => h.literal hp (Form.isUnquoted_word rfl))
    fun c' d' h' => by
      rw [h'.head?_eq]
      split
      · exact .none
      · exact .some ⟨h.beside, h'.beside⟩

theorem Level.runEnds (h : Level ps c d) {p : Char → Bool}
    (hquote : ∀ q, isQuote q = true → p q = false) :
    List.Forall₂ (Level ps) (Statement.runEnds p c.offset c.rest [])
      (Statement.runEnds p d.offset d.rest []) := by
  have hends : ∀ (todo done : List Stretch) (xs ys : List Cursor), ps = done ++ todo →
      Clear todo → List.Forall₂ (Level ps) xs ys →
      List.Forall₂ (Level ps)
        (Statement.runEnds p (spell old done).length (spell old todo) xs)
        (Statement.runEnds p (spell new done).length (spell new todo) ys) := by
    intro todo
    induction todo with
    | nil => exact fun _ _ _ _ _ h => h
    | cons m todo ih =>
      intro done xs ys hps hclear hxy
      cases m with
      | respelled s t => exact (hclear s t todo rfl).elim
      | kept y =>
        rw [spell_cons, spell_cons, old, new, List.singleton_append, List.singleton_append,
          Statement.runEnds, Statement.runEnds]
        split
        · rename_i hy
          have hyq : isQuote y = false := by
            rw [← Bool.not_eq_true]
            intro hq
            rw [hquote y hq] at hy
            cases hy
          have hps' : ps = (done ++ [kept y]) ++ todo := by rw [hps, List.append_assoc]; rfl
          have hclear' := hp.clear hps hyq
          have hplace : ∀ side : Stretch → Text, (∀ x, side (kept x) = [x]) →
              ⟨(spell side done).length + 1, some y, spell side todo⟩ =
                placeAt side (done ++ [kept y]) todo :=
            fun side hside => (placeAt_append_kept hside done todo y).symm
          have ih := ih (done ++ [kept y]) _ _ hps' hclear'
            (.cons ⟨done ++ [kept y], todo, hps', hclear', hplace old fun _ => rfl,
              hplace new fun _ => rfl⟩ hxy)
          rw [spell_concat, spell_concat, List.length_append, List.length_append] at ih
          exact ih
        · exact hxy
  obtain ⟨done, todo, hps, hclear, rfl, rfl⟩ := h
  exact hends todo done [] [] hps hclear .nil

include hR

theorem Level.origin (h : Level ps c d) :
    Option.Rel (Alike R ps) (Statement.origin c) (Statement.origin d) :=
  rel_bind ((h.blanks hp).literal hp (Form.isUnquoted_word rfl)) fun _ _ h =>
    (h.blanks hp).quoted hp (isQuotable_of_sealed hR)

/-- Two export lists as found, with the same names and with origins that are alike. -/
structure AlikeListed (R : Text → Text → Prop) (ps : List Stretch) (l m : Statement.Listed) :
    Prop where
  place : Beside ps l.place m.place
  names : Binding.exportNames l.names = Binding.exportNames m.names
  origin : Option.Rel (Alike R ps) l.origin m.origin
  stop : Beside ps l.stop m.stop

theorem Level.exportList (h : Level ps c d) :
    Option.Rel (AlikeListed R ps) (Statement.exportList c) (Statement.exportList d) := by
  refine rel_bind (h.exportGap hp) fun _ _ h' =>
    rel_bind ((h'.maybeGap hp (Form.isUnquoted_word rfl)).char hp rfl) fun c' d' h' => ?_
  obtain ⟨done, mid, todo, hps, -, hclear, rfl, rfl, hold, hnew⟩ := h'.skip_brace hp hR
  have hclose : Level ps (placeAt old (done ++ mid) todo) (placeAt new (done ++ mid) todo) :=
    ⟨_, _, hps, hclear, rfl, rfl⟩
  dsimp only
  rw [hold, hnew, upTo_placeAt, upTo_placeAt]
  match todo, hclear with
  | [], _ => exact .none
  | respelled s t :: todo, hclear => exact (hclear s t todo rfl).elim
  | kept y :: todo, _ =>
    have hend := hclose.char hp (x := '}') rfl
    rw [char_placeAt_kept (fun _ => rfl), char_placeAt_kept (fun _ => rfl)] at hend ⊢
    split
    · rename_i hy
      rw [if_pos hy, if_pos hy] at hend
      have hnames : Binding.exportNames (spell old mid) = Binding.exportNames (spell new mid) := by
        rw [hps, List.append_assoc] at hp
        obtain ⟨o, ho⟩ := hp.append_right
        have hbrace : isQuote y = false := hy ▸ rfl
        exact exportNames_spell (ho.append_left hbrace) fun s t hst =>
          ⟨(hR s t hst).1.no_comma, (hR s t hst).2.no_comma⟩
      cases hend with
      | some hend =>
        have horigin := hend.origin hp hR
        simp only [Option.map_some]
        generalize Statement.origin (placeAt old (done ++ mid ++ [kept y]) todo) = a at horigin
        generalize Statement.origin (placeAt new (done ++ mid ++ [kept y]) todo) = b at horigin
        cases horigin with
        | none => exact .some ⟨h.beside, hnames, .none, hend.beside⟩
        | some hq => exact .some ⟨h.beside, hnames, .some hq, hq.stop⟩
    · exact .none

/-- Two exports of all names as found, with origins that are alike. -/
structure AlikeStarred (R : Text → Text → Prop) (ps : List Stretch) (x y : Statement.Starred) :
    Prop where
  place : Beside ps x.place y.place
  name : x.name.isSome = y.name.isSome
  origin : Alike R ps x.origin y.origin

theorem Level.starName (h : Level ps c d) :
    Option.Rel (fun x y => Alike R ps x.2 y.2) (Statement.starName c) (Statement.starName d) :=
  rel_bind ((h.blanks hp).wordGap hp (Form.isUnquoted_word rfl)) fun c' d' h => by
    have hends := h.runEnds hp fun _ => not_isName_of_isQuote
    refine rel_findSome? (hends.imp fun e e' h => ?_)
    exact rel_map (h.origin hp hR) fun _ _ h => h

theorem Level.exportStar (h : Level ps c d) :
    Option.Rel (AlikeStarred R ps) (Statement.exportStar c) (Statement.exportStar d) :=
  rel_bind (h.exportGap hp) fun _ _ h' =>
    rel_bind ((h'.maybeGap hp (Form.isUnquoted_word rfl)).char hp rfl) fun _ _ h' =>
      rel_orElse (rel_map (h'.starName hp hR) fun _ _ hq => ⟨h.beside, rfl, hq⟩)
        (rel_map (h'.origin hp hR) fun _ _ hq => ⟨h.beside, rfl, hq⟩)

end Forms

end Stretch
end ModuleGraph
