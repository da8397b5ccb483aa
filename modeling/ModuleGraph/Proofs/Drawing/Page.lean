import ModuleGraph.Drawing.Page
import ModuleGraph.Proofs.Drawing.Selection
import ModuleGraph.Proofs.Value.Json

/-!
The graph in a web page.

* `not_closing_partTags`: no closing tag begins in a text whose tags are parted;
* `readsParted`, `read_partTags`: what is read from a text is read from it with its tags parted,
  however much is read of it;
* `data_embedded`: the script of a page holds no closing tag, and what it holds is read as the
  nodes, edges and cycles that are shown.
-/

namespace ModuleGraph

namespace Json

/-- The sign of a power of ten, which is negative or not, and what follows it. -/
def exponentSign (t : Text) : Bool × Text :=
  match t with
  | '-' :: rest => (true, rest)
  | '+' :: rest => (false, rest)
  | rest => (false, rest)

theorem exponent?_cons (e : Char) (t : Text) :
    exponent? (e :: t) =
      if e == 'e' || e == 'E' then
        let (negative, rest) := exponentSign t
        let (digits, rest) := digitRun rest
        if digits.isEmpty then none
        else some (if negative then -(digitsValue digits : Int) else digitsValue digits, rest)
      else none := by
  unfold exponent? exponentSign
  rfl

/-- Whether a number begins with a minus, and what follows it. -/
def numberSign (t : Text) : Bool × Text :=
  match t with
  | '-' :: rest => (true, rest)
  | t => (false, t)

/-- The number whose whole part has the given digits, from what follows these. -/
def numberFrom (negative : Bool) (digits rest : Text) : Option (Value × Text) :=
  let (frac, rest, isFloat) := match fraction? rest with
    | some (f, rest) => (f, rest, true)
    | none => ([], rest, false)
  let (exp, rest, isFloat) := match exponent? rest with
    | some (e, rest) => (e, rest, true)
    | none => (0, rest, isFloat)
  if isFloat then
    some (.float (Binary64.ofDecimal negative (digitsValue (digits ++ frac))
      (exp - frac.length)), rest)
  else
    let n : Int := digitsValue digits
    some (.int (if negative then -n else n), rest)

theorem readNumber_eq (t : Text) :
    readNumber t =
      let (negative, t) := numberSign t
      let (digits, rest) := digitRun t
      match digits with
      | [] => none
      | first :: more =>
        let (digits, rest) := if first = '0' then (['0'], more ++ rest) else (digits, rest)
        numberFrom negative digits rest := by
  unfold readNumber numberSign numberFrom
  rfl

end Json

namespace Page

variable {t u rest rest' done w s : Text} {c : Char} {v : Value} {fuel : Nat}

theorem partTags_cons (h : c ≠ '<') (t : Text) : partTags (c :: t) = c :: partTags t := by
  rw [partTags]
  exact fun _ heq _ => h heq

/-- The first character stays. -/
theorem exists_partTags (c : Char) (t : Text) : ∃ u, partTags (c :: t) = c :: u := by
  by_cases h : c = '<'
  · subst h
    rcases t with _ | ⟨d, t⟩
    · exact ⟨_, rfl⟩
    · by_cases hd : d = '/'
      · subst hd
        exact ⟨_, rfl⟩
      · refine ⟨partTags (d :: t), ?_⟩
        rw [partTags]
        exact fun _ _ heq => hd (List.cons.inj heq).1
  · exact ⟨_, partTags_cons h t⟩

/-- A text that begins with a character other than `<` did so before. -/
theorem of_partTags_eq_cons (h : c ≠ '<') (heq : partTags t = c :: u) :
    ∃ r, t = c :: r ∧ u = partTags r := by
  rcases t with _ | ⟨d, t⟩
  · cases heq
  · obtain ⟨more, hmore⟩ := exists_partTags d t
    obtain ⟨rfl, rfl⟩ := List.cons.inj (hmore.symm.trans heq)
    rw [partTags_cons h] at hmore
    exact ⟨t, rfl, (List.cons.inj hmore).2.symm⟩

theorem partTags_ne_cons (h : c ≠ '<') (ht : ∀ u, t ≠ c :: u) (u : Text) : partTags t ≠ c :: u := by
  intro heq
  obtain ⟨r, hr, -⟩ := of_partTags_eq_cons h heq
  exact ht r hr

/-- No closing tag begins in a text whose tags are parted. -/
theorem not_closing_partTags (t : Text) : ¬ ['<', '/'] <:+: partTags t := by
  fun_induction partTags t with
  | case1 rest ih => simpa [List.infix_cons_iff] using ih
  | case2 c rest hother ih =>
    rw [List.infix_cons_iff, List.cons_prefix_cons]
    rintro (⟨rfl, u, hu⟩ | h)
    · obtain ⟨r, rfl, -⟩ := of_partTags_eq_cons (c := '/') (by decide) hu.symm
      exact hother r rfl rfl
    · exact ih h
  | case3 => decide

/-- The ends of tags and of comments, as they stand in a script. -/
example : partTags "</script><\\/a></" = "<\\/script><\\/a><\\/" := by decide

/-! ## Reading -/

/-- What is left of a text, with its tags parted. -/
def parted {α : Type} (x : α × Text) : α × Text := (x.1, partTags x.2)

theorem dropWhile_partTags (p : Char → Bool) (hp : p '<' = false) (t : Text) :
    (partTags t).dropWhile p = partTags (t.dropWhile p) := by
  induction t with
  | nil => rfl
  | cons c t ih =>
    by_cases hc : p c = true
    · have hne : c ≠ '<' := fun h => by simp [h, hp] at hc
      rw [partTags_cons hne, List.dropWhile_cons_of_pos hc, List.dropWhile_cons_of_pos hc, ih]
    · obtain ⟨u, hu⟩ := exists_partTags c t
      rw [List.dropWhile_cons_of_neg hc, hu, List.dropWhile_cons_of_neg hc]

theorem takeWhile_partTags (p : Char → Bool) (hp : p '<' = false) (t : Text) :
    (partTags t).takeWhile p = t.takeWhile p := by
  induction t with
  | nil => rfl
  | cons c t ih =>
    by_cases hc : p c = true
    · have hne : c ≠ '<' := fun h => by simp [h, hp] at hc
      rw [partTags_cons hne, List.takeWhile_cons_of_pos hc, List.takeWhile_cons_of_pos hc, ih]
    · obtain ⟨u, hu⟩ := exists_partTags c t
      rw [List.takeWhile_cons_of_neg hc, hu, List.takeWhile_cons_of_neg hc]

theorem skipSpaces_partTags (t : Text) :
    Json.skipSpaces (partTags t) = partTags (Json.skipSpaces t) :=
  dropWhile_partTags _ rfl t

theorem digitRun_partTags (t : Text) : Json.digitRun (partTags t) = parted (Json.digitRun t) := by
  rw [Json.digitRun, takeWhile_partTags _ rfl, dropWhile_partTags _ rfl]
  rfl

theorem after?_partTags (h : '<' ∉ w) (t : Text) :
    Text.after? w (partTags t) = (Text.after? w t).map partTags := by
  induction w generalizing t with
  | nil => rfl
  | cons c w ih =>
    rw [List.mem_cons, not_or] at h
    rcases t with _ | ⟨d, t⟩
    · rfl
    · by_cases hcd : c = d
      · subst hcd
        rw [partTags_cons (Ne.symm h.1)]
        simp [Text.after?, ih h.2]
      · obtain ⟨u, hu⟩ := exists_partTags d t
        simp [hu, Text.after?, hcd]

theorem fraction?_partTags (t : Text) :
    Json.fraction? (partTags t) = (Json.fraction? t).map parted := by
  rcases t with _ | ⟨c, t⟩
  · rfl
  · by_cases hc : c = '.'
    · subst hc
      rw [partTags_cons (by decide), Json.fraction?, Json.fraction?, digitRun_partTags]
      dsimp only [parted]
      rw [apply_ite (Option.map parted)]
      rfl
    · obtain ⟨u, hu⟩ := exists_partTags c t
      have hnone : ∀ t, Json.fraction? (c :: t) = none := fun t => by simp [Json.fraction?, hc]
      rw [hu, hnone, hnone]
      rfl

theorem partTags_append (h : '<' ∉ w) (t : Text) : partTags (w ++ t) = w ++ partTags t := by
  induction w with
  | nil => rfl
  | cons c w ih =>
    rw [List.mem_cons, not_or] at h
    rw [List.cons_append, partTags_cons (Ne.symm h.1), ih h.2, List.cons_append]

theorem exponentSign_partTags (t : Text) :
    Json.exponentSign (partTags t) = parted (Json.exponentSign t) := by
  rcases t with _ | ⟨c, t⟩
  · rfl
  · by_cases hminus : c = '-'
    · subst hminus
      rw [partTags_cons (by decide)]
      rfl
    · by_cases hplus : c = '+'
      · subst hplus
        rw [partTags_cons (by decide)]
        rfl
      · obtain ⟨u, hu⟩ := exists_partTags c t
        simp [Json.exponentSign, parted, hu, hminus, hplus]

theorem exponent?_partTags (t : Text) :
    Json.exponent? (partTags t) = (Json.exponent? t).map parted := by
  rcases t with _ | ⟨e, t⟩
  · rfl
  · by_cases he : (e == 'e' || e == 'E') = true
    · have hne : e ≠ '<' := fun h => by simp [h] at he
      rw [partTags_cons hne, Json.exponent?_cons, Json.exponent?_cons, if_pos he, if_pos he,
        exponentSign_partTags]
      dsimp only [parted]
      rw [digitRun_partTags, apply_ite (Option.map parted)]
      rfl
    · obtain ⟨u, hu⟩ := exists_partTags e t
      rw [hu, Json.exponent?_cons, Json.exponent?_cons, if_neg he, if_neg he]
      rfl

theorem numberFrom_partTags (negative : Bool) (digits rest : Text) :
    Json.numberFrom negative digits (partTags rest) =
      (Json.numberFrom negative digits rest).map parted := by
  unfold Json.numberFrom
  rw [fraction?_partTags]
  cases hfrac : Json.fraction? rest with
  | none =>
    dsimp only [Option.map_none]
    rw [exponent?_partTags]
    cases Json.exponent? rest with
    | none => rfl
    | some x => rfl
  | some x =>
    obtain ⟨frac, rest⟩ := x
    dsimp only [Option.map_some, parted]
    rw [exponent?_partTags]
    cases Json.exponent? rest with
    | none => rfl
    | some x => rfl

theorem numberSign_partTags (t : Text) :
    Json.numberSign (partTags t) = parted (Json.numberSign t) := by
  rcases t with _ | ⟨c, t⟩
  · rfl
  · by_cases hminus : c = '-'
    · subst hminus
      rw [partTags_cons (by decide)]
      rfl
    · obtain ⟨u, hu⟩ := exists_partTags c t
      simp [Json.numberSign, parted, hu, hminus]

theorem readNumber_partTags (t : Text) :
    Json.readNumber (partTags t) = (Json.readNumber t).map parted := by
  rw [Json.readNumber_eq, Json.readNumber_eq, numberSign_partTags]
  dsimp only [parted]
  rw [digitRun_partTags]
  dsimp only [parted]
  cases hdigits : (Json.digitRun (Json.numberSign t).2).1 with
  | nil => rfl
  | cons first more =>
    have hmore : '<' ∉ more := by
      intro hmem
      have hrun : '<' ∈ (Json.digitRun (Json.numberSign t).2).1 :=
        hdigits ▸ List.mem_cons_of_mem _ hmem
      exact absurd (List.mem_takeWhile_imp hrun) (by decide)
    dsimp only
    split
    · dsimp only
      rw [← partTags_append hmore, numberFrom_partTags]
    · exact numberFrom_partTags _ _ _

theorem findSome?_partTags {names : List (Text × Value)} (h : ∀ x ∈ names, '<' ∉ x.1) (t : Text) :
    (names.findSome? fun (name, v) => (Text.after? name (partTags t)).map (v, ·)) =
      (names.findSome? fun (name, v) => (Text.after? name t).map (v, ·)).map parted := by
  induction names with
  | nil => rfl
  | cons x names ih =>
    obtain ⟨name, v⟩ := x
    rw [List.findSome?_cons, List.findSome?_cons]
    dsimp only
    rw [after?_partTags (h _ List.mem_cons_self)]
    cases Text.after? name t with
    | none => exact ih fun y hy => h y (List.mem_cons_of_mem _ hy)
    | some rest => rfl

theorem ne_of_unit? {a b c d : Char} {n : Nat} (h : Json.unit? a b c d = some n) :
    '<' ∉ ['\\', 'u', a, b, c, d] := by
  have hhex : Json.hexValue '<' = none := rfl
  simp only [List.mem_cons, not_or, List.not_mem_nil, not_false_eq_true, and_true]
  refine ⟨by decide, by decide, ?_, ?_, ?_, ?_⟩
  all_goals
    rintro rfl
    simp [Json.unit?, hhex] at h

/-- An escape with four digits stays as it is. -/
theorem partTags_unicode {a b c d : Char} {n : Nat} (h : Json.unit? a b c d = some n) (t : Text) :
    partTags ('\\' :: 'u' :: a :: b :: c :: d :: t) =
      '\\' :: 'u' :: a :: b :: c :: d :: partTags t :=
  partTags_append (ne_of_unit? h) t

/-- The rest of a string is read the same with its tags parted. -/
theorem stringBody_partTags (h : Json.stringBody done t = some (s, rest)) :
    Json.stringBody done (partTags t) = some (s, partTags rest) := by
  fun_induction Json.stringBody done t with
  | case1 => cases h
  | case2 done rest' =>
    cases h
    rw [partTags_cons (by decide), Json.stringBody.eq_2]
  | case3 => cases h
  | case4 done a b c d high hhigh e f g k rest' x hpair ih =>
    -- two code units that are one character
    have hlow : ∃ low, Json.unit? e f g k = some low := by
      cases hlow : Json.unit? e f g k with
      | none => simp [hlow] at hpair
      | some low => exact ⟨low, rfl⟩
    obtain ⟨low, hlow⟩ := hlow
    rw [partTags_unicode hhigh, partTags_unicode hlow, Json.stringBody.eq_3, hhigh]
    simp only [hpair]
    exact ih h
  | case5 done a b c d high hhigh e f g k rest' hpair ih =>
    have hlow : ∃ low, Json.unit? e f g k = some low := by
      cases hlow : Json.unit? e f g k with
      | none => simp [Json.stringBody.eq_3, hlow] at h
      | some low => exact ⟨low, rfl⟩
    obtain ⟨low, hlow⟩ := hlow
    have hread := ih h
    rw [partTags_unicode hlow] at hread
    rw [partTags_unicode hhigh, partTags_unicode hlow, Json.stringBody.eq_3, hhigh]
    simp only [hpair]
    exact hread
  | case6 done a b c d high hhigh rest' hrest ih =>
    rw [partTags_unicode hhigh, Json.stringBody.eq_3, hhigh]
    dsimp only
    split
    · next e f g k more heq =>
      -- a second escape that is not complete is not read
      obtain ⟨u, rfl, hu⟩ := of_partTags_eq_cons (by decide) heq
      obtain ⟨u', rfl, -⟩ := of_partTags_eq_cons (by decide) hu.symm
      rw [Json.stringBody.eq_4] at h
      · cases h
      · rintro e f g k more - rfl
        exact hrest e f g k more rfl
    · exact ih h
  | case7 done c rest' hne x hx ih =>
    have hlt : c ≠ '<' := by
      rintro rfl
      cases hx
    rw [partTags_cons (by decide), partTags_cons hlt, Json.stringBody_escaped hx]
    exact ih h
  | case8 => cases h
  | case9 => cases h
  | case10 done c rest' hquote hunicode hescape hc ih =>
    have hback : c ≠ '\\' := by
      rintro rfl
      rcases rest' with _ | ⟨d, rest'⟩
      · simp [Json.stringBody] at h
      · exact hescape d rest' rfl rfl
    by_cases htag : c = '<' ∧ ∃ r, rest' = '/' :: r
    · obtain ⟨rfl, r, rfl⟩ := htag
      have hread := ih h
      rw [partTags_cons (by decide),
        Json.stringBody_plain (by decide) (by decide) (by decide)] at hread
      rw [partTags, Json.stringBody_plain (by decide) (by decide) (by decide),
        Json.stringBody_escaped (x := '/') rfl]
      exact hread
    · rw [partTags, Json.stringBody_plain hquote hback hc]
      · exact ih h
      · exact fun r hlt hr => htag ⟨hlt, r, hr⟩

/-- A string, a number or a name is read the same with the tags of the text parted. -/
theorem readScalar_partTags (h : Json.readScalar t = some (v, rest)) :
    Json.readScalar (partTags t) = some (v, partTags rest) := by
  have hother : ∀ t : Text, (∀ r, t ≠ '"' :: r) → Json.readScalar t =
      (Json.names.findSome? fun (name, v) => (Text.after? name t).map (v, ·)).orElse
        fun _ => Json.readNumber t := by
    intro t ht
    unfold Json.readScalar
    split
    · next r => exact absurd rfl (ht r)
    · rfl
  by_cases hquote : ∃ r, t = '"' :: r
  · obtain ⟨r, rfl⟩ := hquote
    obtain ⟨⟨u, more⟩, hbody, heq⟩ := Option.map_eq_some_iff.mp h
    cases heq
    have hread := stringBody_partTags hbody
    rw [partTags_cons (by decide)]
    exact Option.map_eq_some_iff.mpr ⟨_, hread, rfl⟩
  · have hparted := partTags_ne_cons (c := '"') (by decide) (not_exists.mp hquote)
    rw [hother _ (not_exists.mp hquote)] at h
    rw [hother _ hparted, findSome?_partTags (by decide), readNumber_partTags]
    cases hname : Json.names.findSome? fun (name, v) => (Text.after? name t).map (v, ·) with
    | none =>
      rw [hname] at h
      exact Option.map_eq_some_iff.mpr ⟨_, h, rfl⟩
    | some x =>
      rw [hname] at h
      cases h
      rfl

/-- Reading with at most `fuel` steps gives the same with the tags of the text parted. -/
structure ReadsParted (fuel : Nat) : Prop where
  value : ∀ {t v rest}, Json.readValue fuel t = some (v, rest) →
    Json.readValue fuel (partTags t) = some (v, partTags rest)
  items : ∀ {done t v rest}, Json.readItems fuel done t = some (v, rest) →
    Json.readItems fuel done (partTags t) = some (v, partTags rest)
  entries : ∀ {done t v rest}, Json.readEntries fuel done t = some (v, rest) →
    Json.readEntries fuel done (partTags t) = some (v, partTags rest)

section

variable (ih : ReadsParted fuel)
include ih

theorem readItems_partTags {done : List Value}
    (h : Json.readItems (fuel + 1) done t = some (v, rest)) :
    Json.readItems (fuel + 1) done (partTags t) = some (v, partTags rest) := by
  rw [Json.readItems] at h ⊢
  cases hitem : Json.readValue fuel t with
  | none =>
    rw [hitem] at h
    cases h
  | some x =>
    obtain ⟨w, more⟩ := x
    rw [hitem] at h
    rw [ih.value hitem]
    dsimp only at h ⊢
    rw [skipSpaces_partTags]
    split at h
    · next more heq =>
      rw [heq, partTags_cons (by decide)]
      exact ih.items h
    · next more heq =>
      cases h
      rw [heq, partTags_cons (by decide)]
      rfl
    · cases h

theorem readEntries_partTags {done : Entries Value}
    (h : Json.readEntries (fuel + 1) done t = some (v, rest)) :
    Json.readEntries (fuel + 1) done (partTags t) = some (v, partTags rest) := by
  rw [Json.readEntries] at h ⊢
  rw [skipSpaces_partTags]
  split at h
  · next more heq =>
    rw [heq, partTags_cons (by decide)]
    split at h
    · cases h
    · next key more hkey =>
      simp only [stringBody_partTags hkey, skipSpaces_partTags]
      split at h
      · next more heq =>
        rw [heq, partTags_cons (by decide)]
        split at h
        · cases h
        · next w more hvalue =>
          simp only [ih.value hvalue, skipSpaces_partTags]
          split at h
          · next more heq =>
            rw [heq, partTags_cons (by decide)]
            exact ih.entries h
          · next more heq =>
            cases h
            rw [heq, partTags_cons (by decide)]
            rfl
          · cases h
      · cases h
  · cases h

theorem readValue_partTags (h : Json.readValue (fuel + 1) t = some (v, rest)) :
    Json.readValue (fuel + 1) (partTags t) = some (v, partTags rest) := by
  rw [Json.readValue] at h ⊢
  rw [skipSpaces_partTags]
  split at h
  · next more heq =>
    rw [heq, partTags_cons (by decide)]
    simp only [skipSpaces_partTags]
    split at h
    · next more heq =>
      cases h
      rw [heq, partTags_cons (by decide)]
      rfl
    · next hclose =>
      split
      · next heq => exact absurd heq (partTags_ne_cons (by decide) hclose _)
      · exact ih.items h
  · next more heq =>
    rw [heq, partTags_cons (by decide)]
    simp only [skipSpaces_partTags]
    split at h
    · next more heq =>
      cases h
      rw [heq, partTags_cons (by decide)]
      rfl
    · next hclose =>
      split
      · next heq => exact absurd heq (partTags_ne_cons (by decide) hclose _)
      · exact ih.entries h
  · next harray htable =>
    split
    · next heq => exact absurd heq (partTags_ne_cons (by decide) harray _)
    · next heq => exact absurd heq (partTags_ne_cons (by decide) htable _)
    · exact readScalar_partTags h

end

theorem readsParted (fuel : Nat) : ReadsParted fuel := by
  induction fuel with
  | zero =>
    constructor
    · rintro _ _ _ h
      cases h
    · rintro _ _ _ _ h
      cases h
    · rintro _ _ _ _ h
      cases h
  | succ fuel ih => exact ⟨readValue_partTags ih, readItems_partTags ih, readEntries_partTags ih⟩

theorem length_le_partTags (t : Text) : t.length ≤ (partTags t).length := by
  fun_induction partTags t with
  | case1 rest ih =>
    simp only [List.length_cons]
    omega
  | case2 c rest _ ih =>
    simp only [List.length_cons]
    omega
  | case3 => exact Nat.le_refl _

/-- What was written is read from the text with its tags parted. -/
theorem read_partTags (l : Json.Layout) {v : Value} (hv : Json.Plain v) (level : Nat) :
    Json.read (partTags (Json.writeAt l level v)) = some v := by
  have hlength := length_le_partTags (Json.writeAt l level v)
  have hread := Json.reads_of_plain l hv level [] ((partTags (Json.writeAt l level v)).length + 1)
    (by omega)
  rw [List.append_nil] at hread
  rw [Json.read, (readsParted _).value hread]
  rfl

/-! ## Pages -/

theorem plain_nodeValue (root n : Text) : Json.Plain (nodeValue root n) := by
  refine .table _ (by simp [Entries.keys]) ?_
  intro x hx
  simp only [List.mem_cons, List.not_mem_nil, or_false] at hx
  rcases hx with rfl | rfl
  · exact .text _
  · exact .text _

theorem plain_edgeValue (root : Text) (red : List (Text × Text)) (e : Text × Text) :
    Json.Plain (edgeValue root red e) := by
  refine .table _ (by simp [Entries.keys]) ?_
  intro x hx
  simp only [List.mem_cons, List.not_mem_nil, or_false] at hx
  rcases hx with rfl | rfl | rfl
  · exact .text _
  · exact .text _
  · exact .bool _

theorem plain_map {α : Type} (f : α → Value) (xs : List α) (h : ∀ x, Json.Plain (f x)) :
    Json.Plain (.array (xs.map f)) := by
  refine .array _ fun v hv => ?_
  obtain ⟨x, -, rfl⟩ := List.mem_map.mp hv
  exact h x

theorem plain_data (a : Analysis) (s : Selection) : Json.Plain (data a s) := by
  refine .table _ (by simp [Entries.keys]) ?_
  intro x hx
  simp only [List.mem_cons, List.not_mem_nil, or_false] at hx
  rcases hx with rfl | rfl | rfl | rfl
  · exact .text _
  · exact plain_map _ _ (plain_nodeValue a.root)
  · exact plain_map _ _ (plain_edgeValue a.root _)
  · exact plain_map _ _ fun _ => .text _

/-- How a literal ends is read off its characters, which is fast where taking them is not. -/
theorem suffix_toList {cs : List Char} (h : w.isSuffixOf cs = true) :
    w <:+ (String.ofList cs).toList := by
  rw [String.toList_ofList]
  exact List.isSuffixOf_iff_suffix.mp h

set_option maxRecDepth 4000 in
theorem suffix_betweenTitleAndData : ("const graph = " : Text) <:+ betweenTitleAndData :=
  suffix_toList (by decide +kernel)

/-- What follows the name of the constant in the script of a page, up to the fixed rest. -/
theorem exists_embedded (a : Analysis) (focus : Text) :
    ∃ before embedded, ofAnalysis a focus = before ++ "const graph = " ++ embedded ++ afterData ∧
      ¬ ("</" : Text) <:+: embedded ∧
      Json.read embedded = some (data a (.ofGraph a.dependencies.graph focus)) := by
  obtain ⟨before, hbefore⟩ := suffix_betweenTitleAndData
  refine ⟨beforeTitle ++ title a.root ++ betweenTitles ++ title a.root ++ before, _, ?_,
    not_closing_partTags _, read_partTags ⟨none, false⟩ (plain_data a _) 0⟩
  rw [ofAnalysis, ← hbefore]
  simp only [List.append_assoc]
  rfl

/-- The script of a page holds no closing tag after the name of its constant, and what is read
there is what is shown: the root, the nodes with their labels, the edges, which are marked if they
lie on a cycle, and the cycles. -/
theorem data_embedded (a : Analysis) (focus : Text) :
    let s := Selection.ofGraph a.dependencies.graph focus
    ∃ before embedded, ofAnalysis a focus = before ++ "const graph = " ++ embedded ++ afterData ∧
      ¬ ("</" : Text) <:+: embedded ∧
      Json.read embedded = some (.table [
        ("root", .text a.root),
        ("nodes", .array (s.nodes.map fun n => .table [
          ("id", .text n), ("label", .text (Path.display n (some a.root)))])),
        ("edges", .array (s.edges.map fun e => .table [
          ("src", .text (Path.display e.1 (some a.root))),
          ("dst", .text (Path.display e.2 (some a.root))),
          ("cycle", .bool (decide (∃ c ∈ a.cycles, e ∈ c.edges)))])),
        ("cycles", .array (a.cycles.map fun c => .text (c.describe (some a.root))))]) := by
  intro s
  obtain ⟨before, embedded, hpage, hsafe, hread⟩ := exists_embedded a focus
  refine ⟨before, embedded, hpage, hsafe, hread.trans ?_⟩
  unfold data nodeValue edgeValue
  simp only [Cycle.contains_allEdges]
  rfl

end Page
end ModuleGraph
