import ModuleGraph.Proofs.Source.Finds
import ModuleGraph.Source.Extract

/-!
How the statements of a text are read.

* `Reading`: the ways in which an import is read, each with the places that its parts end at;
* `reading_of_recognise`: what is recognised is read in one of these ways;
* `ImportKind.opens`, `opens_exportList` and the like: a statement begins with a word of its kind.
-/

namespace ModuleGraph

open Cursor

/-- A choice gives what one of its branches gives. -/
theorem eq_some_of_orElse {α : Type} {a b : Option α} {x : α}
    (h : (a.orElse fun _ => b) = some x) : a = some x ∨ b = some x := by
  cases a with
  | none => exact Or.inr h
  | some y => exact Or.inl h

/-- What recognises the imports of one kind. -/
def ImportKind.recognise : ImportKind → Cursor → Option Statement.Found
  | .static => Statement.staticImport
  | .dynamic => Statement.dynamicImport
  | .require => Statement.requireImport

theorem Source.importsOf_eq (marks : List Text) (index : LineIndex) (content : Text)
    (k : ImportKind) : importsOf marks index content k =
      (findAll k.recognise (·.stop.offset) content).map (Import.ofFound marks index k) := by
  cases k <;> rfl

namespace Statement

/-- A specifier between call brackets. -/
structure Called (c : Cursor) (f : Found) : Prop where
  unbound : f.binding = none
  quoted : ∃ d, c.blanks.char '(' = some d ∧ d.blanks.quoted = some f.quoted
  closed : f.quoted.stop.blanks.char ')' = some f.stop

/-- A specifier after a clause or alone. -/
inductive Tailed (c : Cursor) : Found → Prop
  | clause {e : Cursor} {q : Quoted} (clause : Statement.clause c = some e)
      (quoted : e.quoted = some q) : Tailed c ⟨some (c.upTo e), q, q.stop⟩
  | alone {q : Quoted} (quoted : c.quoted = some q) : Tailed c ⟨none, q, q.stop⟩

/-- The ways in which an import is read. -/
inductive Reading (c : Cursor) : ImportKind → Found → Prop
  | static {d e : Cursor} {f : Found} (word : c.word importWord = some d)
      (gap : d.blanks1 = some e) (tail : Tailed e f) : Reading c .static f
  | typed {d e t : Cursor} {f : Found} (word : c.word importWord = some d)
      (gap : d.blanks1 = some e) (type : wordGap Binding.typeWord e = some t)
      (tail : Tailed t f) : Reading c .static f
  | dynamic {d : Cursor} {f : Found} (word : c.word importWord = some d) (call : Called d f) :
      Reading c .dynamic f
  | require {d : Cursor} {f : Found} (word : c.word requireWord = some d) (call : Called d f) :
      Reading c .require f
  | bound {w : Text} {d e s r : Cursor} {f : Found} (outside : c.insideWord = false)
      (mem : w ∈ variableWords) (gap : wordGap w c = some d)
      (target : (d.name.orElse fun _ => braces d) = some e) (sign : e.blanks.char '=' = some s)
      (word : s.blanks.word requireWord = some r) (call : Called r f) :
      Reading c .require { f with binding := some (d.upTo e) }

variable {c d e : Cursor} {f : Found} {w : Text} {ws : List Text}

theorem blank_of_blanks1 (h : c.blanks1 = some d) :
    ∃ x back, c.rest = x :: back ∧ Text.isBlank x = true := by
  unfold Cursor.blanks1 Cursor.skip1 at h
  split at h
  · cases h
  · rename_i x back hrest
    split at h
    · rename_i hx
      exact ⟨x, back, hrest, hx⟩
    · cases h

/-- What follows a word up to an opening bracket begins with a blank or is the bracket. -/
theorem blank_of_blanks_char (h : c.blanks.char '(' = some d) :
    ∃ x back, c.rest = x :: back ∧ (Text.isBlank x = true ∨ x = '(') := by
  obtain ⟨v, hv, hall, -⟩ := passes_skip Text.isBlank c
  have hrest := (hv.trans (passes_char h)).rest_eq
  cases v with
  | nil => exact ⟨'(', _, hrest, Or.inr rfl⟩
  | cons x v =>
    rw [List.all_cons, Bool.and_eq_true] at hall
    exact ⟨x, _, hrest, Or.inl hall.1⟩

/-- A word, then what may follow it at the beginning of a statement. -/
theorem opens_of_word (hw : w ∈ ws) (hc : c.literal w = some d)
    (hd : ∃ x back, d.rest = x :: back ∧ (Text.isBlank x = true ∨ x = '(')) :
    ∃ w ∈ ws, ∃ x back, c.rest = w ++ x :: back ∧
      (Text.isBlank x = true ∨ x = '(') := by
  obtain ⟨x, back, hrest, hx⟩ := hd
  exact ⟨w, hw, x, back, by rw [(passes_literal hc).rest_eq, hrest], hx⟩

theorem literal_of_word (h : c.word w = some d) : c.literal w = some d := by
  unfold Cursor.word at h
  split at h
  · cases h
  · exact h

theorem opens_of_gap (hw : w ∈ ws) (hc : c.literal w = some d)
    (hd : d.blanks1 = some e) :
    ∃ w ∈ ws, ∃ x back, c.rest = w ++ x :: back ∧
      (Text.isBlank x = true ∨ x = '(') := by
  obtain ⟨x, back, hrest, hx⟩ := blank_of_blanks1 hd
  exact opens_of_word hw hc ⟨x, back, hrest, Or.inl hx⟩

theorem called_of_call (h : call c = some f) : Called c f := by
  obtain ⟨d, hd, h⟩ := Option.bind_eq_some_iff.mp h
  obtain ⟨q, hq, h⟩ := Option.bind_eq_some_iff.mp h
  obtain ⟨stop, hstop, rfl⟩ := Option.map_eq_some_iff.mp h
  exact ⟨rfl, ⟨d, hd, hq⟩, hstop⟩

theorem tailed_of_staticTail (h : staticTail c = some f) : Tailed c f := by
  rcases eq_some_of_orElse h with h | h
  · obtain ⟨e, he, h⟩ := Option.bind_eq_some_iff.mp h
    obtain ⟨q, hq, rfl⟩ := Option.map_eq_some_iff.mp h
    exact .clause he hq
  · obtain ⟨q, hq, rfl⟩ := Option.map_eq_some_iff.mp h
    exact .alone hq

theorem reading_of_recognise {k : ImportKind} (h : k.recognise c = some f) :
    Reading c k f := by
  cases k with
  | static =>
    obtain ⟨e, he, h⟩ := Option.bind_eq_some_iff.mp h
    obtain ⟨d, hd, he⟩ := Option.bind_eq_some_iff.mp he
    rcases eq_some_of_orElse h with h | h
    · obtain ⟨t, ht, h⟩ := Option.bind_eq_some_iff.mp h
      exact .typed hd he ht (tailed_of_staticTail h)
    · exact .static hd he (tailed_of_staticTail h)
  | dynamic =>
    obtain ⟨d, hd, h⟩ := Option.bind_eq_some_iff.mp h
    exact .dynamic hd (called_of_call h)
  | require =>
    rcases eq_some_of_orElse h with h | h
    · rw [boundRequire] at h
      split at h
      · cases h
      · rename_i houtside
        obtain ⟨d, hd, h⟩ := Option.bind_eq_some_iff.mp h
        obtain ⟨e, he, h⟩ := Option.bind_eq_some_iff.mp h
        obtain ⟨s, hs, h⟩ := Option.bind_eq_some_iff.mp h
        obtain ⟨g, hg, rfl⟩ := Option.map_eq_some_iff.mp h
        obtain ⟨r, hr, hg⟩ := Option.bind_eq_some_iff.mp hg
        obtain ⟨w, hw, hd⟩ := List.exists_of_findSome?_eq_some hd
        exact .bound (Bool.eq_false_iff.mpr houtside) hw hd he hs hr (called_of_call hg)
    · obtain ⟨d, hd, h⟩ := Option.bind_eq_some_iff.mp h
      exact .require hd (called_of_call h)

/-- What is recognised after `export` and blanks only. -/
theorem opens_of_exportGap {α : Type} {recognise : Cursor → Option α}
    (h : ∀ c, exportGap c = none → recognise c = none) : Opens recognise := by
  intro c a ha
  cases hgap : exportGap c with
  | none =>
    rw [h c hgap] at ha
    cases ha
  | some e =>
    obtain ⟨d, hd, he⟩ := Option.bind_eq_some_iff.mp hgap
    exact opens_of_gap (by decide) (literal_of_word hd) he

theorem opens_exportDeclaration : Opens exportDeclaration :=
  opens_of_exportGap fun c h => by rw [exportDeclaration, h]; rfl

theorem opens_exportDefault : Opens exportDefault :=
  opens_of_exportGap fun c h => by rw [exportDefault, h]; rfl

theorem opens_exportList : Opens exportList :=
  opens_of_exportGap fun c h => by rw [exportList, h]; rfl

theorem opens_exportStar : Opens exportStar :=
  opens_of_exportGap fun c h => by rw [exportStar, h]; rfl

end Statement

namespace ImportKind

open Statement

/-- The words by which an import of a kind begins. -/
def words : ImportKind → List Text
  | .static | .dynamic => [importWord]
  | .require => requireWord :: variableWords

theorem mem_words {k : ImportKind} {w : Text} (hw : w ∈ k.words) :
    w ≠ [] ∧ w.all Text.isName = true := by
  have hall : ∀ k ∈ ImportKind.all, ∀ w ∈ k.words, w ≠ [] ∧ w.all Text.isName = true := by decide
  exact hall k (by cases k <;> decide) w hw

/-- An import begins with a word of its kind, and a blank or a bracket comes after it. -/
theorem opens {k : ImportKind} {c : Cursor} {f : Statement.Found} (h : k.recognise c = some f) :
    ∃ w ∈ k.words, ∃ x back, c.rest = w ++ x :: back ∧ (Text.isBlank x = true ∨ x = '(') := by
  cases reading_of_recognise h with
  | static word gap | typed word gap =>
    exact opens_of_gap List.mem_cons_self (literal_of_word word) gap
  | dynamic word call | require word call =>
    obtain ⟨d, hd, -⟩ := call.quoted
    exact opens_of_word List.mem_cons_self (literal_of_word word) (blank_of_blanks_char hd)
  | bound _ hw gap =>
    obtain ⟨d, hd, he⟩ := Option.bind_eq_some_iff.mp gap
    exact opens_of_gap (List.mem_cons_of_mem _ hw) hd he

theorem opens_recognise (k : ImportKind) : Opens k.recognise := by
  intro c f h
  obtain ⟨w, hw, hrest⟩ := opens h
  have hwords : ∀ w ∈ k.words, w ∈ openingWords := by cases k <;> decide
  exact ⟨w, hwords w hw, hrest⟩

end ImportKind
end ModuleGraph
