import ModuleGraph.Proofs.Path
import Mathlib.Data.List.Induction

/-!
Paths followed step by step.

* `follow`: the names of the place to which some steps lead, each from the place before it;
* `follow_up`: steps upwards lead out of as many directories;
* `names_normalize_follow`, `names_normalize_join`: the normal form of a path names that place.
-/

namespace ModuleGraph
namespace Path

variable {p a b s : Text} {ns ms ss stack : List Text}

/-- Where one step leads from the place with these names. An empty step and a dot stay there, and
two dots take the last name away; the root has none to take. -/
def step (ns : List Text) (s : Text) : List Text :=
  if s = [] ∨ s = here then ns
  else if s = up then ns.dropLast
  else ns ++ [s]

/-- The names of the place to which some steps lead. -/
def follow (ns ss : List Text) : List Text := ss.foldl step ns

@[simp] theorem follow_nil (ns : List Text) : follow ns [] = ns := rfl

@[simp] theorem follow_cons (ns : List Text) (s : Text) (ss : List Text) :
    follow ns (s :: ss) = follow (step ns s) ss := rfl

theorem follow_append (ns ss ms : List Text) : follow ns (ss ++ ms) = follow (follow ns ss) ms :=
  List.foldl_append

theorem step_up (ns : List Text) : step ns up = ns.dropLast := by
  rw [step, if_neg (by decide), if_pos rfl]

theorem step_name (ns : List Text) (h : IsName s) : step ns s = ns ++ [s] := by
  rw [step, if_neg (not_or.mpr ⟨h.ne_nil, h.ne_here⟩), if_neg h.ne_up]

/-- As many steps upwards as there are names lead out of all of them. -/
theorem follow_up (ns ms : List Text) :
    follow (ns ++ ms) (List.replicate ms.length up) = ns := by
  induction ms using List.reverseRecOn with
  | nil => exact List.append_nil ns
  | append_singleton ms m ih =>
    rw [List.length_append, List.length_singleton, List.replicate_succ, follow_cons, step_up,
      ← List.append_assoc, List.dropLast_concat, ih]

/-- The steps that stay where they are do not count. -/
theorem follow_names (ns : List Text) (p : Text) :
    follow ns (names p) = follow ns (p.splitOn slash) := by
  rw [names]
  induction p.splitOn slash generalizing ns with
  | nil => rfl
  | cons s ss ih =>
    by_cases h : s = [] ∨ s = here
    · rw [List.filter_cons_of_neg (by simpa [Classical.or_iff_not_imp_left] using h), follow_cons,
        step, if_pos h, ih]
    · rw [List.filter_cons_of_pos (by simpa using h), follow_cons, follow_cons, ih]

/-- Pushing a name is a step. The stack has the last name first, and no step upwards is on it. -/
theorem pushName_eq (hstack : up ∉ stack) (hs : s ≠ [] ∧ s ≠ here) :
    up ∉ pushName true stack s ∧ (pushName true stack s).reverse = step stack.reverse s := by
  rw [step, if_neg (by simpa using hs)]
  unfold pushName
  by_cases hup : s = up
  · rw [if_pos hup, if_pos hup]
    cases stack with
    | nil => exact ⟨hstack, rfl⟩
    | cons last rest =>
      rw [List.mem_cons, not_or] at hstack
      simp [Ne.symm hstack.1, hstack.2]
  · rw [if_neg hup, if_neg hup, List.reverse_cons, List.mem_cons, not_or]
    exact ⟨⟨Ne.symm hup, hstack⟩, rfl⟩

/-- Pushing names one after the other is following them. -/
theorem reverse_foldl_pushName (hstack : up ∉ stack) (hss : ∀ s ∈ ss, s ≠ [] ∧ s ≠ here) :
    (ss.foldl (pushName true) stack).reverse = follow stack.reverse ss := by
  induction ss generalizing stack with
  | nil => rfl
  | cons s ss ih =>
    obtain ⟨hnew, hstep⟩ := pushName_eq hstack (hss s List.mem_cons_self)
    rw [List.foldl_cons, follow_cons, ← hstep]
    exact ih hnew fun s h => hss s (List.mem_cons_of_mem _ h)

theorem ne_of_mem_names (h : s ∈ names p) : s ≠ [] ∧ s ≠ here := (mem_names h).2

/-- The normal form of a path names the place to which its steps lead from the root. -/
theorem names_normalize_follow (h : isAbsolute p = true) :
    names (normalize p) = follow [] (p.splitOn slash) := by
  rw [names_normalize h, resolved, h, reverse_foldl_pushName List.not_mem_nil
    fun s => ne_of_mem_names, List.reverse_nil, follow_names]

/-- The normal form of a relative path seen from a directory names the place to which its steps
lead from there. -/
theorem names_normalize_join (h : IsNormal a) (hb : isAbsolute b = false) :
    names (normalize (join a b)) = follow (names a) (b.splitOn slash) := by
  have hup : up ∉ (names a).reverse := fun hmem =>
    (h.isName up (List.mem_reverse.mp hmem)).ne_up rfl
  rw [names_normalize (isAbsolute_join h.absolute b), resolved_join h hb,
    reverse_foldl_pushName hup fun s => ne_of_mem_names, List.reverse_reverse, follow_names]

end Path
end ModuleGraph
