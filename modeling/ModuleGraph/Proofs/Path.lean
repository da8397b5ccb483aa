import ModuleGraph.Path
import ModuleGraph.Proofs.Text

/-!
Normal forms of absolute paths.

* `IsNormal`: an absolute path is in normal form if it is a root and names after it;
* `root_join`, `resolved_join`: what a relative path seen from a directory comes to;
* `directory_write`: the directory of a path is the path without its last name;
* `relative_spec`: a way that does not leave its start names what is below it.
-/

namespace ModuleGraph
namespace Path

variable {p a b lead n : Text} {ns ms : List Text}

/-- A name of a file or a directory: no slash is in it, and it is not a step. -/
structure IsName (n : Text) : Prop where
  no_slash : slash ∉ n
  ne_nil : n ≠ []
  ne_here : n ≠ here
  ne_up : n ≠ up

theorem isName_iff {n : Text} : IsName n ↔ slash ∉ n ∧ n ≠ [] ∧ n ≠ here ∧ n ≠ up :=
  ⟨fun h => ⟨h.no_slash, h.ne_nil, h.ne_here, h.ne_up⟩, fun h => ⟨h.1, h.2.1, h.2.2.1, h.2.2.2⟩⟩

instance (n : Text) : Decidable (IsName n) := decidable_of_iff' _ isName_iff

/-- What a tidy path has between its slashes: a name, or the step upwards. -/
structure IsStep (n : Text) : Prop where
  no_slash : slash ∉ n
  ne_nil : n ≠ []
  ne_here : n ≠ here

theorem IsName.isStep (h : IsName n) : IsStep n := ⟨h.no_slash, h.ne_nil, h.ne_here⟩

/-- The slashes that an absolute path in normal form begins with. -/
def IsLead (lead : Text) : Prop := lead = [slash] ∨ lead = [slash, slash]

/-- An absolute path in normal form. -/
structure IsNormal (p : Text) : Prop where
  absolute : isAbsolute p = true
  normal : normalize p = p

theorem names_append_slash (a b : Text) : names (a ++ slash :: b) = names a ++ names b := by
  rw [names, Text.splitOn_append_self, List.filter_append, names, names]

theorem names_nil : names [] = [] := rfl

theorem names_slash (p : Text) : names (slash :: p) = names p := names_append_slash [] p

/-- The names of a relative path come after those of the directory that it is seen from. -/
theorem names_join (h : isAbsolute b = false) : names (join a b) = names a ++ names b := by
  unfold join
  rw [if_neg (by simp [h])]
  split
  · rename_i ha
    rcases List.eq_nil_or_concat a with rfl | ⟨front, c, rfl⟩
    · rfl
    · obtain rfl : c = slash := by simpa using ha
      rw [List.concat_eq_append, List.append_assoc, List.singleton_append, names_append_slash,
        names_append_slash, names_nil, List.append_nil]
  · exact names_append_slash a b

theorem mem_names (h : n ∈ names p) : slash ∉ n ∧ n ≠ [] ∧ n ≠ here := by
  rw [names, List.mem_filter] at h
  refine ⟨Text.not_mem_of_mem_splitOn h.1, ?_, ?_⟩
  · rintro rfl
    simp at h
  · rintro rfl
    simp at h

theorem splitOn_join_names (h : ∀ n ∈ ns, IsName n) :
    (Text.splitOn slash (Text.join [slash] ns)).filter (· != []) = ns := by
  cases ns with
  | nil => rfl
  | cons m ms =>
    rw [Text.splitOn_join (fun n hn => (h n hn).no_slash) (by simp), List.filter_eq_self]
    intro n hn
    simpa using (h n hn).ne_nil

theorem names_join_steps (h : ∀ n ∈ ns, IsStep n) : names (Text.join [slash] ns) = ns := by
  cases ns with
  | nil => rfl
  | cons m ms =>
    rw [names, Text.splitOn_join (fun n hn => (h n hn).no_slash) (by simp), List.filter_eq_self]
    intro n hn
    simpa using ⟨(h n hn).ne_nil, (h n hn).ne_here⟩

theorem names_join_names (h : ∀ n ∈ ns, IsName n) : names (Text.join [slash] ns) = ns :=
  names_join_steps fun n hn => (h n hn).isStep

/-- Steps that are joined do not begin with a slash. -/
theorem head?_join_steps (h : ∀ n ∈ ns, IsStep n) : (Text.join [slash] ns).head? ≠ some slash := by
  cases ns with
  | nil => simp [Text.join]
  | cons m ms =>
    have hm := h m List.mem_cons_self
    have hhead : (Text.join [slash] (m :: ms)).head? = m.head? := by
      cases ms with
      | nil => simp [Text.join]
      | cons k ms =>
        rw [Text.join, List.intercalate_cons_cons, List.append_assoc, List.head?_append,
          Option.or_of_isSome]
        simpa using hm.ne_nil
    rw [hhead]
    intro hs
    exact hm.no_slash (List.mem_of_mem_head? hs)

theorem head?_join_names (h : ∀ n ∈ ns, IsName n) : (Text.join [slash] ns).head? ≠ some slash :=
  head?_join_steps fun n hn => (h n hn).isStep

theorem IsLead.ne_nil (h : IsLead lead) : lead ≠ [] := by
  rcases h with rfl | rfl <;> simp

theorem write_of_ne_nil (h : lead ++ Text.join [slash] ns ≠ []) :
    write lead ns = lead ++ Text.join [slash] ns := by
  rw [write]
  exact if_neg (by simpa using h)

theorem IsLead.write_eq (h : IsLead lead) (ns : List Text) :
    write lead ns = lead ++ Text.join [slash] ns :=
  write_of_ne_nil (by simp [h.ne_nil])

theorem isAbsolute_write (h : IsLead lead) : isAbsolute (write lead ns) = true := by
  rw [h.write_eq]
  rcases h with rfl | rfl <;> rfl

theorem root_append (h : IsLead lead) (hp : p.head? ≠ some slash) : root (lead ++ p) = lead := by
  rcases h with rfl | rfl <;> cases p with
  | nil => rfl
  | cons c p =>
    have hc : c ≠ '/' := by simpa [slash] using hp
    simp [root, slash, hc]

theorem root_write_steps (h : IsLead lead) (hn : ∀ n ∈ ns, IsStep n) :
    root (write lead ns) = lead := by
  rw [h.write_eq, root_append h (head?_join_steps hn)]

theorem root_write (h : IsLead lead) (hn : ∀ n ∈ ns, IsName n) : root (write lead ns) = lead :=
  root_write_steps h fun n hm => (hn n hm).isStep

theorem names_lead (h : IsLead lead) (p : Text) : names (lead ++ p) = names p := by
  rcases h with rfl | rfl
  · exact names_slash p
  · exact (names_slash _).trans (names_slash p)

theorem names_write_steps (h : IsLead lead) (hn : ∀ n ∈ ns, IsStep n) :
    names (write lead ns) = ns := by
  rw [h.write_eq, names_lead h, names_join_steps hn]

theorem names_write (h : IsLead lead) (hn : ∀ n ∈ ns, IsName n) : names (write lead ns) = ns :=
  names_write_steps h fun n hm => (hn n hm).isStep

theorem isLead_root (h : isAbsolute p = true) : IsLead (root p) := by
  obtain ⟨rest, rfl⟩ : ∃ rest, p = slash :: rest := by
    cases p with
    | nil => simp [isAbsolute] at h
    | cons c rest => exact ⟨rest, by simpa [isAbsolute] using h⟩
  unfold root
  split
  · exact Or.inl rfl
  · exact Or.inr rfl
  · exact Or.inl rfl
  · rename_i hnot
    exact absurd rfl (hnot rest)

theorem root_of_relative (h : p.head? ≠ some slash) : root p = [] := by
  cases p with
  | nil => rfl
  | cons c p =>
    have hc : c ≠ '/' := by simpa [slash] using h
    simp [root, hc]

/-- Only names are on the stack while the steps of an absolute path are carried out. -/
theorem isName_foldl_pushName {stack : List Text} (hs : ∀ n ∈ stack, IsName n)
    (hn : ∀ n ∈ ns, slash ∉ n ∧ n ≠ [] ∧ n ≠ here) :
    ∀ n ∈ ns.foldl (pushName true) stack, IsName n := by
  induction ns generalizing stack with
  | nil => exact hs
  | cons m ms ih =>
    refine ih ?_ fun n hm => hn n (List.mem_cons_of_mem _ hm)
    obtain ⟨h1, h2, h3⟩ := hn m List.mem_cons_self
    intro n hmem
    unfold pushName at hmem
    split at hmem
    · split at hmem
      · simp at hmem
      · split at hmem
        · rename_i hlast
          exact absurd hlast (hs _ List.mem_cons_self).ne_up
        · exact hs n (List.mem_cons_of_mem _ hmem)
    · rename_i hup
      rcases List.mem_cons.mp hmem with rfl | hmem
      · exact ⟨h1, h2, h3, hup⟩
      · exact hs n hmem

theorem isName_resolved (h : isAbsolute p = true) : ∀ n ∈ resolved p, IsName n := by
  intro n hn
  rw [resolved, h, List.mem_reverse] at hn
  exact isName_foldl_pushName (by simp) (fun _ => mem_names) n hn

/-- Names are pushed one after the other. -/
theorem foldl_pushName_of_isName {absolute : Bool} (h : ∀ n ∈ ns, IsName n) (stack : List Text) :
    ns.foldl (pushName absolute) stack = ns.reverse ++ stack := by
  induction ns generalizing stack with
  | nil => rfl
  | cons m ms ih =>
    have hm : pushName absolute stack m = m :: stack :=
      if_neg (h m List.mem_cons_self).ne_up
    rw [List.foldl_cons, hm, ih fun n hn => h n (List.mem_cons_of_mem _ hn)]
    simp

theorem resolved_write (h : IsLead lead) (hn : ∀ n ∈ ns, IsName n) :
    resolved (write lead ns) = ns := by
  rw [resolved, names_write h hn, foldl_pushName_of_isName hn]
  simp

theorem normalize_write (h : IsLead lead) (hn : ∀ n ∈ ns, IsName n) :
    normalize (write lead ns) = write lead ns := by
  rw [normalize, root_write h hn, resolved_write h hn]

theorem isNormal_write (h : IsLead lead) (hn : ∀ n ∈ ns, IsName n) : IsNormal (write lead ns) :=
  ⟨isAbsolute_write h, normalize_write h hn⟩

theorem IsNormal.isLead (h : IsNormal p) : IsLead (root p) := isLead_root h.absolute

theorem IsNormal.names_eq (h : IsNormal p) : names p = resolved p := by
  have hp : p = write (root p) (resolved p) := h.normal.symm
  have hn := names_write h.isLead (isName_resolved h.absolute)
  rwa [← hp] at hn

/-- A path in normal form is its root and the names after it. -/
theorem IsNormal.eq_write (h : IsNormal p) : p = write (root p) (names p) := by
  rw [h.names_eq]
  exact h.normal.symm

theorem IsNormal.isName (h : IsNormal p) : ∀ n ∈ names p, IsName n := by
  rw [h.names_eq]
  exact isName_resolved h.absolute

theorem isNormal_normalize (h : isAbsolute p = true) : IsNormal (normalize p) :=
  isNormal_write (isLead_root h) (isName_resolved h)

theorem names_normalize (h : isAbsolute p = true) : names (normalize p) = resolved p :=
  names_write (isLead_root h) (isName_resolved h)

theorem root_normalize (h : isAbsolute p = true) : root (normalize p) = root p :=
  root_write (isLead_root h) (isName_resolved h)

theorem IsNormal.absolute_eq (h : IsNormal p) (cwd : Text) : Path.absolute cwd p = p := by
  rw [Path.absolute, if_pos h.absolute, h.normal]

theorem isAbsolute_join (ha : isAbsolute a = true) (b : Text) : isAbsolute (join a b) = true := by
  obtain ⟨rest, rfl⟩ : ∃ rest, a = slash :: rest := by
    cases a with
    | nil => simp [isAbsolute] at ha
    | cons c rest => exact ⟨rest, by simpa [isAbsolute] using ha⟩
  unfold join
  split
  · assumption
  · split <;> rfl

theorem isNormal_absolute {cwd : Text} (h : isAbsolute cwd = true) (p : Text) :
    IsNormal (Path.absolute cwd p) := by
  unfold Path.absolute
  split
  · exact isNormal_normalize ‹_›
  · exact isNormal_normalize (isAbsolute_join h p)

/-- A relative path seen from a directory keeps the slashes that the directory begins with. -/
theorem root_join_write (h : IsLead lead) (hn : ∀ n ∈ ns, IsName n) (hb : isAbsolute b = false) :
    root (join (write lead ns) b) = lead := by
  have hb' : b.head? ≠ some slash := by simpa [isAbsolute] using hb
  have hhead := head?_join_names hn
  rw [h.write_eq]
  unfold join
  rw [if_neg (by simp [hb])]
  cases hj : Text.join [slash] ns with
  | nil =>
    rw [List.append_nil]
    have hlast : (lead.isEmpty || lead.getLast? == some slash) = true := by
      rcases h with rfl | rfl <;> rfl
    rw [if_pos hlast, root_append h hb']
  | cons c rest =>
    rw [hj] at hhead
    split
    · rw [List.append_assoc, root_append h (by simpa using hhead)]
    · rw [List.append_assoc, root_append h (by simpa using hhead)]

theorem root_join (h : IsNormal a) (hb : isAbsolute b = false) : root (join a b) = root a := by
  have hj := root_join_write h.isLead h.isName hb
  rwa [← h.eq_write] at hj

/-- The steps of a relative path are carried out on the names of the directory. -/
theorem resolved_join (h : IsNormal a) (hb : isAbsolute b = false) :
    resolved (join a b) = ((names b).foldl (pushName true) (names a).reverse).reverse := by
  rw [resolved, isAbsolute_join h.absolute, names_join hb, List.foldl_append,
    foldl_pushName_of_isName h.isName, List.append_nil]

theorem cutAfterLast_append {sep : Char} (front : Text) {tail : Text} (h : sep ∉ tail) :
    Text.cutAfterLast sep (front ++ sep :: tail) = (front ++ [sep], tail) := by
  have ht : ((front ++ sep :: tail).reverse.takeWhile (· != sep)).reverse = tail := by
    rw [List.reverse_append, List.reverse_cons, List.append_assoc, List.takeWhile_append_of_pos]
    · simp
    · intro c hc
      have hc : c ∈ tail := List.mem_reverse.mp hc
      simpa using fun e : c = sep => h (e ▸ hc)
  rw [Text.cutAfterLast, ht]
  have hl : (front ++ sep :: tail).length - tail.length = (front ++ [sep]).length := by
    simp only [List.length_append, List.length_cons, List.length_nil]
    omega
  have hsplit : front ++ sep :: tail = (front ++ [sep]) ++ tail := by simp
  rw [hl, hsplit, List.take_left]

/-- The last character of joined names is not a slash. -/
theorem getLast?_join_names (h : ∀ n ∈ ns, IsName n) :
    (Text.join [slash] ns).getLast? ≠ some slash := by
  rcases List.eq_nil_or_concat ns with rfl | ⟨front, m, rfl⟩
  · simp [Text.join]
  · rw [List.concat_eq_append] at h ⊢
    have hm := h m (by simp)
    have hlast : (Text.join [slash] (front ++ [m])).getLast? = m.getLast? := by
      cases front with
      | nil => simp [Text.join]
      | cons k front =>
        rw [Text.join_concat (by simp), List.getLast?_append, List.getLast?_cons,
          List.getLast?_eq_some_getLast hm.ne_nil]
        rfl
    rw [hlast]
    intro hs
    exact hm.no_slash (List.mem_of_getLast? hs)

theorem trimSlashes_append (hp : p.getLast? ≠ some slash) : trimSlashes (p ++ [slash]) = p := by
  rw [trimSlashes, List.reverse_append, List.reverse_singleton, List.singleton_append,
    List.dropWhile_cons_of_pos (by simp)]
  rcases List.eq_nil_or_concat p with rfl | ⟨front, c, rfl⟩
  · rfl
  · have hc : c ≠ slash := by simpa using hp
    simp [hc]

/-- What is before the last slash, without slashes at its end unless it is made of slashes. -/
theorem directory_append_cons (before : Text) (h : slash ∉ n) :
    directory (before ++ slash :: n) =
      if (before ++ [slash]).all (· == slash) then before ++ [slash]
      else trimSlashes (before ++ [slash]) := by
  rw [directory, cutAfterLast_append before h]

/-- A path with names in it does not end with a slash. -/
theorem exists_getLast?_write (h : IsLead lead) (hne : ns ≠ []) (hn : ∀ n ∈ ns, IsName n) :
    ∃ c, (write lead ns).getLast? = some c ∧ c ≠ slash := by
  have hlast := getLast?_join_names hn
  have hjoin : Text.join [slash] ns ≠ [] := by
    intro hnil
    have hnames := names_join_names hn
    rw [hnil, names_nil] at hnames
    exact hne hnames.symm
  obtain ⟨c, hc⟩ := Option.isSome_iff_exists.mp (List.getLast?_isSome.mpr hjoin)
  refine ⟨c, ?_, ?_⟩
  · rw [h.write_eq, List.getLast?_append, hc]
    rfl
  · rw [hc] at hlast
    simpa using hlast

/-- The directory of a path is the path without its last name; a root is its own directory. -/
theorem directory_write (h : IsLead lead) (hn : ∀ n ∈ ns, IsName n) :
    directory (write lead ns) = write lead ns.dropLast := by
  have hall : lead.all (· == slash) = true := by
    rcases h with rfl | rfl <;> rfl
  obtain ⟨before, hbefore⟩ : ∃ before, lead = before ++ [slash] := by
    rcases h with rfl | rfl
    · exact ⟨[], rfl⟩
    · exact ⟨[slash], rfl⟩
  have hroot : ∀ n, slash ∉ n → directory (lead ++ n) = lead := by
    intro n hslash
    rw [hbefore, List.append_assoc, List.singleton_append, directory_append_cons before hslash,
      ← hbefore, if_pos hall]
  rcases List.eq_nil_or_concat ns with rfl | ⟨front, m, rfl⟩
  · have hlead : write lead [] = lead ++ [] := h.write_eq []
    rw [List.dropLast_nil, hlead, hroot [] List.not_mem_nil, List.append_nil]
  · rw [List.concat_eq_append] at hn ⊢
    rw [List.dropLast_concat]
    have hm := hn m (by simp)
    have hf : ∀ n ∈ front, IsName n := fun n hmem => hn n (by simp [hmem])
    by_cases hnil : front = []
    · subst hnil
      have hlead : write lead [] = lead ++ [] := h.write_eq []
      rw [h.write_eq, List.nil_append, Text.join, List.intercalate_singleton, hroot m hm.no_slash,
        hlead, List.append_nil]
    · obtain ⟨c, hc, hslash⟩ := exists_getLast?_write h hnil hf
      have hsplit : write lead (front ++ [m]) = write lead front ++ slash :: m := by
        rw [h.write_eq, h.write_eq, Text.join_concat hnil, List.append_assoc]
      have hnot : (write lead front ++ [slash]).all (· == slash) = false := by
        rw [List.all_eq_false]
        refine ⟨c, List.mem_append_left _ (List.mem_of_getLast? hc), ?_⟩
        simpa using hslash
      have hend : (write lead front).getLast? ≠ some slash := by
        rw [hc]
        simpa using hslash
      rw [hsplit, directory_append_cons _ hm.no_slash, if_neg (by simp [hnot]),
        trimSlashes_append hend]

theorem IsNormal.directory (h : IsNormal p) :
    IsNormal (directory p) ∧ root (Path.directory p) = root p ∧
      names (Path.directory p) = (names p).dropLast := by
  have hn : ∀ n ∈ (names p).dropLast, IsName n := fun n hn =>
    h.isName n (List.dropLast_subset _ hn)
  have hd : Path.directory p = write (root p) (names p).dropLast := by
    rw [← directory_write h.isLead h.isName, ← h.eq_write]
  rw [hd]
  exact ⟨isNormal_write h.isLead hn, root_write h.isLead hn, names_write h.isLead hn⟩

theorem mem_of_mem_names {c : Char} (hn : n ∈ names p) (hc : c ∈ n) : c ∈ p :=
  (Text.mem_of_mem_splitOn (List.mem_filter.mp hn).1 hc).1

/-- Carrying out steps takes names away from the end of a path, and puts some of the steps behind
what is left. -/
theorem exists_foldl_pushName (ns stack : List Text) :
    ∃ k new, ns.foldl (pushName true) stack = new ++ stack.drop k ∧ ∀ n ∈ new, n ∈ ns := by
  induction ns generalizing stack with
  | nil => exact ⟨0, [], rfl, by simp⟩
  | cons m ms ih =>
    have hstep : pushName true stack m = m :: stack ∨ pushName true stack m = stack.drop 1 := by
      unfold pushName
      split
      · rename_i hup
        split
        · exact Or.inr rfl
        · split
          · exact Or.inl (by rw [hup])
          · exact Or.inr rfl
      · exact Or.inl rfl
    obtain ⟨k, new, hnew, hmem⟩ := ih (pushName true stack m)
    have hmem' : ∀ n ∈ new, n ∈ m :: ms := fun n hn => List.mem_cons_of_mem _ (hmem n hn)
    rw [List.foldl_cons, hnew]
    rcases hstep with h | h
    · rw [h]
      cases k with
      | zero =>
        refine ⟨0, new ++ [m], by simp, fun n hn => ?_⟩
        rcases List.mem_append.mp hn with hn | hn
        · exact hmem' n hn
        · exact List.mem_singleton.mp hn ▸ List.mem_cons_self
      | succ k => exact ⟨k, new, rfl, hmem'⟩
    · exact ⟨1 + k, new, by rw [h, List.drop_drop], hmem'⟩

/-- Carrying out steps makes no new names. -/
theorem mem_foldl_pushName {stack : List Text} (h : n ∈ ns.foldl (pushName true) stack) :
    n ∈ stack ∨ n ∈ ns := by
  obtain ⟨k, new, hnew, hmem⟩ := exists_foldl_pushName ns stack
  rw [hnew, List.mem_append] at h
  exact h.symm.imp List.mem_of_mem_drop (hmem n)

/-- A relative path seen from a directory leads to a place below one of the directories above it
or itself, by names of its own. -/
theorem exists_names_normalize_join (h : IsNormal a) (hb : isAbsolute b = false) :
    ∃ k new, names (normalize (join a b)) = (names a).take k ++ new ∧ ∀ n ∈ new, n ∈ names b := by
  obtain ⟨k, new, hnew, hmem⟩ := exists_foldl_pushName (names b) (names a).reverse
  refine ⟨(names a).length - k, new.reverse, ?_, fun n hn => hmem n (List.mem_reverse.mp hn)⟩
  rw [names_normalize (isAbsolute_join h.absolute b), resolved_join h hb, hnew,
    List.reverse_append, List.drop_reverse, List.reverse_reverse]

/-- What a relative path seen from a directory comes to keeps the root of the directory, and has
no names but theirs. -/
theorem normalize_join_spec (h : IsNormal a) (hb : isAbsolute b = false) :
    IsNormal (normalize (join a b)) ∧ root (normalize (join a b)) = root a ∧
      ∀ n ∈ names (normalize (join a b)), n ∈ names a ∨ n ∈ names b := by
  have hn := isNormal_normalize (isAbsolute_join h.absolute b)
  refine ⟨hn, ?_, ?_⟩
  · rw [root_normalize (isAbsolute_join h.absolute b), root_join h hb]
  · intro n hmem
    rw [names_normalize (isAbsolute_join h.absolute b), resolved_join h hb,
      List.mem_reverse] at hmem
    simpa using mem_foldl_pushName hmem

theorem afterCommon_spec (as bs : List Text) :
    ∃ common, as = common ++ (afterCommon as bs).1 ∧ bs = common ++ (afterCommon as bs).2 := by
  induction as generalizing bs with
  | nil => exact ⟨[], by simp [afterCommon], by simp [afterCommon]⟩
  | cons a as ih =>
    cases bs with
    | nil => exact ⟨[], by simp [afterCommon], by simp [afterCommon]⟩
    | cons b bs =>
      by_cases hab : a = b
      · obtain ⟨common, h1, h2⟩ := ih bs
        rw [afterCommon, if_pos hab]
        exact ⟨a :: common, by rw [List.cons_append, ← h1], by rw [List.cons_append, ← h2, hab]⟩
      · rw [afterCommon, if_neg hab]
        exact ⟨[], rfl, rfl⟩

theorem absoluteNames_eq (h : IsNormal p) (cwd : Text) : absoluteNames cwd p = names p := by
  rw [absoluteNames, h.absolute_eq]
  conv =>
    lhs
    rw [h.eq_write, h.isLead.write_eq]
  rcases h.isLead with hl | hl <;> rw [hl]
  · rw [List.singleton_append, Text.splitOn_cons]
    exact splitOn_join_names h.isName
  · show (Text.splitOn slash (slash :: slash :: _)).filter _ = _
    rw [Text.splitOn_cons, Text.splitOn_cons]
    exact splitOn_join_names h.isName

theorem relative_eq {cwd start : Text} (hp : IsNormal p) (hs : IsNormal start) :
    relative cwd p start =
      write [] (List.replicate (afterCommon (names start) (names p)).1.length up ++
        (afterCommon (names start) (names p)).2) := by
  rw [← absoluteNames_eq hp cwd, ← absoluteNames_eq hs cwd]
  rfl

/-- A way that begins with a step upwards leaves its start. -/
theorem leavesStart_write_up (ns : List Text) : leavesStart (write [] (up :: ns)) = true := by
  cases ns with
  | nil => rfl
  | cons n ns =>
    have hjoin :
        Text.join [slash] (up :: n :: ns) = (up ++ [slash]) ++ Text.join [slash] (n :: ns) :=
      List.intercalate_cons_cons
    have hw : write [] (up :: n :: ns) = (up ++ [slash]) ++ Text.join [slash] (n :: ns) := by
      rw [write_of_ne_nil, List.nil_append, hjoin]
      rw [List.nil_append, hjoin]
      simp [up]
    have hstart : (write [] (up :: n :: ns)).startsWith (up ++ [slash]) = true :=
      Text.startsWith_iff.mpr ⟨_, hw⟩
    simp [leavesStart, hstart]

/-- A way that neither stays nor leaves its start is made of the names below the start. -/
theorem relative_spec {cwd start : Text} (hp : IsNormal p) (hs : IsNormal start)
    (hhere : relative cwd p start ≠ here) (hleaves : leavesStart (relative cwd p start) = false) :
    ∃ below, below ≠ [] ∧ names p = names start ++ below ∧
      relative cwd p start = Text.join [slash] below := by
  obtain ⟨common, hstart, htarget⟩ := afterCommon_spec (names start) (names p)
  rw [relative_eq hp hs] at hhere hleaves ⊢
  generalize (afterCommon (names start) (names p)).1 = rest at *
  generalize (afterCommon (names start) (names p)).2 = below at *
  cases rest with
  | nil =>
    rw [List.length_nil, List.replicate_zero, List.nil_append] at *
    have hbelow : below ≠ [] := by
      rintro rfl
      exact hhere rfl
    refine ⟨below, hbelow, by rw [htarget, hstart, List.append_nil], ?_⟩
    rw [write_of_ne_nil, List.nil_append]
    intro hnil
    exact hhere (by rw [write, hnil]; rfl)
  | cons r rest =>
    rw [List.length_cons, List.replicate_succ, List.cons_append, leavesStart_write_up] at hleaves
    cases hleaves

end Path
end ModuleGraph
