import ModuleGraph.Proofs.Files.Scan
import Mathlib

/-!
A scan covers what is below its root, whatever links there are.

* `Ready`: what is pending is what stands in visited directories, each entry once, and no directory
  below the root is visited before it is met under its own name;
* `Ready.enter`: a visit to a directory keeps that;
* `mem_scanFrom_of_file`: so every file below a pending directory of the root is found;
* `Finds.exists_lists`: directories are listed once for each place;
* `Finds.named_of_mem`: what is below the root is found under its own name only;
* `names_of_mem_scan`, `nodup_names_scan`: what is found has a name below the root, each its own;
* `scan_covers`: a scan of a directory.
-/

namespace ModuleGraph

namespace Path

variable {p n : Text}

theorem name_join (hp : IsNormal p) (hn : IsName n) : name (join p n) = n := by
  have hhead : n.head? ≠ some slash := fun h => hn.no_slash (List.mem_of_mem_head? h)
  have hrel : ¬ isAbsolute n = true := by simpa [isAbsolute] using hhead
  have hempty : p.isEmpty = false := by
    cases p with
    | nil => cases hp.absolute
    | cons => rfl
  rw [join, if_neg hrel, hempty, Bool.false_or, name]
  by_cases hlast : p.getLast? = some slash
  · obtain ⟨front, rfl⟩ := List.getLast?_eq_some_iff.mp hlast
    rw [if_pos (by simp), List.append_assoc, List.singleton_append,
      cutAfterLast_append front hn.no_slash]
  · rw [if_neg (by simpa using hlast), cutAfterLast_append p hn.no_slash]

/-- The path to an entry below a directory, one name after the other. -/
def descend (p : Text) (ns : List Text) : Text := ns.foldl join p

theorem descend_cons (p n : Text) (ns : List Text) :
    descend p (n :: ns) = descend (join p n) ns := rfl

theorem descend_concat (p : Text) (ns : List Text) (n : Text) :
    descend p (ns ++ [n]) = join (descend p ns) n := List.foldl_concat _ _ _ _

theorem isNormal_descend (hp : IsNormal p) {ns : List Text} (hn : ∀ n ∈ ns, IsName n) :
    IsNormal (descend p ns) := by
  induction ns generalizing p with
  | nil => exact hp
  | cons n ns ih =>
    exact ih (isNormal_join hp (hn n List.mem_cons_self)) fun m hm =>
      hn m (List.mem_cons_of_mem _ hm)

theorem root_descend (hp : IsNormal p) {ns : List Text} (hn : ∀ n ∈ ns, IsName n) :
    root (descend p ns) = root p := by
  induction ns generalizing p with
  | nil => rfl
  | cons n ns ih =>
    have hname := hn n List.mem_cons_self
    have hrelative : isAbsolute n = false := by
      rw [isAbsolute, beq_eq_false_iff_ne]
      exact fun h => hname.no_slash (List.mem_of_mem_head? h)
    rw [descend_cons, ih (isNormal_join hp hname) fun m hm => hn m (List.mem_cons_of_mem _ hm),
      root_join hp hrelative]

theorem names_descend (hp : IsNormal p) {ns : List Text} (hn : ∀ n ∈ ns, IsName n) :
    names (descend p ns) = names p ++ ns := by
  induction ns generalizing p with
  | nil => exact (List.append_nil _).symm
  | cons n ns ih =>
    have hname := hn n List.mem_cons_self
    rw [descend_cons, ih (isNormal_join hp hname) fun m hm => hn m (List.mem_cons_of_mem _ hm),
      names_join_name hp hname, List.append_assoc, List.singleton_append]

theorem name_descend (hp : IsNormal p) {ns : List Text} (hn : ∀ m ∈ ns ++ [n], IsName m) :
    name (descend p (ns ++ [n])) = n := by
  rw [descend_concat]
  exact name_join (isNormal_descend hp fun m hm => hn m (List.mem_append_left _ hm))
    (hn n (by simp))

end Path

namespace Scan

open ModuleGraph.Path (descend)

variable {t : Tree} {cwd path top : Text} {rules : ScanRules} {root D q : Place}
  {visited : List Place} {pending rest : List Text} {n : Text}

section Entries

variable (ht : t.WellFormed) (hpath : Path.IsNormal path) (hl : t.locate true [] path = .ok D)
  (hD : t.find? D = some .directory)
include ht hpath hl hD

/-- An entry of a directory stands in that directory, whichever way the path takes. -/
theorem locate_entry (hn : n ∈ t.names D) :
    Path.IsName n ∧ t.locate false [] (Path.join path n) = .ok (D ++ [n]) := by
  have hname : Path.IsName n := ht.isName_of_find? (Tree.mem_names.mp hn) n (by simp)
  obtain ⟨k, hk⟩ := Tree.locate_join hpath hl hD hname
  exact ⟨hname, by rw [hk, Tree.walk_singleton hname]⟩

theorem exists_of_mem_entriesOf {p : Text} (hp : p ∈ entriesOf t path D) :
    ∃ n ∈ t.names D, Path.IsName n ∧ p = Path.join path n ∧
      t.locate false [] p = .ok (D ++ [n]) := by
  obtain ⟨n, hn, rfl⟩ := List.mem_map.mp hp
  obtain ⟨hname, hlocate⟩ := locate_entry ht hpath hl hD hn
  exact ⟨n, hn, hname, rfl, hlocate⟩

/-- The first name on the way from a directory to a file is that of an entry. -/
theorem entry_of_file {ns : List Text} {bytes : Bytes}
    (hf : t.find? (D ++ n :: ns) = some (.file bytes)) : Path.IsName n ∧
      Path.join path n ∈ entriesOf t path D ∧
      t.locate false [] (Path.join path n) = .ok (D ++ [n]) := by
  have hn : n ∈ t.names D := Tree.mem_names.mpr fun hnone => by
    rw [List.append_cons, ht.find?_append_of_none hnone] at hf
    cases hf
  obtain ⟨hname, hown⟩ := locate_entry ht hpath hl hD hn
  exact ⟨hname, List.mem_map_of_mem hn, hown⟩

/-- No entry is named twice. -/
theorem pairwise_entriesOf :
    (entriesOf t path D).Pairwise fun p q => t.locate false [] p ≠ t.locate false [] q := by
  rw [entriesOf, List.pairwise_map]
  refine (ht.nodup_names D).imp_of_mem fun {m n} hm hn hne heq => ?_
  rw [(locate_entry ht hpath hl hD hm).2, (locate_entry ht hpath hl hD hn).2, Except.ok.injEq,
    List.append_cancel_left_eq, List.singleton_inj] at heq
  exact hne heq

end Entries

/-- What is pending stands in visited directories, each entry once. The root is visited, and with
a directory below it the one that it stands in; what is pending below it is not. -/
structure Ready (t : Tree) (root : Place) (visited : List Place) (pending : List Text) : Prop where
  normal : ∀ p ∈ pending, Path.IsNormal p
  entry : ∀ p ∈ pending, ∃ D n, t.locate false [] p = .ok (D ++ [n]) ∧ D ∈ visited
  distinct : pending.Pairwise fun p q => t.locate false [] p ≠ t.locate false [] q
  root_mem : root ∈ visited
  above : ∀ D n, root <+: D → D ++ [n] ∈ visited → D ∈ visited
  fresh : ∀ p ∈ pending, ∀ q, t.locate false [] p = .ok q → root <+: q → q ≠ root → q ∉ visited

theorem Ready.tail (h : Ready t root visited (path :: rest)) : Ready t root visited rest where
  normal p hp := h.normal p (List.mem_cons_of_mem _ hp)
  entry p hp := h.entry p (List.mem_cons_of_mem _ hp)
  distinct := (List.pairwise_cons.mp h.distinct).2
  root_mem := h.root_mem
  above := h.above
  fresh p hp := h.fresh p (List.mem_cons_of_mem _ hp)

section Visit

variable (h : Ready t root visited (path :: rest)) (hl : t.locate true [] path = .ok D)
  (hlink : ¬ (t.isLink [] path && root.isPrefixOf D) = true)
include h hl hlink

/-- A directory of the root is met under its own name, for links to it are skipped. -/
theorem Ready.locate_false (hunder : root <+: D) : t.locate false [] path = .ok D := by
  obtain ⟨E, n, hown, -⟩ := h.entry path List.mem_cons_self
  have hnot : t.isLink [] path = false := by
    rw [List.isPrefixOf_iff_prefix.mpr hunder, Bool.and_true] at hlink
    exact Bool.not_eq_true _ ▸ hlink
  have hsame := Tree.locate_true_of_not_isLink hown hnot
  rw [hown, ← hsame, hl]

/-- A visit to a directory leaves its entries pending. -/
theorem Ready.enter (ht : t.WellFormed) (hnew : D ∈ t.directories ∧ D ∉ visited) :
    Ready t root (D :: visited) (entriesOf t path D ++ rest) := by
  have hnormal := h.normal path List.mem_cons_self
  have hD := ht.mem_directories.mp hnew.1
  have hentry : ∀ p ∈ entriesOf t path D, ∃ n ∈ t.names D, Path.IsName n ∧ p = Path.join path n ∧
      t.locate false [] p = .ok (D ++ [n]) := fun p => exists_of_mem_entriesOf ht hnormal hl hD
  obtain ⟨hfirst, hrest⟩ := List.pairwise_cons.mp h.distinct
  have hother : ∀ p ∈ rest, ∃ E n, t.locate false [] p = .ok (E ++ [n]) ∧ E ∈ visited :=
    h.tail.entry
  refine ⟨fun p hp => ?_, fun p hp => ?_, ?_, List.mem_cons_of_mem _ h.root_mem,
    fun E n hunder hE => ?_, fun p hp q hq hunder hne hmem => ?_⟩
  · rcases List.mem_append.mp hp with hp | hp
    · exact Tree.isNormal_entriesOf ht hnormal p hp
    · exact h.tail.normal p hp
  · rcases List.mem_append.mp hp with hp | hp
    · obtain ⟨n, -, -, -, hown⟩ := hentry p hp
      exact ⟨D, n, hown, List.mem_cons_self⟩
    · obtain ⟨E, n, hown, hE⟩ := hother p hp
      exact ⟨E, n, hown, List.mem_cons_of_mem _ hE⟩
  · refine List.pairwise_append.mpr ⟨pairwise_entriesOf ht hnormal hl hD, hrest, ?_⟩
    intro p hp q hq heq
    obtain ⟨n, -, -, -, hown⟩ := hentry p hp
    obtain ⟨E, m, hown', hE⟩ := hother q hq
    rw [hown, hown', Except.ok.injEq] at heq
    exact hnew.2 ((List.append_inj' heq rfl).1 ▸ hE)
  · rcases List.mem_cons.mp hE with hE | hE
    · -- the directory stands in the one that its own name leads through
      have hown := h.locate_false hl hlink (hE ▸ hunder.trans (List.prefix_append E [n]))
      obtain ⟨E', m, hown', hE'⟩ := h.entry path List.mem_cons_self
      rw [hown, Except.ok.injEq, ← hE] at hown'
      exact List.mem_cons_of_mem _ ((List.append_inj' hown' rfl).1 ▸ hE')
    · exact List.mem_cons_of_mem _ (h.above E n hunder hE)
  · rcases List.mem_append.mp hp with hp | hp
    · obtain ⟨n, -, -, -, hown⟩ := hentry p hp
      rw [hown, Except.ok.injEq] at hq
      subst hq
      have hunderD : root <+: D := by
        rcases List.prefix_concat_iff.mp hunder with heq | hunder
        · exact absurd heq.symm hne
        · exact hunder
      rcases List.mem_cons.mp hmem with heq | hmem
      · exact absurd (congrArg List.length heq) (by simp)
      · exact hnew.2 (h.above D n hunderD hmem)
    · rcases List.mem_cons.mp hmem with heq | hmem
      · rw [heq] at hq hunder
        exact hfirst p hp ((h.locate_false hl hlink hunder).trans hq.symm)
      · exact h.tail.fresh p hp q hq hunder hne hmem

end Visit

/-- A path to what is no link leads there. -/
theorem locate_of_find? (hl : t.locate false [] path = .ok q) {e : Entry}
    (hf : t.find? q = some e) (hne : ∀ target, e ≠ .link target) :
    t.locate true [] path = .ok q ∧ t.isLink [] path = false ∧ t.stat [] path = .ok e := by
  have hlink : t.isLink [] path = false := by
    rw [Tree.isLink, hl]
    cases e with
    | link target => exact absurd rfl (hne target)
    | _ => simp [hf]
  have htrue := Tree.locate_true_of_not_isLink hl hlink
  exact ⟨htrue, hlink, Tree.stat_eq_ok.mpr ⟨q, htrue, hf⟩⟩

theorem not_passed_of_file (hl : t.locate false [] path = .ok q)
    {bytes : Bytes} (hf : t.find? q = some (.file bytes))
    (htakes : rules.takes (Path.name path) = true) : ¬ Passed t rules root visited path := by
  obtain ⟨-, -, hstat⟩ := locate_of_find? hl hf (by simp)
  rintro (h | ⟨h, -⟩ | ⟨h, -, -⟩ | ⟨h, -, -⟩ | ⟨h, -, hnot⟩)
  · simp [hstat] at h
  · simp [hstat] at h
  · simp [hstat] at h
  · simp [hstat] at h
  · exact hnot htakes

/-- A directory of the root is not passed over unless it is excluded. -/
theorem Ready.not_passed_of_directory (ht : t.WellFormed)
    (h : Ready t root visited (path :: rest)) (hl : t.locate false [] path = .ok q)
    (hunder : root <+: q) (hne : q ≠ root) (hf : t.find? q = some .directory)
    (hexclude : rules.excludes (Path.name path) = false) : ¬ Passed t rules root visited path := by
  obtain ⟨htrue, hlink, hstat⟩ := locate_of_find? hl hf (by simp)
  rintro (hs | ⟨-, hexcluded⟩ | ⟨-, -, hlinked⟩ | ⟨-, hl', hknown⟩ | ⟨hs, hno, -⟩)
  · simp [hstat] at hs
  · simp [hexclude] at hexcluded
  · simp [hlink] at hlinked
  · rw [htrue, Except.ok.injEq] at hl'
    exact hknown (hl' ▸ ⟨ht.mem_directories.mpr hf,
      h.fresh path List.mem_cons_self q hl hunder hne⟩)
  · rw [hstat, Except.ok.injEq] at hs
    exact hno hs.symm

/-- Every file below a pending directory of the root is found, if no directory on the way is
excluded. -/
theorem Finds.mem_of_file (ht : t.WellFormed) {found : List Text}
    (h : Finds t rules root visited pending found) (hready : Ready t root visited pending)
    {p : Text} {ns : List Text} {bytes : Bytes} (hp : p ∈ pending)
    (hl : t.locate false [] p = .ok q) (hunder : root <+: q) (hne : q ≠ root)
    (hexclude : ∀ m ∈ (Path.name p :: ns).dropLast, rules.excludes m = false)
    (htakes : rules.takes ((Path.name p :: ns).getLast (List.cons_ne_nil _ _)) = true)
    (hf : t.find? (q ++ ns) = some (.file bytes)) : descend p ns ∈ found := by
  have habove : ∀ {q ns}, t.find? (q ++ ns) = some (.file bytes) → ns ≠ [] →
      t.find? q = some .directory := fun hf hns =>
    ht.find?_above hns (by rw [hf]; exact Option.some_ne_none _)
  induction h generalizing p q ns with
  | nil => exact absurd hp List.not_mem_nil
  | pass hpassed hrest ih =>
    rcases List.mem_cons.mp hp with rfl | hp
    · cases ns with
      | nil =>
        rw [List.append_nil] at hf
        exact absurd hpassed (not_passed_of_file hl hf htakes)
      | cons m ns =>
        exact absurd hpassed (hready.not_passed_of_directory ht hl hunder hne
          (habove hf (List.cons_ne_nil m ns)) (hexclude _ (by simp)))
    · exact ih hready.tail hp hl hunder hne hexclude htakes hf
  | @enter visited path rest found D hexclude' hl' hlink hnew hrest ih =>
    have hready' := hready.enter hl' hlink ht hnew
    rcases List.mem_cons.mp hp with rfl | hp
    · have hD := ht.mem_directories.mp hnew.1
      have hnormal := hready.normal p hp
      cases ns with
      | nil =>
        rw [List.append_nil] at hf
        obtain ⟨htrue, -, -⟩ := locate_of_find? hl hf (by simp)
        rw [htrue, Except.ok.injEq] at hl'
        rw [← hl', hf] at hD
        cases hD
      | cons m ns =>
        obtain ⟨htrue, -, -⟩ := locate_of_find? hl (habove hf (List.cons_ne_nil m ns)) (by simp)
        rw [htrue, Except.ok.injEq] at hl'
        subst hl'
        obtain ⟨hname, hmem, hown⟩ := entry_of_file ht hnormal htrue hD hf
        have hne' : q ++ [m] ≠ root := fun heq => by
          have hlength := hunder.length_le
          rw [← heq, List.length_append, List.length_singleton] at hlength
          omega
        rw [Path.descend_cons]
        refine ih hready' (List.mem_append_left _ hmem) hown
          (hunder.trans (List.prefix_append q [m])) hne' (fun x hx => ?_) ?_
          (by rwa [← List.append_cons])
        · rw [Path.name_join hnormal hname] at hx
          exact hexclude x (List.mem_cons_of_mem _ hx)
        · rw [List.getLast_cons (List.cons_ne_nil _ _)] at htakes
          simpa only [Path.name_join hnormal hname] using htakes
    · exact ih hready' (List.mem_append_right _ hp) hl hunder hne hexclude htakes hf
  | take hstat hne' htakes' hrest ih =>
    rcases List.mem_cons.mp hp with rfl | hp
    · cases ns with
      | nil => exact List.mem_cons_self
      | cons m ns =>
        obtain ⟨-, -, hstat'⟩ := locate_of_find? hl (habove hf (List.cons_ne_nil m ns)) (by simp)
        rw [hstat, Except.ok.injEq] at hstat'
        exact absurd hstat' hne'
    · exact List.mem_cons_of_mem _ (ih hready.tail hp hl hunder hne hexclude htakes hf)

/-- What holds of what is pending holds of what is found, if it holds of the entries of the
directories that are entered. -/
theorem Finds.forall_mem {P : Text → Prop} (ht : t.WellFormed) {found : List Text}
    (h : Finds t rules root visited pending found) (hready : Ready t root visited pending)
    (hpending : ∀ p ∈ pending, P p)
    (henter : ∀ {visited : List Place} {path : Text} {rest : List Text} {D : Place},
      Ready t root visited (path :: rest) → P path → rules.excludes (Path.name path) = false →
      t.locate true [] path = .ok D → ¬ (t.isLink [] path && root.isPrefixOf D) = true →
      D ∈ t.directories ∧ D ∉ visited → ∀ p ∈ entriesOf t path D, P p) :
    ∀ p ∈ found, P p := by
  induction h with
  | nil => exact fun p hp => absurd hp List.not_mem_nil
  | pass hpassed hrest ih => exact ih hready.tail (List.forall_mem_cons.mp hpending).2
  | enter hexclude hl hlink hnew hrest ih =>
    obtain ⟨hpath, hlater⟩ := List.forall_mem_cons.mp hpending
    exact ih (hready.enter hl hlink ht hnew) (List.forall_mem_append.mpr
      ⟨henter hready hpath hexclude hl hlink hnew, hlater⟩)
  | take hstat hne htakes hrest ih =>
    obtain ⟨hpath, hlater⟩ := List.forall_mem_cons.mp hpending
    exact List.forall_mem_cons.mpr ⟨hpath, ih hready.tail hlater⟩

/-- What is found stands below the directory that the scan began with, and so does what is pending.
No directory on the way is excluded. -/
def Below (rules : ScanRules) (top path : Text) : Prop :=
  ∃ ns n, path = descend top (ns ++ [n]) ∧ (∀ m ∈ ns ++ [n], Path.IsName m) ∧
    ∀ m ∈ ns, rules.excludes m = false

theorem Finds.below_of_mem (ht : t.WellFormed) (htop : Path.IsNormal top) {found : List Text}
    (h : Finds t rules root visited pending found) (hready : Ready t root visited pending)
    (hpending : ∀ p ∈ pending, Below rules top p) : ∀ p ∈ found, Below rules top p := by
  refine h.forall_mem ht hready hpending ?_
  intro visited path rest D hready hpath hexclude hl hlink hnew p hp
  obtain ⟨m, -, hm, rfl, -⟩ := exists_of_mem_entriesOf ht
    (hready.normal path List.mem_cons_self) hl (ht.mem_directories.mp hnew.1) hp
  obtain ⟨ns, n, rfl, hnames, hns⟩ := hpath
  rw [Path.name_descend htop hnames] at hexclude
  refine ⟨ns ++ [n], m, (Path.descend_concat _ _ _).symm, fun x hx => ?_, fun x hx => ?_⟩
  · rcases List.mem_append.mp hx with hx | hx
    · exact hnames x hx
    · exact List.mem_singleton.mp hx ▸ hm
  · rcases List.mem_append.mp hx with hx | hx
    · exact hns x hx
    · exact List.mem_singleton.mp hx ▸ hexclude

/-- What stands below the root is pending under its own name only. -/
def Named (t : Tree) (root : Place) (top path : Text) : Prop :=
  ∀ ns n, t.locate false [] path = .ok (root ++ (ns ++ [n])) → path = descend top (ns ++ [n])

theorem Finds.named_of_mem (ht : t.WellFormed) {found : List Text}
    (h : Finds t rules root visited pending found) (hready : Ready t root visited pending)
    (hpending : ∀ p ∈ pending, Named t root top p) : ∀ p ∈ found, Named t root top p := by
  refine h.forall_mem ht hready hpending ?_
  intro visited path rest D hready hpath hexclude hl hlink hnew p hp
  obtain ⟨m, -, -, rfl, hown⟩ := exists_of_mem_entriesOf ht
    (hready.normal path List.mem_cons_self) hl (ht.mem_directories.mp hnew.1) hp
  intro ns n hn
  rw [hown, Except.ok.injEq, ← List.append_assoc] at hn
  obtain ⟨rfl, hm⟩ := List.append_inj' hn rfl
  rw [List.singleton_inj] at hm
  -- the root itself is not visited again
  obtain ⟨front, last, rfl⟩ : ∃ front last, ns = front ++ [last] := by
    rcases List.eq_nil_or_concat ns with rfl | ⟨front, last, hconcat⟩
    · rw [List.append_nil] at hnew
      exact absurd hready.root_mem hnew.2
    · exact ⟨front, last, hconcat.trans (List.concat_eq_append ..)⟩
  have hown' := hpath front last (hready.locate_false hl hlink (List.prefix_append _ _))
  rw [Path.descend_concat, ← hown', hm]

/-- The directories that are listed, with the places that they lead to. No place is listed twice,
and what is found are the files that are asked for among what is pending and what is listed. -/
structure Lists (t : Tree) (rules : ScanRules) (visited : List Place) (pending : List Text)
    (listed : List (Text × Place)) (found : List Text) : Prop where
  distinct : (listed.map (·.2)).Nodup
  fresh : ∀ d ∈ listed, d.2 ∉ visited
  normal : ∀ d ∈ listed, Path.IsNormal d.1
  leads : ∀ d ∈ listed, t.locate true [] d.1 = .ok d.2 ∧ t.find? d.2 = some .directory
  mem_found : ∀ path, path ∈ found ↔
    (path ∈ pending ∨ ∃ d ∈ listed, path ∈ entriesOf t d.1 d.2) ∧
      t.isFile [] path = true ∧ rules.takes (Path.name path) = true
  once : found.Pairwise fun p q => t.locate false [] p ≠ t.locate false [] q

theorem Passed.not_found (h : Passed t rules root visited path) :
    ¬ (t.isFile [] path = true ∧ rules.takes (Path.name path) = true) := by
  rintro ⟨hfile, htakes⟩
  rw [Tree.isFile] at hfile
  rcases h with h | ⟨h, -⟩ | ⟨h, -, -⟩ | ⟨h, -, -⟩ | ⟨-, -, hnot⟩
  · simp [h] at hfile
  · simp [h] at hfile
  · simp [h] at hfile
  · simp [h] at hfile
  · exact hnot htakes

/-- What is passed over is found nowhere. -/
theorem Lists.pass {listed : List (Text × Place)} {found : List Text}
    (h : Lists t rules visited rest listed found)
    (hnot : ¬ (t.isFile [] path = true ∧ rules.takes (Path.name path) = true)) :
    Lists t rules visited (path :: rest) listed found := by
  refine { h with mem_found := fun p => ?_ }
  rw [h.mem_found, List.mem_cons, or_assoc]
  refine and_congr_left fun hp => (or_iff_right ?_).symm
  rintro rfl
  exact hnot hp

/-- A directory that is visited is listed before those that are visited after it. -/
theorem Lists.enter {listed : List (Text × Place)} {found : List Text}
    (h : Lists t rules (D :: visited) (entriesOf t path D ++ rest) listed found)
    (hpath : Path.IsNormal path) (hl : t.locate true [] path = .ok D)
    (hD : t.find? D = some .directory) (hnew : D ∉ visited) :
    Lists t rules visited rest ((path, D) :: listed) found where
  distinct := by
    refine List.nodup_cons.mpr ⟨fun hmem => ?_, h.distinct⟩
    obtain ⟨d, hd, hsame⟩ := List.mem_map.mp hmem
    exact h.fresh d hd (hsame ▸ List.mem_cons_self)
  fresh := List.forall_mem_cons.mpr
    ⟨hnew, fun d hd hmem => h.fresh d hd (List.mem_cons_of_mem _ hmem)⟩
  normal := List.forall_mem_cons.mpr ⟨hpath, h.normal⟩
  leads := List.forall_mem_cons.mpr ⟨⟨hl, hD⟩, h.leads⟩
  mem_found p := by
    rw [h.mem_found, List.mem_append, List.exists_mem_cons_iff, or_assoc, or_left_comm]
  once := h.once

theorem Finds.exists_lists (ht : t.WellFormed) {found : List Text}
    (h : Finds t rules root visited pending found) (hready : Ready t root visited pending) :
    ∃ listed, Lists t rules visited pending listed found := by
  induction h with
  | nil => exact ⟨[], by simp, by simp, by simp, by simp, by simp, .nil⟩
  | pass hpassed hrest ih =>
    obtain ⟨listed, hlists⟩ := ih hready.tail
    exact ⟨listed, hlists.pass hpassed.not_found⟩
  | @enter visited path rest found D hexclude hl hlink hnew hrest ih =>
    obtain ⟨listed, hlists⟩ := ih (hready.enter hl hlink ht hnew)
    have hD := ht.mem_directories.mp hnew.1
    refine ⟨_, (hlists.enter (hready.normal path List.mem_cons_self) hl hD hnew.2).pass ?_⟩
    rw [Tree.isFile, Tree.stat_eq_ok.mpr ⟨D, hl, hD⟩]
    simp
  | @take visited path rest found e hstat hne htakes hrest ih =>
    obtain ⟨listed, hlists⟩ := ih hready.tail
    have hfile := Tree.isFile_of_stat ht (hready.normal path List.mem_cons_self) hstat hne
    refine ⟨listed, { hlists with mem_found := fun p => ?_, once := ?_ }⟩
    · rw [List.mem_cons, hlists.mem_found, List.mem_cons, or_assoc]
      constructor
      · rintro (rfl | ⟨hp, htaken⟩)
        · exact ⟨Or.inl rfl, hfile, htakes⟩
        · exact ⟨Or.inr hp, htaken⟩
      · rintro ⟨hp, htaken⟩
        exact hp.imp_right fun hp => ⟨hp, htaken⟩
    · -- what is found later stands beside this path, or in a directory that is visited later
      refine List.pairwise_cons.mpr ⟨fun p hp heq => ?_, hlists.once⟩
      rcases ((hlists.mem_found p).mp hp).1 with hp | ⟨d, hd, hp⟩
      · exact (List.pairwise_cons.mp hready.distinct).1 p hp heq
      · obtain ⟨hl, hD⟩ := hlists.leads d hd
        obtain ⟨n, -, -, -, hown⟩ := exists_of_mem_entriesOf ht (hlists.normal d hd) hl hD hp
        obtain ⟨E, m, hown', hE⟩ := hready.entry path List.mem_cons_self
        rw [hown, hown', Except.ok.injEq] at heq
        exact hlists.fresh d hd ((List.append_inj' heq rfl).1 ▸ hE)

/-- What is found in the end are the files in what is listed. -/
theorem Lists.mem_iff (ht : t.WellFormed) {listed : List (Text × Place)} {found : List Text}
    (h : Lists t rules [] [] listed found) (cwd path : Text) :
    path ∈ found ↔ ∃ d ∈ listed, ∃ n ∈ t.names d.2,
      path = Path.join d.1 n ∧ t.isFile cwd path = true ∧ rules.takes n = true := by
  have hname : ∀ d ∈ listed, ∀ n ∈ t.names d.2, Path.IsName n := fun d hd n hn =>
    (locate_entry ht (h.normal d hd) (h.leads d hd).1 (h.leads d hd).2 hn).1
  have hfile : ∀ d ∈ listed, ∀ n ∈ t.names d.2,
      t.isFile cwd (Path.join d.1 n) = t.isFile [] (Path.join d.1 n) := fun d hd n hn =>
    Tree.isFile_cwd (Path.isNormal_join (h.normal d hd) (hname d hd n hn)) cwd []
  rw [h.mem_found]
  constructor
  · rintro ⟨hpath | ⟨d, hd, hpath⟩, hisFile, htakes⟩
    · exact absurd hpath List.not_mem_nil
    · obtain ⟨n, hn, rfl⟩ := List.mem_map.mp hpath
      rw [Path.name_join (h.normal d hd) (hname d hd n hn)] at htakes
      exact ⟨d, hd, n, hn, rfl, (hfile d hd n hn).trans hisFile, htakes⟩
  · rintro ⟨d, hd, n, hn, rfl, hisFile, htakes⟩
    rw [Path.name_join (h.normal d hd) (hname d hd n hn), ← hfile d hd n hn]
    exact ⟨Or.inr ⟨d, hd, List.mem_map_of_mem hn⟩, hisFile, htakes⟩

section Root

variable (ht : t.WellFormed) (htop : Path.IsNormal top) (hl : t.locate true [] top = .ok root)
  (hroot : t.find? root = some .directory)
include ht htop hl hroot

/-- A scan begins with what stands in the root. -/
theorem ready_entriesOf : Ready t root [root] (entriesOf t top root) := by
  have hentry : ∀ p ∈ entriesOf t top root, ∃ n ∈ t.names root, Path.IsName n ∧
      p = Path.join top n ∧ t.locate false [] p = .ok (root ++ [n]) := fun p =>
    exists_of_mem_entriesOf ht htop hl hroot
  refine ⟨Tree.isNormal_entriesOf ht htop, fun p hp => ?_, pairwise_entriesOf ht htop hl hroot,
    List.mem_singleton_self root, fun D n hunder hD => ?_, fun p hp q hq hunder hne hmem => ?_⟩
  · obtain ⟨n, -, -, -, hown⟩ := hentry p hp
    exact ⟨root, n, hown, List.mem_singleton_self root⟩
  · have hlength := hunder.length_le
    rw [← List.mem_singleton.mp hD, List.length_append, List.length_singleton] at hlength
    omega
  · exact hne (List.mem_singleton.mp hmem)

theorem mem_scanFrom_of_file {ns : List Text} {bytes : Bytes}
    (hf : t.find? (root ++ (ns ++ [n])) = some (.file bytes))
    (hexclude : ∀ m ∈ ns, rules.excludes m = false) (htakes : rules.takes n = true) :
    descend top (ns ++ [n]) ∈ (scanFrom t rules root [root] (entriesOf t top root)).paths := by
  obtain ⟨m, ms, hcons⟩ := List.exists_cons_of_ne_nil (l := ns ++ [n]) (by simp)
  rw [hcons] at hf
  obtain ⟨hname, hmem, hown⟩ := entry_of_file ht htop hl hroot hf
  rw [List.append_cons] at hf
  rw [hcons, Path.descend_cons]
  refine (finds_scanFrom t rules root [root] _).mem_of_file ht (ready_entriesOf ht htop hl hroot)
    hmem hown (List.prefix_append _ _) (by simp) ?_ ?_ hf
  · simpa only [Path.name_join htop hname, ← hcons, List.dropLast_concat] using hexclude
  · simpa only [Path.name_join htop hname, ← hcons, List.getLast_concat] using htakes

theorem below_of_mem_entriesOf (rules : ScanRules) :
    ∀ p ∈ entriesOf t top root, Below rules top p := by
  intro p hp
  obtain ⟨n, -, hn, rfl, -⟩ := exists_of_mem_entriesOf ht htop hl hroot hp
  exact ⟨[], n, rfl, by simpa using hn, by simp⟩

theorem named_of_mem_entriesOf : ∀ p ∈ entriesOf t top root, Named t root top p := by
  intro p hp ns n hown
  obtain ⟨m, -, -, rfl, hown'⟩ := exists_of_mem_entriesOf ht htop hl hroot hp
  rw [hown', Except.ok.injEq, List.append_cancel_left_eq] at hown
  rw [← hown]
  rfl

/-- What a scan finds stands at different places. -/
theorem Finds.once {found : List Text}
    (h : Finds t rules root [root] (entriesOf t top root) found) :
    found.Pairwise fun p q => t.locate false [] p ≠ t.locate false [] q := by
  obtain ⟨listed, hlists⟩ := h.exists_lists ht (ready_entriesOf ht htop hl hroot)
  exact hlists.once

end Root
end Scan

namespace Tree

open ModuleGraph.Path (descend)
open Scan

variable {t : Tree} {cwd root : Text}

/-- What a scan finds is named by its root and the names below it. -/
theorem exists_descend_of_mem_scan {rules : ScanRules} {scanned : Scanned} {path : Text}
    (ht : t.WellFormed) (hcwd : Path.isAbsolute cwd = true)
    (h : t.scan cwd root rules = .ok scanned) (hpath : path ∈ scanned.paths) :
    ∃ ns n, path = descend (Path.absolute cwd root) (ns ++ [n]) ∧
      ∀ m ∈ ns ++ [n], Path.IsName m := by
  have htop := Path.isNormal_absolute hcwd root
  obtain ⟨place, hl, hD, hfinds⟩ := exists_finds htop h
  obtain ⟨ns, n, heq, hnames, -⟩ := hfinds.below_of_mem ht htop (ready_entriesOf ht htop hl hD)
    (below_of_mem_entriesOf ht htop hl hD rules) path hpath
  exact ⟨ns, n, heq, hnames⟩

/-- What a scan finds is in normal form, with the slashes that its root begins with. -/
theorem root_of_mem_scan {rules : ScanRules} {scanned : Scanned} {path : Text}
    (ht : t.WellFormed) (hcwd : Path.isAbsolute cwd = true)
    (h : t.scan cwd root rules = .ok scanned) (hpath : path ∈ scanned.paths) :
    Path.IsNormal path ∧ Path.root path = Path.root (Path.absolute cwd root) := by
  have htop := Path.isNormal_absolute hcwd root
  obtain ⟨ns, n, rfl, hnames⟩ := exists_descend_of_mem_scan ht hcwd h hpath
  exact ⟨Path.isNormal_descend htop hnames, Path.root_descend htop hnames⟩

/-- What a scan finds is below its root. -/
theorem names_of_mem_scan {rules : ScanRules} {scanned : Scanned} {path : Text}
    (ht : t.WellFormed) (hcwd : Path.isAbsolute cwd = true)
    (h : t.scan cwd root rules = .ok scanned) (hpath : path ∈ scanned.paths) :
    ∃ ns n, Path.names path = Path.names (Path.absolute cwd root) ++ (ns ++ [n]) := by
  obtain ⟨ns, n, rfl, hnames⟩ := exists_descend_of_mem_scan ht hcwd h hpath
  exact ⟨ns, n, Path.names_descend (Path.isNormal_absolute hcwd root) hnames⟩

/-- What a scan finds has different names. -/
theorem nodup_names_scan {rules : ScanRules} {scanned : Scanned} (ht : t.WellFormed)
    (hcwd : Path.isAbsolute cwd = true) (h : t.scan cwd root rules = .ok scanned) :
    (scanned.paths.map Path.names).Nodup := by
  have hnormal : ∀ p ∈ scanned.paths, Path.IsNormal p := fun p hp =>
    (root_of_mem_scan ht hcwd h hp).1
  have htop := Path.isNormal_absolute hcwd root
  obtain ⟨place, hl, hD, hfinds⟩ := exists_finds htop h
  refine List.pairwise_map.mpr
    ((hfinds.once ht htop hl hD).imp_of_mem fun {p q} hp hq hne hnames => hne ?_)
  rw [locate_normal (hnormal p hp), locate_normal (hnormal q hq), hnames]

/-- A scan of a directory covers it, whatever links there are. It ends and finds every file that
stands below the root, if its suffix is asked for and no directory on the way is excluded, under its
own name and under no other name. What it finds are files with such a suffix, with no excluded
directory between them and the root. The directories that it lists are different places, and what
it finds are the files in them; so nothing is found twice. -/
theorem scan_covers (ht : t.WellFormed) (hcwd : Path.isAbsolute cwd = true) (rules : ScanRules)
    (hroot : t.isDirectory cwd (Path.absolute cwd root) = true) :
    let top := Path.absolute cwd root
    ∃ place scanned, t.locate true cwd top = .ok place ∧ t.scan cwd root rules = .ok scanned ∧
      (∀ ns n bytes, t.find? (place ++ (ns ++ [n])) = some (.file bytes) →
        (∀ m ∈ ns, rules.excludes m = false) → rules.takes n = true →
          descend top (ns ++ [n]) ∈ scanned.paths) ∧
      (∀ path ∈ scanned.paths, ∀ ns n, t.locate false cwd path = .ok (place ++ (ns ++ [n])) →
        path = descend top (ns ++ [n])) ∧
      (∀ path ∈ scanned.paths, ∃ ns n, path = descend top (ns ++ [n]) ∧
        (∀ m ∈ ns, rules.excludes m = false) ∧ rules.takes n = true ∧
          t.isFile cwd path = true) ∧
      (∃ listed : List (Text × Place), listed.head? = some (top, place) ∧
        (listed.map (·.2)).Nodup ∧
        (∀ d ∈ listed, t.locate true cwd d.1 = .ok d.2 ∧ t.find? d.2 = some .directory) ∧
        ∀ path, path ∈ scanned.paths ↔ ∃ d ∈ listed, ∃ n ∈ t.names d.2,
          path = Path.join d.1 n ∧ t.isFile cwd path = true ∧ rules.takes n = true) ∧
      scanned.paths.Pairwise fun p q => t.locate false cwd p ≠ t.locate false cwd q := by
  intro top
  have htop : Path.IsNormal top := Path.isNormal_absolute hcwd root
  obtain ⟨place, hl, hD⟩ := isDirectory_iff.mp hroot
  have hl' : t.locate true [] top = .ok place := locate_cwd htop true cwd [] ▸ hl
  let scanned := scanFrom t rules place [place] (entriesOf t top place)
  have hscan : t.scan cwd root rules = .ok scanned := scan_eq_ok.mpr ⟨place, hl, hD, rfl⟩
  have hready := ready_entriesOf ht htop hl' hD
  have hfinds : Finds t rules place [place] (entriesOf t top place) scanned.paths :=
    finds_scanFrom ..
  obtain ⟨listed, hlisted⟩ := hfinds.exists_lists ht hready
  rw [← List.append_nil (entriesOf t top place)] at hlisted
  have hlists := hlisted.enter htop hl' hD List.not_mem_nil
  have hfound := hfinds.forall_found ht hready.normal
  have hnormal : ∀ p ∈ scanned.paths, Path.IsNormal p := fun p hp => (hfound p hp).1
  refine ⟨place, scanned, hl, hscan, fun ns n bytes => mem_scanFrom_of_file ht htop hl' hD, ?_, ?_,
    ⟨(top, place) :: listed, rfl, hlists.distinct, ?_, hlists.mem_iff ht cwd⟩, ?_⟩
  · intro path hpath ns n hown
    rw [locate_cwd (hnormal path hpath) false cwd []] at hown
    exact hfinds.named_of_mem ht hready (named_of_mem_entriesOf ht htop hl' hD) path hpath ns n hown
  · intro path hpath
    obtain ⟨hpathNormal, hfile, htakes⟩ := hfound path hpath
    obtain ⟨ns, n, rfl, hnames, hns⟩ :=
      hfinds.below_of_mem ht htop hready (below_of_mem_entriesOf ht htop hl' hD rules) path hpath
    rw [Path.name_descend htop hnames] at htakes
    exact ⟨ns, n, rfl, hns, htakes, isFile_cwd hpathNormal cwd [] ▸ hfile⟩
  · intro d hd
    rw [locate_cwd (hlists.normal d hd) true cwd []]
    exact hlists.leads d hd
  · refine hlists.once.imp_of_mem fun {p q} hp hq hne => ?_
    rwa [locate_cwd (hnormal p hp) false cwd [], locate_cwd (hnormal q hq) false cwd []]

/-- A root with links into it, out of it, above it and to nowhere, and a link back from outside. -/
def looped : Tree := ⟨[(["src"], .directory), (["src", "a"], .directory),
  (["src", "a", "f.ts"], .file []), (["src", "b"], .link "a"), (["src", "gone"], .link "nowhere"),
  (["src", "lib"], .link "../lib"), (["src", "loop"], .link "."), (["src", "up"], .link ".."),
  (["lib"], .directory), (["lib", "back"], .link "../src/a"), (["lib", "g.ts"], .file [])]⟩

theorem scan_covers_looped : looped.WellFormed ∧
    looped.isDirectory "/" (Path.absolute "/" "src") = true ∧
    ∃ scanned, looped.scan "/" "src" ⟨ScanRules.defaultExclude, [".ts"]⟩ = .ok scanned ∧
      scanned.paths = [("/src/a/f.ts" : Text), ("/src/lib/g.ts" : Text)] ∧
      descend (Path.absolute "/" "src") ["a", "f.ts"] ∈ scanned.paths := by
  have ht : looped.WellFormed := by decide
  have hroot : looped.isDirectory "/" (Path.absolute "/" "src") = true := by cbv
  obtain ⟨place, scanned, hplace, hscan, hcomplete, -⟩ :=
    scan_covers ht (by decide) ⟨ScanRules.defaultExclude, [".ts"]⟩ hroot
  have hlocate : looped.locate true "/" (Path.absolute "/" "src") = .ok ["src"] := by cbv
  rw [hlocate, Except.ok.injEq] at hplace
  subst hplace
  have hpaths : (looped.scan "/" "src" ⟨ScanRules.defaultExclude, [".ts"]⟩).map (·.paths) =
      .ok [("/src/a/f.ts" : Text), ("/src/lib/g.ts" : Text)] := by cbv
  rw [hscan] at hpaths
  exact ⟨ht, hroot, scanned, hscan, Except.ok.inj hpaths,
    hcomplete ["a"] "f.ts" [] (by decide) (by decide) (by decide)⟩

end Tree
end ModuleGraph
