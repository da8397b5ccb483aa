import ModuleGraph.Proofs.Files.Change
import ModuleGraph.Proofs.Files.Shape
import ModuleGraph.Proofs.Text.Order

/-!
What a scan lists.

* `Passed`, `Finds`: what a scan does with one pending path after the other, and what it finds;
* `finds_scanFrom`, `Finds.paths_eq`: that is what the scan lists, and nothing else;
* `scan_eq_ok`, `exists_finds`: a scan of a directory;
* `mem_scan`: it lists paths in normal form that lead to files with one of the suffixes;
* `scanFrom_narrowed`, `mem_scanFrom_suffixes`: the suffixes that are asked for select among the
  same paths.
-/

namespace ModuleGraph

namespace Path

variable {p n : Text}

/-- A name in a directory. -/
theorem join_of_isName (hp : IsNormal p) (hn : IsName n) :
    join p n = write (root p) (names p ++ [n]) := by
  have hhead : n.head? ≠ some slash := fun h => hn.no_slash (List.mem_of_mem_head? h)
  have hrel : ¬ isAbsolute n = true := by simpa [isAbsolute] using hhead
  have hwrite := hp.eq_write
  rw [hp.isLead.write_eq] at hwrite ⊢
  rw [join, if_neg hrel]
  cases hnames : names p with
  | nil =>
    rw [hnames] at hwrite
    have hlast : (p.isEmpty || p.getLast? == some slash) = true := by
      rw [hwrite]
      rcases hp.isLead with hl | hl <;> rw [hl] <;> rfl
    rw [if_pos hlast]
    conv_lhs => rw [hwrite]
    simp [Text.join]
  | cons m ms =>
    have hne : names p ≠ [] := by simp [hnames]
    obtain ⟨c, hc, hslash⟩ := exists_getLast?_write hp.isLead hne hp.isName
    rw [← hp.eq_write] at hc
    have hempty : p.isEmpty = false := by
      cases p with
      | nil => cases hc
      | cons => rfl
    have hlast : ¬ (p.isEmpty || p.getLast? == some slash) = true := by
      rw [hc]
      simp [hempty, hslash]
    rw [if_neg hlast, ← hnames, Text.join_concat hne, ← List.append_assoc, ← hwrite]

theorem isName_append (hp : IsNormal p) (hn : IsName n) : ∀ m ∈ names p ++ [n], IsName m :=
  fun m hm => (List.mem_append.mp hm).elim (hp.isName m) fun h => List.mem_singleton.mp h ▸ hn

theorem isNormal_join (hp : IsNormal p) (hn : IsName n) : IsNormal (join p n) := by
  rw [join_of_isName hp hn]
  exact isNormal_write hp.isLead (isName_append hp hn)

theorem names_join_name (hp : IsNormal p) (hn : IsName n) : names (join p n) = names p ++ [n] := by
  rw [join_of_isName hp hn, names_write hp.isLead (isName_append hp hn)]

end Path

namespace Tree

variable {t : Tree} {cwd path top : Text} {rules rules' : ScanRules} {root : Place}
  {visited : List Place} {pending : List Text} {scanned : Scanned}

/-- Where the directory that a path in normal form lead from does not matter. -/
theorem locate_cwd (h : Path.IsNormal path) (fl : Bool) (cwd cwd' : Text) :
    t.locate fl cwd path = t.locate fl cwd' path := by
  rw [locate_normal h, locate_normal h]

theorem stat_cwd (h : Path.IsNormal path) (cwd cwd' : Text) :
    t.stat cwd path = t.stat cwd' path := by
  rw [stat, stat, locate_cwd h true cwd cwd']

theorem isFile_cwd (h : Path.IsNormal path) (cwd cwd' : Text) :
    t.isFile cwd path = t.isFile cwd' path := by
  rw [isFile, isFile, stat_cwd h cwd cwd']

/-- What a path is found to be is no link. -/
theorem isFile_of_stat (ht : t.WellFormed) (hpath : Path.IsNormal path) {e : Entry}
    (h : t.stat cwd path = .ok e) (hne : e ≠ .directory) : t.isFile cwd path = true := by
  obtain ⟨p, hl, hf⟩ := stat_eq_ok.mp h
  cases e with
  | file bytes => exact isFile_iff.mpr ⟨p, bytes, hl, hf⟩
  | directory => exact absurd rfl hne
  | link target =>
    rw [locate_normal hpath] at hl
    exact absurd hf (walk_ne_link rfl ht hl target)

/-- A path that does not end at a link leads to where it ends. -/
theorem locate_true_of_false {p : Place} (h : t.locate false cwd path = .ok p)
    (hlink : ∀ target, t.find? p ≠ some (.link target)) : t.locate true cwd path = .ok p := by
  rw [locate] at h ⊢
  split at h
  · cases h
  · rename_i hpath
    rw [if_neg hpath]
    exact walk_true_of_false h hlink

theorem locate_true_of_not_isLink {p : Place} (h : t.locate false cwd path = .ok p)
    (hlink : t.isLink cwd path = false) : t.locate true cwd path = .ok p := by
  refine locate_true_of_false h fun target hf => ?_
  rw [isLink, h] at hlink
  simp [hf] at hlink

/-- The entries of a directory are named in normal form. -/
theorem isNormal_entriesOf (ht : t.WellFormed) (hpath : Path.IsNormal path) {p : Place} :
    ∀ q ∈ Scan.entriesOf t path p, Path.IsNormal q := by
  intro q hq
  obtain ⟨n, hn, rfl⟩ := List.mem_map.mp hq
  exact Path.isNormal_join hpath (ht.isName_of_find? (mem_names.mp hn) n (by simp))

/-- A name in a directory that a path leads to. -/
theorem locate_join {D : Place} (hpath : Path.IsNormal path) (hl : t.locate true [] path = .ok D)
    (hD : t.find? D = some .directory) {n : Text} (hn : Path.IsName n) :
    ∃ k, ∀ fl, t.locate fl [] (Path.join path n) = t.walk fl k D [n] := by
  rw [locate_normal hpath] at hl
  obtain ⟨k, -, hwalk⟩ := walk_append hl hD
  refine ⟨k, fun fl => ?_⟩
  rw [locate_normal (Path.isNormal_join hpath hn), Path.names_join_name hpath hn,
    hwalk fl [n] (by simp)]

end Tree

namespace Scan

/-- Why a pending path is passed over. -/
inductive Passed (t : Tree) (rules : ScanRules) (root : Place) (visited : List Place)
    (path : Text) : Prop
  | missing {e : FileError} (h : t.stat [] path = .error e)
  | excluded (h : t.stat [] path = .ok .directory)
      (hexclude : rules.excludes (Path.name path) = true)
  | linked {D : Place} (h : t.stat [] path = .ok .directory) (hl : t.locate true [] path = .ok D)
      (hlink : (t.isLink [] path && root.isPrefixOf D) = true)
  | visited {D : Place} (h : t.stat [] path = .ok .directory) (hl : t.locate true [] path = .ok D)
      (hknown : ¬ (D ∈ t.directories ∧ D ∉ visited))
  | untaken {e : Entry} (h : t.stat [] path = .ok e) (hne : e ≠ .directory)
      (htakes : ¬ rules.takes (Path.name path) = true)

/-- What a scan does with one pending path after the other, and what it finds. -/
inductive Finds (t : Tree) (rules : ScanRules) (root : Place) :
    List Place → List Text → List Text → Prop
  | nil {visited : List Place} : Finds t rules root visited [] []
  | pass {visited : List Place} {path : Text} {rest found : List Text}
      (h : Passed t rules root visited path) (hrest : Finds t rules root visited rest found) :
      Finds t rules root visited (path :: rest) found
  | enter {visited : List Place} {path : Text} {rest found : List Text} {D : Place}
      (hexclude : rules.excludes (Path.name path) = false) (hl : t.locate true [] path = .ok D)
      (hlink : ¬ (t.isLink [] path && root.isPrefixOf D) = true)
      (hnew : D ∈ t.directories ∧ D ∉ visited)
      (hrest : Finds t rules root (D :: visited) (entriesOf t path D ++ rest) found) :
      Finds t rules root visited (path :: rest) found
  | take {visited : List Place} {path : Text} {rest found : List Text} {e : Entry}
      (h : t.stat [] path = .ok e) (hne : e ≠ .directory)
      (htakes : rules.takes (Path.name path) = true)
      (hrest : Finds t rules root visited rest found) :
      Finds t rules root visited (path :: rest) (path :: found)

theorem finds_scanFrom (t : Tree) (rules : ScanRules) (root : Place) (visited : List Place)
    (pending : List Text) :
    Finds t rules root visited pending (scanFrom t rules root visited pending).paths := by
  fun_induction scanFrom t rules root visited pending with
  | case1 visited => exact .nil
  | case2 visited path rest hstat ih => exact .pass (.missing hstat) ih
  | case3 visited path rest e hne hstat s ih => exact .pass (.missing hstat) ih
  | case4 visited path rest hstat hexclude ih => exact .pass (.excluded hstat hexclude) ih
  | case5 visited path rest hstat hexclude e hlocate ih =>
    obtain ⟨q, hl, -⟩ := Tree.stat_eq_ok.mp hstat
    rw [hl] at hlocate
    cases hlocate
  | case6 visited path rest hstat hexclude real hlocate hlink s ih =>
    exact .pass (.linked hstat hlocate hlink) ih
  | case7 visited path rest hstat hexclude real hlocate hlink hnew ih =>
    exact .enter (Bool.not_eq_true _ ▸ hexclude) hlocate hlink hnew ih
  | case8 visited path rest hstat hexclude real hlocate hlink hknown s ih =>
    exact .pass (.visited hstat hlocate hknown) ih
  | case9 visited path rest e hne hstat s htakes ih => exact .take hstat hne htakes ih
  | case10 visited path rest e hne hstat s htakes ih => exact .pass (.untaken hstat hne htakes) ih

variable {t : Tree} {rules : ScanRules} {root D : Place} {visited : List Place} {path : Text}
  {pending rest found : List Text}

/-- What is passed over leaves no trace in what is listed. -/
theorem Passed.paths_eq (h : Passed t rules root visited path) (rest : List Text) :
    (scanFrom t rules root visited (path :: rest)).paths =
      (scanFrom t rules root visited rest).paths := by
  rw [scanFrom]
  cases h with
  | @missing e h =>
    rw [h]
    cases e <;> rfl
  | excluded h hexclude =>
    rw [h]
    dsimp only
    rw [if_pos hexclude]
  | linked h hl hlink =>
    rw [h]
    dsimp only
    split
    · rfl
    · rw [hl]
      dsimp only
      rw [if_pos hlink]
  | visited h hl hknown =>
    rw [h]
    dsimp only
    split
    · rfl
    · rw [hl]
      dsimp only
      split
      · rfl
      · rfl
  | @untaken e h hne htakes =>
    rw [h]
    cases e with
    | directory => exact absurd rfl hne
    | _ => exact congrArg Scanned.paths (if_neg htakes)

/-- A directory that is entered leaves its entries pending. -/
theorem paths_enter (h : t.stat [] path = .ok .directory)
    (hexclude : rules.excludes (Path.name path) = false) (hl : t.locate true [] path = .ok D)
    (hlink : ¬ (t.isLink [] path && root.isPrefixOf D) = true)
    (hnew : D ∈ t.directories ∧ D ∉ visited) (rest : List Text) :
    (scanFrom t rules root visited (path :: rest)).paths =
      (scanFrom t rules root (D :: visited) (entriesOf t path D ++ rest)).paths := by
  rw [scanFrom, h]
  dsimp only
  rw [if_neg (by simp [hexclude]), hl]
  dsimp only
  rw [if_neg hlink, dif_pos hnew]

/-- A file that is asked for is listed. -/
theorem paths_take {e : Entry} (h : t.stat [] path = .ok e) (hne : e ≠ .directory)
    (htakes : rules.takes (Path.name path) = true) (rest : List Text) :
    (scanFrom t rules root visited (path :: rest)).paths =
      path :: (scanFrom t rules root visited rest).paths := by
  rw [scanFrom, h]
  cases e with
  | directory => exact absurd rfl hne
  | _ => exact congrArg Scanned.paths (if_pos htakes)

/-- There is only one way for a scan to go. -/
theorem Finds.paths_eq (ht : t.WellFormed) (h : Finds t rules root visited pending found) :
    (scanFrom t rules root visited pending).paths = found := by
  induction h with
  | nil => rw [scanFrom]
  | pass hpassed hrest ih => rw [hpassed.paths_eq, ih]
  | enter hexclude hl hlink hnew hrest ih =>
    have hstat := Tree.stat_eq_ok.mpr ⟨_, hl, ht.mem_directories.mp hnew.1⟩
    rw [paths_enter hstat hexclude hl hlink hnew, ih]
  | take hstat hne htakes hrest ih => rw [paths_take hstat hne htakes, ih]

/-- What is found are files that are asked for. -/
theorem Finds.forall_found (ht : t.WellFormed) (h : Finds t rules root visited pending found)
    (hpending : ∀ p ∈ pending, Path.IsNormal p) :
    ∀ p ∈ found, Path.IsNormal p ∧ t.isFile [] p = true ∧ rules.takes (Path.name p) = true := by
  induction h with
  | nil => exact fun p hp => absurd hp List.not_mem_nil
  | pass hpassed hrest ih => exact ih (List.forall_mem_cons.mp hpending).2
  | enter hexclude hl hlink hnew hrest ih =>
    obtain ⟨hpath, hlater⟩ := List.forall_mem_cons.mp hpending
    exact ih (List.forall_mem_append.mpr ⟨Tree.isNormal_entriesOf ht hpath, hlater⟩)
  | take hstat hne htakes hrest ih =>
    obtain ⟨hpath, hlater⟩ := List.forall_mem_cons.mp hpending
    exact List.forall_mem_cons.mpr
      ⟨⟨hpath, Tree.isFile_of_stat ht hpath hstat hne, htakes⟩, ih hlater⟩

end Scan

namespace Tree

variable {t : Tree} {cwd path top : Text} {rules rules' : ScanRules} {root : Place}
  {visited : List Place} {pending : List Text} {scanned : Scanned}

/-- A scan lists what it finds from the entries of a directory on. -/
theorem scan_eq_ok : t.scan cwd top rules = .ok scanned ↔
    ∃ place, t.locate true cwd (Path.absolute cwd top) = .ok place ∧
      t.find? place = some .directory ∧ scanned = Scan.scanFrom t rules place [place]
        (Scan.entriesOf t (Path.absolute cwd top) place) := by
  rw [scan]
  by_cases hdir : t.isDirectory cwd (Path.absolute cwd top) = true
  · obtain ⟨place, hl, hD⟩ := isDirectory_iff.mp hdir
    rw [if_pos hdir, hl]
    constructor
    · intro h
      exact ⟨place, rfl, hD, (Except.ok.inj h).symm⟩
    · rintro ⟨q, hq, -, rfl⟩
      rw [Except.ok.inj hq]
  · rw [if_neg hdir]
    constructor
    · intro h
      cases h
    · rintro ⟨place, hl, hD, -⟩
      exact absurd (isDirectory_iff.mpr ⟨place, hl, hD⟩) hdir

/-- What a scan of a directory finds. -/
theorem exists_finds (htop : Path.IsNormal (Path.absolute cwd top))
    (h : t.scan cwd top rules = .ok scanned) :
    ∃ place, t.locate true [] (Path.absolute cwd top) = .ok place ∧
      t.find? place = some .directory ∧
      Scan.Finds t rules place [place] (Scan.entriesOf t (Path.absolute cwd top) place)
        scanned.paths := by
  obtain ⟨place, hl, hD, rfl⟩ := scan_eq_ok.mp h
  exact ⟨place, locate_cwd htop true cwd [] ▸ hl, hD, Scan.finds_scanFrom ..⟩

/-- What a scan lists are files with one of the suffixes. -/
theorem mem_scan (ht : t.WellFormed) (htop : Path.IsNormal top)
    (h : t.scan cwd top rules = .ok scanned) (hpath : path ∈ scanned.paths) :
    Path.IsNormal path ∧ t.isFile cwd path = true ∧ rules.takes (Path.name path) = true := by
  rw [← htop.absolute_eq cwd] at htop
  obtain ⟨place, -, -, hfinds⟩ := exists_finds htop h
  obtain ⟨hnormal, hfile, htakes⟩ :=
    hfinds.forall_found ht (isNormal_entriesOf ht htop) path hpath
  exact ⟨hnormal, isFile_cwd hnormal [] cwd ▸ hfile, htakes⟩

/-- A scan that asks for fewer suffixes finds a part of the paths, and notices the same. -/
theorem scanFrom_narrowed (hexclude : rules'.exclude = rules.exclude)
    (hnarrow : ∀ n, rules'.takes n = true → rules.takes n = true) :
    Scan.scanFrom t rules' root visited pending =
      ⟨(Scan.scanFrom t rules root visited pending).paths.filter fun path =>
          rules'.takes (Path.name path),
        (Scan.scanFrom t rules root visited pending).notices⟩ := by
  have hexcludes : ∀ n, rules'.excludes n = rules.excludes n := fun n => by
    rw [ScanRules.excludes, hexclude, ScanRules.excludes]
  fun_induction Scan.scanFrom t rules root visited pending with
  | case1 visited => rw [Scan.scanFrom]; rfl
  | case2 visited p rest hstat ih =>
    rw [Scan.scanFrom, hstat]
    exact ih
  | case3 visited p rest e hne hstat s ih =>
    rw [Scan.scanFrom, hstat]
    cases e with
    | notFound => exact absurd rfl hne
    | _ =>
      dsimp only
      rw [ih]
  | case4 visited p rest hstat hexcluded ih =>
    rw [Scan.scanFrom, hstat]
    simp only [hexcludes, hexcluded, if_true]
    exact ih
  | case5 visited p rest hstat hexcluded e hlocate ih =>
    rw [Scan.scanFrom, hstat]
    simp only [hexcludes, hexcluded, hlocate]
    exact ih
  | case6 visited p rest hstat hexcluded real hlocate hlink s ih =>
    rw [Scan.scanFrom, hstat]
    simp only [hexcludes, hexcluded, hlocate, hlink, ih]
    rfl
  | case7 visited p rest hstat hexcluded real hlocate hlink hnew ih =>
    rw [Scan.scanFrom, hstat]
    simp only [hexcludes, hexcluded, hlocate, hlink, dif_pos hnew]
    exact ih
  | case8 visited p rest hstat hexcluded real hlocate hlink hseen s ih =>
    rw [Scan.scanFrom, hstat]
    simp only [hexcludes, hexcluded, hlocate, hlink, dif_neg hseen, ih]
    rfl
  | case9 visited p rest e hne hstat s htake ih =>
    rw [Scan.scanFrom, hstat]
    cases e with
    | directory => exact absurd rfl hne
    | _ =>
      dsimp only
      rw [ih, List.filter_cons]
      split <;> rfl
  | case10 visited p rest e hne hstat s htake ih =>
    rw [Scan.scanFrom, hstat]
    cases e with
    | directory => exact absurd rfl hne
    | _ =>
      dsimp only
      rw [ih, if_neg fun h => htake (hnarrow _ h)]

/-- A scan that asks for other suffixes goes the same way. -/
theorem mem_scanFrom_suffixes (hexclude : rules'.exclude = rules.exclude)
    (h : path ∈ (Scan.scanFrom t rules root visited pending).paths)
    (htakes : rules'.takes (Path.name path) = true) :
    path ∈ (Scan.scanFrom t rules' root visited pending).paths := by
  -- both scans select from one that asks for the suffixes of both
  let both : ScanRules := ⟨rules.exclude, rules.suffixes ++ rules'.suffixes⟩
  have hboth : ∀ n, rules.takes n = true ∨ rules'.takes n = true → both.takes n = true := by
    intro n hn
    rw [ScanRules.takes, List.map_append, List.contains_append, Bool.or_eq_true]
    exact hn
  have hexclude' : rules'.exclude = both.exclude := hexclude
  rw [scanFrom_narrowed (show rules.exclude = both.exclude from rfl) fun n hn =>
    hboth n (.inl hn)] at h
  rw [scanFrom_narrowed hexclude' fun n hn => hboth n (.inr hn)]
  exact List.mem_filter.mpr ⟨(List.mem_filter.mp h).1, htakes⟩

theorem scan_narrowed (hexclude : rules'.exclude = rules.exclude)
    (hnarrow : ∀ n, rules'.takes n = true → rules.takes n = true)
    (h : t.scan cwd top rules = .ok scanned) :
    t.scan cwd top rules' =
      .ok ⟨scanned.paths.filter fun path => rules'.takes (Path.name path), scanned.notices⟩ := by
  obtain ⟨place, hl, hD, rfl⟩ := scan_eq_ok.mp h
  exact scan_eq_ok.mpr ⟨place, hl, hD, (scanFrom_narrowed hexclude hnarrow).symm⟩

end Tree
end ModuleGraph
