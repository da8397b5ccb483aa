import ModuleGraph.Proofs.Path.Directory
import ModuleGraph.Proofs.Resolver.Inside
import ModuleGraph.Proofs.Respell.Framed

/-!
Fixed rules in a file that lies as many directories below the source root as they take steps away.

* `climb_inj`: a specifier has one number of steps in front of a directory;
* `normalize_join_climb`: from a file that `LiesBelow` a root those steps lead to the root;
* `respellLine_climb`: in a line with one quoted text the fixed rules put the mark in the place of
  the steps;
* `fixed_agrees`: in such a file the new specifier stands for the same path as the old one.
-/

namespace ModuleGraph

open Cursor Cut

namespace Path

/-- Steps upwards, as they are written in front of a path. -/
def climb (n : Nat) : Text := (List.replicate n ['.', '.', '/']).flatten

variable {file root r : Text} {m n : Nat} {x y : Char} {u v : Text}

theorem climb_succ (n : Nat) (r : Text) : climb (n + 1) ++ r = up ++ slash :: (climb n ++ r) := rfl

theorem splitOn_climb (n : Nat) (r : Text) :
    (climb n ++ r).splitOn slash = List.replicate n up ++ r.splitOn slash := by
  induction n with
  | zero => rfl
  | succ n ih =>
    rw [climb_succ, Text.splitOn_append_cons (by decide), ih, List.replicate_succ, List.cons_append]

/-- In front of something that does not begin with a dot the number of steps can be read off. -/
theorem climb_inj (hx : x ≠ '.') (hy : y ≠ '.') (h : climb m ++ x :: u = climb n ++ y :: v) :
    m = n := by
  induction m generalizing n with
  | zero =>
    cases n with
    | zero => rfl
    | succ n => exact absurd (List.cons.inj h).1 hx
  | succ m ih =>
    cases n with
    | zero => exact absurd (List.cons.inj h).1.symm hy
    | succ n =>
      rw [climb_succ, climb_succ] at h
      rw [ih (List.cons.inj (List.append_cancel_left h)).2]

theorem not_isAbsolute_climb (hr : isAbsolute r = false) : isAbsolute (climb n ++ r) = false := by
  cases n with
  | zero => exact hr
  | succ n => rfl

/-- A file that lies this many directories below a root, however its path is written. -/
structure LiesBelow (file root : Text) (n : Nat) : Prop where
  isAbsolute : isAbsolute file = true
  isName : IsName (name file)
  isNormal : IsNormal root
  root_eq : Path.root file = Path.root root
  names_eq : ∃ ms m, ms.length = n ∧ names (normalize file) = names root ++ ms ++ [m]

/-- From such a file as many steps upwards lead to the root. -/
theorem LiesBelow.normalize_join_climb (h : LiesBelow file root n)
    (hr : Path.isAbsolute r = false) :
    normalize (join (directory file) (climb n ++ r)) = normalize (join root r) := by
  obtain ⟨ms, m, rfl, hnames⟩ := h.names_eq
  have hs : Path.isAbsolute (climb ms.length ++ r) = false := not_isAbsolute_climb hr
  obtain ⟨hdir, hlead, hdrop⟩ := (isNormal_normalize h.isAbsolute).directory
  obtain ⟨hn, hl, -⟩ := normalize_join_spec hdir hs
  obtain ⟨hn', hl', -⟩ := normalize_join_spec h.isNormal hr
  rw [normalize_join_directory h.isAbsolute h.isName hs, hn.eq_write, hn'.eq_write, hl, hl', hlead,
    root_normalize h.isAbsolute, h.root_eq, names_normalize_join hdir hs,
    names_normalize_join h.isNormal hr, hdrop, hnames, List.dropLast_concat, splitOn_climb,
    follow_append, follow_up]

end Path

namespace Rule

variable {cwd file mark r : Text} {directories : List Text} {f : Form} {depth : Int} {n : Nat}

/-- A fixed rule puts the mark in the place of its steps before one of its directories. -/
theorem replacement_steps (h : isBelow directories r = true) :
    (fixed f depth mark directories).replacement cwd file (steps depth ++ r) =
      some (mark ++ r) := by
  rw [replacement, Text.after?_eq_some.mpr rfl, Option.bind_some, if_pos h]

theorem isBelow_known {k rest : Text} (hk : k ∈ knownDirectories)
    (hrest : rest = [] ∨ rest.head? = some '/') : isBelow knownDirectories (k ++ rest) = true :=
  isBelow_iff.mpr ⟨k, hk, rest, rfl, hrest⟩

/-- The usual directories begin as words do. -/
theorem exists_of_isBelow_known (h : isBelow knownDirectories r = true) :
    ∃ x v, r = x :: v ∧ Text.isWord x = true ∧ x ≠ '.' := by
  obtain ⟨x, v, rfl, hx⟩ := exists_cons_of_isBelow (by decide) (by decide) h
  refine ⟨x, v, rfl, hx, ?_⟩
  rintro rfl
  revert hx
  decide

theorem not_isAbsolute_known (h : isBelow knownDirectories r = true) :
    Path.isAbsolute r = false := by
  obtain ⟨x, v, rfl, hx, -⟩ := exists_of_isBelow_known h
  refine Path.isAbsolute_eq_false fun h => ?_
  obtain rfl : x = Path.slash := by simpa using h
  revert hx
  decide

theorem mem_fixedRules {depths : List Int} (hf : f ∈ fixedForms) (hd : depth ∈ depths) :
    fixed f depth mark directories ∈ fixedRules mark directories depths :=
  List.mem_flatMap.mpr ⟨f, hf, List.mem_map.mpr ⟨depth, List.mem_mergeSort.mpr hd, rfl⟩⟩

/-- Steps before a usual directory are taken up by a rule for just as many. -/
theorem replacement_other (hpos : 0 < depth) (hne : depth ≠ n)
    (h : isBelow knownDirectories r = true) :
    (fixed f depth mark knownDirectories).replacement cwd file (Path.climb n ++ r) = none := by
  rw [Option.eq_none_iff_forall_ne_some]
  intro t ht
  obtain ⟨r', heq, -, h'⟩ := replacement_fixed ht
  obtain ⟨m, rfl⟩ := Int.eq_ofNat_of_zero_le (Int.le_of_lt hpos)
  obtain ⟨x, u, rfl, -, hx⟩ := exists_of_isBelow_known h
  obtain ⟨y, v, rfl, -, hy⟩ := exists_of_isBelow_known h'
  exact hne (congrArg Int.ofNat (Path.climb_inj hx hy heq).symm)

/-- No fixed rule takes up a mark before a usual directory. -/
theorem replacement_marked (hm : IsMark mark) (hpos : 0 < depth)
    (h : isBelow knownDirectories r = true) :
    (fixed f depth mark knownDirectories).replacement cwd file (mark ++ r) = none := by
  rw [Option.eq_none_iff_forall_ne_some]
  intro t ht
  obtain ⟨r', heq, -, -⟩ := replacement_fixed ht
  obtain ⟨x, v, rfl, hx, -⟩ := exists_of_isBelow_known h
  have hno := Respell.not_startsWith_step hm hx v
  rw [heq, Respell.startsWith_steps (Int.ne_of_gt hpos)] at hno
  cases hno

end Rule

namespace Specifier

theorem isRelative_climb {n : Nat} (h : n ≠ 0) (r : Text) :
    isRelative (Path.climb n ++ r) = true := by
  obtain ⟨m, rfl⟩ := Nat.exists_eq_succ_of_ne_zero h
  simp [isRelative, Text.startsWith, Path.climb_succ, Path.up, Path.slash]

theorem not_isRelative_known {mark k rest : Text} (hm : IsMark mark)
    (hk : k ∈ Rule.knownDirectories) (hrest : rest = [] ∨ rest.head? = some '/') :
    isRelative (mark ++ (k ++ rest)) = false := by
  have hnames : ∀ k ∈ Rule.knownDirectories, Path.IsName k := by decide
  refine not_isRelative_append hm (hnames k hk) ?_
  rcases hrest with rfl | hhead
  · exact Or.inl (List.append_nil k)
  · obtain ⟨tail, rfl⟩ := List.head?_eq_some_iff.mp hhead
    exact Or.inr ⟨tail, rfl⟩

end Specifier

namespace Resolver

variable {cwd file root mark s t : Text} {skip : Bool}

theorem basePath_relative (hfile : Path.isAbsolute file = true)
    (hs : Specifier.isRelative s = true) (r : Resolver) :
    r.basePath s file = some (Path.normalize (Path.join (Path.directory file) s)) := by
  rw [basePath, if_pos hs, Path.absolute, if_pos (Path.isAbsolute_join_directory hfile s)]

/-- What follows the mark of the one alias is a path seen from its directory. -/
theorem basePath_marked (hroot : Path.IsNormal root)
    (hs : Specifier.isRelative (mark ++ s) = false) (cwd : Text) (suffixes : List Text)
    (file : Text) :
    (ofEntries cwd [(mark, root)] suffixes).basePath (mark ++ s) file =
      some (Path.normalize (Path.join root s)) := by
  have hfind := Aliasing.find?_single (a := ⟨root, mark, false⟩) hroot cwd suffixes s
  have hpath := Alias.pathOf_eq (a := ⟨mark, root⟩) (s := mark ++ s) hroot cwd
  rw [List.drop_left] at hpath
  exact (basePath_of_find? hs hfind file).trans (congrArg some hpath)

/-- The aliased form of a specifier stands for the same path, however the path of its file is
written. -/
theorem basePath_aliased (hm : IsMark mark) (hfile : Path.isAbsolute file = true)
    (hname : Path.IsName (Path.name file)) (hroot : Path.IsNormal root)
    (hlead : Path.root file = Path.root root)
    (h : Aliasing.aliased ⟨root, mark, skip⟩ cwd file s = some t) (suffixes : List Text) :
    (ofEntries cwd [(mark, root)] suffixes).basePath t file =
      (ofEntries cwd [(mark, root)] suffixes).basePath s file := by
  have hnormal := Path.isNormal_normalize hfile
  have habsolute : Path.absolute cwd file = Path.normalize file := by
    rw [Path.absolute, if_pos hfile]
  have htarget : Aliasing.target cwd file s = Aliasing.target cwd (Path.normalize file) s := by
    rw [Aliasing.target, Aliasing.target, habsolute, hnormal.absolute_eq]
  have h' : Aliasing.aliased ⟨root, mark, skip⟩ cwd (Path.normalize file) s = some t := by
    rw [← h, Aliasing.aliased, Aliasing.aliased, htarget]
  obtain ⟨hs, below, -, -, ht⟩ := Aliasing.aliased_spec hnormal hroot h'
  have hfind := Aliasing.find?_single (a := ⟨root, mark, skip⟩) hroot cwd suffixes
    (Text.join [Path.slash] below)
  rw [← ht] at hfind
  have hpath := Aliasing.pathOf_aliased hnormal hroot
    ((Path.root_normalize hfile).trans hlead) h'
  rw [basePath_of_find? (Aliasing.not_isRelative_aliased hm hnormal hroot h') hfind file,
    basePath_relative hfile hs,
    Path.normalize_join_directory hfile hname (Specifier.not_isAbsolute hs)]
  rw [Aliasing.target, hnormal.absolute_eq] at hpath
  exact congrArg some hpath

end Resolver

namespace Respell

variable {cwd file root mark r : Text} {f : Form} {n : Nat}

/-- The fixed rules for the usual directories and depths put the mark in the place of steps before
such a directory. -/
theorem respellLine_climb (hm : IsMark mark) (hmark : mark.all isQuotable = true)
    (hf : f ∈ Rule.fixedForms) (hn : (n : Int) ∈ Rule.knownDepths)
    (hbelow : Rule.isBelow Rule.knownDirectories r = true) (hr : r.all isQuotable = true)
    (cwd file : Text) (slot : Slot f) (k : Nat) :
    respellLine cwd file (Rule.fixedRules mark Rule.knownDirectories Rule.knownDepths) k
        (slot.fill (Path.climb n ++ r)) =
      (slot.fill (mark ++ r),
        (Rule.fixed f n mark Rule.knownDirectories).record k (Path.climb n ++ r) (mark ++ r)) := by
  have hdepths : ∀ depth ∈ Rule.knownDepths, 0 < depth := by decide
  have hplain := isPlain_fixedRules mark Rule.knownDepths
  have htidy := isTidy_fixedRules hmark cwd file Rule.knownDepths
  have hfixed : ∀ rule ∈ Rule.fixedRules mark Rule.knownDirectories Rule.knownDepths,
      ∃ g depth, depth ∈ Rule.knownDepths ∧
        rule = Rule.fixed g depth mark Rule.knownDirectories :=
    fun rule => Rule.exists_of_mem_fixedRules
  obtain ⟨pre, post, hsplit, hnot⟩ := List.eq_append_cons_of_mem (Rule.mem_fixedRules hf hn)
  rw [hsplit] at hplain htidy hfixed ⊢
  have hs : (Path.climb n ++ r).all isQuotable = true := by
    have hsteps : (Path.climb n).all isQuotable = true := Rule.all_steps n
    rw [List.all_append, hsteps, hr]
    rfl
  have hnew : (Rule.fixed f n mark Rule.knownDirectories).replacement cwd file
      (Path.climb n ++ r) = some (mark ++ r) := Rule.replacement_steps hbelow
  refine respellLine_fill hplain htidy slot hs ?_ hnew ?_ k
  · intro rule hrule hsame
    obtain ⟨g, depth, hd, rfl⟩ := hfixed rule (List.mem_append_left _ hrule)
    obtain rfl : g = f := hsame
    refine Rule.replacement_other (hdepths depth hd) ?_ hbelow
    rintro rfl
    exact hnot hrule
  · intro rule hrule _
    obtain ⟨g, depth, hd, rfl⟩ :=
      hfixed rule (List.mem_append_right _ (List.mem_cons_of_mem _ hrule))
    exact Rule.replacement_marked hm (hdepths depth hd) hbelow

/-- In a file as many directories below a root as a fixed rule asks for steps, the rules put the
mark in the place of the steps of a specifier that stands alone on its line. With the mark as the
one alias of the root the new specifier stands for the same path as the old one, and so does the
aliased form of the old one if there is one. -/
theorem fixed_agrees {k rest content : Text} {i : Nat} (hfile : Path.LiesBelow file root n)
    (hn : n ∈ [1, 2, 3]) (hm : IsMark mark) (hmark : mark.all isQuotable = true)
    (hk : k ∈ Rule.knownDirectories) (hrest : rest = [] ∨ rest.head? = some '/')
    (hquotable : rest.all isQuotable = true) (hf : f ∈ Rule.fixedForms) (slot : Slot f)
    (hline : content.lines[i]? = some (slot.fill (Path.climb n ++ (k ++ rest))))
    (suffixes : List Text) :
    let old := Path.climb n ++ (k ++ rest)
    let new := mark ++ (k ++ rest)
    let respelled := text cwd file
      (Rule.fixedRules mark Rule.knownDirectories Rule.knownDepths) content
    let resolver := Resolver.ofEntries cwd [(mark, root)] suffixes
    respelled.after.lines[i]? = some (slot.fill new) ∧
      Change.onLine (i + 1) respelled.changes =
        [⟨old, new, (i + 1 : Nat), (Rule.fixed f n mark Rule.knownDirectories).name⟩] ∧
      resolver.basePath old file = some (Path.normalize (Path.join root (k ++ rest))) ∧
      resolver.basePath new file = resolver.basePath old file ∧
      ∀ skip t, Aliasing.aliased ⟨root, mark, skip⟩ cwd file old = some t →
        resolver.basePath t file = resolver.basePath old file := by
  intro old new respelled resolver
  have hpos : n ≠ 0 := by
    rintro rfl
    revert hn
    decide
  have hdepth : (n : Int) ∈ Rule.knownDepths := by
    simp only [List.mem_cons, List.not_mem_nil, or_false] at hn
    rcases hn with rfl | rfl | rfl <;> decide
  have hbelow := Rule.isBelow_known hk hrest
  have hall : (k ++ rest).all isQuotable = true := by
    have hknown : ∀ k ∈ Rule.knownDirectories, k.all isQuotable = true := by decide
    rw [List.all_append, hknown k hk, hquotable]
    rfl
  have hold : Specifier.isRelative old = true := Specifier.isRelative_climb hpos (k ++ rest)
  have hnew : Specifier.isRelative new = false := Specifier.not_isRelative_known hm hk hrest
  have hne : new ≠ old := by
    intro h
    rw [h, hold] at hnew
    cases hnew
  have hbase : resolver.basePath old file =
      some (Path.normalize (Path.join root (k ++ rest))) := by
    rw [Resolver.basePath_relative hfile.isAbsolute hold,
      hfile.normalize_join_climb (Rule.not_isAbsolute_known hbelow)]
  have hdone := respellLine_climb hm hmark hf hdepth hbelow hall cwd file slot (i + 1)
  refine ⟨?_, ?_, hbase, ?_, fun skip t h => ?_⟩
  · rw [getElem?_lines_after (isPlain_fixedRules mark _) (isTidy_fixedRules hmark cwd file _),
      hline, Option.map_some, hdone]
  · rw [onLine_changes hline, hdone, Rule.record, if_neg hne]
  · rw [hbase]
    exact Resolver.basePath_marked hfile.isNormal hnew cwd suffixes file
  · exact Resolver.basePath_aliased hm hfile.isAbsolute hfile.isName hfile.isNormal hfile.root_eq h
      suffixes

/-- A call in a file two directories below the source root, whose path is not in normal form. -/
def callSlot : Slot .require where
  front := "const a = "
  lead := "require( "
  quote := '"'
  back := " );"
  front_isUnquoted := Rule.isUnquoted_of_all (by decide)
  front_word := by decide
  isLead := ⟨"( ", ⟨[], " ", by decide, by decide, by decide⟩, by decide⟩
  isQuote := by decide
  back_all := by decide

theorem fixed_agrees_call :
    let rules := Rule.fixedRules "@\\1/" Rule.knownDirectories Rule.knownDepths
    let r := text "/" "/p/src//a/./b/f.ts" rules "// 1\nconst a = require( \"../../lib/../x//y\" );"
    let resolver := Resolver.ofEntries "/" [("@\\1/", "/p/src")] []
    r.after.lines[1]? = some ("const a = require( \"@\\1/lib/../x//y\" );" : Text) ∧
      Change.onLine 2 r.changes =
        [⟨"../../lib/../x//y", "@\\1/lib/../x//y", 2, "deep-relative:require:2"⟩] ∧
      resolver.basePath "@\\1/lib/../x//y" "/p/src//a/./b/f.ts" =
        resolver.basePath "../../lib/../x//y" "/p/src//a/./b/f.ts" ∧
      resolver.basePath "@\\1/x/y" "/p/src//a/./b/f.ts" =
        resolver.basePath "../../lib/../x//y" "/p/src//a/./b/f.ts" := by
  intro rules r resolver
  have hfile : Path.LiesBelow "/p/src//a/./b/f.ts" "/p/src" 2 :=
    ⟨by decide, by decide, ⟨by decide, by decide⟩, by decide, ["a", "b"], "f.ts", rfl, by decide⟩
  have hm : IsMark "@\\1/" := ⟨by decide, by decide⟩
  have hk : "lib".toList ∈ Rule.knownDirectories := by decide
  have hrest : "/../x//y".toList = [] ∨ "/../x//y".toList.head? = some '/' := Or.inr rfl
  have hcall : (Text.lines "// 1\nconst a = require( \"../../lib/../x//y\" );")[1]? =
      some (callSlot.fill (Path.climb 2 ++ ("lib".toList ++ "/../x//y".toList))) := by decide
  obtain ⟨hline, hrecord, -, hmarked, haliased⟩ := fixed_agrees hfile (by decide) hm (by decide) hk
    hrest (by decide) (by decide) callSlot hcall []
  exact ⟨hline, hrecord, hmarked, haliased true _ (by decide)⟩

end Respell
end ModuleGraph
