import ModuleGraph.Proofs.Text
import ModuleGraph.Text.Lines

/-!
The lines of a text, and the line at an offset.

* `lineStarts`: the starts of the lines after the first one, in increasing order;
* `countFrom_spec`: halving finds how many starts are not after an offset;
* `lineOf_ofText`: that is one more than the number of line ends before the offset;
* `unlines_cons`, `unlines_append`: the lines of two texts one after the other;
* `length_lines`: a text has one more line than line ends;
* `lastLine`, `firstLine`: the lines of a text at its end and at its beginning;
* `lines_append_lines`: a place cuts one line in two; `take_lines`, `drop_lines`: the lines before
  it and behind it;
* `extent`: how far lines reach with their line ends, so where the line behind them starts;
* `eq_around`: a text around one of its lines; `count_take_of_within`: within a line, the line ends
  before an offset are those of the lines before;
* `lineOf_exact`: the number of the line counts these line ends, is that of one of the lines of the
  text, and the offset falls inside this one and no other.
-/

namespace ModuleGraph
namespace LineIndex

/-- The offsets behind the line ends of a text that stands at `n`. -/
def lineStarts (n : Nat) : Text → List Nat
  | [] => []
  | c :: t => if c = '\n' then (n + 1) :: lineStarts (n + 1) t else lineStarts (n + 1) t

theorem foldl_push (t : Text) (n : Nat) (starts : Array Nat) :
    t.foldl push (n, starts) = (n + t.length, starts ++ (lineStarts n t).toArray) := by
  induction t generalizing n starts with
  | nil => simp [lineStarts]
  | cons c t ih =>
    rw [List.foldl_cons, push, ih, lineStarts, List.length_cons]
    by_cases hc : c = '\n'
    · simp [hc]
      omega
    · simp [hc]
      omega

theorem starts_ofText (t : Text) : (ofText t).starts = (0 :: lineStarts 0 t).toArray := by
  rw [ofText, foldl_push]
  simp

theorem lt_of_mem_lineStarts {t : Text} {n k : Nat} (h : k ∈ lineStarts n t) : n < k := by
  induction t generalizing n with
  | nil => cases h
  | cons c t ih =>
    rw [lineStarts] at h
    split at h
    · rcases List.mem_cons.mp h with rfl | h
      · exact Nat.lt_succ_self n
      · exact Nat.lt_of_succ_lt (ih h)
    · exact Nat.lt_of_succ_lt (ih h)

theorem pairwise_lineStarts (n : Nat) (t : Text) : (lineStarts n t).Pairwise (· < ·) := by
  induction t generalizing n with
  | nil => exact .nil
  | cons c t ih =>
    rw [lineStarts]
    split
    · exact List.pairwise_cons.mpr ⟨fun k hk => lt_of_mem_lineStarts hk, ih _⟩
    · exact ih _

/-- The starts up to an offset are the line ends before it. -/
theorem countP_lineStarts (t : Text) (n k : Nat) :
    (lineStarts n t).countP (· ≤ n + k) = (t.take k).count '\n' := by
  induction t generalizing n k with
  | nil => simp [lineStarts]
  | cons c t ih =>
    cases k with
    | zero =>
      rw [List.take_zero, List.count_nil, List.countP_eq_zero]
      intro m hm
      have hlt := lt_of_mem_lineStarts hm
      simp only [decide_eq_true_eq]
      omega
    | succ k =>
      have hstep : n + (k + 1) = n + 1 + k := by omega
      rw [lineStarts, List.take_succ_cons, hstep]
      split
      · rename_i hc
        rw [List.countP_cons, ih, hc, List.count_cons_self, if_pos (by simp)]
      · rename_i hc
        rw [ih, List.count_cons_of_ne hc]

/-- What is not after the offset comes before what is after it, and halving finds where. -/
theorem countFrom_spec {starts : Array Nat} (offset : Nat)
    (hsorted : ∀ i j, i ≤ j → j < starts.size → starts.getD i 0 ≤ starts.getD j 0)
    {lo hi : Nat} (hle : lo ≤ hi) (hsize : hi ≤ starts.size)
    (hbefore : ∀ i, i < lo → starts.getD i 0 ≤ offset)
    (hafter : ∀ i, hi ≤ i → i < starts.size → offset < starts.getD i 0) :
    let k := countFrom starts offset lo hi
    k ≤ starts.size ∧ (∀ i, i < k → starts.getD i 0 ≤ offset) ∧
      ∀ i, k ≤ i → i < starts.size → offset < starts.getD i 0 := by
  fun_induction countFrom starts offset lo hi with
  | case1 lo hi hlt mid hmid ih =>
    refine ih (by omega) (by omega) hbefore fun i hi hi' => ?_
    exact Nat.lt_of_lt_of_le hmid (hsorted mid i hi hi')
  | case2 lo hi hlt mid hmid ih =>
    refine ih (by omega) hsize (fun i hi => ?_) hafter
    exact Nat.le_trans (hsorted i mid (by omega) (by omega)) (Nat.le_of_not_lt hmid)
  | case3 lo hi hnot =>
    exact ⟨by omega, hbefore, fun i hi => hafter i (by omega)⟩

/-- The number of elements that pass a test, when those come first. -/
theorem countP_eq_of_split {xs : List Nat} {p : Nat → Bool} {k : Nat} (hk : k ≤ xs.length)
    (hbefore : ∀ i, i < k → p (xs.getD i 0) = true)
    (hafter : ∀ i, k ≤ i → i < xs.length → p (xs.getD i 0) = false) : xs.countP p = k := by
  induction xs generalizing k with
  | nil =>
    rw [List.countP_nil]
    exact (Nat.le_zero.mp hk).symm
  | cons x xs ih =>
    cases k with
    | zero =>
      rw [List.countP_cons_of_neg (by simpa using hafter 0 (Nat.le_refl 0) (by simp))]
      refine ih (Nat.zero_le _) (fun i hi => absurd hi (Nat.not_lt_zero i)) fun i _ hi => ?_
      simpa using hafter (i + 1) (Nat.zero_le _) (by simpa using hi)
    | succ k =>
      rw [List.countP_cons_of_pos (by simpa using hbefore 0 (Nat.succ_pos k))]
      refine congrArg (· + 1) (ih (by simpa using hk) (fun i hi => ?_) fun i hi hi' => ?_)
      · simpa using hbefore (i + 1) (Nat.succ_lt_succ hi)
      · simpa using hafter (i + 1) (Nat.succ_le_succ hi) (by simpa using hi')

theorem getD_le_getD {xs : List Nat} (h : xs.Pairwise (· ≤ ·)) {i j : Nat} (hij : i ≤ j)
    (hj : j < xs.length) : xs.getD i 0 ≤ xs.getD j 0 := by
  have hi : i < xs.length := Nat.lt_of_le_of_lt hij hj
  rw [← List.getElem_eq_getD (h := hi) 0, ← List.getElem_eq_getD (h := hj) 0]
  rcases Nat.eq_or_lt_of_le hij with rfl | hlt
  · exact Nat.le_refl _
  · exact List.pairwise_iff_getElem.mp h i j hi hj hlt

/-- The number of the line at an offset is one more than the number of line ends before it. -/
theorem lineOf_ofText (t : Text) (offset : Nat) :
    (ofText t).lineOf offset = (t.take offset).count '\n' + 1 := by
  let xs := 0 :: lineStarts 0 t
  have hget : ∀ i, xs.toArray.getD i 0 = xs.getD i 0 := fun i => by
    rw [Array.getD_eq_getD_getElem?, List.getElem?_toArray, List.getD_eq_getElem?_getD]
  have hpairwise : xs.Pairwise (· ≤ ·) := List.pairwise_cons.mpr
    ⟨fun k _ => Nat.zero_le k, (pairwise_lineStarts 0 t).imp Nat.le_of_lt⟩
  have hsorted : ∀ i j, i ≤ j → j < xs.toArray.size →
      xs.toArray.getD i 0 ≤ xs.toArray.getD j 0 := fun i j hij hj => by
    rw [hget, hget]
    exact getD_le_getD hpairwise hij hj
  obtain ⟨hk, hbefore, hafter⟩ := countFrom_spec offset hsorted (Nat.zero_le _)
    (Nat.le_refl _) (fun i hi => absurd hi (Nat.not_lt_zero i))
    fun i hi hi' => absurd hi (Nat.not_le_of_lt hi')
  have hcount : xs.countP (· ≤ offset) = countFrom xs.toArray offset 0 xs.toArray.size := by
    refine countP_eq_of_split hk (fun i hi => ?_) fun i hi hi' => ?_
    · rw [← hget]
      exact decide_eq_true (hbefore i hi)
    · rw [← hget]
      exact decide_eq_false (Nat.not_le_of_lt (hafter i hi hi'))
  rw [lineOf, starts_ofText, ← hcount, List.countP_cons_of_pos (by simp)]
  have hends := countP_lineStarts t 0 offset
  rw [Nat.zero_add] at hends
  rw [hends]

end LineIndex

namespace Text

variable {t v w line : Text} {front back : List Text} {offset : Nat}

theorem unlines_cons {l : Text} {ls : List Text} (h : ls ≠ []) :
    unlines (l :: ls) = l ++ '\n' :: unlines ls := by
  obtain ⟨k, ks, rfl⟩ := List.exists_cons_of_ne_nil h
  simp [unlines, join, List.intercalate_cons_cons]

theorem unlines_append {ls ks : List Text} (hls : ls ≠ []) (hks : ks ≠ []) :
    unlines (ls ++ ks) = unlines ls ++ '\n' :: unlines ks := by
  induction ls with
  | nil => exact absurd rfl hls
  | cons l ls ih =>
    by_cases h : ls = []
    · subst h
      rw [List.singleton_append, unlines_cons hks]
      simp [unlines, join]
    · rw [List.cons_append, unlines_cons (by simp [h]), ih h, unlines_cons h, List.append_assoc]
      rfl

theorem length_lines (t : Text) : t.lines.length = t.count '\n' + 1 := by
  induction t with
  | nil => rfl
  | cons c t ih =>
    rw [lines] at ih ⊢
    rw [splitOn_cons]
    unfold splitStep
    split
    · rename_i hc
      rw [List.length_cons, ih, hc, List.count_cons_self]
    · rename_i hc
      rw [List.count_cons_of_ne hc]
      split
      · rename_i hnil
        exact absurd hnil (splitOn_ne_nil _ _)
      · rename_i piece rest hpieces
        rw [hpieces] at ih
        exact ih

/-- The last line of a text. -/
theorem exists_lastLine (w : Text) :
    ∃ line, '\n' ∉ line ∧ (w = line ∨ ∃ front, w = front ++ '\n' :: line) := by
  by_cases h : '\n' ∈ w
  · obtain ⟨line, front, hsplit, hline⟩ := List.eq_append_cons_of_mem (List.mem_reverse.mpr h)
    refine ⟨line.reverse, by simpa using hline, Or.inr ⟨front.reverse, ?_⟩⟩
    simpa using congrArg List.reverse hsplit
  · exact ⟨w, h, Or.inl rfl⟩

/-- What follows the last line end of a text. -/
def lastLine (w : Text) : Text := w.lines.getLast?.getD []

theorem lines_append (v w : Text) : lines (v ++ '\n' :: w) = v.lines ++ w.lines :=
  splitOn_append_self '\n' v w

theorem lines_of_not_mem (h : '\n' ∉ w) : w.lines = [w] := splitOn_of_not_mem h

theorem lastLine_of_not_mem (h : '\n' ∉ w) : w.lastLine = w := by
  rw [lastLine, lines_of_not_mem h]
  rfl

theorem lastLine_append_cons (v w : Text) : lastLine (v ++ '\n' :: w) = w.lastLine := by
  obtain ⟨line, hline⟩ := Option.isSome_iff_exists.mp
    (List.getLast?_isSome.mpr (splitOn_ne_nil '\n' w))
  have hlast : w.lines.getLast? = some line := hline
  rw [lastLine, lastLine, lines_append, List.getLast?_append, hlast]
  rfl

/-- Characters that are no line ends go on with the last line. -/
theorem lastLine_append (v : Text) (h : '\n' ∉ w) : lastLine (v ++ w) = v.lastLine ++ w := by
  obtain ⟨line, hline, rfl | ⟨front, rfl⟩⟩ := exists_lastLine v
  · rw [lastLine_of_not_mem hline, lastLine_of_not_mem (by simp [hline, h])]
  · rw [List.append_assoc, List.cons_append, lastLine_append_cons, lastLine_append_cons,
      lastLine_of_not_mem hline, lastLine_of_not_mem (by simp [hline, h])]

/-- The last line ends as the text does, if it is not empty. -/
theorem any_getLast?_lastLine {p : Char → Bool} (h : w.getLast?.any p = false) :
    w.lastLine.getLast?.any p = false := by
  obtain ⟨line, hline, rfl | ⟨front, rfl⟩⟩ := exists_lastLine w
  · rwa [lastLine_of_not_mem hline]
  · rw [lastLine_append_cons, lastLine_of_not_mem hline]
    rw [List.getLast?_append, List.getLast?_cons] at h
    cases hl : line.getLast? with
    | none => rfl
    | some x =>
      rw [hl] at h
      exact h

/-- The first line of a text. -/
theorem exists_firstLine (w : Text) :
    ∃ line, '\n' ∉ line ∧ (w = line ∨ ∃ back, w = line ++ '\n' :: back) := by
  by_cases h : '\n' ∈ w
  · obtain ⟨line, back, hsplit, hline⟩ := List.eq_append_cons_of_mem h
    exact ⟨line, hline, Or.inr ⟨back, hsplit⟩⟩
  · exact ⟨w, h, Or.inl rfl⟩

/-- What stands before the first line end of a text. -/
def firstLine (w : Text) : Text := w.lines.head?.getD []

theorem lines_eq_cons (w : Text) : w.lines = w.firstLine :: w.lines.tail := by
  obtain ⟨l, ls, hlines⟩ := List.exists_cons_of_ne_nil (splitOn_ne_nil '\n' w)
  rw [firstLine, lines, hlines]
  rfl

theorem lines_eq_concat (w : Text) : w.lines = w.lines.dropLast ++ [w.lastLine] := by
  have hne : w.lines ≠ [] := splitOn_ne_nil '\n' w
  rw [lastLine, List.getLast?_eq_some_getLast hne]
  exact (List.dropLast_concat_getLast hne).symm

theorem dropLast_lines (h : '\n' ∉ w) (v : Text) : (v ++ '\n' :: w).lines.dropLast = v.lines := by
  rw [lines_append, lines_of_not_mem h, List.dropLast_concat]

/-- What stands before a text on the line of its beginning goes to its first line. -/
theorem lines_append_of_not_mem (h : '\n' ∉ v) (w : Text) :
    (v ++ w).lines = (v ++ w.firstLine) :: w.lines.tail := by
  obtain ⟨line, hline, rfl | ⟨back, rfl⟩⟩ := exists_firstLine w
  · rw [firstLine, lines_of_not_mem hline, lines_of_not_mem (by simp [h, hline])]
    rfl
  · rw [← List.append_assoc, firstLine, lines_append, lines_append, lines_of_not_mem hline,
      lines_of_not_mem (by simp [h, hline])]
    rfl

/-- A place of a text cuts one of its lines in two. -/
theorem lines_append_lines (v w : Text) :
    (v ++ w).lines = v.lines.dropLast ++ (v.lastLine ++ w.firstLine) :: w.lines.tail := by
  obtain ⟨line, hline, rfl | ⟨front, rfl⟩⟩ := exists_lastLine v
  · rw [lines_append_of_not_mem hline, lines_of_not_mem hline, lastLine_of_not_mem hline]
    rfl
  · rw [List.append_assoc, List.cons_append, lines_append, lines_append_of_not_mem hline,
      dropLast_lines hline, lastLine_append_cons, lastLine_of_not_mem hline]

theorem length_dropLast_lines (w : Text) : w.lines.dropLast.length = w.count '\n' := by
  rw [List.length_dropLast, length_lines, Nat.add_sub_cancel]

/-- The lines before the one that holds a place. -/
theorem take_lines (v w : Text) : (v ++ w).lines.take (v.count '\n') = v.lines.dropLast := by
  rw [lines_append_lines]
  exact List.take_left' (length_dropLast_lines v)

/-- The lines behind the one that holds a place. -/
theorem drop_lines (v w : Text) : (v ++ w).lines.drop (v.count '\n' + 1) = w.lines.tail := by
  rw [lines_append_lines, ← List.drop_drop, List.drop_left' (length_dropLast_lines v)]
  rfl

theorem lines_unlines {ls : List Text} (hne : ls ≠ []) (h : ∀ l ∈ ls, '\n' ∉ l) :
    (unlines ls).lines = ls := splitOn_join h hne

/-- The number of characters of some lines, each with its line end. -/
def extent (ls : List Text) : Nat := (ls.flatMap (· ++ ['\n'])).length

/-- Behind the first line each line has its line end in front. -/
theorem unlines_eq_append (line : Text) (back : List Text) :
    unlines (line :: back) = line ++ back.flatMap ('\n' :: ·) := by
  induction back generalizing line with
  | nil => simp [unlines, join]
  | cons l back ih =>
    rw [unlines_cons (List.cons_ne_nil l back), ih l]
    rfl

/-- Before some line each line has its line end behind. -/
theorem unlines_around (front : List Text) (line : Text) (back : List Text) :
    unlines (front ++ line :: back) =
      front.flatMap (· ++ ['\n']) ++ (line ++ back.flatMap ('\n' :: ·)) := by
  induction front with
  | nil => exact unlines_eq_append line back
  | cons l front ih =>
    rw [List.cons_append, unlines_cons (by simp), ih]
    simp

/-- A text around one of its lines. -/
theorem eq_around (h : t.lines = front ++ line :: back) :
    t = front.flatMap (· ++ ['\n']) ++ (line ++ back.flatMap ('\n' :: ·)) := by
  rw [← unlines_around, ← h]
  exact (join_splitOn '\n' t).symm

theorem count_ended {ls : List Text} (h : ∀ l ∈ ls, '\n' ∉ l) :
    (ls.flatMap (· ++ ['\n'])).count '\n' = ls.length := by
  induction ls with
  | nil => rfl
  | cons l ls ih =>
    obtain ⟨hl, hls⟩ := List.forall_mem_cons.mp h
    rw [List.flatMap_cons, List.count_append, List.count_append, List.count_eq_zero.mpr hl, ih hls,
      List.length_cons]
    simp
    omega

/-- Within a line, the line ends before an offset are those of the lines before. -/
theorem count_take_of_within (h : t.lines = front ++ line :: back) (hlow : extent front ≤ offset)
    (hhigh : offset ≤ extent front + line.length) : (t.take offset).count '\n' = front.length := by
  have hmem : ∀ l ∈ front ++ line :: back, '\n' ∉ l := fun l hl =>
    not_mem_of_mem_splitOn (h ▸ hl : l ∈ t.lines)
  obtain ⟨k, rfl⟩ := Nat.exists_eq_add_of_le hlow
  have hk : k ≤ line.length := by omega
  have htake : t.take (extent front + k) = front.flatMap (· ++ ['\n']) ++ line.take k :=
    calc t.take (extent front + k)
        = (front.flatMap (· ++ ['\n']) ++ (line ++ back.flatMap ('\n' :: ·))).take
            (extent front + k) := by rw [← eq_around h]
      _ = front.flatMap (· ++ ['\n']) ++ line.take k := by
          rw [extent, List.take_length_add_append, List.take_append_of_le_length hk]
  have hline : '\n' ∉ line.take k := fun hc => hmem line (by simp) (List.mem_of_mem_take hc)
  rw [htake, List.count_append, List.count_eq_zero.mpr hline,
    count_ended fun l hl => hmem l (List.mem_append_left _ hl), Nat.add_zero]

/-- An offset that is not past the end falls on one of the lines. -/
theorem exists_within (h : offset ≤ t.length) : ∃ front line back,
    t.lines = front ++ line :: back ∧ extent front ≤ offset ∧
      offset ≤ extent front + line.length := by
  have hlines := lines_append_lines (t.take offset) (t.drop offset)
  rw [List.take_append_drop] at hlines
  have hlength := congrArg List.length (eq_around (lines_eq_concat (t.take offset)))
  rw [List.length_take_of_le h, List.length_append, ← extent, List.flatMap_nil,
    List.append_nil] at hlength
  refine ⟨_, _, _, hlines, ?_, ?_⟩
  · omega
  · rw [List.length_append]
    omega

end Text

namespace LineIndex

variable {offset : Nat}

/-- Every offset is on one of the lines. -/
theorem lineOf_le_length (t : Text) (offset : Nat) :
    1 ≤ (ofText t).lineOf offset ∧ (ofText t).lineOf offset ≤ t.lines.length := by
  have hcount : (t.take offset).count '\n' ≤ t.count '\n' := (List.take_sublist _ _).count_le _
  rw [lineOf_ofText, Text.length_lines]
  omega

/-- The number of the line at an offset is one more than the number of line ends before it. It is
that of one of the lines of the text, and the offset falls inside exactly this one: at its start,
before its end, or at the end, where the line end stands if there is one. -/
theorem lineOf_exact (t : Text) (h : offset ≤ t.length) :
    (ofText t).lineOf offset = 1 + (t.take offset).count '\n' ∧
      1 ≤ (ofText t).lineOf offset ∧ (ofText t).lineOf offset ≤ t.lines.length ∧
      ∀ front line back, t.lines = front ++ line :: back →
        ((ofText t).lineOf offset = front.length + 1 ↔
          Text.extent front ≤ offset ∧ offset ≤ Text.extent front + line.length) := by
  obtain ⟨hpos, hle⟩ := lineOf_le_length t offset
  refine ⟨(lineOf_ofText t offset).trans (Nat.add_comm _ _), hpos, hle, ?_⟩
  intro front line back hlines
  rw [lineOf_ofText, Nat.add_right_cancel_iff]
  constructor
  · intro hnumber
    -- the offset is within some line, which has the same number, so it is this one
    obtain ⟨front', line', back', hlines', hlow, hhigh⟩ := Text.exists_within h
    have hlength := Text.count_take_of_within hlines' hlow hhigh
    obtain ⟨rfl, hrest⟩ := List.append_inj (hlines'.symm.trans hlines) (hlength.symm.trans hnumber)
    obtain ⟨rfl, -⟩ := List.cons.inj hrest
    exact ⟨hlow, hhigh⟩
  · rintro ⟨hlow, hhigh⟩
    exact Text.count_take_of_within hlines hlow hhigh

/-- A line end is on the line that it ends. -/
theorem lineOf_exact_lineEnd :
    let t : Text := "a\nbc\n"
    4 ≤ t.length ∧ t[4]? = some '\n' ∧ (ofText t).lineOf 4 = 2 ∧
      Text.extent ["a"] ≤ 4 ∧ 4 ≤ Text.extent ["a"] + 2 := by
  intro t
  have hlength : 4 ≤ t.length := by decide
  obtain ⟨hcount, -, -, hwithin⟩ := lineOf_exact t hlength
  have hline : (ofText t).lineOf 4 = 2 := hcount.trans (by decide)
  exact ⟨hlength, by decide, hline, (hwithin ["a"] "bc" [""] (by decide)).mp hline⟩

end LineIndex
end ModuleGraph
