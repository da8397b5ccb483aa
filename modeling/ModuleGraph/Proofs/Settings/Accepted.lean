import ModuleGraph.Proofs.Settings
import ModuleGraph.Settings.Check

/-!
Settings that are accepted have the types that they should have.

* `isPositive_ofInt`: a whole number of seconds is a positive number, unless it is too large;
* `WellTyped`: the types of the settings; `WellTyped.typed`, `WellTyped.exists_describe`: then
  nothing that uses them fails;
* `Refusal`, `Checked`, `Fits`: what a check refuses a value with, what comes out of it, and the
  values that it takes as it should;
* `check_cases`, `Checked.exists_replace`: one value checked and put into the settings;
* `accepted_typed`: all values, and the ones that do not matter; `not_accepted_typed`: a truth value
  passes as a count.
-/

namespace ModuleGraph

namespace Binary64

-- powers are those of the core library, as in the definitions
attribute [local instance (high)] instPowNat

theorem le_roundDiv (num den : Nat) : num / den ≤ roundDiv num den := by
  simp only [roundDiv]
  split
  · exact Nat.le_refl _
  · split
    · exact Nat.le_succ _
    · split
      · exact Nat.le_refl _
      · exact Nat.le_succ _

/-- The exponent of a whole number is not above that of its first binary digit. -/
theorem exponentFor_le (n : Nat) : exponentFor n 1 ≤ Nat.log2 n := by
  have hone : Nat.log2 1 = 0 := rfl
  simp only [exponentFor, hone, fractionBits]
  split <;> omega

/-- With such an exponent the significand is not zero. -/
theorem roundDiv_scaled_ne_zero {n : Nat} (hn : n ≠ 0) {e : Int} (he : e ≤ Nat.log2 n) :
    roundDiv (scaled n 1 e).1 (scaled n 1 e).2 ≠ 0 := by
  have hquotient : 0 < (scaled n 1 e).1 / (scaled n 1 e).2 := by
    cases e with
    | ofNat e =>
      have hle : 2 ^ e ≤ n := (Nat.le_log2 hn).mp (Int.ofNat_le.mp he)
      simp only [scaled, Nat.one_mul]
      exact Nat.div_pos hle (Nat.two_pow_pos e)
    | negSucc e =>
      simp only [scaled, Nat.div_one]
      exact Nat.mul_pos (Nat.pos_of_ne_zero hn) (Nat.two_pow_pos (e + 1))
  exact Nat.ne_of_gt (Nat.lt_of_lt_of_le hquotient (le_roundDiv _ _))

/-- A whole number from one on is a positive number, or too large for one. -/
theorem isPositive_ofInt {n : Int} (hn : 1 ≤ n) (hfits : ofInt n ≠ .infinite false) :
    (ofInt n).isPositive = true := by
  have hsign : decide (n < 0) = false := decide_eq_false (by omega)
  have hne : n.natAbs ≠ 0 := by omega
  have hround := roundDiv_scaled_ne_zero hne (exponentFor_le n.natAbs)
  simp only [ofInt, ofRatio, hsign, if_neg hne] at hfits ⊢
  by_cases hcarry : roundDiv (scaled n.natAbs 1 (exponentFor n.natAbs 1)).1
      (scaled n.natAbs 1 (exponentFor n.natAbs 1)).2 = 2 ^ (fractionBits + 1)
  · have hpow : 2 ^ fractionBits ≠ 0 := by decide
    simp only [if_pos hcarry, if_neg hpow] at hfits ⊢
    split at hfits
    · exact absurd rfl hfits
    · rename_i hrange
      rw [if_neg hrange]
      simp [isPositive]
  · simp only [if_neg hcarry, if_neg hround] at hfits ⊢
    split at hfits
    · exact absurd rfl hfits
    · rename_i hrange
      rw [if_neg hrange]
      simp [isPositive, hround]

end Binary64

namespace Settings

variable {settings : Settings} {name : Text} {v w : Value} {values : Entries Value} {root : Text}

/-- A count is a whole number from one on, and no truth value. -/
def IsCount (v : Value) : Prop := ∃ n, v = .int n ∧ 1 ≤ n

/-- The settings have the types that they should have. The lists of texts and the aliases have no
other types to begin with. -/
structure WellTyped (s : Settings) : Prop where
  sourceDirectory : ∃ t, s.sourceDirectory = .text t
  mark : ∃ t, s.mark = .text t
  skipSame : ∃ b, s.skipSame = .bool b
  maxFileBytes : IsCount s.maxFileBytes
  readTimeout : ∃ x, s.readTimeout = .float x ∧ x.isPositive = true
  maxWorkers : IsCount s.maxWorkers
  top : IsCount s.top
  deepThreshold : IsCount s.deepThreshold

/-- The defaults are of the right types. -/
theorem wellTyped_default (root : Text) : WellTyped { projectRoot := root } where
  sourceDirectory := ⟨_, rfl⟩
  mark := ⟨_, rfl⟩
  skipSame := ⟨_, rfl⟩
  maxFileBytes := ⟨_, rfl, by decide⟩
  readTimeout := ⟨_, rfl, by decide⟩
  maxWorkers := ⟨_, rfl, by decide⟩
  top := ⟨_, rfl, by decide⟩
  deepThreshold := ⟨_, rfl, by decide⟩

theorem WellTyped.typed (h : settings.WellTyped) : settings.Typed := by
  obtain ⟨n, hn, -⟩ := h.maxFileBytes
  exact ⟨h.sourceDirectory, h.mark, n, by rw [hn]; rfl⟩

theorem textItems_listValue (ts : List Text) : textItems (listValue ts) = .ok ts := by
  rw [listValue, textItems]
  induction ts with
  | nil => rfl
  | cons t ts ih =>
    rw [List.map_cons, List.mapM_cons, ih]
    rfl

theorem aliasItems_aliasesValue (es : Entries Text) : aliasItems (aliasesValue es) = .ok es := by
  rw [aliasesValue, aliasItems]
  induction es with
  | nil => rfl
  | cons e es ih =>
    rw [List.map_cons, List.mapM_cons, ih]
    rfl

/-- A list of texts is listed with commas. -/
theorem listed_listValue (ts : List Text) :
    listed (listValue ts) = .ok (Text.join ", " ts) := by
  have hitems := textItems_listValue ts
  rw [listValue, textItems] at hitems
  rw [listValue, listed, hitems]
  rfl

/-- Everything that is listed can be shown. -/
theorem WellTyped.exists_describe (h : settings.WellTyped) (cwd : Text) :
    ∃ rows, settings.describe cwd = .ok rows := by
  have hlisted : ∀ e ∈ settings.toEntries, ∃ t, listed e.2 = .ok t := by
    obtain ⟨directory, hdirectory⟩ := h.sourceDirectory
    obtain ⟨mark, hmark⟩ := h.mark
    obtain ⟨skip, hskip⟩ := h.skipSame
    obtain ⟨bytes, hbytes, -⟩ := h.maxFileBytes
    obtain ⟨timeout, htimeout, -⟩ := h.readTimeout
    obtain ⟨workers, hworkers, -⟩ := h.maxWorkers
    obtain ⟨top, htop, -⟩ := h.top
    obtain ⟨depth, hdepth, -⟩ := h.deepThreshold
    simp only [toEntries, hdirectory, hmark, hskip, hbytes, htimeout, hworkers, htop, hdepth,
      List.forall_mem_cons, listed_listValue, Except.ok.injEq, exists_eq']
    simp [listed, aliasesValue]
  obtain ⟨roots, hroots, -⟩ := h.typed.exists_aliasRoots cwd
  rw [describe]
  refine exists_bind (exists_mapM fun e he => ?_) fun rows =>
    exists_bind ⟨roots, hroots⟩ fun _ => ⟨_, rfl⟩
  obtain ⟨name, v⟩ := e
  exact exists_bind (hlisted _ he) fun _ => ⟨_, rfl⟩

/-- What a value of a setting is refused with. -/
inductive Refusal : Fault → Prop
  | list {name : Text} (h : name ∈ listNames) : Refusal (.settingNotList name)
  | count {name : Text} (h : name ∈ countNames) : Refusal (.settingNotCount name)
  | timeout : Refusal .timeoutNotPositive
  | aliases : Refusal .aliasesNotTable

/-- What a check makes of a value that is as it should be. -/
inductive Checked : Text → Value → Prop
  | list {name : Text} (h : name ∈ listNames) (ts : List Text) : Checked name (listValue ts)
  | count {name : Text} (h : name ∈ countNames) {n : Int} (hn : 1 ≤ n) : Checked name (.int n)
  | timeout {x : Binary64} (hx : x.isPositive = true) : Checked "read_timeout" (.float x)
  | aliases (es : Entries Text) : Checked "aliases" (aliasesValue es)
  | sourceDirectory (t : Text) : Checked "src_dir" (.text t)
  | mark (t : Text) : Checked "alias_prefix" (.text t)
  | skipSame (b : Bool) : Checked "skip_same_directory" (.bool b)

/-- A value that its check takes as it should be taken. No check looks at the source directory, the
mark and the skip flag; a check takes `true` for a count, and an undefined number or one that is too
large for a time. -/
structure Fits (name : Text) (v : Value) : Prop where
  sourceDirectory : name = "src_dir" → ∃ t, v = .text t
  mark : name = "alias_prefix" → ∃ t, v = .text t
  skipSame : name = "skip_same_directory" → ∃ b, v = .bool b
  count : name ∈ countNames → v ≠ .bool true
  defined : name = "read_timeout" → v ≠ .float .nan
  range : name = "read_timeout" → ∀ n, v = .int n → Binary64.ofInt n ≠ .infinite false

theorem names_cases (hname : name ∈ names) (hroot : name ≠ "project_root") :
    name ∈ listNames ∨ name ∈ countNames ∨ name = "read_timeout" ∨ name = "aliases" ∨
      name = "src_dir" ∨ name = "alias_prefix" ∨ name = "skip_same_directory" := by
  have hnames : names = (["project_root", "src_dir", "extensions", "resolve_extensions",
    "exclude_dirs", "aliases", "alias_prefix", "skip_same_directory", "max_file_bytes",
    "read_timeout", "max_workers", "top_n", "deep_relative_threshold"] : List Text) := rfl
  rw [hnames] at hname
  simp only [List.mem_cons, List.not_mem_nil, or_false] at hname
  simp only [listNames, countNames, List.mem_cons, List.not_mem_nil, or_false]
  grind

theorem checkTimeout_cases (h : Fits "read_timeout" v) :
    (∃ x : Binary64, checkTimeout v = .ok (.float x) ∧ x.isPositive = true) ∨
      checkTimeout v = .error .timeoutNotPositive := by
  unfold checkTimeout
  split
  · rename_i x
    by_cases hx : x.isPositive = true
    · exact .inl ⟨x, if_pos (by rw [hx, Bool.true_or]), hx⟩
    · have hnan : x ≠ .nan := fun hnan => h.defined rfl (congrArg Value.float hnan)
      exact .inr (if_neg (by simp [hx, hnan]))
  · split
    · rename_i n hn
      split
      · exact .inr rfl
      · rename_i hle
        have hfits : Binary64.ofInt n ≠ .infinite false := by
          cases v with
          | int k =>
            cases hn
            exact h.range rfl _ rfl
          | bool b =>
            cases b <;> cases hn <;> decide
          | _ => cases hn
        rw [if_neg hfits]
        exact .inl ⟨_, rfl, Binary64.isPositive_ofInt (by omega) hfits⟩
    · exact .inr rfl

/-- A value of a setting is either brought into shape or refused. -/
theorem check_cases (hname : name ∈ names) (hroot : name ≠ "project_root") (h : Fits name v) :
    (∃ w, check name v = .ok w ∧ Checked name w) ∨ ∃ f, check name v = .error f ∧ Refusal f := by
  rcases names_cases hname hroot with hlist | hcount | rfl | rfl | rfl | rfl | rfl
  · unfold check
    rw [if_pos hlist]
    cases v with
    | array items => exact .inl ⟨_, rfl, .list hlist _⟩
    | _ => exact .inr ⟨_, rfl, .list hlist⟩
  · have hlist : name ∉ listNames := (by decide : ∀ n ∈ countNames, n ∉ listNames) name hcount
    unfold check
    rw [if_neg hlist, if_pos hcount]
    split
    · rename_i n hn
      split
      · rename_i hle
        cases v with
        | int k =>
          cases hn
          exact .inl ⟨_, rfl, .count hcount hle⟩
        | bool b =>
          cases b
          · cases hn
            exact absurd hle (by decide)
          · exact absurd rfl (h.count hcount)
        | _ => cases hn
      · exact .inr ⟨_, rfl, .count hcount⟩
    · exact .inr ⟨_, rfl, .count hcount⟩
  · have hcheck : check "read_timeout" v = checkTimeout v := rfl
    rw [hcheck]
    rcases checkTimeout_cases h with ⟨x, hx, hpositive⟩ | herror
    · exact .inl ⟨_, hx, .timeout hpositive⟩
    · exact .inr ⟨_, herror, .timeout⟩
  · cases v with
    | table entries => exact .inl ⟨_, rfl, .aliases _⟩
    | _ => exact .inr ⟨_, rfl, .aliases⟩
  · obtain ⟨t, rfl⟩ := h.sourceDirectory rfl
    exact .inl ⟨_, rfl, .sourceDirectory t⟩
  · obtain ⟨t, rfl⟩ := h.mark rfl
    exact .inl ⟨_, rfl, .mark t⟩
  · obtain ⟨b, rfl⟩ := h.skipSame rfl
    exact .inl ⟨_, rfl, .skipSame b⟩

/-- A value that was brought into shape can be put into the settings. -/
theorem Checked.exists_replace (hw : Checked name w) (hs : settings.WellTyped) :
    ∃ s, settings.replace name w = .ok s ∧ s.WellTyped ∧ s.projectRoot = settings.projectRoot := by
  cases hw with
  | list h ts =>
    simp only [listNames, List.mem_cons, List.not_mem_nil, or_false] at h
    rcases h with rfl | rfl | rfl
    · exact ⟨{ settings with suffixes := ts },
        congrArg (Except.map _) (textItems_listValue ts), { hs with }, rfl⟩
    · exact ⟨{ settings with resolveSuffixes := ts },
        congrArg (Except.map _) (textItems_listValue ts), { hs with }, rfl⟩
    · exact ⟨{ settings with exclude := ts },
        congrArg (Except.map _) (textItems_listValue ts), { hs with }, rfl⟩
  | count h hn =>
    simp only [countNames, List.mem_cons, List.not_mem_nil, or_false] at h
    rcases h with rfl | rfl | rfl | rfl
    · exact ⟨_, rfl, { hs with maxFileBytes := ⟨_, rfl, hn⟩ }, rfl⟩
    · exact ⟨_, rfl, { hs with maxWorkers := ⟨_, rfl, hn⟩ }, rfl⟩
    · exact ⟨_, rfl, { hs with top := ⟨_, rfl, hn⟩ }, rfl⟩
    · exact ⟨_, rfl, { hs with deepThreshold := ⟨_, rfl, hn⟩ }, rfl⟩
  | timeout hx => exact ⟨_, rfl, { hs with readTimeout := ⟨_, rfl, hx⟩ }, rfl⟩
  | aliases es =>
    exact ⟨{ settings with aliases := es },
      congrArg (Except.map _) (aliasItems_aliasesValue es), { hs with }, rfl⟩
  | sourceDirectory t => exact ⟨_, rfl, { hs with sourceDirectory := ⟨t, rfl⟩ }, rfl⟩
  | mark t => exact ⟨_, rfl, { hs with mark := ⟨t, rfl⟩ }, rfl⟩
  | skipSame b => exact ⟨_, rfl, { hs with skipSame := ⟨b, rfl⟩ }, rfl⟩

/-- One value checked and put into the settings. -/
theorem WellTyped.step_cases (hs : settings.WellTyped) (hname : name ∈ names)
    (hroot : name ≠ "project_root") (h : Fits name v) :
    (∃ f, (do settings.replace name (← check name v)) = Except.error f ∧ Refusal f) ∨
      ∃ s, (do settings.replace name (← check name v)) = Except.ok s ∧ s.WellTyped ∧
        s.projectRoot = settings.projectRoot := by
  rcases check_cases hname hroot h with ⟨w, hcheck, hw⟩ | ⟨f, hcheck, hf⟩
  · rw [hcheck]
    exact .inr (hw.exists_replace hs)
  · rw [hcheck]
    exact .inl ⟨f, rfl, hf⟩

/-- Values checked and put into the settings one after the other. -/
theorem WellTyped.foldlM_cases (hs : settings.WellTyped)
    (hvalues : ∀ e ∈ values, e.1 ∈ names ∧ e.1 ≠ "project_root" ∧ Fits e.1 e.2) :
    let result := values.foldlM (fun s (name, v) => do s.replace name (← check name v)) settings
    (∃ f, result = .error f ∧ Refusal f) ∨
      ∃ s, result = .ok s ∧ s.WellTyped ∧ s.projectRoot = settings.projectRoot := by
  induction values generalizing settings with
  | nil => exact .inr ⟨settings, rfl, hs, rfl⟩
  | cons e values ih =>
    obtain ⟨hname, hroot, hfits⟩ := hvalues e List.mem_cons_self
    intro result
    rcases hs.step_cases hname hroot hfits with ⟨f, hstep, hf⟩ | ⟨s, hstep, hs', hsame⟩
    · have hresult : result = .error f := by
        simp only [result, List.foldlM_cons]
        rw [hstep]
        rfl
      exact .inl ⟨f, hresult, hf⟩
    · have hresult : result =
          values.foldlM (fun s (name, v) => do s.replace name (← check name v)) s := by
        simp only [result, List.foldlM_cons]
        rw [hstep]
        rfl
      rw [hresult, ← hsame]
      exact ih hs' fun e he => hvalues e (List.mem_cons_of_mem _ he)

theorem mem_configurable {e : Text × Value} :
    e ∈ configurable values ↔ e ∈ values ∧ e.1 ∈ names ∧ e.1 ≠ "project_root" := by
  simp only [configurable, List.mem_filter, decide_eq_true_eq]

/-- Values that fit are refused, or they give settings of the right types, with which everything
that uses them works; a value that has the name of no setting, or that of the project root, does
not matter. -/
theorem accepted_typed (values : Entries Value) (root : Text) :
    ((∀ e ∈ values, Fits e.1 e.2) →
      (∃ f, ofValues values root = .error f ∧ Refusal f) ∨
        ∃ s, ofValues values root = .ok s ∧ s.WellTyped ∧ s.projectRoot = root ∧
          ∀ cwd, (∃ p, s.sourceRoot cwd = .ok p) ∧ (∃ roots, s.aliasRoots cwd = .ok roots) ∧
            ∃ rows, s.describe cwd = .ok rows) ∧
    ∀ xs ys name v, values = xs ++ (name, v) :: ys → name ∉ names ∨ name = "project_root" →
      ofValues values root = ofValues (xs ++ ys) root := by
  constructor
  · intro hfits
    have hconfigurable : ∀ e ∈ configurable values,
        e.1 ∈ names ∧ e.1 ≠ "project_root" ∧ Fits e.1 e.2 := fun e he => by
      obtain ⟨hvalue, hname, hroot⟩ := mem_configurable.mp he
      exact ⟨hname, hroot, hfits e hvalue⟩
    rcases (wellTyped_default root).foldlM_cases hconfigurable with herror | ⟨s, hs, hwell, hsame⟩
    · exact .inl herror
    · refine .inr ⟨s, hs, hwell, hsame, fun cwd => ?_⟩
      obtain ⟨roots, hroots, -⟩ := hwell.typed.exists_aliasRoots cwd
      exact ⟨hwell.typed.exists_sourceRoot cwd, ⟨roots, hroots⟩, hwell.exists_describe cwd⟩
  · rintro xs ys name v rfl hname
    have hskipped : configurable ((name, v) :: ys) = configurable ys := by
      refine List.filter_cons_of_neg ?_
      rcases hname with hname | hname <;> simp [hname]
    have hsame : configurable (xs ++ (name, v) :: ys) = configurable (xs ++ ys) := by
      rw [configurable, List.filter_append, ← configurable, ← configurable, hskipped, configurable,
        configurable, ← List.filter_append, ← configurable]
    rw [ofValues, hsame, ← ofValues]

/-- A configuration with a list, a count, a time, a name that means nothing and a project root. -/
def sampleValues : Entries Value := [
  ("src_dir", .text "lib"),
  ("extensions", .array [.text ".ts", .text ".js"]),
  ("colour", .int 3),
  ("top_n", .int 5),
  ("read_timeout", .int 2),
  ("project_root", .text "/q")]

theorem fits_sampleValues : ∀ e ∈ sampleValues, Fits e.1 e.2 := by
  intro e he
  simp only [sampleValues, List.mem_cons, List.not_mem_nil, or_false] at he
  rcases he with rfl | rfl | rfl | rfl | rfl | rfl <;> constructor <;> simp [countNames]
  decide

theorem accepted_typed_sample :
    (∀ e ∈ sampleValues, Fits e.1 e.2) ∧
      (∃ s, ofValues sampleValues "/p" = .ok s ∧ s.WellTyped ∧ s.projectRoot = "/p") ∧
      ofValues sampleValues "/p" = ofValues (sampleValues.take 5) "/p" := by
  have haccepted := accepted_typed sampleValues "/p"
  refine ⟨fits_sampleValues, ?_, haccepted.2 (sampleValues.take 5) [] _ _ rfl (.inr rfl)⟩
  rcases haccepted.1 fits_sampleValues with ⟨f, hf, -⟩ | ⟨s, hs, hwell, hroot, -⟩
  · have hok : (ofValues sampleValues "/p").isOk = true := rfl
    rw [hf] at hok
    cases hok
  · exact ⟨s, hs, hwell, hroot⟩

/-- A truth value is taken for a count. -/
theorem not_accepted_typed :
    ¬ ((∃ f, ofValues [("top_n", .bool true)] "/p" = .error f ∧ Refusal f) ∨
      ∃ s, ofValues [("top_n", .bool true)] "/p" = .ok s ∧ s.WellTyped) := by
  have hvalues : ofValues [("top_n", .bool true)] "/p"
      = .ok { projectRoot := "/p", top := .bool true } := rfl
  rw [hvalues]
  rintro (⟨f, hf, -⟩ | ⟨s, hs, hwell⟩)
  · cases hf
  · cases hs
    obtain ⟨n, hn, -⟩ := hwell.top
    cases hn

end Settings
end ModuleGraph
