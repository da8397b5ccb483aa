import ModuleGraph.Proofs.Files.Beside
import ModuleGraph.Proofs.Session
import ModuleGraph.Proofs.Value.Chunks
import ModuleGraph.Report.Document
import Mathlib.Data.List.TakeWhile

/-!
Storing a text as a whole or not at all, step by step.

* `encodeChunks_map`, `encodeChunks_eq_ok`, `encodeChunks_indentedChunks`: a text is encoded to its
  end exactly if it does not break off and all of it has an encoding;
* `perform_makeParents`: the directories are made, or some of them are left;
* `perform_makeTemporary`: the temporary file is made where nothing stood, or nothing is changed;
* `perform_discard`, `perform_writeChunks`: it is removed, and filled;
* `perform_writeBeside_of_ok`, `perform_writeBeside`: the text is put in its place, or the temporary
  file is removed;
* `perform_store`, `store_cases`: so a text that is not stored leaves nothing but directories.
-/

namespace ModuleGraph

/-- The bytes stand at a place that the path leads to, a link at its end not followed; the
directories above it were made first, and nothing else is new. -/
def Tree.WrittenTo (t u : Tree) (cwd path : Text) (bytes : Bytes) : Prop :=
  ∃ made q, t.makeDirectories cwd (Path.parent path) true = .ok made ∧
    made.locate false cwd path = .ok q ∧ u.find? q = some (.file bytes) ∧
    ∀ p, p ≠ q → u.find? p = made.find? p

namespace Document

variable {cwd path temporary : Text} {chunks : List Json.Chunk} {bytes : Bytes} {fault : Fault}
  {s s₁ : Session} {t : Tree} {p : Place}

/-- Texts are encoded one after the other up to the first that has no encoding. -/
theorem encodeChunks_map (ts : List Text) :
    encodeChunks (ts.map .ok) =
      (Utf8.encodeKeeping (ts.takeWhile Utf8.isClean).flatten,
        if ts.all Utf8.isClean then none else some .notEncodable) := by
  induction ts with
  | nil => rfl
  | cons t ts ih =>
    rw [List.map_cons, encodeChunks]
    cases hclean : Utf8.isClean t with
    | true =>
      rw [if_pos rfl, ih, List.takeWhile_cons_of_pos hclean, List.flatten_cons,
        Utf8.encodeKeeping_append, List.all_cons, hclean, Bool.true_and]
    | false =>
      rw [if_neg Bool.false_ne_true, List.takeWhile_cons_of_neg (by simp [hclean]), List.all_cons,
        hclean]
      rfl

/-- What is encoded to its end does not break off. -/
theorem encodeChunks_eq_ok (h : encodeChunks chunks = (bytes, none)) :
    ∃ ts : List Text, chunks = ts.map .ok ∧ (∀ t ∈ ts, Utf8.isClean t = true) ∧
      bytes = Utf8.encodeKeeping ts.flatten := by
  have hok : ∃ ts : List Text, chunks = ts.map .ok := by
    induction chunks generalizing bytes with
    | nil => exact ⟨[], rfl⟩
    | cons chunk chunks ih =>
      cases chunk with
      | error fault => cases h
      | ok text =>
        rw [encodeChunks] at h
        split at h
        · obtain ⟨ts, rfl⟩ := ih (Prod.ext rfl (Prod.mk.inj h).2)
          exact ⟨text :: ts, rfl⟩
        · cases h
  obtain ⟨ts, rfl⟩ := hok
  rw [encodeChunks_map, Prod.mk.injEq] at h
  obtain ⟨rfl, hnone⟩ := h
  have hall : ts.all Utf8.isClean = true := by
    by_contra hnot
    rw [if_neg hnot] at hnone
    cases hnone
  rw [List.all_eq_true] at hall
  exact ⟨ts, rfl, hall, by rw [List.takeWhile_eq_self_iff.mpr hall]⟩

/-- A text ends at a fault of its own, or where it has no encoding. -/
theorem encodeChunks_eq_error (h : encodeChunks chunks = (bytes, some fault)) :
    fault ∈ Json.faults chunks ∨ fault = .notEncodable := by
  induction chunks generalizing bytes with
  | nil => cases h
  | cons chunk chunks ih =>
    cases chunk with
    | error f =>
      cases h
      exact .inl List.mem_cons_self
    | ok text =>
      rw [encodeChunks] at h
      rw [Json.faults_ok_cons]
      split at h
      · exact ih (Prod.ext rfl (Prod.mk.inj h).2)
      · cases h
        exact .inr rfl

/-- The JSON text of a value without moments is encoded to its end if it has an encoding. -/
theorem encodeChunks_indentedChunks {v : Value} (hv : v.IsJson) :
    ∃ bytes, encodeChunks (Json.indentedChunks v) = (bytes,
        if Utf8.isClean (Json.indented v) then none else some .notEncodable) ∧
      (Utf8.isClean (Json.indented v) = true → bytes = Utf8.encodeKeeping (Json.indented v)) := by
  obtain ⟨ts, hchunks, htext, hclosed⟩ := Json.spells_chunksAt (l := ⟨some 2, false⟩) rfl 0 v hv
  have hall : ts.all Utf8.isClean = Utf8.isClean (Json.indented v) := by
    rw [Json.indented, ← htext]
    clear hchunks htext
    induction ts with
    | nil => rfl
    | cons t ts ih =>
      rw [List.forall_mem_cons] at hclosed
      rw [List.flatten_cons, hclosed.1.isClean_append, List.all_cons, ih hclosed.2]
  refine ⟨_, by rw [Json.indentedChunks, hchunks, encodeChunks_map, hall], fun hclean => ?_⟩
  rw [hclean, List.all_eq_true] at hall
  rw [List.takeWhile_eq_self_iff.mpr hall, htext]
  rfl

/-- A value whose text is encoded to its end has a JSON text with an encoding. -/
theorem isJson_of_encodeChunks {v : Value}
    (h : encodeChunks (Json.indentedChunks v) = (bytes, none)) :
    v.IsJson ∧ v.IsEncodable ∧ bytes = Utf8.encodeKeeping (Json.indented v) := by
  have hv : v.IsJson := by
    obtain ⟨ts, hchunks, -, -⟩ := encodeChunks_eq_ok h
    have hnone : Json.faults (ts.map .ok) = [] := by
      rw [Json.faults, List.filterMap_map]
      exact List.filterMap_eq_nil_iff.mpr fun _ _ => rfl
    rw [← hchunks, Json.indentedChunks, Json.faults_chunksAt] at hnone
    exact List.map_eq_nil_iff.mp hnone
  obtain ⟨_, heq, hbytes⟩ := encodeChunks_indentedChunks hv
  rw [h, Prod.mk.injEq] at heq
  obtain ⟨rfl, hnone⟩ := heq
  have hclean : Utf8.isClean (Json.indented v) = true := by
    by_contra hnot
    rw [if_neg hnot] at hnone
    cases hnone
  exact ⟨hv, (Json.isClean_indented v).mp hclean, hbytes hclean⟩

/-- The directories are made, or some of them are and one is refused. -/
theorem perform_makeParents (cwd lead : Text) (existOk : Bool) (names : List Text) (s : Session) :
    (∃ made, Tree.makeWithParents cwd lead existOk s.tree names = .ok made ∧
      (makeParents cwd lead existOk names).perform s = (.ok (), { s with tree := made })) ∨
    ∃ e left, Tree.makeWithParents cwd lead existOk s.tree names = .error e ∧
      (makeParents cwd lead existOk names).perform s = (.error (.file e), { s with tree := left }) ∧
      s.tree.MoreDirectories left := by
  induction names generalizing existOk with
  | nil =>
    rw [makeParents, Run.perform_change, Tree.makeWithParents]
    cases s.tree.makeOne cwd (Path.write lead []) existOk with
    | ok made => exact .inl ⟨made, rfl, rfl⟩
    | error e => exact .inr ⟨e, s.tree, rfl, rfl, .refl _⟩
  | cons name above ih =>
    rw [makeParents, Run.perform_tryCatch, Run.perform_change, Tree.makeWithParents]
    cases s.tree.makeOne cwd (Path.write lead (name :: above).reverse) existOk with
    | ok made => exact .inl ⟨made, rfl, rfl⟩
    | error e =>
      cases e with
      | notFound =>
        -- the directories above are made with `existOk`, whatever is asked of the last one
        dsimp only
        rw [Run.perform_bind]
        rcases ih true with ⟨made, hmade, hrun⟩ | ⟨e, left, hmade, hrun, hmore⟩
        · rw [hrun, hmade]
          dsimp only
          rw [Run.perform_change]
          dsimp only
          have hgrown : s.tree.MoreDirectories made := Tree.moreDirectories_makeWithParents hmade
          cases made.makeOne cwd (Path.write lead (name :: above).reverse) existOk with
          | ok last => exact .inl ⟨last, rfl, rfl⟩
          | error e => exact .inr ⟨e, made, rfl, rfl, hgrown⟩
        · rw [hrun, hmade]
          exact .inr ⟨e, left, rfl, rfl, hmore⟩
      | _ => exact .inr ⟨_, s.tree, rfl, rfl, .refl _⟩

theorem perform_makeTemporary_cons (cwd path candidate : Text) (rest : List Text) (s : Session) :
    (makeTemporary cwd path (candidate :: rest)).perform s =
      match s.tree.createFile cwd (temporaryPath cwd path candidate) with
      | .ok u => (.ok (temporaryPath cwd path candidate), { s with tree := u })
      | .error .exists => (makeTemporary cwd path rest).perform s
      | .error e => (.error (.file e), s) := by
  rw [makeTemporary, Run.perform_get_bind]
  cases s.tree.createFile cwd (temporaryPath cwd path candidate) with
  | ok u => rfl
  | error e => cases e <;> rfl

/-- The temporary file is made where nothing stood, or nothing is changed. -/
theorem perform_makeTemporary (cwd path : Text) (candidates : List Text) (s : Session) :
    (∃ temporary u p, s.tree.locate false cwd temporary = .ok p ∧ s.tree.Beside u p [] ∧
      (makeTemporary cwd path candidates).perform s = (.ok temporary, { s with tree := u })) ∨
    ∃ e, (makeTemporary cwd path candidates).perform s = (.error (.file e), s) := by
  induction candidates with
  | nil => exact .inr ⟨.exists, rfl⟩
  | cons candidate rest ih =>
    rw [perform_makeTemporary_cons]
    rcases s.tree.createFile_cases cwd (temporaryPath cwd path candidate) with
      ⟨u, p, hcreate, hl, hbeside⟩ | ⟨e, hcreate⟩
    · rw [hcreate]
      exact .inl ⟨_, u, p, hl, hbeside, rfl⟩
    · rw [hcreate]
      cases e with
      | «exists» => exact ih
      | _ => exact .inr ⟨_, rfl⟩

section Temporary

variable {u : Tree} (hl : t.locate false cwd temporary = .ok p) (h : t.Beside s.tree p bytes)
include hl h

/-- Without the temporary file the tree is as it was. -/
theorem perform_discard : ∃ after, t.SameEntries after ∧
    (discard cwd temporary).perform s = (.ok (), { s with tree := after }) := by
  obtain ⟨after, hunlink, hsame⟩ := h.unlink hl
  refine ⟨after, hsame, ?_⟩
  rw [discard, Run.perform_get_bind]
  rw [if_pos (h.present hl), Run.perform_change, hunlink]

/-- What is encoded of a text is added to the file. -/
theorem perform_writeChunks (chunks : List Json.Chunk) :
    ∃ u, t.Beside u p (bytes ++ (encodeChunks chunks).1) ∧
      (writeChunks cwd temporary chunks).perform s =
        match (encodeChunks chunks).2 with
        | none => (.ok (), { s with tree := u })
        | some fault => (.error fault, { s with tree := u }) := by
  obtain ⟨u, happend, hbeside⟩ := h.append hl (encodeChunks chunks).1
  refine ⟨u, hbeside, ?_⟩
  rw [writeChunks]
  dsimp only
  rw [Run.perform_bind, Run.perform_change, happend]
  dsimp only
  cases (encodeChunks chunks).2 <;> rfl

end Temporary

/-- A text is put in its place by way of a temporary file, or the temporary file is removed. -/
theorem perform_writeBeside_of_ok {draw : Tree → List Text} {u : Tree} (chunks : List Json.Chunk)
    (hmade : (makeTemporary cwd path (draw s.tree)).perform s =
      (.ok temporary, { s with tree := u }))
    (hl : s.tree.locate false cwd temporary = .ok p) (h : s.tree.Beside u p []) :
    let ended := (writeBeside draw cwd path chunks).perform s
    (∀ bytes v, encodeChunks chunks = (bytes, none) → s.tree.replaceFile cwd path bytes = .ok v →
      ∃ after, ended = (.ok (), { s with tree := after }) ∧ v.SameEntries after) ∧
    (∀ bytes e, encodeChunks chunks = (bytes, none) →
      s.tree.replaceFile cwd path bytes = .error e →
      ∃ e after, ended = (.error (.file e), { s with tree := after }) ∧ s.tree.SameEntries after) ∧
    ∀ bytes fault, encodeChunks chunks = (bytes, some fault) →
      ∃ after, ended = (.error fault, { s with tree := after }) ∧ s.tree.SameEntries after := by
  intro ended
  obtain ⟨w, hw, hwrite⟩ := perform_writeChunks (s := { s with tree := u }) hl h chunks
  rw [List.nil_append] at hw
  have hended : ended = (tryCatch (do
        writeChunks cwd temporary chunks
        Run.change fun t => t.moveFile cwd temporary path)
      fun fault => do discard cwd temporary; throw fault : Run Unit).perform
        { s with tree := u } := by
    show (writeBeside draw cwd path chunks).perform s = _
    rw [writeBeside, Run.perform_get_bind]
    rw [Run.perform_bind, hmade]
  have hdiscard : ∀ fault, ∃ after, s.tree.SameEntries after ∧
      (do discard cwd temporary; throw fault : Run Unit).perform { s with tree := w } =
        (.error fault, { s with tree := after }) := by
    intro fault
    obtain ⟨after, hsame, hrun⟩ := perform_discard (s := { s with tree := w }) hl hw
    refine ⟨after, hsame, ?_⟩
    rw [Run.perform_bind, hrun]
    rfl
  rw [Run.perform_tryCatch, Run.perform_bind, hwrite] at hended
  refine ⟨fun bytes v henc hput => ?_, fun bytes e henc hput => ?_, fun bytes fault henc => ?_⟩
  · rw [henc] at hw hended
    obtain ⟨after, hmove, hsame⟩ := hw.moveFile hl hput
    dsimp only at hended
    rw [Run.perform_change, hmove] at hended
    exact ⟨after, hended, hsame⟩
  · rw [henc] at hw hended
    obtain ⟨e, hmove⟩ := hw.moveFile_error hl hput
    obtain ⟨after, hsame, hrun⟩ := hdiscard (.file e)
    dsimp only at hended
    rw [Run.perform_change, hmove] at hended
    exact ⟨e, after, hended.trans hrun, hsame⟩
  · rw [henc] at hended
    obtain ⟨after, hsame, hrun⟩ := hdiscard fault
    exact ⟨after, hended.trans hrun, hsame⟩

/-- The text is put where the path leads to, or nothing is changed and no temporary file is left. -/
theorem perform_writeBeside (draw : Tree → List Text) (cwd path : Text) (chunks : List Json.Chunk)
    (s : Session) :
    (∃ bytes v after, encodeChunks chunks = (bytes, none) ∧
      s.tree.replaceFile cwd path bytes = .ok v ∧ v.SameEntries after ∧
      (writeBeside draw cwd path chunks).perform s = (.ok (), { s with tree := after })) ∨
    ∃ fault after, (writeBeside draw cwd path chunks).perform s =
        (.error fault, { s with tree := after }) ∧ s.tree.SameEntries after ∧
      ((∃ e, fault = .file e) ∨ ∃ bytes, encodeChunks chunks = (bytes, some fault)) := by
  rcases perform_makeTemporary cwd path (draw s.tree) s with
    ⟨temporary, u, p, hl, hbeside, hmade⟩ | ⟨e, hrefused⟩
  · obtain ⟨hwhole, hkept, hbroken⟩ :=
      perform_writeBeside_of_ok chunks hmade hl hbeside
    rcases henc : encodeChunks chunks with ⟨bytes, _ | fault⟩
    · cases hput : s.tree.replaceFile cwd path bytes with
      | ok v =>
        obtain ⟨after, hended, hsame⟩ := hwhole bytes v henc hput
        exact .inl ⟨bytes, v, after, rfl, hput, hsame, hended⟩
      | error e =>
        obtain ⟨e, after, hended, hsame⟩ := hkept bytes e henc hput
        exact .inr ⟨_, after, hended, hsame, .inl ⟨e, rfl⟩⟩
    · obtain ⟨after, hended, hsame⟩ := hbroken bytes fault henc
      exact .inr ⟨fault, after, hended, hsame, .inr ⟨bytes, rfl⟩⟩
  · refine .inr ⟨.file e, s.tree, ?_, fun _ => rfl, .inl ⟨e, rfl⟩⟩
    rw [writeBeside, Run.perform_get_bind]
    rw [Run.perform_bind, hrefused]

/-- What is left to do for a text once the directories above it are made. -/
theorem perform_store (draw : Tree → List Text) (path : Text) (chunks : List Json.Chunk)
    (s : Session) :
    (∃ made, s.tree.makeDirectories s.cwd (Path.parent path) true = .ok made ∧
      (store draw path chunks).perform s =
        match (writeBeside draw s.cwd path chunks).perform { s with tree := made } with
        | (.ok a, s) => (.ok a, s)
        | (.error fault, s) => (.error (refusal path fault), s)) ∨
    ∃ e left, s.tree.makeDirectories s.cwd (Path.parent path) true = .error e ∧
      s.tree.MoreDirectories left ∧
      (store draw path chunks).perform s =
        (.error (.reportNotWritten path e), { s with tree := left }) := by
  have hstore : (store draw path chunks).perform s =
      match (do
          makeParents s.cwd (Path.root (Path.parent path)) true
            (Path.names (Path.parent path)).reverse
          writeBeside draw s.cwd path chunks : Run Unit).perform s with
      | (.ok a, s) => (.ok a, s)
      | (.error fault, s) => (.error (refusal path fault), s) := by
    rw [store, Run.perform_get_bind]
    rw [Run.perform_tryCatch]
    generalize Run.perform _ s = ended
    rcases ended with ⟨_ | _, _⟩ <;> rfl
  rw [hstore, Run.perform_bind]
  rcases perform_makeParents s.cwd (Path.root (Path.parent path)) true
    (Path.names (Path.parent path)).reverse s with
    ⟨made, hmade, hrun⟩ | ⟨e, left, hmade, hrun, hmore⟩
  · rw [hrun]
    exact .inl ⟨made, hmade, rfl⟩
  · rw [hrun]
    exact .inr ⟨e, left, hmade, hmore, rfl⟩

theorem writtenTo_of_sameEntries {made v after : Tree}
    (hmade : t.makeDirectories cwd (Path.parent path) true = .ok made)
    (hput : made.replaceFile cwd path bytes = .ok v) (hsame : v.SameEntries after) :
    t.WrittenTo after cwd path bytes := by
  obtain ⟨q, hl, hne, rfl⟩ := Tree.replaceFile_eq_ok hput
  refine ⟨made, q, hmade, hl, ?_, fun p hp => ?_⟩
  · rw [hsame, Tree.find?_set hne, if_pos rfl]
  · rw [hsame, Tree.find?_set hne, if_neg hp]

/-- A text is stored as a whole, or nothing but directories is new. -/
theorem store_cases (draw : Tree → List Text) (path : Text) (chunks : List Json.Chunk)
    (s : Session) :
    (∃ bytes after, encodeChunks chunks = (bytes, none) ∧
      s.tree.WrittenTo after s.cwd path bytes ∧
      (store draw path chunks).perform s = (.ok (), { s with tree := after })) ∨
    ∃ fault after, (store draw path chunks).perform s =
        (.error (refusal path fault), { s with tree := after }) ∧ s.tree.MoreDirectories after ∧
      ((∃ e, fault = .file e) ∨ ∃ bytes, encodeChunks chunks = (bytes, some fault)) := by
  rcases perform_store draw path chunks s with ⟨made, hmade, hrun⟩ | ⟨e, left, -, hmore, hrun⟩
  · rw [hrun]
    rcases perform_writeBeside draw s.cwd path chunks { s with tree := made } with
      ⟨bytes, v, after, henc, hput, hsame, hended⟩ | ⟨fault, after, hended, hsame, hreason⟩
    · rw [hended]
      exact .inl ⟨bytes, after, henc, writtenTo_of_sameEntries hmade hput hsame, rfl⟩
    · rw [hended]
      have hmore := Tree.moreDirectories_makeDirectories hmade
      exact .inr ⟨fault, after, rfl, hmore.trans hsame.moreDirectories, hreason⟩
  · exact .inr ⟨.file e, left, hrun, hmore, .inl ⟨e, rfl⟩⟩

/-- Why the JSON text of a value is not encoded to its end. -/
theorem reason_of_encodeChunks {v : Value}
    (h : encodeChunks (Json.indentedChunks v) = (bytes, some fault)) :
    fault = .wrongType ∧ ¬ v.IsJson ∨ fault = .notEncodable ∧ (v.IsJson → ¬ v.IsEncodable) := by
  rcases encodeChunks_eq_error h with hfault | rfl
  · rw [Json.indentedChunks, Json.faults_chunksAt] at hfault
    obtain ⟨iso, hiso, rfl⟩ := List.mem_map.mp hfault
    exact .inl ⟨rfl, fun hv => List.ne_nil_of_mem hiso hv⟩
  · refine .inr ⟨rfl, fun hv hencodable => ?_⟩
    obtain ⟨_, heq, -⟩ := encodeChunks_indentedChunks hv
    rw [h, (Json.isClean_indented v).mpr hencodable] at heq
    cases heq

end Document
end ModuleGraph
