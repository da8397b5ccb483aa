import ModuleGraph.Proofs.Files.Shape
import ModuleGraph.Proofs.Report.Stored
import Mathlib.Data.List.Nodup
import Mathlib.Data.List.Perm.Subperm

/-!
A document is stored as a whole or not at all.

* `Tree.Writable`: the directories above a path are there or can be made, and a file can be put
  there;
* `Writable.of_blank`: what files hold does not matter;
* `exists_free`: one of some numbers is free, if there are more of them than entries;
* `taken_of_refused`, `exists_makeTemporary`: so a temporary file can be made in every directory;
* `perform_write`: where a document can be written, only a text that has no encoding is refused;
* `store_whole_or_not`: what is left of any document, stored or not.
-/

namespace ModuleGraph

/-- Numbers are told apart by their digits. -/
theorem Text.ofNat_inj {m n : Nat} (h : Text.ofNat m = Text.ofNat n) : m = n := by
  rw [← Nat.ofDigitChars_ten_toDigits (n := m), ← Nat.ofDigitChars_ten_toDigits (n := n)]
  exact congrArg _ h

namespace Tree

variable {t u : Tree} {cwd path : Text} {D : Place}

/-- Files can be written to a path: the directories above it are there or can be made, its parent is
one of them as it is written, and it leads to none itself. -/
def Writable (t : Tree) (cwd path : Text) : Prop :=
  ∃ u, t.makeDirectories cwd (Path.parent path) true = .ok u ∧
    u.isDirectory cwd (Path.absolute cwd (Path.parent path)) = true ∧
    ∀ bytes, ∃ v, u.replaceFile cwd path bytes = .ok v

/-- There are more numbers than entries, so one of the names that are made of them is free. -/
theorem exists_free (t : Tree) (D : Place) {name : Text → Text}
    (hname : ∀ {m n}, name m = name n → m = n) :
    ∃ n ∈ Document.numbers t, t.find? (D ++ [name n]) = none := by
  by_contra hnot
  have hnot : ∀ n ∈ Document.numbers t, t.find? (D ++ [name n]) ≠ none :=
    fun n hn h => hnot ⟨n, hn, h⟩
  let places := (Document.numbers t).map fun n => D ++ [name n]
  have hnodup : places.Nodup := by
    refine (List.nodup_range.map fun m n => Text.ofNat_inj).map fun m n h => ?_
    exact hname (List.singleton_inj.mp (List.append_cancel_left h))
  have hsubset : places ⊆ t.entries.map (·.1) := by
    intro p hp
    obtain ⟨n, hn, rfl⟩ := List.mem_map.mp hp
    obtain ⟨e, he⟩ := (find?_ne_none (by simp)).mp (hnot n hn)
    exact List.mem_map.mpr ⟨_, he, rfl⟩
  have hlength := (List.subperm_of_subset hnodup hsubset).length_le
  simp only [places, Document.numbers, List.length_map, List.length_range] at hlength
  omega

end Tree

namespace Document

variable {cwd path : Text} {s : Session} {D : Place}

theorem isName_temporaryName (path : Text) (n : Nat) :
    Path.IsName (temporaryName path (Text.ofNat n)) := by
  have hlast : Path.slash ∉ Path.lastName path := by
    rw [Path.lastName]
    cases hlast : (Path.names path).getLast? with
    | none => exact List.not_mem_nil
    | some name => exact (Path.mem_names (List.mem_of_getLast? hlast)).1
  have hdigits : Path.slash ∉ Text.ofNat n := fun h =>
    absurd (Nat.isDigit_of_mem_toDigits (by decide) (by decide) h) (by decide)
  have hlength := List.length_pos_of_ne_nil (Nat.toDigits_ne_nil (b := 10) (n := n))
  have htotal : 3 ≤ (temporaryName path (Text.ofNat n)).length := by
    simp [temporaryName, Text.ofNat]
    omega
  refine ⟨?_, fun h => ?_, fun h => ?_, fun h => ?_⟩
  · simp only [temporaryName, List.cons_append, List.mem_cons, List.mem_append, not_or]
    exact ⟨by decide, hlast, by decide, hdigits⟩
  all_goals
    rw [h] at htotal
    exact absurd htotal (by decide)

/-- In a directory, a file can be created under every name that is free. -/
theorem createFile_temporary (hcwd : Path.isAbsolute cwd = true) {t : Tree}
    (hl : t.locate true cwd (Path.absolute cwd (Path.parent path)) = .ok D)
    (hD : t.find? D = some .directory) (n : Nat) :
    t.createFile cwd (temporaryPath cwd path (Text.ofNat n)) =
      match t.find? (D ++ [temporaryName path (Text.ofNat n)]) with
      | some _ => .error .exists
      | none =>
        .ok (t.set (D ++ [temporaryName path (Text.ofNat n)]) (.file [])) := by
  have hnormal := Path.isNormal_absolute hcwd (Path.parent path)
  have hname := isName_temporaryName path n
  rw [Tree.locate_normal hnormal, ← Tree.locate_normal hnormal t true []] at hl
  obtain ⟨k, hk⟩ := Tree.locate_join hnormal hl hD hname
  have hlocate := hk false
  rw [Tree.walk_singleton hname, Tree.locate_normal (Path.isNormal_join hnormal hname),
    ← Tree.locate_normal (Path.isNormal_join hnormal hname) t false cwd] at hlocate
  cases hf : t.find? (D ++ [temporaryName path (Text.ofNat n)]) with
  | none =>
    rw [Tree.createFile, temporaryPath, hlocate]
    dsimp only
    rw [hf]
  | some e =>
    rw [Tree.createFile, temporaryPath, hlocate]
    dsimp only
    rw [hf]

/-- A number is passed over only if its name is taken. -/
theorem taken_of_refused (hcwd : Path.isAbsolute cwd = true)
    (hl : s.tree.locate true cwd (Path.absolute cwd (Path.parent path)) = .ok D)
    (hD : s.tree.find? D = some .directory) {e : FileError} {tried : List Nat}
    (h : (makeTemporary cwd path (tried.map Text.ofNat)).perform s = (.error (.file e), s)) :
    ∀ n ∈ tried, s.tree.find? (D ++ [temporaryName path (Text.ofNat n)]) ≠ none := by
  induction tried with
  | nil => simp
  | cons m tried ih =>
    rw [List.map_cons, perform_makeTemporary_cons, createFile_temporary hcwd hl hD] at h
    cases hm : s.tree.find? (D ++ [temporaryName path (Text.ofNat m)]) with
    | none =>
      rw [hm] at h
      cases h
    | some entry =>
      rw [hm] at h
      refine List.forall_mem_cons.mpr ⟨?_, ih h⟩
      rw [hm]
      exact Option.some_ne_none entry

/-- In a directory that is there a temporary file can be made. -/
theorem exists_makeTemporary (hcwd : Path.isAbsolute cwd = true)
    (hdirectory : s.tree.isDirectory cwd (Path.absolute cwd (Path.parent path)) = true) :
    ∃ temporary u p, s.tree.locate false cwd temporary = .ok p ∧ s.tree.Beside u p [] ∧
      (makeTemporary cwd path (numbers s.tree)).perform s =
        (.ok temporary, { s with tree := u }) := by
  obtain ⟨D, hl, hD⟩ := Tree.isDirectory_iff.mp hdirectory
  have hinjective : ∀ {m n}, temporaryName path m = temporaryName path n → m = n := fun h => by
    simpa [temporaryName] using h
  obtain ⟨_, hnumber, hfree⟩ := s.tree.exists_free D hinjective
  obtain ⟨n, hn, rfl⟩ := List.mem_map.mp hnumber
  refine (perform_makeTemporary cwd path (numbers s.tree) s).resolve_right ?_
  rintro ⟨e, hrefused⟩
  exact taken_of_refused hcwd hl hD hrefused n hn hfree

/-- Where a document can be written, only a text that has no encoding is refused. -/
theorem perform_write (hcwd : Path.isAbsolute s.cwd = true) (hwritable : s.tree.Writable s.cwd path)
    {v : Value} (hv : v.IsJson) :
    (v.IsEncodable ∧ ∃ after, (write path v).perform s = (.ok (), { s with tree := after }) ∧
      s.tree.WrittenTo after s.cwd path (Utf8.encodeKeeping (Json.indented v))) ∨
    ¬ v.IsEncodable ∧ ∃ after, (write path v).perform s =
      (.error .notEncodable, { s with tree := after }) ∧ s.tree.MoreDirectories after := by
  obtain ⟨made, hmade, hdirectory, hreplace⟩ := hwritable
  rcases perform_store numbers path (Json.indentedChunks v) s with
    ⟨made', hmade', hrun⟩ | ⟨e, -, hrefused, -⟩
  · cases hmade.symm.trans hmade'
    obtain ⟨temporary, u, p, hl, hbeside, htemporary⟩ :=
      exists_makeTemporary (s := { s with tree := made }) hcwd hdirectory
    obtain ⟨hwhole, -, hbroken⟩ := perform_writeBeside_of_ok (s := { s with tree := made })
      (Json.indentedChunks v) htemporary hl hbeside
    obtain ⟨bytes, henc, hbytes⟩ := encodeChunks_indentedChunks hv
    rw [write, hrun]
    cases hclean : Utf8.isClean (Json.indented v) with
    | true =>
      rw [hclean] at henc
      obtain ⟨w, hw⟩ := hreplace bytes
      obtain ⟨after, hended, hsame⟩ := hwhole bytes w henc hw
      rw [hended]
      refine .inl ⟨(Json.isClean_indented v).mp hclean, after, rfl, ?_⟩
      exact hbytes hclean ▸ writtenTo_of_sameEntries hmade hw hsame
    | false =>
      rw [hclean] at henc
      obtain ⟨after, hended, hsame⟩ := hbroken bytes .notEncodable henc
      rw [hended]
      refine .inr ⟨fun hv => ?_, after, rfl,
        (Tree.moreDirectories_makeDirectories hmade).trans hsame.moreDirectories⟩
      rw [(Json.isClean_indented v).mpr hv] at hclean
      cases hclean
  · rw [hmade] at hrefused
    cases hrefused

/-- A document is stored as a whole or not at all, whatever value it is, wherever its path leads to
and whatever names are tried for the temporary file. Either the place at the end of the path holds
the whole JSON text, and every other place is as it was or is a directory made on the way; or there
is a fault, and all that is new are directories. No temporary file is left in either case, since no
place but that one has a file that was not there. And where files can be written, every document is
stored that has a JSON text with an encoding. -/
theorem store_whole_or_not (draw : Tree → List Text) (path : Text) (v : Value) (s : Session) :
    let ended := (store draw path (Json.indentedChunks v)).perform s
    let after := ended.2.tree
    (Path.isAbsolute s.cwd = true → s.tree.Writable s.cwd path → v.IsJson → v.IsEncodable →
      ((write path v).perform s).1 = .ok ()) ∧
    ended.2 = { s with tree := after } ∧
    ((ended.1 = .ok () ∧ v.IsJson ∧ v.IsEncodable ∧
      ∃ made q, s.tree.makeDirectories s.cwd (Path.parent path) true = .ok made ∧
        made.locate false s.cwd path = .ok q ∧
        after.find? q = some (.file (Utf8.encodeKeeping (Json.indented v))) ∧
        (∀ p, p ≠ q → after.find? p = s.tree.find? p ∨
          s.tree.find? p = none ∧ after.find? p = some .directory) ∧
        ∀ p bytes, p ≠ q →
          (after.find? p = some (.file bytes) ↔ s.tree.find? p = some (.file bytes))) ∨
    ∃ fault, ended.1 = .error fault ∧
      ((∃ e, fault = .reportNotWritten path e) ∨ fault = .wrongType ∧ ¬ v.IsJson ∨
        fault = .notEncodable ∧ (v.IsJson → ¬ v.IsEncodable)) ∧
      (∀ p, after.find? p = s.tree.find? p ∨
        s.tree.find? p = none ∧ after.find? p = some .directory) ∧
      ∀ p bytes, after.find? p = some (.file bytes) ↔ s.tree.find? p = some (.file bytes)) := by
  refine ⟨fun hcwd hwritable hjson hencodable => ?_, ?_⟩
  · rcases perform_write hcwd hwritable hjson with ⟨-, after, hended, -⟩ | ⟨hnot, -⟩
    · rw [hended]
    · exact absurd hencodable hnot
  rcases store_cases draw path (Json.indentedChunks v) s with
    ⟨bytes, after, henc, ⟨made, q, hmade, hl, hq, hframe⟩, hended⟩ |
      ⟨fault, after, hended, hmore, hreason⟩
  · obtain ⟨hjson, hencodable, rfl⟩ := isJson_of_encodeChunks henc
    have hmore := Tree.moreDirectories_makeDirectories hmade
    rw [hended]
    refine ⟨rfl, .inl ⟨rfl, hjson, hencodable, made, q, hmade, hl, hq, fun p hp => ?_,
      fun p bytes hp => ?_⟩⟩
    · rw [hframe p hp]
      exact hmore p
    · rw [hframe p hp]
      exact hmore.file_iff
  · rw [hended]
    refine ⟨rfl, .inr ⟨_, rfl, ?_, hmore, fun _ _ => hmore.file_iff⟩⟩
    rcases hreason with ⟨e, rfl⟩ | ⟨bytes, henc⟩
    · exact .inl ⟨e, rfl⟩
    · rcases reason_of_encodeChunks henc with ⟨rfl, hreason⟩ | ⟨rfl, hreason⟩
      · exact .inr (.inl ⟨rfl, hreason⟩)
      · exact .inr (.inr ⟨rfl, hreason⟩)

end Document
end ModuleGraph
