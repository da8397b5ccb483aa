import ModuleGraph.Proofs.Files.Shape
import ModuleGraph.Proofs.Source.Load
import ModuleGraph.Proofs.Text.Utf8
import ModuleGraph.Respell.Files

/-!
What respelling files in place leaves in the tree.

* `respellFile_spec`: one file holds its respelled text afterwards, and nothing else changes;
* `respellEach_spec`: so it is with all files, if no other path leads to one that is changed.
-/

namespace ModuleGraph
namespace Respeller

variable {r : Respeller} {t u : Tree} {path : Text} {file : FileRespelling}

/-- A file was respelled at a place: what it held, and what it holds now. -/
structure Wrote (r : Respeller) (t u : Tree) (file : FileRespelling) (p : Place) (bytes : Bytes) :
    Prop where
  reads : t.Reads r.cwd file.file r.limit p bytes
  respelled : file.respelled = Respell.text r.cwd file.file r.rules (Utf8.decodeKeeping bytes)
  find : u.find? p = some (.file (Utf8.encodeKeeping file.respelled.after))

variable {cwd a b : Text}

/-- Trees that differ in the contents of files only lead to the same places. -/
theorem locate_congr (h : u.blank = t.blank) (path : Text) :
    u.locate true cwd path = t.locate true cwd path := by
  rw [← Tree.locate_blank, h, Tree.locate_blank]

theorem sameEntry_congr (h : u.blank = t.blank) :
    u.sameEntry cwd a b = t.sameEntry cwd a b := by
  rw [← Tree.sameEntry_blank, h, Tree.sameEntry_blank]

/-- What is written to a file that a path leads to. -/
theorem write_of_reads {limit : Limit} {cwd : Text} {p : Place} {bytes : Bytes}
    (h : t.Reads cwd path limit p bytes) (new : Bytes) :
    t.write cwd path new = .ok (t.set p (.file new)) := by
  rw [Tree.write, h.locate]
  dsimp only
  rw [h.find]

theorem place_ne_nil {limit : Limit} {cwd : Text} {p : Place} {bytes : Bytes}
    (h : t.Reads cwd path limit p bytes) : p ≠ [] := by
  rintro rfl
  have hfind := h.find
  cases hfind

/-- What respelling does with one file that a path leads to. -/
theorem respellFile_of_reads (hdry : r.dryRun = false) {p : Place} {bytes : Bytes}
    (h : t.Reads r.cwd path r.limit p bytes) :
    let respelled := Respell.text r.cwd path r.rules (Utf8.decodeKeeping bytes)
    ∃ file : FileRespelling, (r.respellFile t path).outcome = .ok file ∧ file.file = path ∧
      file.respelled = respelled ∧ (r.respellFile t path).tree =
        if respelled.hasChanges then t.set p (.file (Utf8.encodeKeeping respelled.after))
        else t := by
  intro respelled
  rw [respellFile, h.readSource_eq (Utf8.length_decodeKeeping_le bytes)]
  dsimp only
  cases hchanged : respelled.hasChanges with
  | true =>
    rw [hdry, write_of_reads h]
    exact ⟨_, rfl, rfl, rfl, rfl⟩
  | false => exact ⟨_, rfl, rfl, rfl, rfl⟩

/-- One file that is respelled without failure. -/
theorem respellFile_spec (hdry : r.dryRun = false)
    (h : (r.respellFile t path).outcome = .ok file) :
    file.file = path ∧ (r.respellFile t path).tree.blank = t.blank ∧
      ∃ p bytes, r.Wrote t (r.respellFile t path).tree file p bytes ∧
        ∀ q, (file.respelled.hasChanges = true → q ≠ p) →
          (r.respellFile t path).tree.find? q = t.find? q := by
  cases hread : t.readSource r.cwd path r.limit Utf8.decodeKeeping with
  | error reason =>
    rw [respellFile, hread] at h
    cases h
  | ok content =>
    obtain ⟨p, bytes, hreads, -⟩ := Tree.reads_of_readSource hread
    obtain ⟨file', houtcome, hfile, hrespelled, htree⟩ := respellFile_of_reads hdry hreads
    rw [houtcome, Except.ok.injEq] at h
    subst h
    rw [htree]
    split
    · rename_i hchanged
      have hset := Tree.find?_set (t := t) (place_ne_nil hreads)
        (.file (Utf8.encodeKeeping file'.respelled.after))
      rw [← hrespelled]
      refine ⟨hfile, Tree.blank_set hreads.find, p, bytes, ⟨hfile ▸ hreads, hfile ▸ hrespelled, ?_⟩,
        fun q hq => ?_⟩
      · rw [hset, if_pos rfl]
      · rw [hset, if_neg (hq (hrespelled ▸ hchanged))]
    · rename_i hchanged
      have hsame : file'.respelled.after = file'.respelled.before := by
        rw [hrespelled]
        simpa [Respelled.hasChanges] using hchanged
      have hbefore : file'.respelled.before = Utf8.decodeKeeping bytes := hrespelled ▸ rfl
      refine ⟨hfile, rfl, p, bytes, ⟨hfile ▸ hreads, hfile ▸ hrespelled, ?_⟩, fun q _ => rfl⟩
      rw [hreads.find, hsame, hbefore, Utf8.encodeKeeping_decodeKeeping]

/-- A first file that is respelled, and the ones after it. -/
theorem respellEach_cons (h : (r.respellFile t path).outcome = .ok file) (paths : List Text) :
    (r.respellEach t (path :: paths)).1 =
        (r.respellEach (r.respellFile t path).tree paths).1 ∧
      (r.respellEach t (path :: paths)).2.1.files =
        file :: (r.respellEach (r.respellFile t path).tree paths).2.1.files ∧
      (r.respellEach t (path :: paths)).2.1.failures =
        (r.respellEach (r.respellFile t path).tree paths).2.1.failures := by
  rw [respellEach, h]
  exact ⟨rfl, rfl, rfl⟩

/-- If none fails, the first was respelled, and so were the ones after it. -/
theorem exists_of_failures_cons {paths : List Text}
    (h : (r.respellEach t (path :: paths)).2.1.failures = []) :
    ∃ file, (r.respellFile t path).outcome = .ok file ∧
      (r.respellEach (r.respellFile t path).tree paths).2.1.failures = [] := by
  cases hstep : (r.respellFile t path).outcome with
  | error reason =>
    rw [respellEach, hstep] at h
    cases h
  | ok file => exact ⟨file, rfl, (respellEach_cons hstep paths).2.2 ▸ h⟩

/-- If none fails, every path is reported. -/
theorem map_file_respellEach (hdry : r.dryRun = false) {paths : List Text}
    (h : (r.respellEach t paths).2.1.failures = []) :
    (r.respellEach t paths).2.1.files.map (·.file) = paths := by
  induction paths generalizing t with
  | nil => rfl
  | cons path paths ih =>
    obtain ⟨file, hstep, h⟩ := exists_of_failures_cons h
    rw [(respellEach_cons hstep paths).2.1, List.map_cons, ih h, (respellFile_spec hdry hstep).1]

/-- All files, if none fails and no other path leads to a file that is changed. -/
theorem respellEach_spec (hdry : r.dryRun = false) {paths : List Text}
    (h : (r.respellEach t paths).2.1.failures = [])
    (hdistinct : (r.respellEach t paths).2.1.files.Pairwise fun f g =>
      f.respelled.hasChanges = true ∨ g.respelled.hasChanges = true →
        t.sameEntry r.cwd f.file g.file = false) :
    let u := (r.respellEach t paths).1
    u.blank = t.blank ∧
      (∀ file ∈ (r.respellEach t paths).2.1.files, ∃ p bytes, r.Wrote t u file p bytes) ∧
      ∀ q, (∀ file ∈ (r.respellEach t paths).2.1.files, file.respelled.hasChanges = true →
        t.locate true r.cwd file.file ≠ .ok q) → u.find? q = t.find? q := by
  induction paths generalizing t with
  | nil => exact ⟨rfl, by simp [respellEach], fun _ _ => rfl⟩
  | cons path₀ paths ih =>
    obtain ⟨first, hstep, h⟩ := exists_of_failures_cons h
    obtain ⟨htree, hfiles, -⟩ := respellEach_cons hstep paths
    obtain ⟨-, hblank, p, bytes, hwrote, hframe⟩ := respellFile_spec hdry hstep
    rw [hfiles] at hdistinct
    obtain ⟨hfirst, hrest⟩ := List.pairwise_cons.mp hdistinct
    have hlocate : ∀ path, (r.respellFile t path₀).tree.locate true r.cwd path =
        t.locate true r.cwd path := fun path => locate_congr hblank path
    obtain ⟨hshape, hwritten, hkeep⟩ := ih h
      (hrest.imp fun {f g} hfg hchanged => by rw [sameEntry_congr hblank, hfg hchanged])
    have hp : t.locate true r.cwd first.file = .ok p := hwrote.reads.locate
    -- a later path leads to the first place only if neither file is changed
    have hother : ∀ f ∈ (r.respellEach (r.respellFile t path₀).tree paths).2.1.files,
        first.respelled.hasChanges = true ∨ f.respelled.hasChanges = true →
          t.locate true r.cwd f.file ≠ .ok p := by
      intro f hf hchanged hl
      have hdiff := hfirst f hf hchanged
      rw [Tree.sameEntry, hp, hl] at hdiff
      simp [hwrote.reads.find] at hdiff
    rw [htree, hfiles]
    refine ⟨hshape.trans hblank, fun f hf => ?_, fun q hq => ?_⟩
    · rcases List.mem_cons.mp hf with rfl | hf
      · refine ⟨p, bytes, hwrote.reads, hwrote.respelled, ?_⟩
        rw [hkeep p fun g hg hchanged => (hlocate _).symm ▸ hother g hg (Or.inr hchanged)]
        exact hwrote.find
      · obtain ⟨q, old, hw⟩ := hwritten f hf
        have hl : t.locate true r.cwd f.file = .ok q := hlocate f.file ▸ hw.reads.locate
        have hne : first.respelled.hasChanges = true → q ≠ p := by
          rintro hchanged rfl
          exact hother f hf (Or.inl hchanged) hl
        exact ⟨q, old, ⟨hl, hframe q hne ▸ hw.reads.find, hw.reads.within⟩, hw.respelled, hw.find⟩
    · have hne : first.respelled.hasChanges = true → q ≠ p := by
        rintro hchanged rfl
        exact hq first List.mem_cons_self hchanged hp
      rw [hkeep q fun g hg hchanged =>
        (hlocate _).symm ▸ hq g (List.mem_cons_of_mem _ hg) hchanged, hframe q hne]

end Respeller
end ModuleGraph
