import ModuleGraph.Proofs.Files.Change
import ModuleGraph.Proofs.Text.Utf8
import ModuleGraph.Source.Load
import Mathlib.Data.List.Forall2

/-!
When a source is read, and what is loaded.

* `sources_loadAll`: what is loaded if every source is read;
* `mem_sources_loadAll`: what is loaded in any case.
-/

namespace ModuleGraph

variable {t : Tree} {cwd path content : Text} {limit : Limit} {decode : Bytes → Text}

/-- A path leads to a file whose size is within the limit. -/
structure Tree.Reads (t : Tree) (cwd path : Text) (limit : Limit) (p : Place) (bytes : Bytes) :
    Prop where
  locate : t.locate true cwd path = .ok p
  find : t.find? p = some (.file bytes)
  within : (bytes.length : Int) ≤ limit.bytes

/-- A source is read if its path leads to a file whose size is within the limit, and all of it if
its text is no longer than its bytes are. -/
theorem Tree.Reads.readSource_eq {p : Place} {bytes : Bytes} (h : t.Reads cwd path limit p bytes)
    (hdecode : (decode bytes).length ≤ bytes.length) :
    t.readSource cwd path limit decode = .ok (decode bytes) := by
  have hstat : t.stat cwd path = .ok (.file bytes) := by
    rw [Tree.stat, h.locate]
    dsimp only
    rw [h.find]
  have hwithin := h.within
  rw [Tree.readSource, hstat]
  dsimp only
  rw [Entry.size, if_neg (by omega), List.take_of_length_le (by omega)]

theorem Tree.reads_of_readSource (h : t.readSource cwd path limit decode = .ok content) :
    ∃ p bytes, t.Reads cwd path limit p bytes ∧
      content = (decode bytes).take (limit.bytes + 1).toNat := by
  unfold Tree.readSource Tree.stat at h
  cases hl : t.locate true cwd path with
  | error e =>
    rw [hl] at h
    cases h
  | ok p =>
    rw [hl] at h
    cases hf : t.find? p with
    | none =>
      simp only [hf] at h
      cases h
    | some e =>
      simp only [hf] at h
      split at h
      · cases h
      · rename_i hsize
        cases e with
        | directory => cases h
        | link target => cases h
        | file bytes =>
          rw [Except.ok.injEq] at h
          exact ⟨p, bytes, ⟨hl, hf, by simpa [Entry.size] using hsize⟩, h.symm⟩

/-- The sources that some paths lead to, those with contents that will not do left out. -/
def Tree.Sources (t : Tree) (cwd : Text) (marks paths : List Text) (fits : Bytes → Prop)
    (source : Source) : Prop :=
  ∃ path ∈ paths, ∃ bytes, t.read cwd path = .ok bytes ∧ fits bytes ∧
    source = Source.extract marks (Path.absolute cwd path) (Utf8.decodeReplacing bytes)

namespace Source

variable {marks paths : List Text} {source : Source}

theorem load_of_reads {p : Place} {bytes : Bytes} (h : t.Reads cwd path limit p bytes) :
    load t cwd limit marks path =
      .ok (extract marks (Path.absolute cwd path) (Utf8.decodeReplacing bytes)) := by
  rw [load, h.readSource_eq (Utf8.length_decodeReplacing_le bytes)]

theorem load_eq_ok : load t cwd limit marks path = .ok source ↔
    ∃ bytes, t.read cwd path = .ok bytes ∧ (bytes.length : Int) ≤ limit.bytes ∧
      source = extract marks (Path.absolute cwd path) (Utf8.decodeReplacing bytes) := by
  constructor
  · intro h
    cases hread : t.readSource cwd path limit Utf8.decodeReplacing with
    | error reason =>
      rw [load, hread] at h
      cases h
    | ok content =>
      obtain ⟨p, bytes, hreads, -⟩ := Tree.reads_of_readSource hread
      rw [load_of_reads hreads] at h
      cases h
      exact ⟨bytes, Tree.read_eq_ok.mpr ⟨p, hreads.locate, hreads.find⟩, hreads.within, rfl⟩
  · rintro ⟨bytes, hread, hwithin, rfl⟩
    obtain ⟨p, hlocate, hfind⟩ := Tree.read_eq_ok.mp hread
    exact load_of_reads ⟨hlocate, hfind, hwithin⟩

theorem sources_loadAll_eq (t : Tree) (cwd : Text) (limit : Limit) (marks paths : List Text) :
    (loadAll t cwd limit marks paths).sources = (loadEach t cwd limit marks paths).sources := by
  cases paths <;> rfl

/-- If every path leads to a source, these are what is loaded. -/
theorem sources_loadAll {sources : List Source}
    (h : List.Forall₂ (fun path source => load t cwd limit marks path = .ok source) paths
      sources) : (loadAll t cwd limit marks paths).sources = sources := by
  rw [sources_loadAll_eq]
  induction h with
  | nil => rfl
  | cons hload _ ih => rw [loadEach, hload, ← ih]

/-- What is loaded are the sources within the limit. -/
theorem mem_sources_loadAll : source ∈ (loadAll t cwd limit marks paths).sources ↔
    t.Sources cwd marks paths (fun bytes => (bytes.length : Int) ≤ limit.bytes) source := by
  have heach : source ∈ (loadEach t cwd limit marks paths).sources ↔
      ∃ path ∈ paths, load t cwd limit marks path = .ok source := by
    induction paths with
    | nil => simp [loadEach]
    | cons path paths ih =>
      rw [loadEach]
      cases hload : load t cwd limit marks path with
      | ok first => simp [ih, hload, eq_comm]
      | error reason => simp [ih, hload]
  simp only [sources_loadAll_eq, heach, load_eq_ok, Tree.Sources]

end Source
end ModuleGraph
