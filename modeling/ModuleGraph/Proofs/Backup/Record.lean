import ModuleGraph.Backup.Record
import ModuleGraph.Proofs.Value.Json

/-!
The record of a backup is read as it was written: `read_write`. What the version control said may
be any value without numbers.
-/

namespace ModuleGraph
namespace BackupRecord

@[simp]
theorem shown_text (t : Text) : (Value.text t).shown = t := rfl

theorem filesOf_map_text (files : List Text) :
    filesOf (.array (files.map .text)) = .ok files := by
  rw [filesOf, List.map_map]
  exact congrArg Except.ok (List.map_id'' shown_text files)

/-- The entries of a record stand for it. -/
theorem ofEntries_toEntries (r : BackupRecord) : ofEntries r.toEntries = .ok r := by
  obtain ⟨id, timestamp, version, description, files, commit⟩ := r
  simp [ofEntries, toEntries, required, entryOr, Entries.get?, filesOf_map_text, bind, Except.bind]

theorem plain_toEntries {r : BackupRecord} (h : Json.Plain r.commit) :
    Json.Plain (.table r.toEntries) := by
  refine .table _ ?_ ?_
  · simp only [toEntries, Entries.keys, List.map_cons, List.map_nil]
    decide
  · intro x hx
    simp only [toEntries, List.mem_cons, List.not_mem_nil, or_false] at hx
    rcases hx with rfl | rfl | rfl | rfl | rfl | rfl
    · exact .text _
    · exact .text _
    · exact .text _
    · exact .text _
    · refine .array _ fun v hv => ?_
      obtain ⟨t, -, rfl⟩ := List.mem_map.mp hv
      exact .text t
    · exact h

/-- A record is read as it was written. -/
theorem read_write {r : BackupRecord} (h : Json.Plain r.commit) :
    read (Utf8.encode r.write) = .ok r := by
  have hjson : Json.read r.write = some (.table r.toEntries) :=
    Json.read_writeAt _ (plain_toEntries h) 0
  rw [read, Utf8.decode?_encode]
  simp only [hjson]
  exact ofEntries_toEntries r

end BackupRecord
end ModuleGraph
