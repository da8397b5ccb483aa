import ModuleGraph.Proofs.Path.Follow
import ModuleGraph.Proofs.Resolver

/-!
Where an aliased specifier leads from the directory of its alias.

* `pathOf_eq`: what follows the mark is a path seen from that directory;
* `basePath_inside`: so the base path is the directory, a slash and what follows the longest mark,
  in normal form, unless that begins with a slash;
* `not_basePath_inside`: after a mark without a slash at its end the directory is lost.
-/

namespace ModuleGraph
namespace Path

variable {a b : Text}

/-- In front of a relative path the directory is kept, with one slash after it if it has names. -/
theorem join_eq (h : IsNormal a) (hne : names a ≠ []) (hb : isAbsolute b = false) :
    join a b = a ++ slash :: b := by
  obtain ⟨c, hlast, hc⟩ := exists_getLast?_write h.isLead hne h.isName
  rw [← h.eq_write] at hlast
  have hempty : a.isEmpty = false := by
    cases a with
    | nil => cases hlast
    | cons => rfl
  rw [join, hb, if_neg (by decide), hlast, hempty, if_neg (by simpa using hc)]

theorem normalize_join_nil (h : IsNormal a) : normalize (join a []) = a := by
  obtain ⟨hn, hroot, -⟩ := normalize_join_spec h (b := []) rfl
  rw [hn.eq_write, hroot, names_normalize_join h rfl]
  exact h.eq_write.symm

end Path

namespace Alias

variable {a : Alias} {s : Text}

/-- What follows the mark is a path seen from the directory of the alias. -/
theorem pathOf_eq (ha : Path.IsNormal a.directory) (cwd : Text) :
    a.pathOf cwd s = Path.normalize (Path.join a.directory (s.drop a.mark.length)) := by
  rw [pathOf]
  split
  · rename_i hnil
    rw [hnil, Path.normalize_join_nil ha]
  · rw [Path.absolute, if_pos (Path.isAbsolute_join ha.absolute _)]

end Alias

namespace Resolver

/-- The base path of an aliased specifier is found from the directory `root` that its longest mark
stands for, by the steps that follow the mark, unless these begin with a slash. In other words it
is the directory, a slash and the steps, in normal form; where the directory is the root of all
directories, that slash is there already. -/
theorem basePath_inside {cwd mark dir s : Text} {entries : Entries Text}
    (hcwd : Path.isAbsolute cwd = true) (hs : Specifier.isRelative s = false)
    (hget : Entries.get? mark entries = some dir) (hstart : s.startsWith mark = true)
    (hlongest : ∀ e ∈ entries, s.startsWith e.1 = true → e.1.length ≤ mark.length)
    (hrest : Path.isAbsolute (s.drop mark.length) = false) (suffixes : List Text) (file : Text) :
    let root : Text := Path.absolute cwd dir
    let rest : Text := s.drop mark.length
    ∃ base, (ofEntries cwd entries suffixes).basePath s file = some base ∧
      (Path.names root ≠ [] → base = Path.absolute cwd (root ++ Path.slash :: rest)) ∧
      Path.IsNormal base ∧ Path.root base = Path.root root ∧
      Path.names base = Path.follow (Path.names root) (rest.splitOn Path.slash) := by
  intro root rest
  have hroot : Path.IsNormal root := Path.isNormal_absolute hcwd dir
  have hfind := find?_longest hget hstart hlongest cwd suffixes
  have hpath : Alias.pathOf ⟨mark, root⟩ cwd s = Path.normalize (Path.join root rest) :=
    Alias.pathOf_eq (a := ⟨mark, root⟩) hroot cwd
  obtain ⟨hnormal, hlead, -⟩ := Path.normalize_join_spec hroot hrest
  refine ⟨_, (basePath_of_find? hs hfind file).trans (congrArg some hpath), fun hne => ?_,
    hnormal, hlead, Path.names_normalize_join hroot hrest⟩
  have habsolute := Path.isAbsolute_join hroot.absolute rest
  rw [← Path.join_eq hroot hne hrest, Path.absolute, if_pos habsolute]

/-- Steps that leave the directory and come back, after the longer of two marks. -/
theorem basePath_inside_climbing :
    (ofEntries "/w" [("@/", "/p/src"), ("@/ui/", "design/./")] []).basePath "@/ui/../x//y"
        "/p/src/a.ts" = some ("/w/x/y" : Text) := by
  have hcwd : Path.isAbsolute "/w" = true := by decide
  have hs : Specifier.isRelative "@/ui/../x//y" = false := by decide
  let entries : Entries Text := [("@/", "/p/src"), ("@/ui/", "design/./")]
  have hget : Entries.get? "@/ui/" entries = some ("design/./" : Text) := by decide
  obtain ⟨base, hbase, hformula, -⟩ := basePath_inside hcwd hs hget (by decide) (by decide)
    (by decide) [] "/p/src/a.ts"
  rw [hbase, hformula (by decide)]
  decide

/-- If what follows the mark begins with a slash, the directory of the alias is lost. -/
theorem not_basePath_inside :
    (ofEntries "/" [("@", "/p/at")] []).basePath "@/x" "/p/a.ts" = some ("/x" : Text) ∧
      ¬ ∀ (cwd mark dir s file : Text) (entries : Entries Text), Path.isAbsolute cwd = true →
        Specifier.isRelative s = false → Entries.get? mark entries = some dir →
        s.startsWith mark = true →
        (∀ e ∈ entries, s.startsWith e.1 = true → e.1.length ≤ mark.length) →
        (ofEntries cwd entries []).basePath s file =
          some (Path.absolute cwd (Path.absolute cwd dir ++ Path.slash :: s.drop mark.length)) := by
  have hlost : (ofEntries "/" [("@", "/p/at")] []).basePath "@/x" "/p/a.ts" =
      some ("/x" : Text) := by decide +kernel
  refine ⟨hlost, fun h => ?_⟩
  have hkept := h "/" "@" "/p/at" "@/x" "/p/a.ts" [("@", "/p/at")] (by decide) (by decide)
    (by decide) (by decide) (by decide)
  rw [hlost] at hkept
  revert hkept
  decide

end Resolver
end ModuleGraph
