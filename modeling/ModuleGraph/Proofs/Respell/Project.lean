import ModuleGraph.Proofs.Respell.Meaning
import ModuleGraph.Proofs.Respell.Written
import ModuleGraph.Proofs.Session
import ModuleGraph.Proofs.Settings
import ModuleGraph.Respell.Project

/-!
What an analysis and a respelling of a project consist of.

* `perform_run`, `run_spec`: an analysis loads what a scan finds, and makes its graph from that;
* `backUp_cases`: the backup before a respelling;
* `project_eq_ok`, `project_spec`: a respelling goes over what the same scan finds.
-/

namespace ModuleGraph

namespace Analysis

variable {settings : Settings} {s : Session}

/-- The analysis of the whole project. -/
theorem perform_run {r : Resolver} {top : Text} {scanned : Scanned} {limit : Limit}
    (hr : settings.resolver s.cwd = .ok r) (htop : settings.sourceRoot s.cwd = .ok top)
    (hscan : s.tree.scan s.cwd (Path.tidy top) settings.scanRules = .ok scanned)
    (hlimit : settings.limit = .ok limit) :
    let loaded := Source.loadAll s.tree s.cwd limit r.marks scanned.paths
    ∃ s', (run settings none).perform s = (.ok (ofSources ⟨r, s.tree.isFile s.cwd⟩
      (Path.absolute s.cwd top) loaded.sources loaded.skipped), s') := by
  intro loaded
  simp only [run, loadSources, scan, rootOf, Run.perform_bind, Run.perform_get, Run.perform_of,
    Run.perform_note, Run.perform_pure, hr, htop, hscan, hlimit]
  exact ⟨_, rfl⟩

/-- An analysis that ends well. -/
theorem run_spec {root : Option Text} {a : Analysis} {s' : Session}
    (h : (run settings root).perform s = (.ok a, s')) :
    ∃ r top scanned limit, settings.resolver s.cwd = .ok r ∧ rootOf settings s.cwd root = .ok top ∧
      s.tree.scan s.cwd (Path.tidy top) settings.scanRules = .ok scanned ∧
      settings.limit = .ok limit ∧
      let loaded := Source.loadAll s.tree s.cwd limit r.marks scanned.paths
      a = ofSources ⟨r, s.tree.isFile s.cwd⟩ (Path.absolute s.cwd top) loaded.sources
        loaded.skipped := by
  obtain ⟨_, _, hget, h⟩ := Run.eq_ok_of_bind h
  cases hget
  obtain ⟨r, hr, h⟩ := Run.eq_ok_of_bind_of h
  obtain ⟨top, htop, h⟩ := Run.eq_ok_of_bind_of h
  obtain ⟨loaded, s₁, hloaded, h⟩ := Run.eq_ok_of_bind h
  obtain ⟨_, _, hget, hloaded⟩ := Run.eq_ok_of_bind hloaded
  cases hget
  obtain ⟨r', hr', hloaded⟩ := Run.eq_ok_of_bind_of hloaded
  cases hr.symm.trans hr'
  obtain ⟨paths, s₂, hpaths, hloaded⟩ := Run.eq_ok_of_bind hloaded
  obtain ⟨_, _, hget, hpaths⟩ := Run.eq_ok_of_bind hpaths
  cases hget
  obtain ⟨top', htop', hpaths⟩ := Run.eq_ok_of_bind_of hpaths
  cases htop'
  obtain ⟨scanned, hscan, hpaths⟩ := Run.eq_ok_of_bind_of hpaths
  cases hpaths
  obtain ⟨limit, hlimit, hloaded⟩ := Run.eq_ok_of_bind_of hloaded
  cases hloaded
  cases h
  exact ⟨r, top, scanned, limit, hr, htop, hscan, hlimit, rfl⟩

end Analysis

namespace Respell

variable {settings : Settings} {s s' : Session} {report : RespellReport}

theorem perform_backUp_of_none {dryRun backup : Bool} (h : (backup && !dryRun) = false)
    (request : RespellRequest) :
    (backUp settings { request with dryRun, backup }).perform s = (.ok none, s) := by
  rw [backUp]
  simp only [h]
  rfl

theorem perform_backUp_of_some {request : RespellRequest}
    (h : (request.backup && !request.dryRun) = true) :
    (backUp settings request).perform s =
      match ((Backups.ofSettings settings s.cwd).create settings backupDescription).perform s with
      | (.error e, s₁) => (.error e, s₁)
      | (.ok record, s₁) => (.ok (some record.id), s₁) := by
  rw [backUp]
  simp only [h, if_true, Run.perform_bind, Run.perform_get]
  rcases (Backups.create _ _ _).perform s with ⟨e | record, s₁⟩ <;> rfl

/-- Nothing is backed up, or a backup is made. -/
theorem backUp_cases {request : RespellRequest} {backup : Option Text}
    (h : (backUp settings request).perform s = (.ok backup, s')) :
    ((request.backup && !request.dryRun) = false ∧ backup = none ∧ s' = s) ∨
      (request.backup && !request.dryRun) = true ∧ ∃ record, backup = some record.id ∧
        ((Backups.ofSettings settings s.cwd).create settings backupDescription).perform s =
          (.ok record, s') := by
  cases hflags : request.backup && !request.dryRun with
  | false =>
    rw [perform_backUp_of_none hflags request] at h
    cases h
    exact Or.inl ⟨rfl, rfl, rfl⟩
  | true =>
    rw [perform_backUp_of_some hflags] at h
    split at h
    · cases h
    · rename_i record s₁ hcreate
      cases h
      exact Or.inr ⟨rfl, record, rfl, hcreate⟩

/-- The respelling of a project of which everything is known that it needs: a backup if one is
asked for, then the files that the scan listed before. -/
theorem perform_project_scanned {r : Resolver} {rules : List Rule} {top : Text} {scanned : Scanned}
    {limit : Limit} (request : RespellRequest) (hr : settings.resolver s.cwd = .ok r)
    (hrules : Respell.rules settings s.cwd request.ruleSet = .ok rules)
    (htop : Analysis.rootOf settings s.cwd request.root = .ok top)
    (hscan : s.tree.scan s.cwd top settings.scanRules = .ok scanned)
    (hlimit : settings.limit = .ok limit) :
    (project settings request).perform s =
      match (backUp settings request).perform
        { s with notices := s.notices ++ scanned.notices } with
      | (.error e, s₁) => (.error e, s₁)
      | (.ok backup, s₁) =>
        let done := Respeller.respellEach ⟨s.cwd, rules, some r, request.dryRun, limit⟩ s₁.tree
          scanned.paths
        (.ok { done.2.1 with backup },
          { s₁ with tree := done.1, notices := s₁.notices ++ done.2.2 }) := by
  simp only [project, Analysis.scan, Run.perform_bind, Run.perform_get, Run.perform_of,
    Run.perform_note, Run.perform_setTree, Run.perform_pure, hr, hrules, htop, hscan, hlimit]
  rcases (backUp settings request).perform _ with ⟨e | backup, s₁⟩ <;> rfl

/-- The respelling of the whole project without a backup. -/
theorem perform_project {r : Resolver} {rules : List Rule} {top : Text} {scanned : Scanned}
    {limit : Limit} (hr : settings.resolver s.cwd = .ok r)
    (hrules : Respell.rules settings s.cwd "computed" = .ok rules)
    (htop : settings.sourceRoot s.cwd = .ok top)
    (hscan : s.tree.scan s.cwd top settings.scanRules = .ok scanned)
    (hlimit : settings.limit = .ok limit) :
    let done := Respeller.respellEach ⟨s.cwd, rules, some r, false, limit⟩ s.tree scanned.paths
    (project settings {}).perform s = (.ok { done.2.1 with backup := none },
      { s with tree := done.1, notices := s.notices ++ scanned.notices ++ done.2.2 }) := by
  exact perform_project_scanned {} hr hrules htop hscan hlimit

/-- What a respelling did that ended well. -/
theorem project_eq_ok {request : RespellRequest}
    (h : (project settings request).perform s = (.ok report, s')) :
    ∃ r rules top scanned limit backup s₁, settings.resolver s.cwd = .ok r ∧
      Respell.rules settings s.cwd request.ruleSet = .ok rules ∧
      Analysis.rootOf settings s.cwd request.root = .ok top ∧
      s.tree.scan s.cwd top settings.scanRules = .ok scanned ∧ settings.limit = .ok limit ∧
      (backUp settings request).perform { s with notices := s.notices ++ scanned.notices } =
        (.ok backup, s₁) ∧
      let done := Respeller.respellEach ⟨s.cwd, rules, some r, request.dryRun, limit⟩ s₁.tree
        scanned.paths
      report = { done.2.1 with backup } ∧ s'.tree = done.1 ∧ s'.cwd = s₁.cwd := by
  obtain ⟨_, _, hget, h⟩ := Run.eq_ok_of_bind h
  cases hget
  obtain ⟨r, hr, h⟩ := Run.eq_ok_of_bind_of h
  obtain ⟨rules, hrules, h⟩ := Run.eq_ok_of_bind_of h
  obtain ⟨paths, s₀, hpaths, h⟩ := Run.eq_ok_of_bind h
  obtain ⟨_, _, hget, hpaths⟩ := Run.eq_ok_of_bind hpaths
  cases hget
  obtain ⟨top, htop, hpaths⟩ := Run.eq_ok_of_bind_of hpaths
  obtain ⟨scanned, hscan, hpaths⟩ := Run.eq_ok_of_bind_of hpaths
  cases hpaths
  obtain ⟨backup, s₁, hbackup, h⟩ := Run.eq_ok_of_bind h
  obtain ⟨limit, hlimit, h⟩ := Run.eq_ok_of_bind_of h
  cases h
  exact ⟨r, rules, top, scanned, limit, backup, s₁, hr, hrules, htop, hscan, hlimit, hbackup, rfl,
    rfl, rfl⟩

/-- A respelling of the whole project that ends well. -/
theorem project_spec (h : (project settings {}).perform s = (.ok report, s')) :
    ∃ r rules top scanned limit, settings.resolver s.cwd = .ok r ∧
      Respell.rules settings s.cwd "computed" = .ok rules ∧
      settings.sourceRoot s.cwd = .ok top ∧
      s.tree.scan s.cwd top settings.scanRules = .ok scanned ∧ settings.limit = .ok limit ∧
      let done := Respeller.respellEach ⟨s.cwd, rules, some r, false, limit⟩ s.tree scanned.paths
      report = { done.2.1 with backup := none } ∧ s'.tree = done.1 ∧ s'.cwd = s.cwd := by
  obtain ⟨r, rules, top, scanned, limit, backup, s₁, hr, hrules, htop, hscan, hlimit, hbackup,
    hreport, htree, hcwd⟩ := project_eq_ok h
  cases hbackup
  exact ⟨r, rules, top, scanned, limit, hr, hrules, htop, hscan, hlimit, hreport, htree, hcwd⟩

end Respell
end ModuleGraph
