import Willie.Sandbox.Plan

/-!
# Sandbox — the project under the mounts

Mounts are applied in order and a later one hides what it covers: what a
session finds at a path is decided by the last op at or above it
(`lastOver`). The project is bound second, so it is the session's to write
as long as nothing later covers it (`keepsProject_iff`).
-/

namespace Willie
namespace Sandbox

open Paths Projects

variable {spec : SessionSpec} {innerExe home ws : Path} {p : Plan} {ops ops' : List Op} {op : Op}
  {path : Path} {x : Segment}

/-! ## The last op at or above a path -/

/-- The op that decides what is found at a path. -/
def lastOver (ops : List Op) (path : Path) : Option Op :=
  (ops.filter fun op => Covers op.dest path).getLast?

theorem lastOver_append :
    lastOver (ops ++ ops') path = (lastOver ops' path).or (lastOver ops path) := by
  rw [lastOver, List.filter_append, List.getLast?_append]
  rfl

theorem lastOver_eq_none : lastOver ops path = none ↔ ∀ op ∈ ops, ¬ Covers op.dest path := by
  simp [lastOver]

theorem lastOver_singleton :
    lastOver [op] path = if Covers op.dest path then some op else none := by
  by_cases h : Covers op.dest path <;> simp [lastOver, h]

theorem lastOver_bindSelf {q : Path} {mode : PathMode} {optional : Bool} :
    lastOver [bindSelf q mode optional] path =
      if Covers q path then some (bindSelf q mode optional) else none := lastOver_singleton

theorem lastOver_covers (h : lastOver ops path = some op) : op ∈ ops ∧ Covers op.dest path := by
  have hmem := List.mem_of_getLast? h
  simpa using hmem

/-! ## A project's directory -/

/-- A path directly under the home's projects. -/
def ProjectDir (home ws : Path) : Prop := ∃ x, names ws = names home ++ ["projects".toList, x]

theorem names_under (home rel : Path) : names (under home rel) = names home ++ names rel :=
  names_append_slash home rel

/-- What lies under the home, but not in its projects, does not cover one. -/
theorem not_covers_under (hws : ProjectDir home ws) {rel : Path}
    (h : ∃ r ∈ (names rel).head?, r ≠ "projects".toList) : ¬ Covers (under home rel) ws := by
  obtain ⟨x, hx⟩ := hws
  obtain ⟨r, hhead, hr⟩ := h
  obtain ⟨rs, hrel⟩ := List.head?_eq_some_iff.mp hhead
  intro h
  rw [Covers, names_under, hx, List.prefix_append_right_inj, hrel, List.cons_prefix_cons] at h
  exact hr h.1

/-- Everything the policy grants but the extra paths lies beside it. -/
theorem not_covers_granted (hws : ProjectDir home ws) :
    (∀ op ∈ agentOps (claudeCode.agentState home), ¬ Covers op.dest ws) ∧
      (∀ root ∈ toolRoots home, ¬ Covers root ws) ∧
      (∀ cache ∈ cachePaths home, ¬ Covers cache.path ws) ∧
      ¬ Covers (home ++ "/.gitconfig") ws := by
  refine ⟨?_, ?_, ?_, ?_⟩
  · simp only [agentOps, claudeCode, List.map_cons, List.map_nil, List.forall_mem_cons]
    refine ⟨?_, ?_, ?_, by simp⟩
    · exact not_covers_under hws (by decide)
    · exact not_covers_under hws (by decide)
    · exact not_covers_under hws (by decide)
  · simp only [toolRoots, List.forall_mem_cons]
    refine ⟨?_, ?_, by simp⟩
    · exact not_covers_under hws (by decide)
    · exact not_covers_under hws (by decide)
  · simp only [cachePaths, List.forall_mem_cons]
    refine ⟨?_, ?_, ?_, by simp⟩
    · exact not_covers_under hws (by decide)
    · exact not_covers_under hws (by decide)
    · exact not_covers_under hws (by decide)
  · have h := not_covers_under hws (show ∃ r ∈ (names ".gitconfig").head?, _ by decide)
    simpa [under, String.append_assoc] using h

/-! ## What the plan leaves of it -/

/-- **The project is the session's to write**: what is found at it is the
project itself, read-write. -/
def KeepsProject (ops : List Op) (ws : Path) : Prop :=
  ∃ src dest, lastOver ops ws = some (.bind src dest .rw false) ∧ names src = names ws ∧
    names dest = names ws

/-- The last extra path at or above a path. -/
def lastExtra (extraPaths : List ExtraPath) (path : Path) : Option ExtraPath :=
  (extraPaths.filter fun extra => Covers extra.path path).getLast?

/-- The plan's binaries and extra paths spare the project: the inner binary
does not cover it, and the last extra path that does is the project itself,
read-write; if there is none, the harness binary does not cover it unless
something carries it. -/
def Spares (spec : SessionSpec) (innerExe home : Path) : Prop :=
  ¬ Covers innerExe spec.workspace ∧
    match lastExtra spec.capabilities.extraPaths spec.workspace with
    | some extra => extra.mode = .rw ∧ names extra.path = names spec.workspace
    | none => ∀ binary ∈ spec.argv.head?, Covers binary spec.workspace →
        (systemTree :: grantedRoots home spec.capabilities).any (isPrefixPath · binary) = true

instance : Decidable (Spares spec innerExe home) := by
  unfold Spares
  split <;> infer_instance

theorem lastOver_extraOps (extraPaths : List ExtraPath) (path : Path) :
    lastOver (extraOps extraPaths) path =
      (lastExtra extraPaths path).map fun extra => bindSelf extra.path extra.mode false := by
  rw [lastOver, extraOps, List.filter_map, List.getLast?_map]
  rfl

theorem lastOver_harnessOps_none {argv : List String} {carried : List Path} :
    lastOver (harnessOps argv carried) path = none ↔
      ∀ binary ∈ argv.head?, Covers binary path →
        carried.any (isPrefixPath · binary) = true := by
  rw [lastOver_eq_none, harnessOps]
  cases argv.head? with
  | none => simp
  | some binary =>
    by_cases hc : carried.any (isPrefixPath · binary) = true
    · simp [hc, -List.any_eq_true]
    · simp [hc, bindSelf, Op.dest, -List.any_eq_true]

/-- What the plan leaves at a project: the inner binary if it covers it, or
else the last extra path, or the harness binary, or the project. -/
theorem lastOver_planOps (hws : ProjectDir home spec.workspace) :
    lastOver (planOps spec claudeCode innerExe home) spec.workspace =
      (lastOver [bindSelf innerExe .ro false] spec.workspace).or
        (((lastExtra spec.capabilities.extraPaths spec.workspace).map fun extra =>
          bindSelf extra.path extra.mode false).or
        ((lastOver (harnessOps spec.argv (systemTree :: grantedRoots home spec.capabilities))
          spec.workspace).or (some (bindSelf spec.workspace .rw false)))) := by
  -- nothing else the plan grants lies over the project
  obtain ⟨hagent, hroots, hcaches, hgit⟩ := not_covers_granted hws
  have hbase : lastOver [.tmpfs home "0700", bindSelf spec.workspace .rw false] spec.workspace =
      some (bindSelf spec.workspace .rw false) := by
    rw [← List.singleton_append, lastOver_append, lastOver_bindSelf,
      if_pos (Covers.refl spec.workspace), Option.some_or]
  have hagent' : lastOver (if spec.capabilities.agentState then
      agentOps (claudeCode.agentState home) else []) spec.workspace = none := by
    split
    · exact lastOver_eq_none.mpr hagent
    · rfl
  have hroots' : lastOver ((grantedRoots home spec.capabilities).map fun root =>
      bindSelf root .ro true) spec.workspace = none := by
    refine lastOver_eq_none.mpr (List.forall_mem_map.mpr fun root hroot => ?_)
    unfold grantedRoots at hroot
    split at hroot
    · exact hroots root hroot
    · simp at hroot
  have hcaches' : lastOver (if spec.capabilities.cachesRw then
      cacheOps home spec.projectId else []) spec.workspace = none := by
    split
    · exact lastOver_eq_none.mpr (List.forall_mem_map.mpr hcaches)
    · rfl
  have hgit' : lastOver (if spec.capabilities.gitIdentity then
      [bindSelf (home ++ "/.gitconfig") .ro false] else []) spec.workspace = none := by
    split
    · exact lastOver_eq_none.mpr (List.forall_mem_singleton.mpr hgit)
    · rfl
  simp only [planOps, lastOver_append, lastOver_extraOps, hbase, hagent', hroots', hcaches', hgit',
    Option.none_or]

/-- **Exactly when the project is the session's to write.** -/
theorem keepsProject_iff (hplan : plan spec claudeCode innerExe = .ok p)
    (hws : ProjectDir p.home spec.workspace) :
    KeepsProject p.ops spec.workspace ↔ Spares spec innerExe p.home := by
  rw [KeepsProject, (plan_ok hplan).2.2, lastOver_planOps hws, lastOver_bindSelf]
  by_cases hinner : Covers innerExe spec.workspace
  · refine iff_of_false ?_ fun h => h.1 hinner
    rintro ⟨src, dest, h, -⟩
    simp [bindSelf, hinner] at h
  rw [if_neg hinner, Option.none_or]
  simp only [Spares, hinner, not_false_eq_true, true_and]
  cases lastExtra spec.capabilities.extraPaths spec.workspace with
  | some extra =>
    constructor
    · rintro ⟨src, dest, h, hsrc, -⟩
      simp only [Option.map_some, Option.some_or, bindSelf, Option.some.injEq, Op.bind.injEq] at h
      obtain ⟨rfl, -, hmode, -⟩ := h
      exact ⟨hmode, hsrc⟩
    · rintro ⟨hmode, hnames⟩
      exact ⟨extra.path, extra.path, by simp [bindSelf, hmode], hnames, hnames⟩
  | none =>
    rw [← lastOver_harnessOps_none, Option.map_none, Option.none_or]
    constructor
    · rintro ⟨src, dest, h, -⟩
      -- the harness binary is bound read-only
      by_contra hne
      obtain ⟨op, hop⟩ := Option.ne_none_iff_exists'.mp hne
      rw [hop, Option.some_or] at h
      obtain rfl := Option.some.inj h
      have hmem := (lastOver_covers hop).1
      unfold harnessOps at hmem
      split at hmem
      · split at hmem
        · simp at hmem
        · simp [bindSelf] at hmem
      · simp at hmem
    · intro hnone
      rw [hnone, Option.none_or]
      exact ⟨_, _, rfl, rfl, rfl⟩

/-- A session that has a path on a drive besides. -/
theorem keepsProject_drive : ∃ p,
    plan (projectSpec [⟨"/mnt/c/out", .rw⟩]) claudeCode supervisorExe = .ok p ∧
      KeepsProject p.ops "/home/willie/projects/x" := by
  obtain ⟨p, hplan⟩ : ∃ p,
    plan (projectSpec [⟨"/mnt/c/out", .rw⟩]) claudeCode supervisorExe = .ok p := ⟨_, rfl⟩
  have hhome : p.home = "/home/willie" := (Option.some.inj (plan_ok hplan).1).symm
  refine ⟨p, hplan, (keepsProject_iff hplan ?_).mpr ?_⟩
  · exact ⟨"x".toList, by rw [hhome]; decide⟩
  · rw [hhome]
    decide

/-- **An extra path takes the project away**: the guard accepts the project's
own directory, read-only, and it is mounted over the project. -/
theorem project_read_only :
    resolve claudeCode.defaultCapabilities
        { extraPaths := [⟨"/home/willie/projects/x", .ro⟩] } "/home/willie" =
      .ok (projectSpec [⟨"/home/willie/projects/x", .ro⟩]).capabilities ∧
    ∃ p, plan (projectSpec [⟨"/home/willie/projects/x", .ro⟩]) claudeCode supervisorExe = .ok p ∧
      ¬ KeepsProject p.ops "/home/willie/projects/x" := by
  refine ⟨by decide, _, rfl, ?_⟩
  have hlast : lastOver (planOps (projectSpec [⟨"/home/willie/projects/x", .ro⟩]) claudeCode
      supervisorExe "/home/willie") "/home/willie/projects/x" =
        some (bindSelf "/home/willie/projects/x" .ro false) := by decide
  rintro ⟨src, dest, h, -⟩
  exact absurd (hlast.symm.trans h) (by simp [bindSelf])

end Sandbox
end Willie
