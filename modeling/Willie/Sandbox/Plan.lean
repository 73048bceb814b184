import Willie.Sandbox.Guard

/-!
# Sandbox — the mounts of a session

`plan` turns the policy a spec carries into mounts, applied in order: the
private home, the project, what the policy grants, the binary that is run.
Every mount shows a place of the host a capability that is on names, or one
of the three a session cannot do without, or an extra path, and no extra
path reaches what the base closes (`plan_confined`).
-/

namespace Willie
namespace Sandbox

open Paths Projects

/-! ## Harnesses -/

/-- A link the sandbox recreates inside the private home. -/
structure Link where
  target : Path
  path : Path
  deriving DecidableEq, Repr

/-- Where a harness keeps its login. -/
structure AgentState where
  dir : Path
  links : List Link
  deriving DecidableEq, Repr

/-- A package cache: the name its copy is kept under, and where it is
expected. -/
structure Cache where
  name : String
  path : Path
  deriving DecidableEq, Repr

structure Harness where
  defaultCapabilities : CapabilitySet
  agentState : Path → Option AgentState

/-- A path under the home. -/
def under (home : Path) (rel : String) : Path := home ++ "/" ++ rel

def toolRoots (home : Path) : List Path := [under home ".local", under home ".dotnet"]

def cachePaths (home : Path) : List Cache :=
  [⟨"npm", under home ".npm"⟩, ⟨"nuget", under home ".nuget"⟩, ⟨"cache", under home ".cache"⟩]

def claudeCode : Harness where
  defaultCapabilities := ⟨true, true, true, true, true, []⟩
  agentState home :=
    some ⟨under home ".willie/agent-state/claude",
      [⟨".willie/agent-state/claude/dot-claude", under home ".claude"⟩,
        ⟨".willie/agent-state/claude/claude.json", under home ".claude.json"⟩]⟩

/-! ## Plans -/

/-- One change to the session's view of the file system. -/
inductive Op where
  | tmpfs (dest : Path) (perms : String)
  /-- `optional` tolerates a missing source. -/
  | bind (src dest : Path) (mode : PathMode) (optional : Bool)
  | symlink (target link : Path)
  deriving DecidableEq, Repr

/-- Where the op puts something. -/
def Op.dest : Op → Path
  | .tmpfs dest _ => dest
  | .bind _ dest _ _ => dest
  | .symlink _ link => link

/-- The place of the host the op shows. -/
def Op.source : Op → Option Path
  | .bind src _ _ _ => some src
  | _ => none

/-- What a plan reads of a session's spec. -/
structure SessionSpec where
  projectId : String
  workspace : Path
  argv : List String
  env : List (String × String)
  capabilities : CapabilitySet
  deriving DecidableEq, Repr

structure Plan where
  home : Path
  workspace : Path
  argv : List String
  innerExe : Path
  env : List (String × String)
  /-- Directories of the host that must exist first. -/
  ensureDirs : List Path
  ops : List Op
  deriving DecidableEq, Repr

inductive PlanError where
  | homeMissing
  deriving DecidableEq, Repr

def PlanError.code : PlanError → String
  | .homeMissing => "spec_invalid"

def PlanError.message : PlanError → String
  | .homeMissing => "spec.env names no HOME to make private"

/-- A path shown at its own place. -/
def bindSelf (path : Path) (mode : PathMode) (optional : Bool) : Op :=
  .bind path path mode optional

/-- The system tree, which the base binds whatever the policy says. -/
def systemTree : Path := "/usr"

/-- The login, and the links that lead to it. -/
def agentOps (state : Option AgentState) : List Op :=
  match state with
  | some state =>
    bindSelf state.dir .rw false :: state.links.map fun link => .symlink link.target link.path
  | none => []

/-- The harness binary, unless something carries it already. -/
def harnessOps (argv : List String) (carried : List Path) : List Op :=
  match argv.head? with
  | some binary =>
    if carried.any fun root => isPrefixPath root binary then []
    else [bindSelf binary .ro false]
  | none => []

/-- A project's own copy of a cache. -/
def cacheSource (home : Path) (projectId : String) (cache : Cache) : Path :=
  home ++ "/.willie/caches/" ++ projectId ++ "/" ++ cache.name

def cacheOps (home : Path) (projectId : String) : List Op :=
  (cachePaths home).map fun cache => .bind (cacheSource home projectId cache) cache.path .rw false

def extraOps (extraPaths : List ExtraPath) : List Op :=
  extraPaths.map fun extra => bindSelf extra.path extra.mode false

/-- The tool roots the policy grants. -/
def grantedRoots (home : Path) (policy : CapabilitySet) : List Path :=
  if policy.toolsRo then toolRoots home else []

/-- The mounts of a session, in order. -/
def planOps (spec : SessionSpec) (harness : Harness) (innerExe home : Path) : List Op :=
  let policy := spec.capabilities
  [.tmpfs home "0700", bindSelf spec.workspace .rw false] ++
    (if policy.agentState then agentOps (harness.agentState home) else []) ++
    ((grantedRoots home policy).map fun root => bindSelf root .ro true) ++
    harnessOps spec.argv (systemTree :: grantedRoots home policy) ++
    (if policy.cachesRw then cacheOps home spec.projectId else []) ++
    (if policy.gitIdentity then [bindSelf (home ++ "/.gitconfig") .ro false] else []) ++
    extraOps policy.extraPaths ++
    [bindSelf innerExe .ro false]

/-- **What one session gets, resolved from its spec.** -/
def plan (spec : SessionSpec) (harness : Harness) (innerExe : Path) : Except PlanError Plan :=
  match (spec.env.lookup "HOME").filter (· ≠ "") with
  | none => .error .homeMissing
  | some home => .ok {
      home
      workspace := spec.workspace
      argv := spec.argv
      innerExe
      env := spec.env
      ensureDirs :=
        if spec.capabilities.cachesRw then
          (cachePaths home).map (cacheSource home spec.projectId)
        else []
      ops := planOps spec harness innerExe home }

variable {spec : SessionSpec} {harness : Harness} {innerExe home src : Path} {p : Plan} {op : Op}

theorem plan_ok (h : plan spec harness innerExe = .ok p) :
    spec.env.lookup "HOME" = some p.home ∧ p.home ≠ "" ∧
      p.ops = planOps spec harness innerExe p.home := by
  unfold plan at h
  split at h
  · simp at h
  · rename_i home hhome
    obtain ⟨hlook, hne⟩ := Option.filter_eq_some_iff.mp hhome
    obtain rfl := Except.ok.inj h
    exact ⟨hlook, by simpa using hne, rfl⟩

/-! ## What a session sees of the host -/

/-- **What a spec grants of the host.** -/
def Granted (spec : SessionSpec) (harness : Harness) (innerExe home src : Path) : Prop :=
  src = spec.workspace ∨ spec.argv.head? = some src ∨ src = innerExe ∨
    (spec.capabilities.agentState = true ∧ ∃ state, harness.agentState home = some state ∧
      src = state.dir) ∨
    (spec.capabilities.toolsRo = true ∧ src ∈ toolRoots home) ∨
    (spec.capabilities.cachesRw = true ∧ ∃ cache ∈ cachePaths home,
      src = cacheSource home spec.projectId cache) ∨
    (spec.capabilities.gitIdentity = true ∧ src = home ++ "/.gitconfig") ∨
    ∃ extra ∈ spec.capabilities.extraPaths, src = extra.path

theorem source_agentOps {state : Option AgentState} (h : op ∈ agentOps state)
    (hsrc : op.source = some src) : ∃ s, state = some s ∧ src = s.dir := by
  cases state with
  | none => simp [agentOps] at h
  | some s =>
    rcases List.mem_cons.mp h with rfl | h
    · exact ⟨s, rfl, (Option.some.inj hsrc).symm⟩
    · obtain ⟨link, -, rfl⟩ := List.mem_map.mp h
      simp [Op.source] at hsrc

theorem source_harnessOps {argv : List String} {carried : List Path}
    (h : op ∈ harnessOps argv carried)
    (hsrc : op.source = some src) : argv.head? = some src := by
  unfold harnessOps at h
  split at h
  · rename_i binary hhead
    split at h
    · simp at h
    · obtain rfl := List.mem_singleton.mp h
      rw [hhead]
      exact hsrc
  · simp at h

/-- **Every mount shows what the spec grants.** -/
theorem granted_planOps (h : op ∈ planOps spec harness innerExe home)
    (hsrc : op.source = some src) : Granted spec harness innerExe home src := by
  simp only [planOps, List.mem_append] at h
  rcases h with (((((((h | h) | h) | h) | h) | h) | h) | h)
  · rcases List.mem_cons.mp h with rfl | h
    · simp [Op.source] at hsrc
    · obtain rfl := List.mem_singleton.mp h
      exact .inl (Option.some.inj hsrc).symm
  · split at h
    · rename_i hon
      exact .inr (.inr (.inr (.inl ⟨hon, source_agentOps h hsrc⟩)))
    · simp at h
  · obtain ⟨root, hroot, rfl⟩ := List.mem_map.mp h
    obtain rfl := Option.some.inj hsrc
    unfold grantedRoots at hroot
    split at hroot
    · rename_i hon
      exact .inr (.inr (.inr (.inr (.inl ⟨hon, hroot⟩))))
    · simp at hroot
  · exact .inr (.inl (source_harnessOps h hsrc))
  · split at h
    · rename_i hon
      obtain ⟨cache, hcache, rfl⟩ := List.mem_map.mp h
      have hcached := (Option.some.inj hsrc).symm
      exact .inr (.inr (.inr (.inr (.inr (.inl ⟨hon, cache, hcache, hcached⟩)))))
    · simp at h
  · split at h
    · rename_i hon
      obtain rfl := List.mem_singleton.mp h
      exact .inr (.inr (.inr (.inr (.inr (.inr (.inl ⟨hon, (Option.some.inj hsrc).symm⟩))))))
    · simp at h
  · obtain ⟨extra, hextra, rfl⟩ := List.mem_map.mp h
    have hpath := (Option.some.inj hsrc).symm
    exact .inr (.inr (.inr (.inr (.inr (.inr (.inr ⟨extra, hextra, hpath⟩))))))
  · obtain rfl := List.mem_singleton.mp h
    exact .inr (.inr (.inl (Option.some.inj hsrc).symm))

/-- **The plan never reopens what the policy closes.** Every mount of a spec
whose capabilities were resolved shows what a capability that is on grants,
or the workspace, the command or the inner binary, or an extra path; and
every extra path lies outside what the base closes, however it is spelled. -/
theorem plan_confined {defaults : CapabilitySet} {profile : SandboxProfile}
    (hres : resolve defaults profile home = .ok spec.capabilities) (hroot : names home ≠ [])
    (henv : spec.env.lookup "HOME" = some home) (hplan : plan spec harness innerExe = .ok p) :
    (∀ op ∈ p.ops, ∀ src, op.source = some src → Granted spec harness innerExe home src) ∧
      ∀ extra ∈ spec.capabilities.extraPaths, Outside home extra.path := by
  obtain ⟨hlook, -, hops⟩ := plan_ok hplan
  obtain rfl : home = p.home := Option.some.inj (henv.symm.trans hlook)
  refine ⟨fun op hop src hsrc => granted_planOps (hops ▸ hop) hsrc, fun extra hextra => ?_⟩
  obtain ⟨-, -, hall⟩ := resolve_ok hres
  exact (guardExtraPath_none hroot).mp (hall extra hextra).2

/-- A session of one project, and the tools and paths it may reach. -/
def projectSpec (extraPaths : List ExtraPath) : SessionSpec where
  projectId := "01J"
  workspace := "/home/willie/projects/x"
  argv := ["/home/willie/.local/bin/claude"]
  env := [("HOME", "/home/willie"), ("PATH", "/usr/bin")]
  capabilities := { claudeCode.defaultCapabilities with extraPaths }

/-- The supervisor, as the image installs it. -/
def supervisorExe : Path := "/opt/willie/bin/willie-sess"

/-- A path under a drive, however it is spelled. -/
theorem plan_confined_drive :
    Outside "/home/willie" "//mnt/./c/out/" ∧ ∃ p,
      plan (projectSpec [⟨"//mnt/./c/out/", .rw⟩]) claudeCode supervisorExe = .ok p ∧
        ∀ op ∈ p.ops, ∀ src, op.source = some src → Granted (projectSpec [⟨"//mnt/./c/out/", .rw⟩])
          claudeCode supervisorExe "/home/willie" src := by
  have hres : resolve claudeCode.defaultCapabilities { extraPaths := [⟨"//mnt/./c/out/", .rw⟩] }
      "/home/willie" = .ok (projectSpec [⟨"//mnt/./c/out/", .rw⟩]).capabilities := by
    decide
  obtain ⟨hgranted, houtside⟩ := plan_confined (p := _) hres (by decide) rfl rfl
  exact ⟨houtside _ (List.mem_singleton_self _), _, rfl, hgranted⟩

end Sandbox
end Willie
