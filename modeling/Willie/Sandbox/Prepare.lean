import Willie.Common.Utf8
import Willie.Sandbox.Landlock
import Willie.Sessions.Model

/-!
# Sandbox — what must be true before a session starts

The plan is data; `prepare` is the look at the machine before it is applied.
The guard has seen the extra paths as they are written, so it runs again on
what they resolve to, and what was resolved takes the place of what was
written: a link may be pointed elsewhere between the look and the mount.
-/

namespace Willie
namespace Sandbox

open Paths Projects
open Sessions (SessionKind)

/-! ## The machine -/

/-- What `fs::metadata` tells of a path. -/
structure Metadata where
  isFile : Bool
  isDir : Bool
  mode : ℕ

/-- What the machine answers in a state of its files. Only making a directory
changes them. -/
structure Machine (σ : Type) where
  metadata : σ → Path → Option Metadata
  /-- A path of the system is bytes; an error is its text. -/
  canonicalize : σ → Path → Except String (List UInt8)
  createDirAll : σ → Path → Except String Unit × σ

variable {σ : Type}

def Machine.isFile (m : Machine σ) (s : σ) (path : Path) : Bool :=
  (m.metadata s path).any (·.isFile)

def Machine.isDir (m : Machine σ) (s : σ) (path : Path) : Bool :=
  (m.metadata s path).any (·.isDir)

def Machine.exists (m : Machine σ) (s : σ) (path : Path) : Bool := (m.metadata s path).isSome

def Machine.isExecutableFile (m : Machine σ) (s : σ) (path : Path) : Bool :=
  (m.metadata s path).any fun found => found.isFile && decide (found.mode &&& 0o111 ≠ 0)

/-- `to_string_lossy`. -/
def toStringLossy (path : List UInt8) : Path := String.ofList (Utf8.decodeLossy path)

/-! ## Errors -/

inductive PrepareError where
  | harnessUnknown (id : String)
  | plan (e : PlanError)
  | backendMissing (path : Path)
  | cacheDir (path : Path) (error : String)
  | harness (step error : String) (path : Path)
  | extraPath (path : Path) (detail : String)
  | bindSource (path : Path)
  deriving DecidableEq, Repr

def PrepareError.code : PrepareError → String
  | .harnessUnknown _ | .plan _ => "spec_invalid"
  | .backendMissing _ => "sandbox_backend_missing"
  | .cacheDir .. | .bindSource _ => "sandbox_apply_failed"
  | .harness .. => "harness_exec_failed"
  | .extraPath .. => "sandbox_profile_invalid"

def PrepareError.message : PrepareError → String
  | .harnessUnknown id => "unknown harness `" ++ id ++ "`"
  | .plan e => e.message
  | .backendMissing path => "the namespace helper is missing: " ++ path
  | .cacheDir path error => "cannot create the cache directory " ++ path ++ ": " ++ error
  | .harness step error path => step ++ ": " ++ error ++ " (" ++ path ++ ")"
  | .extraPath path detail => "`" ++ path ++ "`: " ++ detail
  | .bindSource path => "the sandbox needs " ++ path ++ ", which is not there"

/-- The text of an `io::ErrorKind::NotFound`. -/
def notFound : String := "entity not found"

def execStep : String := "cannot execute the harness"

def workspaceStep : String := "cannot enter the workspace"

/-! ## Extra paths -/

/-- The first op of the list that binds to the destination gets the source. -/
def rebindFirst (destination resolved : Path) : List Op → List Op
  | [] => []
  | .bind src dest mode optional :: ops =>
    if dest = destination then .bind resolved dest mode optional :: ops
    else .bind src dest mode optional :: rebindFirst destination resolved ops
  | op :: ops => op :: rebindFirst destination resolved ops

/-- Point one extra path's bind at what it resolved to: the last op with that
destination. -/
def rebindSource (ops : List Op) (destination resolved : Path) : List Op :=
  (rebindFirst destination resolved ops.reverse).reverse

/-- The check of one extra path, and the bind of what it resolved to. -/
def resolveExtra (m : Machine σ) (s : σ) (home : Path) (ops : List Op) (extra : ExtraPath) :
    Except PrepareError (List Op) :=
  match m.canonicalize s extra.path with
  | .error e => .error (.extraPath extra.path ("cannot be resolved: " ++ e))
  | .ok real =>
    let resolved := toStringLossy real
    match if resolved = extra.path then none else guardExtraPath resolved home with
    | some reason =>
      .error (.extraPath extra.path
        ("resolves to `" ++ resolved ++ "`, which cannot be an extra path: " ++ reason))
    | none => .ok (rebindSource ops extra.path resolved)

/-! ## The preparation -/

/-- A spec, with what chooses the harness. -/
structure LaunchSpec extends SessionSpec where
  kind : SessionKind
  harness : String
  deriving DecidableEq, Repr

/-- `SHELL_HARNESS`, which no installed harness has. -/
def shellHarness : String := "zsh"

/-- The harnesses compiled into this build. -/
def registry : List (String × Harness) := [("claude-code", claudeCode)]

/-- A shell is planned under the rules of the one agent harness. -/
def chooseHarness (spec : LaunchSpec) : Except PrepareError Harness :=
  match spec.kind with
  | .shell => if spec.harness ≠ shellHarness then .error (.harnessUnknown spec.harness)
    else .ok claudeCode
  | .agent =>
    match registry.lookup spec.harness with
    | some harness => .ok harness
    | none => .error (.harnessUnknown spec.harness)

/-- The resource limits of a session. -/
structure Rlimits where
  nproc : ℕ := 4096
  nofile : ℕ := 65536
  core : ℕ := 0
  deriving DecidableEq, Repr

/-- What the stage inside is asked for. -/
structure StageRequest where
  argv : List String
  rlimits : Rlimits
  landlock : Rules
  deriving DecidableEq, Repr

structure Prepared where
  plan : Plan
  request : StageRequest
  deriving DecidableEq, Repr

/-- The helper, the harness binary and the workspace are there. -/
def checkLaunch (m : Machine σ) (s : σ) (helper : Path) (plan : Plan) : Except PrepareError Unit :=
  let binary := plan.argv.headD ""
  if !m.isFile s helper then .error (.backendMissing helper)
  else if !m.isExecutableFile s binary then .error (.harness execStep notFound binary)
  else if !m.isDir s plan.workspace then
    .error (.harness workspaceStep notFound plan.workspace)
  else .ok ()

/-- The caches, which the plan both creates and binds. -/
def ensureDirs (m : Machine σ) : List Path → σ → Except PrepareError Unit × σ
  | [], s => (.ok (), s)
  | dir :: dirs, s =>
    match m.createDirAll s dir with
    | (.error e, s) => (.error (.cacheDir dir e), s)
    | (.ok (), s) => ensureDirs m dirs s

/-- A source the plan binds without tolerance and that is not there. -/
def missingSource (m : Machine σ) (s : σ) (ops : List Op) : Option Path :=
  ops.findSome? fun op =>
    match op with
    | .bind src _ _ false => if m.exists s src then none else some src
    | _ => none

/-- **Resolve the plan**, and check what the helper would otherwise report as
a bare exit. -/
def prepare (m : Machine σ) (spec : LaunchSpec) (helper innerExe : Path) (s : σ) :
    Except PrepareError Prepared × σ :=
  match chooseHarness spec with
  | .error e => (.error e, s)
  | .ok harness =>
    match plan spec.toSessionSpec harness innerExe with
    | .error e => (.error (.plan e), s)
    | .ok plan =>
      match checkLaunch m s helper plan with
      | .error e => (.error e, s)
      | .ok () =>
        match spec.capabilities.extraPaths.foldlM (resolveExtra m s plan.home) plan.ops with
        | .error e => (.error e, s)
        | .ok ops =>
          match ensureDirs m plan.ensureDirs s with
          | (.error e, s) => (.error e, s)
          | (.ok (), s) =>
            match missingSource m s ops with
            | some path => (.error (.bindSource path), s)
            | none =>
              let plan := { plan with ops }
              (.ok { plan, request := ⟨plan.argv, {}, rules plan⟩ }, s)

/-- What a preparation that succeeds has done. -/
theorem prepare_ok {m : Machine σ} {spec : LaunchSpec} {helper innerExe : Path} {s s' : σ}
    {prepared : Prepared} (h : prepare m spec helper innerExe s = (.ok prepared, s')) :
    ∃ harness planned ops, chooseHarness spec = .ok harness ∧
      plan spec.toSessionSpec harness innerExe = .ok planned ∧
      spec.capabilities.extraPaths.foldlM (resolveExtra m s planned.home) planned.ops = .ok ops ∧
      prepared.plan = { planned with ops } := by
  unfold prepare at h
  split at h
  · simp at h
  · rename_i harness hharness
    split at h
    · simp at h
    · rename_i planned hplan
      split at h
      · simp at h
      · split at h
        · simp at h
        · rename_i ops hops
          split at h
          · simp at h
          · split at h
            · simp at h
            · obtain ⟨hprepared, -⟩ := Prod.mk.inj h
              refine ⟨harness, planned, ops, hharness, hplan, hops, ?_⟩
              rw [← Except.ok.inj hprepared]

end Sandbox
end Willie
