import Willie.Common.Lexical
import Willie.Projects.Model

/-!
# Sandbox — the policy of a session

What a session may reach is a set of named capabilities: the harness's
defaults, changed by the project's profile, and the paths the profile adds.
An added path is compared, as text and in its normal form, with a table of
locations it must not name, reach into or contain.
-/

namespace Willie
namespace Sandbox

open Paths Projects

/-! ## Capabilities -/

inductive Capability where
  | projectRw
  | agentState
  | toolsRo
  | cachesRw
  | gitIdentity
  | extraPaths
  | homePersistent
  | ssh
  | mntAll
  | windowsInterop
  deriving DecidableEq, Repr

def Capability.displayName : Capability → String
  | .projectRw => "project.rw"
  | .agentState => "agent.state"
  | .toolsRo => "tools.ro"
  | .cachesRw => "caches.rw"
  | .gitIdentity => "git.identity"
  | .extraPaths => "extra.paths"
  | .homePersistent => "home.persistent"
  | .ssh => "ssh"
  | .mntAll => "mnt.all"
  | .windowsInterop => "windows.interop"

/-- The policy a session runs with. -/
structure CapabilitySet where
  projectRw : Bool
  agentState : Bool
  toolsRo : Bool
  cachesRw : Bool
  gitIdentity : Bool
  extraPaths : List ExtraPath
  deriving DecidableEq, Repr

inductive CapabilityError where
  | unsupported (c : Capability)
  | extraPathNotAbsolute (path : Path)
  | extraPathGuarded (path : Path) (reason : String)
  deriving DecidableEq, Repr

def CapabilityError.code : CapabilityError → String
  | .unsupported _ => "sandbox_capability_unsupported"
  | .extraPathNotAbsolute _ => "sandbox_profile_invalid"
  | .extraPathGuarded .. => "sandbox_profile_invalid"

def CapabilityError.message : CapabilityError → String
  | .unsupported c => "`" ++ c.displayName ++ "` is not implemented in this version"
  | .extraPathNotAbsolute path => "`" ++ path ++ "` is not an absolute path"
  | .extraPathGuarded path reason => "`" ++ path ++ "` cannot be an extra path: " ++ reason

def CapabilityError.remediation : CapabilityError → String
  | .unsupported c =>
    "remove `" ++ c.displayName ++
      "` from the project's sandbox settings; this version cannot apply it"
  | .extraPathNotAbsolute _ =>
    "give an absolute path as it appears inside the distribution, starting with `/`"
  | .extraPathGuarded .. => "name a narrower path outside it, or remove the entry"

/-! ## Paths as text -/

/-- The rest of a text after a prefix. -/
def stripPrefix (pre path : Path) : Option Path :=
  (pre.toList.isPrefixOf? path.toList).map String.ofList

def hasDotdotComponent (path : Path) : Bool := (segments path).any (· = ['.', '.'])

/-- Repeated separators, `.` components and a trailing separator go; `..` is
not resolved. -/
def normalizeLexical (path : Path) : Path :=
  ((segments path).filter fun s => !idle s).foldl
    (fun out part => (if 1 < out.length then out ++ "/" else out) ++ String.ofList part) "/"

/-- The path is the prefix itself, or goes on from it at a separator. -/
def isPrefixPath (pre path : Path) : Bool :=
  path = pre || (stripPrefix pre path).any isAbsolute

/-! ## The guard -/

/-- How a guarded location is refused: with what lies below it or without,
and always with what lies above. -/
inductive Flavor where
  | subtree
  | exact
  deriving DecidableEq, Repr

structure GuardedLocation where
  location : Path
  flavor : Flavor
  reason : String
  deriving DecidableEq, Repr

def interopReason : String :=
  "the interop interpreter and its sockets are `windows.interop`, which this version does not apply"

def kernelReason : String := "kernel interfaces are not paths to grant"

def systemReason : String := "the system stays as the base mounts it"

def willieStateReason : String := "Willie's own state stays as the base mounts it"

def toolsReason : String :=
  "managed tools are `tools.ro`, read-only; an extra path must not reopen them read-write"

def cachesReason : String :=
  "package caches are `caches.rw`, one per project; an extra path must not share them across projects"

/-- The locations guarded whatever the home. -/
def guardedSystem : List GuardedLocation :=
  [⟨"/init", .subtree, interopReason⟩,
    ⟨"/run", .subtree, interopReason⟩,
    ⟨"/proc", .subtree, kernelReason⟩,
    ⟨"/sys", .subtree, kernelReason⟩,
    ⟨"/dev", .subtree, kernelReason⟩,
    ⟨"/etc", .subtree, systemReason⟩,
    ⟨"/usr", .subtree, systemReason⟩,
    ⟨"/bin", .subtree, systemReason⟩,
    ⟨"/sbin", .subtree, systemReason⟩,
    ⟨"/lib", .subtree, systemReason⟩,
    ⟨"/lib64", .subtree, systemReason⟩,
    ⟨"/opt/willie", .subtree, willieStateReason⟩,
    ⟨"/var/lib/willie", .subtree, willieStateReason⟩,
    ⟨"/tmp", .exact,
      "the temporary directory is private to the session; grant paths inside it one by one"⟩]

/-- The locations under the home. -/
def guardedHome (home : Path) : List GuardedLocation :=
  [("projects", Flavor.exact,
      "every project lives under it; grant the one you mean, not all of them at once"),
    (".willie", .subtree, "Willie's per-user state holds the login and every project's caches"),
    (".ssh", .subtree, "keys are `ssh`, which this version does not apply"),
    (".claude", .subtree, "the login is `agent.state`"),
    (".local", .subtree, toolsReason),
    (".dotnet", .subtree, toolsReason),
    (".npm", .subtree, cachesReason),
    (".nuget", .subtree, cachesReason),
    (".cache", .subtree, cachesReason),
    (".claude.json", .exact, "the login is `agent.state`"),
    (".gitconfig", .exact, "the identity is `git.identity`")].map
    fun (rel, flavor, reason) => ⟨home ++ "/" ++ rel, flavor, reason⟩

/-- Every location an extra path must not name, reach into or contain. -/
def guardedLocations (home : Path) : List GuardedLocation :=
  guardedSystem ++
    ⟨home, .exact, "the home is private; grant paths inside it one by one"⟩ :: guardedHome home

/-- One ASCII letter. -/
def isDriveLetter (s : Segment) : Bool :=
  match s with
  | [c] => c.isAlpha
  | _ => false

/-- Under `/mnt` a path must lie below one drive. -/
def guardMnt (path : Path) : Option String :=
  (stripPrefix "/mnt" path).bind fun rest =>
    if rest = "" then
      some "every Windows drive is `mnt.all`, which this version does not apply"
    else
      (stripPrefix "/" rest).bind fun below =>
        let components := segments below
        if !isDriveLetter (components.headD []) then
          some ("this reaches the Windows side; interop is `windows.interop`, " ++
            "which this version does not apply")
        else if components.tail = [] then
          some "a whole Windows drive is `mnt.all`, which this version does not apply"
        else none

def GuardedLocation.matches (g : GuardedLocation) (path : Path) : Bool :=
  match g.flavor with
  | .subtree => isPrefixPath g.location path || isPrefixPath path g.location
  | .exact => isPrefixPath path g.location

/-- Why an extra path is refused, if it is. -/
def guardExtraPath (path home : Path) : Option String :=
  if hasDotdotComponent path then
    some "a `..` component is refused outright and never resolved; name the path directly"
  else
    let path := normalizeLexical path
    let home := normalizeLexical home
    if path = "/" then some "the whole filesystem"
    else
      match guardMnt path with
      | some reason => some reason
      | none => ((guardedLocations home).find? (·.matches path)).map (·.reason)

/-! ## The merge -/

/-- The capabilities this version cannot apply, as a profile asks for them. -/
def deferred (profile : SandboxProfile) : List (Option Bool × Capability) :=
  [(profile.homePersistent, .homePersistent), (profile.ssh, .ssh), (profile.mntAll, .mntAll),
    (profile.windowsInterop, .windowsInterop)]

/-- The check of one extra path. -/
def checkExtraPath (home : Path) (extra : ExtraPath) : Except CapabilityError Unit :=
  if !isAbsolute extra.path then .error (.extraPathNotAbsolute extra.path)
  else
    match guardExtraPath extra.path home with
    | some reason => .error (.extraPathGuarded extra.path reason)
    | none => .ok ()

/-- **The merge of the harness's defaults with a project's profile.** -/
def resolve (defaults : CapabilitySet) (profile : SandboxProfile) (home : Path) :
    Except CapabilityError CapabilitySet := do
  match (deferred profile).find? (·.1 = some true) with
  | some (_, capability) => throw (.unsupported capability)
  | none =>
    profile.extraPaths.forM (checkExtraPath home)
    return {
      projectRw := true
      agentState := profile.agentState.getD defaults.agentState
      toolsRo := profile.toolsRo.getD defaults.toolsRo
      cachesRw := profile.cachesRw.getD defaults.cachesRw
      gitIdentity := profile.gitIdentity.getD defaults.gitIdentity
      extraPaths := profile.extraPaths }

end Sandbox
end Willie
