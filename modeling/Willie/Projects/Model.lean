import Mathlib.Data.List.AList

/-!
# Projects — the record

A project is one Windows checkout and its clone in the distribution. The
daemon holds the records in memory, keyed by id, and mirrors each in a file.
-/

namespace Willie
namespace Projects

/-- A project's id: the number its ULID stands for. -/
abbrev ProjectId := Nat

inductive ProjectState where
  | preparing
  | ready
  | failed (code message remediation : String)
  deriving DecidableEq, Repr

/-- Why a project's `[sandbox]` table could not be read. -/
structure SandboxProblem where
  code : String
  message : String
  remediation : String
  deriving DecidableEq, Repr

inductive PathMode where
  | ro
  | rw
  deriving DecidableEq, Repr

structure ExtraPath where
  path : String
  mode : PathMode
  deriving DecidableEq, Repr

/-- What one project changes about its harness's defaults; `none` leaves a
capability as the harness decided. -/
structure SandboxProfile where
  projectRw : Option Bool := none
  agentState : Option Bool := none
  toolsRo : Option Bool := none
  cachesRw : Option Bool := none
  gitIdentity : Option Bool := none
  extraPaths : List ExtraPath := []
  homePersistent : Option Bool := none
  ssh : Option Bool := none
  mntAll : Option Bool := none
  windowsInterop : Option Bool := none
  deriving DecidableEq, Repr

structure Project where
  id : ProjectId
  name : String
  slug : String
  /-- The Windows checkout path as registered. -/
  source : String
  /-- The ext4 clone. -/
  workspace : String
  branch : String
  state : ProjectState
  sourcePresent : Bool
  createdAt : String
  sandbox : SandboxProfile
  sandboxProblem : Option SandboxProblem
  deriving DecidableEq, Repr

/-- The daemon's records, keyed by id. -/
abbrev ProjectMap := AList fun _ : ProjectId => Project

/-- The records of a map, in no particular order. -/
def values (m : ProjectMap) : List Project := m.entries.map (·.2)

end Projects
end Willie
