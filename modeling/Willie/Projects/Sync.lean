import Willie.Common.Traced
import Willie.Git.Repos
import Willie.Projects.Ops

/-!
# Projects — sync and update

The work of the two jobs between a workspace and its Windows checkout. A job
is a sequence of checks and `git` calls; before each of them a person may
have moved on the Windows side, the job may have been cancelled, and the
call may fail.
-/

namespace Willie
namespace Projects

open Git Traced

/-- The places of a job, each of which it passes once. -/
inductive Step where
  /-- A look at the cancel flag. -/
  | check (n : ℕ)
  | isRepo
  | status
  | revParse
  | fetch
  | revList
  | push
  | isAncestor (fromHead : Bool)
  | merge
  deriving DecidableEq

/-- What goes on around a job. -/
structure Meanwhile (κ : Type) where
  /-- What a person does just before the step. -/
  others : Step → List (Move κ)
  cancelled : ℕ → Bool
  fails : Step → Bool
  /-- What the call prints that nobody reads back. -/
  prints : Step → String

/-- What a job's run leaves: the person's moves on its way, and its edits of
the project's record. -/
inductive Happening (κ : Type) where
  | moved (m : Move κ)
  | edited (e : Edit)

def moves {κ : Type} (t : List (Happening κ)) : List (Move κ) :=
  t.filterMap fun
    | .moved m => some m
    | .edited _ => none

/-- How a job ends that does not succeed: a code, a message, a remediation. -/
abbrev Refusal := String × String × String

def gitErrOutcome (e : GitError) : Refusal := (e.code, e.message, remediationFor e.code)

def refuse (code message remediation : String) : Refusal := (code, message, remediation)

def interruptedOutcome (kind : JobKind) : Refusal :=
  ("interrupted", "the job was interrupted before it finished",
    if kind = .add then "remove the project and add it again" else "retry the operation")

def sourceMissing : Refusal :=
  refuse "source_missing" "the Windows checkout is missing"
    "relocate the project to a checkout that still exists"

def windowsTreeDirty : Refusal :=
  refuse "windows_tree_dirty" "the Windows checkout has uncommitted changes"
    "commit or discard the changes in the Windows checkout, then try again"

def windowsBranchMismatch (current branch : String) : Refusal :=
  refuse "windows_branch_mismatch"
    ("the Windows checkout is on `" ++ current ++ "`, the project's branch is `" ++ branch ++ "`")
    "check out the project's branch in the Windows checkout, then try again"

def windowsDiverged : Refusal :=
  refuse "windows_diverged" "the Windows checkout has commits the workspace does not"
    "click Update from Windows first, then Send to Windows again"

def workspaceDiverged : Refusal :=
  refuse "workspace_diverged" "the workspace has commits the Windows checkout does not"
    ("the workspace and the Windows checkout have both moved; " ++
      "reconcile them (rebase or merge in a terminal), then sync")

section Jobs

variable {κ : Type} [DecidableEq κ] (D : Dag κ) (m : Meanwhile κ)

/-- A job's run on the two repositories. -/
abbrev Run (κ α : Type) := Traced (Repos κ) (Happening κ) Refusal α

/-- The time before a step. -/
def meantime (s : Step) : Run κ Unit := fun r =>
  ((m.others s).map .moved, .ok (), r.play D (m.others s))

def checkCancelled (kind : JobKind) (n : ℕ) : Run κ Unit := do
  meantime D m (.check n)
  if m.cancelled n then
    tell (.edited (interrupted kind))
    throw (interruptedOutcome kind)

/-- `git::run` -/
def run {α : Type} (s : Step) (command : Repos κ → Option (α × Repos κ)) : Run κ α := do
  meantime D m s
  act fun r =>
    match if m.fails s then none else command r with
    | some (a, r') => (.ok a, r')
    | none => (.error (gitErrOutcome ⟨"git_failed", m.prints s⟩), r)

def isRepo : Run κ Bool := do
  meantime D m .isRepo
  ask (·.windows.isRepo)

/-- Whether the call of `merge-base` succeeds. -/
def isAncestor (b : Branch) (fromHead : Bool) : Run κ Bool := do
  meantime D m (.isAncestor fromHead)
  ask fun r => !m.fails (.isAncestor fromHead) && r.isAncestor D b fromHead

/-- Whether the two tips are on one line; the second comparison is made only
where the first one failed. -/
def isRelated (b : Branch) : Run κ Bool := do
  if ← isAncestor D m b true then return true
  isAncestor D m b false

/-- An early return with the refusal, unless `c`. -/
def ensure (c : Bool) (refusal : Refusal) : Run κ Unit :=
  if c then pure () else throw refusal

/-- The printed count, read back as a `u64`; zero where it is none. -/
def readCount (n : ℕ) : ℕ := if n < 2 ^ 64 then n else 0

/-- `run_sync` -/
def runSync (b : Branch) : Run κ String := do
  checkCancelled D m .syncToWindows 0
  ensure (← isRepo D m) sourceMissing
  ensure (← run D m .status fun r => some (r.windows.isClean, r)) windowsTreeDirty
  let current ← run D m .revParse fun r => r.windows.abbrevRef.map (·, r)
  ensure (current = b.name) (windowsBranchMismatch current b.name)
  checkCancelled D m .syncToWindows 1
  run D m .fetch fun r => r.fetch.map ((), ·)
  let ahead ← run D m .revList fun r => (r.revList D b).map (·, r)
  ensure (readCount ahead = 0) windowsDiverged
  checkCancelled D m .syncToWindows 2
  run D m .push fun r => (r.push D b).map (m.prints .push, ·)

/-- `run_update` -/
def runUpdate (b : Branch) : Run κ String := do
  checkCancelled D m .updateFromWindows 0
  ensure (← isRepo D m) sourceMissing
  run D m .fetch fun r => r.fetch.map ((), ·)
  checkCancelled D m .updateFromWindows 1
  ensure (← isRelated D m b) workspaceDiverged
  run D m .merge fun r => (r.mergeFfOnly D b).map (m.prints .merge, ·)

end Jobs

end Projects
end Willie
