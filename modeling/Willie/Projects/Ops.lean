import Willie.Projects.Names

/-!
# Projects — the operations on the record

What each operation does to the daemon's records. A record changes by an
`Edit`, a map of records by a `Commit`: an added record, an edited one, a
removed one, a refreshed flag. An operation that runs alone from its request
to the end of its job makes the commits `Op.commits` lists.
-/

namespace Willie
namespace Projects

open Paths

/-- A refusal: its code, a sentence and what to do. -/
structure OpError where
  code : String
  message : String
  remediation : String
  deriving DecidableEq, Repr

/-- A failed `git` call. -/
structure GitError where
  code : String
  message : String
  deriving DecidableEq, Repr

/-- What the daemon was started with. Lower-casing is the text library's. -/
structure Config where
  workspacesDir : Path
  toLowercase : String → String

def Config.key (cfg : Config) (p : Project) : String := sourceKey cfg.toLowercase p.source

/-- The jobs a project has. -/
inductive JobKind where
  | add
  | syncToWindows
  | updateFromWindows
  | relocate
  | remove
  deriving DecidableEq, Repr

/-! ## Edits and commits -/

/-- A change to one record. -/
inductive Edit where
  | name (name : String)
  | sandbox (profile : SandboxProfile)
  | ready
  | failed (code message remediation : String)
  | relocated (source : String)
  deriving DecidableEq, Repr

def Edit.apply (p : Project) : Edit → Project
  | .name n => { p with name := n }
  | .sandbox profile => { p with sandbox := profile, sandboxProblem := none }
  | .ready => { p with state := .ready }
  | .failed code message remediation => { p with state := .failed code message remediation }
  | .relocated src => { p with source := src, sourcePresent := true }

/-- A change to the records. -/
inductive Commit where
  | add (p : Project)
  | edit (id : ProjectId) (e : Edit)
  | remove (id : ProjectId)
  | presence (flags : List (ProjectId × String × Bool))
  deriving DecidableEq, Repr

/-- Stores one computed flag, if the project is still there and still has
the source it was computed for. -/
def applyPresence (m : ProjectMap) (flag : ProjectId × String × Bool) : ProjectMap :=
  match m.lookup flag.1 with
  | some p =>
    if p.source = flag.2.1 then m.insert flag.1 { p with sourcePresent := flag.2.2 } else m
  | none => m

/-- **A commit, applied to the current records.** -/
def Commit.apply (m : ProjectMap) : Commit → ProjectMap
  | .add p => m.insert p.id p
  | .edit id e =>
    match m.lookup id with
    | some p => m.insert id (e.apply p)
    | none => m
  | .remove id => m.erase id
  | .presence flags => flags.foldl applyPresence m

/-- The failure a cancelled job leaves on its project. -/
def interrupted (kind : JobKind) : Edit :=
  .failed "interrupted" "the job was interrupted before it finished"
    (if kind = .add then "remove the project and add it again" else "retry the operation")

/-- The remediation of a git failure. -/
def remediationFor (code : String) : String :=
  if code = "source_detached_head" then
    "check out a branch in the Windows checkout, then add again"
  else "check git's output and try again"

/-- The failure a git error leaves on a project being added. -/
def addFailed (e : GitError) : Edit := .failed e.code e.message (remediationFor e.code)

/-! ## Refusals -/

def busyErr : OpError :=
  ⟨"project_busy", "a job is already running for this project",
    "wait for the current job to finish or cancel it"⟩

def pathNotWindowsErr (windowsPath : String) : OpError :=
  ⟨"path_not_windows", "`" ++ windowsPath ++ "` is not a path on a Windows drive",
    "register a path on a Windows drive"⟩

def notAGitRepositoryErr (windowsPath : String) : OpError :=
  ⟨"not_a_git_repository", "`" ++ windowsPath ++ "` is not a git repository",
    "run `git init` and a first commit in the folder, then add again"⟩

def sourceNoCommitsErr : OpError :=
  ⟨"source_no_commits", "the checkout has no commits yet",
    "make the first commit in this checkout, then add it again"⟩

def projectExistsErr (windowsPath : String) : OpError :=
  ⟨"project_exists", "`" ++ windowsPath ++ "` is already registered",
    "this checkout is already registered as a project"⟩

def workspaceExistsErr (workspace : Path) : OpError :=
  ⟨"workspace_exists", "workspace `" ++ workspace ++ "` already exists",
    "delete that directory inside the distribution (`rm -rf " ++ workspace ++
      "`), moving it aside first if it still holds work you want, then add the checkout again"⟩

def gitErrToOp (e : GitError) : OpError := ⟨e.code, e.message, remediationFor e.code⟩

/-! ## Adding -/

structure AddParams where
  windowsPath : String
  name : Option String
  deriving DecidableEq, Repr

/-- What the machine answers about a checkout and the place for its clone. -/
structure Checkout where
  isRepo : Bool
  hasCommits : Bool
  branch : Except GitError String
  workspaceExists : Bool

/-- **The record `add` makes**, or its refusal; it never returns when no
suffix of the slug is free. -/
def addRecord (cfg : Config) (m : ProjectMap) (id : ProjectId) (now : String) (params : AddParams)
    (git : Checkout) : Option (Except OpError Project) :=
  let path := params.windowsPath
  if (sourceToLinux path).isNone then some (.error (pathNotWindowsErr path))
  else if !git.isRepo then some (.error (notAGitRepositoryErr path))
  else if !git.hasCommits then some (.error sourceNoCommitsErr)
  else if ∃ p ∈ values m, cfg.key p = sourceKey cfg.toLowercase path then
    some (.error (projectExistsErr path))
  else match git.branch with
    | .error e => some (.error (gitErrToOp e))
    | .ok branch =>
      let folder := folderName path
      (slugFor folder ((values m).map (·.slug))).map fun slug =>
        let workspace := join cfg.workspacesDir slug
        if git.workspaceExists then .error (workspaceExistsErr workspace)
        else .ok
          { id
            name := params.name.getD folder
            slug
            source := path
            workspace
            branch
            state := .preparing
            sourcePresent := true
            createdAt := now
            sandbox := {}
            sandboxProblem := none }

/-! ## Whole operations -/

/-- How a job ended, for the record: its last write, none, a git failure
written to the record, or a cancel noticed under way. -/
inductive JobEnd where
  | done
  | stopped
  | failed (e : GitError)
  | cancelled
  deriving DecidableEq, Repr

/-- An operation with everything the machine answered during it. -/
inductive Op where
  | add (params : AddParams) (git : Checkout) (now : String) (jobEnd : JobEnd)
  | rename (id : ProjectId) (name : String) (saved : Bool)
  | setSandbox (id : ProjectId) (profile : SandboxProfile) (resolved saved : Bool)
  | syncToWindows (id : ProjectId) (jobEnd : JobEnd)
  | updateFromWindows (id : ProjectId) (jobEnd : JobEnd)
  | relocate (id : ProjectId) (windowsPath : String) (isRepo : Bool) (jobEnd : JobEnd)
  | remove (id : ProjectId) (liveSessions : Bool) (jobEnd : JobEnd)

/-- What a job leaves on its record: only an add's git failure is written
there. -/
def JobEnd.commits (kind : JobKind) (id : ProjectId) (last : List Commit) : JobEnd → List Commit
  | .done => last
  | .stopped => []
  | .failed e => if kind = .add then [.edit id (addFailed e)] else []
  | .cancelled => [.edit id (interrupted kind)]

/-- The project is there, with a source `git` can be pointed at. -/
def sourceUsable (m : ProjectMap) (id : ProjectId) : Bool :=
  match m.lookup id with
  | some p => (sourceToLinux p.source).isSome
  | none => false

/-- The daemon between operations: its records and the next id. -/
structure Records where
  projects : ProjectMap
  nextId : ProjectId

/-- **The commits of an operation** that runs alone from its request to the
end of its job; none if it never ends. -/
def Op.commits (cfg : Config) (d : Records) : Op → Option (List Commit)
  | .add params git now jobEnd =>
    (addRecord cfg d.projects d.nextId now params git).map fun
      | .ok p => .add p :: jobEnd.commits .add p.id [.edit p.id .ready]
      | .error _ => []
  | .rename id name saved => some (if saved then [.edit id (.name name)] else [])
  | .setSandbox id profile resolved saved =>
    some (if resolved && saved then [.edit id (.sandbox profile)] else [])
  | .syncToWindows id jobEnd =>
    some (if sourceUsable d.projects id then jobEnd.commits .syncToWindows id [] else [])
  | .updateFromWindows id jobEnd =>
    some (if sourceUsable d.projects id then jobEnd.commits .updateFromWindows id [] else [])
  | .relocate id windowsPath isRepo jobEnd =>
    some (if (sourceToLinux windowsPath).isSome && isRepo then
      jobEnd.commits .relocate id [.edit id (.relocated windowsPath)]
    else [])
  | .remove id liveSessions jobEnd =>
    some (if liveSessions then [] else jobEnd.commits .remove id [.remove id])

/-- An operation, completed. Every id is given out once. -/
def Records.complete (cfg : Config) (d : Records) (op : Op) : Option Records :=
  (op.commits cfg d).map fun cs => ⟨cs.foldl Commit.apply d.projects, d.nextId + 1⟩

end Projects
end Willie
