import Willie.Common.Runs
import Willie.Projects.Ops

/-!
# Projects — the dispatcher and the job workers

The dispatcher serves one request at a time; a job it submits runs on a
worker's own thread. A task, the request being served or a job, holds the
copy of the record it read when it began and the instructions it has left;
one step of the daemon runs one instruction of one task. What a call of the
machine (a write, a git command) answers is part of the step.
-/

namespace Willie
namespace Projects

/-! ## The store -/

/-- A project's file: the record, and its `[sandbox]` table where that can be
read. -/
structure Stored where
  record : Project
  table : Option SandboxProfile
  deriving DecidableEq, Repr

/-- The project files, and the temporary ones they are renamed from. -/
structure Disk where
  files : AList fun _ : ProjectId => Stored
  tmps : AList fun _ : ProjectId => Stored

/-- The first half of `save`: the temporary file. A record loaded with an
unreadable table leaves the table of its file as it is. -/
def Disk.write (d : Disk) (p : Project) : Disk :=
  let table := match p.sandboxProblem, d.files.lookup p.id with
    | some _, some old => old.table
    | _, _ => some p.sandbox
  { d with tmps := d.tmps.insert p.id ⟨p, table⟩ }

/-- The second half of `save`: the rename over the project's file. -/
def Disk.rename (d : Disk) (id : ProjectId) : Option Disk :=
  (d.tmps.lookup id).map fun g => ⟨d.files.insert id g, d.tmps.erase id⟩

def Disk.delete (d : Disk) (id : ProjectId) : Disk := { d with files := d.files.erase id }

/-! ## Instructions -/

/-- What a task writes of its copy: a new record, or an edit of it. -/
inductive Change where
  | new
  | edit (e : Edit)
  deriving DecidableEq, Repr

def Change.apply (p : Project) : Change → Project
  | .new => p
  | .edit e => e.apply p

/-- What the write commits to. -/
def Change.commit (p : Project) : Change → Commit
  | .new => .add p
  | .edit e => .edit p.id e

/-- How far a write of a record is: the temporary file is next, or the rename
over the project's file, or the record in memory. -/
inductive Stage where
  | tmp
  | file
  | state
  deriving DecidableEq, Repr

inductive Job where
  | add
  | syncToWindows
  | updateFromWindows
  | relocate (windowsPath : String)
  | remove (deleteWorkspace force : Bool)
  deriving DecidableEq, Repr

/-- What a task does between two moments at which another can run. -/
inductive Instr where
  /-- Wait for a slot of the pool. -/
  | acquire
  /-- Skip the work if the job was cancelled while it waited. -/
  | begin
  | checkCancelled (kind : JobKind)
  /-- Git commands; `addFail` if a failure is written to the record. -/
  | git (addFail : Bool)
  /-- Write the changed copy back; `strict` if a failed save is returned. -/
  | update (change : Change) (strict : Bool) (stage : Stage)
  | removeDirAll
  /-- Delete the file, then the record in memory. -/
  | forget (unlinked : Bool)
  | release
  | clearBusy
  /-- Emit the job's final event. -/
  | upsertJob
  /-- Refuse if the project has a live session. -/
  | liveSessions
  | submit (job : Job)
  /-- Refuse if the project has a job. -/
  | isBusy
  /-- What `create` still checks and writes before it spawns. -/
  | prepare
  | spawnSupervisor
  deriving DecidableEq, Repr

/-- `update_project`: an edited copy, saved or the failure logged. -/
def updateProject (e : Edit) : Instr := .update (.edit e) false .tmp

/-- What ends every job. -/
def cleanup : List Instr := [.release, .clearBusy, .upsertJob]

/-- The work of a job: `run_add`, `run_sync`, `run_update`, `run_relocate`
and `run_remove`. -/
def Job.work : Job → List Instr
  | .add =>
    [.checkCancelled .add, .git true, .checkCancelled .add, .git true, .checkCancelled .add,
      .git true, .checkCancelled .add, updateProject .ready]
  | .syncToWindows =>
    [.checkCancelled .syncToWindows, .git false, .checkCancelled .syncToWindows, .git false,
      .checkCancelled .syncToWindows, .git false]
  | .updateFromWindows =>
    [.checkCancelled .updateFromWindows, .git false, .checkCancelled .updateFromWindows,
      .git false]
  | .relocate windowsPath =>
    [.checkCancelled .relocate, .git false, .checkCancelled .relocate, .git false,
      updateProject (.relocated windowsPath)]
  | .remove deleteWorkspace force =>
    [.checkCancelled .remove] ++ (if deleteWorkspace && !force then [.git false] else []) ++
      [.checkCancelled .remove] ++ (if deleteWorkspace then [.removeDirAll] else []) ++
      [.forget false]

/-- Everything a job's thread does. -/
def Job.script (job : Job) : List Instr := .acquire :: .begin :: (job.work ++ cleanup)

/-! ## The daemon -/

/-- What the tasks share. -/
structure Shared where
  projects : ProjectMap
  disk : Disk
  /-- The projects with a job. -/
  busy : List ProjectId
  /-- The project of each live session. -/
  live : List ProjectId
  /-- The slots of the pool that are taken. -/
  running : Nat
  nextId : ProjectId

/-- A record read, and what is left to do with it. -/
structure Task where
  copy : Project
  script : List Instr
  deriving DecidableEq, Repr

/-- A job's thread, also once it has ended. -/
structure Worker extends Task where
  job : Job
  cancelled : Bool
  deriving DecidableEq, Repr

structure Daemon extends Shared where
  dispatcher : Option Task
  workers : List Worker

/-- What a call of the machine answers; a job can also panic in it. -/
inductive Reply where
  | ok
  | err (e : GitError)
  | panic
  deriving DecidableEq, Repr

/-- One instruction of a task, and what the task has left after it; nothing
if it has to wait. A record is kept under its id, and `busy` by it. -/
def Instr.perform (s : Shared) (copy : Project) (cancelled : Bool) (rest : List Instr)
    (reply : Reply) : Instr → Option (Shared × List Instr)
  | .acquire => if s.running < 3 then some ({ s with running := s.running + 1 }, rest) else none
  | .begin => some (s, if cancelled then cleanup else rest)
  | .checkCancelled kind =>
    some (s, if cancelled then updateProject (interrupted kind) :: cleanup else rest)
  | .git addFail =>
    some (s, match reply with
      | .ok => rest
      | .err e => if addFail then updateProject (addFailed e) :: cleanup else cleanup
      | .panic => cleanup)
  | .update c strict .tmp =>
    some (match reply with
      | .ok => ({ s with disk := s.disk.write (c.apply copy) }, .update c strict .file :: rest)
      | _ => (s, if strict then [] else .update c strict .state :: rest))
  | .update c strict .file =>
    some (match reply, s.disk.rename copy.id with
      | .ok, some disk => ({ s with disk }, .update c strict .state :: rest)
      | _, _ => (s, if strict then [] else .update c strict .state :: rest))
  | .update c _ .state =>
    some ({ s with projects := s.projects.insert copy.id (c.apply copy) }, rest)
  | .removeDirAll => some (s, match reply with | .ok => rest | _ => cleanup)
  | .forget false =>
    -- an unlink that fails is logged, and the removal stands
    some (match reply with | .ok => { s with disk := s.disk.delete copy.id } | _ => s,
      .forget true :: rest)
  | .forget true => some ({ s with projects := s.projects.erase copy.id }, rest)
  | .release => some ({ s with running := s.running - 1 }, rest)
  | .clearBusy => some ({ s with busy := s.busy.filter fun id => id ≠ copy.id }, rest)
  | .upsertJob => some (s, rest)
  | .liveSessions => some (s, if copy.id ∈ s.live then [] else rest)
  | .submit _ =>
    some (if copy.id ∈ s.busy then (s, []) else ({ s with busy := copy.id :: s.busy }, rest))
  | .isBusy => some (s, if copy.id ∈ s.busy then [] else rest)
  | .prepare => some (s, match reply with | .ok => rest | _ => [])
  | .spawnSupervisor =>
    some (match reply with | .ok => { s with live := copy.id :: s.live } | _ => s, rest)

/-- The thread an instruction starts: that of a job that is accepted. -/
def Instr.spawned (s : Shared) (copy : Project) : Instr → List Worker
  | .submit job =>
    if copy.id ∈ s.busy then [] else [{ copy, script := job.script, job, cancelled := false }]
  | _ => []

/-! ## Requests -/

inductive Request where
  | add (p : Project)
  | rename (id : ProjectId) (name : String)
  | setSandbox (id : ProjectId) (profile : SandboxProfile) (resolved : Bool)
  | syncToWindows (id : ProjectId)
  | updateFromWindows (id : ProjectId)
  | relocate (id : ProjectId) (windowsPath : String) (isRepo : Bool)
  | remove (id : ProjectId) (deleteWorkspace force : Bool)
  | createSession (id : ProjectId)
  deriving DecidableEq, Repr

/-- What a request starts, after its checks of the record it reads; nothing
if it is refused at once. What `add`'s checks read of other records does not
matter here: any record of the next id is let in. -/
def Request.task (s : Shared) : Request → Option Task
  | .add p =>
    if p.id = s.nextId ∧ p.state = .preparing ∧ p.sandboxProblem = none then
      some ⟨p, [.update .new false .tmp, .submit .add]⟩
    else none
  | .rename id name =>
    (s.projects.lookup id).map fun p => ⟨p, [.update (.edit (.name name)) true .tmp]⟩
  | .setSandbox id profile resolved =>
    (s.projects.lookup id).bind fun p =>
      if resolved then some ⟨p, [.update (.edit (.sandbox profile)) true .tmp]⟩ else none
  | .syncToWindows id =>
    (s.projects.lookup id).bind fun p =>
      if (sourceToLinux p.source).isSome then some ⟨p, [.submit .syncToWindows]⟩ else none
  | .updateFromWindows id =>
    (s.projects.lookup id).bind fun p =>
      if (sourceToLinux p.source).isSome then some ⟨p, [.submit .updateFromWindows]⟩ else none
  | .relocate id windowsPath isRepo =>
    (s.projects.lookup id).bind fun p =>
      if (sourceToLinux windowsPath).isSome && isRepo then
        some ⟨p, [.submit (.relocate windowsPath)]⟩
      else none
  | .remove id deleteWorkspace force =>
    (s.projects.lookup id).map fun p =>
      ⟨p, [.liveSessions, .submit (.remove deleteWorkspace force)]⟩
  | .createSession id =>
    (s.projects.lookup id).bind fun p =>
      if p.sandboxProblem = none ∧ p.state = .ready then
        some ⟨p, [.isBusy, .prepare, .spawnSupervisor]⟩
      else none

/-- The next id, once a request was served. -/
def Request.nextId (s : Shared) : Request → ProjectId
  | .add _ => s.nextId + 1
  | _ => s.nextId

/-! ## Steps -/

/-- Who runs. -/
inductive Actor where
  | dispatcher
  | worker (i : Nat)
  deriving DecidableEq, Repr

def Daemon.task (s : Daemon) : Actor → Option Task
  | .dispatcher => s.dispatcher
  | .worker i => (s.workers[i]?).map (·.toTask)

def Daemon.cancelled (s : Daemon) : Actor → Bool
  | .dispatcher => false
  | .worker i => (s.workers[i]?).any (·.cancelled)

def Daemon.setScript (s : Daemon) (script : List Instr) : Actor → Daemon
  | .dispatcher => { s with dispatcher := s.dispatcher.map fun t => { t with script } }
  | .worker i => { s with workers := s.workers.modify i fun w => { w with script } }

/-- The dispatcher serves no request. -/
def Daemon.Idle (s : Daemon) : Prop := ∀ t, s.dispatcher = some t → t.script = []

instance (s : Daemon) : Decidable s.Idle :=
  match h : s.dispatcher with
  | none => .isTrue fun t ht => by simp [h] at ht
  | some t => decidable_of_iff (t.script = []) (by simp [Daemon.Idle, h])

/-- A task runs its next instruction. -/
def Daemon.advance (s : Daemon) (a : Actor) (reply : Reply) : Option Daemon :=
  match s.task a with
  | some ⟨copy, i :: rest⟩ =>
    (i.perform s.toShared copy (s.cancelled a) rest reply).map fun r =>
      let s' := s.setScript r.2 a
      { s' with toShared := r.1, workers := s'.workers ++ i.spawned s.toShared copy }
  | _ => none

inductive Action where
  | request (r : Request)
  | run (a : Actor) (reply : Reply)
  | cancelJob (i : Nat)
  | sessionEnds (id : ProjectId)
  /-- A snapshot stores the presence flags it computed. -/
  | applyPresence (flags : List (ProjectId × String × Bool))
  deriving DecidableEq, Repr

/-- **One step of the daemon.** -/
def Daemon.step (s : Daemon) : Action → Option Daemon
  | .request r =>
    if s.Idle then
      some (match r.task s.toShared with
        | some t => { s with dispatcher := some t, nextId := r.nextId s.toShared }
        | none => s)
    else none
  | .run a reply => s.advance a reply
  | .cancelJob i =>
    some { s with workers := s.workers.modify i fun w => { w with cancelled := true } }
  | .sessionEnds id => some { s with live := s.live.erase id }
  | .applyPresence flags =>
    if s.Idle then some { s with projects := flags.foldl applyPresence s.projects } else none

/-- What a step commits to. -/
def Daemon.commits (s : Daemon) : Action → List Commit
  | .run a _ =>
    match s.task a with
    | some ⟨copy, .update c _ .state :: _⟩ => [c.commit copy]
    | some ⟨copy, .forget true :: _⟩ => [.remove copy.id]
    | _ => []
  | .applyPresence flags => [.presence flags]
  | _ => []

end Projects
end Willie
