import Willie.Daemon.State

/-!
# Jobs — the runner

The daemon's job runner. A call of `submit` claims the project, registers a
cancel flag, emits the job as running and spawns its thread; the thread
waits for one of three slots, does the work and gives everything back, the
slot, the claim and the flag's entry, before it emits how the job ended. Any
number of threads make these steps in any order; a step is what happens
under one lock, or between two of them.
-/

namespace Willie
namespace Jobs

open Daemon (JobId JobKind JobState Job Event EventKind Mutation)
open Projects (ProjectId)

/-- What a job ends with: the log, or a code, a message and a remediation. -/
abbrev JobOutcome := Except (String × String × String) String

/-- How the work closure comes back. -/
inductive Returned where
  | outcome (o : JobOutcome)
  /-- It panicked; a payload that is text has a message. -/
  | panicked (message : Option String)
  deriving DecidableEq

def cancelledOutcome : JobOutcome :=
  .error ("cancelled", "the job was cancelled", "start it again if you still need it")

def panicOutcome (message : Option String) : JobOutcome :=
  .error ("job_panicked", message.getD "the job thread panicked",
    "try the operation again; if it keeps happening, report it")

def Returned.settle : Returned → JobOutcome
  | .outcome o => o
  | .panicked message => panicOutcome message

/-- The most a log may keep, in bytes. -/
def maxTail : ℕ := 4096

/-- The longest end of a text that fits and starts between two characters. -/
def tailChars : List Char → List Char
  | [] => []
  | c :: cs =>
    if (String.ofList (c :: cs)).utf8ByteSize ≤ maxTail then c :: cs else tailChars cs

def tail (log : String) : String := String.ofList (tailChars log.toList)

/-- How far `Cleanup::drop` has come. -/
inductive Cleaning where
  | full
  /-- The slot is given back, nobody is told yet. -/
  | decremented
  /-- The pool is done. -/
  | released
  /-- The claim on the project, or on the tools, is given up. -/
  | cleared
  /-- The cancel flag's entry is removed. -/
  | removed
  deriving DecidableEq, Repr

/-- Where a job is, from the claim `submit` made for it to its final event. -/
inductive Stage where
  | claimed
  | registered
  | announced
  /-- The thread runs and asks for a slot. -/
  | queued
  /-- It found none and sleeps on the condition variable. -/
  | waiting
  | woken
  | acquired
  | working
  | ending (outcome : JobOutcome) (cleaning : Cleaning)
  | done
  deriving DecidableEq

structure Worker where
  kind : JobKind
  projectId : Option ProjectId
  startedAt : String
  stage : Stage
  deriving DecidableEq

/-- What the threads share: the daemon's state, the events sent, the pool and
the books. -/
structure Shared where
  state : Daemon.State
  sent : List Event
  /-- The slots that are taken. -/
  running : ℕ
  busy : List ProjectId
  toolBusy : Bool
  cancels : List JobId
  /-- The jobs whose flag is tripped; the flag outlives its entry. -/
  tripped : List JobId

/-- The pool's limit. -/
def limit : ℕ := 3

/-- `emit`: the change and its event, under one lock. -/
def Shared.emit (s : Shared) (m : Mutation) : Shared :=
  let (state, event) := m.apply s.state
  { s with state, sent := s.sent ++ [event] }

/-- Is there a claim on the project, or on the tools? -/
def Shared.taken (s : Shared) : Option ProjectId → Bool
  | some p => p ∈ s.busy
  | none => s.toolBusy

def Shared.claim (s : Shared) : Option ProjectId → Shared
  | some p => { s with busy := p :: s.busy }
  | none => { s with toolBusy := true }

def Shared.unclaim (s : Shared) : Option ProjectId → Shared
  | some p => { s with busy := s.busy.filter (· ≠ p) }
  | none => { s with toolBusy := false }

/-- The job as it is announced. -/
def Worker.running (w : Worker) (id : JobId) : Job :=
  ⟨id, w.kind, w.projectId, .running, w.startedAt, none, ""⟩

/-- The job as it ends. -/
def Worker.final (w : Worker) (id : JobId) (now : String) : JobOutcome → Job
  | .ok log => ⟨id, w.kind, w.projectId, .done, w.startedAt, some now, tail log⟩
  | .error (code, message, remediation) =>
    ⟨id, w.kind, w.projectId, .failed code message remediation, w.startedAt, some now, tail ""⟩

/-- What a step may read from outside: the clock, and how the work comes
back. -/
structure Input where
  now : String
  returned : Returned

/-- **One step of a job.** The notification between the two halves of
`Pool::release` concerns another thread and is a step of the runner's. -/
def Worker.turn (s : Shared) (id : JobId) (w : Worker) (input : Input) :
    Option (Shared × Worker) :=
  match w.stage with
  | .claimed => some ({ s with cancels := id :: s.cancels }, { w with stage := .registered })
  | .registered =>
    let w := { w with startedAt := input.now, stage := .announced }
    some (s.emit (.upsertJob (w.running id)), w)
  | .announced => some (s, { w with stage := .queued })
  | .queued | .woken =>
    if s.running < limit then
      some ({ s with running := s.running + 1 }, { w with stage := .acquired })
    else some (s, { w with stage := .waiting })
  | .waiting => none
  | .acquired =>
    some (s, { w with
      stage := if id ∈ s.tripped then .ending cancelledOutcome .full else .working })
  | .working => some (s, { w with stage := .ending input.returned.settle .full })
  | .ending o .full =>
    some ({ s with running := s.running - 1 }, { w with stage := .ending o .decremented })
  | .ending _ .decremented => none
  | .ending o .released => some (s.unclaim w.projectId, { w with stage := .ending o .cleared })
  | .ending o .cleared =>
    some ({ s with cancels := s.cancels.filter (· ≠ id) }, { w with stage := .ending o .removed })
  | .ending o .removed =>
    some (s.emit (.upsertJob (w.final id input.now o)), { w with stage := .done })
  | .done => none

/-- The runner: every job there was, under its id. -/
structure Runner extends Shared where
  workers : List Worker

inductive Action where
  /-- `submit` for a project, `submit_global` for none. -/
  | submit (kind : JobKind) (projectId : Option ProjectId)
  | turn (id : JobId) (input : Input)
  /-- `notify_one` by a job that gave its slot back wakes a sleeping thread, if
  there is one. -/
  | notify (id : JobId) (wakes : Option JobId)
  /-- A condition variable may wake a thread for no reason. -/
  | spurious (id : JobId)
  | cancel (id : JobId)
  | shutdown
  /-- Another thread changes what is not a job. -/
  | other (m : Mutation)

/-- A worker moved on to a stage. -/
def Runner.move (r : Runner) (id : JobId) (w : Worker) (stage : Stage) : Runner :=
  { r with workers := r.workers.set id { w with stage } }

/-- Does a thread sleep on the condition variable? -/
def Worker.waits (w : Worker) : Bool := w.stage == .waiting

/-- **A step of the runner.** -/
def Runner.step (r : Runner) : Action → Option Runner
  | .submit kind projectId =>
    -- a claim that stands is refused and left alone
    if r.taken projectId then some r
    else some { r.claim projectId with workers := r.workers ++ [⟨kind, projectId, "", .claimed⟩] }
  | .turn id input => do
    let w ← r.workers[id]?
    let (s, w) ← w.turn r.toShared id input
    return { s with workers := r.workers.set id w }
  | .notify id wakes => do
    let w ← r.workers[id]?
    match w.stage with
    | .ending o .decremented =>
      let r' := r.move id w (.ending o .released)
      match wakes with
      | none => if r.workers.any Worker.waits then none else return r'
      | some j => do
        let v ← r.workers[j]?
        if v.waits then return r'.move j v .woken else none
    | _ => none
  | .spurious id => do
    let w ← r.workers[id]?
    if w.waits then return r.move id w .woken else none
  | .cancel id =>
    some (if id ∈ r.cancels then { r with tripped := id :: r.tripped } else r)
  | .shutdown => some { r with tripped := r.cancels ++ r.tripped }
  | .other (.upsertJob _) => none
  | .other m => some { r.emit m with workers := r.workers }

/-- A runner over a daemon's state, with no job yet. -/
def Runner.new (state : Daemon.State) : Runner := ⟨⟨state, [], 0, [], false, [], []⟩, []⟩

end Jobs
end Willie
