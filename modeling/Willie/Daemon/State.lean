import Willie.Common.Keyed
import Willie.Common.Runs
import Willie.Projects.Model
import Willie.Sessions.Model

/-!
# The daemon — its truth, and the app's copy of it

The daemon's memory holds the projects, the jobs and the sessions, and the
number of the last event. Every change of theirs while it serves is made
under one lock with the event that tells it, which carries the next number.
The app holds a snapshot of it all and folds the events that follow into it.

A project's `source_present` is the exception, and meant to be: it is worked
out from the filesystem for each snapshot and no event tells it.
-/

namespace Willie
namespace Daemon

open Projects (Project ProjectId ProjectState)
open Sessions (Session SessionId)

abbrev JobId := Nat

inductive JobKind where
  | add
  | remove
  | syncToWindows
  | updateFromWindows
  | relocate
  | installHarness
  | updateHarness
  deriving DecidableEq, Repr

inductive JobState where
  | running
  | done
  | failed (code message remediation : String)
  deriving DecidableEq, Repr

structure Job where
  id : JobId
  kind : JobKind
  /-- Absent for jobs that belong to no project. -/
  projectId : Option ProjectId
  state : JobState
  startedAt : String
  finishedAt : Option String
  logTail : String
  deriving DecidableEq, Repr

instance : HasId Project := ⟨Project.id⟩
instance : HasId Job := ⟨Job.id⟩
instance : HasId Session := ⟨Session.id⟩

inductive EventKind where
  | projectChanged (project : Project)
  | projectRemoved (id : ProjectId)
  | jobChanged (job : Job)
  | sessionChanged (session : Session)
  deriving DecidableEq, Repr

structure Event where
  seq : Nat
  kind : EventKind
  deriving DecidableEq, Repr

/-- The daemon's in-memory truth. -/
structure State where
  projects : Table Project
  jobs : Table Job
  sessions : Table Session
  seq : Nat

/-- What a client is given of it; the plugins are not the state's. -/
structure Snapshot where
  seq : Nat
  projects : List Project
  jobs : List Job
  sessions : List Session
  deriving DecidableEq, Repr

def State.snapshot (st : State) : Snapshot where
  seq := st.seq
  projects := st.projects.values
  jobs := st.jobs.values
  sessions := st.sessions.values

/-! ## Changes told by an event -/

def State.bump (st : State) : State := { st with seq := st.seq + 1 }

def State.upsertProject (st : State) (p : Project) : State × Event :=
  let st := st.bump
  ({ st with projects := st.projects.upsert p }, ⟨st.seq, .projectChanged p⟩)

def State.removeProject (st : State) (id : ProjectId) : State × Event :=
  let st := st.bump
  ({ st with projects := st.projects.remove id }, ⟨st.seq, .projectRemoved id⟩)

def State.upsertJob (st : State) (job : Job) : State × Event :=
  let st := st.bump
  ({ st with jobs := st.jobs.upsert job }, ⟨st.seq, .jobChanged job⟩)

def State.upsertSession (st : State) (session : Session) : State × Event :=
  let st := st.bump
  ({ st with sessions := st.sessions.upsert session }, ⟨st.seq, .sessionChanged session⟩)

/-- What a thread does to the state under the lock. The record it puts back it
has from a copy or from the state itself; any may come. -/
inductive Mutation where
  | upsertProject (p : Project)
  | removeProject (id : ProjectId)
  | upsertJob (job : Job)
  | upsertSession (session : Session)
  deriving DecidableEq, Repr

def Mutation.apply (st : State) : Mutation → State × Event
  | .upsertProject p => st.upsertProject p
  | .removeProject id => st.removeProject id
  | .upsertJob job => st.upsertJob job
  | .upsertSession session => st.upsertSession session

/-! ## Changes no event tells -/

/-- Stores one computed flag, if the project is still there and still has
the source it was computed for. -/
def storePresence (projects : Table Project) (flag : ProjectId × String × Bool) : Table Project :=
  match projects.row flag.1 with
  | some p =>
    if p.source = flag.2.1 then projects.upsert { p with sourcePresent := flag.2.2 } else projects
  | none => projects

/-- `apply_presence`: the flags worked out for a snapshot. -/
def State.applyPresence (st : State) (flags : List (ProjectId × String × Bool)) : State :=
  { st with projects := flags.foldl storePresence st.projects }

/-- A daemon that died mid-add leaves a project stuck in `preparing`. -/
def interrupted (p : Project) : Project :=
  { p with
    state := .failed "interrupted" "the daemon stopped before the operation finished"
      "remove the project and add it again" }

/-- `interrupt_preparing`, before anyone is attached. -/
def State.interruptPreparing (st : State) : State :=
  { st with
    projects := (st.projects.values.filter (·.state = ProjectState.preparing)).foldl
      (fun projects p => projects.upsert (interrupted p)) st.projects }

/-- What `scan` does with a session that has ended. -/
def State.insertSession (st : State) (session : Session) : State :=
  { st with sessions := st.sessions.upsert session }

/-! ## The app's reducer -/

/-- The event does not extend the snapshot directly. -/
def Snapshot.needsResnapshot (current : Snapshot) (ev : Event) : Bool := ev.seq != current.seq + 1

/-- **Folds one event into a snapshot**: a row is replaced where it stands, or
added. -/
def Snapshot.applyEvent (current : Snapshot) (ev : Event) : Snapshot :=
  match ev.kind with
  | .projectChanged project =>
    { current with seq := ev.seq, projects := Table.upsertRow current.projects project }
  | .projectRemoved id =>
    { current with seq := ev.seq, projects := Table.removeRow current.projects id }
  | .jobChanged job => { current with seq := ev.seq, jobs := Table.upsertRow current.jobs job }
  | .sessionChanged session =>
    { current with seq := ev.seq, sessions := Table.upsertRow current.sessions session }

/-- Folds events in order, as long as none needs a new snapshot. -/
def Snapshot.replay : Snapshot → List Event → Option Snapshot
  | s, [] => some s
  | s, ev :: evs => if s.needsResnapshot ev then none else (s.applyEvent ev).replay evs

theorem Snapshot.replay_snoc {s : Snapshot} {evs : List Event} {ev : Event} :
    s.replay (evs ++ [ev]) = (s.replay evs).bind fun t =>
      if t.needsResnapshot ev then none else some (t.applyEvent ev) := by
  induction evs generalizing s with
  | nil => rfl
  | cons e evs ih =>
    simp only [List.cons_append, replay]
    split
    · rfl
    · exact ih

theorem Snapshot.applyEvent_seq {s : Snapshot} {ev : Event} : (s.applyEvent ev).seq = ev.seq := by
  cases h : ev.kind <;> simp [applyEvent, h]

/-- Each event folded is one further. -/
theorem Snapshot.replay_seq {s t : Snapshot} {evs : List Event} (h : s.replay evs = some t) :
    t.seq = s.seq + evs.length := by
  induction evs generalizing s with
  | nil =>
    obtain rfl := Option.some.inj h
    rfl
  | cons ev evs ih =>
    simp only [replay] at h
    split at h
    · cases h
    · rename_i hnext
      have hseq : ev.seq = s.seq + 1 := by simpa [needsResnapshot] using hnext
      rw [ih h, applyEvent_seq, hseq, List.length_cons]
      omega

/-! ## The daemon's run -/

/-- The daemon and the events it sent. It serves once it has read its disk and
taken up the sessions it finds. -/
structure World where
  state : State
  sent : List Event
  serving : Bool

/-- A daemon that has loaded its projects. -/
def World.boot (projects : Table Project) : World :=
  ⟨⟨projects, .empty, .empty, 0⟩, [], false⟩

inductive Action where
  /-- A thread's change, with its event, under the lock. -/
  | emit (m : Mutation)
  | interruptPreparing
  /-- The scan takes in a session whose log has ended. -/
  | scanEnded (session : Session)
  | serve
  | applyPresence (flags : List (ProjectId × String × Bool))
  deriving DecidableEq, Repr

/-- **One step of the daemon.** What no event tells is done before it serves,
but for the flags of a snapshot. -/
def World.step (w : World) : Action → Option World
  | .emit m => some { w with state := (m.apply w.state).1, sent := w.sent ++ [(m.apply w.state).2] }
  | .interruptPreparing =>
    if w.serving then none else some { w with state := w.state.interruptPreparing }
  | .scanEnded session =>
    if w.serving || !session.state.isTerminal then none
    else some { w with state := w.state.insertSession session }
  | .serve => some { w with serving := true }
  | .applyPresence flags =>
    if w.serving then some { w with state := w.state.applyPresence flags } else none

def World.snapshot (w : World) : Snapshot := w.state.snapshot

end Daemon
end Willie
