import Mathlib.Logic.Function.Basic
import Willie.Common.Absorb
import Willie.Common.Threads
import Willie.Sessions.Tally
import Willie.Supervisor.Screen

/-!
# Supervisor — its threads and what they share

The main thread pumps the terminal's output, and ends the session when there
is no more; the filter's server records what the sandbox refuses; a waiter
turns signals into a stop; and each client has a thread of its own. They
share the screen, the list of clients, the phase, the stop's cause, the tally
and the log, each behind its own lock, and no two locks are held at once. An
operation here is one such critical section. What a client is handed goes to
a queue of its own, which its writer writes to its socket a frame at a time.

The main thread and a client's thread are where `main` and `stage` say; the
rest of an operation's effect is on the shared state. Of the state, what was
forwarded, how far each client's view of it and of the log begins, and which
clients left or were dropped is there to state what the threads achieve; no
operation reads it.
-/

namespace Willie
namespace Supervisor

open Sessions (SessionEvent SessionEventKind SessionSpec Tally Report)

inductive Role where
  | terminal
  | control
  deriving DecidableEq, Repr

inductive Phase where
  | running
  | stopping
  | exited
  deriving DecidableEq, Repr

inductive CloseReason where
  | exited
  | stopped
  | shutdown
  | tooSlow
  deriving DecidableEq, Repr

structure Closed where
  reason : CloseReason
  code : Option Int := none
  signal : Option Int := none
  deriving DecidableEq, Repr

/-- What a client's writer is handed. -/
inductive Msg where
  | output (bytes : Bytes)
  | event (ev : SessionEvent)
  | status
  /-- The last frame; the writer ends after it. -/
  | closed (c : Closed)
  /-- An empty last frame. -/
  | shut
  deriving DecidableEq, Repr

def Msg.isClose : Msg → Bool
  | .closed _ | .shut => true
  | _ => false

/-- `writer_loop`: what a writer writes is all it is handed, as far as a last
frame. -/
def written (q : List Msg) : List Msg := Absorb.upTo Msg.isClose q

/-- A registered client. -/
structure Handle where
  id : ℕ
  role : Role
  deriving DecidableEq, Repr

/-- Where the main thread is. -/
inductive Main where
  /-- Reading the terminal's output. -/
  | pump
  | push (bytes : Bytes)
  /-- The bytes are in the ring, and not with the clients. -/
  | fanOut (bytes : Bytes)
  | teardown (code signal : Option Int)
  | flush (code signal : Option Int)
  | setExited (code signal : Option Int)
  | logExited (code signal : Option Int)
  | readCause (code signal : Option Int)
  | take (c : Closed)
  /-- These are still to be told. -/
  | close (ids : List ℕ) (c : Closed)
  | unlink (c : Closed)
  /-- Waiting for what the clients are still to be written. -/
  | drain (c : Closed)
  /-- The sockets of these are still to be shut down. -/
  | shutDown (ids : List ℕ) (c : Closed)
  | done (c : Closed)
  deriving DecidableEq, Repr

/-- Where a client's thread is, once the client has an id. -/
inductive Stage where
  | unborn
  | snapshot (rows cols : ℕ)
  | replay (frames : List Bytes) (rows cols : ℕ)
  | registering (role : Role)
  | serving (role : Role)
  /-- Out of its loop. -/
  | leaving (role : Role)
  /-- Off the list. -/
  | shutting
  | out
  deriving DecidableEq, Repr

structure Shared where
  ring : Bytes := []
  alt : AltScreen := {}
  rows : ℕ := 24
  cols : ℕ := 80
  clients : List Handle := []
  nextId : ℕ := 0
  log : List SessionEvent
  phase : Phase := .running
  stopCause : Option CloseReason := none
  tally : Tally := .new 5000
  tearingDown : Bool := false
  main : Main := .pump
  stage : ℕ → Stage := fun _ => .unborn
  /-- What each client's writer was handed, in order. What it was handed after
  a last frame is not written. -/
  queue : ℕ → List Msg := fun _ => []
  /-- How many of the frames its socket has taken. -/
  sent : ℕ → ℕ := fun _ => 0
  /-- The clients whose sockets were shut down. -/
  shut : List ℕ := []
  /-- The clients whose connection broke: their writers are gone. -/
  gone : List ℕ := []
  /-- The clients finish took from the list. -/
  taken : List Handle := []
  /-- All that was pushed into the ring. -/
  forwarded : Bytes := []
  /-- How much of it was fanned out. -/
  fanned : ℕ := 0
  /-- How much was forwarded when a client's replay was read off the ring. -/
  joined : ℕ → Option ℕ := fun _ => none
  /-- How long the log was when a client was registered. -/
  since : ℕ → ℕ := fun _ => 0
  /-- How many of its lines were fanned out, or written before clients were
  accepted. -/
  told : ℕ
  /-- The refusals recorded. -/
  calls : List (String × String) := []
  /-- The clients dropped as too slow. -/
  slow : List ℕ := []
  /-- The clients that detached or hung up. -/
  left : List ℕ := []

/-- What a thread does. -/
inductive Op where
  /-- The main thread goes on. -/
  | main
  /-- A client's thread goes on. -/
  | client (id : ℕ)
  /-- A client connected; its hello is awaited. -/
  | hello
  /-- It said hello, and the session had not exited. -/
  | welcome (role : Role) (rows cols : ℕ)
  | append (kind : SessionEventKind)
  /-- The event, the log's line of this number, is fanned out. -/
  | fanOut (line : ℕ) (ev : SessionEvent)
  | record (cls name : String)
  | requestStop (by_ : String) (cause : CloseReason)
  | setCause (by_ : String) (cause : CloseReason)
  | applySize (rows cols : ℕ) (force : Bool)
  | winsize (rows cols : ℕ)
  /-- The filter's server waits for a refusal. -/
  | filter
  /-- The waiter waits for a signal. -/
  | signals
  /-- The sockets, which take what the writers write, or break. -/
  | world
  deriving DecidableEq, Repr

/-- What a client sends. -/
inductive Frame where
  /-- Keys; whether they could be written to the terminal. -/
  | input (written : Bool)
  | resize (rows cols : ℕ)
  | detach
  | stop
  | statusReq
  | other
  deriving DecidableEq, Repr

/-- What an operation reads from outside. -/
inductive In where
  | go
  | read (out : Bytes) (dropped : List String)
  /-- The output ended, and the helper was waited for. -/
  | over (code signal : Option Int)
  /-- The clock, and whether the line could be written. -/
  | wrote (at_ : String) (ok : Bool)
  | now (instant : ℕ)
  /-- The clients whose queue does not take it. -/
  | refused (ids : List ℕ)
  /-- Of the clients whose queue does not take it all, how many frames it does. -/
  | room (frames : List (ℕ × ℕ))
  | outcome (ok : Bool)
  | greeting (role : Role) (rows cols : ℕ)
  | frame (f : Frame)
  | hangup
  | notified (name : String)
  | failed (error : String)
  | broke (id : ℕ)
  /-- The client's socket takes a frame. -/
  | takes (id : ℕ)
  deriving DecidableEq, Repr

variable (s : Shared)

/-- Hand messages to a client's writer, if there is one. -/
def Shared.send (id : ℕ) (msgs : List Msg) : Shared :=
  { s with
    queue := if id ∈ s.gone then s.queue else Function.update s.queue id (s.queue id ++ msgs) }

section Send

variable {s : Shared} {id : ℕ} {msgs : List Msg}

@[simp] theorem send_clients : (s.send id msgs).clients = s.clients := rfl
@[simp] theorem send_stage : (s.send id msgs).stage = s.stage := rfl
@[simp] theorem send_joined : (s.send id msgs).joined = s.joined := rfl
@[simp] theorem send_since : (s.send id msgs).since = s.since := rfl
@[simp] theorem send_sent : (s.send id msgs).sent = s.sent := rfl
@[simp] theorem send_slow : (s.send id msgs).slow = s.slow := rfl
@[simp] theorem send_left : (s.send id msgs).left = s.left := rfl

end Send

/-- What a client's writer has still to write. -/
def Shared.unwritten (id : ℕ) : List Msg := (written (s.queue id)).drop (s.sent id)

/-! ## The log -/

/-- `EventLog::append`: the event is returned whether or not it was written. -/
def Shared.append (ev : SessionEvent) (ok : Bool) : Shared :=
  { s with log := if ok then s.log ++ [ev] else s.log }

/-- A control client keeps its place if its queue takes the event; terminals
are not told. -/
def Shared.keepsEvent (refused : List ℕ) (h : Handle) : Bool :=
  h.role != .control || !(h.id ∈ s.gone || h.id ∈ refused)

/-- The second half of `log_event`. -/
def Shared.fanOutEvent (ev : SessionEvent) (refused : List ℕ) : Shared :=
  let kept := s.clients.filter (s.keepsEvent refused)
  { s with
    clients := kept
    queue := fun id =>
      s.queue id ++ if ⟨id, .control⟩ ∈ kept then [.event ev] else []
    slow := s.slow ++ (s.clients.filter fun h => !s.keepsEvent refused h).map (·.id)
    told := s.told + 1 }

/-! ## The output -/

/-- How many of the frames a terminal's queue takes. -/
def Shared.roomFor (frames : List Bytes) (room : List (ℕ × ℕ)) (id : ℕ) : ℕ :=
  if id ∈ s.gone then 0 else (room.lookup id).getD frames.length

/-- A terminal keeps its place if its queue takes all of them. -/
def Shared.keepsOutput (frames : List Bytes) (room : List (ℕ × ℕ)) (h : Handle) : Bool :=
  h.role == .control || frames.length ≤ s.roomFor frames room h.id

/-- The second half of `broadcast`: those that do not keep up are told so, and
their sockets are shut down at once. -/
def Shared.fanOutOutput (bytes : Bytes) (room : List (ℕ × ℕ)) : Shared :=
  let frames := chunks bytes
  { s with
    main := .pump
    clients := s.clients.filter (s.keepsOutput frames room)
    queue := fun id =>
      if ⟨id, .terminal⟩ ∈ s.clients ∧ id ∉ s.gone then
        s.queue id ++ (frames.take (s.roomFor frames room id)).map .output ++
          if frames.length ≤ s.roomFor frames room id then [] else [.closed ⟨.tooSlow, none, none⟩]
      else s.queue id
    shut := s.shut ++ (s.clients.filter fun h => !s.keepsOutput frames room h).map (·.id)
    slow := s.slow ++ (s.clients.filter fun h => !s.keepsOutput frames room h).map (·.id)
    fanned := s.fanned + bytes.length }

/-- The terminals a broadcast drops. -/
def Shared.tooSlow (bytes : Bytes) (room : List (ℕ × ℕ)) : List ℕ :=
  (s.clients.filter fun h => !s.keepsOutput (chunks bytes) room h).map (·.id)

/-! ## The main thread -/

/-- A denial's line. -/
def denied (r : Report) : SessionEventKind := .sandboxDenied r.cls r.name r.count

/-- **`serve`**, and then `finish`. -/
def runMain : Main → In → Option (Shared × List Op)
  | .pump, .read out dropped =>
    some ({ s with main := if out = [] then .pump else .push out },
      dropped.map (.record "terminal") ++ [.main])
  | .pump, .over code signal => some ({ s with main := .teardown code signal }, [.main])
  | .push bytes, .go =>
    some ({ s with
      main := .fanOut bytes
      ring := pushRing s.ring bytes
      alt := s.alt.feed bytes
      forwarded := s.forwarded ++ bytes }, [.main])
  | .fanOut bytes, .room room =>
    some (s.fanOutOutput bytes room,
      (s.tooSlow bytes room).map (fun id => .append (.detached id)) ++ [.main])
  | .teardown code signal, .go =>
    some ({ s with main := .flush code signal, tearingDown := true }, [.main])
  -- the denials still folded go first
  | .flush code signal, .now now =>
    some ({ s with main := .setExited code signal, tally := (s.tally.flush now).1 },
      (s.tally.flush now).2.map (fun r => .append (denied r)) ++ [.main])
  | .setExited code signal, .go =>
    some ({ s with main := .logExited code signal, phase := .exited }, [.main])
  | .logExited code signal, .wrote at_ ok =>
    some ({ s.append ⟨at_, .exited code signal⟩ ok with main := .readCause code signal },
      [.fanOut s.log.length ⟨at_, .exited code signal⟩, .main])
  | .readCause code signal, .go =>
    some ({ s with main := .take ⟨s.stopCause.getD .exited, code, signal⟩ }, [.main])
  | .take c, .go =>
    some ({ s with
        main := .close (s.clients.map (·.id)) c
        clients := []
        taken := s.taken ++ s.clients }, [.main])
  | .close (id :: ids) c, .go => some ({ s.send id [.closed c] with main := .close ids c }, [.main])
  | .close [] c, .go => some ({ s with main := .unlink c }, [.main])
  | .unlink c, .go => some ({ s with main := .drain c }, [.main])
  -- it looks again for as long as the grace lasts and a frame is unwritten
  | .drain c, .outcome early =>
    if early ∧ s.taken.any fun h => s.unwritten h.id ≠ [] then
      some ({ s with main := .drain c }, [.main])
    else some ({ s with main := .shutDown (s.taken.map (·.id)) c }, [.main])
  | .shutDown (id :: ids) c, .go =>
    some ({ s with main := .shutDown ids c, shut := id :: s.shut }, [.main])
  | .shutDown [] c, .go => some ({ s with main := .done c }, [])
  | _, _ => none

/-! ## A client's thread -/

/-- What a frame has the thread do before it reads the next. -/
def serveFrame (id : ℕ) (role : Role) : Frame → Shared × List Op
  | .input true => (s, [.client id])
  | .input false => ({ s with stage := Function.update s.stage id (.leaving role) }, [.client id])
  | .resize rows cols => (s, [.applySize rows cols false, .client id])
  | .detach =>
    ({ s with stage := Function.update s.stage id (.leaving role), left := id :: s.left },
      [.client id])
  | .stop => (s, if role = .control then [.requestStop "daemon" .stopped, .client id]
      else [.client id])
  | .statusReq => (if role = .control then s.send id [.status] else s, [.client id])
  | .other => (s, [.client id])

/-- **`client_thread`**, from the client's id on. -/
def runClient (id : ℕ) : Stage → In → Option (Shared × List Op)
  | .snapshot rows cols, .go =>
    let replay := if s.alt.active then [] else s.ring
    some ({ s with
      stage := Function.update s.stage id
        (.replay (if replay = [] then [] else chunks replay) rows cols)
      joined := Function.update s.joined id
        (if s.alt.active then none else some s.forwarded.length) }, [.client id])
  | .replay (frame :: frames) rows cols, .outcome ok =>
    if ok ∧ id ∉ s.gone then
      some ({ s.send id [.output frame] with
        stage := Function.update s.stage id (.replay frames rows cols) }, [.client id])
    else
      -- it is dropped before it was ever registered
      some ({ s.send id [.closed ⟨.tooSlow, none, none⟩] with
        stage := Function.update s.stage id .out
        shut := id :: s.shut
        slow := id :: s.slow }, [])
  | .replay [] rows cols, .go =>
    some ({ s with stage := Function.update s.stage id (.registering .terminal) },
      [.applySize rows cols true, .client id])
  | .registering role, .go =>
    some ({ s with
        clients := s.clients ++ [⟨id, role⟩]
        since := Function.update s.since id s.log.length
        stage := Function.update s.stage id (.serving role) },
      if role = .terminal then [.append (.attached id), .client id] else [.client id])
  | .serving role, .frame f => some (serveFrame s id role f)
  | .serving role, .hangup =>
    some ({ s with stage := Function.update s.stage id (.leaving role), left := id :: s.left },
      [.client id])
  | .leaving role, .go =>
    -- whoever took it off the list logs that it detached
    some ({ s with
      clients := s.clients.filter (·.id ≠ id)
      stage := Function.update s.stage id .shutting },
      .client id :: if s.clients.any (·.id = id) ∧ role = .terminal then
        [.append (.detached id)] else [])
  | .shutting, .go =>
    some ({ s.send id [.shut] with
      stage := Function.update s.stage id .out
      shut := id :: s.shut }, [])
  | _, _ => none

/-! ## Every operation -/

/-- **One critical section.** -/
def run : Op → In → Shared → Option (Shared × List Op)
  | .main, i, s => runMain s s.main i
  | .client id, i, s => runClient s id (s.stage id) i
  | .hello, .greeting role rows cols, s =>
    some (s, if s.phase = .exited then [] else [.welcome role rows cols])
  -- no hello, or one that does not parse
  | .hello, .hangup, s => some (s, [])
  -- its stream cannot be cloned
  | .welcome .., .hangup, s => some (s, [])
  | .welcome role rows cols, .outcome started, s =>
    let id := s.nextId + 1
    if started then
      some ({ s with
        nextId := id
        stage := Function.update s.stage id
          (if role = .terminal then .snapshot rows cols else .registering role) }, [.client id])
    else some ({ s with nextId := id }, [])
  | .append kind, .wrote at_ ok, s =>
    some (s.append ⟨at_, kind⟩ ok, [.fanOut s.log.length ⟨at_, kind⟩])
  | .fanOut _ ev, .refused ids, s => some (s.fanOutEvent ev ids, [])
  | .record cls name, .now now, s =>
    some ({ s with tally := (s.tally.record now cls name).1, calls := s.calls ++ [(cls, name)] },
      (s.tally.record now cls name).2.toList.map fun r => .append (denied r))
  | .requestStop by_ cause, .go, s =>
    if s.phase = .running then some ({ s with phase := .stopping }, [.setCause by_ cause])
    else some (s, [])
  | .setCause by_ cause, .go, s =>
    some ({ s with stopCause := some cause }, [.append (.stopRequested by_)])
  | .applySize rows cols force, .go, s =>
    some ({ s with rows, cols },
      (if force ∧ s.rows = rows ∧ s.cols = cols ∧ s.alt.active then
        [.append (.resized rows (cols - 1))] else []) ++ [.winsize rows cols])
  | .winsize rows cols, .outcome ok, s =>
    some (s, if ok then [.append (.resized rows cols)] else [])
  | .filter, .notified name, s => some (s, [.record "syscall" name, .filter])
  -- no process is left under the filter
  | .filter, .hangup, s => some (s, [])
  | .filter, .failed error, s =>
    some (s, if s.tearingDown then [] else [.append (.sandboxDegraded "seccomp"
      ("the syscall filter is no longer served (" ++ error ++
        "); intercepted calls now fail with ENOSYS"))])
  | .signals, .go, s => some (s, [.requestStop "signal" .shutdown, .signals])
  | .world, .broke id, s => some ({ s with gone := id :: s.gone }, [.world])
  | .world, .takes id, s =>
    if id ∉ s.gone ∧ id ∉ s.shut ∧ s.unwritten id ≠ [] then
      some ({ s with sent := Function.update s.sent id (s.sent id + 1) }, [.world])
    else none
  | _, _, _ => none

/-- The supervisor's state, and what its threads have still to do. -/
abbrev State := Threads.State Shared Op

abbrev step : State → ℕ × In → Option State := Threads.step run

/-- **Clients are accepted**: the log has what the session's start wrote, and
any number of clients will connect. -/
def start (at_ : String) (pid : ℕ) (mechanisms unavailable : List String) (clients : ℕ) :
    State where
  shared := { log := [⟨at_, .created⟩, ⟨at_, .sandboxApplied mechanisms unavailable⟩,
    ⟨at_, .started pid⟩], told := 3 }
  threads := [.main] :: [.filter] :: [.signals] :: [.world] :: List.replicate clients [.hello]

/-- A session that just began, and some clients to come. -/
def opened (clients : ℕ) : State :=
  start "1" 7 ["namespaces", "mounts", "rlimits", "seccomp"] [] clients

end Supervisor
end Willie
