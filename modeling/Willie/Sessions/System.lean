import Mathlib.Algebra.Group.Nat.Defs
import Willie.Common.Lines
import Willie.Common.Runs
import Willie.Sessions.State

/-!
# Sessions — the daemon and the supervisor

One session as a system of two processes. The supervisor starts the session,
logs its events and sends them to the control clients that are registered;
the daemon spawns it, follows it over one control connection and, when it is
restarted, finds it again from its log. Each step is what one thread does at
once: an append, a send, a change under the lock, an answer of the kernel.
-/

namespace Willie
namespace Sessions

open Lines

/-! ## The readiness line -/

/-- What the launcher and the daemon make of the supervisor's one line. -/
inductive Ready where
  | ok (pid : Nat)
  | fail (code text : String)
  deriving DecidableEq, Repr

/-- An unsigned 32-bit number in decimal. -/
def parseU32 (text : Text) : Option Nat :=
  let digits := (text.dropPrefix? ['+']).getD text
  if digits ≠ [] ∧ digits.all Char.isDigit then
    let n := digits.foldl (fun n c => n * 10 + (c.toNat - 48)) 0
    if n < 2 ^ 32 then some n else none
  else none

/-- What precedes the first place a text has `sep`, and what follows it. -/
def splitOnce (sep : Text) : Text → Option (Text × Text)
  | [] => if sep = [] then some ([], []) else none
  | c :: cs =>
    match (c :: cs).dropPrefix? sep with
    | some rest => some ([], rest)
    | none => (splitOnce sep cs).map fun (a, b) => (c :: a, b)

/-- `ok <pid>` or `fail <code>: <text>`. -/
def parseLine (line : Text) : Option Ready :=
  match line.dropPrefix? "ok ".toList with
  | some pid => (parseU32 (trim pid)).map .ok
  | none =>
    (line.dropPrefix? "fail ".toList).bind fun rest =>
      (splitOnce ": ".toList rest).map fun (code, text) =>
        .fail (String.ofList code) (String.ofList text)

/-- The first line of a text, trimmed. -/
def firstLine (text : Text) : Text := trim ((lines text).headD [])

/-- What the supervisor writes to its launcher. -/
def Reply.ok (pid : Nat) : Text := "ok ".toList ++ (toString pid).toList ++ ['\n']

def Reply.fail (code text : String) : Text :=
  "fail ".toList ++ code.toList ++ ": ".toList ++
    text.toList.map (fun c => if c = '\n' then ' ' else c) ++ ['\n']

/-- The launcher waits for the supervisor's line, or for the pipe to close. -/
def Handshake.wait (text : Text) (log : String) : Ready :=
  (parseLine (firstLine text)).getD
    (.fail "supervisor_spawn_failed" ("the supervisor exited before reporting; its log is " ++ log))

/-- What the launcher prints. -/
def Ready.line : Ready → Text
  | .ok pid => "ok ".toList ++ (toString pid).toList ++ ['\n']
  | .fail code text => "fail ".toList ++ code.toList ++ ": ".toList ++ text.toList ++ ['\n']

/-- What the daemon reads from the launcher. -/
def parseReady (line : Text) : Ready :=
  (parseLine line).getD
    (.fail "supervisor_spawn_failed" "the supervisor did not report readiness")

/-- **What `spawn_supervisor` returns** when the supervisor wrote `text`. -/
def readiness (text : Text) (log : String) : Ready :=
  parseReady (firstLine (Handshake.wait text log).line)

/-! ## The supervisor -/

/-- How far a supervisor has come. -/
inductive Stage where
  | absent
  /-- Its process runs; nothing is logged. -/
  | launched
  /-- `created` is logged. -/
  | created
  /-- The failure is logged; the launcher waits for it. -/
  | refusing (code text : String)
  /-- `sandbox_applied` is logged. -/
  | applied
  /-- `started` is logged; the filter's server may run. -/
  | started
  /-- Clients are accepted; the launcher waits. -/
  | listening
  /-- The session was announced ready. -/
  | serving
  /-- The output has ended: new clients are rejected. -/
  | ending
  /-- `exited` is logged. -/
  | exited
  /-- Every client was told, the socket is unlinked. -/
  | closed
  | gone
  deriving DecidableEq, Repr

structure Supervisor where
  stage : Stage := .absent
  /-- The helper's monitor, its own child. -/
  pid : Nat
  /-- Its own log, which the launcher names. -/
  logFile : String
  /-- `events.jsonl`, as it is read back. -/
  log : List SessionEvent := []
  /-- Events appended and not yet sent to the clients. -/
  inflight : List SessionEvent := []
  /-- Terminals registered. -/
  terminals : Nat := 0
  /-- What it wrote to its launcher. -/
  reply : Text := []
  deriving Repr

/-- The mechanisms a session is refused without. -/
def required : List String := ["namespaces", "mounts", "rlimits", "seccomp"]

def requiredMissing (applied : List String) : Option String :=
  required.find? fun req => !applied.contains req

/-- The events threads log while the session is at a stage, its own progress
aside: the filter's server first, every client once they are accepted. -/
def Stage.notes : Stage → SessionEventKind → Bool
  | .started, .sandboxDenied .. | .started, .sandboxDegraded .. => true
  | .listening, k | .serving, k | .ending, k | .exited, k | .closed, k =>
    match k with
    | .sandboxDenied .. | .sandboxDegraded .. | .attached _ | .detached _ | .resized ..
    | .stopRequested _ => true
    | _ => false
  | _, _ => false

/-- A client that connects is not refused by the kernel. -/
def Stage.bound : Stage → Bool
  | .created | .refusing .. | .applied | .started | .listening | .serving | .ending | .exited =>
    true
  | _ => false

/-- A control client is served. -/
def Stage.answers : Stage → Bool
  | .listening | .serving => true
  | _ => false

/-- A client that says hello is rejected. -/
def Stage.rejects : Stage → Bool
  | .ending | .exited | .closed => true
  | _ => false

/-- Appends an event; a failed write loses it and nothing else. -/
def Supervisor.append (sup : Supervisor) (ev : SessionEvent) (wrote : Bool) : Supervisor :=
  if wrote then { sup with log := sup.log ++ [ev] } else sup

/-- Appends an event that the control clients are to be sent. -/
def Supervisor.logEvent (sup : Supervisor) (ev : SessionEvent) (wrote : Bool) : Supervisor :=
  { sup.append ev wrote with inflight := sup.inflight ++ [ev] }

/-- The process is gone, and with it what it had not sent. -/
def Supervisor.quit (sup : Supervisor) : Supervisor := { sup with stage := .gone, inflight := [] }

/-! ## The control connection -/

inductive Frame where
  | event (ev : SessionEvent)
  | closed
  deriving DecidableEq, Repr

/-- The daemon's control connection, as the supervisor has it. -/
inductive Conn where
  | none
  /-- Connected; its hello is not yet read. -/
  | opened
  /-- Among the clients that events are sent to. -/
  | registered
  /-- Taken off the clients as too slow, and left open. -/
  | dropped
  /-- Nothing more will be sent. -/
  | shut
  deriving DecidableEq, Repr

/-- The connection, and the frames the daemon has not read yet. -/
structure Link where
  conn : Conn := .none
  frames : List Frame := []
  deriving DecidableEq, Repr

def Link.send (link : Link) (frame : Frame) : Link := { link with frames := link.frames ++ [frame] }

/-- The supervisor's end is gone; of the frames only the first are written. -/
def Link.hang (link : Link) (kept : Nat) : Link :=
  if link.conn = .none then link else { conn := .shut, frames := link.frames.take kept }

/-! ## The daemon -/

/-- Where the thread that creates or scans is. -/
inductive Main where
  | create
  | spawn
  /-- The supervisor is launched; its readiness is awaited. -/
  | waiting
  /-- The session is Running; its supervisor is to be watched. -/
  | watch
  /-- The control connection is open. -/
  | threads
  | scan
  /-- The session was read from its log; its supervisor is to be asked. -/
  | probe (session : Session)
  | done
  deriving DecidableEq, Repr

/-- The control reader. -/
inductive Reader where
  | idle
  | reading
  | ended
  deriving DecidableEq, Repr

/-- The thread that finalises the session. -/
inductive Finaliser where
  | idle
  /-- It waits for the reader to end. -/
  | joining
  /-- The session is not terminal; its supervisor is to be asked. -/
  | probing
  | done
  deriving DecidableEq, Repr

structure Daemon where
  state : State
  main : Main
  reader : Reader := .idle
  finaliser : Finaliser := .idle

structure World where
  sup : Supervisor
  link : Link
  daemon : Daemon

/-- A supervisor's answer to a status request. -/
structure Status where
  pid : Nat
  clients : Nat
  deriving DecidableEq, Repr

def statusOf (sup : Supervisor) : Status := ⟨sup.pid, sup.terminals⟩

/-! ## The supervisor's steps -/

inductive SupAct where
  | created (at_ : String) (wrote : Bool)
  /-- A failure that is not logged: before the log is open, or when clients
  cannot be accepted. -/
  | abandon (code text : String)
  /-- A refusal: its failure is logged, -/
  | refuse (at_ code text : String) (wrote : Bool)
  /-- then told to the launcher. -/
  | report
  | applied (at_ : String) (mechanisms unavailable : List String) (wrote : Bool)
  | started (at_ : String) (wrote : Bool)
  | listen
  | ready
  | note (at_ : String) (kind : SessionEventKind) (wrote : Bool)
  /-- An appended event is sent to the clients; it may not fit in the queue. -/
  | fanOut (i : Nat) (fits : Bool)
  | attach
  | leave
  /-- The hello of the daemon's connection is read. -/
  | register
  /-- The connection breaks. -/
  | lose (kept : Nat)
  | ending
  | exited (at_ : String) (code signal : Option Int) (wrote : Bool)
  | close
  | die (kept : Nat)
  deriving Repr

/-- **A step of the supervisor.** -/
def Supervisor.step (sup : Supervisor) (link : Link) : SupAct → Option (Supervisor × Link)
  | .created at_ wrote =>
    if sup.stage = .launched then
      some ({ sup.append ⟨at_, .created⟩ wrote with stage := .created }, link)
    else none
  | .abandon code text =>
    if sup.stage = .launched ∨ sup.stage = .started then
      some ({ sup.quit with reply := Reply.fail code text }, link.hang link.frames.length)
    else none
  | .refuse at_ code text wrote =>
    if sup.stage = .created then
      some ({ sup.append ⟨at_, .failed code text⟩ wrote with stage := .refusing code text }, link)
    else none
  | .report =>
    match sup.stage with
    | .refusing code text =>
      some ({ sup.quit with reply := Reply.fail code text }, link.hang link.frames.length)
    | _ => none
  | .applied at_ mechanisms unavailable wrote =>
    if sup.stage = .created ∧ requiredMissing mechanisms = none then
      some ({ sup.append ⟨at_, .sandboxApplied mechanisms unavailable⟩ wrote with
        stage := .applied }, link)
    else none
  | .started at_ wrote =>
    if sup.stage = .applied then
      some ({ sup.append ⟨at_, .started sup.pid⟩ wrote with stage := .started }, link)
    else none
  | .listen =>
    if sup.stage = .started then some ({ sup with stage := .listening }, link) else none
  | .ready =>
    if sup.stage = .listening then
      some ({ sup with stage := .serving, reply := Reply.ok sup.pid }, link)
    else none
  | .note at_ kind wrote =>
    if sup.stage.notes kind then some (sup.logEvent ⟨at_, kind⟩ wrote, link) else none
  | .fanOut i fits =>
    sup.inflight[i]?.map fun ev =>
      ({ sup with inflight := sup.inflight.eraseIdx i },
        if link.conn = .registered then
          if fits then link.send (.event ev) else { link with conn := .dropped }
        else link)
  | .attach =>
    if sup.stage.answers then some ({ sup with terminals := sup.terminals + 1 }, link) else none
  | .leave =>
    if 0 < sup.terminals then some ({ sup with terminals := sup.terminals - 1 }, link) else none
  | .register =>
    if link.conn = .opened then
      if sup.stage.answers then some (sup, { link with conn := .registered })
      else if sup.stage.rejects then some (sup, { link.send .closed with conn := .shut })
      else none
    else none
  | .lose kept =>
    if link.conn = .none ∨ sup.stage = .gone then none else some (sup, link.hang kept)
  | .ending => if sup.stage = .serving then some ({ sup with stage := .ending }, link) else none
  | .exited at_ code signal wrote =>
    if sup.stage = .ending then
      some ({ sup.logEvent ⟨at_, .exited code signal⟩ wrote with stage := .exited }, link)
    else none
  | .close =>
    -- the end has been sent before the clients are taken
    if sup.stage = .exited ∧ sup.inflight.all fun ev => !ev.kind.isEnd then
      some ({ sup with stage := .closed, terminals := 0 },
        if link.conn = .registered then { link.send .closed with conn := .shut } else link)
    else none
  | .die kept =>
    if sup.stage = .absent ∨ sup.stage = .gone then none
    else some (sup.quit, link.hang kept)

/-! ## The daemon's steps -/

/-- The failure a session that nobody answers for is given. -/
def supervisorLost : SessionEventKind :=
  .failed "supervisor_lost" "the supervisor stopped answering"

/-- **Finalises a session whose supervisor does not answer**, from its log;
nothing if its directory is not found. -/
def finaliseLost (spec : SessionSpec) (log : List SessionEvent) (found : Bool) (at_ : String)
    (st : State) : State :=
  if found then
    let session := fromLog spec log
    st.upsertSession
      (if session.state.isTerminal then session else applyEvent session ⟨at_, supervisorLost⟩)
  else st

/-- A session whose supervisor answered, as a scan adopts it. -/
def adopt (session : Session) (status : Status) : Session :=
  { session with state := .running, pid := some status.pid, clients := status.clients }

inductive DaemonAct where
  | create
  | launch
  | spawnFails (at_ message : String)
  | timeout (at_ : String)
  | answer (at_ : String)
  /-- The launcher cannot detach and says so, or ends without a line. -/
  | launcherFails (at_ : String) (line : Text)
  | connect (ok : Bool)
  /-- The reader's and the finaliser's threads start, or do not. -/
  | threads (reader finaliser : Bool)
  | load (readable : Bool)
  | probe (answers found : Bool) (at_ : String)
  | read
  /-- The reader's socket ends or fails. -/
  | hangUp
  | join
  | finalise (answers found : Bool) (at_ : String)
  | restart
  deriving Repr

variable (spec : SessionSpec)

/-- A daemon that is asked to create the session. -/
def Daemon.creating (st : State) : Daemon := { state := st, main := .create }

/-- A daemon that has just been started. -/
def Daemon.restarted : Daemon := { state := .empty, main := .scan }

/-- What `create` makes of the supervisor's readiness. -/
def readyEvent (at_ : String) : Ready → SessionEvent
  | .ok pid => ⟨at_, .started pid⟩
  | .fail code text => ⟨at_, .failed code text⟩

/-- **A step of the daemon.** `create` folds what it learns onto the session
it began with; `load` and `finaliseLost` read the log as it is by then. -/
def World.daemonStep (w : World) : DaemonAct → Option World
  | .create =>
    if w.daemon.main = .create then
      some { w with daemon := { w.daemon with
        state := w.daemon.state.upsertSession (fromLog spec []), main := .spawn } }
    else none
  | .launch =>
    if w.daemon.main = .spawn ∧ w.sup.stage = .absent then
      some { w with sup := { w.sup with stage := .launched },
                    daemon := { w.daemon with main := .waiting } }
    else none
  | .spawnFails at_ message =>
    if w.daemon.main = .spawn then
      some { w with daemon := { w.daemon with
        state := w.daemon.state.upsertSession
          (applyEvent (fromLog spec []) ⟨at_, .failed "supervisor_spawn_failed" message⟩)
        main := .done } }
    else none
  | .timeout at_ =>
    if w.daemon.main = .waiting then
      some { w with daemon := { w.daemon with
        state := w.daemon.state.upsertSession
          (applyEvent (fromLog spec []) ⟨at_, .failed "supervisor_timeout" "no readiness reply"⟩)
        main := .done } }
    else none
  | .answer at_ =>
    -- the line is there, or the pipe has closed without one
    if w.daemon.main = .waiting ∧ (w.sup.reply ≠ [] ∨ w.sup.stage = .gone) then
      let ready := readiness w.sup.reply w.sup.logFile
      some { w with daemon := { w.daemon with
        state := w.daemon.state.upsertSession
          (applyEvent (fromLog spec []) (readyEvent at_ ready))
        main := match ready with
          | .ok _ => .watch
          | .fail .. => .done } }
    else none
  | .launcherFails at_ line =>
    if w.daemon.main = .waiting then
      match parseReady (firstLine line) with
      | .ok _ => none
      | .fail code text =>
        some { w with daemon := { w.daemon with
          state := w.daemon.state.upsertSession
            (applyEvent (fromLog spec []) (readyEvent at_ (.fail code text)))
          main := .done } }
    else none
  | .connect ok =>
    if w.daemon.main = .watch then
      if ok then
        if w.sup.stage.bound then
          some { w with link := ⟨.opened, []⟩, daemon := { w.daemon with main := .threads } }
        else none
      else some { w with daemon := { w.daemon with main := .done } }
    else none
  | .threads reader finaliser =>
    if w.daemon.main = .threads then
      some { w with
        -- without a reader the connection is dropped
        link := if reader then w.link else {}
        daemon := { w.daemon with
          main := .done
          reader := if reader then .reading else .idle
          finaliser := if finaliser then .joining else .idle } }
    else none
  | .load readable =>
    if w.daemon.main = .scan then
      if readable then
        let session := fromLog spec w.sup.log
        if session.state.isTerminal then
          some { w with daemon := { w.daemon with
            state := w.daemon.state.insertSession session, main := .done } }
        else some { w with daemon := { w.daemon with main := .probe session } }
      else some { w with daemon := { w.daemon with main := .done } }
    else none
  | .probe answers found at_ =>
    match w.daemon.main with
    | .probe session =>
      if answers then
        if w.sup.stage.answers then
          some { w with daemon := { w.daemon with
            state := w.daemon.state.upsertSession (adopt session (statusOf w.sup))
            main := .watch } }
        else none
      else
        some { w with daemon := { w.daemon with
          state := finaliseLost spec w.sup.log found at_ w.daemon.state, main := .done } }
    | _ => none
  | .read =>
    if w.daemon.reader = .reading then
      match w.link.frames with
      | .event ev :: frames =>
        some { w with link := { w.link with frames := frames },
                      daemon := { w.daemon with state := w.daemon.state.onEvent spec.id ev } }
      | .closed :: _ => some { w with link := {}, daemon := { w.daemon with reader := .ended } }
      | [] => none
    else none
  | .hangUp =>
    if w.daemon.reader = .reading then
      some { w with link := {}, daemon := { w.daemon with reader := .ended } }
    else none
  | .join =>
    if w.daemon.finaliser = .joining ∧ w.daemon.reader ≠ .reading then
      some { w with daemon := { w.daemon with
        finaliser :=
          if (w.daemon.state.get spec.id).any fun s => s.state.isTerminal then .done
          else .probing } }
    else none
  | .finalise answers found at_ =>
    if w.daemon.finaliser = .probing then
      if answers then
        if w.sup.stage.answers then
          some { w with daemon := { w.daemon with finaliser := .done } }
        else none
      else
        some { w with daemon := { w.daemon with
          state := finaliseLost spec w.sup.log found at_ w.daemon.state, finaliser := .done } }
    else none
  | .restart => some { w with link := {}, daemon := .restarted }

inductive Act where
  | sup (act : SupAct)
  | daemon (act : DaemonAct)
  deriving Repr

/-- **A step of the system.** -/
def World.step (w : World) : Act → Option World
  | .sup act => (w.sup.step w.link act).map fun (sup, link) => { w with sup := sup, link := link }
  | .daemon act => w.daemonStep spec act

/-- A daemon that has just been asked to create the session, or has just been
started. -/
def World.Fresh (w : World) : Prop :=
  w.link = {} ∧ ((∃ st, w.daemon = .creating st) ∨ w.daemon = .restarted)

variable {spec} {w w' : World}

theorem World.step_sup {a : SupAct} (h : w.step spec (.sup a) = some w') :
    w'.daemon = w.daemon := by
  obtain ⟨r, -, rfl⟩ := Option.map_eq_some_iff.mp h
  rfl

/-! ## An announced session -/

/-- A session of project 1. -/
def claudeSpec : SessionSpec where
  id := 1
  projectId := 1
  harness := "claude-code"
  workspace := "/home/willie/projects/x"
  createdAt := "1"
  resumedFrom := none
  kind := .agent

/-- A daemon that is asked to create it. -/
def createWorld : World where
  sup := { pid := 7, logFile := "/var/lib/willie/sessions/1/supervisor.log" }
  link := {}
  daemon := .creating .empty

theorem createWorld_fresh : createWorld.Fresh := ⟨rfl, .inl ⟨.empty, rfl⟩⟩

/-- The session is created and announced ready. -/
def announced : List Act :=
  [.daemon .create, .daemon .launch, .sup (.created "1" true),
    .sup (.applied "1" required ["landlock"] true), .sup (.started "1" true), .sup .listen,
    .sup .ready, .daemon (.answer "1")]

end Sessions
end Willie
