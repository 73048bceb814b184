import Willie.Projects.Model

/-!
# Sessions — the record and its events

A session is known by the spec the daemon wrote for it and the events its
supervisor logged. The record the daemon holds is a fold of events over what
the spec says; nothing more happens to it once it has ended.
-/

namespace Willie
namespace Sessions

open Projects (ProjectId)

abbrev Text := List Char

/-- A session's id: the number its ULID stands for. -/
abbrev SessionId := Nat

inductive SessionState where
  | creating
  | running
  | stopping
  | exited (code signal : Option Int)
  | failed (code message remediation : String)
  deriving DecidableEq, Repr

/-- A supervisor is expected to be answering on the socket. -/
def SessionState.isLive : SessionState → Bool
  | .running | .stopping => true
  | _ => false

/-- Nothing more will happen to this session. -/
def SessionState.isTerminal : SessionState → Bool
  | .exited .. | .failed .. => true
  | _ => false

/-- One thing the sandbox refused, merged over the session. -/
structure Denied where
  cls : String
  name : String
  count : Nat
  firstAt : String
  lastAt : String
  deriving DecidableEq, Repr

/-- What the sandbox reported for one session. -/
structure SandboxState where
  applied : List String := []
  unavailable : List String := []
  denied : List Denied := []
  degraded : List String := []
  deriving DecidableEq, Repr

inductive SessionKind where
  | agent
  | shell
  deriving DecidableEq, Repr

structure Session where
  id : SessionId
  projectId : ProjectId
  harness : String
  workspace : String
  kind : SessionKind
  state : SessionState
  createdAt : String
  startedAt : Option String
  finishedAt : Option String
  /-- The harness process while it runs. -/
  pid : Option Nat
  /-- Attached terminals. -/
  clients : Nat
  resumedFrom : Option SessionId
  /-- What the user renamed the session to. -/
  label : Option String
  /-- The session's first prompt, found by the daemon in the harness's own log. -/
  title : Option String
  sandbox : SandboxState
  deriving DecidableEq, Repr

/-- What the daemon wrote for the supervisor before it spawned it, as far as
the record of the session is built from it. -/
structure SessionSpec where
  id : SessionId
  projectId : ProjectId
  harness : String
  workspace : String
  createdAt : String
  resumedFrom : Option SessionId
  kind : SessionKind
  deriving DecidableEq, Repr

inductive SessionEventKind where
  | created
  | started (pid : Nat)
  | sandboxApplied (mechanisms unavailable : List String)
  | sandboxDenied (cls name : String) (count : Nat)
  | sandboxDegraded (mechanism message : String)
  | renamed (label : Option String)
  | attached (client : Nat)
  | detached (client : Nat)
  | resized (rows cols : Nat)
  | stopRequested (by_ : String)
  | exited (code signal : Option Int)
  | failed (code message : String)
  deriving DecidableEq, Repr

/-- A session ends with this event. -/
def SessionEventKind.isEnd : SessionEventKind → Bool
  | .exited .. | .failed .. => true
  | _ => false

/-- One line of `events.jsonl`. -/
structure SessionEvent where
  /-- Epoch seconds as a string. -/
  at_ : String
  kind : SessionEventKind
  deriving DecidableEq, Repr

/-- The one table of session and tool remediations. -/
def remediationFor (code : String) : String :=
  if code = "project_not_ready" then
    "wait for the project to be ready, or fix its failure first"
  else if code = "harness_cannot_resume" then
    "open a fresh session instead; this harness cannot continue a conversation"
  else if code = "harness_not_installed" then "click Install on the Dashboard"
  else if code = "git_identity_missing" then
    "set `git config --global user.name` and `user.email` on Windows, then open the session again"
  else if code = "supervisor_spawn_failed" then
    "run `willie doctor`; reinstall the distribution if the supervisor binary is missing"
  else if code = "supervisor_timeout" then
    "open the session again; run `willie doctor` if it repeats"
  else if code = "harness_exec_failed" then
    "reinstall Claude Code, or remove the project and add it again"
  else if code = "sandbox_backend_missing" then
    "the image lacks the namespace helper: rebuild and reinstall the distribution " ++
      "(`just distro-build`, `just distro-install`)"
  else if code = "shell_unavailable" then
    "rebuild and reinstall the distribution (just distro-build, just distro-install)"
  else if code = "sandbox_apply_failed" then
    "the message names the path; the helper writes its own complaint to the session's terminal, " ++
      "so attach to see it, then run `willie doctor`"
  else if code = "sandbox_profile_invalid" then
    "the message names the path and where it leads; correct it in the project's Sandbox settings"
  else if code = "sandbox_capability_unsupported" then
    "the message names the capability; remove it from the project's Sandbox settings, " ++
      "this version cannot apply it"
  else if code = "session_not_found" then "refresh the Sessions screen"
  else if code = "session_not_running" then "nothing to stop; open a new session"
  else if code = "sessions_running" then "stop the project's sessions first"
  else if code = "supervisor_lost" then "open a new session"
  else if code = "harness_already_installed" then "nothing to install"
  else if code = "tool_not_installed" then "install it first, then update"
  else if code = "tool_busy" then "wait for the running install to finish"
  else if code = "install_failed" then
    "read the installer output, check the network, then try again"
  else "open the session again; run `willie doctor` if it repeats"

/-! ## Folding events -/

/-- The characters Unicode counts as white space. -/
def isWhitespace (c : Char) : Bool :=
  let n := c.toNat
  (0x9 ≤ n && n ≤ 0xd) || n == 0x20 || n == 0x85 || n == 0xa0 || n == 0x1680 ||
    (0x2000 ≤ n && n ≤ 0x200a) || n == 0x2028 || n == 0x2029 || n == 0x202f || n == 0x205f ||
    n == 0x3000

/-- A text without the white space at its ends. -/
def trim (text : Text) : Text :=
  ((text.dropWhile isWhitespace).reverse.dropWhile isWhitespace).reverse

/-- A label of nothing but blanks is no label. -/
def keepLabel (label : Option String) : Option String :=
  label.filter fun l => !(trim l.toList).isEmpty

/-- Counts a refusal in its row, or opens one. -/
def recordDenied (rows : List Denied) (at_ cls name : String) (count : Nat) : List Denied :=
  match rows with
  | [] => [⟨cls, name, count, at_, at_⟩]
  | d :: rest =>
    if d.cls = cls ∧ d.name = name then { d with count := d.count + count, lastAt := at_ } :: rest
    else d :: recordDenied rest at_ cls name count

/-- What an event does to a session that has not ended. -/
def SessionEventKind.fold (s : Session) (at_ : String) : SessionEventKind → Session
  | .created | .resized .. => s
  | .sandboxApplied mechanisms unavailable =>
    { s with sandbox := { s.sandbox with applied := mechanisms, unavailable } }
  | .sandboxDenied cls name count =>
    { s with sandbox :=
      { s.sandbox with denied := recordDenied s.sandbox.denied at_ cls name count } }
  | .sandboxDegraded mechanism _ =>
    if mechanism ∈ s.sandbox.degraded then s
    else { s with sandbox := { s.sandbox with degraded := s.sandbox.degraded ++ [mechanism] } }
  | .started pid => { s with state := .running, pid := some pid, startedAt := some at_ }
  | .renamed label => { s with label := keepLabel label }
  | .attached _ => { s with clients := s.clients + 1 }
  | .detached _ => { s with clients := s.clients - 1 }
  | .stopRequested _ => if s.state.isLive then { s with state := .stopping } else s
  | .exited code signal =>
    { s with state := .exited code signal, finishedAt := some at_, pid := none, clients := 0 }
  | .failed code message =>
    { s with state := .failed code message (remediationFor code), finishedAt := some at_,
             pid := none, clients := 0 }

/-- **Folds one event into the session.** Events after a terminal state are
ignored: a log can only end once. -/
def applyEvent (s : Session) (ev : SessionEvent) : Session :=
  if s.state.isTerminal then s else ev.kind.fold s ev.at_

/-- A session still being created. -/
def Session.new (spec : SessionSpec) : Session where
  id := spec.id
  projectId := spec.projectId
  harness := spec.harness
  workspace := spec.workspace
  kind := spec.kind
  state := .creating
  createdAt := spec.createdAt
  startedAt := none
  finishedAt := none
  pid := none
  clients := 0
  resumedFrom := spec.resumedFrom
  label := none
  title := none
  sandbox := {}

/-- The session a spec plus its event log describe. -/
def fromLog (spec : SessionSpec) (events : List SessionEvent) : Session :=
  events.foldl applyEvent (Session.new spec)

variable {s : Session} {ev : SessionEvent} {evs : List SessionEvent} {spec : SessionSpec}

theorem applyEvent_terminal (h : s.state.isTerminal = true) : applyEvent s ev = s :=
  if_pos h

theorem applyEvent_open (h : s.state.isTerminal = false) :
    applyEvent s ev = ev.kind.fold s ev.at_ :=
  if_neg (by simp [h])

theorem foldl_terminal (h : s.state.isTerminal = true) : evs.foldl applyEvent s = s := by
  induction evs with
  | nil => rfl
  | cons ev evs ih => rw [List.foldl_cons, applyEvent_terminal h, ih]

theorem fromLog_append (a b : List SessionEvent) :
    fromLog spec (a ++ b) = b.foldl applyEvent (fromLog spec a) :=
  List.foldl_append

theorem fromLog_snoc (a : List SessionEvent) :
    fromLog spec (a ++ [ev]) = applyEvent (fromLog spec a) ev :=
  fromLog_append a [ev]

/-- What the record has from its spec. -/
def Session.origin (s : Session) :
    SessionId × ProjectId × String × String × SessionKind × String × Option SessionId :=
  (s.id, s.projectId, s.harness, s.workspace, s.kind, s.createdAt, s.resumedFrom)

theorem fold_origin {k : SessionEventKind} {at_ : String} : (k.fold s at_).origin = s.origin := by
  cases k with
  | sandboxDegraded mechanism message => simp only [SessionEventKind.fold]; split <;> rfl
  | stopRequested by_ => simp only [SessionEventKind.fold]; split <;> rfl
  | _ => rfl

/-- No event changes it. -/
theorem applyEvent_origin : (applyEvent s ev).origin = s.origin := by
  unfold applyEvent
  split
  · rfl
  · exact fold_origin

theorem foldl_origin : (evs.foldl applyEvent s).origin = s.origin := by
  induction evs generalizing s with
  | nil => rfl
  | cons ev evs ih => rw [List.foldl_cons, ih, applyEvent_origin]

@[simp] theorem applyEvent_id : (applyEvent s ev).id = s.id :=
  congrArg (·.1) applyEvent_origin

theorem fromLog_id : (fromLog spec evs).id = spec.id :=
  congrArg (·.1) (foldl_origin (s := Session.new spec))

/-- An event that ends a session ends it. -/
theorem applyEvent_end (h : ev.kind.isEnd = true) :
    (applyEvent s ev).state.isTerminal = true := by
  unfold applyEvent
  split
  · assumption
  · cases hk : ev.kind with
    | exited code signal => rfl
    | failed code message => rfl
    | _ => simp [hk, SessionEventKind.isEnd] at h

/-! ## Views of the record

A view that keeps the state and that folding respects sees the same of two
records after the same events, if it did before. -/

section View

variable {view : Session → Session} {t : Session}

theorem applyEvent_view (hstate : ∀ s, (view s).state = s.state)
    (hfold : ∀ k s at_, view (SessionEventKind.fold (view s) at_ k) = view (k.fold s at_))
    (h : view s = view t) : view (applyEvent s ev) = view (applyEvent t ev) := by
  have hst : s.state = t.state := by rw [← hstate s, h, hstate t]
  cases hs : s.state.isTerminal with
  | true =>
    rw [applyEvent_terminal hs, applyEvent_terminal (hst ▸ hs)]
    exact h
  | false =>
    rw [applyEvent_open hs, applyEvent_open (hst ▸ hs), ← hfold ev.kind s, h, hfold]

theorem foldl_view (hstate : ∀ s, (view s).state = s.state)
    (hfold : ∀ k s at_, view (SessionEventKind.fold (view s) at_ k) = view (k.fold s at_))
    (h : view s = view t) : view (evs.foldl applyEvent s) = view (evs.foldl applyEvent t) := by
  induction evs generalizing s t with
  | nil => exact h
  | cons ev evs ih => exact ih (applyEvent_view hstate hfold h)

end View

end Sessions
end Willie
