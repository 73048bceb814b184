import Willie.Sessions.System

/-!
# Sessions — what is on its way to the daemon

What the daemon holds of a session and what its log says are built by
different paths: the record from what `create` is told, what a scan reads and
what the control connection delivers; the log by the supervisor alone. A
connection owes the daemon the events between the two. Here is what each step
of the supervisor does to the log, to what is owed and to the connection.
-/

namespace Willie
namespace Sessions

variable {spec : SessionSpec} {s t F rec : Session} {ev : SessionEvent}
variable {evs : List SessionEvent} {sup sup' : Supervisor} {link link' : Link}
variable {w w' : World} {acts : List Act} {fs : List Frame}

/-! ## Two records that say the same -/

/-- A record without its title and without the times it was given. -/
def Session.bare (s : Session) : Session :=
  { s with title := none, startedAt := none, finishedAt := none }

/-- **Two records that say the same**: state, pid, client count, label,
sandbox report and denials, and what the spec says. -/
def Session.Agrees (s t : Session) : Prop := s.bare = t.bare

theorem Session.Agrees.refl (s : Session) : s.Agrees s := rfl

theorem Session.Agrees.state_eq (h : s.Agrees t) : s.state = t.state := by
  have hstate := congrArg Session.state (show s.bare = t.bare from h)
  exact hstate

theorem Session.Agrees.sandbox_eq (h : s.Agrees t) : s.sandbox = t.sandbox := by
  have hsandbox := congrArg Session.sandbox (show s.bare = t.bare from h)
  exact hsandbox

theorem fold_bare (k : SessionEventKind) (s : Session) (at_ : String) :
    (k.fold s.bare at_).bare = (k.fold s at_).bare := by
  cases k with
  | sandboxDegraded mechanism message =>
    by_cases hold : mechanism ∈ s.sandbox.degraded
    · simp [SessionEventKind.fold, Session.bare, hold]
    · simp [SessionEventKind.fold, Session.bare, hold]
  | stopRequested by_ =>
    by_cases hlive : s.state.isLive = true
    · simp [SessionEventKind.fold, Session.bare, hlive]
    · simp [SessionEventKind.fold, Session.bare, hlive]
  | _ => rfl

/-- The same events leave them saying the same. -/
theorem Session.Agrees.foldl (h : s.Agrees t) :
    (evs.foldl applyEvent s).Agrees (evs.foldl applyEvent t) :=
  foldl_view (fun _ => rfl) fold_bare h

theorem Session.Agrees.applyEvent (h : s.Agrees t) :
    (applyEvent s ev).Agrees (applyEvent t ev) :=
  applyEvent_view (fun _ => rfl) fold_bare h

/-! ## Events that say nothing new -/

/-- None of the events changes the record. -/
def Silenced (s : Session) (evs : List SessionEvent) : Prop := ∀ ev ∈ evs, applyEvent s ev = s

theorem Silenced.foldl (h : Silenced s evs) : evs.foldl applyEvent s = s := by
  induction evs with
  | nil => rfl
  | cons ev evs ih =>
    obtain ⟨hev, hrest⟩ := List.forall_mem_cons.mp h
    rw [List.foldl_cons, hev, ih hrest]

/-- Only an end event ends a session. -/
theorem applyEvent_not_end (hs : s.state.isTerminal = false) (hev : ev.kind.isEnd = false) :
    (applyEvent s ev).state.isTerminal = false := by
  rw [applyEvent_open hs]
  cases hk : ev.kind with
  | exited code signal => simp [hk, SessionEventKind.isEnd] at hev
  | failed code message => simp [hk, SessionEventKind.isEnd] at hev
  | started pid => rfl
  | sandboxDegraded mechanism message =>
    simp only [SessionEventKind.fold]
    split
    · exact hs
    · exact hs
  | stopRequested by_ =>
    simp only [SessionEventKind.fold]
    split
    · rfl
    · exact hs
  | _ => exact hs

theorem foldl_not_end (hs : s.state.isTerminal = false) (hevs : ∀ ev ∈ evs, ev.kind.isEnd = false) :
    (evs.foldl applyEvent s).state.isTerminal = false := by
  induction evs generalizing s with
  | nil => exact hs
  | cons ev evs ih =>
    obtain ⟨hev, hrest⟩ := List.forall_mem_cons.mp hevs
    exact ih (applyEvent_not_end hs hev) hrest

/-! ## What the connection still owes -/

/-- The events the daemon will read from the frames. -/
def owed : List Frame → List SessionEvent
  | [] => []
  | .event ev :: fs => ev :: owed fs
  | .closed :: _ => []

theorem owed_event (h : .closed ∉ fs) : owed (fs ++ [.event ev]) = owed fs ++ [ev] := by
  induction fs with
  | nil => rfl
  | cons f fs ih =>
    obtain ⟨hf, hfs⟩ := List.ne_and_not_mem_of_not_mem_cons h
    cases f with
    | event ev' => simp [owed, ih hfs]
    | closed => exact absurd rfl hf

theorem owed_closed : owed (fs ++ [.closed]) = owed fs := by
  induction fs with
  | nil => rfl
  | cons f fs ih =>
    cases f with
    | event ev' => simp [owed, ih]
    -- nothing is read past the first end
    | closed => rfl

/-- Frames that are cut off lose the last events. -/
theorem owed_take (n : Nat) : ∃ lost, owed fs = owed (fs.take n) ++ lost := by
  induction fs generalizing n with
  | nil => exact ⟨[], by simp [owed]⟩
  | cons f fs ih =>
    cases n with
    | zero => exact ⟨owed (f :: fs), rfl⟩
    | succ n =>
      cases f with
      | event ev' =>
        obtain ⟨lost, hlost⟩ := ih n
        exact ⟨lost, by simp [owed, hlost]⟩
      | closed => exact ⟨[], rfl⟩

/-! ## What keeps memory and log together -/

/-- What the log says of the session. -/
def Supervisor.told (spec : SessionSpec) (sup : Supervisor) : Session := fromLog spec sup.log

/-- The log says this of the session, and nothing else but what the spec says. -/
def Session.Plain (s : Session) (state : SessionState) (pid : Option Nat) : Prop :=
  s.state = state ∧ s.pid = pid ∧ s.clients = 0 ∧ s.label = none ∧ s.sandbox = {}

/-- The daemon holds what it has made of the session. -/
def Main.loaded : Main → Bool
  | .create | .spawn | .waiting | .scan => false
  | .watch | .threads | .probe _ | .done => true

/-- Appending the event leaves what the log says. -/
def Supervisor.Silent (spec : SessionSpec) (sup : Supervisor) (ev : SessionEvent) : Prop :=
  applyEvent (sup.told spec) ev = sup.told spec

/-- **What keeps memory and log together.** What `create` folds is all the log
says, and a scan adopts what the log says; from then on an event that says
something new reaches the log exactly if the daemon's client is registered,
and nothing new is on its way when it is; events are sent in the order of the
log; no frame is lost while the supervisor lives; both threads start; and a
session is finalised as lost only if its log has ended. -/
def Keeps (spec : SessionSpec) (w : World) : Act → Prop
  | .sup (.refuse at_ code text wrote) =>
    w.daemon.main.loaded = true → wrote = true → w.sup.Silent spec ⟨at_, .failed code text⟩
  | .sup (.applied at_ mechanisms unavailable wrote) =>
    w.daemon.main.loaded = true → wrote = true →
      w.sup.Silent spec ⟨at_, .sandboxApplied mechanisms unavailable⟩
  | .sup (.started at_ wrote) =>
    w.daemon.main.loaded = true → wrote = true → w.sup.Silent spec ⟨at_, .started w.sup.pid⟩
  | .sup (.note at_ kind wrote) =>
    w.daemon.main.loaded = true →
      w.sup.Silent spec ⟨at_, kind⟩ ∨ (w.link.conn = .registered ↔ wrote = true)
  | .sup (.exited at_ code signal wrote) =>
    w.daemon.main.loaded = true →
      w.sup.Silent spec ⟨at_, .exited code signal⟩ ∨ (w.link.conn = .registered ↔ wrote = true)
  | .sup .register => w.sup.stage.answers = true → Silenced (w.sup.told spec) w.sup.inflight
  | .sup (.fanOut i fits) => w.link.conn = .registered → i = 0 ∧ fits = true
  | .sup (.lose kept) =>
    w.link.frames.length ≤ kept ∧ (w.link.conn = .registered → w.sup.inflight = [])
  | .daemon (.spawnFails _ message) =>
    (w.sup.told spec).Plain (.failed "supervisor_spawn_failed" message
      (remediationFor "supervisor_spawn_failed")) none
  | .daemon (.timeout _) =>
    (w.sup.told spec).Plain (.failed "supervisor_timeout" "no readiness reply"
      (remediationFor "supervisor_timeout")) none
  | .daemon (.answer _) =>
    match readiness w.sup.reply w.sup.logFile with
    | .ok pid => (w.sup.told spec).Plain .running (some pid)
    | .fail code text =>
      (w.sup.told spec).Plain (.failed code text (remediationFor code)) none
  | .daemon (.launcherFails _ line) =>
    match parseReady (firstLine line) with
    | .ok _ => True
    | .fail code text =>
      (w.sup.told spec).Plain (.failed code text (remediationFor code)) none
  | .daemon (.probe answers found _) =>
    if answers then (w.sup.told spec).state = .running ∧ (w.sup.told spec).pid = some w.sup.pid ∧
      (w.sup.told spec).clients = w.sup.terminals
    else found = true → (w.sup.told spec).state.isTerminal = true
  | .daemon (.threads reader finaliser) => reader = true ∧ finaliser = true
  | .daemon .hangUp =>
    w.sup.stage = .gone ∨
      owed w.link.frames = [] ∧ (w.link.conn = .registered → w.sup.inflight = [])
  | .daemon (.finalise answers found _) =>
    answers = false → found = true ∧ (w.sup.told spec).state.isTerminal = true
  | _ => True

/-! ## What holds between the steps -/

/-- The record says what the log says. -/
def Held (spec : SessionSpec) (sup : Supervisor) (rec : Session) : Prop :=
  rec.Agrees (sup.told spec)

/-- Some events of a supervisor that is gone were lost. -/
def Lost (spec : SessionSpec) (sup : Supervisor) (rec : Session) (fs : List Frame) : Prop :=
  sup.stage = .gone ∧ ∃ lost, ((owed fs ++ lost).foldl applyEvent rec).Agrees (sup.told spec)

/-- **What the connection owes the record**, by how far it has come. -/
def Linked (spec : SessionSpec) (sup : Supervisor) (link : Link) (rec : Session) : Prop :=
  match link.conn with
  | .none | .dropped => False
  | .opened => link.frames = [] ∧ Held spec sup rec
  | .registered =>
    .closed ∉ link.frames ∧
      ((owed link.frames ++ sup.inflight).foldl applyEvent rec).Agrees (sup.told spec) ∧
      (sup.stage = .exited → (sup.told spec).state.isTerminal = true)
  | .shut => Held spec sup ((owed link.frames).foldl applyEvent rec) ∨ Lost spec sup rec link.frames

/-! ## What the supervisor's steps do -/

/-- **What a step of the supervisor does** while the daemon holds the session,
if it keeps memory and log together. -/
inductive Moves (spec : SessionSpec) (sup : Supervisor) (link : Link) : Supervisor → Link → Prop
  /-- The log says the same, and as much is to be sent. -/
  | quiet {sup' : Supervisor} (told : sup'.told spec = sup.told spec)
      (sent : sup'.inflight = sup.inflight) (exited : sup'.stage = .exited → sup.stage = .exited)
      (gone : sup.stage = .gone → sup'.stage = .gone) : Moves spec sup link sup' link
  /-- An event that says nothing new is to be sent. -/
  | silent {sup' : Supervisor} (ev : SessionEvent) (nothing : sup.Silent spec ev)
      (told : sup'.told spec = sup.told spec) (sent : sup'.inflight = sup.inflight ++ [ev])
      (exited : sup'.stage = .exited → sup.stage = .exited ∨ ev.kind.isEnd = true)
      (gone : sup.stage = .gone → sup'.stage = .gone) : Moves spec sup link sup' link
  /-- An event is logged, to be sent to the daemon's client. -/
  | logged {sup' : Supervisor} (ev : SessionEvent) (client : link.conn = .registered)
      (told : sup'.told spec = applyEvent (sup.told spec) ev)
      (sent : sup'.inflight = sup.inflight ++ [ev])
      (exited : sup'.stage = .exited → sup.stage = .exited ∨ ev.kind.isEnd = true) :
      Moves spec sup link sup' link
  /-- The oldest event is sent to it. -/
  | sent {sup' : Supervisor} (ev : SessionEvent) (client : link.conn = .registered)
      (told : sup'.told spec = sup.told spec) (sent : sup.inflight = ev :: sup'.inflight)
      (stage : sup'.stage = sup.stage) : Moves spec sup link sup' (link.send (.event ev))
  /-- What is to be sent changes, for other clients only. -/
  | passed {sup' : Supervisor} (client : link.conn ≠ .registered)
      (told : sup'.told spec = sup.told spec) (gone : sup.stage = .gone → sup'.stage = .gone) :
      Moves spec sup link sup' link
  /-- Nothing new is on its way when the daemon's client is registered. -/
  | registered (client : link.conn = .opened) (answers : sup.stage.answers = true)
      (silenced : Silenced (sup.told spec) sup.inflight) :
      Moves spec sup link sup { link with conn := .registered }
  | rejected (client : link.conn = .opened) :
      Moves spec sup link sup { link.send .closed with conn := .shut }
  /-- The connection breaks with every frame written. -/
  | broken (client : link.conn ≠ .none) (alive : sup.stage ≠ .gone)
      (sent : link.conn = .registered → sup.inflight = []) :
      Moves spec sup link sup { link with conn := .shut }
  /-- The clients are taken, the end having been sent. -/
  | closed {sup' : Supervisor} (client : link.conn = .registered) (stage : sup.stage = .exited)
      (told : sup'.told spec = sup.told spec)
      (ended : ∀ ev ∈ sup.inflight, ev.kind.isEnd = false) :
      Moves spec sup link sup' { link.send .closed with conn := .shut }
  | quit {sup' : Supervisor} (kept : Nat) (alive : sup.stage ≠ .gone)
      (told : sup'.told spec = sup.told spec) (gone : sup'.stage = .gone) :
      Moves spec sup link sup' (link.hang kept)

theorem told_append {wrote : Bool} :
    (sup.append ev wrote).told spec =
      if wrote then applyEvent (sup.told spec) ev else sup.told spec := by
  cases wrote with
  | true => exact fromLog_snoc sup.log
  | false => rfl

theorem told_silent {wrote : Bool} (h : wrote = true → sup.Silent spec ev) :
    (sup.append ev wrote).told spec = sup.told spec := by
  rw [told_append]
  split
  · exact h ‹_›
  · rfl

@[simp] theorem inflight_append {wrote : Bool} : (sup.append ev wrote).inflight = sup.inflight := by
  unfold Supervisor.append
  split <;> rfl

/-- An event that every thread may log, logged under the condition. -/
theorem Moves.log {wrote : Bool} (hlog : sup'.log = (sup.append ev wrote).log)
    (hsent : sup'.inflight = sup.inflight ++ [ev])
    (hok : sup.Silent spec ev ∨ (link.conn = .registered ↔ wrote = true))
    (hexited : sup'.stage = .exited → sup.stage = .exited ∨ ev.kind.isEnd = true)
    (hgone : sup.stage = .gone → sup'.stage = .gone) : Moves spec sup link sup' link := by
  have htold : sup'.told spec = (sup.append ev wrote).told spec := congrArg (fromLog spec) hlog
  rcases hok with hsilent | hwrote
  · exact .silent ev hsilent (htold.trans (told_silent fun _ => hsilent)) hsent hexited hgone
  · cases wrote with
    | true => exact .logged ev (hwrote.mpr rfl) (htold.trans told_append) hsent hexited
    | false => exact .passed (fun h => by simpa using hwrote.mp h) (htold.trans told_append) hgone

/-- **A step of the supervisor is a move**, while the daemon holds the session. -/
theorem Supervisor.step_moves {a : SupAct} (hloaded : w.daemon.main.loaded = true)
    (hok : Keeps spec w (.sup a)) (hstep : w.sup.step w.link a = some (sup', link')) :
    Moves spec w.sup w.link sup' link' := by
  cases a with
    simp only [Supervisor.step, Option.ite_none_right_eq_some, Option.ite_none_left_eq_some,
      Option.map_eq_some_iff, not_or, Option.some.injEq, Prod.mk.injEq] at hstep
  | created at_ wrote =>
    obtain ⟨hstage, rfl, rfl⟩ := hstep
    have hsilent : w.sup.Silent spec ⟨at_, .created⟩ := by
      unfold Supervisor.Silent applyEvent
      split <;> rfl
    exact .quiet (told_silent fun _ => hsilent) (by simp) (by simp) (by simp [hstage])
  | abandon code text =>
    obtain ⟨hstage, rfl, rfl⟩ := hstep
    refine .quit _ ?_ rfl rfl
    rcases hstage with h | h
    · simp [h]
    · simp [h]
  | refuse at_ code text wrote =>
    obtain ⟨hstage, rfl, rfl⟩ := hstep
    exact .quiet (told_silent (hok hloaded)) (by simp) (by simp) (by simp [hstage])
  | report =>
    split at hstep
    · rename_i code text hstage
      obtain ⟨rfl, rfl⟩ := Prod.mk.inj (Option.some.inj hstep)
      exact .quit _ (by simp [hstage]) rfl rfl
    · cases hstep
  | applied at_ mechanisms unavailable wrote =>
    obtain ⟨⟨hstage, -⟩, rfl, rfl⟩ := hstep
    exact .quiet (told_silent (hok hloaded)) (by simp) (by simp) (by simp [hstage])
  | started at_ wrote =>
    obtain ⟨hstage, rfl, rfl⟩ := hstep
    exact .quiet (told_silent (hok hloaded)) (by simp) (by simp) (by simp [hstage])
  | listen =>
    obtain ⟨hstage, rfl, rfl⟩ := hstep
    exact .quiet rfl rfl (by simp) (by simp [hstage])
  | ready =>
    obtain ⟨hstage, rfl, rfl⟩ := hstep
    exact .quiet rfl rfl (by simp) (by simp [hstage])
  | note at_ kind wrote =>
    obtain ⟨hnotes, rfl, rfl⟩ := hstep
    have hstage : (w.sup.logEvent ⟨at_, kind⟩ wrote).stage = w.sup.stage := by
      unfold Supervisor.logEvent Supervisor.append
      split <;> rfl
    -- a supervisor that is gone notes nothing
    refine .log rfl rfl (hok hloaded) (fun h => .inl (hstage ▸ h)) fun h => ?_
    rw [h] at hnotes
    cases hnotes
  | fanOut i fits =>
    obtain ⟨ev, hev, rfl, rfl⟩ := hstep
    by_cases hclient : w.link.conn = .registered
    · obtain ⟨rfl, rfl⟩ := hok hclient
      simp only [hclient, if_true]
      refine .sent ev hclient rfl ?_ rfl
      -- the oldest event is the one that is sent
      rw [← List.head?_eq_getElem?] at hev
      obtain ⟨rest, hrest⟩ := List.head?_eq_some_iff.mp hev
      simp [hrest]
    · simp only [hclient, if_false]
      exact .passed hclient rfl id
  | attach =>
    obtain ⟨-, rfl, rfl⟩ := hstep
    exact .quiet rfl rfl id id
  | leave =>
    obtain ⟨-, rfl, rfl⟩ := hstep
    exact .quiet rfl rfl id id
  | register =>
    obtain ⟨hopened, hstep⟩ := hstep
    split at hstep
    · obtain ⟨rfl, rfl⟩ := Prod.mk.inj (Option.some.inj hstep)
      exact .registered hopened ‹_› (hok ‹_›)
    · simp only [Option.ite_none_right_eq_some, Option.some.injEq, Prod.mk.injEq] at hstep
      obtain ⟨-, rfl, rfl⟩ := hstep
      exact .rejected hopened
  | lose kept =>
    obtain ⟨⟨hconn, halive⟩, rfl, rfl⟩ := hstep
    have hhang : w.link.hang kept = { w.link with conn := .shut } := by
      rw [Link.hang, if_neg hconn, List.take_of_length_le hok.1]
    rw [hhang]
    exact .broken hconn halive hok.2
  | ending =>
    obtain ⟨hstage, rfl, rfl⟩ := hstep
    exact .quiet rfl rfl (by simp) (by simp [hstage])
  | exited at_ code signal wrote =>
    obtain ⟨hstage, rfl, rfl⟩ := hstep
    exact .log rfl rfl (hok hloaded) (fun _ => .inr rfl) (by simp [hstage])
  | close =>
    obtain ⟨⟨hstage, hended⟩, rfl, rfl⟩ := hstep
    by_cases hclient : w.link.conn = .registered
    · simp only [hclient, if_true]
      exact .closed hclient hstage rfl (by simpa using hended)
    · simp only [hclient, if_false]
      exact .quiet rfl rfl (by simp) (by simp [hstage])
  | die kept =>
    obtain ⟨⟨-, halive⟩, rfl, rfl⟩ := hstep
    exact .quit kept halive rfl rfl

/-! ## What the moves keep -/

/-- Nothing moves a connection that is not there. -/
theorem Moves.unlinked (h : Moves spec sup link sup' link') (hnone : link.conn = .none) :
    link' = link ∧ sup'.told spec = sup.told spec ∧ (sup.stage = .gone → sup'.stage = .gone) := by
  cases h with
  | quiet told sent exited gone => exact ⟨rfl, told, gone⟩
  | silent ev nothing told sent exited gone => exact ⟨rfl, told, gone⟩
  | passed client told gone => exact ⟨rfl, told, gone⟩
  | quit kept alive told gone => exact ⟨if_pos hnone, told, fun _ => gone⟩
  | broken client => exact absurd hnone client
  | _ => simp_all

theorem Held.congr (h : Held spec sup rec) (told : sup'.told spec = sup.told spec) :
    Held spec sup' rec := by
  unfold Held
  rw [told]
  exact h

theorem Lost.congr (h : Lost spec sup rec fs) (told : sup'.told spec = sup.told spec)
    (gone : sup.stage = .gone → sup'.stage = .gone) : Lost spec sup' rec fs := by
  obtain ⟨hgone, lost, hlost⟩ := h
  exact ⟨gone hgone, lost, by rw [told]; exact hlost⟩

/-- The events a registered client is owed are the log's after the record. -/
theorem Linked.registered (hconn : link.conn = .registered) :
    Linked spec sup link rec ↔ .closed ∉ link.frames ∧
      ((owed link.frames ++ sup.inflight).foldl applyEvent rec).Agrees (sup.told spec) ∧
      (sup.stage = .exited → (sup.told spec).state.isTerminal = true) := by
  simp [Linked, hconn]

theorem Linked.opened (hconn : link.conn = .opened) :
    Linked spec sup link rec ↔ link.frames = [] ∧ Held spec sup rec := by
  simp [Linked, hconn]

theorem Linked.shut (hconn : link.conn = .shut) :
    Linked spec sup link rec ↔
      Held spec sup ((owed link.frames).foldl applyEvent rec) ∨
        Lost spec sup rec link.frames := by
  simp [Linked, hconn]

/-- A connection that owes something is opened, registered or shut. -/
theorem Linked.conn (h : Linked spec sup link rec) :
    link.conn = .opened ∨ link.conn = .registered ∨ link.conn = .shut := by
  unfold Linked at h
  split at h <;> simp_all

theorem Linked.quiet (h : Linked spec sup link rec) (told : sup'.told spec = sup.told spec)
    (sent : sup'.inflight = sup.inflight) (exited : sup'.stage = .exited → sup.stage = .exited)
    (gone : sup.stage = .gone → sup'.stage = .gone) : Linked spec sup' link rec := by
  rcases h.conn with hconn | hconn | hconn
  · rw [Linked.opened hconn] at h ⊢
    exact ⟨h.1, h.2.congr told⟩
  · rw [Linked.registered hconn] at h ⊢
    rw [told, sent]
    exact ⟨h.1, h.2.1, fun he => h.2.2 (exited he)⟩
  · rw [Linked.shut hconn] at h ⊢
    exact h.imp (·.congr told) (·.congr told gone)

/-- An event that says nothing new may reach the daemon or not. -/
theorem Linked.silent (h : Linked spec sup link rec) (nothing : sup.Silent spec ev)
    (told : sup'.told spec = sup.told spec) (sent : sup'.inflight = sup.inflight ++ [ev])
    (exited : sup'.stage = .exited → sup.stage = .exited ∨ ev.kind.isEnd = true)
    (gone : sup.stage = .gone → sup'.stage = .gone) : Linked spec sup' link rec := by
  rcases h.conn with hconn | hconn | hconn
  · rw [Linked.opened hconn] at h ⊢
    exact ⟨h.1, h.2.congr told⟩
  · rw [Linked.registered hconn] at h ⊢
    obtain ⟨hopen, howed, hexited⟩ := h
    refine ⟨hopen, ?_, fun he => ?_⟩
    · rw [told, sent, ← List.append_assoc, List.foldl_append]
      have hev : (applyEvent ((owed link.frames ++ sup.inflight).foldl applyEvent rec) ev).Agrees
          (applyEvent (sup.told spec) ev) := howed.applyEvent
      rwa [nothing] at hev
    · rw [told]
      rcases exited he with he | he
      · exact hexited he
      · rw [← nothing]
        exact applyEvent_end he
  · rw [Linked.shut hconn] at h ⊢
    exact h.imp (·.congr told) (·.congr told gone)

/-- **What is logged is owed.** -/
theorem Linked.logged (h : Linked spec sup link rec) (client : link.conn = .registered)
    (told : sup'.told spec = applyEvent (sup.told spec) ev)
    (sent : sup'.inflight = sup.inflight ++ [ev])
    (exited : sup'.stage = .exited → sup.stage = .exited ∨ ev.kind.isEnd = true) :
    Linked spec sup' link rec := by
  rw [Linked.registered client] at h ⊢
  obtain ⟨hopen, howed, hexited⟩ := h
  refine ⟨hopen, ?_, fun he => ?_⟩
  · rw [told, sent, ← List.append_assoc, List.foldl_append]
    exact howed.applyEvent
  · rw [told]
    rcases exited he with he | he
    · rw [applyEvent_terminal (hexited he)]
      exact hexited he
    · exact applyEvent_end he

/-- What is sent is still owed. -/
theorem Linked.sent (h : Linked spec sup link rec) (client : link.conn = .registered)
    (told : sup'.told spec = sup.told spec) (sent : sup.inflight = ev :: sup'.inflight)
    (stage : sup'.stage = sup.stage) : Linked spec sup' (link.send (.event ev)) rec := by
  have hclient : (link.send (.event ev)).conn = .registered := client
  rw [Linked.registered client] at h
  rw [Linked.registered hclient]
  obtain ⟨hopen, howed, hexited⟩ := h
  refine ⟨by simp [Link.send, hopen], ?_, by rwa [told, stage]⟩
  rw [told, Link.send, owed_event hopen, List.append_assoc, List.singleton_append, ← sent]
  exact howed

/-- A client that is registered late has missed nothing. -/
theorem Linked.register (h : Linked spec sup link rec) (client : link.conn = .opened)
    (answers : sup.stage.answers = true) (silenced : Silenced (sup.told spec) sup.inflight) :
    Linked spec sup { link with conn := .registered } rec := by
  rw [Linked.opened client] at h
  obtain ⟨hframes, hagrees⟩ := h
  rw [Linked.registered rfl]
  refine ⟨by simp [hframes], ?_, fun he => ?_⟩
  · -- what was still to be sent says nothing new
    have hfold : (sup.inflight.foldl applyEvent rec).Agrees
        (sup.inflight.foldl applyEvent (sup.told spec)) := hagrees.foldl
    rw [silenced.foldl] at hfold
    simpa [hframes, owed] using hfold
  · rw [he] at answers
    cases answers

theorem Linked.cut (h : Linked spec sup link rec)
    (sent : link.conn = .registered → sup.inflight = []) :
    Linked spec sup { link with conn := .shut } rec := by
  rw [Linked.shut rfl]
  rcases h.conn with hconn | hconn | hconn
  · rw [Linked.opened hconn] at h
    obtain ⟨hframes, hheld⟩ := h
    refine .inl ?_
    simpa [hframes, owed] using hheld
  · rw [Linked.registered hconn] at h
    refine .inl ?_
    simpa [Held, sent hconn] using h.2.1
  · rw [Linked.shut hconn] at h
    exact h

/-- **The end is sent before the clients are taken**: what is still to be sent
then comes after it and changes nothing. -/
theorem Linked.close (h : Linked spec sup link rec) (client : link.conn = .registered)
    (stage : sup.stage = .exited) (told : sup'.told spec = sup.told spec)
    (ended : ∀ ev ∈ sup.inflight, ev.kind.isEnd = false) :
    Linked spec sup' { link.send .closed with conn := .shut } rec := by
  rw [Linked.registered client] at h
  obtain ⟨-, howed, hexited⟩ := h
  have hend := hexited stage
  have hfold : ((owed link.frames).foldl applyEvent rec).state.isTerminal = true := by
    rw [List.foldl_append] at howed
    by_contra hopen
    have hnot := foldl_not_end (Bool.eq_false_iff.mpr hopen) ended
    rw [howed.state_eq, hend] at hnot
    cases hnot
  rw [Linked.shut rfl]
  rw [List.foldl_append, foldl_terminal hfold] at howed
  refine .inl ?_
  simpa [Held, Link.send, owed_closed, told] using howed

/-- **A supervisor that dies loses the last events**, those it had not sent
and those that were not written. -/
theorem Linked.quit (h : Linked spec sup link rec) (kept : Nat) (alive : sup.stage ≠ .gone)
    (told : sup'.told spec = sup.told spec) (gone : sup'.stage = .gone) :
    Linked spec sup' (link.hang kept) rec := by
  have hnone : link.conn ≠ .none := by
    rcases h.conn with hconn | hconn | hconn <;> simp [hconn]
  rw [Link.hang, if_neg hnone, Linked.shut rfl]
  obtain ⟨cut, hcut⟩ : ∃ cut, owed link.frames = owed (link.frames.take kept) ++ cut :=
    owed_take kept
  rcases h.conn with hconn | hconn | hconn
  · rw [Linked.opened hconn] at h
    obtain ⟨hframes, hheld⟩ := h
    refine .inl (Held.congr ?_ told)
    simpa [hframes, owed] using hheld
  · rw [Linked.registered hconn] at h
    refine .inr ⟨gone, cut ++ sup.inflight, ?_⟩
    rw [told, ← List.append_assoc, ← hcut]
    exact h.2.1
  · rw [Linked.shut hconn] at h
    refine .inr ⟨gone, ?_⟩
    rw [told]
    rcases h with hheld | ⟨hgone, -⟩
    · exact ⟨cut, by rw [← hcut]; exact hheld⟩
    · exact absurd hgone alive

/-- **What the connection owes is kept** by every move of the supervisor. -/
theorem Linked.moves (h : Linked spec sup link rec) (hmoves : Moves spec sup link sup' link') :
    Linked spec sup' link' rec := by
  cases hmoves with
  | quiet told sent exited gone => exact h.quiet told sent exited gone
  | silent ev nothing told sent exited gone => exact h.silent nothing told sent exited gone
  | logged ev client told sent exited => exact h.logged client told sent exited
  | sent ev client told sent stage => exact h.sent client told sent stage
  | passed client told gone =>
    rcases h.conn with hconn | hconn | hconn
    · rw [Linked.opened hconn] at h ⊢
      exact ⟨h.1, h.2.congr told⟩
    · exact absurd hconn client
    · rw [Linked.shut hconn] at h ⊢
      exact h.imp (·.congr told) (·.congr told gone)
  | registered client answers silenced => exact h.register client answers silenced
  | rejected client =>
    rw [Linked.opened client] at h
    obtain ⟨hframes, hheld⟩ := h
    rw [Linked.shut rfl]
    refine .inl ?_
    simpa [Link.send, hframes, owed] using hheld
  | broken client alive sent => exact h.cut sent
  | closed client stage told ended => exact h.close client stage told ended
  | quit kept alive told gone => exact h.quit kept alive told gone

end Sessions
end Willie
