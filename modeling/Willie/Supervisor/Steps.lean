import Willie.Supervisor.Model

/-!
# Supervisor — what a step can do

Every operation branch by branch: its guard, what it makes of the state, and
what it leaves its thread to do. What the threads keep is derived from these
cases, so that only they follow the operations' text.
-/

namespace Willie
namespace Supervisor

open Sessions (SessionEvent)

variable {s s' : Shared} {id j : ℕ} {cont : List Op} {op : Op} {i : In} {msgs : List Msg}

theorem queue_send : (s.send id msgs).queue j =
    s.queue j ++ if j = id ∧ id ∉ s.gone then msgs else [] := by
  unfold Shared.send
  dsimp only
  split
  · rename_i hgone
    simp [hgone]
  · rename_i hgone
    by_cases hj : j = id
    · simp [hj, hgone]
    · simp [hj]

/-- **What the main thread can do.** -/
inductive MainStep (s : Shared) : Main → In → Shared → List Op → Prop
  | read {out : Bytes} {dropped : List String} : MainStep s .pump (.read out dropped)
    { s with main := if out = [] then .pump else .push out }
    (dropped.map (.record "terminal") ++ [.main])
  | hungUp {code signal : Option Int} : MainStep s .pump (.over code signal)
    { s with main := .teardown code signal } [.main]
  | push {bytes : Bytes} : MainStep s (.push bytes) .go
    { s with
      main := .fanOut bytes
      ring := pushRing s.ring bytes
      alt := s.alt.feed bytes
      forwarded := s.forwarded ++ bytes } [.main]
  | fanOut {bytes : Bytes} {room : List (ℕ × ℕ)} : MainStep s (.fanOut bytes) (.room room)
    (s.fanOutOutput bytes room)
    ((s.tooSlow bytes room).map (fun id => .append (.detached id)) ++ [.main])
  | teardown {code signal : Option Int} : MainStep s (.teardown code signal) .go
    { s with main := .flush code signal, tearingDown := true } [.main]
  | flush {code signal : Option Int} {now : ℕ} : MainStep s (.flush code signal) (.now now)
    { s with main := .setExited code signal, tally := (s.tally.flush now).1 }
    ((s.tally.flush now).2.map (fun r => .append (denied r)) ++ [.main])
  | setExited {code signal : Option Int} : MainStep s (.setExited code signal) .go
    { s with main := .logExited code signal, phase := .exited } [.main]
  | logExited {code signal : Option Int} {at_ : String} {ok : Bool} :
    MainStep s (.logExited code signal) (.wrote at_ ok)
    { s.append ⟨at_, .exited code signal⟩ ok with main := .readCause code signal }
    [.fanOut s.log.length ⟨at_, .exited code signal⟩, .main]
  | readCause {code signal : Option Int} : MainStep s (.readCause code signal) .go
    { s with main := .take ⟨s.stopCause.getD .exited, code, signal⟩ } [.main]
  | take {c : Closed} : MainStep s (.take c) .go
    { s with
      main := .close (s.clients.map (·.id)) c
      clients := []
      taken := s.taken ++ s.clients } [.main]
  | close {id : ℕ} {ids : List ℕ} {c : Closed} : MainStep s (.close (id :: ids) c) .go
    { s.send id [.closed c] with main := .close ids c } [.main]
  | closed {c : Closed} : MainStep s (.close [] c) .go { s with main := .unlink c } [.main]
  | unlink {c : Closed} : MainStep s (.unlink c) .go { s with main := .drain c } [.main]
  | drain {c : Closed} {early : Bool} : MainStep s (.drain c) (.outcome early)
    { s with main := .drain c } [.main]
  | drained {c : Closed} {early : Bool}
    (hend : early = true → ∀ h ∈ s.taken, s.unwritten h.id = []) :
    MainStep s (.drain c) (.outcome early)
    { s with main := .shutDown (s.taken.map (·.id)) c } [.main]
  | shutDown {id : ℕ} {ids : List ℕ} {c : Closed} : MainStep s (.shutDown (id :: ids) c) .go
    { s with main := .shutDown ids c, shut := id :: s.shut } [.main]
  | finished {c : Closed} : MainStep s (.shutDown [] c) .go { s with main := .done c } []

theorem mainStep_of_runMain {main : Main} (h : runMain s main i = some (s', cont)) :
    MainStep s main i s' cont := by
  unfold runMain at h
  split at h
  case h_14 =>
    split at h
    · obtain ⟨rfl, rfl⟩ := Prod.mk.inj (Option.some.inj h)
      exact .drain
    · rename_i hno
      obtain ⟨rfl, rfl⟩ := Prod.mk.inj (Option.some.inj h)
      exact .drained (by simpa using hno)
  case h_17 => cases h
  all_goals
    obtain ⟨rfl, rfl⟩ := Prod.mk.inj (Option.some.inj h)
    constructor

/-- **What a client's thread can do.** -/
inductive ClientStep (s : Shared) (id : ℕ) : Stage → In → Shared → List Op → Prop
  | snapshot {rows cols : ℕ} : ClientStep s id (.snapshot rows cols) .go
    { s with
      stage := Function.update s.stage id (.replay
        (if (if s.alt.active then [] else s.ring) = [] then []
          else chunks (if s.alt.active then [] else s.ring)) rows cols)
      joined := Function.update s.joined id
        (if s.alt.active then none else some s.forwarded.length) } [.client id]
  | sent {frame : Bytes} {frames : List Bytes} {rows cols : ℕ} (hgone : id ∉ s.gone) :
    ClientStep s id (.replay (frame :: frames) rows cols) (.outcome true)
    { s.send id [.output frame] with
      stage := Function.update s.stage id (.replay frames rows cols) } [.client id]
  | dropped {frame : Bytes} {frames : List Bytes} {rows cols : ℕ} {ok : Bool}
    (hdrop : ¬ (ok = true ∧ id ∉ s.gone)) :
    ClientStep s id (.replay (frame :: frames) rows cols) (.outcome ok)
    { s.send id [.closed ⟨.tooSlow, none, none⟩] with
      stage := Function.update s.stage id .out
      shut := id :: s.shut
      slow := id :: s.slow } []
  | replayed {rows cols : ℕ} : ClientStep s id (.replay [] rows cols) .go
    { s with stage := Function.update s.stage id (.registering .terminal) }
    [.applySize rows cols true, .client id]
  | register {role : Role} : ClientStep s id (.registering role) .go
    { s with
      clients := s.clients ++ [⟨id, role⟩]
      since := Function.update s.since id s.log.length
      stage := Function.update s.stage id (.serving role) }
    (if role = .terminal then [.append (.attached id), .client id] else [.client id])
  | idle {role : Role} {f : Frame} : ClientStep s id (.serving role) (.frame f) s [.client id]
  | unread {role : Role} : ClientStep s id (.serving role) (.frame (.input false))
    { s with stage := Function.update s.stage id (.leaving role) } [.client id]
  | resize {role : Role} {rows cols : ℕ} :
    ClientStep s id (.serving role) (.frame (.resize rows cols)) s
    [.applySize rows cols false, .client id]
  | detach {role : Role} : ClientStep s id (.serving role) (.frame .detach)
    { s with stage := Function.update s.stage id (.leaving role), left := id :: s.left }
    [.client id]
  | stop : ClientStep s id (.serving .control) (.frame .stop) s
    [.requestStop "daemon" .stopped, .client id]
  | status : ClientStep s id (.serving .control) (.frame .statusReq) (s.send id [.status])
    [.client id]
  | hangup {role : Role} : ClientStep s id (.serving role) .hangup
    { s with stage := Function.update s.stage id (.leaving role), left := id :: s.left }
    [.client id]
  | leave {role : Role} : ClientStep s id (.leaving role) .go
    { s with
      clients := s.clients.filter (·.id ≠ id)
      stage := Function.update s.stage id .shutting }
    (.client id :: if s.clients.any (·.id = id) ∧ role = .terminal then
      [.append (.detached id)] else [])
  | shut : ClientStep s id .shutting .go
    { s.send id [.shut] with
      stage := Function.update s.stage id .out
      shut := id :: s.shut } []

theorem clientStep_of_serveFrame {role : Role} {f : Frame}
    (h : serveFrame s id role f = (s', cont)) :
    ClientStep s id (.serving role) (.frame f) s' cont := by
  unfold serveFrame at h
  split at h
  case h_5 =>
    obtain ⟨rfl, rfl⟩ := Prod.mk.inj h
    cases role
    · exact .idle
    · exact .stop
  case h_6 =>
    obtain ⟨rfl, rfl⟩ := Prod.mk.inj h
    cases role
    · exact .idle
    · exact .status
  all_goals
    obtain ⟨rfl, rfl⟩ := Prod.mk.inj h
    constructor

theorem clientStep_of_runClient {st : Stage} (h : runClient s id st i = some (s', cont)) :
    ClientStep s id st i s' cont := by
  unfold runClient at h
  split at h
  case h_2 ok =>
    split at h
    · rename_i hok
      obtain ⟨rfl, hgone⟩ := hok
      obtain ⟨rfl, rfl⟩ := Prod.mk.inj (Option.some.inj h)
      exact .sent hgone
    · rename_i hdrop
      obtain ⟨rfl, rfl⟩ := Prod.mk.inj (Option.some.inj h)
      exact .dropped hdrop
  case h_5 => exact clientStep_of_serveFrame (Option.some.inj h)
  case h_9 => cases h
  all_goals
    obtain ⟨rfl, rfl⟩ := Prod.mk.inj (Option.some.inj h)
    constructor

/-- **What an operation can do.** -/
inductive Step (s : Shared) : Op → In → Shared → List Op → Prop
  | main {i : In} {s' : Shared} {cont : List Op} (h : MainStep s s.main i s' cont) :
    Step s .main i s' cont
  | client {id : ℕ} {i : In} {s' : Shared} {cont : List Op}
    (h : ClientStep s id (s.stage id) i s' cont) : Step s (.client id) i s' cont
  | hello {role : Role} {rows cols : ℕ} : Step s .hello (.greeting role rows cols) s
    (if s.phase = .exited then [] else [.welcome role rows cols])
  | silent : Step s .hello .hangup s []
  | uncloned {role : Role} {rows cols : ℕ} : Step s (.welcome role rows cols) .hangup s []
  | started {role : Role} {rows cols : ℕ} : Step s (.welcome role rows cols) (.outcome true)
    { s with
      nextId := s.nextId + 1
      stage := Function.update s.stage (s.nextId + 1)
        (if role = .terminal then .snapshot rows cols else .registering role) }
    [.client (s.nextId + 1)]
  | unstarted {role : Role} {rows cols : ℕ} : Step s (.welcome role rows cols) (.outcome false)
    { s with nextId := s.nextId + 1 } []
  | append {kind : Sessions.SessionEventKind} {at_ : String} {ok : Bool} :
    Step s (.append kind) (.wrote at_ ok) (s.append ⟨at_, kind⟩ ok)
    [.fanOut s.log.length ⟨at_, kind⟩]
  | fanOut {line : ℕ} {ev : SessionEvent} {refused : List ℕ} :
    Step s (.fanOut line ev) (.refused refused) (s.fanOutEvent ev refused) []
  | record {cls name : String} {now : ℕ} : Step s (.record cls name) (.now now)
    { s with tally := (s.tally.record now cls name).1, calls := s.calls ++ [(cls, name)] }
    ((s.tally.record now cls name).2.toList.map fun r => .append (denied r))
  | requestStop {by_ : String} {cause : CloseReason} (hrunning : s.phase = .running) :
    Step s (.requestStop by_ cause) .go { s with phase := .stopping } [.setCause by_ cause]
  | stopping {by_ : String} {cause : CloseReason} : Step s (.requestStop by_ cause) .go s []
  | setCause {by_ : String} {cause : CloseReason} : Step s (.setCause by_ cause) .go
    { s with stopCause := some cause } [.append (.stopRequested by_)]
  | applySize {rows cols : ℕ} {force : Bool} : Step s (.applySize rows cols force) .go
    { s with rows, cols }
    ((if force ∧ s.rows = rows ∧ s.cols = cols ∧ s.alt.active then
      [.append (.resized rows (cols - 1))] else []) ++ [.winsize rows cols])
  | winsize {rows cols : ℕ} {ok : Bool} : Step s (.winsize rows cols) (.outcome ok) s
    (if ok then [.append (.resized rows cols)] else [])
  | notified {name : String} : Step s .filter (.notified name) s [.record "syscall" name, .filter]
  | unfiltered : Step s .filter .hangup s []
  | failed {error : String} : Step s .filter (.failed error) s
    (if s.tearingDown then [] else [.append (.sandboxDegraded "seccomp"
      ("the syscall filter is no longer served (" ++ error ++
        "); intercepted calls now fail with ENOSYS"))])
  | signals : Step s .signals .go s [.requestStop "signal" .shutdown, .signals]
  | world {id : ℕ} : Step s .world (.broke id) { s with gone := id :: s.gone } [.world]
  | takes {id : ℕ} (hgone : id ∉ s.gone) (hshut : id ∉ s.shut) (hmore : s.unwritten id ≠ []) :
    Step s .world (.takes id) { s with sent := Function.update s.sent id (s.sent id + 1) }
    [.world]

theorem step_of_run (h : run op i s = some (s', cont)) : Step s op i s' cont := by
  unfold run at h
  split at h
  case h_1 => exact .main (mainStep_of_runMain h)
  case h_2 => exact .client (clientStep_of_runClient h)
  case h_6 started =>
    cases started
    all_goals
      obtain ⟨rfl, rfl⟩ := Prod.mk.inj (Option.some.inj h)
      constructor
  case h_10 =>
    split at h
    · rename_i hrunning
      obtain ⟨rfl, rfl⟩ := Prod.mk.inj (Option.some.inj h)
      exact .requestStop hrunning
    · obtain ⟨rfl, rfl⟩ := Prod.mk.inj (Option.some.inj h)
      exact .stopping
  case h_19 =>
    split at h
    · rename_i hopen
      obtain ⟨rfl, rfl⟩ := Prod.mk.inj (Option.some.inj h)
      exact .takes hopen.1 hopen.2.1 hopen.2.2
    · cases h
  case h_20 => cases h
  all_goals
    obtain ⟨rfl, rfl⟩ := Prod.mk.inj (Option.some.inj h)
    constructor

/-! ## Seen by the clients -/

/-- What an operation that is neither a client's nor the main thread's leaves
as it is: all but the size, the phase, the stop's cause, the tally, the log
and what the sockets have taken. -/
def Quiet (s s' : Shared) : Prop :=
  s' = { s with
    log := s'.log, phase := s'.phase, stopCause := s'.stopCause, tally := s'.tally
    calls := s'.calls, rows := s'.rows, cols := s'.cols, sent := s'.sent }

/-- **What an operation does to the clients.** -/
inductive Does (s s' : Shared) (cont : List Op) : Op → In → Prop
  | main {i : In} (h : MainStep s s.main i s' cont) : Does s s' cont .main i
  | client {id : ℕ} {i : In} (h : ClientStep s id (s.stage id) i s' cont) :
    Does s s' cont (.client id) i
  | unstarted {role : Role} {rows cols : ℕ} (hs : s' = { s with nextId := s.nextId + 1 })
    (hc : cont = []) : Does s s' cont (.welcome role rows cols) (.outcome false)
  | started {role : Role} {rows cols : ℕ}
    (hs : s' = { s with
      nextId := s.nextId + 1
      stage := Function.update s.stage (s.nextId + 1)
        (if role = .terminal then .snapshot rows cols else .registering role) })
    (hc : cont = [.client (s.nextId + 1)]) :
    Does s s' cont (.welcome role rows cols) (.outcome true)
  | fanOut {line : ℕ} {ev : SessionEvent} {refused : List ℕ} (hs : s' = s.fanOutEvent ev refused)
    (hc : cont = []) : Does s s' cont (.fanOut line ev) (.refused refused)
  | world {id : ℕ} (hs : s' = { s with gone := id :: s.gone }) (hc : cont = [.world]) :
    Does s s' cont .world (.broke id)
  | quiet {op : Op} {i : In} (h : Quiet s s') (hsent : ∀ j, s.sent j ≤ s'.sent j) :
    Does s s' cont op i

theorem does_of_run (h : run op i s = some (s', cont)) : Does s s' cont op i := by
  cases step_of_run h with
  | main h => exact .main h
  | client h => exact .client h
  | started => exact .started rfl rfl
  | unstarted => exact .unstarted rfl rfl
  | fanOut => exact .fanOut rfl rfl
  | world => exact .world rfl rfl
  | takes =>
    refine .quiet rfl fun j => ?_
    dsimp only
    rw [Function.update_apply]
    split
    · rename_i hj
      rw [hj]
      exact Nat.le_succ _
    · exact le_rfl
  | _ => exact .quiet rfl fun _ => le_rfl

end Supervisor
end Willie
