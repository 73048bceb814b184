import Willie.Supervisor.Checks
import Willie.Supervisor.Denials
import Willie.Supervisor.Heard

/-!
# Supervisor — the exit closes the log

What `finish` tells the clients of the stop it read off the cause, which is
set before the stop is logged. If nobody is past a check when the exit is
logged it is the last line, the fold ignores none, and the record has every
refusal.
-/

namespace Willie
namespace Supervisor

open Sessions (SessionEvent SessionEventKind SessionSpec Denied fromLog rowOf)

variable {s s' : Shared} {id j : ℕ} {cont : List Op} {op : Op} {i : In} {m m' : State} {c : Closed}
  {turn : ℕ × In} {turns : List (ℕ × In)}

/-! ## The stop -/

/-- What the main thread is to tell the clients. -/
def Main.tells : Main → Option Closed
  | .take c | .close _ c | .unlink c | .drain c | .shutDown _ c | .done c => some c
  | _ => none

/-- Whoever is told of a stop finds it in the log. -/
structure Stopped (s : Shared) : Prop where
  main : ∀ c, s.main.tells = some c → c.reason = .stopped → stopLogged s.log = true
  queue : ∀ j c, .closed c ∈ s.queue j → c.reason = .stopped → stopLogged s.log = true

theorem mem_send {msgs : List Msg} {msg : Msg} (h : msg ∈ (s.send id msgs).queue j) :
    msg ∈ s.queue j ∨ msg ∈ msgs := by
  rw [queue_send, List.mem_append] at h
  refine h.imp_right fun h => ?_
  split at h
  · exact h
  · cases h

/-- A client is told it is closed for being too slow, or by the main thread. -/
theorem closed_of_run (h : run op i s = some (s', cont)) (hc : .closed c ∈ s'.queue j) :
    .closed c ∈ s.queue j ∨ c.reason = .tooSlow ∨ ∃ ids, s.main = .close ids c := by
  cases does_of_run h with
  | main h =>
    generalize s.main = main at h
    cases h with
    | fanOut =>
      dsimp only [Shared.fanOutOutput] at hc
      split at hc
      · simp only [List.mem_append, List.mem_map] at hc
        rcases hc with (hc | ⟨_, -, hc⟩) | hc
        · exact .inl hc
        · cases hc
        · split at hc
          · cases hc
          · rw [Msg.closed.inj (List.mem_singleton.mp hc)]
            exact .inr (.inl rfl)
      · exact .inl hc
    | close =>
      rcases mem_send hc with hc | hc
      · exact .inl hc
      · rw [Msg.closed.inj (List.mem_singleton.mp hc)]
        exact .inr (.inr ⟨_, rfl⟩)
    | _ => exact .inl hc
  | client h =>
    generalize s.stage _ = st at h
    cases h with
    | sent | status | shut =>
      rcases mem_send hc with hc | hc
      · exact .inl hc
      · cases List.mem_singleton.mp hc
    | dropped =>
      rcases mem_send hc with hc | hc
      · exact .inl hc
      · rw [Msg.closed.inj (List.mem_singleton.mp hc)]
        exact .inr (.inl rfl)
    | _ => exact .inl hc
  | unstarted hs | started hs | world hs =>
    rw [hs] at hc
    exact .inl hc
  | fanOut hs =>
    rw [hs] at hc
    rcases List.mem_append.mp hc with hc | hc
    · exact .inl hc
    · split at hc
      · cases List.mem_singleton.mp hc
      · cases hc
  | quiet hs =>
    rw [hs] at hc
    exact .inl hc

/-- What the main thread is to tell is what it was, or what it reads now. -/
theorem tells_of_run (h : run op i s = some (s', cont)) (hc : s'.main.tells = some c) :
    s.main.tells = some c ∨ op = .main ∧ i = .go ∧ ∃ code signal,
      s.main = .readCause code signal ∧ c = ⟨s.stopCause.getD .exited, code, signal⟩ := by
  by_cases hop : op = .main
  · subst hop
    have h := mainStep_of_runMain h
    generalize s.main = main at h
    cases h with
    | read =>
      dsimp only at hc
      split at hc <;> cases hc
    | readCause => exact .inr ⟨rfl, rfl, _, _, rfl, (Option.some.inj hc).symm⟩
    | take | close | closed | unlink | drain | drained | shutDown | finished => exact .inl hc
    | _ => cases hc
  · rw [(main_of_run h hop).1] at hc
    exact .inl hc

theorem Stopped.step (hs : Stopped m.shared) (hok : Prompt m turn) (h : step m turn = some m') :
    Stopped m'.shared := by
  obtain ⟨op, cont, -, -, hnext, hrun, -, -⟩ := Threads.step_pending h
  have hop := hok op hnext
  have hkeep := stopLogged_of_run hrun
  refine ⟨fun c hc hreason => ?_, fun j c hc hreason => ?_⟩
  · rcases tells_of_run hrun hc with hwas | ⟨rfl, hi, code, signal, hm, rfl⟩
    · exact hkeep (hs.main c hwas hreason)
    · -- the cause that is read was logged
      refine hkeep ?_
      rw [hi, Op.prompt, hm, Main.causeLogged] at hop
      refine (Bool.or_eq_true_iff.mp hop).resolve_left ?_
      cases hcause : m.shared.stopCause with
      | none =>
        rw [hcause] at hreason
        cases hreason
      | some cause =>
        rw [hcause] at hreason
        obtain rfl : cause = .stopped := hreason
        decide
  · rcases closed_of_run hrun hc with hwas | hslow | ⟨ids, hm⟩
    · exact hkeep (hs.queue j c hwas hreason)
    · rw [hslow] at hreason
      cases hreason
    · exact hkeep (hs.main c (by rw [hm]; rfl) hreason)

/-! ## Every run -/

/-- What holds of the end of a session in every state. -/
structure Closing (m : State) : Prop where
  numbered : Numbered m.shared
  checked : Checked m
  ending : Ending m
  alone : Alone m
  heard : Heard m
  tallied : Tallied m
  stopped : Stopped m.shared

theorem Closing.step (hc : Closing m) (hok : InTime m turn) (h : step m turn = some m') :
    Closing m' := by
  have hprompt := hc.checked.prompt hc.ending hok h
  refine ⟨?_, hc.checked.step hok h, hc.ending.step hprompt h, hc.alone.step hc.ending h,
    hc.heard.step hc.alone hc.ending hc.numbered hprompt h, hc.tallied.step hprompt h,
    hc.stopped.step hprompt h⟩
  obtain ⟨op, cont, -, -, -, hrun, -, -⟩ := Threads.step_pending h
  exact hc.numbered.run hrun

theorem closing_start {at_ : String} {pid n : ℕ} {mechanisms unavailable : List String} :
    Closing (start at_ pid mechanisms unavailable n) := by
  have hexits : (start at_ pid mechanisms unavailable n).load Op.exits = 0 :=
    load_start rfl rfl rfl rfl rfl
  have hmains : (start at_ pid mechanisms unavailable n).load Op.mains = 1 := by
    simp [Threads.State.load, Threads.State.pending, start, Op.mains]
  have hreports (cls name : String) :
      (start at_ pid mechanisms unavailable n).load (Op.reports cls name) = 0 :=
    load_start rfl rfl rfl rfl rfl
  refine ⟨numbered_start,
    ⟨fun h => (by cases h), fun h => (by cases h), fun h => (by cases h), fun h => (by cases h)⟩,
    ⟨fun _ => rfl, fun h => (by cases h), ?_, ?_, fun _ _ => rfl, fun _ => rfl⟩,
    ⟨hmains.le, ?_, ?_⟩, ⟨fun _ _ => rfl, fun _ => rfl, fun h => (by cases h)⟩,
    ⟨fun cls name => ?_, fun h => (by cases h)⟩,
    ⟨fun _ h => (by cases h), fun _ _ h => (List.not_mem_nil h).elim⟩⟩
  · rintro op hop k rfl
    rcases pending_start hop with h | h | h | h | h <;> cases h
  · rw [hexits]
    exact Nat.zero_le _
  · rw [hexits]
    exact fun h => by cases h
  · rw [hexits]
    exact fun h => by cases h
  · rw [hreports]
    rfl

theorem closing_run {at_ : String} {pid n : ℕ} {mechanisms unavailable : List String}
    (hrun : Runs.exec step (start at_ pid mechanisms unavailable n) turns = some m)
    (hok : Runs.Guarded step InTime (start at_ pid mechanisms unavailable n) turns) : Closing m :=
  Runs.exec_invariant hrun hok closing_start fun _ _ _ hc ho h => hc.step ho h

/-- How often the record of a log says one thing was refused. -/
def counted (spec : SessionSpec) (log : List SessionEvent) (cls name : String) : ℕ :=
  ((rowOf cls name (fromLog spec log).sandbox.denied).map Denied.count).getD 0

/-- Once the exit is logged no refusal's line is owed to the log, and none is
folded in the tally. -/
theorem Closing.refused_eq (hc : Closing m) (hx : m.shared.main.exitLogged = true)
    (cls name : String) : refused cls name m.shared.log = m.shared.calls.count (cls, name) := by
  have hnone : m.load (Op.reports cls name) = 0 := by
    refine Threads.load_eq_zero fun op hop => ?_
    cases op with
    | append k => exact absurd (hc.checked.shut hx _ hop rfl) exits_append
    | _ => rfl
  have hconserves := hc.tallied.conserves cls name
  rwa [hc.tallied.held (Main.flushed_of_exitLogged hx), hnone] at hconserves

/-- **The exit closes the log**, if every thread is in time for it: once it is
logged it is the log's last line, so the fold ignores none; no client is sent
an event after it, and who is on the list, or was taken from it, and was sent
an event was sent it last; the record counts every refusal recorded; and
whoever is told of a stop finds it in the log before the exit. -/
theorem exit_closes_log {at_ : String} {pid n : ℕ} {mechanisms unavailable : List String}
    (hrun : Runs.exec step (start at_ pid mechanisms unavailable n) turns = some m)
    (hok : Runs.Guarded step InTime (start at_ pid mechanisms unavailable n) turns)
    (hx : m.shared.main.exitLogged = true) :
    ∃ pre at_ code signal, m.shared.log = pre ++ [⟨at_, .exited code signal⟩] ∧
      Sessions.toEnd m.shared.log = m.shared.log ∧
      (∀ j, ended (events (m.shared.queue j)).dropLast = false) ∧
      (m.load Op.exits = 0 → ∀ j, ⟨j, .control⟩ ∈ m.shared.clients ++ m.shared.taken →
        events (m.shared.queue j) = [] ∨
          ∃ sent ev, events (m.shared.queue j) = sent ++ [ev] ∧ ev.kind.isEnd = true) ∧
      (∀ spec cls name,
        counted spec m.shared.log cls name = m.shared.calls.count (cls, name)) ∧
      ∀ j c, .closed c ∈ m.shared.queue j → c.reason = .stopped → stopLogged pre = true := by
  have hc := closing_run hrun hok
  obtain ⟨pre, at_, code, signal, hlog, hpre⟩ := hc.ending.after hx
  have hall : Sessions.toEnd m.shared.log = m.shared.log := by
    have hlast : Sessions.toEnd [⟨at_, .exited code signal⟩] = [⟨at_, .exited code signal⟩] := rfl
    rw [hlog]
    exact (Absorb.upTo_append_of_none hpre).trans (congrArg (pre ++ ·) hlast)
  refine ⟨pre, at_, code, signal, hlog, hall, hc.ending.last, hc.heard.heard hx,
    fun spec cls name => ?_, fun j c hmem hreason => ?_⟩
  · rw [counted, Sessions.count_fromLog, hall]
    exact hc.refused_eq hx cls name
  · have hstop := hc.stopped.queue j c hmem hreason
    rw [hlog, stopLogged, List.any_append] at hstop
    exact (Bool.or_eq_true_iff.mp hstop).resolve_right Bool.false_ne_true

/-- The end of the output, as far as the list. -/
def exits : List (ℕ × In) :=
  [(0, .go), (0, .wrote "5" true), (0, .refused []), (0, .go), (0, .go), (0, .go), (0, .go)]

/-- A call is refused twice, the daemon asks to stop, and the session ends. -/
def inTime : List (ℕ × In) :=
  ([(4, .greeting .control 0 0), (4, .outcome true), (4, .go), (1, .notified "bpf"), (1, .now 0),
    (1, .wrote "2" true), (1, .refused []), (1, .notified "bpf"), (1, .now 1), (4, .frame .stop),
    (4, .go), (4, .go), (4, .wrote "3" true), (4, .refused []), (0, .over (some 0) none), (0, .go),
    (0, .now 2), (0, .wrote "4" true), (0, .refused [])] : List (ℕ × In)) ++ exits

theorem exit_closes_log_stopped : ∃ m, Runs.exec step (opened 1) inTime = some m ∧
    m.shared.main.exitLogged = true ∧
    ∃ pre at_ code signal, m.shared.log = pre ++ [⟨at_, .exited code signal⟩] ∧
      Sessions.toEnd m.shared.log = m.shared.log ∧
      (∀ j, ended (events (m.shared.queue j)).dropLast = false) ∧
      (m.load Op.exits = 0 → ∀ j, ⟨j, .control⟩ ∈ m.shared.clients ++ m.shared.taken →
        events (m.shared.queue j) = [] ∨
          ∃ sent ev, events (m.shared.queue j) = sent ++ [ev] ∧ ev.kind.isEnd = true) ∧
      (∀ spec cls name,
        counted spec m.shared.log cls name = m.shared.calls.count (cls, name)) ∧
      ∀ j c, .closed c ∈ m.shared.queue j → c.reason = .stopped → stopLogged pre = true := by
  have hend : (Runs.exec step (opened 1) inTime).any (fun m => m.shared.main.exitLogged) =
      true := by
    decide
  obtain ⟨m, hm, hx⟩ := (Option.any_eq_true ..).mp hend
  exact ⟨m, hm, hx, exit_closes_log hm (by decide) hx⟩

/-- A call is refused, and recorded once the exit is logged. -/
def recordedLate : List (ℕ × In) :=
  ([(1, .notified "bpf"), (0, .over (some 0) none), (0, .go), (0, .now 0)] : List (ℕ × In)) ++
    exits ++ ([(1, .now 1), (1, .wrote "6" true), (1, .refused [])] : List (ℕ × In))

/-- The daemon asks to stop; the cause is read before the stop is logged. -/
def stoppedLate : List (ℕ × In) :=
  ([(4, .greeting .control 0 0), (4, .outcome true), (4, .go), (4, .frame .stop), (4, .go),
    (4, .go), (0, .over (some 0) none), (0, .go), (0, .now 0)] : List (ℕ × In)) ++ exits ++
    ([(4, .wrote "6" true), (4, .refused [])] : List (ℕ × In))

/-- The refusal is in no record, and the stop is logged after the exit. -/
theorem exit_left_open :
    (∃ m, Runs.exec step (opened 0) recordedLate = some m ∧
      (∀ op ∈ m.pending, op.denies = false) ∧ m.shared.calls = [("syscall", "bpf")] ∧
      m.shared.log.getLast? = some ⟨"6", .sandboxDenied "syscall" "bpf" 1⟩ ∧
      ∀ spec, counted spec m.shared.log "syscall" "bpf" = 0) ∧
    ∃ m, Runs.exec step (opened 1) stoppedLate = some m ∧
      .closed ⟨.stopped, some 0, none⟩ ∈ m.shared.queue 1 ∧
      m.shared.log.drop 3 = [⟨"5", .exited (some 0) none⟩, ⟨"6", .stopRequested "daemon"⟩] := by
  constructor
  · have hend : (Runs.exec step (opened 0) recordedLate).map (fun m =>
        (m.pending.all fun op => !op.denies, m.shared.calls, m.shared.log)) =
          some (true, [("syscall", "bpf")], [⟨"1", .created⟩,
            ⟨"1", .sandboxApplied ["namespaces", "mounts", "rlimits", "seccomp"] []⟩,
            ⟨"1", .started 7⟩, ⟨"5", .exited (some 0) none⟩,
            ⟨"6", .sandboxDenied "syscall" "bpf" 1⟩]) := by
      decide
    obtain ⟨m, hm, hview⟩ := Option.map_eq_some_iff.mp hend
    simp only [Prod.mk.injEq] at hview
    obtain ⟨hpending, hcalls, hlog⟩ := hview
    refine ⟨m, hm, by simpa using hpending, hcalls, ?_, fun spec => ?_⟩
    · rw [hlog]
      rfl
    · rw [hlog]
      rfl
  · have hend : (Runs.exec step (opened 1) stoppedLate).any (fun m =>
        .closed ⟨.stopped, some 0, none⟩ ∈ m.shared.queue 1 && m.shared.log.drop 3 =
          [⟨"5", .exited (some 0) none⟩, ⟨"6", .stopRequested "daemon"⟩]) = true := by
      decide
    obtain ⟨m, hm, hview⟩ := (Option.any_eq_true ..).mp hend
    simp only [Bool.and_eq_true, decide_eq_true_eq] at hview
    exact ⟨m, hm, hview⟩

end Supervisor
end Willie
