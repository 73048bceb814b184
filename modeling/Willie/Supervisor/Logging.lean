import Willie.Supervisor.Clients

/-!
# Supervisor — what reaches the log, and the control clients

An event is appended to the log in one critical section, which leaves the
fan-out of that line to be done in another.
-/

namespace Willie
namespace Supervisor

open Sessions (SessionEvent SessionEventKind)

variable {s s' : Shared} {id j line : ℕ} {role : Role} {cont : List Op} {op : Op} {i : In}
  {q q' : List Msg}

/-! ## What reaches the log -/

/-- **What an operation does to the log**: it appends an event that is then to
be fanned out, fans one out, or does neither. -/
inductive Logs (s s' : Shared) (cont : List Op) : Op → In → Prop
  | line {op : Op} {at_ : String} {ok : Bool} {kind : SessionEventKind} {rest : List Op}
    (hop : op = .append kind ∨
      op = .main ∧ ∃ code signal, s.main = .logExited code signal ∧ kind = .exited code signal)
    (hlog : s'.log = if ok then s.log ++ [⟨at_, kind⟩] else s.log) (htold : s'.told = s.told)
    (hcont : cont = .fanOut s.log.length ⟨at_, kind⟩ :: rest) (hrest : rest = [] ∨ rest = [.main]) :
    Logs s s' cont op (.wrote at_ ok)
  | fanOut {line : ℕ} {ev : SessionEvent} {refused : List ℕ} (hs : s' = s.fanOutEvent ev refused)
    (hc : cont = []) : Logs s s' cont (.fanOut line ev) (.refused refused)
  | other {op : Op} {i : In} (hlog : s'.log = s.log) (htold : s'.told = s.told)
    (hop : ∀ line ev, op ≠ .fanOut line ev) (happ : ∀ kind, op ≠ .append kind)
    (hcont : ∀ line ev, .fanOut line ev ∉ cont) : Logs s s' cont op i

theorem logs_of_run (h : run op i s = some (s', cont)) : Logs s s' cont op i := by
  cases step_of_run h with
  | append => exact .line (.inl rfl) rfl rfl rfl (.inl rfl)
  | fanOut => exact .fanOut rfl rfl
  | main h =>
    generalize hm : s.main = main at h
    cases h with
    | logExited => exact .line (.inr ⟨rfl, _, _, hm, rfl⟩) rfl rfl rfl (.inr rfl)
    | _ => exact .other rfl rfl (fun _ _ h => nomatch h) (fun _ h => nomatch h) fun _ _ => by simp
  | client h =>
    have hrest := h.own.rest
    refine .other (by rw [hrest]) (by rw [hrest]) (fun _ _ h => nomatch h) (fun _ h => nomatch h)
      fun _ _ => ?_
    generalize s.stage _ = st at h
    cases h with
    | register => split <;> simp
    | leave => split <;> simp
    | _ => simp
  | hello | applySize | winsize | failed =>
    refine .other rfl rfl (fun _ _ h => nomatch h) (fun _ h => nomatch h) fun _ _ => ?_
    split <;> simp
  | _ => exact .other rfl rfl (fun _ _ h => nomatch h) (fun _ h => nomatch h) fun _ _ => by simp

/-! ## The exit -/

/-- The exit was logged. -/
def Main.exitLogged : Main → Bool
  | .readCause .. | .take _ | .close .. | .unlink _ | .drain _ | .shutDown .. | .done _ => true
  | _ => false

/-- It is, when the main thread's step logs it. -/
theorem exitLogged_of_run (h : run op i s = some (s', cont)) :
    (op = .main ∧ (∃ code signal, s.main = .logExited code signal) ∧
      s'.main.exitLogged = true) ∨
      ((∀ code signal, op = .main → s.main ≠ .logExited code signal) ∧
        s'.main.exitLogged = s.main.exitLogged) := by
  by_cases hop : op = .main
  · subst hop
    have h := mainStep_of_runMain h
    generalize s.main = main at h
    cases h with
    | read =>
      refine .inr ⟨fun _ _ _ h => (nomatch h), ?_⟩
      dsimp only
      split <;> rfl
    | logExited => exact .inl ⟨rfl, ⟨_, _, rfl⟩, rfl⟩
    | _ => exact .inr ⟨fun _ _ _ h => (nomatch h), rfl⟩
  · exact .inr ⟨fun _ _ h => absurd h hop, by rw [(main_of_run h hop).1]⟩

theorem run_logExited {code signal : Option Int} (hm : s.main = .logExited code signal)
    (h : run .main i s = some (s', cont)) : ∃ at_ ok, i = .wrote at_ ok ∧
      s'.main = .readCause code signal ∧
      cont = [.fanOut s.log.length ⟨at_, .exited code signal⟩, .main] := by
  have h := mainStep_of_runMain h
  rw [hm] at h
  cases h with
  | logExited => exact ⟨_, _, rfl, rfl, rfl⟩

/-- It is not logged by an operation that leaves nothing to be fanned out. -/
theorem exitLogged_of_quiet (h : run op i s = some (s', cont))
    (hcont : ∀ line ev, .fanOut line ev ∉ cont) :
    s'.main.exitLogged = s.main.exitLogged := by
  refine ((exitLogged_of_run h).resolve_left ?_).2
  rintro ⟨rfl, ⟨code, signal, hm⟩, -⟩
  obtain ⟨at_, ok, -, -, rfl⟩ := run_logExited hm h
  exact hcont _ _ List.mem_cons_self

/-- No line that ends the session is owed to the log but by the main thread. -/
theorem append_of_run (h : run op i s = some (s', cont)) {k : SessionEventKind}
    (hk : .append k ∈ cont) : k.isEnd = false := by
  cases step_of_run h with
  | main h =>
    generalize s.main = main at h
    cases h <;> grind [SessionEventKind.isEnd, denied]
  | client h =>
    generalize s.stage _ = st at h
    cases h <;> grind [SessionEventKind.isEnd]
  | _ => grind [SessionEventKind.isEnd, denied]

/-! ## What reaches a client -/

/-- The events a client was sent. -/
def events (q : List Msg) : List SessionEvent :=
  q.filterMap fun
    | .event ev => some ev
    | _ => none

@[simp] theorem events_append : events (q ++ q') = events q ++ events q' := List.filterMap_append

theorem events_send {msgs : List Msg} (h : events msgs = []) :
    events ((s.send id msgs).queue j) = events (s.queue j) := by
  rw [queue_send, events_append, apply_ite events, h]
  exact (congrArg _ (ite_self _)).trans (List.append_nil _)

theorem events_fanOutOutput {bytes : Bytes} {room : List (ℕ × ℕ)} :
    events ((s.fanOutOutput bytes room).queue j) = events (s.queue j) := by
  have hframes (frames : List Bytes) : events (frames.map .output) = [] := by
    simp [events, List.filterMap_map]
  dsimp only [Shared.fanOutOutput]
  split
  · split
    all_goals
      rw [events_append, events_append, hframes, List.append_nil]
      exact List.append_nil _
  · rfl

theorem events_fanOutEvent {ev : SessionEvent} {refused : List ℕ} :
    events ((s.fanOutEvent ev refused).queue j) = events (s.queue j) ++
      if ⟨j, .control⟩ ∈ (s.fanOutEvent ev refused).clients then [ev] else [] := by
  dsimp only [Shared.fanOutEvent]
  rw [events_append, apply_ite events]
  rfl

/-- Only a fan-out hands events. -/
theorem events_of_run (h : run op i s = some (s', cont)) (hop : ∀ line ev, op ≠ .fanOut line ev) :
    events (s'.queue j) = events (s.queue j) := by
  cases does_of_run h with
  | main h =>
    generalize s.main = main at h
    cases h with
    | fanOut => exact events_fanOutOutput
    | close => exact events_send rfl
    | _ => rfl
  | client h =>
    generalize s.stage _ = st at h
    cases h with
    | sent | dropped | status | shut => exact events_send rfl
    | _ => rfl
  | unstarted hs | started hs | world hs => rw [hs]
  | @fanOut line ev => exact absurd rfl (hop line ev)
  | quiet hs => rw [hs]

/-- A client on its way to the list is sent no event. -/
theorem early_events_of_run (hn : Numbered s)
    (hs : ∀ j, (s.stage j).early = true → events (s.queue j) = [])
    (h : run op i s = some (s', cont)) (he : (s'.stage j).early = true) :
    events (s'.queue j) = [] := by
  have he' := early_of_run hn h he
  cases logs_of_run h with
  | fanOut hs' =>
    have hnot : ⟨j, .control⟩ ∉ (s.fanOutEvent ‹_› ‹_›).clients := fun hmem =>
      hn.not_mem he' (List.mem_of_mem_filter hmem)
    rw [hs', events_fanOutEvent, if_neg hnot, hs j he', List.append_nil]
  | line hop =>
    rw [events_of_run h, hs j he']
    rintro line ev rfl
    rcases hop with hop | ⟨hop, -⟩ <;> cases hop
  | other _ _ hop => rw [events_of_run h hop, hs j he']

end Supervisor
end Willie
