import Willie.Sessions.Fold
import Willie.Supervisor.Logging

/-!
# Supervisor — the last line and the last event

`finish` flushes the tally, sets the phase and logs the exit under three
locks, while other threads check the one or the other and log later. If each
line is prompt, the exit is the last line of the log and the last event of
every stream. What the threads check, and when every line is prompt, is
settled later.
-/

namespace Willie
namespace Supervisor

open Sessions (SessionEvent SessionEventKind)

variable {s s' : Shared} {id j : ℕ} {cont : List Op} {op : Op} {i : In} {m m' : State}
  {turn : ℕ × In} {turns : List (ℕ × In)} {log : List SessionEvent} {cls name : String}

/-- The log, or the stream, tells of an end. -/
def ended (evs : List SessionEvent) : Bool := evs.any (·.kind.isEnd)

@[simp] theorem ended_append {evs evs' : List SessionEvent} :
    ended (evs ++ evs') = (ended evs || ended evs') := List.any_append

/-! ## Prompt lines -/

/-- The tally was flushed for the exit. -/
def Main.flushed : Main → Bool
  | .setExited .. | .logExited .. | .readCause .. | .take _ | .close .. => true
  | .unlink _ | .drain _ | .shutDown .. | .done _ => true
  | _ => false

/-- The exit is still to be fanned out. -/
def Op.exits : Op → ℕ
  | .fanOut _ ev => if ev.kind.isEnd then 1 else 0
  | _ => 0

/-- A stop was logged. -/
def stopLogged (log : List SessionEvent) : Bool :=
  log.any fun ev => match ev.kind with
    | .stopRequested _ => true
    | _ => false

/-- What finish reads of the cause was logged. -/
def Main.causeLogged (s : Shared) : Main → Bool
  | .readCause .. => s.stopCause != some .stopped || stopLogged s.log
  | _ => true

/-- An operation is prompt: it writes its line, before the exit's; it is
fanned out before the exit is; a refusal recorded after the flush is reported
at once; and the stop that `finish` reads the cause of is logged. -/
def Op.prompt (m : State) : Op → In → Bool
  | .append _, .wrote _ ok => ok && !ended m.shared.log
  | .main, .wrote _ ok => ok
  | .main, .go => m.shared.main.causeLogged m.shared
  | .fanOut _ ev, .refused _ =>
    ev.kind.isEnd || !m.shared.main.exitLogged || m.pending.any fun op => op.exits = 1
  | .record cls name, .now now =>
    !m.shared.main.flushed || (m.shared.tally.record now cls name).2.isSome
  | _, _ => true

/-- The operation that is run is prompt. -/
def Prompt (m : State) (turn : ℕ × In) : Prop :=
  ∀ op ∈ m.next turn.1, op.prompt m turn.2 = true

/-! ## The last line and the last event -/

/-- **The exit ends the log and every stream.** -/
structure Ending (m : State) : Prop where
  before : m.shared.main.exitLogged = false → ended m.shared.log = false
  after : m.shared.main.exitLogged = true → ∃ pre at_ code signal,
    m.shared.log = pre ++ [⟨at_, .exited code signal⟩] ∧ ended pre = false
  appends : ∀ op ∈ m.pending, ∀ k, op = .append k → k.isEnd = false
  /-- It is fanned out once, after it is logged. -/
  once : m.load Op.exits ≤ if m.shared.main.exitLogged then 1 else 0
  unsent : m.shared.main.exitLogged = false ∨ m.load Op.exits = 1 →
    ∀ j, ended (events (m.shared.queue j)) = false
  last : ∀ j, ended (events (m.shared.queue j)).dropLast = false

theorem Ending.ended_eq (he : Ending m) : ended m.shared.log = m.shared.main.exitLogged := by
  cases hx : m.shared.main.exitLogged with
  | false => exact he.before hx
  | true =>
    obtain ⟨pre, at_, code, signal, hlog, -⟩ := he.after hx
    rw [hlog, ended_append]
    exact Bool.or_true _

/-- While the exit is still to be fanned out, it is so once. -/
theorem Ending.load_exits (he : Ending m) (ho : op ∈ m.pending) (hx : op.exits = 1) :
    m.load Op.exits = 1 ∧ m.shared.main.exitLogged = true := by
  have hle := Threads.le_load (f := Op.exits) ho
  have honce := he.once
  cases hlogged : m.shared.main.exitLogged with
  | false =>
    rw [hlogged, if_neg Bool.false_ne_true] at honce
    omega
  | true =>
    rw [hlogged, if_pos rfl] at honce
    exact ⟨by omega, rfl⟩

theorem exits_eq_zero (hop : ∀ line ev, op ≠ .fanOut line ev) : op.exits = 0 := by
  cases op with
  | fanOut line ev => exact absurd rfl (hop line ev)
  | _ => rfl

theorem sum_exits_eq_zero (hcont : ∀ line ev, .fanOut line ev ∉ cont) :
    (cont.map Op.exits).sum = 0 :=
  Threads.sum_eq_zero fun _ ho => exits_eq_zero fun line ev he => hcont line ev (he ▸ ho)

theorem sum_exits {rest : List Op} (hrest : rest = [] ∨ rest = [.main]) :
    (rest.map Op.exits).sum = 0 := by
  rcases hrest with rfl | rfl <;> rfl

/-! ## Every step -/

/-- A line that is no end, before the exit. -/
theorem Ending.keeps_open (he : Ending m)
    (happends : ∀ op ∈ m'.pending, ∀ k, op = .append k → k.isEnd = false)
    (hnot : m.shared.main.exitLogged = false) (hnot' : m'.shared.main.exitLogged = false)
    (hlog : ended m'.shared.log = false) (hload : m'.load Op.exits = 0)
    (hevents : ∀ j, events (m'.shared.queue j) = events (m.shared.queue j)) : Ending m' := by
  refine ⟨fun _ => hlog, fun hx => ?_, happends, by omega, fun _ j => ?_, fun j => ?_⟩
  · rw [hnot'] at hx
    cases hx
  · rw [hevents]
    exact he.unsent (.inl hnot) j
  · rw [hevents]
    exact he.last j

/-- The exit itself, which is still to be fanned out. -/
theorem Ending.closes {at_ : String} {code signal : Option Int} (he : Ending m)
    (happends : ∀ op ∈ m'.pending, ∀ k, op = .append k → k.isEnd = false)
    (hnot : m.shared.main.exitLogged = false) (hlogged : m'.shared.main.exitLogged = true)
    (hlog : m'.shared.log = m.shared.log ++ [⟨at_, .exited code signal⟩])
    (hload : m'.load Op.exits = 1)
    (hevents : ∀ j, events (m'.shared.queue j) = events (m.shared.queue j)) : Ending m' := by
  refine ⟨fun hx => ?_, fun _ => ⟨_, at_, code, signal, hlog, he.before hnot⟩, happends,
    by rw [hlogged, hload]; exact Nat.le_refl _, fun _ j => ?_, fun j => ?_⟩
  · rw [hlogged] at hx
    cases hx
  · rw [hevents]
    exact he.unsent (.inl hnot) j
  · rw [hevents]
    exact he.last j

/-- What logs nothing and fans nothing out. -/
theorem Ending.aside (he : Ending m)
    (happends : ∀ op ∈ m'.pending, ∀ k, op = .append k → k.isEnd = false)
    (hx : m'.shared.main.exitLogged = m.shared.main.exitLogged)
    (hlog : m'.shared.log = m.shared.log) (hload : m'.load Op.exits = m.load Op.exits)
    (hevents : ∀ j, events (m'.shared.queue j) = events (m.shared.queue j)) : Ending m' := by
  refine ⟨fun h => ?_, fun h => ?_, happends, ?_, fun h j => ?_, fun j => ?_⟩
  · rw [hlog]
    exact he.before (hx ▸ h)
  · rw [hlog]
    exact he.after (hx ▸ h)
  · rw [hx, hload]
    exact he.once
  · rw [hevents]
    exact he.unsent (by rwa [hx, hload] at h) j
  · rw [hevents]
    exact he.last j

/-- A prompt fan-out, of the exit or before it. -/
theorem Ending.fansOut {line : ℕ} {ev : SessionEvent} {refused : List ℕ} (he : Ending m)
    (happends : ∀ op ∈ m'.pending, ∀ k, op = .append k → k.isEnd = false)
    (hmem : .fanOut line ev ∈ m.pending) (hs : m'.shared = m.shared.fanOutEvent ev refused)
    (hload : m'.load Op.exits + Op.exits (.fanOut line ev) = m.load Op.exits)
    (hprompt : Op.prompt m (.fanOut line ev) (.refused refused) = true) : Ending m' := by
  have hx : m'.shared.main.exitLogged = m.shared.main.exitLogged := by rw [hs]; rfl
  have hlog : m'.shared.log = m.shared.log := by rw [hs]; rfl
  have hunsent : m.shared.main.exitLogged = false ∨ m.load Op.exits = 1 := by
    rcases Bool.or_eq_true_iff.mp hprompt with hor | hany
    · rcases Bool.or_eq_true_iff.mp hor with hend | hx
      · exact .inr (he.load_exits hmem (if_pos hend)).1
      · exact .inl (by simpa using hx)
    · obtain ⟨o, ho, hone⟩ := List.any_eq_true.mp hany
      exact .inr (he.load_exits ho (of_decide_eq_true hone)).1
  have hnone := he.unsent hunsent
  refine ⟨fun h => ?_, fun h => ?_, happends, ?_, fun h j => ?_, fun j => ?_⟩
  · rw [hlog]
    exact he.before (hx ▸ h)
  · rw [hlog]
    exact he.after (hx ▸ h)
  · have honce := he.once
    rw [hx]
    omega
  · cases hend : ev.kind.isEnd with
    | true =>
      -- then it was the exit's own, and there is no other
      have hone : Op.exits (.fanOut line ev) = 1 := if_pos hend
      obtain ⟨hload', hlogged⟩ := he.load_exits hmem hone
      rcases h with h | h
      · rw [hx, hlogged] at h
        cases h
      · omega
    | false =>
      rw [hs, events_fanOutEvent, ended_append, hnone]
      split <;> simp [ended, hend]
  · rw [hs, events_fanOutEvent]
    split
    · rw [List.dropLast_concat]
      exact hnone j
    · rw [List.append_nil]
      exact he.last j

theorem Ending.step (he : Ending m) (hok : Prompt m turn) (h : step m turn = some m') :
    Ending m' := by
  obtain ⟨op, cont, pre, post, hnext, hrun, hold, hnew⟩ := Threads.step_pending h
  have hop := hok op hnext
  have hload := Threads.load_step (f := Op.exits) hold hnew
  have happends : ∀ op ∈ m'.pending, ∀ k, op = .append k → k.isEnd = false :=
    Threads.forall_pending hold hnew he.appends (fun _ h => h)
      fun o ho k hk => append_of_run hrun (hk ▸ ho)
  have hmain := exitLogged_of_run hrun
  generalize turn.2 = i at hrun hop
  cases logs_of_run hrun with
  | @line op at_ ok kind rest hkind hlog htold hcont hrest =>
    have hevents (j : ℕ) := events_of_run (j := j) hrun fun line ev ho => by
      rcases hkind with rfl | ⟨rfl, -⟩ <;> cases ho
    rcases hkind with rfl | ⟨rfl, code, signal, hm, rfl⟩
    · obtain ⟨hwritten, hopen⟩ := Bool.and_eq_true_iff.mp hop
      have hnot : m.shared.main.exitLogged = false := by
        rw [← he.ended_eq]
        simpa using hopen
      have hkeep := (hmain.resolve_left fun h => nomatch h.1).2
      have hk := he.appends _ (Threads.next_mem hnext) kind rfl
      have hopen' : ended m'.shared.log = false := by
        rw [hlog, hwritten, if_pos rfl, ended_append, he.before hnot]
        simp [ended, hk]
      have hsum : (cont.map Op.exits).sum = 0 := by
        rw [hcont, List.map_cons, List.sum_cons, sum_exits hrest]
        exact if_neg (by simp [hk])
      have hzero : m'.load Op.exits = 0 := by
        have honce := he.once
        have hop : Op.exits (.append kind) = 0 := rfl
        rw [hnot, if_neg Bool.false_ne_true] at honce
        omega
      exact he.keeps_open happends hnot (hkeep.trans hnot) hopen' hzero hevents
    · have hnot : m.shared.main.exitLogged = false := by rw [hm]; rfl
      have hlogged : m'.shared.main.exitLogged = true := by
        rcases hmain with ⟨-, -, hx⟩ | ⟨hne, -⟩
        · exact hx
        · exact absurd hm (hne code signal rfl)
      have hwritten : ok = true := hop
      rw [hwritten, if_pos rfl] at hlog
      have hsum : (cont.map Op.exits).sum = 1 := by
        rw [hcont, List.map_cons, List.sum_cons, sum_exits hrest]
        rfl
      have hone : m'.load Op.exits = 1 := by
        have honce := he.once
        have hop : Op.exits .main = 0 := rfl
        rw [hnot, if_neg Bool.false_ne_true] at honce
        omega
      exact he.closes happends hnot hlogged hlog hone hevents
  | @fanOut line ev refused hs hc =>
    rw [hc, List.map_nil, List.sum_nil] at hload
    exact he.fansOut happends (Threads.next_mem hnext) hs (by omega) hop
  | other hlog htold hop' happ hcont' =>
    have hzero := exits_eq_zero hop'
    have hsum := sum_exits_eq_zero hcont'
    exact he.aside happends (exitLogged_of_quiet hrun hcont') hlog (by omega)
      fun j => events_of_run hrun hop'

end Supervisor
end Willie
