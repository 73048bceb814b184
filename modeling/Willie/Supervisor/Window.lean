import Willie.Supervisor.Clients

/-!
# Supervisor — the terminal's window

The supervisor's threads with the window of the terminal they share, whose
size is set outside every lock: `apply_size` records a size in the screen,
sets the window, and logs it, in three steps, with a narrower size first where
a redraw is forced. A run of these threads is a run of the supervisor
(`erase_run`). If the size that is recorded last is also the last to be set and
to be logged, the three agree whenever no thread is at one (`window_agrees`).
-/

namespace Willie
namespace Supervisor

open Sessions (SessionEvent SessionEventKind)

/-- What a thread does, and the window sets that force a redraw. -/
inductive WinOp where
  | op (o : Op)
  | nudge (rows cols : ℕ)
  deriving DecidableEq, Repr

structure Windowed where
  shared : Shared
  /-- The size last set on the terminal. -/
  window : ℕ × ℕ := (24, 80)

/-- The window is set before the nudge is logged. -/
def nudged : Op → Op → List WinOp
  | .applySize .., .append (.resized rows cols) =>
    [.nudge rows cols, .op (.append (.resized rows cols))]
  | _, o => [.op o]

/-- The size an operation sets, unless the kernel refuses it. -/
def sets : Op → In → Option (ℕ × ℕ)
  | .winsize rows cols, .outcome true => some (rows, cols)
  | _, _ => none

/-- **One step**: a critical section, or a window set. -/
def runWin : WinOp → In → Windowed → Option (Windowed × List WinOp)
  | .op o, i, s =>
    (run o i s.shared).map fun r => (⟨r.1, (sets o i).getD s.window⟩, r.2.flatMap (nudged o))
  -- what it answers is not looked at
  | .nudge rows cols, .outcome ok, s =>
    some ({ s with window := if ok then (rows, cols) else s.window }, [])
  | .nudge .., _, _ => none

abbrev WinState := Threads.State Windowed WinOp

abbrev winStep : WinState → ℕ × In → Option WinState := Threads.step runWin

/-- The supervisor's start, with the window its terminal was opened with. -/
def startWin (at_ : String) (pid : ℕ) (mechanisms unavailable : List String) (clients : ℕ) :
    WinState where
  shared := { shared := (start at_ pid mechanisms unavailable clients).shared }
  threads := (start at_ pid mechanisms unavailable clients).threads.map (·.map .op)

variable {s s' : Shared} {w w' : Windowed} {m m' : WinState} {o : Op} {i : In} {cont : List Op}
  {turn : ℕ × In}

/-! ## The supervisor in it -/

def WinOp.erase : WinOp → List Op
  | .op o => [o]
  | .nudge .. => []

/-- The supervisor, without its window. -/
def erase (m : WinState) : State := ⟨m.shared.shared, m.threads.map (·.flatMap WinOp.erase)⟩

theorem erase_nudged (o o' : Op) : (nudged o o').flatMap WinOp.erase = [o'] := by
  unfold nudged
  split <;> rfl

theorem erase_cont (o : Op) (os : List Op) :
    (os.flatMap (nudged o)).flatMap WinOp.erase = os := by
  rw [List.flatMap_assoc]
  simp [erase_nudged]

/-- **What a step can do.** -/
theorem runWin_cases {op : WinOp} {cont : List WinOp} (h : runWin op i w = some (w', cont)) :
    (∃ o r, op = .op o ∧ run o i w.shared = some r ∧
      w' = ⟨r.1, (sets o i).getD w.window⟩ ∧ cont = r.2.flatMap (nudged o)) ∨
    ∃ rows cols ok, op = .nudge rows cols ∧ i = .outcome ok ∧ cont = [] ∧
      w' = { w with window := if ok then (rows, cols) else w.window } := by
  unfold runWin at h
  split at h
  · obtain ⟨r, hr, hnew⟩ := Option.map_eq_some_iff.mp h
    obtain ⟨rfl, rfl⟩ := Prod.mk.inj hnew
    exact .inl ⟨_, r, rfl, hr, rfl, rfl⟩
  · obtain ⟨rfl, rfl⟩ := Prod.mk.inj (Option.some.inj h)
    exact .inr ⟨_, _, _, rfl, rfl, rfl, rfl⟩
  · cases h

/-- **A step is a step of the supervisor**, or sets the window for a redraw,
which it does not see. -/
theorem erase_step (h : winStep m turn = some m') :
    erase m' = erase m ∨ step (erase m) turn = some (erase m') := by
  obtain ⟨op, cont, rest, hthread, -, hrun, hthreads⟩ := Threads.step_threads h
  have herased : (erase m).threads[turn.1]? = some ((op :: rest).flatMap WinOp.erase) := by
    simp [erase, hthread]
  rcases runWin_cases hrun with
    ⟨o, r, rfl, hr, hshared, rfl⟩ | ⟨rows, cols, ok, rfl, -, rfl, hshared⟩
  · right
    have hnew : step (erase m) turn = some ⟨r.1, (erase m).threads.set turn.1
        (r.2 ++ rest.flatMap WinOp.erase)⟩ := by
      show Threads.step run (erase m) turn = _
      simp only [Threads.step, herased, List.flatMap_cons, WinOp.erase, List.singleton_append]
      have hr' : run o turn.2 (erase m).shared = some r := hr
      rw [hr']
      rfl
    rw [hnew]
    simp [erase, hthreads, hshared, List.map_set, erase_cont]
  · left
    have hsame : (erase m).threads.set turn.1 (rest.flatMap WinOp.erase) = (erase m).threads := by
      obtain ⟨hlt, heq⟩ := List.getElem?_eq_some_iff.mp herased
      have hrest : rest.flatMap WinOp.erase = (erase m).threads[turn.1] := heq.symm
      rw [hrest]
      exact List.set_getElem_self hlt
    have hm' : erase m' = ⟨m.shared.shared,
        (erase m).threads.set turn.1 (rest.flatMap WinOp.erase)⟩ := by
      simp [erase, hthreads, hshared, List.map_set]
    rw [hm', hsame]
    rfl

/-- **A run is a run of the supervisor**, which does not see the window. -/
theorem erase_run {turns : List (ℕ × In)} (hrun : Runs.exec winStep m turns = some m') :
    ∃ turns', Runs.exec step (erase m) turns' = some (erase m') := by
  induction turns generalizing m with
  | nil =>
    obtain rfl := Option.some.inj hrun
    exact ⟨[], rfl⟩
  | cons turn turns ih =>
    obtain ⟨m₁, hstep, hrest⟩ := Option.bind_eq_some_iff.mp hrun
    obtain ⟨turns', hturns⟩ := ih hrest
    rcases erase_step hstep with hsame | hnext
    · exact ⟨turns', hsame ▸ hturns⟩
    · exact ⟨turn :: turns', by rw [Runs.exec, hnext, Option.bind_some, hturns]⟩

/-! ## One size -/

/-- The size a line records. -/
def sizeOf? : SessionEventKind → Option (ℕ × ℕ)
  | .resized rows cols => some (rows, cols)
  | _ => none

/-- The last size in the log; before the first, the one the terminal was
opened with. -/
def lastLogged (log : List SessionEvent) : ℕ × ℕ :=
  ((log.filterMap fun ev => sizeOf? ev.kind).getLast?).getD (24, 80)

/-- **One window size**: the terminal has the size that the screen records and
that was logged last. -/
structure Agrees (w : Windowed) : Prop where
  window : w.window = (w.shared.rows, w.shared.cols)
  log : lastLogged w.shared.log = (w.shared.rows, w.shared.cols)

/-- What a thread inside `apply_size` has still to do. -/
def Op.sizes : Op → Bool
  | .winsize .. | .append (.resized ..) => true
  | _ => false

def WinOp.inside : WinOp → Bool
  | .op o => o.sizes
  | .nudge .. => true

/-- No thread is inside `apply_size`. -/
def Idle (m : WinState) : Prop := ∀ t ∈ m.threads, ∀ o ∈ t, o.inside = false

instance (m : WinState) : Decidable (Idle m) :=
  inferInstanceAs (Decidable (∀ t ∈ m.threads, ∀ o ∈ t, o.inside = false))

def WinOp.setsWindow : WinOp → In → Bool
  | .op (.winsize ..), i => i = .outcome true
  | _, _ => true

/-- `set_window_size` does not fail; where it only forces a redraw, it may. -/
def SetsWindow (m : WinState) (turn : ℕ × In) : Prop :=
  ∀ o ∈ m.next turn.1, o.setsWindow turn.2 = true

instance (m : WinState) (turn : ℕ × In) : Decidable (SetsWindow m turn) :=
  inferInstanceAs (Decidable (∀ o ∈ m.next turn.1, _))

/-- The size the screen records. -/
def Windowed.recorded (w : Windowed) : ℕ × ℕ := (w.shared.rows, w.shared.cols)

/-- Some thread has still to set the size that is recorded. -/
def ToSet (m : WinState) : Prop :=
  .op (.winsize m.shared.recorded.1 m.shared.recorded.2) ∈ m.pending

instance (m : WinState) : Decidable (ToSet m) := inferInstanceAs (Decidable (_ ∈ m.pending))

/-- Some thread has still to log it. -/
def ToLog (m : WinState) : Prop :=
  ToSet m ∨ .op (.append (.resized m.shared.recorded.1 m.shared.recorded.2)) ∈ m.pending

instance (m : WinState) : Decidable (ToLog m) :=
  inferInstanceAs (Decidable (ToSet m ∨ _ ∈ m.pending))

def WinOp.inTurn (m : WinState) : WinOp → In → Bool
  | .op (.winsize ..), _ | .nudge .., _ => ToSet m
  | .op (.append (.resized rows cols)), .wrote _ ok =>
    if ok then ToLog m else (rows, cols) ≠ m.shared.recorded
  | _, _ => true

/-- **The last size wins**: the window is set, and a size is logged, only while
some thread has that still to do for the size recorded last; and that one's line
is written. -/
def LastWins (m : WinState) (turn : ℕ × In) : Prop :=
  ∀ o ∈ m.next turn.1, o.inTurn m turn.2 = true

instance (m : WinState) (turn : ℕ × In) : Decidable (LastWins m turn) :=
  inferInstanceAs (Decidable (∀ o ∈ m.next turn.1, _))

/-- **The size recorded last** is the window's and the log's, or some thread has
that still to do. -/
structure Winning (m : WinState) : Prop where
  window : m.shared.window = m.shared.recorded ∨ ToSet m
  log : lastLogged m.shared.shared.log = m.shared.recorded ∨ ToLog m

theorem sizes_append {kind : SessionEventKind} :
    (Op.append kind).sizes = (sizeOf? kind).isSome := by
  cases kind <;> rfl

theorem lastLogged_append {log : List SessionEvent} {ev : SessionEvent} :
    lastLogged (log ++ [ev]) = (sizeOf? ev.kind).getD (lastLogged log) := by
  unfold lastLogged
  cases hsize : sizeOf? ev.kind with
  | none => simp [hsize]
  | some size => simp [hsize]

theorem lastLogged_log {ev : SessionEvent} {ok : Bool} (h : sizeOf? ev.kind = none) :
    lastLogged (s.append ev ok).log = lastLogged s.log := by
  cases ok with
  | true => exact lastLogged_append.trans (by rw [h, Option.getD_none])
  | false => rfl

/-- What is none of `apply_size`'s leaves the size, and the sizes logged, as
they are. -/
theorem still_of_run (h : run o i s = some (s', cont)) (ho : o.sizes = false)
    (happ : ∀ rows cols force, o ≠ .applySize rows cols force) :
    s'.rows = s.rows ∧ s'.cols = s.cols ∧ lastLogged s'.log = lastLogged s.log := by
  cases step_of_run h with
  | main h =>
    generalize s.main = main at h
    cases h with
    | logExited => exact ⟨rfl, rfl, lastLogged_log rfl⟩
    | _ => exact ⟨rfl, rfl, rfl⟩
  | client h =>
    generalize s.stage _ = st at h
    cases h <;> exact ⟨rfl, rfl, rfl⟩
  | applySize => exact absurd rfl (happ _ _ _)
  | winsize => cases ho
  | append =>
    refine ⟨rfl, rfl, lastLogged_log ?_⟩
    rw [sizes_append] at ho
    exact Option.isSome_eq_false_iff.mp ho |> Option.isNone_iff_eq_none.mp
  | _ => exact ⟨rfl, rfl, rfl⟩

theorem nudged_other (happ : ∀ rows cols force, o ≠ .applySize rows cols force) (os : List Op) :
    os.flatMap (nudged o) = os.map .op := by
  have hone : nudged o = fun o' => [.op o'] := by
    funext o'
    unfold nudged
    split
    · exact absurd rfl (happ _ _ _)
    · rfl
  rw [hone, List.map_eq_flatMap]

/-- A size that is recorded is still to be set. -/
theorem winsize_of_applySize {rows cols : ℕ} {force : Bool} {os : List Op}
    (h : run (.applySize rows cols force) i s = some (s', os)) :
    (s'.rows, s'.cols) = (rows, cols) ∧
      .op (.winsize rows cols) ∈ os.flatMap (nudged (.applySize rows cols force)) := by
  cases step_of_run h with
  | applySize =>
    refine ⟨rfl, List.mem_flatMap.mpr ⟨.winsize rows cols, ?_, List.mem_singleton_self _⟩⟩
    exact List.mem_append_right _ (List.mem_singleton_self _)

section Step

variable {op : WinOp} {cont pre post : List WinOp}

/-- What is to be set stays so, if the size is what it was and this is not what
set it. -/
theorem ToSet.keep (h : ToSet m) (hold : m.pending = pre ++ op :: post)
    (hnew : m'.pending = pre ++ (cont ++ post)) (hsize : m'.shared.recorded = m.shared.recorded)
    (hne : .op (.winsize m.shared.recorded.1 m.shared.recorded.2) ≠ op) : ToSet m' := by
  unfold ToSet
  rw [hsize]
  exact Threads.mem_pending_of_ne hold hnew h hne

/-- What is to be logged stays so, if this is neither what set it nor what
logged it. -/
theorem ToLog.keep (h : ToLog m) (hold : m.pending = pre ++ op :: post)
    (hnew : m'.pending = pre ++ (cont ++ post)) (hsize : m'.shared.recorded = m.shared.recorded)
    (hset : .op (.winsize m.shared.recorded.1 m.shared.recorded.2) ≠ op)
    (hlog : .op (.append (.resized m.shared.recorded.1 m.shared.recorded.2)) ≠ op) : ToLog m' := by
  rcases h with h | h
  · exact .inl (h.keep hold hnew hsize hset)
  · right
    rw [hsize]
    exact Threads.mem_pending_of_ne hold hnew h hlog

/-- **Set**: the recorded size is the window's from then on, and its thread logs
it next; any other is set before it. -/
theorem winning_winsize {rows cols : ℕ}
    (hold : m.pending = pre ++ .op (.winsize rows cols) :: post)
    (hnew : m'.pending = pre ++ ([.op (.append (.resized rows cols))] ++ post))
    (hshared : m'.shared = ⟨m.shared.shared, (rows, cols)⟩) (hset : ToSet m) : Winning m' := by
  have hsize : m'.shared.recorded = m.shared.recorded := by rw [hshared]; rfl
  by_cases hown : m.shared.recorded = (rows, cols)
  · refine ⟨.inl (by rw [hsize, hown, hshared]), .inr (.inr ?_)⟩
    rw [hsize, hown, hnew]
    simp
  · have hne : WinOp.op (.winsize m.shared.recorded.1 m.shared.recorded.2) ≠
        .op (.winsize rows cols) := by
      intro heq
      obtain ⟨hrows, hcols⟩ := Op.winsize.inj (WinOp.op.inj heq)
      exact hown (Prod.ext hrows hcols)
    have hstill : ToSet m' := hset.keep hold hnew hsize hne
    exact ⟨.inr hstill, .inr (.inl hstill)⟩

/-- **Logged**: the recorded size is the log's last from then on; any other is
logged before it. -/
theorem Winning.logged {rows cols : ℕ} {at_ : String} {ok : Bool} {cont : List WinOp}
    (h : Winning m) (hold : m.pending = pre ++ .op (.append (.resized rows cols)) :: post)
    (hnew : m'.pending = pre ++ (cont ++ post))
    (hshared : m'.shared = ⟨m.shared.shared.append ⟨at_, .resized rows cols⟩ ok, m.shared.window⟩)
    (hok : (if ok then decide (ToLog m) else decide ((rows, cols) ≠ m.shared.recorded)) = true) :
    Winning m' := by
  have hsize : m'.shared.recorded = m.shared.recorded := by rw [hshared]; rfl
  have hset : WinOp.op (.winsize m.shared.recorded.1 m.shared.recorded.2) ≠
      .op (.append (.resized rows cols)) := by simp
  have hwindow : m'.shared.window = m'.shared.recorded ∨ ToSet m' := by
    rcases h.window with hwin | hto
    · exact .inl (by rw [hsize, ← hwin, hshared])
    · exact .inr (hto.keep hold hnew hsize hset)
  refine ⟨hwindow, ?_⟩
  by_cases hown : m.shared.recorded = (rows, cols)
  · cases ok with
    | false => exact absurd hown.symm (of_decide_eq_true hok)
    | true =>
      left
      rw [hsize, hown, hshared]
      exact lastLogged_append
  · have hlog : WinOp.op (.append (.resized m.shared.recorded.1 m.shared.recorded.2)) ≠
        .op (.append (.resized rows cols)) := by
      intro heq
      obtain ⟨hrows, hcols⟩ := SessionEventKind.resized.inj (Op.append.inj (WinOp.op.inj heq))
      exact hown (Prod.ext hrows hcols)
    cases ok with
    | true => exact .inr (ToLog.keep (of_decide_eq_true hok) hold hnew hsize hset hlog)
    | false =>
      rcases h.log with hlast | hto
      · left
        rw [hsize, ← hlast, hshared]
        rfl
      · exact .inr (hto.keep hold hnew hsize hset hlog)

/-- What sets no size and logs none leaves it as it is. -/
theorem Winning.aside (h : Winning m) (hold : m.pending = pre ++ op :: post)
    (hnew : m'.pending = pre ++ (cont ++ post)) (hsize : m'.shared.recorded = m.shared.recorded)
    (hwin : m'.shared.window = m.shared.window)
    (hlast : lastLogged m'.shared.shared.log = lastLogged m.shared.shared.log)
    (hset : ∀ rows cols, .op (.winsize rows cols) ≠ op)
    (hlog : ∀ rows cols, .op (.append (.resized rows cols)) ≠ op) : Winning m' := by
  constructor
  · rw [hsize, hwin]
    exact h.window.imp_right fun hto => hto.keep hold hnew hsize (hset _ _)
  · rw [hsize, hlast]
    exact h.log.imp_right fun hto => hto.keep hold hnew hsize (hset _ _) (hlog _ _)

end Step

/-- **A step keeps it**: a size that is recorded is its thread's to set, then to
log. -/
theorem Winning.step (h : Winning m) (hset : SetsWindow m turn) (hlast : LastWins m turn)
    (hstep : winStep m turn = some m') : Winning m' := by
  obtain ⟨op, cont, pre, post, hnext, hrun, hold, hnew⟩ := Threads.step_pending hstep
  have hset := hset op hnext
  have hlast := hlast op hnext
  rcases runWin_cases hrun with
    ⟨o, ⟨s', os⟩, rfl, hr, hshared, rfl⟩ | ⟨rows, cols, ok, rfl, hin, rfl, hshared⟩
  · by_cases happ : ∃ rows cols force, o = .applySize rows cols force
    · obtain ⟨rows, cols, force, rfl⟩ := happ
      obtain ⟨hsize, hmem⟩ := winsize_of_applySize hr
      have hto : ToSet m' := by
        have hrec : m'.shared.recorded = (rows, cols) := by rw [hshared]; exact hsize
        unfold ToSet
        rw [hrec]
        exact Threads.mem_pending_of_cont hnew hmem
      exact ⟨.inr hto, .inr (.inl hto)⟩
    push Not at happ
    rw [nudged_other happ] at hnew
    by_cases hsizes : o.sizes = true
    · cases o with
      | winsize rows cols =>
        have hin : turn.2 = .outcome true := of_decide_eq_true hset
        rw [hin] at hr hshared
        cases step_of_run hr
        exact winning_winsize hold hnew hshared (of_decide_eq_true hlast)
      | append kind =>
        cases kind with
        | resized rows cols =>
          generalize hin : turn.2 = i at hr hshared hlast
          cases step_of_run hr
          exact h.logged hold hnew hshared hlast
        | _ => cases hsizes
      | _ => cases hsizes
    · have hquiet : o.sizes = false := Bool.eq_false_iff.mpr hsizes
      obtain ⟨hrows, hcols, hlog⟩ := still_of_run hr hquiet happ
      have hsets : sets o turn.2 = none := by
        unfold sets
        split
        · cases hquiet
        · rfl
      rw [hsets] at hshared
      refine h.aside hold hnew ?_ (by rw [hshared]; rfl) (by rw [hshared]; exact hlog) ?_ ?_
      · rw [hshared]
        exact Prod.ext hrows hcols
      · rintro rows cols heq
        rw [← WinOp.op.inj heq] at hquiet
        cases hquiet
      · rintro rows cols heq
        rw [← WinOp.op.inj heq] at hquiet
        cases hquiet
  · -- a redraw is forced only while the recorded size is to be set
    have hsize : m'.shared.recorded = m.shared.recorded := by rw [hshared]; rfl
    have hto : ToSet m' := (of_decide_eq_true hlast : ToSet m).keep hold hnew hsize (by simp)
    exact ⟨.inr hto, .inr (.inl hto)⟩

theorem winning_start {at_ : String} {pid n : ℕ} {mechanisms unavailable : List String} :
    Winning (startWin at_ pid mechanisms unavailable n) := ⟨.inl rfl, .inl rfl⟩

/-- Where no thread is inside `apply_size`, none has anything to set or log. -/
theorem Winning.agrees (h : Winning m) (hidle : Idle m) : Agrees m.shared := by
  have hnone : ∀ o ∈ m.pending, o.inside = false := fun o ho => by
    obtain ⟨t, ht, hmem⟩ := List.mem_flatten.mp ho
    exact hidle t ht o hmem
  have hset : ¬ ToSet m := fun hto => Bool.noConfusion (hnone _ hto)
  have hlog : ¬ ToLog m := fun hto => hto.elim hset fun hmem => Bool.noConfusion (hnone _ hmem)
  exact ⟨h.window.resolve_right hset, h.log.resolve_right hlog⟩

/-- **One window size**, in every run in which the size recorded last is also
set and logged last: whenever no thread is inside `apply_size`, the size last
set on the terminal, the one the screen records and the last one logged are the
same. -/
theorem window_agrees {at_ : String} {pid n : ℕ} {mechanisms unavailable : List String}
    {turns : List (ℕ × In)}
    (hrun : Runs.exec winStep (startWin at_ pid mechanisms unavailable n) turns = some m)
    (hset : Runs.Guarded winStep SetsWindow (startWin at_ pid mechanisms unavailable n) turns)
    (hlast : Runs.Guarded winStep LastWins (startWin at_ pid mechanisms unavailable n) turns)
    (hidle : Idle m) : Agrees m.shared := by
  have hwinning : Winning m := by
    refine Runs.exec_invariant hrun (hset.and hlast) winning_start fun m turn m' hw hok h => ?_
    exact hw.step hok.1 hok.2 h
  exact hwinning.agrees hidle

/-- A session that just began, and some terminals to come. -/
def openedWin (clients : ℕ) : WinState :=
  startWin "1" 7 ["namespaces", "mounts", "rlimits", "seccomp"] [] clients

/-- A terminal comes as far as its size. -/
def comes (thread rows cols : ℕ) : List (ℕ × In) :=
  [(thread, .greeting .terminal rows cols), (thread, .outcome true), (thread, .go), (thread, .go)]

/-- A program on the alternate screen is redrawn for a terminal of its size;
before that is done, a second terminal records another, and each sets and logs
its own in that order. -/
def redrawn : List (ℕ × In) :=
  ([(0, .read [0x1b, 0x5b, 0x3f, 0x34, 0x37, 0x68] []), (0, .go), (0, .room [])] :
    List (ℕ × In)) ++ comes 4 24 80 ++ comes 5 40 120 ++
  ([(4, .go), (5, .go), (4, .outcome true), (4, .wrote "2" true), (4, .refused []),
    (4, .outcome true), (5, .outcome true), (4, .wrote "2" true), (4, .refused []),
    (5, .wrote "2" true), (5, .refused [])] : List (ℕ × In))

theorem window_agrees_redrawn : ∃ m, Runs.exec winStep (openedWin 2) redrawn = some m ∧
    Agrees m.shared ∧ m.shared.window = (40, 120) := by
  have hend : (Runs.exec winStep (openedWin 2) redrawn).any (fun m =>
      Idle m && m.shared.window = (40, 120)) = true := by
    decide
  obtain ⟨m, hm, hview⟩ := (Option.any_eq_true ..).mp hend
  simp only [Bool.and_eq_true, decide_eq_true_eq] at hview
  exact ⟨m, hm, window_agrees hm (by decide) (by decide) hview.1, hview.2⟩

/-- Two terminals come. The second records its size after the first, and has
set it before the first sets its own. -/
def overtaken : List (ℕ × In) :=
  comes 4 30 100 ++ comes 5 40 120 ++
  ([(4, .go), (5, .go), (5, .outcome true), (4, .outcome true), (4, .wrote "2" true),
    (4, .refused []), (5, .wrote "2" true), (5, .refused [])] : List (ℕ × In))

/-- **Two sizes**: the screen records, and the log says last, the size of the
terminal that resized last; the program's window is the other's. -/
theorem window_overtaken : ∃ m, Runs.exec winStep (openedWin 2) overtaken = some m ∧
    Runs.Guarded winStep SetsWindow (openedWin 2) overtaken ∧ Idle m ∧
    (m.shared.shared.rows, m.shared.shared.cols) = (40, 120) ∧
    lastLogged m.shared.shared.log = (40, 120) ∧ m.shared.window = (30, 100) := by
  have hend : (Runs.exec winStep (openedWin 2) overtaken).any (fun m =>
      Idle m && (m.shared.shared.rows, m.shared.shared.cols) = (40, 120) &&
        lastLogged m.shared.shared.log = (40, 120) && m.shared.window = (30, 100)) = true := by
    decide
  obtain ⟨m, hm, hview⟩ := (Option.any_eq_true ..).mp hend
  simp only [Bool.and_eq_true, decide_eq_true_eq] at hview
  exact ⟨m, hm, by decide, hview.1.1.1, hview.1.1.2, hview.1.2, hview.2⟩

end Supervisor
end Willie
