import Willie.Supervisor.Ending

/-!
# Supervisor — who hears of the exit

The main thread logs the exit, fans it out and only then takes the list; a
thread does its operations one after the other, and there is one main thread.
So every control client that it finds on the list was sent the exit, or came
too late to be sent anything.
-/

namespace Willie
namespace Supervisor

open Sessions (SessionEvent SessionEventKind)

variable {s s' : Shared} {id j : ℕ} {cont : List Op} {op : Op} {i : In} {m m' : State}
  {turn : ℕ × In} {k : ℕ}

/-- The main thread's operation. -/
def Op.mains : Op → ℕ
  | .main => 1
  | _ => 0

theorem mains_of_run (h : run op i s = some (s', cont)) :
    (cont.map Op.mains).sum ≤ op.mains := by
  have hzero {l : List Op} (hl : ∀ o ∈ l, o ≠ .main) : (l.map Op.mains).sum = 0 := by
    refine Threads.sum_eq_zero fun o ho => ?_
    cases o with
    | main => exact absurd rfl (hl _ ho)
    | _ => rfl
  have hlast {l : List Op} (hl : ∀ o ∈ l, o ≠ .main) : ((l ++ [Op.main]).map Op.mains).sum = 1 := by
    rw [List.map_append, List.sum_append, hzero hl]
    rfl
  cases step_of_run h with
  | main h =>
    generalize s.main = main at h
    cases h with
    | read | fanOut | flush => exact (hlast (by simp)).le
    | _ => simp [Op.mains]
  | client h =>
    refine (hzero fun o ho => ?_).le
    generalize s.stage _ = st at h
    cases h <;> grind
  | _ => exact (hzero (by grind)).le

/-- **The main thread fans the exit out before it goes on.** -/
structure Alone (m : State) : Prop where
  one : m.load Op.mains ≤ 1
  waits : m.load Op.exits = 1 → ∃ line ev rest, .fanOut line ev :: .main :: rest ∈ m.threads ∧
    ev.kind.isEnd = true
  reads : m.load Op.exits = 1 → ∃ code signal, m.shared.main = .readCause code signal

/-- Until then it does nothing else. -/
theorem Alone.next_ne (ha : Alone m) (hx : m.load Op.exits = 1) : m.next k ≠ some .main := by
  intro hnext
  obtain ⟨line, ev, rest, ht, -⟩ := ha.waits hx
  have hhead := Threads.next_of_load_le_one ha.one hnext Nat.one_pos ht
    (List.mem_cons_of_mem _ List.mem_cons_self) Nat.one_pos
  cases hhead

/-- The exit comes to be fanned out where it is logged. -/
theorem Ending.logs_exit (he : Ending m) (hmem : op ∈ m.pending)
    (hrun : run op i m.shared = some (s', cont)) (hpos : 0 < (cont.map Op.exits).sum) :
    op = .main ∧ ∃ code signal line ev, m.shared.main = .logExited code signal ∧
      s'.main = .readCause code signal ∧ cont = [.fanOut line ev, .main] ∧
      ev.kind.isEnd = true := by
  cases logs_of_run hrun with
  | @line op at_ ok kind rest hkind hlog htold hcont hrest =>
    rcases hkind with rfl | ⟨rfl, code, signal, hm, rfl⟩
    · have hk := he.appends _ hmem kind rfl
      rw [hcont, List.map_cons, List.sum_cons, sum_exits hrest, Op.exits, hk] at hpos
      exact absurd hpos (Nat.lt_irrefl 0)
    · obtain ⟨-, -, -, hm', rfl⟩ := run_logExited hm hrun
      exact ⟨rfl, code, signal, _, _, hm, hm', rfl, rfl⟩
  | fanOut hs hc =>
    rw [hc] at hpos
    exact absurd hpos (Nat.lt_irrefl 0)
  | other hlog htold hop happ hcont =>
    rw [sum_exits_eq_zero hcont] at hpos
    exact absurd hpos (Nat.lt_irrefl 0)

theorem Alone.step (ha : Alone m) (he : Ending m) (h : step m turn = some m') : Alone m' := by
  obtain ⟨op, cont, pre, post, hnext, hrun, hold, hnew⟩ := Threads.step_pending h
  have hload := Threads.load_step (f := Op.mains) hold hnew
  have hexits := Threads.load_step (f := Op.exits) hold hnew
  have hmains := mains_of_run hrun
  have hlogs := he.logs_exit (Threads.next_mem hnext) hrun
  have hone := ha.one
  obtain ⟨op', cont', rest, hthread, hnext', hrun', hthreads⟩ := Threads.step_threads h
  obtain rfl : op = op' := Option.some.inj (hnext.symm.trans hnext')
  obtain rfl : cont = cont' := (Prod.mk.inj (Option.some.inj (hrun.symm.trans hrun'))).2
  have hin : turn.1 < m.threads.length := (List.getElem?_eq_some_iff.mp hthread).1
  have hwas (hx : m'.load Op.exits = 1) (hpos : ¬ 0 < (cont.map Op.exits).sum) :
      m.load Op.exits = 1 := by
    have honce := he.once
    split at honce <;> omega
  refine ⟨by omega, fun hx => ?_, fun hx => ?_⟩
  · by_cases hpos : 0 < (cont.map Op.exits).sum
    · obtain ⟨-, code, signal, line, ev, -, -, rfl, hend⟩ := hlogs hpos
      refine ⟨line, ev, rest, ?_, hend⟩
      rw [hthreads]
      exact List.mem_set hin _
    · obtain ⟨line, ev, rest', ht, hend⟩ := ha.waits (hwas hx hpos)
      refine ⟨line, ev, rest', ?_, hend⟩
      rw [hthreads]
      refine Threads.mem_set ht fun heq => ?_
      obtain ⟨rfl, -⟩ := List.cons.inj (Option.some.inj (hthread.symm.trans heq))
      have hop : Op.exits (.fanOut line ev) = 1 := if_pos hend
      omega
  · by_cases hpos : 0 < (cont.map Op.exits).sum
    · obtain ⟨-, code, signal, -, -, -, hm, -⟩ := hlogs hpos
      exact ⟨code, signal, hm⟩
    · rw [(main_of_run hrun fun hop => ha.next_ne (hwas hx hpos) (hop ▸ hnext)).1]
      exact ha.reads (hwas hx hpos)

/-! ## Who hears of it -/

/-- Every control client on the list, or taken from it, heard of the exit, or
came after it was fanned out. -/
structure Heard (m : State) : Prop where
  early : ∀ j, (m.shared.stage j).early = true → events (m.shared.queue j) = []
  taken : m.shared.main.exitLogged = false ∨ m.load Op.exits = 1 → m.shared.taken = []
  heard : m.shared.main.exitLogged = true → m.load Op.exits = 0 →
    ∀ j, ⟨j, .control⟩ ∈ m.shared.clients ++ m.shared.taken → events (m.shared.queue j) = [] ∨
      ∃ pre ev, events (m.shared.queue j) = pre ++ [ev] ∧ ev.kind.isEnd = true

/-- Only the step that takes the list adds to what was taken. -/
theorem taken_of_run (h : run op i s = some (s', cont)) :
    s'.taken = s.taken ∨ op = .main ∧ ∃ c, s.main = .take c := by
  by_cases hop : op = .main
  · subst hop
    have h := mainStep_of_runMain h
    generalize s.main = main at h
    cases h with
    | @take c => exact .inr ⟨rfl, c, rfl⟩
    | _ => exact .inl rfl
  · exact .inl (main_of_run h hop).2

/-- Who is on the list, or was taken, was before, or is registered now. -/
theorem known_of_run {role : Role} (hn : Numbered s) (h : run op i s = some (s', cont))
    (hmem : ⟨j, role⟩ ∈ s'.clients ++ s'.taken) :
    ⟨j, role⟩ ∈ s.clients ++ s.taken ∨ (s.stage j).early = true := by
  rcases List.mem_append.mp hmem with hc | ht
  · rcases listed_of_run hn h hc with ⟨hc, -⟩ | ⟨-, -, hst, -⟩
    · exact .inl (List.mem_append_left _ hc)
    · exact .inr (by rw [hst]; rfl)
  · by_cases hop : op = .main
    · subst hop
      exact .inl (List.mem_append.mpr ((mainStep_of_runMain h).aside.taken _ ht).symm)
    · rw [(main_of_run h hop).2] at ht
      exact .inl (List.mem_append_right _ ht)

/-- The list is not taken before the exit is fanned out. -/
theorem Heard.taken_step (hh : Heard m) (ha : Alone m) (he : Ending m)
    (hnext : m.next k = some op) (hrun : run op i m.shared = some (m'.shared, cont))
    (hload : m'.load Op.exits + op.exits = m.load Op.exits + (cont.map Op.exits).sum)
    (hx : m'.shared.main.exitLogged = false ∨ m'.load Op.exits = 1) : m'.shared.taken = [] := by
  have hlogs := he.logs_exit (Threads.next_mem hnext) hrun
  have hmain := exitLogged_of_run hrun
  have honce := he.once
  rcases taken_of_run hrun with hsame | ⟨rfl, c, hc⟩
  · rw [hsame]
    refine hh.taken ?_
    rcases hx with hx | hx
    · rcases hmain with ⟨-, -, hx'⟩ | ⟨-, hx'⟩
      · rw [hx] at hx'
        cases hx'
      · exact .inl (hx' ▸ hx)
    · by_cases hpos : 0 < (cont.map Op.exits).sum
      · obtain ⟨-, code, signal, -, -, hm, -⟩ := hlogs hpos
        exact .inl (by rw [hm]; rfl)
      · refine .inr ?_
        split at honce <;> omega
  · exfalso
    rcases hx with hx | hx
    · rcases hmain with ⟨-, -, hx'⟩ | ⟨-, hx'⟩
      · rw [hx] at hx'
        cases hx'
      · rw [hx, hc] at hx'
        cases hx'
    · have hpos : ¬ 0 < (cont.map Op.exits).sum := fun hpos => by
        obtain ⟨-, code, signal, -, -, hm, -⟩ := hlogs hpos
        rw [hc] at hm
        cases hm
      exact ha.next_ne (by split at honce <;> omega) hnext

/-- Once the exit is fanned out, no line follows it, and no event. -/
theorem Heard.heard_step (hh : Heard m) (he : Ending m) (hn : Numbered m.shared)
    (hnext : m.next k = some op) (hrun : run op i m.shared = some (m'.shared, cont))
    (hload : m'.load Op.exits + op.exits = m.load Op.exits + (cont.map Op.exits).sum)
    (hop : op.prompt m i = true) (hx : m'.shared.main.exitLogged = true)
    (hzero : m'.load Op.exits = 0)
    (hmem : ⟨j, .control⟩ ∈ m'.shared.clients ++ m'.shared.taken) :
    events (m'.shared.queue j) = [] ∨
      ∃ pre ev, events (m'.shared.queue j) = pre ++ [ev] ∧ ev.kind.isEnd = true := by
  have hmain := exitLogged_of_run hrun
  cases hcases : logs_of_run hrun with
  | @line op at_ ok kind rest hkind hlog htold hcont hrest =>
    exfalso
    rcases hkind with rfl | ⟨rfl, code, signal, hm, rfl⟩
    · have hopen := (Bool.and_eq_true_iff.mp hop).2
      rw [he.ended_eq] at hopen
      rcases hmain with ⟨hne, -⟩ | ⟨-, hsame⟩
      · cases hne
      · rw [← hsame, hx] at hopen
        cases hopen
    · have hone : (cont.map Op.exits).sum = 1 := by
        rw [hcont, List.map_cons, List.sum_cons, sum_exits hrest]
        rfl
      have hmains : Op.exits .main = 0 := rfl
      omega
  | @fanOut line ev refused hs hc =>
    have hsame : m'.shared.main.exitLogged = m.shared.main.exitLogged := by rw [hs]; rfl
    have hlogged : m.shared.main.exitLogged = true := hsame ▸ hx
    have honce := he.once
    rw [hlogged, if_pos rfl] at honce
    rw [hc, List.map_nil, List.sum_nil] at hload
    cases hend : ev.kind.isEnd with
    | true =>
      have hone : Op.exits (.fanOut line ev) = 1 := if_pos hend
      have hnone : m'.shared.taken = [] := by
        rw [hs]
        exact hh.taken (.inr (by omega))
      rw [hnone, List.append_nil] at hmem
      rw [hs] at hmem ⊢
      rw [events_fanOutEvent, if_pos hmem]
      exact .inr ⟨_, ev, rfl, hend⟩
    | false =>
      -- it would come after the exit
      exfalso
      have hop' : Op.exits (.fanOut line ev) = 0 := if_neg (by simp [hend])
      rw [Op.prompt, hend, hlogged] at hop
      obtain ⟨o, ho, hone⟩ := List.any_eq_true.mp hop
      have hload' := (he.load_exits ho (of_decide_eq_true hone)).1
      omega
  | other hlog htold hop' happ hcont' =>
    have hevents := events_of_run (j := j) hrun hop'
    have hsame := exitLogged_of_quiet hrun hcont'
    have hsum := sum_exits_eq_zero hcont'
    have hwas : m.load Op.exits = 0 := by
      have hzero' := exits_eq_zero hop'
      omega
    rw [hevents]
    rcases known_of_run hn hrun hmem with hknown | hearly
    · exact hh.heard (hsame ▸ hx) hwas j hknown
    · exact .inl (hh.early j hearly)

theorem Heard.step (hh : Heard m) (ha : Alone m) (he : Ending m) (hn : Numbered m.shared)
    (hok : Prompt m turn) (h : step m turn = some m') : Heard m' := by
  obtain ⟨op, cont, pre, post, hnext, hrun, hold, hnew⟩ := Threads.step_pending h
  have hload := Threads.load_step (f := Op.exits) hold hnew
  exact ⟨fun j => early_events_of_run hn hh.early hrun,
    hh.taken_step ha he hnext hrun hload,
    fun hx hzero j => hh.heard_step he hn hnext hrun hload (hok op hnext) hx hzero⟩

end Supervisor
end Willie
