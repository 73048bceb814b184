import Willie.Supervisor.Ending

/-!
# Supervisor — between a check and its line

A thread checks the phase, the tally or the flag of the teardown, and logs
what it stands for later and under other locks. Where nobody is in between
when `finish` logs the exit, the checks refuse whoever comes later, and every
line is prompt.
-/

namespace Willie
namespace Supervisor

open Sessions (SessionEvent SessionEventKind)

variable {s s' : Shared} {id j : ℕ} {cont : List Op} {op : Op} {i : In} {m m' : State}
  {turn : ℕ × In}

/-! ## The windows -/

/-- A terminal that passed the check of its hello and has yet to be
registered, and logged. -/
def Stage.arriving : Stage → Bool
  | .snapshot .. | .replay .. | .registering .terminal => true
  | _ => false

/-- The thread is past a check, and what that stands for is still to be
logged, or to be fanned out. -/
def Op.passed (s : Shared) : Op → Bool
  | .append _ | .fanOut .. | .setCause .. | .applySize .. | .winsize .. => true
  | .welcome role .. => role == .terminal
  | .client id => (s.stage id).arriving
  | _ => false

/-- What a client's thread does unchecked, and logs: a resize, and leaving
the list as a terminal. -/
def Stage.unchecked (s : Shared) (id : ℕ) : Stage → In → Bool
  | .serving _, .frame (.resize ..) => true
  | .leaving .terminal, .go => s.clients.any (·.id = id)
  | _, _ => false

/-- **An operation is in time** for the exit: a line can be written; when the
exit is, no other thread is past a check with its line still to come, or to
be fanned out; and none goes unchecked later. The tally is no check of the
exit: after the flush it folds no call, and after the exit there is none. -/
def Op.inTime (m : State) : Op → In → Bool
  | .append _, .wrote _ ok => ok
  | .main, .wrote _ ok => ok && m.pending.all fun op => !op.passed m.shared
  | .client id, i =>
    !m.shared.main.exitLogged || !(m.shared.stage id).unchecked m.shared id i
  | .record cls name, .now now =>
    !m.shared.main.exitLogged &&
      (!m.shared.main.flushed || (m.shared.tally.record now cls name).2.isSome)
  | _, _ => true

/-- **Every thread is in time for the exit.** -/
def InTime (m : State) (turn : ℕ × In) : Prop :=
  ∀ op ∈ m.next turn.1, op.inTime m turn.2 = true

instance (m : State) (turn : ℕ × In) : Decidable (InTime m turn) :=
  inferInstanceAs (Decidable (∀ op ∈ m.next turn.1, _))

/-! ## What is checked -/

/-- The teardown has begun. -/
def Main.tornDown : Main → Bool
  | .pump | .push _ | .fanOut _ | .teardown .. => false
  | _ => true

/-- The phase is set for good. -/
def Main.phaseSet : Main → Bool
  | .logExited .. => true
  | main => main.exitLogged

/-- **What the checks read**, and once the exit is logged nobody is past one;
a stop whose cause is set was logged, or is still to be. -/
structure Checked (m : State) : Prop where
  torn : m.shared.main.tornDown = true → m.shared.tearingDown = true
  phase : m.shared.main.phaseSet = true → m.shared.phase = .exited
  shut : m.shared.main.exitLogged = true → ∀ op ∈ m.pending, op.passed m.shared = true →
    op.exits = 1
  cause : m.shared.stopCause = some .stopped → stopLogged m.shared.log = true ∨
    ∃ by_, .append (.stopRequested by_) ∈ m.pending

/-- The flag of the teardown stays set once it is. -/
theorem torn_of_run (h : run op i s = some (s', cont))
    (ht : s.main.tornDown = true → s.tearingDown = true) (ht' : s'.main.tornDown = true) :
    s'.tearingDown = true := by
  cases step_of_run h with
  | main h =>
    generalize s.main = main at h ht
    cases h with
    | read =>
      dsimp only at ht'
      split at ht' <;> cases ht'
    | hungUp | push | fanOut => cases ht'
    | teardown => rfl
    | _ => exact ht rfl
  | client h =>
    rw [h.own.rest] at ht' ⊢
    exact ht ht'
  | _ => exact ht ht'

/-- And so does the last phase: a stop is only requested while running. -/
theorem phase_of_run (h : run op i s = some (s', cont))
    (hp : s.main.phaseSet = true → s.phase = .exited) (hp' : s'.main.phaseSet = true) :
    s'.phase = .exited := by
  cases step_of_run h with
  | main h =>
    generalize s.main = main at h hp
    cases h with
    | read =>
      dsimp only at hp'
      split at hp' <;> cases hp'
    | setExited => rfl
    | hungUp | push | fanOut | teardown | flush => cases hp'
    | _ => exact hp rfl
  | client h =>
    rw [h.own.rest] at hp' ⊢
    exact hp hp'
  | requestStop hrunning =>
    rw [hp hp'] at hrunning
    cases hrunning
  | _ => exact hp hp'

theorem Main.tornDown_of_exitLogged {main : Main} (h : main.exitLogged = true) :
    main.tornDown = true := by
  cases main <;> first | rfl | cases h

theorem Main.phaseSet_of_exitLogged {main : Main} (h : main.exitLogged = true) :
    main.phaseSet = true := by
  cases main <;> first | exact h | rfl

/-! ## Nobody is past a check again -/

/-- No terminal comes to be attached but by a thread that is past a check. -/
theorem arriving_of_run (h : run op i s = some (s', cont))
    (hop : op.passed s = false ∨ ∃ line ev, op = .fanOut line ev)
    (ha : (s'.stage j).arriving = true) : (s.stage j).arriving = true := by
  cases does_of_run h with
  | main h => rwa [h.aside.stage] at ha
  | @client id i h =>
    have hnot : (s.stage id).arriving = false := hop.resolve_right fun ⟨_, _, h⟩ => nomatch h
    by_cases hj : j = id
    · subst hj
      generalize hst : s.stage j = st at h hnot
      cases h with
      | snapshot | sent | dropped | replayed => cases hnot
      | idle | resize | stop | status => exact hst ▸ ha
      | _ => simp [Stage.arriving] at ha
    · rwa [h.own.stage j hj] at ha
  | @started role rows cols hs =>
    by_cases hj : j = s.nextId + 1
    · have hnot : (role == .terminal) = false := hop.resolve_right fun ⟨_, _, h⟩ => nomatch h
      have hrole : role ≠ .terminal := by simpa using hnot
      rw [hs, hj] at ha
      cases role <;> simp [Stage.arriving] at ha hrole
    · rw [hs] at ha
      dsimp only at ha
      rwa [Function.update_of_ne hj] at ha
  | unstarted hs | fanOut hs | world hs =>
    rw [hs] at ha
    exact ha
  | quiet hs =>
    rw [hs] at ha
    exact ha

/-- **The checks refuse whoever comes once the exit is logged.** -/
theorem passed_of_run (h : run op i s = some (s', cont)) (hx : s.main.exitLogged = true)
    (htorn : s.tearingDown = true) (hphase : s.phase = .exited)
    (hop : op.passed s = true → op.exits = 1)
    (hin : ∀ id, op = .client id → (s.stage id).unchecked s id i = false)
    (hrec : ∀ cls name, op ≠ .record cls name) : ∀ o ∈ cont, o.passed s' = false := by
  cases step_of_run h with
  | main h =>
    generalize s.main = main at h hx
    cases h with
    | readCause | take | close | closed | unlink | drain | drained | shutDown | finished =>
      simp [Op.passed]
    | _ => cases hx
  | @client id i s' cont h =>
    have hnot : (s.stage id).arriving = false := by
      by_contra hne
      cases hop (Bool.eq_true_of_not_eq_false hne)
    have hin := hin id rfl
    generalize hst : s.stage id = st at h hnot hin
    cases h with
    | snapshot | sent | dropped | replayed => cases hnot
    | resize => cases hin
    | @leave role =>
      have hstay : ¬ (s.clients.any (·.id = id) ∧ role = .terminal) := by
        rintro ⟨hlisted, rfl⟩
        rw [Stage.unchecked, hlisted] at hin
        cases hin
      rw [if_neg hstay]
      simp [Op.passed, Stage.arriving]
    | @register role =>
      have hrole : role ≠ .terminal := by
        rintro rfl
        cases hnot
      rw [if_neg hrole]
      simp [Op.passed, Stage.arriving]
    | idle | stop => simp [Op.passed, hst, hnot]
    | status => simp [Op.passed, hst, Stage.arriving]
    | _ => simp [Op.passed, Stage.arriving]
  | append | setCause | applySize | winsize => cases hop rfl
  | record => exact absurd rfl (hrec _ _)
  | requestStop hrunning =>
    rw [hphase] at hrunning
    cases hrunning
  | @started role =>
    have hrole : role ≠ .terminal := by
      rintro rfl
      cases hop rfl
    simp [Op.passed, Stage.arriving, hrole]
  | hello =>
    rw [if_pos hphase]
    simp
  | failed =>
    rw [if_pos htorn]
    simp
  | _ => simp [Op.passed]

/-! ## The stop's line -/

/-- Where the stop's cause is set, its line is next. -/
theorem stopCause_of_run (h : run op i s = some (s', cont)) :
    s'.stopCause = s.stopCause ∨ ∃ by_, .append (.stopRequested by_) ∈ cont := by
  cases step_of_run h with
  | main h =>
    generalize s.main = main at h
    cases h <;> exact .inl rfl
  | client h =>
    rw [h.own.rest]
    exact .inl rfl
  | @setCause by_ => exact .inr ⟨by_, List.mem_cons_self⟩
  | _ => exact .inl rfl

theorem stopLogged_of_run (h : run op i s = some (s', cont)) (hs : stopLogged s.log = true) :
    stopLogged s'.log = true := by
  cases logs_of_run h with
  | line hop hlog =>
    rw [hlog]
    split
    · rw [stopLogged, List.any_append]
      exact Bool.or_eq_true_iff.mpr (.inl hs)
    · exact hs
  | fanOut hs' =>
    rw [hs']
    exact hs
  | other hlog =>
    rw [hlog]
    exact hs

/-! ## Every step -/

/-- Who is past a check after a step that attaches no terminal was so before. -/
theorem passed_before {o : Op} (ho : o.passed s' = true)
    (hs : ∀ j, (s'.stage j).arriving = true → (s.stage j).arriving = true) :
    o.passed s = true := by
  cases o with
  | client id => exact hs id ho
  | _ => exact ho

/-- A line to be appended is not the exit's fan-out. -/
theorem exits_append {k : SessionEventKind} : Op.exits (.append k) ≠ 1 := by simp [Op.exits]

theorem Checked.shut_step (hc : Checked m) {pre post : List Op}
    (hrun : run op i m.shared = some (m'.shared, cont)) (hold : m.pending = pre ++ op :: post)
    (hnew : m'.pending = pre ++ (cont ++ post)) (hop : op.inTime m i = true)
    (hx : m'.shared.main.exitLogged = true) :
    ∀ o ∈ m'.pending, o.passed m'.shared = true → o.exits = 1 := by
  have hmem : op ∈ m.pending := by simp [hold]
  rcases exitLogged_of_run hrun with ⟨rfl, ⟨code, signal, hm⟩, -⟩ | ⟨-, hsame⟩
  · -- the exit is logged now, and nobody is past a check
    obtain ⟨at_, ok, rfl, -, rfl⟩ := run_logExited hm hrun
    have hnone : ∀ o ∈ m.pending, o.passed m.shared = false := fun o ho => by
      simpa using List.all_eq_true.mp (Bool.and_eq_true_iff.mp hop).2 o ho
    refine Threads.forall_pending hold hnew hnone (fun o ho ho' => ?_) ?_
    · have hbefore := passed_before ho' fun j => arriving_of_run hrun (.inl rfl)
      rw [ho] at hbefore
      cases hbefore
    · simp [Op.passed, Op.exits, SessionEventKind.isEnd]
  · have hwas : m.shared.main.exitLogged = true := hsame ▸ hx
    have hshut := hc.shut hwas
    have hattach : op.passed m.shared = false ∨ ∃ line ev, op = .fanOut line ev := by
      cases ho : op.passed m.shared with
      | false => exact .inl rfl
      | true =>
        have hone := hshut op hmem ho
        by_contra hno
        rw [not_or, not_exists] at hno
        rw [exits_eq_zero fun line ev he => hno.2 line ⟨ev, he⟩] at hone
        cases hone
    refine Threads.forall_pending hold hnew hshut (fun o ho ho' => ho (passed_before ho' fun j =>
      arriving_of_run hrun hattach)) fun o ho ho' => ?_
    have hnot := passed_of_run hrun hwas (hc.torn (Main.tornDown_of_exitLogged hwas))
      (hc.phase (Main.phaseSet_of_exitLogged hwas)) (hshut op hmem) (fun id he => ?_)
      (fun cls name he => ?_) o ho
    · rw [hnot] at ho'
      cases ho'
    · subst he
      simpa [Op.inTime, hwas] using hop
    · subst he
      generalize m'.shared = s' at hrun
      cases step_of_run hrun
      simp [Op.inTime, hwas] at hop

theorem Checked.cause_step (hc : Checked m) {pre post : List Op}
    (hrun : run op i m.shared = some (m'.shared, cont)) (hold : m.pending = pre ++ op :: post)
    (hnew : m'.pending = pre ++ (cont ++ post)) (hop : op.inTime m i = true)
    (hcause : m'.shared.stopCause = some .stopped) :
    stopLogged m'.shared.log = true ∨ ∃ by_, .append (.stopRequested by_) ∈ m'.pending := by
  rcases stopCause_of_run hrun with hsame | ⟨by_, ho⟩
  · rcases hc.cause (hsame ▸ hcause) with hlogged | ⟨by_, ho⟩
    · exact .inl (stopLogged_of_run hrun hlogged)
    · rw [hold] at ho
      simp only [List.mem_append, List.mem_cons] at ho
      rcases ho with ho | rfl | ho
      · exact .inr ⟨by_, by simp [hnew, ho]⟩
      · -- its line is written now
        generalize m'.shared = s' at hrun
        cases step_of_run hrun with
        | @append kind at_ ok =>
          obtain rfl : ok = true := hop
          exact .inl (by simp [Shared.append, stopLogged])
      · exact .inr ⟨by_, by simp [hnew, ho]⟩
  · exact .inr ⟨by_, by simp [hnew, ho]⟩

theorem Checked.step (hc : Checked m) (hok : InTime m turn) (h : Supervisor.step m turn = some m') :
    Checked m' := by
  obtain ⟨op, cont, pre, post, hnext, hrun, hold, hnew⟩ := Threads.step_pending h
  have hop := hok op hnext
  exact ⟨torn_of_run hrun hc.torn, phase_of_run hrun hc.phase,
    fun hx => hc.shut_step hrun hold hnew hop hx,
    fun hcause => hc.cause_step hrun hold hnew hop hcause⟩

/-- **So every line is prompt.** -/
theorem Checked.prompt (hc : Checked m) (he : Ending m) (hok : InTime m turn)
    (h : Supervisor.step m turn = some m') : Prompt m turn := by
  intro op hnext
  have hop := hok op hnext
  have hmem := Threads.next_mem hnext
  obtain ⟨op', cont, pre, post, hnext', hrun, -, -⟩ := Threads.step_pending h
  obtain rfl : op = op' := Option.some.inj (hnext.symm.trans hnext')
  generalize turn.2 = i at hrun hop ⊢
  generalize m'.shared = s' at hrun
  have hshut (hx : m.shared.main.exitLogged = true) (ho : op.passed m.shared = true) :
      op.exits = 1 := hc.shut hx op hmem ho
  cases op with
  | append k =>
    cases step_of_run hrun with
    | append =>
      have hopen : m.shared.main.exitLogged = false := by
        by_contra hx
        exact exits_append (hshut (Bool.eq_true_of_not_eq_false hx) rfl)
      exact Bool.and_eq_true_iff.mpr ⟨hop, by rw [he.before hopen]; rfl⟩
  | main =>
    have h := mainStep_of_runMain hrun
    generalize hm : m.shared.main = main at h
    cases h with
    | logExited => exact (Bool.and_eq_true_iff.mp hop).1
    | readCause =>
      -- nobody is between the cause and its line
      simp only [Op.prompt, hm, Main.causeLogged, Bool.or_eq_true, bne_iff_ne, ne_eq]
      by_cases hcause : m.shared.stopCause = some .stopped
      · refine .inr ((hc.cause hcause).resolve_right ?_)
        rintro ⟨by_, ho⟩
        exact exits_append (hc.shut (by rw [hm]; rfl) _ ho rfl)
      · exact .inl hcause
    | push | teardown | setExited | take | close | closed | unlink | shutDown | finished =>
      simp [Op.prompt, hm, Main.causeLogged]
    | _ => rfl
  | fanOut line ev =>
    cases step_of_run hrun with
    | fanOut =>
      cases hx : m.shared.main.exitLogged with
      | false => simp [Op.prompt, hx]
      | true =>
        have hend := hshut hx rfl
        simp only [Op.exits] at hend
        split at hend
        · simp [Op.prompt, *]
        · cases hend
  | record cls name =>
    cases step_of_run hrun with
    | record => exact (Bool.and_eq_true_iff.mp hop).2
  | _ => rfl

end Supervisor
end Willie
