import Willie.Sessions.System

/-!
# Sessions — no phantom running session

Once every thread of the daemon about a session has finished, nobody will
change the session's record any more. Somebody attends a session that is not
terminal while its reader reads or its finaliser has not decided.
-/

namespace Willie
namespace Sessions

variable {spec : SessionSpec} {w w' : World} {act : Act} {acts : List Act} {st : State}
variable {log : List SessionEvent} {found : Bool} {at_ : String} {id : SessionId} {d : Daemon}

/-- Every thread of the daemon about the session has finished. -/
def Daemon.Finished (d : Daemon) : Prop :=
  d.main = .done ∧ d.reader ≠ .reading ∧ (d.finaliser = .idle ∨ d.finaliser = .done)

/-- The session, if the daemon has it, is terminal. -/
def State.Ended (st : State) (id : SessionId) : Prop :=
  ∀ s, st.get id = some s → s.state.isTerminal = true

/-- The session is terminal in memory. -/
def State.terminal (st : State) (id : SessionId) : Bool :=
  (st.get id).any fun s => s.state.isTerminal

/-- No process of the session's supervisor is there. -/
def Supervisor.Gone (sup : Supervisor) : Prop := sup.stage = .absent ∨ sup.stage = .gone

/-- **The session ends with its supervisor**: once that is gone and every thread
of the daemon about the session has finished, the session is terminal. -/
def World.EndsWith (w : World) (id : SessionId) : Prop :=
  w.sup.Gone → w.daemon.Finished → w.daemon.state.Ended id

/-- So it does here, and if the supervisor is killed here. -/
def World.EndsKilled (spec : SessionSpec) (w : World) : Prop :=
  w.EndsWith spec.id ∧
    ∀ kept w', w.step spec (.sup (.die kept)) = some w' → w'.EndsWith spec.id

/-- The daemon has the session, and it is not terminal. -/
def State.Open (st : State) (id : SessionId) : Prop :=
  ∃ s, st.get id = some s ∧ s.state.isTerminal = false

/-- Nobody is left to end the session: the threads have finished, and it is
not terminal. -/
def Daemon.Phantom (d : Daemon) (id : SessionId) : Prop := d.Finished ∧ ¬ d.state.Ended id

/-- A reader's end is noticed: the finaliser waits for it, or there is nothing
left to do. -/
def Daemon.Noticed (d : Daemon) (id : SessionId) : Prop :=
  d.finaliser ≠ .idle ∨ d.state.terminal id = true

/-- **What keeps a session attended**: the daemon's connection to a session
that was announced or adopted succeeds, one of its two threads starts, the
reader's end is noticed, and the finaliser is not answered and finds the
session's directory. -/
def Attended (spec : SessionSpec) (w : World) : Act → Prop
  | .daemon (.connect ok) => w.daemon.main = .watch → ok = true
  | .daemon (.threads reader finaliser) =>
    w.daemon.main = .threads → reader = true ∨ finaliser = true
  | .daemon .read =>
    w.daemon.reader = .reading ∧ w.link.frames.head? = some .closed → w.daemon.Noticed spec.id
  | .daemon .hangUp => w.daemon.reader = .reading → w.daemon.Noticed spec.id
  | .daemon (.finalise answers found _) =>
    w.daemon.finaliser = .probing → if answers then w.sup.stage.answers = false else found = true
  | _ => True

/-- **What every step keeps** of the daemon: before its main thread is done
there are no others, a scan has no record until it adopts one, and a session
that is to be watched or asked about is open. -/
structure Daemon.Inv (id : SessionId) (d : Daemon) : Prop where
  alone : d.main ≠ .done → d.reader = .idle ∧ d.finaliser = .idle
  scanning : d.main = .scan ∨ (∃ s, d.main = .probe s) → d.state.get id = none
  probed : ∀ s, d.main = .probe s → s.id = id
  reading : d.reader = .reading → d.finaliser = .idle ∨ d.finaliser = .joining
  watching : d.main = .watch ∨ d.main = .threads → d.state.Open id
  known : d.reader = .reading ∨ d.finaliser ≠ .idle → d.state.get id ≠ none
  probing : d.finaliser = .probing → d.state.Open id

/-! ## What becomes of the record -/

theorem State.ended_of_terminal (h : st.terminal id = true) : st.Ended id := by
  intro s hs
  simpa [State.terminal, hs] using h

theorem State.ended_of_none (h : st.get id = none) : st.Ended id := by
  intro s hs
  rw [h] at hs
  cases hs

theorem State.ended_upsert {s : Session} (hid : s.id = id)
    (h : s.state.isTerminal = true) : (st.upsertSession s).Ended id := by
  intro t ht
  rw [State.get_upsertSession_of hid] at ht
  obtain rfl := Option.some.inj ht
  exact h

/-- **Finalising ends the session**, where its directory is found. -/
theorem ended_finaliseLost (h : found = true ∨ st.get spec.id = none) :
    (finaliseLost spec log found at_ st).Ended spec.id := by
  unfold finaliseLost
  cases found with
  | false => exact State.ended_of_none (h.resolve_left (by decide))
  | true =>
    rw [if_pos rfl]
    cases hlog : (fromLog spec log).state.isTerminal with
    | true => exact State.ended_upsert (by simp [hlog, fromLog_id]) (by simp [hlog])
    | false =>
      refine State.ended_upsert (by simp [hlog, fromLog_id]) ?_
      simp only [hlog, Bool.false_eq_true, if_false]
      exact applyEvent_end rfl

/-- What is announced or adopted is running. -/
theorem State.open_upsert {s : Session} (hid : s.id = id) (h : s.state.isTerminal = false) :
    (st.upsertSession s).Open id :=
  ⟨s, State.get_upsertSession_of hid, h⟩

theorem known_finaliseLost (h : st.get spec.id ≠ none) :
    (finaliseLost spec log found at_ st).get spec.id ≠ none := by
  unfold finaliseLost
  split
  · rw [State.get_upsertSession_of]
    · simp
    · split
      · exact fromLog_id
      · simp [fromLog_id]
  · exact h

/-! ## Steps -/

/-- While its main thread is not done, the daemon has no other. -/
theorem Daemon.Inv.of_main (hreader : d.reader = .idle) (hfin : d.finaliser = .idle)
    (hscan : d.main = .scan ∨ (∃ s, d.main = .probe s) → d.state.get id = none)
    (hprobed : ∀ s, d.main = .probe s → s.id = id)
    (hwatch : d.main = .watch ∨ d.main = .threads → d.state.Open id) : d.Inv id where
  alone _ := ⟨hreader, hfin⟩
  scanning := hscan
  probed := hprobed
  reading _ := .inl hfin
  watching := hwatch
  known h := by simp [hreader, hfin] at h
  probing h := by simp [hfin] at h

/-- Once it is done, what is left to be known is about the others. -/
theorem Daemon.Inv.of_done (hmain : d.main = .done)
    (reading : d.reader = .reading → d.finaliser = .idle ∨ d.finaliser = .joining)
    (known : d.reader = .reading ∨ d.finaliser ≠ .idle → d.state.get id ≠ none)
    (probing : d.finaliser = .probing → d.state.Open id) : d.Inv id where
  alone h := absurd hmain h
  scanning h := by simp [hmain] at h
  probed s h := by simp [hmain] at h
  reading := reading
  watching h := by simp [hmain] at h
  known := known
  probing := probing

/-- A main thread that is done without having started the others. -/
theorem Daemon.Inv.of_idle (hmain : d.main = .done) (hreader : d.reader = .idle)
    (hfin : d.finaliser = .idle) : d.Inv id :=
  .of_done hmain (fun _ => .inl hfin) (fun h => by simp [hreader, hfin] at h)
    fun h => by simp [hfin] at h

theorem Daemon.Inv.done_of_reading (h : d.Inv id) (hreader : d.reader = .reading) :
    d.main = .done := by
  by_contra hne
  rw [(h.alone hne).1] at hreader
  cases hreader

theorem Daemon.Inv.done_of_finaliser (h : d.Inv id) (hfin : d.finaliser ≠ .idle) :
    d.main = .done := by
  by_contra hne
  exact hfin (h.alone hne).2

theorem Daemon.Inv.not_reading (h : d.Inv id) (hidle : d.finaliser ≠ .idle)
    (hjoining : d.finaliser ≠ .joining) : d.reader ≠ .reading := by
  intro hr
  rcases h.reading hr with hfin | hfin
  · exact hidle hfin
  · exact hjoining hfin

theorem Daemon.not_phantom_of_main (h : d.main ≠ .done) : ¬ d.Phantom id :=
  fun hp => h hp.1.1

theorem Daemon.not_phantom_of_ended (h : d.state.Ended id) : ¬ d.Phantom id :=
  fun hp => hp.2 h

theorem State.Open.not_ended (h : st.Open id) : ¬ st.Ended id := by
  obtain ⟨s, hs, hopen⟩ := h
  intro hend
  rw [hend s hs] at hopen
  cases hopen

/-- The reader's end leaves a phantom exactly if it is not noticed. -/
theorem Daemon.Inv.reader_ends (h : d.Inv id) (hreader : d.reader = .reading) :
    Daemon.Inv id { d with reader := .ended } ∧
      (d.Noticed id ↔ ¬ Daemon.Phantom { d with reader := .ended } id) := by
  have hmain := h.done_of_reading hreader
  refine ⟨.of_done hmain nofun (fun _ => h.known (.inl hreader)) h.probing, ?_, fun hp => ?_⟩
  · rintro (hfin | hend) ⟨⟨-, -, hidle⟩, hopen⟩
    · have hjoining := (h.reading hreader).resolve_left hfin
      simp [hjoining] at hidle
    · exact hopen (State.ended_of_terminal hend)
  · by_contra hun
    obtain ⟨hidle, hopen⟩ := not_or.mp hun
    refine hp ⟨⟨hmain, nofun, .inl (not_not.mp hidle)⟩, fun hend => hopen ?_⟩
    obtain ⟨s, hs⟩ := Option.ne_none_iff_exists'.mp (h.known (.inl hreader))
    simpa [State.terminal, hs] using hend s hs

/-! ## What each step does -/

/-- A step keeps the invariant, and if it keeps the session attended it leaves
no phantom. -/
def Tended (spec : SessionSpec) (w : World) (act : Act) (w' : World) : Prop :=
  w'.daemon.Inv spec.id ∧
    (¬ w.daemon.Phantom spec.id → Attended spec w act → ¬ w'.daemon.Phantom spec.id)

/-- A main thread that goes on is attending the session. -/
theorem Tended.of_main (h : w'.daemon.Inv spec.id) (hmain : w'.daemon.main ≠ .done) :
    Tended spec w act w' :=
  ⟨h, fun _ _ => Daemon.not_phantom_of_main hmain⟩

/-- A session that has ended needs nobody. -/
theorem Tended.of_ended (h : w'.daemon.Inv spec.id) (hend : w'.daemon.state.Ended spec.id) :
    Tended spec w act w' :=
  ⟨h, fun _ _ => Daemon.not_phantom_of_ended hend⟩

/-- **A `create` that fails ends the session.** -/
theorem Tended.failed {code text : String} {d : Daemon} (hmain : d.main = .done)
    (hreader : d.reader = .idle) (hfin : d.finaliser = .idle)
    (hstate : d.state = st.upsertSession (applyEvent (fromLog spec []) ⟨at_, .failed code text⟩)) :
    Tended spec w act { w with daemon := d } := by
  refine .of_ended (.of_idle hmain hreader hfin) ?_
  rw [hstate]
  exact State.ended_upsert (by simp [fromLog_id]) (applyEvent_end rfl)

theorem Daemon.Inv.answer (h : w.daemon.Inv spec.id)
    (hstep : w.daemonStep spec (.answer at_) = some w') :
    Tended spec w (.daemon (.answer at_)) w' := by
  simp only [World.daemonStep, Option.ite_none_right_eq_some, Option.some.injEq] at hstep
  obtain ⟨⟨hmain, -⟩, rfl⟩ := hstep
  obtain ⟨hreader, hfin⟩ := h.alone (by simp [hmain])
  cases hready : readiness w.sup.reply w.sup.logFile with
  | ok pid =>
    refine .of_main (.of_main hreader hfin (by simp) (by simp) fun _ => ?_) (by simp)
    exact State.open_upsert (by simp [fromLog_id]) rfl
  | fail code text => exact .failed rfl hreader hfin rfl

theorem Daemon.Inv.launcherFails {line : Text} (h : w.daemon.Inv spec.id)
    (hstep : w.daemonStep spec (.launcherFails at_ line) = some w') :
    Tended spec w (.daemon (.launcherFails at_ line)) w' := by
  simp only [World.daemonStep, Option.ite_none_right_eq_some] at hstep
  obtain ⟨hmain, hstep⟩ := hstep
  obtain ⟨hreader, hfin⟩ := h.alone (by simp [hmain])
  split at hstep
  · cases hstep
  · obtain rfl := Option.some.inj hstep
    exact .failed rfl hreader hfin rfl

theorem Daemon.Inv.connect {ok : Bool} (h : w.daemon.Inv spec.id)
    (hstep : w.daemonStep spec (.connect ok) = some w') :
    Tended spec w (.daemon (.connect ok)) w' := by
  simp only [World.daemonStep, Option.ite_none_right_eq_some] at hstep
  obtain ⟨hmain, hstep⟩ := hstep
  obtain ⟨hreader, hfin⟩ := h.alone (by simp [hmain])
  cases ok with
  | false =>
    obtain rfl := Option.some.inj hstep
    refine ⟨.of_idle rfl hreader hfin, fun _ hok => ?_⟩
    exact absurd (hok hmain) (by decide)
  | true =>
    simp only [if_true, Option.ite_none_right_eq_some, Option.some.injEq] at hstep
    obtain ⟨-, rfl⟩ := hstep
    refine .of_main (.of_main hreader hfin (by simp) (by simp) fun _ => ?_) (by simp)
    exact h.watching (.inl hmain)

/-- Either thread attends the session. -/
theorem Daemon.Inv.threads {reader finaliser : Bool} (h : w.daemon.Inv spec.id)
    (hstep : w.daemonStep spec (.threads reader finaliser) = some w') :
    Tended spec w (.daemon (.threads reader finaliser)) w' := by
  simp only [World.daemonStep, Option.ite_none_right_eq_some, Option.some.injEq] at hstep
  obtain ⟨hmain, rfl⟩ := hstep
  obtain ⟨s, hs, -⟩ := h.watching (.inr hmain)
  refine ⟨.of_done rfl (fun _ => ?_) (fun _ => by simp [hs]) fun hp => ?_, fun _ hok => ?_⟩
  · cases finaliser with
    | true => exact .inr rfl
    | false => exact .inl rfl
  · cases finaliser with
    | true => cases hp
    | false => cases hp
  · rintro ⟨⟨-, hreader, hfin⟩, -⟩
    rcases hok hmain with rfl | rfl
    · exact hreader rfl
    · simp at hfin

theorem Daemon.Inv.load {readable : Bool} (h : w.daemon.Inv spec.id)
    (hstep : w.daemonStep spec (.load readable) = some w') :
    Tended spec w (.daemon (.load readable)) w' := by
  simp only [World.daemonStep, Option.ite_none_right_eq_some] at hstep
  obtain ⟨hmain, hstep⟩ := hstep
  obtain ⟨hreader, hfin⟩ := h.alone (by simp [hmain])
  have hnone := h.scanning (.inl hmain)
  cases readable with
  | false =>
    obtain rfl := Option.some.inj hstep
    exact .of_ended (.of_idle rfl hreader hfin) (State.ended_of_none hnone)
  | true =>
    simp only [if_true] at hstep
    cases hend : (fromLog spec w.sup.log).state.isTerminal with
    | true =>
      simp only [hend, if_true, Option.some.injEq] at hstep
      subst hstep
      refine .of_ended (.of_idle rfl hreader hfin) fun s hs => ?_
      rw [State.get_insertSession_of fromLog_id] at hs
      obtain rfl := Option.some.inj hs
      exact hend
    | false =>
      simp only [hend, Bool.false_eq_true, if_false, Option.some.injEq] at hstep
      subst hstep
      refine .of_main (.of_main hreader hfin (fun _ => hnone) (fun t ht => ?_) (by simp)) (by simp)
      obtain rfl := Main.probe.inj ht
      exact fromLog_id

theorem Daemon.Inv.probe {answers : Bool} (h : w.daemon.Inv spec.id)
    (hstep : w.daemonStep spec (.probe answers found at_) = some w') :
    Tended spec w (.daemon (.probe answers found at_)) w' := by
  simp only [World.daemonStep] at hstep
  split at hstep
  · rename_i session hmain
    obtain ⟨hreader, hfin⟩ := h.alone (by simp [hmain])
    have hnone := h.scanning (.inr ⟨session, hmain⟩)
    cases answers with
    | false =>
      obtain rfl := Option.some.inj hstep
      exact .of_ended (.of_idle rfl hreader hfin) (ended_finaliseLost (.inr hnone))
    | true =>
      simp only [if_true, Option.ite_none_right_eq_some, Option.some.injEq] at hstep
      obtain ⟨-, rfl⟩ := hstep
      refine .of_main (.of_main hreader hfin (by simp) (by simp) fun _ => ?_) (by simp)
      exact State.open_upsert (h.probed session hmain) rfl
  · cases hstep

theorem Daemon.Inv.read (h : w.daemon.Inv spec.id) (hstep : w.daemonStep spec .read = some w') :
    Tended spec w (.daemon .read) w' := by
  simp only [World.daemonStep, Option.ite_none_right_eq_some] at hstep
  obtain ⟨hreader, hstep⟩ := hstep
  have hmain := h.done_of_reading hreader
  split at hstep
  · obtain rfl := Option.some.inj hstep
    refine ⟨.of_done hmain h.reading (fun _ => by simp [State.get_onEvent]) fun hp => ?_,
      fun _ _ hp => hp.1.2.1 hreader⟩
    -- a finaliser that asks has seen the reader end
    rcases h.reading hreader with hfin | hfin
    · simp [hfin] at hp
    · simp [hfin] at hp
  · rename_i frames hframes
    obtain rfl := Option.some.inj hstep
    obtain ⟨hinv, hnoticed⟩ := h.reader_ends hreader
    exact ⟨hinv, fun _ hok => hnoticed.mp (hok ⟨hreader, by rw [hframes]; rfl⟩)⟩
  · cases hstep

theorem Daemon.Inv.join (h : w.daemon.Inv spec.id) (hstep : w.daemonStep spec .join = some w') :
    Tended spec w (.daemon .join) w' := by
  simp only [World.daemonStep, Option.ite_none_right_eq_some, Option.some.injEq] at hstep
  obtain ⟨⟨hfin, hreader⟩, rfl⟩ := hstep
  have hmain := h.done_of_finaliser (by simp [hfin])
  obtain ⟨s, hs⟩ := Option.ne_none_iff_exists'.mp (h.known (.inr (by simp [hfin])))
  cases hend : s.state.isTerminal with
  | true =>
    simp only [hs, Option.any_some, hend, if_true]
    refine .of_ended
      (.of_done hmain (fun hr => absurd hr hreader) (fun _ => by simp [hs]) nofun) ?_
    exact State.ended_of_terminal (by simp [State.terminal, hs, hend])
  | false =>
    simp only [hs, Option.any_some, hend, Bool.false_eq_true, if_false]
    refine ⟨.of_done hmain (fun hr => absurd hr hreader) (fun _ => by simp [hs])
      fun _ => ⟨s, hs, hend⟩, fun _ _ hp => ?_⟩
    simp [Daemon.Phantom, Daemon.Finished] at hp

theorem Daemon.Inv.finalise {answers : Bool} (h : w.daemon.Inv spec.id)
    (hstep : w.daemonStep spec (.finalise answers found at_) = some w') :
    Tended spec w (.daemon (.finalise answers found at_)) w' := by
  simp only [World.daemonStep, Option.ite_none_right_eq_some] at hstep
  obtain ⟨hfin, hstep⟩ := hstep
  have hmain := h.done_of_finaliser (by simp [hfin])
  have hreader : w.daemon.reader ≠ .reading := h.not_reading (by simp [hfin]) (by simp [hfin])
  have hknown := h.known (.inr (by simp [hfin]))
  cases answers with
  | true =>
    simp only [if_true, Option.ite_none_right_eq_some, Option.some.injEq] at hstep
    obtain ⟨hans, rfl⟩ := hstep
    refine ⟨.of_done hmain (fun hr => absurd hr hreader) (fun _ => hknown) nofun,
      fun _ hok => ?_⟩
    have hnot : w.sup.stage.answers = false := hok hfin
    rw [hans] at hnot
    cases hnot
  | false =>
    obtain rfl := Option.some.inj hstep
    refine ⟨.of_done hmain (fun hr => absurd hr hreader) (fun _ => known_finaliseLost hknown)
      nofun, fun _ hok => Daemon.not_phantom_of_ended (ended_finaliseLost (.inl (hok hfin)))⟩

/-- **What each step does**: it keeps the invariant, and if it keeps the
session attended it leaves no phantom. -/
theorem Daemon.Inv.step (h : w.daemon.Inv spec.id) (hstep : w.step spec act = some w') :
    Tended spec w act w' := by
  cases act with
  | sup a =>
    unfold Tended
    rw [World.step_sup hstep]
    exact ⟨h, fun hp _ => hp⟩
  | daemon a =>
    simp only [World.step] at hstep
    cases a with
    | create =>
      simp only [World.daemonStep, Option.ite_none_right_eq_some, Option.some.injEq] at hstep
      obtain ⟨hmain, rfl⟩ := hstep
      obtain ⟨hreader, hfin⟩ := h.alone (by simp [hmain])
      exact .of_main (.of_main hreader hfin (by simp) (by simp) (by simp)) (by simp)
    | launch =>
      simp only [World.daemonStep, Option.ite_none_right_eq_some, Option.some.injEq] at hstep
      obtain ⟨⟨hmain, -⟩, rfl⟩ := hstep
      obtain ⟨hreader, hfin⟩ := h.alone (by simp [hmain])
      exact .of_main (.of_main hreader hfin (by simp) (by simp) (by simp)) (by simp)
    | spawnFails at_ message =>
      simp only [World.daemonStep, Option.ite_none_right_eq_some, Option.some.injEq] at hstep
      obtain ⟨hmain, rfl⟩ := hstep
      obtain ⟨hreader, hfin⟩ := h.alone (by simp [hmain])
      exact .failed rfl hreader hfin rfl
    | timeout at_ =>
      simp only [World.daemonStep, Option.ite_none_right_eq_some, Option.some.injEq] at hstep
      obtain ⟨hmain, rfl⟩ := hstep
      obtain ⟨hreader, hfin⟩ := h.alone (by simp [hmain])
      exact .failed rfl hreader hfin rfl
    | answer at_ => exact h.answer hstep
    | launcherFails at_ line => exact h.launcherFails hstep
    | connect ok => exact h.connect hstep
    | threads reader finaliser => exact h.threads hstep
    | load readable => exact h.load hstep
    | probe answers found at_ => exact h.probe hstep
    | read => exact h.read hstep
    | hangUp =>
      simp only [World.daemonStep, Option.ite_none_right_eq_some, Option.some.injEq] at hstep
      obtain ⟨hreader, rfl⟩ := hstep
      obtain ⟨hinv, hnoticed⟩ := h.reader_ends hreader
      exact ⟨hinv, fun _ hok => hnoticed.mp (hok hreader)⟩
    | join => exact h.join hstep
    | finalise answers found at_ => exact h.finalise hstep
    | restart =>
      obtain rfl := Option.some.inj hstep
      refine .of_main (.of_main rfl rfl (fun _ => rfl) ?_ ?_) (by simp [Daemon.restarted])
      · simp [Daemon.restarted]
      · simp [Daemon.restarted]

/-- **What a step that does not attend the session does**: it leaves a
phantom. -/
theorem Daemon.Inv.attended (h : w.daemon.Inv spec.id)
    (hall : ∀ w', w.step spec act = some w' → ¬ w'.daemon.Phantom spec.id) :
    Attended spec w act := by
  cases act with
  | sup a => trivial
  | daemon a =>
    cases a with
    | connect ok =>
      intro hmain
      by_contra hok
      obtain rfl := Bool.eq_false_iff.mpr hok
      obtain ⟨hreader, hfin⟩ := h.alone (by simp [hmain])
      refine hall _ (if_pos hmain) ⟨⟨rfl, by simp [hreader], .inl hfin⟩, ?_⟩
      -- the session was announced or adopted, and nobody watches it
      exact (h.watching (.inl hmain)).not_ended
    | threads reader finaliser =>
      intro hmain
      by_contra hnone
      obtain ⟨hr, hf⟩ := not_or.mp hnone
      obtain rfl := Bool.eq_false_iff.mpr hr
      obtain rfl := Bool.eq_false_iff.mpr hf
      refine hall _ (if_pos hmain) ⟨⟨rfl, nofun, .inl rfl⟩, ?_⟩
      exact (h.watching (.inr hmain)).not_ended
    | read =>
      rintro ⟨hreader, hclosed⟩
      obtain ⟨frames, hframes⟩ := List.head?_eq_some_iff.mp hclosed
      have hstep : w.step spec (.daemon .read) =
          some { w with link := {}, daemon := { w.daemon with reader := .ended } } := by
        simp [World.step, World.daemonStep, hreader, hframes]
      exact (h.reader_ends hreader).2.mpr (hall _ hstep)
    | hangUp =>
      intro hreader
      exact (h.reader_ends hreader).2.mpr (hall _ (if_pos hreader))
    | finalise answers found at_ =>
      intro hfin
      have hmain := h.done_of_finaliser (by simp [hfin])
      have hreader : w.daemon.reader ≠ .reading := h.not_reading (by simp [hfin]) (by simp [hfin])
      have hopen := (h.probing hfin).not_ended
      cases answers with
      | true =>
        by_contra hans
        have hans : w.sup.stage.answers = true := by simpa using hans
        have hstep : w.step spec (.daemon (.finalise true found at_)) =
            some { w with daemon := { w.daemon with finaliser := .done } } := by
          simp [World.step, World.daemonStep, hfin, hans]
        -- the finaliser goes, and the supervisor may die after it
        exact hall _ hstep ⟨⟨hmain, hreader, .inr rfl⟩, hopen⟩
      | false =>
        by_contra hfound
        obtain rfl := Bool.eq_false_iff.mpr hfound
        exact hall _ (if_pos hfin) ⟨⟨hmain, hreader, .inr rfl⟩, hopen⟩
    | _ => trivial

theorem World.Fresh.inv (h : w.Fresh) : w.daemon.Inv spec.id ∧ ¬ w.daemon.Phantom spec.id := by
  obtain ⟨-, ⟨st, hd⟩ | hd⟩ := h
  · rw [hd]
    exact ⟨.of_main rfl rfl (by simp [Daemon.creating]) (by simp [Daemon.creating])
      (by simp [Daemon.creating]), Daemon.not_phantom_of_main (by simp [Daemon.creating])⟩
  · rw [hd]
    exact ⟨.of_main rfl rfl (fun _ => rfl) (by simp [Daemon.restarted])
      (by simp [Daemon.restarted]), Daemon.not_phantom_of_main (by simp [Daemon.restarted])⟩

/-- **A supervisor can be killed at any moment**: the session ends with it
wherever that is, exactly if there is no phantom already. -/
theorem endsKilled_iff : w.EndsKilled spec ↔ ¬ w.daemon.Phantom spec.id := by
  constructor
  · rintro ⟨hends, hkilled⟩ ⟨hfinished, hopen⟩
    by_cases hgone : w.sup.Gone
    · exact hopen (hends hgone hfinished)
    · -- killed now, it changes nothing that the daemon holds
      have hstep : w.step spec (.sup (.die 0)) =
          some { w with sup := w.sup.quit, link := w.link.hang 0 } := by
        unfold Supervisor.Gone at hgone
        simp only [World.step, Supervisor.step, if_neg hgone]
        rfl
      have hthere := hkilled 0 _ hstep
      exact hopen (hthere (.inr rfl) hfinished)
  · intro hp
    have hends (w' : World) (hdaemon : w'.daemon = w.daemon) : w'.EndsWith spec.id := by
      intro _ hfinished
      by_contra hopen
      rw [hdaemon] at hfinished hopen
      exact hp ⟨hfinished, hopen⟩
    exact ⟨hends w rfl, fun kept w' hstep => hends w' (World.step_sup hstep)⟩

/-- No thread of the daemon is left with the session open, exactly while it is
attended. -/
theorem not_phantom_iff (hfresh : w.Fresh) :
    Runs.Always (World.step spec) (fun w => ¬ w.daemon.Phantom spec.id) w acts ↔
      Runs.Guarded (World.step spec) (Attended spec) w acts :=
  Runs.always_iff_guarded (B := fun w : World => w.daemon.Inv spec.id)
    (P := fun w : World => ¬ w.daemon.Phantom spec.id) hfresh.inv.1 hfresh.inv.2
    (fun _ _ _ hinv hstep => (hinv.step hstep).1)
    fun _ _ hinv hp => ⟨fun hok _ hstep => (hinv.step hstep).2 hp hok, hinv.attended⟩

/-- **No phantom running session while it is attended**: from a daemon that
creates the session or has just been started, in every state of a run whose
steps all keep it attended, the session has ended once its supervisor is gone
and every thread has finished. And exactly such runs have it so wherever the
supervisor is killed. -/
theorem no_phantom_iff (hfresh : w.Fresh) :
    (Runs.Guarded (World.step spec) (Attended spec) w acts →
      Runs.Always (World.step spec) (fun w => w.EndsWith spec.id) w acts) ∧
    (Runs.Always (World.step spec) (World.EndsKilled spec) w acts ↔
      Runs.Guarded (World.step spec) (Attended spec) w acts) := by
  have hexact : Runs.Always (World.step spec) (World.EndsKilled spec) w acts ↔
      Runs.Guarded (World.step spec) (Attended spec) w acts := by
    rw [← not_phantom_iff hfresh]
    exact ⟨fun h => h.imp fun _ => endsKilled_iff.mp, fun h => h.imp fun _ => endsKilled_iff.mpr⟩
  exact ⟨fun hok => (hexact.mpr hok).imp fun _ h => h.1, hexact⟩

/-- **A phantom stays one** until the daemon is started again: its supervisor
may go, and nobody is left to notice. -/
theorem Daemon.Phantom.stays (h : w.daemon.Phantom spec.id) (hstep : w.step spec act = some w')
    (hne : act ≠ .daemon .restart) : w'.daemon.Phantom spec.id := by
  cases act with
  | sup a =>
    rw [World.step_sup hstep]
    exact h
  | daemon a =>
    -- each step of the daemon is one of a thread that has finished
    obtain ⟨⟨hmain, hreader, hfin⟩, -⟩ := h
    have hjoining : w.daemon.finaliser ≠ .joining := by
      rcases hfin with hfin | hfin
      · simp [hfin]
      · simp [hfin]
    have hprobing : w.daemon.finaliser ≠ .probing := by
      rcases hfin with hfin | hfin
      · simp [hfin]
      · simp [hfin]
    cases a with
    | restart => exact absurd rfl hne
    | _ => simp [World.step, World.daemonStep, hmain, hreader, hjoining, hprobing] at hstep

/-! ## A session that ends, and one that is lost -/

instance (d : Daemon) (id : SessionId) : Decidable (d.Noticed id) :=
  inferInstanceAs (Decidable (d.finaliser ≠ .idle ∨ d.state.terminal id = true))

instance (spec : SessionSpec) (w : World) : (act : Act) → Decidable (Attended spec w act)
  | .daemon (.connect ok) => inferInstanceAs (Decidable (w.daemon.main = .watch → ok = true))
  | .daemon (.threads reader finaliser) =>
    inferInstanceAs (Decidable (w.daemon.main = .threads → reader = true ∨ finaliser = true))
  | .daemon .read => inferInstanceAs (Decidable
      (w.daemon.reader = .reading ∧ w.link.frames.head? = some .closed → w.daemon.Noticed spec.id))
  | .daemon .hangUp =>
    inferInstanceAs (Decidable (w.daemon.reader = .reading → w.daemon.Noticed spec.id))
  | .daemon (.finalise answers found _) => inferInstanceAs (Decidable
      (w.daemon.finaliser = .probing →
        if answers then w.sup.stage.answers = false else found = true))
  | .sup _ | .daemon .create | .daemon .launch | .daemon (.spawnFails ..) | .daemon (.timeout _)
  | .daemon (.answer _) | .daemon (.launcherFails ..) | .daemon (.load _) | .daemon (.probe ..)
  | .daemon .join | .daemon .restart => .isTrue trivial

/-- Its supervisor is watched, killed, and found lost. -/
def watchedAndKilled : List Act :=
  announced ++ [.daemon (.connect true), .sup .register, .daemon (.threads true true),
    .sup (.die 0), .daemon .hangUp, .daemon .join, .daemon (.finalise false true "9")]

/-- A supervisor that is killed while it is watched leaves no phantom. -/
theorem no_phantom_killed :
    Runs.Always (World.step claudeSpec) (fun w => w.EndsWith claudeSpec.id) createWorld
      watchedAndKilled ∧
    Runs.Always (World.step claudeSpec) (World.EndsKilled claudeSpec) createWorld
      watchedAndKilled :=
  have hattended : Runs.Guarded (World.step claudeSpec) (Attended claudeSpec) createWorld
      watchedAndKilled := by decide
  ⟨(no_phantom_iff createWorld_fresh).1 hattended,
    (no_phantom_iff createWorld_fresh).2.mpr hattended⟩

/-- **A phantom**: the supervisor is killed after it announced the session and
before the daemon's connection; nobody watches, and the session stays
Running. -/
theorem phantom_before_connection : ∃ w,
    Runs.exec (World.step claudeSpec) createWorld
      (announced ++ [.sup (.die 0), .daemon (.connect false)]) = some w ∧
      w.sup.stage = .gone ∧ w.daemon.Finished ∧
      (w.daemon.state.get claudeSpec.id).map (·.state) = some .running := by
  have hrun : (Runs.exec (World.step claudeSpec) createWorld
      (announced ++ [.sup (.die 0), .daemon (.connect false)])).map
        (fun w => (w.sup.stage, w.daemon.main, w.daemon.reader, w.daemon.finaliser,
          (w.daemon.state.get claudeSpec.id).map (·.state))) =
      some (.gone, .done, .idle, .idle, some .running) := by decide
  obtain ⟨w, hw, hend⟩ := Option.map_eq_some_iff.mp hrun
  simp only [Prod.mk.injEq] at hend
  obtain ⟨hgone, hmain, hreader, hfin, hstate⟩ := hend
  exact ⟨w, hw, hgone, ⟨hmain, by simp [hreader], .inl hfin⟩, hstate⟩

end Sessions
end Willie
