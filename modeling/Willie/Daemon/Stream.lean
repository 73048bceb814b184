import Willie.Daemon.State

/-!
# The daemon — a snapshot and the events after it

Two snapshots agree when they hold the same rows by id, read through a view
of a project. A change told by an event is the same change for the daemon's
tables and for the app's lists (`Agree.emit`), so an app that starts from a
snapshot and folds every event after it agrees with the daemon, through any
view the changes told by nothing leave alone: `apartFromPresence` always,
the whole record where no refresh of the flags changes one.
-/

namespace Willie
namespace Daemon

open Projects (Project ProjectId)

variable {st : State} {s : Snapshot} {m : Mutation} {view : Project → Project} {w w' : World}
variable {as bs : List Action} {flags : List (ProjectId × String × Bool)}

/-- A project but for what is worked out for each snapshot. -/
def apartFromPresence (p : Project) : Project := { p with sourcePresent := true }

/-- **The same maps by id**, a project seen through the view; and the rows of
the first have one id each. -/
structure Agree (view : Project → Project) (s t : Snapshot) : Prop where
  seq : s.seq = t.seq
  projects : ∀ id, (Table.byId s.projects id).map view = (Table.byId t.projects id).map view
  jobs : ∀ id, Table.byId s.jobs id = Table.byId t.jobs id
  sessions : ∀ id, Table.byId s.sessions id = Table.byId t.sessions id
  projectIds : (s.projects.map idOf).Nodup
  jobIds : (s.jobs.map idOf).Nodup
  sessionIds : (s.sessions.map idOf).Nodup

theorem Agree.refl : Agree view st.snapshot st.snapshot where
  seq := rfl
  projects _ := rfl
  jobs _ := rfl
  sessions _ := rfl
  projectIds := Table.nodup_values
  jobIds := Table.nodup_values
  sessionIds := Table.nodup_values

/-- **A change and its event do the same** to the daemon and to the app. -/
theorem Agree.emit (h : Agree view s st.snapshot) :
    Agree view (s.applyEvent (m.apply st).2) (m.apply st).1.snapshot := by
  have hprojects (id : ProjectId) :
      (Table.byId s.projects id).map view = (st.projects.row id).map view :=
    (h.projects id).trans (congrArg _ Table.byId_values)
  have hjobs (id : JobId) : Table.byId s.jobs id = st.jobs.row id :=
    (h.jobs id).trans Table.byId_values
  have hsessions (id : Nat) : Table.byId s.sessions id = st.sessions.row id :=
    (h.sessions id).trans Table.byId_values
  cases m with
  | upsertProject p =>
    refine ⟨rfl, fun id => ?_, h.jobs, h.sessions, Table.nodup_upsertRow h.projectIds, h.jobIds,
      h.sessionIds⟩
    show (Table.byId (Table.upsertRow s.projects p) id).map view =
      (Table.byId (st.projects.upsert p).values id).map view
    rw [Table.byId_upsertRow, Table.byId_values, Table.row_upsert]
    split
    · rfl
    · exact hprojects id
  | removeProject gone =>
    refine ⟨rfl, fun id => ?_, h.jobs, h.sessions, Table.nodup_removeRow h.projectIds, h.jobIds,
      h.sessionIds⟩
    show (Table.byId (Table.removeRow s.projects gone) id).map view =
      (Table.byId (st.projects.remove gone).values id).map view
    rw [Table.byId_removeRow, Table.byId_values, Table.row_remove]
    split
    · rfl
    · exact hprojects id
  | upsertJob job =>
    refine ⟨rfl, h.projects, fun id => ?_, h.sessions, h.projectIds, Table.nodup_upsertRow h.jobIds,
      h.sessionIds⟩
    show Table.byId (Table.upsertRow s.jobs job) id = Table.byId (st.jobs.upsert job).values id
    rw [Table.byId_upsertRow, Table.byId_values, Table.row_upsert, hjobs]
  | upsertSession session =>
    refine ⟨rfl, h.projects, h.jobs, fun id => ?_, h.projectIds, h.jobIds,
      Table.nodup_upsertRow h.sessionIds⟩
    show Table.byId (Table.upsertRow s.sessions session) id =
      Table.byId (st.sessions.upsert session).values id
    rw [Table.byId_upsertRow, Table.byId_values, Table.row_upsert, hsessions]

/-- The numbers of the events are consecutive. -/
theorem emit_seq : (m.apply st).2.seq = st.seq + 1 ∧ (m.apply st).1.seq = st.seq + 1 := by
  cases m <;> exact ⟨rfl, rfl⟩

/-- The event that tells a change extends a snapshot that agrees. -/
theorem Agree.extends (h : Agree view s st.snapshot) :
    s.needsResnapshot (m.apply st).2 = false := by
  have hseq : s.seq = st.seq := h.seq
  rw [Snapshot.needsResnapshot, emit_seq.1, hseq, bne_self_eq_false]

/-! ## What no event tells -/

/-- A refresh of the flags shows nothing through the view. -/
def Unseen (view : Project → Project) (w : World) : Action → Prop
  | .applyPresence flags =>
    ∀ id, ((w.state.applyPresence flags).projects.row id).map view =
      (w.state.projects.row id).map view
  | _ => True

theorem Agree.presence (h : Agree view s w.state.snapshot)
    (hunseen : Unseen view w (.applyPresence flags)) :
    Agree view s (w.state.applyPresence flags).snapshot where
  seq := h.seq
  projects id := by
    have hrow := hunseen id
    rw [← Table.byId_values, ← Table.byId_values] at hrow
    exact (h.projects id).trans hrow.symm
  jobs := h.jobs
  sessions := h.sessions
  projectIds := h.projectIds
  jobIds := h.jobIds
  sessionIds := h.sessionIds

theorem row_storePresence {projects : Table Project} {flag : ProjectId × String × Bool}
    {id : ProjectId} : ((storePresence projects flag).row id).map apartFromPresence =
      (projects.row id).map apartFromPresence := by
  unfold storePresence
  split
  · rename_i p hp
    split
    · have hid : p.id = flag.1 := projects.keyed flag.1 p hp
      rw [Table.row_upsert]
      split
      · rename_i hid'
        have hrow : projects.row id = some p := by
          rw [show id = flag.1 from hid'.trans hid]
          exact hp
        rw [hrow]
        rfl
      · rfl
    · rfl
  · rfl

/-- No refresh of the flags is seen apart from them. -/
theorem unseen_apart (w : World) (a : Action) : Unseen apartFromPresence w a := by
  cases a with
  | applyPresence flags =>
    intro id
    show ((flags.foldl storePresence w.state.projects).row id).map apartFromPresence = _
    generalize w.state.projects = projects
    induction flags generalizing projects with
    | nil => rfl
    | cons flag flags ih => exact (ih _).trans row_storePresence
  | _ => trivial

/-! ## Runs -/

/-- The events sent are numbered from one, without a gap. -/
theorem sent_consecutive {disk : Table Project}
    (hrun : Runs.exec World.step (World.boot disk) as = some w) :
    w.sent.map Event.seq = List.range' 1 w.state.seq := by
  refine Runs.exec_keeps (I := fun w => w.sent.map Event.seq = List.range' 1 w.state.seq)
    hrun rfl ?_
  intro w a w' h hstep
  cases a with
  | emit m =>
    obtain rfl := Option.some.inj hstep
    simp only [List.map_append, h, List.map_cons, List.map_nil, emit_seq, List.range'_concat]
    rw [Nat.one_mul, Nat.add_comm]
  | interruptPreparing =>
    obtain ⟨-, hstep⟩ := Option.ite_none_left_eq_some.mp hstep
    obtain rfl := Option.some.inj hstep
    exact h
  | scanEnded session =>
    obtain ⟨-, hstep⟩ := Option.ite_none_left_eq_some.mp hstep
    obtain rfl := Option.some.inj hstep
    exact h
  | serve =>
    obtain rfl := Option.some.inj hstep
    exact h
  | applyPresence flags =>
    obtain ⟨-, hstep⟩ := Option.ite_none_right_eq_some.mp hstep
    obtain rfl := Option.some.inj hstep
    exact h

/-- What an app has that took a snapshot of `w` and read on. -/
def Follows (view : Project → Project) (w w' : World) : Prop :=
  w'.serving = true ∧ ∃ later s, w'.sent = w.sent ++ later ∧
    w.snapshot.replay later = some s ∧ Agree view s w'.snapshot

/-- The same of any snapshot, held since some events were sent. -/
def Continues (view : Project → Project) (x : Snapshot) (sent : List Event) (w : World) : Prop :=
  w.serving = true ∧ ∃ later s, w.sent = sent ++ later ∧ x.replay later = some s ∧
    Agree view s w.snapshot

/-- **One step**: what it tells, the app folds; what it does not is unseen. -/
theorem Continues.step {x : Snapshot} {sent : List Event} {a : Action}
    (h : Continues view x sent w) (hunseen : Unseen view w a) (hstep : w.step a = some w') :
    Continues view x sent w' := by
  obtain ⟨hserving, later, s, hsent, hreplay, hagree⟩ := h
  cases a with
  | emit m =>
    obtain rfl := Option.some.inj hstep
    refine ⟨hserving, later ++ [(m.apply w.state).2], s.applyEvent (m.apply w.state).2, ?_, ?_,
      hagree.emit⟩
    · rw [← List.append_assoc, ← hsent]
    · rw [Snapshot.replay_snoc, hreplay, Option.bind_some, hagree.extends,
        if_neg Bool.false_ne_true]
  | interruptPreparing => simp [World.step, hserving] at hstep
  | scanEnded session => simp [World.step, hserving] at hstep
  | serve =>
    obtain rfl := Option.some.inj hstep
    exact ⟨rfl, later, s, hsent, hreplay, hagree⟩
  | applyPresence flags =>
    obtain ⟨-, hstep⟩ := Option.ite_none_right_eq_some.mp hstep
    obtain rfl := Option.some.inj hstep
    exact ⟨hserving, later, s, hsent, hreplay, hagree.presence hunseen⟩

theorem Follows.step {start : World} {a : Action} (h : Follows view start w)
    (hunseen : Unseen view w a) (hstep : w.step a = some w') : Follows view start w' :=
  Continues.step h hunseen hstep

theorem follows_run (hserving : w.serving = true) (hrun : Runs.exec World.step w bs = some w')
    (hunseen : Runs.Guarded World.step (Unseen view) w bs) : Follows view w w' :=
  Runs.exec_invariant hrun hunseen
    ⟨hserving, [], w.snapshot, (List.append_nil _).symm, rfl, Agree.refl⟩
    fun _ _ _ h hok hstep => h.step hok hstep

/-- **A snapshot and the events after it** are a later snapshot: in every run
the events are numbered without a gap, and from a snapshot of a daemon that
serves, the events up to a later one fold, none needing a new snapshot, to
the same projects, jobs and sessions, apart from the flags worked out for
each; and to those too where no refresh in between changed one. -/
theorem replay_agrees {disk : Table Project}
    (hrun : Runs.exec World.step (World.boot disk) as = some w) (hserving : w.serving = true)
    (hlater : Runs.exec World.step w bs = some w') :
    w'.sent.map Event.seq = List.range' 1 w'.state.seq ∧
      (∃ later s, w'.sent = w.sent ++ later ∧ w.snapshot.replay later = some s ∧
        Agree apartFromPresence s w'.snapshot ∧
        (Runs.Guarded World.step (Unseen id) w bs → Agree id s w'.snapshot)) ∧
      (w'.snapshot.seq = w.snapshot.seq → Agree apartFromPresence w.snapshot w'.snapshot) := by
  have hwhole : Runs.exec World.step (World.boot disk) (as ++ bs) = some w' := by
    rw [Runs.exec_append, hrun]
    exact hlater
  have hseq := sent_consecutive hwhole
  obtain ⟨-, later, s, hsent, hreplay, hagree⟩ :=
    follows_run hserving hlater (Runs.guarded_of_forall unseen_apart)
  refine ⟨hseq, ⟨later, s, hsent, hreplay, hagree, fun hunseen => ?_⟩, fun hsame => ?_⟩
  · obtain ⟨-, later', s', hsent', hreplay', hagree'⟩ := follows_run hserving hlater hunseen
    obtain rfl : later = later' := List.append_cancel_left (hsent.symm.trans hsent')
    obtain rfl : s = s' := Option.some.inj (hreplay.symm.trans hreplay')
    exact hagree'
  · have hlen : later = [] := by
      have hw := congrArg List.length (sent_consecutive hrun)
      have hw' := congrArg List.length hseq
      have hstate : w'.state.seq = w.state.seq := hsame
      rw [hsent] at hw'
      simp only [List.length_map, List.length_range', List.length_append] at hw hw'
      exact List.eq_nil_of_length_eq_zero (by omega)
    rw [hlen] at hreplay
    obtain rfl := Option.some.inj hreplay
    exact hagree

/-- One project, as a daemon finds it on its disk. -/
def onDisk : Table Project :=
  Table.empty.upsert
    { id := 1, name := "x", slug := "x", source := "C:\\x", workspace := "/home/willie/projects/x",
      branch := "main", state := .ready, sourcePresent := true, createdAt := "1", sandbox := {},
      sandboxProblem := none }

/-- A job of the project begins. -/
def jobBegins : List Action := [.emit (.upsertJob ⟨7, .add, some 1, .running, "2", none, ""⟩)]

/-- A job that begins after the snapshot is folded into it. -/
theorem replay_agrees_job :
    ∃ w w', Runs.exec World.step (World.boot onDisk) [.serve] = some w ∧
      Runs.exec World.step w jobBegins = some w' ∧ w'.snapshot.jobs.length = 1 ∧
      ∃ later s, w'.sent = w.sent ++ later ∧ w.snapshot.replay later = some s ∧
        Agree apartFromPresence s w'.snapshot := by
  obtain ⟨w, hrun, hserving, w', hlater, hjobs⟩ :
      ∃ w, Runs.exec World.step (World.boot onDisk) [.serve] = some w ∧ w.serving = true ∧
        ∃ w', Runs.exec World.step w jobBegins = some w' ∧ w'.snapshot.jobs.length = 1 :=
    ⟨_, rfl, rfl, _, rfl, rfl⟩
  obtain ⟨-, ⟨later, s, hsent, hreplay, hagree, -⟩, -⟩ := replay_agrees hrun hserving hlater
  exact ⟨w, w', hrun, hlater, hjobs, later, s, hsent, hreplay, hagree⟩

/-- Two snapshots with one number differ: the checkout was deleted between
them, and each worked out its flag from the filesystem. -/
theorem presence_between :
    ∃ w w', Runs.exec World.step (World.boot onDisk)
        [.serve, .applyPresence [(1, "C:\\x", true)]] = some w ∧
      Runs.exec World.step w [.applyPresence [(1, "C:\\x", false)]] = some w' ∧
      w'.snapshot.seq = w.snapshot.seq ∧ w'.sent = w.sent ∧
      ¬ Agree id w.snapshot w'.snapshot := by
  refine ⟨_, _, rfl, rfl, rfl, rfl, fun h => ?_⟩
  have hrow := h.projects 1
  revert hrow
  decide

end Daemon
end Willie
