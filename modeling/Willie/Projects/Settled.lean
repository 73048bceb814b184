import Willie.Projects.Serial
import Willie.Projects.Workers

/-!
# Projects — an add that has ended

A record is added as Preparing, and its add's job is what makes it Ready or
Failed. The work does, on every path through it that ends; the runner around
it can also skip the work or catch its panic, and a copy read before can be
written back after. Where none of these happens, an add whose final event
was emitted has settled its record (`settled_run`).
-/

namespace Willie
namespace Projects

variable {s s' : Daemon} {a : Actor} {m : Shared} {w : Worker}

/-! ## What settles a record -/

/-- An edit after which the record is Ready or Failed. -/
def Edit.Settles : Edit → Prop
  | .ready => True
  | .failed .. => True
  | _ => False

/-- An add's thread that still writes an outcome, whatever git answers. -/
def Settling : List Instr → Prop
  | .acquire :: rest => Settling rest
  | .begin :: rest => Settling rest
  | .checkCancelled _ :: rest => Settling rest
  | .git addFail :: rest => addFail = true ∧ Settling rest
  | .update c strict _ :: _ => strict = false ∧ ∃ e, c = .edit e ∧ e.Settles
  | _ => False

/-- The record of a project, if it is there, is not Preparing. -/
def Shared.Settled (m : Shared) (id : ProjectId) : Prop :=
  ∀ p, m.projects.lookup id = some p → p.state ≠ .preparing

/-- **No add is left Preparing**: where an add's thread has nothing left, its
final event included, its project is Ready or Failed. -/
def Daemon.Settled (s : Daemon) : Prop :=
  ∀ (k : Nat) w, s.workers[k]? = some w → w.job = .add → w.script = [] →
    s.toShared.Settled w.copy.id

/-! ## The steps that do not leave one -/

/-- The runner does not skip the thread's work, and git does not panic in it. -/
def Instr.Carried (cancelled : Bool) (reply : Reply) : Instr → Prop
  | .begin => cancelled = false
  | .git _ => reply ≠ .panic
  | _ => True

/-- A write does not put a record back to Preparing. -/
def Instr.Forward (m : Shared) (copy : Project) : Instr → Prop
  | .update c _ .state => (c.apply copy).state = .preparing →
      c = .new ∨ ∃ p ∈ m.projects.lookup copy.id, p.state = .preparing
  | _ => True

/-- The job's thread that runs, if it is one. -/
def Daemon.thread (s : Daemon) : Actor → Option Worker
  | .dispatcher => none
  | .worker k => s.workers[k]?

/-- **The step drops no add**: the one that runs is carried out, and a copy
read while its project was Preparing finds it so when it is written back. -/
def Undropped (s : Daemon) : Action → Prop
  | .run a reply =>
    (∀ w ∈ s.thread a, w.job = .add → ∀ i ∈ w.script.head?, i.Carried w.cancelled reply) ∧
      ∀ t ∈ s.task a, ∀ i ∈ t.script.head?, i.Forward s.toShared t.copy
  | _ => True

/-- What every step that drops no add keeps. -/
structure Daemon.Adding (s : Daemon) : Prop extends s.Ordered where
  add : ∀ (k : Nat) w, s.workers[k]? = some w → w.job = .add →
    Settling w.script ∨ s.toShared.Settled w.copy.id

instance {cancelled : Bool} {reply : Reply} (i : Instr) :
    Decidable (i.Carried cancelled reply) := by
  cases i <;> dsimp only [Instr.Carried] <;> infer_instance

instance {copy : Project} (i : Instr) : Decidable (i.Forward m copy) := by
  cases i with
  | update c strict stage => cases stage <;> dsimp only [Instr.Forward] <;> infer_instance
  | _ => dsimp only [Instr.Forward]; infer_instance

instance (act : Action) : Decidable (Undropped s act) := by
  cases act <;> dsimp only [Undropped] <;> infer_instance

theorem Edit.Settles.apply {e : Edit} (h : e.Settles) (p : Project) :
    (e.apply p).state ≠ .preparing := by
  cases e <;> first | exact h.elim | simp [Edit.apply]

theorem settling_add : Settling Job.add.script := by
  simp [Job.script, Job.work, Settling, updateProject, Edit.Settles]

theorem Daemon.Start.adding (h : s.Start) : s.Adding where
  toOrdered := h.ordered
  add k w hw := by simp [h.workers] at hw

theorem Daemon.Adding.settled (h : s.Adding) : s.Settled := by
  intro k w hw hadd hs
  rcases h.add k w hw hadd with hset | hset
  · rw [hs] at hset
    exact hset.elim
  · exact hset

/-! ## A task's step -/

section Turn

variable {reply : Reply} {copy : Project} {i : Instr} {rest script : List Instr}

/-- A settled record stays settled, unless the task puts it back. -/
theorem Turn.stays_settled (T : Turn s s' a reply copy i rest script)
    (hok : i.Forward s.toShared copy) {id : ProjectId} (hnew : i.Adds → copy.id ≠ id)
    (h : s.toShared.Settled id) : s'.toShared.Settled id := by
  intro p hp
  by_cases hid : id = copy.id
  swap
  · exact h p ((perform_local T.perform hid).project ▸ hp)
  subst hid
  have hper := T.perform
  by_cases hw : i.Writes
  · cases i with
    | update c strict stage =>
      cases stage with
      | tmp => exact h p ((perform_tmp hper).1 ▸ hp)
      | file => exact h p ((perform_file hper).1 ▸ hp)
      | state =>
        rw [(perform_state hper).1, AList.lookup_insert] at hp
        obtain rfl := Option.some.inj hp
        intro hprep
        -- only an add writes Preparing, or an edit of a record that says so
        rcases hok hprep with hc | ⟨q, hq, hqs⟩
        · exact hnew hc rfl
        · exact h q hq hqs
    | forget unlinked =>
      cases unlinked with
      | false => exact h p ((perform_unlink hper).1 ▸ hp)
      | true =>
        rw [(perform_erase hper).1, AList.lookup_erase] at hp
        simp at hp
    | _ => exact hw.elim
  · exact h p ((perform_still hper hw).1 ▸ hp)

/-- **The thread of an add that is carried out** still writes an outcome, or
has just written it. -/
theorem Turn.settling (T : Turn s s' a reply copy i rest script) {c : Bool}
    (hc : s.cancelled a = c) (hok : i.Carried c reply) (h : Settling (i :: rest)) :
    Settling script ∨ s'.toShared.Settled copy.id := by
  have hp := T.perform
  rw [hc] at hp
  cases i with
  | acquire =>
    simp only [Instr.perform] at hp
    split at hp
    · obtain ⟨-, rfl⟩ := Prod.mk.inj (Option.some.inj hp)
      exact .inl h
    · simp at hp
  | begin =>
    obtain rfl : c = false := hok
    obtain ⟨-, rfl⟩ := Prod.mk.inj (Option.some.inj hp)
    exact .inl h
  | checkCancelled kind =>
    obtain ⟨-, rfl⟩ := Prod.mk.inj (Option.some.inj hp)
    cases c with
    | false => exact .inl h
    -- the interruption is written next, and it settles the project
    | true => exact .inl ⟨rfl, _, rfl, trivial⟩
  | git addFail =>
    obtain ⟨rfl, hrest⟩ := h
    obtain ⟨-, rfl⟩ := Prod.mk.inj (Option.some.inj hp)
    cases reply with
    | ok => exact .inl hrest
    -- so does the failure
    | err e => exact .inl ⟨rfl, _, rfl, trivial⟩
    | panic => exact absurd rfl hok
  | update ch strict stage =>
    obtain ⟨rfl, e, rfl, he⟩ := h
    have next (sg : Stage) : Settling (.update (.edit e) false sg :: rest) := ⟨rfl, e, rfl, he⟩
    cases stage with
    | tmp =>
      obtain ⟨-, -, ⟨-, rfl⟩ | ⟨-, rfl⟩⟩ := perform_tmp hp
      · exact .inl (next _)
      · exact .inl (next _)
    | file =>
      obtain ⟨-, -, ⟨-, rfl⟩ | ⟨-, rfl⟩⟩ := perform_file hp
      · exact .inl (next _)
      · exact .inl (next _)
    | state =>
      refine .inr fun p hlook => ?_
      rw [(perform_state hp).1, AList.lookup_insert] at hlook
      obtain rfl := Option.some.inj hlook
      exact he.apply copy
  | _ => exact h.elim

theorem Turn.adding (T : Turn s s' a reply copy i rest script) (h : s.Adding)
    (hok : Undropped s (.run a reply)) : s'.Adding where
  toOrdered := T.ordered h.toOrdered
  add k w hw hadd := by
    have hfwd : i.Forward s.toShared copy := hok.2 _ T.before i (by simp)
    rcases T.worker_cases hw with ⟨rfl, v, hv, hvt, rfl⟩ | ⟨ha, hw⟩ | ⟨-, job, -, -, rfl⟩
    · have hvs : v.script = i :: rest := congrArg Task.script hvt
      have hvc : v.copy = copy := congrArg Task.copy hvt
      show Settling script ∨ s'.toShared.Settled v.copy.id
      rcases h.add k v hv hadd with hset | hset
      · rw [hvc]
        rw [hvs] at hset
        refine T.settling ?_ (hok.1 v hv hadd i (by simp [hvs])) hset
        simp [Daemon.cancelled, hv]
      · -- a worker adds no record
        refine .inr (T.stays_settled hfwd (fun hi => ?_) hset)
        exact absurd (h.adder _ _ T.before (adds_cons.mpr hi)) (by simp)
    · refine (h.add k w hw hadd).imp_right (T.stays_settled hfwd fun hi => ?_)
      have ht : s.task (.worker k) = some w.toTask := task_worker.mpr ⟨w, hw, rfl⟩
      exact h.fresh a (.worker k) _ _ ha T.before ht (adds_cons.mpr hi)
    · obtain rfl : job = .add := hadd
      exact .inl settling_add

end Turn

/-! ## Runs -/

theorem applyPresence_settled {flags : List (ProjectId × String × Bool)} {id : ProjectId}
    (h : m.Settled id) :
    Shared.Settled { m with projects := flags.foldl applyPresence m.projects } id := by
  intro q hq
  obtain ⟨p, present, hlook, rfl⟩ := applyPresence_lookup hq
  exact h p hlook

/-- A step that starts no thread and touches no script or record. -/
theorem Daemon.Adding.congr (h : s.Adding) (hord : s'.Ordered)
    (hw : ∀ (k : Nat) w, s'.workers[k]? = some w →
      ∃ v, s.workers[k]? = some v ∧ w.toTask = v.toTask ∧ w.job = v.job)
    (hp : ∀ id, s.toShared.Settled id → s'.toShared.Settled id) : s'.Adding where
  toOrdered := hord
  add k w hk hadd := by
    obtain ⟨v, hv, ht, hj⟩ := hw k w hk
    rw [ht]
    exact (h.add k v hv (hj ▸ hadd)).imp_right (hp _)

/-- **Every step that drops no add keeps the invariant.** -/
theorem Daemon.Adding.step {act : Action} (h : s.Adding) (hok : Undropped s act)
    (hstep : s.step act = some s') : s'.Adding := by
  have hord := h.toOrdered.step hstep
  have same (k : Nat) (w : Worker) (hw : s.workers[k]? = some w) :
      ∃ v, s.workers[k]? = some v ∧ w.toTask = v.toTask ∧ w.job = v.job := ⟨w, hw, rfl, rfl⟩
  cases act with
  | run a reply =>
    obtain ⟨copy, i, rest, script, T⟩ := Daemon.advance_turn hstep
    exact T.adding h hok
  | request r =>
    simp only [Daemon.step] at hstep
    split at hstep
    · have hstep := Option.some.inj hstep
      cases hr : r.task s.toShared with
      | none =>
        rw [hr] at hstep
        exact hstep ▸ h
      | some t =>
        rw [hr] at hstep
        subst hstep
        exact h.congr hord same fun id hid => hid
    · simp at hstep
  | cancelJob j =>
    obtain rfl := Option.some.inj hstep
    exact h.congr hord (fun k w hw => cancelJob_workers hw) fun id hid => hid
  | sessionEnds id =>
    obtain rfl := Option.some.inj hstep
    exact h.congr hord same fun id hid => hid
  | applyPresence flags =>
    simp only [Daemon.step] at hstep
    split at hstep
    · obtain rfl := Option.some.inj hstep
      exact h.congr hord same fun id hid => applyPresence_settled hid
    · simp at hstep

/-- **No add is left Preparing in a run that drops none**: whatever is
queued, cancelled under way or failed, an add whose final event was emitted
has left its project Ready or Failed. -/
theorem settled_run {acts : List Action} (hstart : s.Start)
    (hrun : Runs.exec Daemon.step s acts = some s')
    (hok : Runs.Guarded Daemon.step Undropped s acts) : s'.Settled :=
  Daemon.Adding.settled <|
    Runs.exec_invariant hrun hok hstart.adding fun _ _ _ h hact hstep => h.step hact hstep

/-- A second project, as `add` registers it. -/
def addedProject : Project := { clonedProject with id := 2, name := "w", state := .preparing }

/-- It is added, and its job cancelled `after` that many steps of its thread. -/
def addRun (after before : Nat) : List Action :=
  .request (.add addedProject) :: List.replicate 4 (.run .dispatcher .ok) ++
    List.replicate after (.run (.worker 0) .ok) ++ .cancelJob 0 ::
      List.replicate before (.run (.worker 0) .ok)

/-- An add that is cancelled under way is settled. -/
theorem settled_run_interrupted : ∃ s',
    Runs.exec Daemon.step loadedDaemon (addRun 4 7) = some s' ∧ s'.Settled := by
  have hsome : (Runs.exec Daemon.step loadedDaemon (addRun 4 7)).isSome := by decide
  obtain ⟨s', hs'⟩ := Option.isSome_iff_exists.mp hsome
  have hok : Runs.Guarded Daemon.step Undropped loadedDaemon (addRun 4 7) := by decide
  exact ⟨s', hs', settled_run loadedDaemon_start hs' hok⟩

/-- **An add cancelled while it is queued leaves its project Preparing**: the
runner skips the work, and nothing else writes the record. -/
theorem dropped_add : ∃ s',
    Runs.exec Daemon.step loadedDaemon (addRun 0 5) = some s' ∧ ¬ s'.Settled := by
  have hrun : (Runs.exec Daemon.step loadedDaemon (addRun 0 5)).map
      (fun s => (s.workers.map fun w => (w.job, w.script, w.copy.id),
        (s.projects.lookup 2).map (·.state))) =
      some ([(.add, [], 2)], some .preparing) := by decide
  obtain ⟨s', hs', h⟩ := Option.map_eq_some_iff.mp hrun
  obtain ⟨hw, hp⟩ := Prod.mk.inj h
  refine ⟨s', hs', fun hsettled => ?_⟩
  obtain ⟨w, hws, hw⟩ := List.map_eq_singleton_iff.mp hw
  obtain ⟨hjob, hw⟩ := Prod.mk.inj hw
  obtain ⟨hscript, hid⟩ := Prod.mk.inj hw
  obtain ⟨p, hlook, hstate⟩ := Option.map_eq_some_iff.mp hp
  exact hsettled 0 w (by simp [hws]) hjob hscript p (hid ▸ hlook) hstate

end Projects
end Willie
