import Willie.Jobs.Progress

/-!
# Jobs — one at a time, as observed

What a client sees of the exclusion. The work of two jobs of one project
never overlaps, but a job gives up its claim before it emits how it ended:
until then a new job of the project can be announced, and the stream shows
two running. That is the only way it can.
-/

namespace Willie
namespace Jobs

open Daemon (JobId JobKind JobState Job Event EventKind Mutation)
open Projects (ProjectId)
open Runs

variable {r r' : Runner} {a : Action} {as : List Action} {id : JobId} {w w' : Worker}

/-! ## What the stream tells -/

/-- Told of one job, the stream tells of the others what it did. -/
theorem Told.other {js : List Job} {job : Job} (h : Told js id w) (hne : job.id ≠ id) :
    Told (js ++ [job]) id w := by
  unfold Told at h ⊢
  simpa [lastOf_snoc, finals_snoc, hne] using h

theorem Told.congr {js : List Job} (h : Told js id w) (hphase : w'.stage.phase = w.stage.phase)
    (hp : w'.projectId = w.projectId) : Told js id w' := by
  unfold Told at h ⊢
  rw [hphase, hp]
  exact h

/-- A turn tells of no job but its own, and of that what its stage says. -/
theorem Turned.told {s s' : Shared} (h : Turned s id w s' w') (ht : Told (jobsOf s.sent) id w) :
    Told (jobsOf s'.sent) id w' ∧
      (jobsOf s'.sent = jobsOf s.sent ∨
        ∃ job, job.id = id ∧ jobsOf s'.sent = jobsOf s.sent ++ [job]) := by
  cases h with
  | announce h now =>
    have hsilent : lastOf (jobsOf s.sent) id = none ∧ finals (jobsOf s.sent) id = 0 := by
      simpa [Told, h, Stage.phase] using ht
    refine ⟨?_, .inr ⟨_, rfl, jobsOf_emit⟩⟩
    rw [jobsOf_emit]
    simp [Told, Stage.phase, lastOf_snoc, finals_snoc, Worker.running, hsilent.2]
  | conclude o h now =>
    have hrunning : finals (jobsOf s.sent) id = 0 := by
      have := ht
      simp only [Told, h, Stage.phase] at this
      exact this.2
    have hid : (w.final id now o).id = id := by cases o <;> rfl
    have hstate : (w.final id now o).state ≠ .running := by cases o <;> simp [Worker.final]
    refine ⟨?_, .inr ⟨_, hid, jobsOf_emit⟩⟩
    rw [jobsOf_emit]
    simp [Told, Stage.phase, lastOf_snoc, finals_snoc, hid, hstate, hrunning]
  | take h | sleep h =>
    rcases h with h | h <;> exact ⟨ht.congr (by simp [h, Stage.phase]) rfl, .inl rfl⟩
  | unclaim o h =>
    have hsent : (s.unclaim w.projectId).sent = s.sent := by
      cases hp : w.projectId <;> simp [Shared.unclaim]
    rw [hsent]
    exact ⟨ht.congr (by simp [h, Stage.phase]) rfl, .inl rfl⟩
  | register h | spawn h | skip h | begin h | finish h | giveBack _ h | unregister _ h =>
    exact ⟨ht.congr (by simp [h, Stage.phase]) rfl, .inl rfl⟩

theorem Narrated.move {stage : Stage} (h : Narrated r) (hw : r.workers[id]? = some w)
    (hphase : stage.phase = w.stage.phase) : Narrated (r.move id w stage) := by
  have hsent : (r.move id w stage).sent = r.sent := rfl
  refine ⟨fun i v hv => ?_, fun i hv => ?_⟩
  · rw [getElem?_move hw] at hv
    rw [hsent]
    split at hv
    · obtain rfl := Option.some.inj hv
      subst ‹i = id›
      exact (h.told i w hw).congr hphase rfl
    · exact h.told i v hv
  · rw [getElem?_move hw] at hv
    split at hv
    · cases hv
    · exact h.untold i hv

theorem Narrated.next (h : Narrated r) (hs : Stepped r a r') : Narrated r' := by
  cases hs with
  | idle _ s running taken cancels jobs still =>
    exact ⟨fun i v hv => jobs ▸ h.told i v hv, fun i hv => jobs ▸ h.untold i hv⟩
  | submit kind o free =>
    have hsent : (r.claim o).sent = r.sent := by cases o <;> rfl
    refine ⟨fun i v hv => ?_, fun i hv => ?_⟩
    · simp only [hsent, getElem?_snoc] at hv ⊢
      split at hv
      · obtain rfl := Option.some.inj hv
        have hlast := h.untold i (List.getElem?_eq_none (by omega))
        refine ⟨hlast, ?_⟩
        -- no event at all tells of a job that is new
        rw [finals, List.countP_eq_zero]
        intro j hj hboth
        have hid : j.id = i := by simpa using (of_decide_eq_true hboth).1
        rw [lastOf, List.getLast?_eq_none_iff, List.filter_eq_nil_iff] at hlast
        exact hlast j hj (by simpa using hid)
      · exact h.told i v hv
    · simp only [hsent, getElem?_snoc] at hv ⊢
      split at hv
      · cases hv
      · exact h.untold i hv
  | turn id input w w' s worker turned =>
    obtain ⟨hself, hjobs⟩ := turned.told (h.told id w worker)
    refine ⟨fun i v hv => ?_, fun i hv => ?_⟩
    · simp only [getElem?_set_worker worker] at hv
      split at hv
      · obtain rfl := Option.some.inj hv
        subst ‹i = id›
        exact hself
      · rename_i hi
        rcases hjobs with hjobs | ⟨job, hid, hjobs⟩
        · simpa only [hjobs] using h.told i v hv
        · simpa only [hjobs] using (h.told i v hv).other (by rw [hid]; exact Ne.symm hi)
    · simp only [getElem?_set_worker worker] at hv
      split at hv
      · cases hv
      · rename_i hi
        rcases hjobs with hjobs | ⟨job, hid, hjobs⟩
        · simpa only [hjobs] using h.untold i hv
        · simpa only [hjobs, lastOf_snoc, hid, if_neg (Ne.symm hi)] using h.untold i hv
  | quiet id w o worker stage nobody => exact h.move worker (by simp [stage, Stage.phase])
  | wakes id j w v o worker stage sleeper waits other =>
    refine (h.move worker (by simp [stage, Stage.phase])).move (w := v) ?_
      (by simp [waits, Stage.phase])
    rw [getElem?_move worker, if_neg other, sleeper]
  | spurious id w worker waits => exact h.move worker (by simp [waits, Stage.phase])

/-! ## One at a time -/

/-- A job the stream has as running that has given up its claim. -/
def Worker.lingers (w : Worker) : Bool := w.stage.phase = .running && !w.stage.holdsClaim

/-- **A quiet step**: no job is announced while an earlier one of its project,
or of none, lingers. -/
def Quiet (r : Runner) : Action → Prop
  | .turn id _ => ∀ w ∈ r.workers[id]?, w.stage = .registered →
      ∀ v ∈ r.workers, v.projectId = w.projectId → v.lingers = false
  | _ => True

instance (r : Runner) (a : Action) : Decidable (Quiet r a) := by
  cases a <;> unfold Quiet <;> exact inferInstance

/-- **In every prefix of the stream**, at most one job of a project and at most
one of none is running. -/
def Observed (r : Runner) : Prop := ∀ evs, evs <+: r.sent → Single (jobsOf evs)

theorem observed_iff : Observed r ↔ ∀ js, js <+: jobsOf r.sent → Single js := by
  constructor
  · intro h js hjs
    obtain ⟨evs, hevs, rfl⟩ := List.prefix_filterMap_iff.mp hjs
    exact h evs hevs
  · exact fun h evs hevs => h _ (hevs.filterMap _)

theorem Observed.single (h : Observed r) : Single (jobsOf r.sent) := h _ (List.prefix_refl _)

/-- A job that the stream has as running is at a stage that says so. -/
theorem Narrated.running {j : Job} (h : Narrated r) (hj : lastOf (jobsOf r.sent) id = some j)
    (hstate : j.state = .running) :
    ∃ w, r.workers[id]? = some w ∧ w.stage.phase = .running ∧ w.projectId = j.projectId := by
  cases hw : r.workers[id]? with
  | none =>
    rw [h.untold id hw] at hj
    cases hj
  | some w =>
    have ht := h.told id w hw
    unfold Told at ht
    split at ht
    · rw [ht.1] at hj
      cases hj
    · obtain ⟨⟨j', hj', -, hp⟩, -⟩ := ht
      obtain rfl := Option.some.inj (hj.symm.trans hj')
      exact ⟨w, rfl, ‹_›, hp.symm⟩
    · obtain ⟨⟨j', hj', hne⟩, -⟩ := ht
      obtain rfl := Option.some.inj (hj.symm.trans hj')
      exact absurd hstate hne

/-- And one at such a stage the stream has as running. -/
theorem Narrated.last (h : Narrated r) (hw : r.workers[id]? = some w)
    (hphase : w.stage.phase = .running) :
    ∃ j, lastOf (jobsOf r.sent) id = some j ∧ j.state = .running ∧ j.projectId = w.projectId := by
  have ht := h.told id w hw
  simp only [Told, hphase] at ht
  exact ht.1

/-- A final event takes a job off those that run. -/
theorem Single.final {js : List Job} {job : Job} (h : Single js) (hfinal : job.state ≠ .running) :
    Single (js ++ [job]) := by
  intro i i' j j' hj hj' hr hr' hp
  rw [lastOf_snoc] at hj hj'
  split at hj
  · obtain rfl := Option.some.inj hj
    exact absurd hr hfinal
  · split at hj'
    · obtain rfl := Option.some.inj hj'
      exact absurd hr' hfinal
    · exact h i i' j j' hj hj' hr hr' hp

/-- An announcement adds one to those that run: it must be of a project that
has none. -/
theorem single_announced {js : List Job} {job : Job} (h : Single js)
    (hrunning : job.state = .running) :
    Single (js ++ [job]) ↔ ∀ i j, i ≠ job.id → lastOf js i = some j → j.state = .running →
      j.projectId ≠ job.projectId := by
  constructor
  · intro hs i j hi hj hr hp
    refine hi (hs i job.id j job ?_ ?_ hr hrunning hp)
    · rw [lastOf_snoc, if_neg (Ne.symm hi), hj]
    · rw [lastOf_snoc, if_pos rfl]
  · intro hfree i i' j j' hj hj' hr hr' hp
    rw [lastOf_snoc] at hj hj'
    split at hj
    · rename_i hi
      obtain rfl := Option.some.inj hj
      split at hj'
      · rw [← hi, ‹job.id = i'›]
      · exact absurd hp.symm (hfree i' j' (Ne.symm ‹_›) hj' hr')
    · rename_i hi
      split at hj'
      · obtain rfl := Option.some.inj hj'
        exact absurd hp (hfree i j (Ne.symm hi) hj hr)
      · exact h i i' j j' hj hj' hr hr' hp

/-- **The exact condition, of one step.** -/
theorem observed_step (hb : Balanced r) (hn : Narrated r) (ho : Observed r)
    (hs : Stepped r a r') : Quiet r a ↔ Observed r' := by
  -- a step that tells of no job, or of one that ended, is as quiet as it is observed
  have same : jobsOf r'.sent = jobsOf r.sent → Observed r' := fun h =>
    observed_iff.mpr (h ▸ observed_iff.mp ho)
  have snoc : ∀ {job : Job}, jobsOf r'.sent = jobsOf r.sent ++ [job] →
      (Observed r' ↔ Single (jobsOf r.sent ++ [job])) := by
    intro job h
    rw [observed_iff, h]
    refine ⟨fun hall => hall _ (List.prefix_refl _), fun hsingle js hjs => ?_⟩
    rcases List.prefix_concat_iff.mp hjs with rfl | hjs
    · exact hsingle
    · exact observed_iff.mp ho js hjs
  cases hs with
  | idle _ s running taken cancels jobs still =>
    refine iff_of_true ?_ (same jobs)
    cases a with
    | turn id input => exact absurd trivial still
    | _ => trivial
  | submit kind o free => exact iff_of_true trivial (same (by cases o <;> rfl))
  | quiet | wakes | spurious => exact iff_of_true trivial (same rfl)
  | turn id input w w' s worker turned =>
    have quiet : w.stage ≠ .registered → Quiet r (.turn id input) := by
      intro hstage v hv hreg
      obtain rfl := Option.some.inj (worker.symm.trans hv)
      exact absurd hreg hstage
    cases turned with
    | announce h now =>
      rw [snoc jobsOf_emit, single_announced ho.single rfl]
      constructor
      · intro hquiet i j hi hj hr hp
        obtain ⟨v, hv, hphase, hvp⟩ := hn.running hj hr
        have hsame : v.projectId = w.projectId := hvp.trans hp
        have hlingers := hquiet w worker h v (List.mem_of_getElem? hv) hsame
        -- then both hold the one claim there is
        have hclaim : v.stage.holdsClaim = true := by simpa [Worker.lingers, hphase] using hlingers
        refine hi (index_unique (hb.holds_le w.projectId) hv worker ?_ ?_)
        · simp [Worker.holds, hclaim, hsame]
        · simp [Worker.holds, h, Stage.holdsClaim]
      · intro hfree u hu _ v hv hvp
        obtain rfl := Option.some.inj (worker.symm.trans hu)
        obtain ⟨i, hi⟩ := List.mem_iff_getElem?.mp hv
        by_contra hlingers
        obtain ⟨hphase, -⟩ : v.stage.phase = .running ∧ v.stage.holdsClaim = false := by
          simpa [Worker.lingers] using hlingers
        obtain ⟨j, hj, hr, hjp⟩ := hn.last hi hphase
        refine hfree i j ?_ hj hr (hjp.trans hvp)
        rintro rfl
        obtain rfl := Option.some.inj (worker.symm.trans hi)
        simp [h, Stage.phase] at hphase
    | conclude o h now =>
      refine iff_of_true (quiet (by simp [h])) ((snoc jobsOf_emit).mpr (ho.single.final ?_))
      cases o <;> simp [Worker.final]
    | take h | sleep h =>
      exact iff_of_true (quiet (by rcases h with h | h <;> simp [h])) (same rfl)
    | unclaim o h =>
      refine iff_of_true (quiet (by simp [h])) (same ?_)
      cases hp : w.projectId <;> simp [Shared.unclaim]
    | register h | spawn h | skip h | begin h | finish h | giveBack _ h | unregister _ h =>
      exact iff_of_true (quiet (by simp [h])) (same rfl)

/-! ## Over a whole run -/

/-- What every run keeps, and what it makes of the quiet steps. -/
structure Kept (st : Daemon.State) (as : List Action) (r : Runner) : Prop where
  balanced : Balanced r
  narrated : Narrated r
  once : Once (trace Runner.step Runner.releases (Runner.new st) as) r
  awake : Awake r
  quiet : Guarded Runner.step Quiet (Runner.new st) as ↔ Observed r

theorem kept {st : Daemon.State} (hrun : exec Runner.step (Runner.new st) as = some r) :
    Kept st as r := by
  refine run_induction hrun ?_ ?_
  · have hstream : ∀ evs : List Event, evs <+: [] → Single (jobsOf evs) := by
      intro evs hevs
      obtain rfl := List.prefix_nil.mp hevs
      intro i i' j j' hj
      simp [lastOf, jobsOf] at hj
    refine ⟨⟨rfl, Nat.zero_le _, fun o => ?_, fun i => ?_⟩, ⟨fun i v hv => ?_, fun i _ => rfl⟩,
      fun i x => rfl, ?_, iff_of_true trivial hstream⟩
    · cases o <;> rfl
    · simp [Runner.new]
    · simp [Runner.new] at hv
    · rintro ⟨v, hv, -⟩
      simp [Runner.new] at hv
  · intro as m a r' hm ih hstep
    have hs := stepped hstep
    refine ⟨ih.balanced.next hs, ih.narrated.next hs, ?_, ih.awake.next ih.balanced hs, ?_⟩
    · rw [trace_snoc hm]
      exact ih.once.next hs
    · rw [guarded_append hm, ih.quiet]
      constructor
      · rintro ⟨ho, hquiet, -⟩
        exact (observed_step ih.balanced ih.narrated ho hs).mp hquiet
      · intro ho'
        -- the stream only grows
        have ho : Observed m := observed_iff.mpr fun js hjs =>
          observed_iff.mp ho' js (hjs.trans hs.jobs_grow)
        exact ⟨ho, (observed_step ih.balanced ih.narrated ho hs).mpr ho', fun _ _ => trivial⟩

/-- **One job at a time.** In every run of the runner: the stream shows at
most one running job of a project, and of none, in every prefix exactly if
each step was quiet; at most three work closures execute; a job has one
final event once it has ended and none before; one that has ended has given
back its slot, its claim and its entry, each once, and the books hold what
the others have out; and when no job can move all have ended, which each of
their steps brings nearer. -/
theorem one_job_at_a_time {st : Daemon.State}
    (hrun : exec Runner.step (Runner.new st) as = some r) :
    (Guarded Runner.step Quiet (Runner.new st) as ↔ Observed r) ∧
    r.workers.countP (·.stage = .working) ≤ 3 ∧
    (∀ id w, r.workers[id]? = some w →
      finals (jobsOf r.sent) id = if w.stage = .done then 1 else 0) ∧
    (∀ id w, r.workers[id]? = some w → w.stage = .done →
      id ∉ r.cancels ∧ ∀ x,
        (trace Runner.step Runner.releases (Runner.new st) as).count (id, x) = 1) ∧
    Balanced r ∧
    ((∀ a, a.ofJob → r.step a = none) → ∀ w ∈ r.workers, w.stage = .done) ∧
    ∀ a r', a.ofJob → r.step a = some r' → left r'.workers < left r.workers := by
  have h := kept hrun
  refine ⟨h.quiet, ?_, fun id w hw => ?_, fun id w hw hdone => ⟨?_, fun x => ?_⟩, h.balanced,
    all_done h.balanced h.awake, fun a r' ha hstep => left_lt (stepped hstep) ha⟩
  · have hle : r.workers.countP (·.stage = .working) ≤ r.workers.countP (·.stage.holdsSlot) := by
      refine List.countP_mono_left fun w _ hw => ?_
      rw [of_decide_eq_true hw]
      rfl
    have hslots := h.balanced.slots
    have hroom := h.balanced.room
    simp only [limit] at hroom
    omega
  · have ht := h.narrated.told id w hw
    cases hstage : w.stage <;> simp_all [Told, Stage.phase]
  · rw [h.balanced.entries]
    rintro ⟨v, hv, hentry⟩
    obtain rfl := Option.some.inj (hw.symm.trans hv)
    simp [hdone, Stage.holdsEntry] at hentry
  · rw [h.once id x, hw]
    simp [hdone, Stage.gave]

/-! ## Two runs -/

/-- The clock and the work of these runs. -/
def noted : Input := ⟨"2026-08-29T12:00:00Z", .outcome (.ok "done")⟩

/-- A job from its claim to the end of its work. -/
def worked (id : JobId) : List Action := List.replicate 6 (.turn id noted)

/-- It gives everything back. -/
def gaveBack (id : JobId) : List Action :=
  [.turn id noted, .notify id none, .turn id noted, .turn id noted]

/-- A job synchronises a project, and then another does. -/
def inTurn : List Action :=
  [.submit .syncToWindows (some 1)] ++ worked 0 ++ gaveBack 0 ++ [.turn 0 noted] ++
    [.submit .updateFromWindows (some 1), .turn 1 noted, .turn 1 noted]

/-- The second job is announced before the first is told to have ended. -/
def early : List Action :=
  [.submit .syncToWindows (some 1)] ++ worked 0 ++ gaveBack 0 ++
    [.submit .updateFromWindows (some 1), .turn 1 noted, .turn 1 noted]

def idleDaemon : Daemon.State := ⟨.empty, .empty, .empty, 0⟩

/-- In turn, every step is quiet and the stream shows one job at a time. -/
theorem one_job_in_turn :
    ∃ r, exec Runner.step (Runner.new idleDaemon) inTurn = some r ∧ Observed r ∧
      (jobsOf r.sent).map (fun j => (j.id, j.state)) =
        [(0, .running), (0, .done), (1, .running)] := by
  have hsome : (exec Runner.step (Runner.new idleDaemon) inTurn).isSome = true := by decide
  obtain ⟨r, hrun⟩ := Option.isSome_iff_exists.mp hsome
  have hquiet : Guarded Runner.step Quiet (Runner.new idleDaemon) inTurn := by decide
  have htold : (exec Runner.step (Runner.new idleDaemon) inTurn).map
      (fun r => (jobsOf r.sent).map fun j => (j.id, j.state)) =
        some [(0, .running), (0, .done), (1, .running)] := by decide
  refine ⟨r, hrun, (one_job_at_a_time hrun).1.mp hquiet, ?_⟩
  simpa [hrun] using htold

/-- **Two jobs of one project are seen running.** -/
theorem two_jobs_running :
    ∃ r, exec Runner.step (Runner.new idleDaemon) early = some r ∧ ¬ Observed r ∧
      (jobsOf r.sent).map (fun j => (j.id, j.projectId, j.state)) =
        [(0, some 1, .running), (1, some 1, .running)] := by
  have hsome : (exec Runner.step (Runner.new idleDaemon) early).isSome = true := by decide
  obtain ⟨r, hrun⟩ := Option.isSome_iff_exists.mp hsome
  have htold : (exec Runner.step (Runner.new idleDaemon) early).map
      (fun r => (jobsOf r.sent).map fun j => (j.id, j.projectId, j.state)) =
        some [(0, some 1, .running), (1, some 1, .running)] := by decide
  have hlast : (exec Runner.step (Runner.new idleDaemon) early).map (fun r =>
      ((lastOf (jobsOf r.sent) 0).map fun j => (j.projectId, j.state),
        (lastOf (jobsOf r.sent) 1).map fun j => (j.projectId, j.state))) =
      some (some (some 1, .running), some (some 1, .running)) := by decide
  rw [hrun] at hlast htold
  simp only [Option.map_some, Option.some.injEq, Prod.mk.injEq, Option.map_eq_some_iff] at hlast
  obtain ⟨⟨j, hj, hjp, hjr⟩, ⟨j', hj', hjp', hjr'⟩⟩ := hlast
  refine ⟨r, hrun, fun h => ?_, Option.some.inj htold⟩
  exact absurd (h.single 0 1 j j' hj hj' hjr hjr' (hjp.trans hjp'.symm)) (by decide)

end Jobs
end Willie
