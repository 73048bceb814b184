import Willie.Projects.Serial

/-!
# Projects — trying a job again

A sync, an update or a relocation on its own, from its request to its end:
whether it was cancelled when an instruction looks, and what git answers, is
part of each step. None of the three makes a project Ready, and a cancel one
of them notices makes it Failed; so the project stays one `session.create`
accepts, or can be brought back to it by the same operation, exactly if no
cancel was noticed (`retry_iff`).
-/

namespace Willie
namespace Projects

variable {m m' : Shared} {p q copy : Project} {i : Instr} {rest script : List Instr}
  {answer : Bool × Reply} {answers : List (Bool × Reply)} {job : Job}

/-! ## A job on its own -/

/-- One instruction of a thread: whether its job is cancelled by then, and
what the machine answers. -/
def alone (copy : Project) : Shared × List Instr → Bool × Reply → Option (Shared × List Instr)
  | (m, i :: rest), (cancelled, reply) => i.perform m copy cancelled rest reply
  | _, _ => none

/-- The jobs that can be tried again. -/
def Job.Retries : Job → Prop
  | .syncToWindows => True
  | .updateFromWindows => True
  | .relocate _ => True
  | _ => False

/-- The instruction does not find its job cancelled under way. -/
def Unnoticed (st : Shared × List Instr) (answer : Bool × Reply) : Prop :=
  match st.2.head? with
  | some (.checkCancelled _) => answer.1 = false
  | _ => True

instance (st : Shared × List Instr) (answer : Bool × Reply) : Decidable (Unnoticed st answer) := by
  unfold Unnoticed
  split <;> infer_instance

/-- The instruction does not end its job before its work is done. -/
def Passes (st : Shared × List Instr) (answer : Bool × Reply) : Prop :=
  match st.2.head? with
  | some .begin => answer.1 = false
  | some (.checkCancelled _) => answer.1 = false
  | some (.git _) => answer.2 = .ok
  | _ => True

/-- A run of a job to its end. -/
def Job.Runs (job : Job) (copy : Project) (m : Shared) (answers : List (Bool × Reply))
    (m' : Shared) : Prop :=
  Runs.exec (alone copy) (m, job.script) answers = some (m', [])

/-- What `session.create` asks of the project's state. -/
def Shared.Ready (m : Shared) (id : ProjectId) : Prop :=
  ∃ p, m.projects.lookup id = some p ∧ p.state = .ready

/-- **The operation can be tried again**: some later run of it that completes,
on the record as it is, leaves the project Ready. -/
def Shared.Retryable (m : Shared) (job : Job) (id : ProjectId) : Prop :=
  ∃ copy later answers after, m.projects.lookup id = some copy ∧
    later.projects.lookup id = some copy ∧ job.Runs copy later answers after ∧
    Runs.Guarded (alone copy) Passes (later, job.script) answers ∧ after.Ready id

/-! ## What a run leaves of the record -/

/-- What the instruction writes of the state has the property. -/
def Instr.Leaves (P : ProjectState → Prop) (copy : Project) : Instr → Prop
  | .update c _ _ => ∃ e, c = .edit e ∧ P (e.apply copy).state
  | .forget _ => False
  | .git addFail => addFail = false
  | _ => True

/-- The project's state has a property, and the thread leaves it so. -/
structure Holds (P : ProjectState → Prop) (copy : Project) (st : Shared × List Instr) : Prop where
  record : ∃ r, st.1.projects.lookup copy.id = some r ∧ r.id = copy.id ∧ P r.state
  script : ∀ j ∈ st.2, j.Leaves P copy

section Leaves

variable {P : ProjectState → Prop} {st st' : Shared × List Instr}

theorem leaves_cleanup : ∀ j ∈ cleanup, j.Leaves P copy := by simp [cleanup, Instr.Leaves]

/-- The three jobs write no state of their own. -/
theorem Job.Retries.leaves (h : job.Retries) (hP : P copy.state) :
    ∀ j ∈ job.script, j.Leaves P copy := by
  cases job with
  | add => exact h.elim
  | remove => exact h.elim
  | relocate windowsPath =>
    have hkeep : P (Edit.apply copy (.relocated windowsPath)).state := hP
    simp [Job.script, Job.work, cleanup, updateProject, Instr.Leaves, hkeep]
  | _ => simp [Job.script, Job.work, cleanup, Instr.Leaves]

/-- An instruction that finds no cancel, and whose failure is not written to
the record, goes on or ends the job. -/
theorem perform_unnoticed {reply : Reply} {cancelled : Bool} (hw : ¬ i.Writes)
    (hgit : i ≠ .git true) (hcheck : ∀ kind, i = .checkCancelled kind → cancelled = false)
    (hp : i.perform m copy cancelled rest reply = some (m', script)) :
    script = rest ∨ script = [] ∨ script = cleanup := by
  cases i with
  | update => exact absurd trivial hw
  | forget => exact absurd trivial hw
  | checkCancelled kind =>
    obtain rfl := hcheck kind rfl
    obtain ⟨-, rfl⟩ := Prod.mk.inj (Option.some.inj hp)
    exact .inl rfl
  | git addFail =>
    obtain rfl : addFail = false := by simpa using hgit
    obtain ⟨-, rfl⟩ := Prod.mk.inj (Option.some.inj hp)
    cases reply <;> simp
  | acquire =>
    simp only [Instr.perform] at hp
    grind
  | _ =>
    simp only [Instr.perform] at hp
    grind

/-- **A step leaves the property**, if an interruption has it or none is
noticed. -/
theorem Holds.step (h : Holds P copy (m, i :: rest))
    (hok : Unnoticed (m, i :: rest) answer ∨ ∀ kind, P ((interrupted kind).apply copy).state)
    (hstep : alone copy (m, i :: rest) answer = some (m', script)) :
    Holds P copy (m', script) := by
  have hp : i.perform m copy answer.1 rest answer.2 = some (m', script) := hstep
  obtain ⟨⟨r, hr, hid, hP⟩, hscript⟩ := h
  obtain ⟨hi, hrest⟩ := List.forall_mem_cons.mp hscript
  have same (hproj : m'.projects = m.projects) (hs : ∀ j ∈ script, j.Leaves P copy) :
      Holds P copy (m', script) := ⟨⟨r, hproj ▸ hr, hid, hP⟩, hs⟩
  by_cases hw : i.Writes
  · cases i with
    | update c strict stage =>
      have next (sg : Stage) : ∀ j ∈ Instr.update c strict sg :: rest, j.Leaves P copy :=
        List.forall_mem_cons.mpr ⟨hi, hrest⟩
      cases stage with
      | tmp =>
        obtain ⟨hproj, -, ⟨-, rfl⟩ | ⟨-, rfl⟩⟩ := perform_tmp hp
        · exact same hproj (next _)
        · refine same hproj ?_
          split
          · simp
          · exact next _
      | file =>
        obtain ⟨hproj, -, ⟨-, rfl⟩ | ⟨-, rfl⟩⟩ := perform_file hp
        · exact same hproj (next _)
        · refine same hproj ?_
          split
          · simp
          · exact next _
      | state =>
        obtain ⟨e, rfl, he⟩ := hi
        obtain ⟨hproj, -, -, rfl⟩ := perform_state hp
        refine ⟨⟨e.apply copy, ?_, e.apply_id copy, he⟩, hrest⟩
        show m'.projects.lookup copy.id = _
        rw [hproj]
        exact AList.lookup_insert _
    | forget => exact hi.elim
    | _ => exact hw.elim
  · have hproj := (perform_still hp hw).1
    refine same hproj ?_
    by_cases hcheck : ∀ kind, i = .checkCancelled kind → answer.1 = false
    · have hgit : i ≠ .git true := by
        rintro rfl
        exact absurd hi (by simp [Instr.Leaves])
      rcases perform_unnoticed hw hgit hcheck hp with rfl | rfl | rfl
      · exact hrest
      · simp
      · exact leaves_cleanup
    · -- the cancel is noticed, so the interruption has the property
      push Not at hcheck
      obtain ⟨kind, rfl, hcancel⟩ := hcheck
      have hint := hok.resolve_left fun hun => hcancel hun
      obtain ⟨-, rfl⟩ := Prod.mk.inj (Option.some.inj hp)
      rw [if_pos (by simpa using hcancel)]
      exact List.forall_mem_cons.mpr ⟨⟨_, rfl, hint kind⟩, leaves_cleanup⟩

/-- **So does a run.** -/
theorem Holds.run (h : Holds P copy st)
    (hok : Runs.Guarded (alone copy) Unnoticed st answers ∨
      ∀ kind, P ((interrupted kind).apply copy).state)
    (hrun : Runs.exec (alone copy) st answers = some st') : Holds P copy st' := by
  have hguard : Runs.Guarded (alone copy) (fun st answer => Unnoticed st answer ∨
      ∀ kind, P ((interrupted kind).apply copy).state) st answers := by
    rcases hok with hok | hok
    · exact hok.imp fun _ _ => .inl
    · exact Runs.guarded_of_forall fun _ _ => .inr hok
  refine Runs.exec_invariant hrun hguard h ?_
  rintro ⟨m, script⟩ answer st' h hok hstep
  cases script with
  | nil => simp [Projects.alone] at hstep
  | cons i rest => exact h.step hok hstep

end Leaves

/-! ## A cancel that is noticed -/

/-- A write that makes the project Failed is all that is left to do but the
cleanup, or it is done. -/
def Failing (e : Edit) (copy : Project) (st : Shared × List Instr) : Prop :=
  (∃ stage, st.2 = .update (.edit e) false stage :: cleanup) ∨ Holds (· ≠ .ready) copy st

theorem Failing.step {e : Edit} {st st' : Shared × List Instr}
    (he : (e.apply copy).state ≠ .ready) (h : Failing e copy st)
    (hstep : alone copy st answer = some st') : Failing e copy st' := by
  obtain ⟨m, script⟩ := st
  obtain ⟨m', script'⟩ := st'
  rcases h with ⟨stage, rfl⟩ | h
  · have hp : (Instr.update (.edit e) false stage).perform m copy answer.1 cleanup answer.2 =
        some (m', script') := hstep
    cases stage with
    | tmp =>
      obtain ⟨-, -, ⟨-, rfl⟩ | ⟨-, rfl⟩⟩ := perform_tmp hp
      · exact .inl ⟨_, rfl⟩
      · exact .inl ⟨_, rfl⟩
    | file =>
      obtain ⟨-, -, ⟨-, rfl⟩ | ⟨-, rfl⟩⟩ := perform_file hp
      · exact .inl ⟨_, rfl⟩
      · exact .inl ⟨_, rfl⟩
    | state =>
      obtain ⟨hproj, -, -, rfl⟩ := perform_state hp
      refine .inr ⟨⟨e.apply copy, ?_, e.apply_id copy, he⟩, leaves_cleanup⟩
      show m'.projects.lookup copy.id = _
      rw [hproj]
      exact AList.lookup_insert _
  · cases script with
    | nil => simp [Projects.alone] at hstep
    | cons i rest => exact .inr (h.step (.inr fun kind => by simp [interrupted, Edit.apply]) hstep)

/-- It ends so. -/
theorem failed_run {e : Edit} {stage : Stage} (he : (e.apply copy).state ≠ .ready)
    (hrun : Runs.exec (alone copy) (m, .update (.edit e) false stage :: cleanup) answers =
      some (m', [])) : Holds (· ≠ .ready) copy (m', []) := by
  have hstart : Failing e copy (m, .update (.edit e) false stage :: cleanup) := .inl ⟨stage, rfl⟩
  have hend : Failing e copy (m', []) :=
    Runs.exec_keeps hrun hstart fun _ _ _ h hstep => h.step he hstep
  refine hend.resolve_left ?_
  rintro ⟨stage', hcons⟩
  exact absurd hcons (List.cons_ne_nil _ _).symm

/-- **A run that notices a cancel makes the project Failed.** -/
theorem noticed_run {st : Shared × List Instr}
    (hrun : Runs.exec (alone copy) st answers = some (m', []))
    (hok : ¬ Runs.Guarded (alone copy) Unnoticed st answers) :
    Holds (· ≠ .ready) copy (m', []) := by
  obtain ⟨-, ⟨c, reply⟩, post, ⟨m₁, script⟩, m₂, -, hnot, hstep, hpost⟩ :=
    Runs.exists_of_not_guarded hrun hok
  unfold Unnoticed at hnot
  split at hnot
  · rename_i kind hhead
    obtain ⟨rest, rfl⟩ := List.head?_eq_some_iff.mp hhead
    obtain rfl : c = true := by simpa using hnot
    obtain rfl := Option.some.inj hstep
    exact failed_run (by simp [interrupted, Edit.apply]) hpost
  · exact absurd trivial hnot

/-- **A run on a project that is not Ready leaves it so.** -/
theorem Job.Retries.stays (h : job.Retries) (hlook : m.projects.lookup copy.id = some copy)
    (hstate : copy.state ≠ .ready) (hrun : job.Runs copy m answers m') : ¬ m'.Ready copy.id := by
  have hstart : Holds (· ≠ .ready) copy (m, job.script) :=
    ⟨⟨copy, hlook, rfl, hstate⟩, h.leaves hstate⟩
  obtain ⟨r, hr, -, hne⟩ :=
    (hstart.run (.inr fun kind => by simp [interrupted, Edit.apply]) hrun).record
  rintro ⟨r', hr', hready⟩
  obtain rfl := Option.some.inj (hr.symm.trans hr')
  exact hne hready

/-- After a cancel that was noticed no run of the operation helps. -/
theorem noticed_lost (hjob : job.Retries) (hrun : job.Runs p m answers m')
    (hok : ¬ Runs.Guarded (alone p) Unnoticed (m, job.script) answers) :
    ¬ (m'.Ready p.id ∨ m'.Retryable job p.id) := by
  obtain ⟨r, hr, hid, hne⟩ := (noticed_run hrun hok).record
  rintro (⟨q, hq, hqr⟩ | ⟨q, later, answers', after, hq, hlater, hrun', -, hafter⟩)
  · obtain rfl := Option.some.inj (hr.symm.trans hq)
    exact hne hqr
  · obtain rfl := Option.some.inj (hr.symm.trans hq)
    rw [← hid] at hlater hafter
    exact hjob.stays hlater hne hrun' hafter

/-- **A job that ended can be tried again exactly if it noticed no cancel.**
Then its project is still Ready; after a cancel that was noticed no later run
of the operation makes it so. -/
theorem retry_iff (hjob : job.Retries) (hlook : m.projects.lookup p.id = some p)
    (hready : p.state = .ready) (hrun : job.Runs p m answers m') :
    m'.Ready p.id ∨ m'.Retryable job p.id ↔
      Runs.Guarded (alone p) Unnoticed (m, job.script) answers := by
  refine ⟨fun h => by_contra fun hok => noticed_lost hjob hrun hok h, fun hok => .inl ?_⟩
  have hstart : Holds (· = .ready) p (m, job.script) :=
    ⟨⟨p, hlook, rfl, hready⟩, hjob.leaves hready⟩
  obtain ⟨r, hr, -, hrs⟩ := (hstart.run (.inl hok) hrun).record
  exact ⟨r, hr, hrs⟩

/-- What a sync of the cloned project is answered: the push fails. -/
def failedPush : List (Bool × Reply) :=
  List.replicate 7 (false, .ok) ++ (false, .err ⟨"git_failed", "rejected"⟩) ::
    List.replicate 3 (false, .ok)

/-- A sync whose push fails leaves its project Ready. -/
theorem retry_iff_push : ∃ m', Job.syncToWindows.Runs clonedProject loadedDaemon.toShared
    failedPush m' ∧ (m'.Ready 1 ∨ m'.Retryable .syncToWindows 1) := by
  have hrun : (Runs.exec (alone clonedProject) (loadedDaemon.toShared, Job.syncToWindows.script)
      failedPush).map (·.2) = some [] := by decide
  obtain ⟨⟨m', script⟩, hrun, rfl⟩ := Option.map_eq_some_iff.mp hrun
  have hok : Runs.Guarded (alone clonedProject) Unnoticed
      (loadedDaemon.toShared, Job.syncToWindows.script) failedPush := by decide
  have hjob : Job.syncToWindows.Retries := trivial
  exact ⟨m', hrun, (retry_iff (p := clonedProject) hjob rfl rfl hrun).mpr hok⟩

/-- A sync that is cancelled when it first looks. -/
def interruptedSync : List (Bool × Reply) :=
  List.replicate 2 (false, .ok) ++ List.replicate 7 (true, .ok)

/-- **An interrupted sync is not retryable**: the project is Failed, and a
sync that succeeds leaves it so. -/
theorem interrupted_not_retryable : ∃ m', Job.syncToWindows.Runs clonedProject
    loadedDaemon.toShared interruptedSync m' ∧
      ¬ (m'.Ready 1 ∨ m'.Retryable .syncToWindows 1) := by
  have hrun : (Runs.exec (alone clonedProject) (loadedDaemon.toShared, Job.syncToWindows.script)
      interruptedSync).map (·.2) = some [] := by decide
  obtain ⟨⟨m', script⟩, hrun, rfl⟩ := Option.map_eq_some_iff.mp hrun
  have hok : ¬ Runs.Guarded (alone clonedProject) Unnoticed
      (loadedDaemon.toShared, Job.syncToWindows.script) interruptedSync := by decide
  exact ⟨m', hrun, noticed_lost (p := clonedProject) trivial hrun hok⟩

end Projects
end Willie
