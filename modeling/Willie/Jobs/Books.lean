import Willie.Jobs.Runner

/-!
# Jobs — the books and the stream

What every job has out at a stage of its life: a slot, the claim on its
project or on the tools, an entry among the cancel flags; and what the
stream has said of it. The books always balance: they hold what the jobs
have out, no more and no less.
-/

namespace Willie
namespace Jobs

open Daemon (JobId JobKind JobState Job Event EventKind Mutation)
open Projects (ProjectId)

/-! ## What a job has out -/

def Stage.holdsSlot : Stage → Bool
  | .acquired | .working | .ending _ .full => true
  | _ => false

def Stage.holdsClaim : Stage → Bool
  | .ending _ .cleared | .ending _ .removed | .done => false
  | _ => true

def Stage.holdsEntry : Stage → Bool
  | .claimed | .ending _ .removed | .done => false
  | _ => true

/-- It sleeps no longer, or owes another the notification. -/
def Stage.stirs : Stage → Bool
  | .woken | .ending _ .decremented => true
  | _ => false

/-- What the stream has said of a job. -/
inductive Phase where
  | silent
  | running
  | final
  deriving DecidableEq

def Stage.phase : Stage → Phase
  | .claimed | .registered => .silent
  | .done => .final
  | _ => .running

/-! ## The stream -/

/-- The jobs the events tell of, in their order. -/
def jobsOf (evs : List Event) : List Job :=
  evs.filterMap fun e => match e.kind with
    | .jobChanged job => some job
    | _ => none

/-- What was last said of a job. -/
def lastOf (js : List Job) (id : JobId) : Option Job := (js.filter (·.id = id)).getLast?

/-- How many final events a job has. -/
def finals (js : List Job) (id : JobId) : ℕ := js.countP fun j => j.id = id ∧ j.state ≠ .running

/-- **At most one job of a project, and at most one of none, is running.** -/
def Single (js : List Job) : Prop :=
  ∀ id id' j j', lastOf js id = some j → lastOf js id' = some j' → j.state = .running →
    j'.state = .running → j.projectId = j'.projectId → id = id'

theorem lastOf_snoc {js : List Job} {j : Job} {id : JobId} :
    lastOf (js ++ [j]) id = if j.id = id then some j else lastOf js id := by
  unfold lastOf
  rw [List.filter_append]
  split
  · rename_i h
    simp [h]
  · rename_i h
    simp [h]

theorem finals_snoc {js : List Job} {j : Job} {id : JobId} :
    finals (js ++ [j]) id = finals js id + if j.id = id ∧ j.state ≠ .running then 1 else 0 := by
  simp [finals, List.countP_append, List.countP_singleton]

@[simp] theorem jobsOf_emit {s : Shared} {job : Job} :
    jobsOf (s.emit (.upsertJob job)).sent = jobsOf s.sent ++ [job] := by
  simp [Shared.emit, jobsOf, Mutation.apply, Daemon.State.upsertJob]

/-- Another thread's event tells of no job. -/
theorem jobsOf_emit_other {s : Shared} {m : Mutation} (h : ∀ job, m ≠ .upsertJob job) :
    jobsOf (s.emit m).sent = jobsOf s.sent := by
  cases m with
  | upsertJob job => exact absurd rfl (h job)
  | upsertProject p | removeProject id | upsertSession se =>
    simp [Shared.emit, jobsOf, Mutation.apply, Daemon.State.upsertProject,
      Daemon.State.removeProject, Daemon.State.upsertSession]

/-! ## What a step of a job does -/

/-- **The turns of a job**, one for each thing it does. -/
inductive Turned (s : Shared) (id : JobId) (w : Worker) : Shared → Worker → Prop where
  | register (h : w.stage = .claimed) :
    Turned s id w { s with cancels := id :: s.cancels } { w with stage := .registered }
  | announce (h : w.stage = .registered) (now : String) :
    Turned s id w
      (s.emit (.upsertJob ({ w with startedAt := now, stage := .announced }.running id)))
      { w with startedAt := now, stage := .announced }
  | spawn (h : w.stage = .announced) : Turned s id w s { w with stage := .queued }
  | take (h : w.stage = .queued ∨ w.stage = .woken) (hroom : s.running < limit) :
    Turned s id w { s with running := s.running + 1 } { w with stage := .acquired }
  | sleep (h : w.stage = .queued ∨ w.stage = .woken) (hfull : limit ≤ s.running) :
    Turned s id w s { w with stage := .waiting }
  | skip (h : w.stage = .acquired) :
      Turned s id w s { w with stage := .ending cancelledOutcome .full }
  | begin (h : w.stage = .acquired) : Turned s id w s { w with stage := .working }
  | finish (h : w.stage = .working) (o : JobOutcome) :
    Turned s id w s { w with stage := .ending o .full }
  | giveBack (o : JobOutcome) (h : w.stage = .ending o .full) :
    Turned s id w { s with running := s.running - 1 } { w with stage := .ending o .decremented }
  | unclaim (o : JobOutcome) (h : w.stage = .ending o .released) :
    Turned s id w (s.unclaim w.projectId) { w with stage := .ending o .cleared }
  | unregister (o : JobOutcome) (h : w.stage = .ending o .cleared) :
    Turned s id w { s with cancels := s.cancels.filter (· ≠ id) }
      { w with stage := .ending o .removed }
  | conclude (o : JobOutcome) (h : w.stage = .ending o .removed) (now : String) :
    Turned s id w (s.emit (.upsertJob (w.final id now o))) { w with stage := .done }

theorem turned {s s' : Shared} {id : JobId} {w w' : Worker} {input : Input}
    (h : w.turn s id input = some (s', w')) : Turned s id w s' w' := by
  unfold Worker.turn at h
  split at h
  · cases h
    exact .register ‹_›
  · cases h
    exact .announce ‹_› input.now
  · cases h
    exact .spawn ‹_›
  · split at h
    · cases h
      exact .take (.inl ‹_›) ‹_›
    · cases h
      exact .sleep (.inl ‹_›) (by omega)
  · split at h
    · cases h
      exact .take (.inr ‹_›) ‹_›
    · cases h
      exact .sleep (.inr ‹_›) (by omega)
  · cases h
  · cases h
    split
    · exact .skip ‹_›
    · exact .begin ‹_›
  · cases h
    exact .finish ‹_› _
  · cases h
    exact .giveBack _ ‹_›
  · cases h
  · cases h
    exact .unclaim _ ‹_›
  · cases h
    exact .unregister _ ‹_›
  · cases h
    exact .conclude _ ‹_› input.now
  · cases h

/-- A step of a job: what it does itself, or the notification it owes. -/
def Action.ofJob : Action → Prop
  | .turn .. | .notify .. => True
  | _ => False

/-- **What a step of the runner can be.** -/
inductive Stepped (r : Runner) : Action → Runner → Prop where
  /-- A refused `submit`, a cancel, a shutdown, another thread: no job moves. -/
  | idle (a : Action) (s : Shared) (running : s.running = r.running)
    (taken : ∀ o, s.taken o = r.taken o) (cancels : s.cancels = r.cancels)
    (jobs : jobsOf s.sent = jobsOf r.sent) (still : ¬ a.ofJob) :
    Stepped r a ⟨s, r.workers⟩
  | submit (kind : JobKind) (o : Option ProjectId) (free : r.taken o = false) :
    Stepped r (.submit kind o) ⟨r.claim o, r.workers ++ [⟨kind, o, "", .claimed⟩]⟩
  | turn (id : JobId) (input : Input) (w w' : Worker) (s : Shared)
      (worker : r.workers[id]? = some w)
    (turned : Turned r.toShared id w s w') :
    Stepped r (.turn id input) ⟨s, r.workers.set id w'⟩
  | quiet (id : JobId) (w : Worker) (o : JobOutcome) (worker : r.workers[id]? = some w)
    (stage : w.stage = .ending o .decremented) (nobody : r.workers.any Worker.waits = false) :
    Stepped r (.notify id none) (r.move id w (.ending o .released))
  | wakes (id j : JobId) (w v : Worker) (o : JobOutcome) (worker : r.workers[id]? = some w)
    (stage : w.stage = .ending o .decremented) (sleeper : r.workers[j]? = some v)
    (waits : v.stage = .waiting) (other : j ≠ id) :
    Stepped r (.notify id (some j)) ((r.move id w (.ending o .released)).move j v .woken)
  | spurious (id : JobId) (w : Worker) (worker : r.workers[id]? = some w)
    (waits : w.stage = .waiting) : Stepped r (.spurious id) (r.move id w .woken)

theorem stepped {r r' : Runner} {a : Action} (h : r.step a = some r') : Stepped r a r' := by
  cases a with
  | submit kind o =>
    simp only [Runner.step] at h
    split at h
    · cases h
      exact .idle _ r.toShared rfl (fun _ => rfl) rfl rfl id
    · rename_i hfree
      cases h
      exact .submit kind o (by simpa using hfree)
  | turn id input =>
    simp only [Runner.step, Option.bind_eq_bind, Option.bind_eq_some_iff] at h
    obtain ⟨w, hw, ⟨s, w'⟩, hturn, h⟩ := h
    cases h
    exact .turn id input w w' s hw (turned hturn)
  | notify id wakes =>
    simp only [Runner.step, Option.bind_eq_bind, Option.bind_eq_some_iff] at h
    obtain ⟨w, hw, h⟩ := h
    split at h
    · rename_i o hstage
      cases wakes with
      | none =>
        simp only at h
        split at h
        · cases h
        · rename_i hnobody
          cases h
          exact .quiet id w o hw hstage (Bool.eq_false_iff.mpr hnobody)
      | some j =>
        simp only [Option.bind_eq_some_iff] at h
        obtain ⟨v, hv, h⟩ := h
        split at h
        · rename_i hwaits
          cases h
          have hwaits := beq_iff_eq.mp hwaits
          refine .wakes id j w v o hw hstage hv hwaits ?_
          rintro rfl
          obtain rfl := Option.some.inj (hw.symm.trans hv)
          simp [hstage] at hwaits
        · cases h
    · cases h
  | spurious id =>
    simp only [Runner.step, Option.bind_eq_bind, Option.bind_eq_some_iff] at h
    obtain ⟨w, hw, h⟩ := h
    split at h
    · rename_i hwaits
      cases h
      exact .spurious id w hw (beq_iff_eq.mp hwaits)
    · cases h
  | cancel id =>
    simp only [Runner.step] at h
    cases h
    split
    · exact .idle _ { r.toShared with tripped := id :: r.tripped } rfl (fun o => by cases o <;> rfl)
        rfl rfl not_false
    · exact .idle _ r.toShared rfl (fun _ => rfl) rfl rfl not_false
  | shutdown =>
    simp only [Runner.step] at h
    cases h
    exact .idle _ { r.toShared with tripped := r.cancels ++ r.tripped } rfl
      (fun o => by cases o <;> rfl) rfl rfl not_false
  | other m =>
    cases m with
    | upsertJob job => cases h
    | upsertProject p | removeProject id | upsertSession se =>
      simp only [Runner.step] at h
      cases h
      exact .idle _ _ rfl (fun o => by cases o <;> rfl) rfl (jobsOf_emit_other (by simp))
        not_false

/-- The stream only grows. -/
theorem Stepped.jobs_grow {r r' : Runner} {a : Action} (h : Stepped r a r') :
    jobsOf r.sent <+: jobsOf r'.sent := by
  cases h with
  | idle _ s running taken cancels jobs still => exact jobs ▸ List.prefix_refl _
  | submit kind o free => cases o <;> exact List.prefix_refl _
  | quiet | wakes | spurious => exact List.prefix_refl _
  | turn id input w w' s worker turned =>
    cases turned with
    | announce h now => exact jobsOf_emit ▸ List.prefix_append _ _
    | conclude o h now => exact jobsOf_emit ▸ List.prefix_append _ _
    | unclaim o h =>
      have hsent : (r.unclaim w.projectId).sent = r.sent := by
        cases hp : w.projectId <;> simp [Shared.unclaim]
      exact hsent ▸ List.prefix_refl _
    | register | spawn | take | sleep | skip | begin | finish | giveBack | unregister =>
      exact List.prefix_refl _

end Jobs
end Willie
