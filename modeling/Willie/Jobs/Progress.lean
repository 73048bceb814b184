import Mathlib.Algebra.GroupWithZero.Nat
import Willie.Jobs.Balance

/-!
# Jobs — every job ends

A slot that is free is known to a thread that will take it or pass the word
on: no wake-up is lost while another sleeps. So the jobs' steps stop only
when every job has ended, and they do stop. On its way each job gives back
its slot, its claim and its entry, each of them once.
-/

namespace Willie
namespace Jobs

open Daemon (JobId)
open Runs

variable {r r' : Runner} {a : Action} {as : List Action} {id : JobId} {w w' : Worker}

/-! ## Giving back -/

/-- What a job gives back. -/
inductive Release where
  | slot
  | claim
  | entry
  deriving DecidableEq

/-- What a step gives back, and of which job. -/
def Runner.releases (r : Runner) : Action → List (JobId × Release)
  | .turn id _ =>
    match r.workers[id]?.map Worker.stage with
    | some (.ending _ .full) => [(id, .slot)]
    | some (.ending _ .released) => [(id, .claim)]
    | some (.ending _ .cleared) => [(id, .entry)]
    | _ => []
  | _ => []

/-- Has a job at this stage given it back? -/
def Stage.gave (x : Release) : Stage → Bool
  | .ending _ .full => false
  | .ending _ .decremented | .ending _ .released => x = .slot
  | .ending _ .cleared => x = .slot || x = .claim
  | .ending _ .removed | .done => true
  | _ => false

/-- What of a job is given back in a trace. -/
def Once (t : List (JobId × Release)) (r : Runner) : Prop :=
  ∀ id x, t.count (id, x) = match r.workers[id]? with
    | some w => (w.stage.gave x).toNat
    | none => 0

/-- A turn gives back what its stage then has given. -/
theorem Turned.gave {s s' : Shared} (h : Turned s id w s' w') (hw : r.workers[id]? = some w)
    (input : Input) (x : Release) :
    (w.stage.gave x).toNat + (r.releases (.turn id input)).count (id, x) =
      (w'.stage.gave x).toNat := by
  simp only [Runner.releases, hw, Option.map_some]
  cases h with
  | take h | sleep h => rcases h with h | h <;> simp [h, Stage.gave]
  | giveBack o h | unclaim o h | unregister o h => cases x <;> simp [h, Stage.gave]
  | register h | announce h | spawn h | skip h | begin h | finish h | conclude _ h =>
    simp [h, Stage.gave]

theorem releases_other {input : Input} {i : JobId} {x : Release} (hi : i ≠ id) :
    (r.releases (.turn id input)).count (i, x) = 0 := by
  simp only [Runner.releases]
  split <;> simp [Ne.symm hi]

theorem Once.move {t : List (JobId × Release)} {stage : Stage} (h : Once t r)
    (hw : r.workers[id]? = some w) (hgave : ∀ x, stage.gave x = w.stage.gave x) :
    Once t (r.move id w stage) := by
  intro i x
  rw [h i x, getElem?_move hw]
  by_cases hi : i = id
  · simp [hi, hw, hgave]
  · simp [hi]

theorem Once.next {t : List (JobId × Release)} (h : Once t r) (hs : Stepped r a r') :
    Once (t ++ r.releases a) r' := by
  cases hs with
  | idle _ s running taken cancels jobs still =>
    have hnone : r.releases a = [] := by
      cases a with
      | turn id input => exact absurd trivial still
      | _ => rfl
    rw [hnone, List.append_nil]
    exact h
  | submit kind o free =>
    intro i x
    rw [show r.releases (.submit kind o) = [] from rfl, List.append_nil, h i x, getElem?_snoc]
    by_cases hi : i = r.workers.length
    · simp [hi, Stage.gave]
    · simp [hi]
  | turn id input w w' s worker turned =>
    intro i x
    rw [List.count_append, h i x]
    simp only [getElem?_set_worker worker]
    by_cases hi : i = id
    · subst hi
      simpa [worker] using turned.gave worker input x
    · simp [hi, releases_other hi]
  | quiet id w o worker stage nobody =>
    rw [show r.releases (.notify id none) = [] from rfl, List.append_nil]
    exact h.move worker fun x => by simp [stage, Stage.gave]
  | wakes id j w v o worker stage sleeper waits other =>
    rw [show r.releases (.notify id (some j)) = [] from rfl, List.append_nil]
    refine (h.move worker fun x => by simp [stage, Stage.gave]).move (w := v) ?_
      fun x => by simp [waits, Stage.gave]
    rw [getElem?_move worker, if_neg other, sleeper]
  | spurious id w worker waits =>
    rw [show r.releases (.spurious id) = [] from rfl, List.append_nil]
    exact h.move worker fun x => by simp [waits, Stage.gave]

/-! ## No lost wake-up -/

/-- How many jobs stir. -/
def stirring (ws : List Worker) : ℕ := ws.countP (·.stage.stirs)

theorem stirring_set (w' : Worker) (hw : r.workers[id]? = some w) :
    stirring (r.workers.set id w') + w.stage.stirs.toNat =
      stirring r.workers + w'.stage.stirs.toNat :=
  countP_replace hw

/-- **A free slot is on somebody's mind**: while a thread sleeps there are as
many about to ask or to pass the word on as there are free slots. -/
def Awake (r : Runner) : Prop :=
  (∃ v ∈ r.workers, v.stage = .waiting) → limit - r.running ≤ stirring r.workers

/-- Who sleeps after a move slept before, if the one that moved does not. -/
theorem sleeper_of_set (hw : r.workers[id]? = some w) (hstage : w'.stage ≠ .waiting)
    (h : ∃ v ∈ r.workers.set id w', v.stage = .waiting) : ∃ v ∈ r.workers, v.stage = .waiting := by
  obtain ⟨v, hv, hwait⟩ := h
  obtain ⟨i, hi⟩ := List.mem_iff_getElem?.mp hv
  rw [getElem?_set_worker hw] at hi
  split at hi
  · obtain rfl := Option.some.inj hi
    exact absurd hwait hstage
  · exact ⟨v, List.mem_of_getElem? hi, hwait⟩

theorem Awake.turn {s' : Shared} (h : Awake r) (hb : Balanced r) (hw : r.workers[id]? = some w)
    (ht : Turned r.toShared id w s' w') : Awake ⟨s', r.workers.set id w'⟩ := by
  intro hsleeps
  have hcount := stirring_set w' hw
  have hslots := (hb.turn hw ht).slots
  cases ht with
  | sleep hstage hfull =>
    -- it sleeps because no slot is free
    simp only
    omega
  | take hstage hroom =>
    have := h (sleeper_of_set hw (by simp) hsleeps)
    simp only [limit] at this hroom ⊢
    rcases hstage with hstage | hstage <;> simp [hstage, Stage.stirs] at hcount <;> omega
  | giveBack o hstage =>
    have := h (sleeper_of_set hw (by simp) hsleeps)
    simp only [limit] at this ⊢
    simp [hstage, Stage.stirs] at hcount
    omega
  | unclaim o hstage =>
    have := h (sleeper_of_set hw (by simp) hsleeps)
    have hrunning : (r.unclaim w.projectId).running = r.running := by
      cases hp : w.projectId <;> simp [Shared.unclaim]
    simp [hstage, Stage.stirs] at hcount
    simp only [hrunning]
    omega
  | register hstage | announce hstage | spawn hstage | skip hstage | begin hstage
  | finish hstage | unregister _ hstage | conclude _ hstage =>
    have := h (sleeper_of_set hw (by simp) hsleeps)
    simp [hstage, Stage.stirs] at hcount
    simp only [Shared.emit]
    omega

theorem Awake.next (h : Awake r) (hb : Balanced r) (hs : Stepped r a r') : Awake r' := by
  cases hs with
  | idle _ s running taken cancels jobs still =>
    intro hsleeps
    simp only [running]
    exact h hsleeps
  | submit kind o free =>
    rintro ⟨v, hv, hwait⟩
    have hrunning : (r.claim o).running = r.running := by cases o <;> rfl
    have hmem : v ∈ r.workers := by
      rcases List.mem_append.mp hv with hv | hv
      · exact hv
      · obtain rfl := List.mem_singleton.mp hv
        cases hwait
    have := h ⟨v, hmem, hwait⟩
    simpa [hrunning, stirring, List.countP_append, Stage.stirs] using this
  | turn id input w w' s worker turned => exact h.turn hb worker turned
  | quiet id w o worker stage nobody =>
    intro hsleeps
    obtain ⟨v, hv, hwait⟩ := sleeper_of_set worker (by simp) hsleeps
    have := List.any_eq_false.mp nobody v hv
    simp [Worker.waits, hwait] at this
  | wakes id j w v o worker stage sleeper waits other =>
    intro _
    have := h ⟨v, List.mem_of_getElem? sleeper, waits⟩
    have hfirst := stirring_set { w with stage := .ending o .released } worker
    have hv : (r.move id w (.ending o .released)).workers[j]? = some v := by
      rw [getElem?_move worker, if_neg other, sleeper]
    have hsecond := stirring_set { v with stage := .woken } hv
    simp only [Runner.move, stage, waits, Stage.stirs, Bool.toNat_true, Bool.toNat_false]
      at hfirst hsecond ⊢
    omega
  | spurious id w worker waits =>
    intro _
    have := h ⟨w, List.mem_of_getElem? worker, waits⟩
    have hcount := stirring_set { w with stage := .woken } worker
    simp only [Runner.move, waits, Stage.stirs, Bool.toNat_true, Bool.toNat_false] at hcount ⊢
    omega

/-- **A runner none of whose jobs can move has seen them all end.** -/
theorem all_done (hb : Balanced r) (ha : Awake r)
    (hstuck : ∀ a, a.ofJob → r.step a = none) : ∀ w ∈ r.workers, w.stage = .done := by
  have rest : ∀ w ∈ r.workers, w.stage = .waiting ∨ w.stage = .done := by
    intro w hw
    obtain ⟨id, hid⟩ := List.mem_iff_getElem?.mp hw
    have hturn := hstuck (.turn id ⟨"", .panicked none⟩) trivial
    simp only [Runner.step, hid, Option.bind_eq_bind, Option.bind_some] at hturn
    cases hstage : w.stage with
    | waiting => exact .inl rfl
    | done => exact .inr rfl
    | claimed | registered | announced | acquired | working => simp [Worker.turn, hstage] at hturn
    | queued | woken =>
      simp only [Worker.turn, hstage] at hturn
      split at hturn <;> simp at hturn
    | ending o c =>
      cases c with
      | full | released | cleared | removed => simp [Worker.turn, hstage] at hturn
      | decremented =>
        by_cases hany : r.workers.any Worker.waits = true
        · obtain ⟨v, hv, hwaits⟩ := List.any_eq_true.mp hany
          obtain ⟨j, hj⟩ := List.mem_iff_getElem?.mp hv
          have := hstuck (.notify id (some j)) trivial
          simp [Runner.step, hid, hstage, hj, hwaits] at this
        · have := hstuck (.notify id none) trivial
          simp [Runner.step, hid, hstage, hany] at this
  intro w hw
  rcases rest w hw with hwait | hdone
  · -- it sleeps, so every slot is taken; but nobody has one
    have hawake := ha ⟨w, hw, hwait⟩
    have hslots : r.workers.countP (·.stage.holdsSlot) = 0 := by
      refine List.countP_eq_zero.mpr fun v hv => ?_
      rcases rest v hv with h | h <;> simp [h, Stage.holdsSlot]
    have hstirs : stirring r.workers = 0 := by
      refine List.countP_eq_zero.mpr fun v hv => ?_
      rcases rest v hv with h | h <;> simp [h, Stage.stirs]
    have := hb.slots
    simp only [limit] at hawake
    omega
  · exact hdone

/-! ## An end to it -/

/-- How much a job has left. Being woken costs the one that wakes. -/
def Stage.left : Stage → ℕ
  | .claimed => 14
  | .registered => 13
  | .announced => 12
  | .queued => 11
  | .woken => 11
  | .waiting => 10
  | .acquired => 9
  | .working => 8
  | .ending _ .full => 7
  | .ending _ .decremented => 6
  | .ending _ .released => 4
  | .ending _ .cleared => 3
  | .ending _ .removed => 2
  | .done => 0

/-- How much all jobs have left. -/
def left (ws : List Worker) : ℕ := (ws.map (·.stage.left)).sum

theorem sum_replace {α : Type} {l : List α} {i : ℕ} {a b : α} {f : α → ℕ} (h : l[i]? = some a) :
    ((l.set i b).map f).sum + f a = (l.map f).sum + f b := by
  induction l generalizing i with
  | nil => simp at h
  | cons x l ih =>
    cases i with
    | zero =>
      obtain rfl := Option.some.inj h
      simp
      omega
    | succ i =>
      have := ih h
      simp only [List.set_cons_succ, List.map_cons, List.sum_cons]
      omega

theorem left_set (w' : Worker) (hw : r.workers[id]? = some w) :
    left (r.workers.set id w') + w.stage.left = left r.workers + w'.stage.left :=
  sum_replace hw

/-- **A job's step leaves less to do.** -/
theorem left_lt (hs : Stepped r a r') (ha : a.ofJob) : left r'.workers < left r.workers := by
  cases hs with
  | idle _ s running taken cancels jobs still => exact absurd ha still
  | submit | spurious => exact ha.elim
  | turn id input w w' s worker turned =>
    have hsum := left_set w' worker
    have hlt : w'.stage.left < w.stage.left := by
      cases turned with
      | take h | sleep h => rcases h with h | h <;> simp [h, Stage.left]
      | register h | announce h | spawn h | skip h | begin h | finish h | giveBack _ h
      | unclaim _ h | unregister _ h | conclude _ h => simp [h, Stage.left]
    simp only
    omega
  | quiet id w o worker stage nobody =>
    have hsum := left_set { w with stage := .ending o .released } worker
    simp only [stage, Stage.left] at hsum
    simp only [Runner.move]
    omega
  | wakes id j w v o worker stage sleeper waits other =>
    have hfirst := left_set { w with stage := .ending o .released } worker
    have hv : (r.move id w (.ending o .released)).workers[j]? = some v := by
      rw [getElem?_move worker, if_neg other, sleeper]
    have hsecond := left_set { v with stage := .woken } hv
    simp only [Runner.move, stage, waits, Stage.left] at hfirst hsecond ⊢
    omega

end Jobs
end Willie
