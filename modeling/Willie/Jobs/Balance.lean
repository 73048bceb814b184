import Willie.Jobs.Books

/-!
# Jobs — the books balance

Whatever the threads do, the pool counts the slots that jobs hold, a claim
stands exactly while one job holds it, the cancel entries are those of the
jobs that have one, and the stream has told of each job what its stage says.
Nothing is given back twice.
-/

namespace Willie
namespace Jobs

open Daemon (JobId JobKind JobState Job Event EventKind Mutation)
open Projects (ProjectId)

variable {r r' : Runner} {a : Action} {id : JobId} {w w' : Worker}

/-- Does the job hold the claim? -/
def Worker.holds (o : Option ProjectId) (w : Worker) : Bool :=
  w.projectId = o && w.stage.holdsClaim

/-- **The books balance.** -/
structure Balanced (r : Runner) : Prop where
  slots : r.running = r.workers.countP (·.stage.holdsSlot)
  room : r.running ≤ limit
  claims : ∀ o, (r.taken o).toNat = r.workers.countP (Worker.holds o)
  entries : ∀ id, id ∈ r.cancels ↔ ∃ w, r.workers[id]? = some w ∧ w.stage.holdsEntry = true

/-- What the stream has told of a job, by its stage. -/
def Told (js : List Job) (id : JobId) (w : Worker) : Prop :=
  match w.stage.phase with
  | .silent => lastOf js id = none ∧ finals js id = 0
  | .running =>
    (∃ j, lastOf js id = some j ∧ j.state = .running ∧ j.projectId = w.projectId) ∧
      finals js id = 0
  | .final => (∃ j, lastOf js id = some j ∧ j.state ≠ .running) ∧ finals js id = 1

/-- **The stream tells every job's story**, and of no other job. -/
structure Narrated (r : Runner) : Prop where
  told : ∀ id w, r.workers[id]? = some w → Told (jobsOf r.sent) id w
  untold : ∀ id, r.workers[id]? = none → lastOf (jobsOf r.sent) id = none

/-! ## Counting -/

/-- Replacing one entry of a list changes a count by what it counted. -/
theorem countP_replace {α : Type} {l : List α} {i : ℕ} {a b : α} {p : α → Bool}
    (h : l[i]? = some a) :
    (l.set i b).countP p + (p a).toNat = l.countP p + (p b).toNat := by
  obtain ⟨hi, rfl⟩ := List.getElem?_eq_some_iff.mp h
  have hmem : p l[i] = true → 0 < l.countP p := fun hp =>
    List.countP_pos_iff.mpr ⟨_, List.getElem_mem hi, hp⟩
  rw [List.countP_set hi]
  cases hp : p l[i] with
  | false => cases p b <;> simp
  | true =>
    have := hmem hp
    cases p b <;> simp <;> omega

/-- Where one at most is counted, two that count are one. -/
theorem index_unique {α : Type} {l : List α} {i j : ℕ} {a b : α} {p : α → Bool}
    (hle : l.countP p ≤ 1) (hi : l[i]? = some a) (hj : l[j]? = some b) (ha : p a = true)
    (hb : p b = true) : i = j := by
  have rest : ∀ {l : List α} {k : ℕ} {c x : α}, (x :: l).countP p ≤ 1 → p x = true →
      l[k]? = some c → p c = true → False := by
    intro l k c x hle hx hk hc
    have hpos : 0 < l.countP p := List.countP_pos_iff.mpr ⟨c, List.mem_of_getElem? hk, hc⟩
    rw [List.countP_cons_of_pos hx] at hle
    omega
  induction l generalizing i j with
  | nil => simp at hi
  | cons x l ih =>
    cases i with
    | zero =>
      obtain rfl := Option.some.inj hi
      cases j with
      | zero => rfl
      | succ j => exact (rest hle ha hj hb).elim
    | succ i =>
      cases j with
      | zero =>
        obtain rfl := Option.some.inj hj
        exact (rest hle hb hi ha).elim
      | succ j =>
        have hle' : l.countP p ≤ 1 := Nat.le_trans ((List.sublist_cons_self x l).countP_le) hle
        rw [ih hle' hi hj]

/-- What a job holds is counted. -/
theorem Balanced.holds_le (h : Balanced r) (o : Option ProjectId) :
    r.workers.countP (Worker.holds o) ≤ 1 := by
  rw [← h.claims o]
  exact Bool.toNat_le _

/-! ## The claims -/

theorem taken_claim {s : Shared} {o o' : Option ProjectId} :
    (s.claim o).taken o' = (o' = o || s.taken o') := by
  cases o with
  | none =>
    cases o' with
    | none => simp [Shared.claim, Shared.taken]
    | some p => rfl
  | some q => cases o' <;> simp [Shared.claim, Shared.taken]

theorem taken_unclaim {s : Shared} {o o' : Option ProjectId} :
    (s.unclaim o).taken o' = (o' ≠ o && s.taken o') := by
  cases o with
  | none =>
    cases o' with
    | none => simp [Shared.unclaim, Shared.taken]
    | some p => rfl
  | some q => cases o' <;> simp [Shared.unclaim, Shared.taken, and_comm]

theorem taken_emit {s : Shared} {m : Mutation} {o : Option ProjectId} :
    (s.emit m).taken o = s.taken o := by
  cases o <;> rfl

/-! ## A job's turn, book by book -/

variable {s s' : Shared}

theorem Turned.slots (h : Turned s id w s' w') (hpos : w.stage.holdsSlot = true → 0 < s.running) :
    s'.running + w.stage.holdsSlot.toNat = s.running + w'.stage.holdsSlot.toNat := by
  cases h with
  | take h | sleep h => rcases h with h | h <;> simp [h, Stage.holdsSlot]
  | giveBack o h =>
    have := hpos (by simp [h, Stage.holdsSlot])
    simp [h, Stage.holdsSlot]
    omega
  | register h | announce h | spawn h | skip h | begin h | finish h | unclaim _ h
  | unregister _ h | conclude _ h =>
    simp [h, Stage.holdsSlot, Shared.unclaim, Shared.emit] <;> cases w.projectId <;> rfl

theorem Turned.room (h : Turned s id w s' w') (hroom : s.running ≤ limit) : s'.running ≤ limit := by
  cases h with
  | take h hlt => exact hlt
  | giveBack o h => exact Nat.le_trans (Nat.sub_le _ _) hroom
  | unclaim o h => cases hp : w.projectId <;> simpa [Shared.unclaim] using hroom
  | register | announce | spawn | sleep | skip | begin | finish | unregister | conclude =>
    exact hroom

/-- A turn gives up the claim the job holds or leaves the claims alone. -/
theorem Turned.claims (h : Turned s id w s' w') (o : Option ProjectId)
    (htaken : w.holds o = true → s.taken o = true) :
    (s'.taken o).toNat + (w.holds o).toNat = (s.taken o).toNat + (w'.holds o).toNat := by
  cases h with
  | take h | sleep h =>
    rcases h with h | h <;> cases o <;>
      simp [h, Worker.holds, Stage.holdsClaim, Shared.taken]
  | unclaim o' h =>
    by_cases ho : o = w.projectId
    · have := htaken (by simp [Worker.holds, ho, h, Stage.holdsClaim])
      simp [taken_unclaim, ho, Worker.holds, h, Stage.holdsClaim] at this ⊢
      simp [this]
    · simp [taken_unclaim, ho, Worker.holds, Ne.symm ho]
  | register h | spawn h | skip h | begin h | finish h | giveBack _ h | unregister _ h =>
    cases o <;> simp [h, Worker.holds, Stage.holdsClaim, Shared.taken]
  | announce h | conclude _ h => simp [h, Worker.holds, Stage.holdsClaim, taken_emit]

/-- A turn enters the job among the cancel flags, takes it out, or leaves them
alone. -/
theorem Turned.entries (h : Turned s id w s' w')
    (hin : id ∈ s.cancels ↔ w.stage.holdsEntry = true) :
    (id ∈ s'.cancels ↔ w'.stage.holdsEntry = true) ∧
      ∀ j, j ≠ id → (j ∈ s'.cancels ↔ j ∈ s.cancels) := by
  cases h with
  | take h | sleep h => rcases h with h | h <;> simp_all [Stage.holdsEntry]
  | unclaim o h => cases hp : w.projectId <;> simp_all [Stage.holdsEntry, Shared.unclaim]
  | register h | announce h | spawn h | skip h | begin h | finish h | giveBack _ h
  | unregister _ h | conclude _ h =>
    simp_all [Stage.holdsEntry, Shared.emit]

/-! ## A step, all books -/

/-- The runner with one more job, looked up. -/
theorem getElem?_snoc {α : Type} {l : List α} {x : α} {i : ℕ} :
    (l ++ [x])[i]? = if i = l.length then some x else l[i]? := by
  rw [List.getElem?_append]
  split
  · rw [if_neg (by omega)]
  · split
    · simp [*]
    · rw [List.getElem?_eq_none (by simp; omega), List.getElem?_eq_none (by omega)]

theorem lt_of_worker (hw : r.workers[id]? = some w) : id < r.workers.length :=
  (List.getElem?_eq_some_iff.mp hw).1

/-- The runner with a job moved on, looked up. -/
theorem getElem?_set_worker {i : JobId} (hw : r.workers[id]? = some w) :
    (r.workers.set id w')[i]? = if i = id then some w' else r.workers[i]? := by
  rw [List.getElem?_set]
  by_cases hi : id = i
  · simp [hi, hi ▸ lt_of_worker hw]
  · simp [hi, Ne.symm hi]

theorem getElem?_move {i : JobId} {stage : Stage} (hw : r.workers[id]? = some w) :
    (r.move id w stage).workers[i]? =
      if i = id then some { w with stage } else r.workers[i]? :=
  getElem?_set_worker hw

/-- A job that moves without giving or taking leaves the books as they are. -/
theorem Balanced.move {stage : Stage} (h : Balanced r) (hw : r.workers[id]? = some w)
    (hslot : stage.holdsSlot = w.stage.holdsSlot) (hclaim : stage.holdsClaim = w.stage.holdsClaim)
    (hentry : stage.holdsEntry = w.stage.holdsEntry) : Balanced (r.move id w stage) := by
  refine ⟨?_, h.room, fun o => ?_, fun i => ?_⟩
  · have hcount := countP_replace (b := { w with stage }) (p := (·.stage.holdsSlot)) hw
    simp only [hslot] at hcount
    have := h.slots
    simp only [Runner.move]
    omega
  · have hcount := countP_replace (b := { w with stage }) (p := Worker.holds o) hw
    simp only [Worker.holds, hclaim] at hcount
    have := h.claims o
    simp only [Runner.move] at this ⊢
    rw [show Shared.taken _ o = r.taken o from rfl]
    omega
  · rw [show (r.move id w stage).cancels = r.cancels from rfl, h.entries, getElem?_move hw]
    by_cases hi : i = id
    · simp [hi, hw, hentry]
    · simp [hi]

theorem Balanced.turn {s' : Shared} (h : Balanced r) (hw : r.workers[id]? = some w)
    (ht : Turned r.toShared id w s' w') : Balanced ⟨s', r.workers.set id w'⟩ := by
  have hmem : w ∈ r.workers := List.mem_of_getElem? hw
  refine ⟨?_, ht.room h.room, fun o => ?_, ?_⟩
  · have hcount := countP_replace (b := w') (p := (·.stage.holdsSlot)) hw
    have hturn := ht.slots fun hold => by
      rw [h.slots]
      exact List.countP_pos_iff.mpr ⟨w, hmem, hold⟩
    have := h.slots
    simp only at hcount ⊢
    omega
  · have hcount := countP_replace (b := w') (p := Worker.holds o) hw
    have hturn := ht.claims o fun hold => by
      have hpos : 0 < r.workers.countP (Worker.holds o) := List.countP_pos_iff.mpr ⟨w, hmem, hold⟩
      rw [← h.claims o] at hpos
      cases htaken : r.taken o with
      | true => rfl
      | false => simp [htaken] at hpos
    have := h.claims o
    simp only at hcount ⊢
    omega
  · obtain ⟨hself, hothers⟩ := ht.entries (by simp [h.entries id, hw])
    intro i
    simp only [getElem?_set_worker hw]
    by_cases hi : i = id
    · simp [hi, hself]
    · simp only [hi, if_false]
      rw [hothers i hi, h.entries]

theorem Balanced.next (h : Balanced r) (hs : Stepped r a r') : Balanced r' := by
  cases hs with
  | idle _ s running taken cancels jobs still =>
    refine ⟨running ▸ h.slots, running ▸ h.room, fun o => ?_, fun i => ?_⟩
    · simpa only [taken] using h.claims o
    · simpa only [cancels] using h.entries i
  | submit kind o free =>
    have hbooks : (r.claim o).running = r.running ∧ (r.claim o).cancels = r.cancels := by
      cases o <;> simp [Shared.claim]
    refine ⟨?_, hbooks.1 ▸ h.room, fun o' => ?_, fun i => ?_⟩
    · simp [hbooks.1, h.slots, List.countP_append, Stage.holdsSlot]
    · have := h.claims o'
      simp only [List.countP_append, List.countP_singleton, ← this, taken_claim, Worker.holds,
        Stage.holdsClaim]
      by_cases ho : o' = o
      · simp [ho, free]
      · simp [ho, Ne.symm ho]
    · simp only [hbooks.2, h.entries i, getElem?_snoc]
      split
      · -- a job that is new has no entry yet
        subst ‹i = _›
        simp [Stage.holdsEntry]
      · rfl
  | turn id input w w' s worker turned => exact h.turn worker turned
  | quiet id w o worker stage nobody =>
    refine h.move worker ?_ ?_ ?_ <;> simp [stage, Stage.holdsSlot, Stage.holdsClaim,
      Stage.holdsEntry]
  | wakes id j w v o worker stage sleeper waits other =>
    refine (h.move worker ?_ ?_ ?_).move (w := v) ?_ ?_ ?_ ?_
    · simp [stage, Stage.holdsSlot]
    · simp [stage, Stage.holdsClaim]
    · simp [stage, Stage.holdsEntry]
    · rw [getElem?_move worker, if_neg other, sleeper]
    · simp [waits, Stage.holdsSlot]
    · simp [waits, Stage.holdsClaim]
    · simp [waits, Stage.holdsEntry]
  | spurious id w worker waits =>
    refine h.move worker ?_ ?_ ?_ <;> simp [waits, Stage.holdsSlot, Stage.holdsClaim,
      Stage.holdsEntry]

end Jobs
end Willie
