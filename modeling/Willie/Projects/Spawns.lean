import Willie.Projects.Serial
import Willie.Projects.Workers

/-!
# Projects — a session is not started on a workspace being deleted

`create` reads the record first and asks whether the project is busy later.
If the record is still there when it asks, and no write puts the record of a
removed project back, no removal submitted before it spawns has deleted the
workspace or will (`spawn_safe`). A removal that ends between the two reads
goes unseen (`spawn_on_deleted`).
-/

namespace Willie
namespace Projects

variable {s s' m e : Daemon} {act : Action} {id : ProjectId}

/-- The workspaces a step deletes: whose thread does, and of which project. -/
def Daemon.wipes (s : Daemon) : Action → List (Nat × ProjectId)
  | .run (.worker k) .ok =>
    match s.task (.worker k) with
    | some ⟨copy, .removeDirAll :: _⟩ => [(k, copy.id)]
    | _ => []
  | _ => []

/-- A removal of the project that deletes its workspace was submitted. -/
def Daemon.Deleting (s : Daemon) (id : ProjectId) : Prop :=
  ∃ (k : Nat) (w : Worker), s.workers[k]? = some w ∧ w.copy.id = id ∧ w.job.Deletes

/-- The record is in the state, or no removal that deletes the workspace was
submitted. -/
def Daemon.Kept (s : Daemon) (id : ProjectId) : Prop :=
  s.projects.lookup id ≠ none ∨ ¬ s.Deleting id

/-- Where the record has to be there: when an edit of it is put back, and
when `create` asks whether the project is busy and is told that it is not. -/
def Instr.NeedsRecord (s : Daemon) (copy : Project) : Instr → Prop
  | .update c _ .state => c ≠ .new → s.Kept copy.id
  | .isBusy => copy.id ∉ s.busy → s.Kept copy.id
  | _ => True

/-- **The step finds the record it needs.** -/
def RecordKept (s : Daemon) : Action → Prop
  | .run a _ => ∀ t, s.task a = some t → ∀ i ∈ t.script.head?, i.NeedsRecord s t.copy
  | _ => True

instance (s : Daemon) (id : ProjectId) : Decidable (s.Deleting id) :=
  decidable_of_iff (∃ w ∈ s.workers, w.copy.id = id ∧ w.job.Deletes)
    ⟨fun ⟨w, hw, h⟩ => (List.getElem?_of_mem hw).elim fun k hk => ⟨k, w, hk, h⟩,
      fun ⟨_, w, hw, h⟩ => ⟨w, List.mem_of_getElem? hw, h⟩⟩

instance (s : Daemon) (id : ProjectId) : Decidable (s.Kept id) :=
  inferInstanceAs (Decidable (s.projects.lookup id ≠ none ∨ ¬ s.Deleting id))

instance (s : Daemon) (copy : Project) (i : Instr) : Decidable (i.NeedsRecord s copy) := by
  unfold Instr.NeedsRecord
  split <;> infer_instance

instance (s : Daemon) (act : Action) : Decidable (RecordKept s act) :=
  match act with
  | .run a _ =>
    inferInstanceAs (Decidable (∀ t ∈ s.task a, ∀ i ∈ t.script.head?, i.NeedsRecord s t.copy))
  | .request _ | .cancelJob _ | .sessionEnds _ | .applyPresence _ => .isTrue trivial

/-- A thread that deleted the workspace has still to forget the project, or
the project is forgotten. -/
def Daemon.Wiped (s : Daemon) (k : Nat) (id : ProjectId) : Prop :=
  ∃ w, s.workers[k]? = some w ∧ w.copy.id = id ∧ w.job.Deletes ∧
    ((∃ unlinked, w.script = .forget unlinked :: cleanup) ∨ s.projects.lookup id = none)

/-- `create` has passed its busy check. -/
def Task.Passed (t : Task) : Prop :=
  t.script = [.prepare, .spawnSupervisor] ∨ t.script = [.spawnSupervisor]

/-- Every thread of the project has cleared it. -/
def Daemon.Free (s : Daemon) (id : ProjectId) : Prop :=
  ∀ (k : Nat) w, s.workers[k]? = some w → w.copy.id = id → ¬ Busy w.script

section Turn

variable {a : Actor} {reply : Reply} {copy : Project} {i : Instr} {rest script : List Instr}

theorem wipes_run (T : Turn s s' a reply copy i rest script) {k : Nat}
    (h : (k, id) ∈ s.wipes (.run a reply)) :
    a = .worker k ∧ reply = .ok ∧ i = .removeDirAll ∧ id = copy.id := by
  unfold Daemon.wipes at h
  split at h
  · rename_i l heq
    obtain ⟨rfl, rfl⟩ := Action.run.inj heq
    rw [T.before] at h
    split at h
    · rename_i heq
      obtain ⟨rfl, hcons⟩ := Task.mk.inj (Option.some.inj heq)
      obtain ⟨rfl, -⟩ := List.cons.inj hcons
      obtain ⟨rfl, rfl⟩ := Prod.mk.inj (List.mem_singleton.mp h)
      exact ⟨rfl, rfl, rfl, rfl⟩
    · simp at h
  · simp at h

/-- A record is put back only where one is, or where it is new. -/
theorem Turn.forgotten (T : Turn s s' a reply copy i rest script) (hord : s.Ordered)
    (hok : RecordKept s (.run a reply)) (hdel : s.Deleting id)
    (hnone : s.projects.lookup id = none) : s'.projects.lookup id = none := by
  by_cases hid : id = copy.id
  swap
  · exact (perform_local T.perform hid).project.trans hnone
  subst hid
  have hp := T.perform
  by_cases hw : i.Writes
  · cases i with
    | update c strict stage =>
      cases stage with
      | tmp => exact (perform_tmp hp).1 ▸ hnone
      | file => exact (perform_file hp).1 ▸ hnone
      | state =>
        exfalso
        cases c with
        | new =>
          -- the project that is added has no removal yet
          have hadds : Task.Adds ⟨copy, .update .new strict .state :: rest⟩ := adds_cons.mpr rfl
          obtain ⟨k, w, hwk, hwid, -⟩ := hdel
          have hne : Actor.worker k ≠ a := by
            rw [hord.adder a _ T.before hadds]
            simp
          exact hord.fresh a (.worker k) _ w.toTask hne.symm T.before
            (task_worker.mpr ⟨w, hwk, rfl⟩) hadds hwid.symm
        | edit e =>
          -- an edit put back after the removal is what the condition excludes
          have hkept := hok _ T.before (.update (.edit e) strict .state) (by simp) (by simp)
          exact hkept.elim (fun h => h hnone) fun h => h hdel
    | forget unlinked =>
      cases unlinked with
      | false => exact (perform_unlink hp).1 ▸ hnone
      | true =>
        rw [(perform_erase hp).1]
        exact AList.lookup_erase _ _
    | _ => exact hw.elim
  · exact (perform_still hp hw).1 ▸ hnone

/-- **A thread that deleted a workspace goes on to forget its project.** -/
theorem Turn.wiped (T : Turn s s' a reply copy i rest script) (hord : s.Ordered)
    (hok : RecordKept s (.run a reply)) {k : Nat} (h : s.Wiped k id) : s'.Wiped k id := by
  obtain ⟨w, hw, hwid, hdel, hor⟩ := h
  obtain ⟨w', hw', hcopy, hjob, hsame⟩ := T.worker_keep hw
  refine ⟨w', hw', hcopy ▸ hwid, hjob ▸ hdel, ?_⟩
  rcases hor with ⟨unlinked, hscript⟩ | hnone
  swap
  · exact .inr (T.forgotten hord hok ⟨k, w, hw, hwid, hdel⟩ hnone)
  by_cases ha : a = .worker k
  swap
  · exact .inl ⟨unlinked, hsame ha ▸ hscript⟩
  subst ha
  have hbefore := T.before
  rw [show s.task (.worker k) = some w.toTask from task_worker.mpr ⟨w, hw, rfl⟩] at hbefore
  have htask := Option.some.inj hbefore
  obtain ⟨hi, rfl⟩ := List.cons.inj ((congrArg Task.script htask).symm.trans hscript)
  have hid : copy.id = id := (congrArg (fun t => t.copy.id) htask).symm.trans hwid
  subst hi
  cases unlinked with
  | false =>
    obtain ⟨-, -, rfl, -⟩ := perform_unlink T.perform
    obtain ⟨u, hu, hut⟩ := task_worker.mp T.after
    obtain rfl := Option.some.inj (hw'.symm.trans hu)
    exact .inl ⟨true, congrArg Task.script hut⟩
  | true =>
    refine .inr ?_
    rw [(perform_erase T.perform).1, hid]
    exact AList.lookup_erase _ _

/-- A thread that deletes its workspace has to forget its project. -/
theorem Turn.wipes (T : Turn s s' a reply copy i rest script) (hex : s.Exclusive) {k : Nat}
    (h : (k, id) ∈ s.wipes (.run a reply)) : s'.Wiped k id := by
  obtain ⟨rfl, rfl, rfl, rfl⟩ := wipes_run T h
  obtain ⟨w, hw, hwt⟩ := task_worker.mp T.before
  have hs := hex.shaped k w hw
  rw [congrArg Task.script hwt] at hs
  obtain ⟨⟨hdel, rfl⟩, -⟩ := hs
  obtain ⟨w', hw', hcopy, hjob, -⟩ := T.worker_keep hw
  have hid : w.copy = copy := congrArg Task.copy hwt
  refine ⟨w', hw', by rw [hcopy, hid], hjob ▸ hdel, .inl ⟨false, ?_⟩⟩
  obtain ⟨u, hu, hut⟩ := task_worker.mp T.after
  obtain rfl := Option.some.inj (hw'.symm.trans hu)
  obtain ⟨-, hscript⟩ := Prod.mk.inj (Option.some.inj T.perform)
  rw [congrArg Task.script hut, ← hscript]

/-- A project that is free stays so while no job of it is accepted. -/
theorem Turn.free (T : Turn s s' a reply copy i rest script) (hex : s.Exclusive)
    (hfree : s.Free id) (hsub : ∀ job, i = .submit job → copy.id ≠ id) : s'.Free id := by
  intro k w hw hid hb
  rcases T.busy_cases hex hw hb with ⟨v, hv, hvc, hbv, -⟩ | ⟨-, ⟨job, hi⟩, -, hwc⟩
  · exact hfree k v hv (hvc ▸ hid) hbv
  · exact hsub job hi (hwc ▸ hid)

/-- A thread that deletes its workspace has not cleared its project. -/
theorem wipes_busy (hex : s.Exclusive) {k : Nat} {act : Action} (h : (k, id) ∈ s.wipes act)
    (hstep : s.step act = some s') :
    ∃ w, s.workers[k]? = some w ∧ w.copy.id = id ∧ Busy w.script := by
  cases act with
  | run a reply =>
    obtain ⟨copy, i, rest, script, T⟩ := Daemon.advance_turn hstep
    obtain ⟨rfl, -, rfl, rfl⟩ := wipes_run T h
    obtain ⟨w, hw, hwt⟩ := task_worker.mp T.before
    have hs := hex.shaped k w hw
    rw [congrArg Task.script hwt] at hs
    obtain ⟨⟨-, rfl⟩, -⟩ := hs
    refine ⟨w, hw, congrArg (fun t => t.copy.id) hwt, ?_⟩
    rw [congrArg Task.script hwt]
    exact busy_cleanup.cons.cons
  | _ => simp [Daemon.wipes] at h

/-- What the dispatcher had left before it passed the busy check. -/
theorem Turn.passed (T : Turn s s' .dispatcher reply copy i rest script) (hex : s.Exclusive)
    (hp : Task.Passed ⟨copy, script⟩) :
    (i = .isBusy ∧ copy.id ∉ s.busy) ∨ i = .prepare ∧ Task.Passed ⟨copy, i :: rest⟩ := by
  have hserv := hex.serving _ T.before
  have hper := T.perform
  have hne : script ≠ [] := by
    rcases hp with h | h <;> rw [show script = _ from h] <;> simp
  rcases hserv.head with hi | ⟨rfl, rfl⟩ | ⟨rfl, rfl⟩ | ⟨rfl, rfl⟩
  · -- what is left of another request is no session's
    exfalso
    have hall := ofRequest_perform (hserv.all hi) hper
    rcases hp with h | h <;> rw [show script = _ from h] at hall <;>
      exact (hall .spawnSupervisor (by simp)).elim
  · simp only [Instr.perform, Option.some.injEq, Prod.mk.injEq] at hper
    obtain ⟨-, rfl⟩ := hper
    split at hne
    · exact absurd rfl hne
    · rename_i hb
      exact .inl ⟨rfl, hb⟩
  · exact .inr ⟨rfl, .inl rfl⟩
  · obtain ⟨-, rfl⟩ := Prod.mk.inj (Option.some.inj hper)
    exact absurd rfl hne

end Turn

/-! ## Runs -/

/-- What a run that finds the records it needs keeps; `wipes` are the
workspaces deleted in it. -/
structure Daemon.History (s : Daemon) (wipes : List (Nat × ProjectId)) : Prop where
  ordered : s.Ordered
  exclusive : s.Exclusive
  wiped : ∀ k id, (k, id) ∈ wipes → s.Wiped k id
  passed : ∀ t, s.dispatcher = some t → t.Passed → s.Free t.copy.id ∧ ∀ k, (k, t.copy.id) ∉ wipes

variable {wipes : List (Nat × ProjectId)}

/-- A free project whose record is kept was not wiped. -/
theorem Daemon.Wiped.not_free {k : Nat} (h : s.Wiped k id) (hfree : s.Free id) : ¬ s.Kept id := by
  obtain ⟨w, hw, hid, hdel, ⟨unlinked, hscript⟩ | hnone⟩ := h
  · refine absurd ?_ (hfree k w hw hid)
    rw [hscript]
    exact busy_cleanup.cons
  · exact fun hkept => hkept.elim (fun hp => hp hnone) fun hd => hd ⟨k, w, hw, hid, hdel⟩

theorem Daemon.Wiped.congr {k : Nat} (h : s.Wiped k id)
    (hw : ∀ w, s.workers[k]? = some w → ∃ v, s'.workers[k]? = some v ∧ v.toTask = w.toTask ∧
      v.job = w.job)
    (hp : s.projects.lookup id = none → s'.projects.lookup id = none) : s'.Wiped k id := by
  obtain ⟨w, hwk, hid, hdel, hor⟩ := h
  obtain ⟨v, hv, ht, hj⟩ := hw w hwk
  refine ⟨v, hv, by rw [ht, hid], hj ▸ hdel, ?_⟩
  rcases hor with ⟨unlinked, hscript⟩ | hnone
  · exact .inl ⟨unlinked, by rw [ht, hscript]⟩
  · exact .inr (hp hnone)

section Turn

variable {a : Actor} {reply : Reply} {copy : Project} {i : Instr} {rest script : List Instr}

theorem Turn.history (T : Turn s s' a reply copy i rest script) (h : s.History wipes)
    (hstep : s.step (.run a reply) = some s') (hok : RecordKept s (.run a reply)) :
    s'.History (wipes ++ s.wipes (.run a reply)) where
  ordered := T.ordered h.ordered
  exclusive := T.exclusive h.exclusive
  wiped k id hm := by
    rcases List.mem_append.mp hm with hm | hm
    · exact T.wiped h.ordered hok (h.wiped k id hm)
    · exact T.wipes h.exclusive hm
  passed t ht hpass := by
    have hbefore : s.Free t.copy.id ∧ (∀ k, (k, t.copy.id) ∉ wipes) ∧
        ∀ job, i = .submit job → copy.id ≠ t.copy.id := by
      cases a with
      | dispatcher =>
        obtain rfl := Option.some.inj (ht.symm.trans T.after)
        rcases T.passed h.exclusive hpass with ⟨rfl, hb⟩ | ⟨rfl, hp⟩
        · -- no thread of the project is busy, and none has deleted its workspace
          have hfree : s.Free copy.id := fun k w hw hid hbw =>
            hb (hid ▸ h.exclusive.busy k w hw hbw)
          have hkept : s.Kept copy.id := hok _ T.before .isBusy (by simp) hb
          exact ⟨hfree, fun k hm => (h.wiped k _ hm).not_free hfree hkept, by simp⟩
        · obtain ⟨hfree, hno⟩ := h.passed _ T.before hp
          exact ⟨hfree, hno, by simp⟩
      | worker k =>
        rcases T.others .dispatcher t (by simp) ht with ht | ⟨job, rfl, -⟩
        · obtain ⟨hfree, hno⟩ := h.passed t ht hpass
          refine ⟨hfree, hno, ?_⟩
          rintro job rfl
          exact absurd (T.submitter h.exclusive) (by simp)
        · exact absurd (T.submitter h.exclusive) (by simp)
    obtain ⟨hfree, hno, hsub⟩ := hbefore
    refine ⟨T.free h.exclusive hfree hsub, fun k hm => ?_⟩
    rcases List.mem_append.mp hm with hm | hm
    · exact hno k hm
    · obtain ⟨w, hw, hid, hb⟩ := wipes_busy h.exclusive hm hstep
      exact hfree k w hw hid hb

end Turn

theorem request_not_passed {t : Task} {r : Request} {m : Shared} (h : r.task m = some t) :
    ¬ t.Passed := by
  cases r with
  | add p =>
    simp only [Request.task] at h
    split at h
    · obtain rfl := Option.some.inj h
      simp [Task.Passed]
    · simp at h
  | rename id name =>
    obtain ⟨p, -, rfl⟩ := Option.map_eq_some_iff.mp h
    simp [Task.Passed]
  | remove id del force =>
    obtain ⟨p, -, rfl⟩ := Option.map_eq_some_iff.mp h
    simp [Task.Passed]
  | _ =>
    obtain ⟨p, -, h⟩ := Option.bind_eq_some_iff.mp h
    split at h
    · obtain rfl := Option.some.inj h
      simp [Task.Passed]
    · simp at h

/-- **Every step that finds the record it needs keeps the history.** -/
theorem Daemon.History.step (h : s.History wipes) (hok : RecordKept s act)
    (hstep : s.step act = some s') : s'.History (wipes ++ s.wipes act) := by
  have hord := h.ordered.step hstep
  have hex := h.exclusive.step hstep
  cases act with
  | run a reply =>
    obtain ⟨copy, i, rest, script, T⟩ := Daemon.advance_turn hstep
    exact T.history h hstep hok
  | request r =>
    rw [show s.wipes (.request r) = [] from rfl, List.append_nil]
    simp only [Daemon.step] at hstep
    split at hstep
    · have hstep := Option.some.inj hstep
      cases hr : r.task s.toShared with
      | none =>
        rw [hr] at hstep
        exact hstep ▸ h
      | some t =>
        rw [hr] at hstep
        subst hstep
        refine ⟨hord, hex, fun k id hm => h.wiped k id hm, fun u hu hpass => ?_⟩
        obtain rfl := Option.some.inj hu
        exact absurd hpass (request_not_passed hr)
    · simp at hstep
  | cancelJob j =>
    rw [show s.wipes (.cancelJob j) = [] from rfl, List.append_nil]
    obtain rfl := Option.some.inj hstep
    refine ⟨hord, hex, fun k id hm => (h.wiped k id hm).congr (fun w hw => ?_) fun hn => hn,
      fun t ht hpass => ?_⟩
    · simp only [List.getElem?_modify, hw]
      refine ⟨_, rfl, ?_, ?_⟩ <;> split <;> rfl
    · obtain ⟨hfree, hno⟩ := h.passed t ht hpass
      refine ⟨fun k w hw hid hb => ?_, hno⟩
      obtain ⟨v, hv, hvt, -⟩ := cancelJob_workers hw
      rw [hvt] at hid hb
      exact hfree k v hv hid hb
  | sessionEnds j =>
    rw [show s.wipes (.sessionEnds j) = [] from rfl, List.append_nil]
    obtain rfl := Option.some.inj hstep
    exact ⟨hord, hex, h.wiped, h.passed⟩
  | applyPresence flags =>
    rw [show s.wipes (.applyPresence flags) = [] from rfl, List.append_nil]
    simp only [Daemon.step] at hstep
    split at hstep
    · obtain rfl := Option.some.inj hstep
      exact ⟨hord, hex, fun k id hm => (h.wiped k id hm).congr (fun w hw => ⟨w, hw, rfl, rfl⟩)
        applyPresence_none, h.passed⟩
    · simp at hstep

theorem Daemon.Start.history (h : s.Start) : s.History [] where
  ordered := h.ordered
  exclusive :=
    { shaped := by simp [h.workers]
      busy := by simp [h.workers]
      single := by simp [h.workers]
      serving := by simp [h.dispatcher] }
  wiped := by simp
  passed := by simp [h.dispatcher]

/-- The threads of the project among the first `n` are past their work. -/
structure Daemon.Past (s : Daemon) (n : Nat) (id : ProjectId) : Prop where
  exclusive : s.Exclusive
  length : n ≤ s.workers.length
  past : ∀ k < n, ∀ w, s.workers[k]? = some w → w.copy.id = id → ¬ Busy w.script

theorem Daemon.Past.step {n : Nat} (h : s.Past n id) (hstep : s.step act = some s') :
    s'.Past n id where
  exclusive := h.exclusive.step hstep
  length := h.length.trans (step_workers_length hstep)
  past k hk w hw hid hb := by
    obtain ⟨v, hv, hvc, hbv⟩ := h.exclusive.busy_before hstep (hk.trans_le h.length) hw hb
    exact h.past k hk v hv (hvc ▸ hid) hbv

/-- They delete nothing. -/
theorem Daemon.Past.not_among {n k : Nat} (h : s.Past n id) (hm : (k, id) ∈ s.wipes act)
    (hstep : s.step act = some s') : n ≤ k := by
  by_contra hk
  obtain ⟨w, hw, hid, hb⟩ := wipes_busy h.exclusive hm hstep
  exact h.past k (by omega) w hw hid hb

/-- **Threads that are there and have cleared their project delete nothing
any more.** -/
theorem free_forever {acts : List Action} (hex : m.Exclusive) (hfree : m.Free id)
    (hrun : Runs.exec Daemon.step m acts = some e) :
    ∀ k, (k, id) ∈ Runs.trace Daemon.step Daemon.wipes m acts → m.workers.length ≤ k := by
  have hpast : m.Past m.workers.length id :=
    ⟨hex, le_rfl, fun k _ w hw hid => hfree k w hw hid⟩
  have hleft : ∀ l ∈ Runs.trace Daemon.step Daemon.wipes m acts,
      l.2 = id → m.workers.length ≤ l.1 := by
    refine Runs.trace_induction (I := fun s => s.Past m.workers.length id) hrun hpast
      (fun _ _ _ h hstep => h.step hstep) ?_
    rintro s act s' h hstep ⟨k, id'⟩ hl rfl
    exact h.not_among hl hstep
  exact fun k hk => hleft (k, id) hk rfl

/-- **A session that is spawned has its workspace.** In a run that finds the
records it needs, when `create` is about to spawn a supervisor, having passed
its busy check, no removal of the project submitted before has deleted the
workspace, and none does later. -/
theorem spawn_safe {before after : List Action} {t : Task} (hstart : s.Start)
    (hbefore : Runs.exec Daemon.step s before = some m)
    (hok : Runs.Guarded Daemon.step RecordKept s before)
    (ht : m.dispatcher = some t) (hspawn : t.script = [.spawnSupervisor])
    (hafter : Runs.exec Daemon.step m after = some e) :
    ∀ k, (k, t.copy.id) ∈ Runs.trace Daemon.step Daemon.wipes s (before ++ after) →
      m.workers.length ≤ k := by
  have hm : m.History (Runs.trace Daemon.step Daemon.wipes s before) := by
    refine Runs.exec_induction (I := fun acts s' =>
      s'.History (Runs.trace Daemon.step Daemon.wipes s acts)) hbefore hok hstart.history ?_
    intro acts s₁ act s₂ hs₁ h hact hstep
    rw [Runs.trace_snoc hs₁]
    exact h.step hact hstep
  obtain ⟨hfree, hno⟩ := hm.passed t ht (.inr hspawn)
  intro k hk
  rw [Runs.trace_append hbefore] at hk
  rcases List.mem_append.mp hk with hk | hk
  · exact absurd hk (hno k)
  · exact free_forever hm.exclusive hfree hafter k hk

/-- A removal that would delete the workspace is submitted and fails to; the
project is not forgotten, and a session of it is created. -/
def sessionRun : List Action :=
  let dispatcher := Action.run .dispatcher .ok
  let worker := Action.run (.worker 0) .ok
  [.request (.remove 1 true true), dispatcher, dispatcher] ++ List.replicate 4 worker ++
    .run (.worker 0) (.err ⟨"io", "permission denied"⟩) :: List.replicate 2 worker ++
    [.request (.createSession 1), dispatcher, worker, dispatcher]

/-- The removal was submitted before, and neither it nor what follows deletes
the workspace. -/
theorem spawn_safe_session : ∃ m t, Runs.exec Daemon.step loadedDaemon sessionRun = some m ∧
    m.Deleting 1 ∧ m.dispatcher = some t ∧ t.copy.id = 1 ∧ t.script = [.spawnSupervisor] ∧
      ∀ k, (k, t.copy.id) ∈ Runs.trace Daemon.step Daemon.wipes loadedDaemon
        (sessionRun ++ [.run .dispatcher .ok]) → m.workers.length ≤ k := by
  have hrun : (Runs.exec Daemon.step loadedDaemon sessionRun).map
      (fun m => (decide (m.Deleting 1), m.dispatcher)) =
        some (true, some ⟨clonedProject, [.spawnSupervisor]⟩) := by decide
  have hok : Runs.Guarded Daemon.step RecordKept loadedDaemon sessionRun := by decide
  have hlast : (Runs.exec Daemon.step loadedDaemon
      (sessionRun ++ [.run .dispatcher .ok])).isSome := by decide
  obtain ⟨m, hm, heq⟩ := Option.map_eq_some_iff.mp hrun
  obtain ⟨hdel, ht⟩ := Prod.mk.inj heq
  obtain ⟨e, he⟩ := Option.isSome_iff_exists.mp hlast
  rw [Runs.exec_append, hm] at he
  exact ⟨m, _, hm, of_decide_eq_true hdel, ht, rfl, rfl,
    spawn_safe loadedDaemon_start hm hok ht rfl he⟩

/-! ## A removal between the two reads -/

/-- A removal is submitted and runs; `create` reads the record; the thread
deletes the workspace, forgets the project and clears it; `create` asks
whether the project is busy, and goes on. -/
def deletedRun : List Action :=
  let dispatcher := Action.run .dispatcher .ok
  let worker := Action.run (.worker 0) .ok
  [.request (.remove 1 true true), dispatcher, dispatcher, worker, worker, worker, worker,
    .request (.createSession 1), worker, worker, worker, worker, worker, dispatcher, dispatcher]

/-- **A session can be spawned on a workspace that was deleted**: the removal
was submitted before and deleted it. -/
theorem spawn_on_deleted : ∃ m t, Runs.exec Daemon.step loadedDaemon deletedRun = some m ∧
    m.dispatcher = some t ∧ t.script = [.spawnSupervisor] ∧
      ∃ k < m.workers.length,
        (k, t.copy.id) ∈ Runs.trace Daemon.step Daemon.wipes loadedDaemon deletedRun := by
  have hrun : (Runs.exec Daemon.step loadedDaemon deletedRun).map
      (fun m => (m.dispatcher, m.workers.length)) =
        some (some ⟨clonedProject, [.spawnSupervisor]⟩, 1) := by decide
  have hwipes : (0, 1) ∈ Runs.trace Daemon.step Daemon.wipes loadedDaemon deletedRun := by
    decide
  obtain ⟨m, hm, heq⟩ := Option.map_eq_some_iff.mp hrun
  obtain ⟨ht, hlen⟩ := Prod.mk.inj heq
  exact ⟨m, _, hm, ht, rfl, 0, by omega, hwipes⟩

end Projects
end Willie
