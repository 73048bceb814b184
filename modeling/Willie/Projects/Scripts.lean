import Willie.Projects.Turns

/-!
# Projects — what the tasks' scripts look like

Whatever the order of the steps, only the first instruction of a script can
be a write that is under way, only the dispatcher adds a record, and the id
it adds is no other task's (`Daemon.Ordered`).
-/

namespace Willie
namespace Projects

variable {s s' : Daemon} {a : Actor} {m m' : Shared} {t u : Task}

/-- An edit of a job: name and sandbox stay. -/
def Edit.OfJob : Edit → Prop
  | .name _ => False
  | .sandbox _ => False
  | _ => True

/-- A write or a removal the task has begun. -/
def Task.Open (t : Task) : Prop := ∃ i ∈ t.script.head?, i.Open

/-- Writing a record that is added. -/
def Instr.Adds : Instr → Prop
  | .update c _ _ => c = .new
  | _ => False

def Task.Adds (t : Task) : Prop := ∃ i ∈ t.script.head?, i.Adds

/-- Only the first instruction of a script can be under way, or add a record;
a failed save is logged by jobs, and returned of an edit. -/
structure Tidy (script : List Instr) : Prop where
  tail : ∀ i ∈ script.tail, ¬ i.Open ∧ ¬ i.Adds
  logged : ∀ e stage, .update (.edit e) false stage ∈ script → e.OfJob
  returned : ∀ stage, .update .new true stage ∉ script

/-- **Ids and scripts are in order.** -/
structure Daemon.Ordered (s : Daemon) : Prop where
  known : ∀ id p, s.projects.lookup id = some p → p.id = id ∧ id < s.nextId
  filed : ∀ id f, s.disk.files.lookup id = some f → id < s.nextId
  young : ∀ a t, s.task a = some t → t.copy.id < s.nextId
  tidy : ∀ a t, s.task a = some t → Tidy t.script
  adder : ∀ a t, s.task a = some t → t.Adds → a = .dispatcher
  fresh : ∀ a b t u, a ≠ b → s.task a = some t → s.task b = some u → t.Adds →
    t.copy.id ≠ u.copy.id

/-! ## Scripts -/

theorem open_cons {copy : Project} {i : Instr} {rest : List Instr} :
    Task.Open ⟨copy, i :: rest⟩ ↔ i.Open := by simp [Task.Open]

theorem adds_cons {copy : Project} {i : Instr} {rest : List Instr} :
    Task.Adds ⟨copy, i :: rest⟩ ↔ i.Adds := by simp [Task.Adds]

theorem Tidy.of_cons {i : Instr} {rest : List Instr} (h : Tidy (i :: rest)) : Tidy rest where
  tail j hj := h.tail j (List.mem_of_mem_tail hj)
  logged e stage hm := h.logged e stage (List.mem_cons_of_mem _ hm)
  returned stage hm := h.returned stage (List.mem_cons_of_mem _ hm)

/-- The next stage of a write in the place of the one before. -/
theorem Tidy.stage {c : Change} {strict : Bool} {sg : Stage} {rest : List Instr}
    (h : Tidy (.update c strict sg :: rest)) (sg' : Stage) :
    Tidy (.update c strict sg' :: rest) where
  tail := h.tail
  logged e st hm := by
    rcases List.mem_cons.mp hm with heq | hm
    · cases heq
      exact h.logged e sg (List.mem_cons_self ..)
    · exact h.logged e st (List.mem_cons_of_mem _ hm)
  returned st hm := by
    rcases List.mem_cons.mp hm with heq | hm
    · cases heq
      exact h.returned sg (List.mem_cons_self ..)
    · exact h.returned st (List.mem_cons_of_mem _ hm)

theorem Tidy.nil : Tidy [] := ⟨by simp, by simp, by simp⟩

theorem tidy_cleanup : Tidy cleanup :=
  ⟨by simp [cleanup, Instr.Open, Instr.Adds], by simp [cleanup], by simp [cleanup]⟩

theorem tidy_updateProject {e : Edit} (h : e.OfJob) : Tidy (updateProject e :: cleanup) where
  tail := by simp [cleanup, Instr.Open, Instr.Adds]
  logged e' st hm := by
    simp only [updateProject, cleanup, List.mem_cons, Instr.update.injEq, Change.edit.injEq,
      reduceCtorEq, List.not_mem_nil, or_false] at hm
    exact hm.1 ▸ h
  returned st hm := by simp [updateProject, cleanup] at hm

theorem tidy_job (job : Job) : Tidy job.script := by
  cases job with
  | remove del force =>
    cases del <;> cases force <;>
      exact ⟨by simp [Job.script, Job.work, cleanup, Instr.Open, Instr.Adds],
        by simp [Job.script, Job.work, cleanup], by simp [Job.script, Job.work, cleanup]⟩
  | _ =>
    exact ⟨by simp [Job.script, Job.work, cleanup, updateProject, Instr.Open, Instr.Adds],
      by simp [Job.script, Job.work, cleanup, updateProject, Edit.OfJob],
      by simp [Job.script, Job.work, cleanup, updateProject]⟩

theorem not_open_job {copy : Project} (job : Job) : ¬ Task.Open ⟨copy, job.script⟩ := by
  simp [Job.script, open_cons, Instr.Open]

theorem not_adds_job {copy : Project} (job : Job) : ¬ Task.Adds ⟨copy, job.script⟩ := by
  simp [Job.script, adds_cons, Instr.Adds]

/-- A script whose rest is all that is left begins nothing. -/
theorem Tidy.rest_idle {i : Instr} {rest : List Instr} (h : Tidy (i :: rest)) (copy : Project) :
    ¬ Task.Open ⟨copy, rest⟩ ∧ ¬ Task.Adds ⟨copy, rest⟩ := by
  cases rest with
  | nil => exact ⟨by simp [Task.Open], by simp [Task.Adds]⟩
  | cons j rest =>
    obtain ⟨ho, ha⟩ := h.tail j (List.mem_cons_self ..)
    exact ⟨fun h' => ho (open_cons.mp h'), fun h' => ha (adds_cons.mp h')⟩

/-! ## A task's step -/

section Turn

variable {reply : Reply} {copy : Project} {i : Instr} {rest script : List Instr}

/-- A task writes only if it wrote before. -/
theorem Turn.lands (T : Turn s s' a reply copy i rest script) (h : s.Ordered)
    (ho : Task.Open ⟨copy, script⟩ ∨ Task.Adds ⟨copy, script⟩) : i.Lands reply := by
  by_contra hw
  obtain ⟨-, -, -, hs⟩ := perform_idle T.perform hw
  obtain ⟨hro, hra⟩ := (h.tidy a _ T.before).rest_idle copy
  rcases hs with rfl | rfl | rfl | ⟨kind, rfl⟩ | ⟨e, rfl⟩
  · exact ho.elim hro hra
  · simp [Task.Open, Task.Adds] at ho
  · simp [Task.Open, Task.Adds, cleanup, Instr.Open, Instr.Adds] at ho
  · simp [Task.Open, Task.Adds, updateProject, Instr.Open, Instr.Adds] at ho
  · simp [Task.Open, Task.Adds, updateProject, Instr.Open, Instr.Adds] at ho

/-- It adds a record only if it did before. -/
theorem Turn.adds (T : Turn s s' a reply copy i rest script) (h : s.Ordered)
    (ha : Task.Adds ⟨copy, script⟩) : i.Adds := by
  have hw := T.lands h (.inr ha)
  have hrest := ((h.tidy a _ T.before).rest_idle copy).2
  have hp := T.perform
  cases i with
  | update c strict stage =>
    cases stage with
    | tmp =>
      obtain ⟨-, -, ⟨-, rfl⟩ | ⟨-, rfl⟩⟩ := perform_tmp hp
      · exact (adds_cons.mp ha :)
      · split at ha
        · simp [Task.Adds] at ha
        · exact (adds_cons.mp ha :)
    | file =>
      obtain ⟨-, -, ⟨-, rfl⟩ | ⟨-, rfl⟩⟩ := perform_file hp
      · exact (adds_cons.mp ha :)
      · split at ha
        · simp [Task.Adds] at ha
        · exact (adds_cons.mp ha :)
    | state =>
      obtain ⟨-, -, -, rfl⟩ := perform_state hp
      exact absurd ha hrest
  | forget unlinked =>
    cases unlinked with
    | false =>
      obtain ⟨-, -, rfl, -⟩ := perform_unlink hp
      exact absurd (adds_cons.mp ha) id
    | true =>
      obtain ⟨-, -, -, rfl⟩ := perform_erase hp
      exact absurd ha hrest
  | _ => exact hw.elim

theorem Turn.tidy (T : Turn s s' a reply copy i rest script) (h : s.Ordered) : Tidy script := by
  have ht := h.tidy a _ T.before
  have hp := T.perform
  by_cases hw : i.Writes
  · cases i with
    | update c strict stage =>
      cases stage with
      | tmp =>
        obtain ⟨-, -, ⟨-, rfl⟩ | ⟨-, rfl⟩⟩ := perform_tmp hp
        · exact ht.stage _
        · split
          · exact .nil
          · exact ht.stage _
      | file =>
        obtain ⟨-, -, ⟨-, rfl⟩ | ⟨-, rfl⟩⟩ := perform_file hp
        · exact ht.stage _
        · split
          · exact .nil
          · exact ht.stage _
      | state =>
        obtain ⟨-, -, -, rfl⟩ := perform_state hp
        exact ht.of_cons
    | forget unlinked =>
      cases unlinked with
      | false =>
        obtain ⟨-, -, rfl, -⟩ := perform_unlink hp
        exact ⟨ht.tail, fun e st hm => ht.of_cons.logged e st (by simpa using hm),
          fun st hm => ht.of_cons.returned st (by simpa using hm)⟩
      | true =>
        obtain ⟨-, -, -, rfl⟩ := perform_erase hp
        exact ht.of_cons
    | _ => exact hw.elim
  · obtain ⟨-, -, -, rfl | rfl | rfl | ⟨kind, rfl⟩ | ⟨e, rfl⟩⟩ := perform_still hp hw
    · exact ht.of_cons
    · exact .nil
    · exact tidy_cleanup
    · exact tidy_updateProject trivial
    · exact tidy_updateProject trivial

/-- What every task of the next state is: the one that ran, one of before, or
a job's thread that starts. -/
theorem Turn.task_cases (T : Turn s s' a reply copy i rest script) {b : Actor}
    (hu : s'.task b = some u) :
    (b = a ∧ u = ⟨copy, script⟩) ∨ (b ≠ a ∧ s.task b = some u) ∨
      b ≠ a ∧ ∃ job, i = .submit job ∧ u = ⟨copy, job.script⟩ := by
  by_cases hb : b = a
  · subst hb
    rw [T.after] at hu
    exact .inl ⟨rfl, (Option.some.inj hu).symm⟩
  · rcases T.others b u hb hu with hu | hjob
    · exact .inr (.inl ⟨hb, hu⟩)
    · exact .inr (.inr ⟨hb, hjob⟩)

/-- The records a task's step leaves. -/
theorem Turn.known (T : Turn s s' a reply copy i rest script) (h : s.Ordered) {id : ProjectId}
    {p : Project} (hp : s'.projects.lookup id = some p) : p.id = id ∧ id < s.nextId := by
  by_cases hid : id = copy.id
  swap
  · exact h.known id p ((perform_local T.perform hid).project ▸ hp)
  subst hid
  have hyoung := h.young a _ T.before
  have hper := T.perform
  by_cases hw : i.Writes
  · cases i with
    | update c strict stage =>
      cases stage with
      | tmp => exact h.known _ p ((perform_tmp hper).1 ▸ hp)
      | file => exact h.known _ p ((perform_file hper).1 ▸ hp)
      | state =>
        rw [(perform_state hper).1, AList.lookup_insert] at hp
        obtain rfl := Option.some.inj hp
        exact ⟨c.apply_id copy, hyoung⟩
    | forget unlinked =>
      cases unlinked with
      | false => exact h.known _ p ((perform_unlink hper).1 ▸ hp)
      | true =>
        rw [(perform_erase hper).1, AList.lookup_erase] at hp
        simp at hp
    | _ => exact hw.elim
  · exact h.known _ p ((perform_still hper hw).1 ▸ hp)

theorem Turn.ordered (T : Turn s s' a reply copy i rest script) (h : s.Ordered) : s'.Ordered := by
  have hnext : s'.nextId = s.nextId := perform_nextId T.perform
  have hyoung := h.young a _ T.before
  exact
    { known := fun id p hp => hnext ▸ T.known h hp
      filed := fun id f hf => by
        rw [hnext]
        by_cases hid : id = copy.id
        · exact hid ▸ hyoung
        · exact h.filed id f ((perform_local T.perform hid).file ▸ hf)
      young := fun b u hu => by
        rw [hnext]
        rcases T.task_cases hu with ⟨-, rfl⟩ | ⟨-, hu⟩ | ⟨-, job, -, rfl⟩
        · exact hyoung
        · exact h.young b u hu
        · exact hyoung
      tidy := fun b u hu => by
        rcases T.task_cases hu with ⟨-, rfl⟩ | ⟨-, hu⟩ | ⟨-, job, -, rfl⟩
        · exact T.tidy h
        · exact h.tidy b u hu
        · exact tidy_job job
      adder := fun b t ht hta => by
        rcases T.task_cases ht with ⟨rfl, rfl⟩ | ⟨-, ht⟩ | ⟨-, job, -, rfl⟩
        · exact h.adder b _ T.before (adds_cons.mpr (T.adds h hta))
        · exact h.adder b t ht hta
        · exact absurd hta (not_adds_job job)
      fresh := fun b c t u hbc ht hu hta => by
        rcases T.task_cases ht with ⟨rfl, rfl⟩ | ⟨hb, ht⟩ | ⟨-, job, -, rfl⟩
        · have hadds : Task.Adds ⟨copy, i :: rest⟩ := adds_cons.mpr (T.adds h hta)
          rcases T.task_cases hu with ⟨rfl, -⟩ | ⟨hc, hu⟩ | ⟨-, job, rfl, -⟩
          · exact absurd rfl hbc
          · exact h.fresh b c ⟨copy, i :: rest⟩ u hbc T.before hu hadds
          · exact absurd (adds_cons.mp hadds) id
        · have hne := h.fresh b a t ⟨copy, i :: rest⟩ hb ht T.before hta
          rcases T.task_cases hu with ⟨-, rfl⟩ | ⟨-, hu⟩ | ⟨-, job, -, rfl⟩
          · exact hne
          · exact h.fresh b c t u hbc ht hu hta
          · exact hne
        · exact absurd hta (not_adds_job job) }

end Turn

/-! ## The other steps -/

theorem cancelJob_task (s : Daemon) (i : Nat) (a : Actor) :
    Daemon.task { s with workers := s.workers.modify i fun w => { w with cancelled := true } } a =
      s.task a := by
  cases a with
  | dispatcher => rfl
  | worker j =>
    simp only [Daemon.task, List.getElem?_modify]
    split <;> cases s.workers[j]? <;> rfl

/-- **What a request starts** is not under way yet, and its record is one of
the state's or of the next id. -/
theorem request_task {r : Request} (h : r.task m = some t) :
    Tidy t.script ∧ ¬ t.Open ∧ m.nextId ≤ r.nextId m ∧
      ((∃ id, m.projects.lookup id = some t.copy ∧ ¬ t.Adds) ∨
        t.copy.id = m.nextId ∧ r.nextId m = m.nextId + 1) := by
  cases r with
  | add p =>
    simp only [Request.task] at h
    split at h
    · rename_i hnew
      obtain rfl := Option.some.inj h
      refine ⟨⟨by simp [Instr.Open, Instr.Adds], by simp, by simp⟩, ?_, Nat.le_succ _,
        .inr ⟨hnew.1, rfl⟩⟩
      simp [open_cons, Instr.Open]
    · simp at h
  | rename id name =>
    obtain ⟨p, hp, rfl⟩ := Option.map_eq_some_iff.mp h
    refine ⟨⟨by simp, by simp, by simp⟩, ?_, le_rfl, .inl ⟨id, hp, ?_⟩⟩
    · simp [open_cons, Instr.Open]
    · simp [adds_cons, Instr.Adds]
  | remove id del force =>
    obtain ⟨p, hp, rfl⟩ := Option.map_eq_some_iff.mp h
    refine ⟨⟨by simp [Instr.Open, Instr.Adds], by simp, by simp⟩, ?_, le_rfl, .inl ⟨id, hp, ?_⟩⟩
    · simp [open_cons, Instr.Open]
    · simp [adds_cons, Instr.Adds]
  | _ =>
    obtain ⟨p, hp, h⟩ := Option.bind_eq_some_iff.mp h
    split at h
    · obtain rfl := Option.some.inj h
      refine ⟨⟨by simp [Instr.Open, Instr.Adds], by simp, by simp⟩, ?_, le_rfl,
        .inl ⟨_, hp, ?_⟩⟩
      · simp [open_cons, Instr.Open]
      · simp [adds_cons, Instr.Adds]
    · simp at h

/-- Stored flags change nothing else of a record, and add none. -/
theorem applyPresence_lookup {m : ProjectMap} {flags : List (ProjectId × String × Bool)}
    {id : ProjectId} {q : Project} (h : (flags.foldl applyPresence m).lookup id = some q) :
    ∃ p present, m.lookup id = some p ∧ q = { p with sourcePresent := present } := by
  induction flags generalizing m with
  | nil => exact ⟨q, q.sourcePresent, h, rfl⟩
  | cons flag flags ih =>
    obtain ⟨p, present, hp, rfl⟩ := ih h
    unfold applyPresence at hp
    split at hp
    · rename_i r hr
      split at hp
      · by_cases hid : id = flag.1
        · subst hid
          rw [AList.lookup_insert] at hp
          obtain rfl := Option.some.inj hp
          exact ⟨r, present, hr, rfl⟩
        · rw [AList.lookup_insert_ne hid] at hp
          exact ⟨p, present, hp, rfl⟩
      · exact ⟨p, present, hp, rfl⟩
    · exact ⟨p, present, hp, rfl⟩

/-- The tasks after a request: what it started, and the workers. -/
theorem requested_task {b : Actor} {n : ProjectId}
    (hu : Daemon.task { s with dispatcher := some t, nextId := n } b = some u) :
    (b = .dispatcher ∧ u = t) ∨ b ≠ .dispatcher ∧ s.task b = some u := by
  cases b with
  | dispatcher => exact .inl ⟨rfl, (Option.some.inj hu).symm⟩
  | worker j => exact .inr ⟨by simp, hu⟩

theorem Daemon.Ordered.request {r : Request} (h : s.Ordered) (hr : r.task s.toShared = some t) :
    Daemon.Ordered { s with dispatcher := some t, nextId := r.nextId s.toShared } := by
  obtain ⟨htidy, -, hle, hcopy⟩ := request_task hr
  exact
    { known := fun id p hp => by
        obtain ⟨hid, hlt⟩ := h.known id p hp
        exact ⟨hid, Nat.lt_of_lt_of_le hlt hle⟩
      filed := fun id f hf => Nat.lt_of_lt_of_le (h.filed id f hf) hle
      young := fun b u hu => by
        rcases requested_task hu with ⟨-, rfl⟩ | ⟨-, hu⟩
        · rcases hcopy with ⟨id, hlook, -⟩ | ⟨hid, hn⟩
          · obtain ⟨rfl, hlt⟩ := h.known id _ hlook
            exact Nat.lt_of_lt_of_le hlt hle
          · show u.copy.id < r.nextId s.toShared
            rw [hid, hn]
            exact Nat.lt_succ_self _
        · exact Nat.lt_of_lt_of_le (h.young b u hu) hle
      tidy := fun b u hu => by
        rcases requested_task hu with ⟨-, rfl⟩ | ⟨-, hu⟩
        · exact htidy
        · exact h.tidy b u hu
      adder := fun b u hu hua => by
        rcases requested_task hu with ⟨hb, -⟩ | ⟨-, hu⟩
        · exact hb
        · exact h.adder b u hu hua
      fresh := fun b c u v hbc hu hv hua => by
        rcases requested_task hu with ⟨rfl, rfl⟩ | ⟨hb, hu⟩
        · rcases requested_task hv with ⟨rfl, -⟩ | ⟨-, hv⟩
          · exact absurd rfl hbc
          · rcases hcopy with ⟨-, -, hadds⟩ | ⟨hid, -⟩
            · exact absurd hua hadds
            · rw [hid]
              exact (h.young c v hv).ne'
        · exact absurd (h.adder b u hu hua) hb }

theorem Daemon.Ordered.congr (h : s.Ordered) (ht : ∀ a, s'.task a = s.task a)
    (hp : ∀ id q, s'.projects.lookup id = some q →
      ∃ p, s.projects.lookup id = some p ∧ q.id = p.id)
    (hd : s'.disk = s.disk) (hn : s'.nextId = s.nextId) : s'.Ordered where
  known id q hq := by
    obtain ⟨p, hlook, hid⟩ := hp id q hq
    obtain ⟨hpid, hlt⟩ := h.known id p hlook
    exact ⟨hid.trans hpid, hn ▸ hlt⟩
  filed id f hf := hn ▸ h.filed id f (hd ▸ hf)
  young a t ha := hn ▸ h.young a t (ht a ▸ ha)
  tidy a t ha := h.tidy a t (ht a ▸ ha)
  adder a t ha := h.adder a t (ht a ▸ ha)
  fresh a b t u hab ha hb := h.fresh a b t u hab (ht a ▸ ha) (ht b ▸ hb)

/-- **Every step keeps ids and scripts in order.** -/
theorem Daemon.Ordered.step {act : Action} (h : s.Ordered) (hstep : s.step act = some s') :
    s'.Ordered := by
  cases act with
  | run a reply =>
    obtain ⟨copy, i, rest, script, T⟩ := Daemon.advance_turn hstep
    exact T.ordered h
  | request r =>
    simp only [Daemon.step] at hstep
    split at hstep
    · have hstep := Option.some.inj hstep
      cases hr : r.task s.toShared with
      | none =>
        rw [hr] at hstep
        exact hstep ▸ h
      | some t =>
        rw [hr] at hstep
        exact hstep ▸ h.request hr
    · simp at hstep
  | cancelJob i =>
    obtain rfl := Option.some.inj hstep
    exact h.congr (cancelJob_task s i) (fun id q hq => ⟨q, hq, rfl⟩) rfl rfl
  | sessionEnds id =>
    obtain rfl := Option.some.inj hstep
    exact h.congr (fun a => by cases a <;> rfl) (fun id q hq => ⟨q, hq, rfl⟩) rfl rfl
  | applyPresence flags =>
    simp only [Daemon.step] at hstep
    split at hstep
    · obtain rfl := Option.some.inj hstep
      refine h.congr (fun a => by cases a <;> rfl) (fun id q hq => ?_) rfl rfl
      obtain ⟨p, -, hlook, rfl⟩ := applyPresence_lookup hq
      exact ⟨p, hlook, rfl⟩
    · simp at hstep

end Projects
end Willie
