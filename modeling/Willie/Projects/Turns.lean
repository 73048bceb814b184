import Willie.Projects.Threads

/-!
# Projects — what one step can do

A task that runs changes its own script, the record and the files of its own
project, and perhaps starts a worker; every other task is as it was. An
instruction either leaves records and files alone, or is a stage of writing
a record, or a stage of forgetting one.
-/

namespace Willie
namespace Projects

variable {s s' : Daemon} {a b : Actor} {reply : Reply} {t u : Task} {script : List Instr}

/-! ## Tasks -/

theorem task_worker {i : Nat} : s.task (.worker i) = some t ↔
    ∃ w, s.workers[i]? = some w ∧ w.toTask = t := by
  simp [Daemon.task]

theorem task_setScript_self (h : s.task a = some t) :
    (s.setScript script a).task a = some ⟨t.copy, script⟩ := by
  cases a with
  | dispatcher =>
    simp only [Daemon.task] at h
    simp [Daemon.task, Daemon.setScript, h]
  | worker i =>
    obtain ⟨w, hw, rfl⟩ := task_worker.mp h
    simp [Daemon.task, Daemon.setScript, hw]

theorem task_setScript_ne (h : b ≠ a) : (s.setScript script a).task b = s.task b := by
  cases a <;> cases b
  · exact absurd rfl h
  · rfl
  · rfl
  · rename_i i j
    have hij : i ≠ j := fun he => h (he ▸ rfl)
    simp [Daemon.task, Daemon.setScript, hij]

/-- A step of one task: what it ran, and what is left of it. -/
structure Turn (s s' : Daemon) (a : Actor) (reply : Reply) (copy : Project) (i : Instr)
    (rest script : List Instr) : Prop where
  before : s.task a = some ⟨copy, i :: rest⟩
  perform : i.perform s.toShared copy (s.cancelled a) rest reply = some (s'.toShared, script)
  after : s'.task a = some ⟨copy, script⟩
  workers : s'.workers = (s.setScript script a).workers ++ i.spawned s.toShared copy
  keep : ∀ b u, b ≠ a → s.task b = some u → s'.task b = some u
  others : ∀ b u, b ≠ a → s'.task b = some u →
    s.task b = some u ∨ ∃ job, i = .submit job ∧ u = ⟨copy, job.script⟩

/-- **A step of a task, taken apart.** -/
theorem Daemon.advance_turn (h : s.advance a reply = some s') :
    ∃ copy i rest script, Turn s s' a reply copy i rest script := by
  unfold Daemon.advance at h
  split at h
  · rename_i copy i rest ht
    obtain ⟨⟨shared, script⟩, hp, rfl⟩ := Option.map_eq_some_iff.mp h
    have appended {b : Actor} {u : Task} (hu : (s.setScript script a).task b = some u) :
        Daemon.task { s.setScript script a with
          toShared := shared
          workers := (s.setScript script a).workers ++ i.spawned s.toShared copy } b = some u := by
      cases b with
      | dispatcher => exact hu
      | worker j =>
        obtain ⟨w, hw, rfl⟩ := task_worker.mp hu
        obtain ⟨hlt, -⟩ := List.getElem?_eq_some_iff.mp hw
        exact task_worker.mpr ⟨w, by rw [List.getElem?_append_left hlt, hw], rfl⟩
    refine ⟨copy, i, rest, script, ht, hp, appended (task_setScript_self ht), rfl,
      fun b u hb hu => appended (by rwa [task_setScript_ne hb]), fun b u hb hu => ?_⟩
    cases b with
    | dispatcher => exact .inl (task_setScript_ne hb ▸ hu)
    | worker j =>
      obtain ⟨w, hw, rfl⟩ := task_worker.mp hu
      rcases Nat.lt_or_ge j (s.setScript script a).workers.length with hlt | hge
      · rw [List.getElem?_append_left hlt] at hw
        exact .inl (task_setScript_ne hb ▸ task_worker.mpr ⟨w, hw, rfl⟩)
      · rw [List.getElem?_append_right hge] at hw
        have hmem := List.mem_of_getElem? hw
        cases i with
        | submit job =>
          simp only [Instr.spawned] at hmem
          split at hmem
          · simp at hmem
          · rw [List.mem_singleton] at hmem
            exact .inr ⟨job, rfl, by rw [hmem]⟩
        | _ => simp [Instr.spawned] at hmem
  · simp at h

/-! ## Records and files -/

/-- Two states hold the same of a project. -/
structure SameAt (s s' : Shared) (id : ProjectId) : Prop where
  project : s'.projects.lookup id = s.projects.lookup id
  file : s'.disk.files.lookup id = s.disk.files.lookup id
  tmp : s'.disk.tmps.lookup id = s.disk.tmps.lookup id

/-- Writing or forgetting a record. -/
def Instr.Writes : Instr → Prop
  | .update .. => True
  | .forget _ => True
  | _ => False

/-- It writes or forgets, or goes on to: all but the first stage of a write
that fails, where the failure is returned. -/
def Instr.Lands (reply : Reply) : Instr → Prop
  | .update _ strict .tmp => reply = .ok ∨ strict = false
  | .update .. => True
  | .forget _ => True
  | _ => False

/-- A write or a removal under way. -/
def Instr.Open : Instr → Prop
  | .update _ _ .file => True
  | .update _ _ .state => True
  | .forget true => True
  | _ => False

section Perform

variable {m m' : Shared} {copy : Project} {c : Bool} {rest : List Instr} {i : Instr}

theorem Instr.Open.lands (h : i.Open) : i.Lands reply := by
  cases i with
  | update c strict stage => cases stage <;> first | exact trivial | exact h.elim
  | forget => trivial
  | _ => exact h

/-- **An instruction that writes nothing leaves records and files alone**, and
what is left is what was, or a failure to write, or the cleanup. -/
theorem perform_still (h : i.perform m copy c rest reply = some (m', script)) (hw : ¬ i.Writes) :
    m'.projects = m.projects ∧ m'.disk = m.disk ∧ m'.nextId = m.nextId ∧
      (script = rest ∨ script = [] ∨ script = cleanup ∨
        (∃ kind, script = updateProject (interrupted kind) :: cleanup) ∨
        ∃ e, script = updateProject (addFailed e) :: cleanup) := by
  cases i with
  | update => exact absurd trivial hw
  | forget => exact absurd trivial hw
  | acquire =>
    simp only [Instr.perform] at h
    split at h
    · obtain ⟨rfl, rfl⟩ := Prod.mk.inj (Option.some.inj h)
      exact ⟨rfl, rfl, rfl, .inl rfl⟩
    · simp at h
  | _ =>
    simp only [Instr.perform] at h
    grind

/-- **So does one that writes and forgets nothing in the end.** -/
theorem perform_idle (h : i.perform m copy c rest reply = some (m', script))
    (hw : ¬ i.Lands reply) :
    m'.projects = m.projects ∧ m'.disk = m.disk ∧ m'.nextId = m.nextId ∧
      (script = rest ∨ script = [] ∨ script = cleanup ∨
        (∃ kind, script = updateProject (interrupted kind) :: cleanup) ∨
        ∃ e, script = updateProject (addFailed e) :: cleanup) := by
  cases i with
  | update ch strict stage =>
    cases stage with
    | tmp =>
      obtain ⟨hr, rfl⟩ : reply ≠ .ok ∧ strict = true := by simpa [Instr.Lands] using hw
      have h := Option.some.inj h
      cases reply with
      | ok => exact absurd rfl hr
      | err | panic =>
        obtain ⟨rfl, rfl⟩ := Prod.mk.inj h
        exact ⟨rfl, rfl, rfl, .inr (.inl rfl)⟩
    | file | state => exact absurd trivial hw
  | forget => exact absurd trivial hw
  | _ => exact perform_still h hw

/-- The first stage of a write: the temporary file, or a failure. -/
theorem perform_tmp {ch : Change} {strict : Bool}
    (h : (Instr.update ch strict .tmp).perform m copy c rest reply = some (m', script)) :
    m'.projects = m.projects ∧ m'.nextId = m.nextId ∧
      ((m'.disk = m.disk.write (ch.apply copy) ∧ script = .update ch strict .file :: rest) ∨
        (m'.disk = m.disk ∧
          script = if strict then [] else .update ch strict .state :: rest)) := by
  simp only [Instr.perform] at h
  cases reply <;> grind

/-- The second: the rename, or a failure. -/
theorem perform_file {ch : Change} {strict : Bool}
    (h : (Instr.update ch strict .file).perform m copy c rest reply = some (m', script)) :
    m'.projects = m.projects ∧ m'.nextId = m.nextId ∧
      ((m.disk.rename copy.id = some m'.disk ∧ script = .update ch strict .state :: rest) ∨
        (m'.disk = m.disk ∧
          script = if strict then [] else .update ch strict .state :: rest)) := by
  simp only [Instr.perform] at h
  cases reply <;> cases hd : m.disk.rename copy.id <;> grind

/-- The last: the record in memory. -/
theorem perform_state {ch : Change} {strict : Bool}
    (h : (Instr.update ch strict .state).perform m copy c rest reply = some (m', script)) :
    m'.projects = m.projects.insert copy.id (ch.apply copy) ∧ m'.disk = m.disk ∧
      m'.nextId = m.nextId ∧ script = rest := by
  obtain ⟨rfl, rfl⟩ := Prod.mk.inj (Option.some.inj h)
  exact ⟨rfl, rfl, rfl, rfl⟩

/-- The unlink, which can fail. -/
theorem perform_unlink
    (h : (Instr.forget false).perform m copy c rest reply = some (m', script)) :
    m'.projects = m.projects ∧ m'.nextId = m.nextId ∧ script = .forget true :: rest ∧
      (m'.disk = m.disk.delete copy.id ∨ (m'.disk = m.disk ∧ reply ≠ .ok)) := by
  simp only [Instr.perform] at h
  cases reply <;> grind

/-- The removal from memory. -/
theorem perform_erase
    (h : (Instr.forget true).perform m copy c rest reply = some (m', script)) :
    m'.projects = m.projects.erase copy.id ∧ m'.disk = m.disk ∧ m'.nextId = m.nextId ∧
      script = rest := by
  obtain ⟨rfl, rfl⟩ := Prod.mk.inj (Option.some.inj h)
  exact ⟨rfl, rfl, rfl, rfl⟩

@[simp] theorem Edit.apply_id (p : Project) (e : Edit) : (e.apply p).id = p.id := by
  cases e <;> rfl

@[simp] theorem Change.apply_id (p : Project) (ch : Change) : (ch.apply p).id = p.id := by
  cases ch with
  | new => rfl
  | edit e => exact e.apply_id p

theorem SameAt.of_eq {id : ProjectId} (hp : m'.projects = m.projects) (hd : m'.disk = m.disk) :
    SameAt m m' id := ⟨by rw [hp], by rw [hd], by rw [hd]⟩

/-- **An instruction leaves every other project alone.** -/
theorem perform_local (h : i.perform m copy c rest reply = some (m', script)) {id : ProjectId}
    (hid : id ≠ copy.id) : SameAt m m' id := by
  by_cases hw : i.Writes
  · cases i with
    | update ch strict stage =>
      cases stage with
      | tmp =>
        obtain ⟨hp, -, ⟨hd, -⟩ | ⟨hd, -⟩⟩ := perform_tmp h
        · refine ⟨by rw [hp], by rw [hd]; rfl, ?_⟩
          rw [hd]
          exact AList.lookup_insert_ne (by rwa [Change.apply_id])
        · exact .of_eq hp hd
      | file =>
        obtain ⟨hp, -, ⟨hd, -⟩ | ⟨hd, -⟩⟩ := perform_file h
        · obtain ⟨g, -, hd⟩ := Option.map_eq_some_iff.mp hd
          refine ⟨by rw [hp], ?_, ?_⟩ <;> rw [← hd]
          · exact AList.lookup_insert_ne hid
          · exact AList.lookup_erase_ne hid
        · exact .of_eq hp hd
      | state =>
        obtain ⟨hp, hd, -⟩ := perform_state h
        exact ⟨by rw [hp, AList.lookup_insert_ne hid], by rw [hd], by rw [hd]⟩
    | forget unlinked =>
      cases unlinked with
      | false =>
        obtain ⟨hp, -, -, hd | ⟨hd, -⟩⟩ := perform_unlink h
        · exact ⟨by rw [hp], by rw [hd]; exact AList.lookup_erase_ne hid, by rw [hd]; rfl⟩
        · exact .of_eq hp hd
      | true =>
        obtain ⟨hp, hd, -⟩ := perform_erase h
        exact ⟨by rw [hp, AList.lookup_erase_ne hid], by rw [hd], by rw [hd]⟩
    | _ => exact hw.elim
  · obtain ⟨hp, hd, -⟩ := perform_still h hw
    exact .of_eq hp hd

/-- Ids are given out by requests only. -/
theorem perform_nextId (h : i.perform m copy c rest reply = some (m', script)) :
    m'.nextId = m.nextId := by
  by_cases hw : i.Writes
  · cases i with
    | update ch strict stage =>
      cases stage with
      | tmp => exact (perform_tmp h).2.1
      | file => exact (perform_file h).2.1
      | state => exact (perform_state h).2.2.1
    | forget unlinked =>
      cases unlinked with
      | false => exact (perform_unlink h).2.1
      | true => exact (perform_erase h).2.2.1
    | _ => exact hw.elim
  · exact (perform_still h hw).2.2.1

end Perform

end Projects
end Willie
