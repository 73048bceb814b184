import Willie.Projects.Scripts

/-!
# Projects — writes that do not meet

Every task writes back a copy it read before. While each write of a record
starts from a copy that is still the record, with no other write of it under
way, a write that is under way finds its record and its files as it left
them (`Instr.Sound`), and where none is, the file mirrors the record. The
steps of the daemon keep that (`Daemon.Inv`).
-/

namespace Willie
namespace Projects

variable {s s' : Daemon} {a : Actor} {m m' : Shared} {t u : Task}

/-! ## Files -/

/-- A file shows the name of a record, and the sandbox of one that has no
unreadable table. -/
def Mirrors (f : Stored) (p : Project) : Prop :=
  f.record.name = p.name ∧ (p.sandboxProblem = none → f.table = some p.sandbox)

theorem Mirrors.edit {f : Stored} {p : Project} {e : Edit} (h : Mirrors f p) (he : e.OfJob) :
    Mirrors f (e.apply p) := by
  cases e <;> first | exact he.elim | exact h

/-- What `save` writes mirrors what it was given. -/
theorem Disk.write_mirrors {d : Disk} {p : Project} {g : Stored}
    (h : (d.write p).tmps.lookup p.id = some g) : Mirrors g p := by
  simp only [Disk.write, AList.lookup_insert, Option.some.injEq] at h
  subst h
  refine ⟨rfl, fun hp => ?_⟩
  simp [hp]

/-! ## Tasks -/

/-- A change starts from what the state holds. -/
def Change.Current (m : Shared) (copy : Project) : Change → Prop
  | .new => True
  | .edit _ => m.projects.lookup copy.id = some copy

/-- What holds of the project of a write or a removal that is under way. -/
def Instr.Sound (m : Shared) (copy : Project) : Instr → Prop
  | .update c _ .tmp => c = .new → m.disk.files.lookup copy.id = none
  | .update c _ .file =>
    c.Current m copy ∧ (∀ g, m.disk.tmps.lookup copy.id = some g → Mirrors g (c.apply copy)) ∧
      ∀ f, m.disk.files.lookup copy.id = some f → Mirrors f copy
  | .update c _ .state =>
    c.Current m copy ∧ ∀ f, m.disk.files.lookup copy.id = some f → Mirrors f (c.apply copy)
  | .forget true => m.disk.files.lookup copy.id = none
  | _ => True

def Task.Sound (m : Shared) (t : Task) : Prop := ∀ i ∈ t.script.head?, i.Sound m t.copy

/-- No task is writing or forgetting the record. -/
def Daemon.Quiet (s : Daemon) (id : ProjectId) : Prop :=
  ∀ a t, s.task a = some t → t.Open → t.copy.id ≠ id

/-- No other task is. -/
def Daemon.Alone (s : Daemon) (a : Actor) (id : ProjectId) : Prop :=
  ∀ b t, b ≠ a → s.task b = some t → t.Open → t.copy.id ≠ id

/-- A write of a record starts from a copy that is still the record, and
with no other write or removal of it under way, unless it fails at once and
is given up; so does a removal, and its unlink does not fail. -/
def Instr.Undisturbed (s : Daemon) (a : Actor) (copy : Project) (reply : Reply) : Instr → Prop
  | .update c strict .tmp =>
    reply = .ok ∨ strict = false → c.Current s.toShared copy ∧ s.Alone a copy.id
  | .forget false => reply = .ok ∧ s.Alone a copy.id
  | _ => True

/-- **The step disturbs no write**, and no presence flag is stored in a
record being written. -/
def Undisturbed (s : Daemon) : Action → Prop
  | .run a reply => ∀ t, s.task a = some t → ∀ i ∈ t.script.head?, i.Undisturbed s a t.copy reply
  | .applyPresence flags => ∀ a t, s.task a = some t → t.Open →
      (flags.foldl applyPresence s.projects).lookup t.copy.id = s.projects.lookup t.copy.id
  | _ => True

/-! ## Deciding it -/

/-- The dispatcher and the threads there are. -/
def Daemon.actors (s : Daemon) : List Actor :=
  .dispatcher :: (List.range s.workers.length).map .worker

/-- Nobody else has a task. -/
theorem mem_actors (h : s.task a = some t) : a ∈ s.actors := by
  cases a with
  | dispatcher => exact List.mem_cons_self ..
  | worker i =>
    obtain ⟨w, hw, -⟩ := task_worker.mp h
    obtain ⟨hlt, -⟩ := List.getElem?_eq_some_iff.mp hw
    exact List.mem_cons_of_mem _ (List.mem_map_of_mem (List.mem_range.mpr hlt))

instance : DecidablePred Instr.Open
  | .update _ _ .file | .update _ _ .state | .forget true => .isTrue trivial
  | .update _ _ .tmp | .forget false | .acquire | .begin | .checkCancelled _ | .git _ |
    .removeDirAll | .release | .clearBusy | .upsertJob | .liveSessions | .submit _ | .isBusy |
    .prepare | .spawnSupervisor => .isFalse id

instance (t : Task) : Decidable t.Open := inferInstanceAs (Decidable (∃ i ∈ t.script.head?, i.Open))

instance (m : Shared) (copy : Project) (c : Change) : Decidable (c.Current m copy) :=
  match c with
  | .new => .isTrue trivial
  | .edit _ => inferInstanceAs (Decidable (m.projects.lookup copy.id = some copy))

instance (s : Daemon) (a : Actor) (id : ProjectId) : Decidable (s.Alone a id) :=
  decidable_of_iff (∀ b ∈ s.actors, ∀ t ∈ s.task b, b ≠ a → t.Open → t.copy.id ≠ id)
    ⟨fun h b t hb ht => h b (mem_actors ht) t ht hb, fun h b _ t ht hb => h b t hb ht⟩

instance (s : Daemon) (a : Actor) (copy : Project) (reply : Reply) (i : Instr) :
    Decidable (i.Undisturbed s a copy reply) := by
  unfold Instr.Undisturbed
  split <;> infer_instance

instance (s : Daemon) (act : Action) : Decidable (Undisturbed s act) :=
  match act with
  | .run a reply => inferInstanceAs (Decidable (∀ t ∈ s.task a, ∀ i ∈ t.script.head?,
      i.Undisturbed s a t.copy reply))
  | .applyPresence flags => decidable_of_iff (∀ a ∈ s.actors, ∀ t ∈ s.task a, t.Open →
      (flags.foldl applyPresence s.projects).lookup t.copy.id = s.projects.lookup t.copy.id)
    ⟨fun h a t ht => h a (mem_actors ht) t ht, fun h a _ t ht => h a t ht⟩
  | .request _ | .cancelJob _ | .sessionEnds _ => .isTrue trivial

/-! ## What undisturbed steps keep -/

/-- A daemon that has read its files and serves nothing yet. -/
structure Daemon.Start (s : Daemon) : Prop where
  dispatcher : s.dispatcher = none
  workers : s.workers = []
  known : ∀ id p, s.projects.lookup id = some p → p.id = id ∧ id < s.nextId
  filed : ∀ id f, s.disk.files.lookup id = some f → id < s.nextId
  mirrored : ∀ id f p, s.disk.files.lookup id = some f → s.projects.lookup id = some p → Mirrors f p

/-- What every step that disturbs no write keeps. -/
structure Daemon.Inv (s : Daemon) : Prop extends s.Ordered where
  alone : ∀ a b t u, a ≠ b → s.task a = some t → s.task b = some u → t.Open → u.Open →
    t.copy.id ≠ u.copy.id
  sound : ∀ a t, s.task a = some t → t.Sound s.toShared
  mirrored : ∀ id f p, s.Quiet id → s.disk.files.lookup id = some f →
    s.projects.lookup id = some p → Mirrors f p

theorem Daemon.Start.not_task (h : s.Start) : s.task a ≠ some t := by
  cases a <;> simp [Daemon.task, h.dispatcher, h.workers]

theorem Daemon.Start.ordered (h : s.Start) : s.Ordered where
  known := h.known
  filed := h.filed
  young _ _ ht := absurd ht h.not_task
  tidy _ _ ht := absurd ht h.not_task
  adder _ _ ht := absurd ht h.not_task
  fresh _ _ _ _ _ ht := absurd ht h.not_task

theorem Daemon.Start.inv (h : s.Start) : s.Inv where
  toOrdered := h.ordered
  alone _ _ _ _ _ ht := absurd ht h.not_task
  sound _ _ ht := absurd ht h.not_task
  mirrored id f p _ := h.mirrored id f p

/-! ## Soundness of a task, elsewhere and when nothing is under way -/

theorem sound_cons {copy : Project} {i : Instr} {rest : List Instr} :
    Task.Sound m ⟨copy, i :: rest⟩ ↔ i.Sound m copy := by simp [Task.Sound]

theorem Instr.Sound.of_idle {copy : Project} {i : Instr} (ho : ¬ i.Open) (ha : ¬ i.Adds) :
    i.Sound m copy := by
  cases i with
  | update c strict stage =>
    cases stage with
    | tmp =>
      rintro rfl
      exact (ha rfl).elim
    | file => exact (ho trivial).elim
    | state => exact (ho trivial).elim
  | forget unlinked =>
    cases unlinked with
    | false => trivial
    | true => exact (ho trivial).elim
  | _ => trivial

theorem Instr.Sound.of_unfiled {copy : Project} {i : Instr} (ho : ¬ i.Open)
    (hf : m.disk.files.lookup copy.id = none) : i.Sound m copy := by
  by_cases ha : i.Adds
  · cases i with
    | update c strict stage =>
      cases stage with
      | tmp => exact fun _ => hf
      | file => exact (ho trivial).elim
      | state => exact (ho trivial).elim
    | _ => exact ha.elim
  · exact .of_idle ho ha

theorem Task.Sound.of_idle (ho : ¬ t.Open) (ha : ¬ t.Adds) : t.Sound m :=
  fun i hi => .of_idle (fun h => ho ⟨i, hi, h⟩) fun h => ha ⟨i, hi, h⟩

theorem Change.Current.same {c : Change} {copy : Project} (h : c.Current m copy)
    (hs : SameAt m m' copy.id) : c.Current m' copy := by
  cases c with
  | new => trivial
  | edit e => exact hs.project.trans h

theorem Change.Current.held {c : Change} {copy : Project} (h : c.Current m copy)
    (hp : m'.projects = m.projects) : c.Current m' copy := by
  cases c with
  | new => trivial
  | edit e => exact (congrArg (AList.lookup copy.id) hp).trans h

theorem Instr.Sound.same {copy : Project} {i : Instr} (h : i.Sound m copy)
    (hs : SameAt m m' copy.id) : i.Sound m' copy := by
  cases i with
  | update c strict stage =>
    cases stage with
    | tmp => exact fun hc => hs.file.trans (h hc)
    | file =>
      obtain ⟨hc, htmp, hfile⟩ := h
      exact ⟨hc.same hs, by rwa [hs.tmp], by rwa [hs.file]⟩
    | state =>
      obtain ⟨hc, hfile⟩ := h
      exact ⟨hc.same hs, by rwa [hs.file]⟩
  | forget unlinked =>
    cases unlinked with
    | false => trivial
    | true => exact hs.file.trans h
  | _ => trivial

theorem Instr.Sound.of_closed {copy : Project} {i : Instr} (h : i.Sound m copy) (ho : ¬ i.Open)
    (hf : m'.disk.files = m.disk.files) : i.Sound m' copy := by
  by_cases ha : i.Adds
  · cases i with
    | update c strict stage =>
      cases stage with
      | tmp => exact fun hc => hf ▸ h hc
      | file => exact (ho trivial).elim
      | state => exact (ho trivial).elim
    | _ => exact ha.elim
  · exact .of_idle ho ha

theorem Task.Sound.same (h : t.Sound m) (hs : SameAt m m' t.copy.id) : t.Sound m' :=
  fun i hi => (h i hi).same hs

/-! ## A task's step -/

section Turn

variable {reply : Reply} {copy : Project} {i : Instr} {rest script : List Instr}

/-- A task that writes is alone: no other has the record open, or adds one
of its id. -/
theorem Turn.apart (T : Turn s s' a reply copy i rest script) (inv : s.Inv)
    (hok : Undisturbed s (.run a reply)) (hw : i.Lands reply) {b : Actor} (hb : b ≠ a)
    (hu : s.task b = some u) (hx : u.Open ∨ u.Adds) : u.copy.id ≠ copy.id := by
  rcases hx with ho | ha
  · have hi := hok _ T.before i (by simp)
    cases i with
    | update c strict stage =>
      cases stage with
      | tmp => exact (hi hw).2 b u hb hu ho
      | file => exact inv.alone b a u _ hb hu T.before ho (open_cons.mpr trivial)
      | state => exact inv.alone b a u _ hb hu T.before ho (open_cons.mpr trivial)
    | forget unlinked =>
      cases unlinked with
      | false => exact hi.2 b u hb hu ho
      | true => exact inv.alone b a u _ hb hu T.before ho (open_cons.mpr trivial)
    | _ => exact hw.elim
  · exact inv.fresh b a u _ hb hu T.before ha

/-- So what another task is writing stays as it is. -/
theorem Turn.same (T : Turn s s' a reply copy i rest script) (inv : s.Inv)
    (hok : Undisturbed s (.run a reply)) {b : Actor} (hb : b ≠ a) (hu : s.task b = some u)
    (hx : u.Open ∨ u.Adds) : SameAt s.toShared s'.toShared u.copy.id := by
  by_cases hw : i.Lands reply
  · exact perform_local T.perform (T.apart inv hok hw hb hu hx)
  · obtain ⟨hp, hd, -⟩ := perform_idle T.perform hw
    exact .of_eq hp hd

/-- A write that is to start finds no other under way. -/
theorem Turn.quiet (T : Turn s s' a reply copy i rest script) (inv : s.Inv)
    (hok : Undisturbed s (.run a reply)) (hw : i.Lands reply) (hi : ¬ i.Open) :
    s.Quiet copy.id := by
  intro b u hu ho
  by_cases hb : b = a
  · subst hb
    rw [T.before] at hu
    obtain rfl := Option.some.inj hu
    exact (hi (open_cons.mp ho)).elim
  · exact T.apart inv hok hw hb hu (.inl ho)

/-- A file that mirrors the record mirrors what a job makes of it, where the
save failed and is logged. -/
theorem Turn.logged {c : Change} {strict : Bool} {stage : Stage}
    (T : Turn s s' a reply copy (.update c strict stage) rest script) (inv : s.Inv)
    (hstrict : ¬ strict = true) {f : Stored} (hm : Mirrors f copy) : Mirrors f (c.apply copy) := by
  cases c with
  | new => exact hm
  | edit e =>
    obtain rfl : strict = false := by simpa using hstrict
    exact hm.edit ((inv.tidy a _ T.before).logged e stage (List.mem_cons_self ..))

/-- The first stage of a write. -/
theorem Turn.sound_tmp {c : Change} {strict : Bool}
    (T : Turn s s' a reply copy (.update c strict .tmp) rest script) (inv : s.Inv)
    (hok : Undisturbed s (.run a reply)) (hw : (Instr.update c strict .tmp).Lands reply) :
    Task.Sound s'.toShared ⟨copy, script⟩ := by
  have hs := sound_cons.mp (inv.sound a _ T.before)
  have hcur := (hok _ T.before (.update c strict .tmp) (by simp) hw).1
  -- no write of the record is under way, so its file mirrors it
  have hfile : ∀ f, s.disk.files.lookup copy.id = some f → Mirrors f copy := by
    intro f hf
    cases c with
    | new => rw [hs rfl] at hf; simp at hf
    | edit e => exact inv.mirrored copy.id f copy (T.quiet inv hok hw id) hf hcur
  obtain ⟨hpr, -, ⟨hd, rfl⟩ | ⟨hd, rfl⟩⟩ := perform_tmp T.perform
  · refine sound_cons.mpr ⟨hcur.held hpr, fun g hgt => ?_, fun f hf => hfile f (by rwa [hd] at hf)⟩
    rw [hd] at hgt
    exact Disk.write_mirrors (by rwa [Change.apply_id])
  · split
    · exact .of_idle (by simp [Task.Open]) (by simp [Task.Adds])
    · rename_i hstrict
      exact sound_cons.mpr ⟨hcur.held hpr, fun f hf =>
        T.logged inv hstrict (hfile f (by rwa [hd] at hf))⟩

/-- The second stage of a write. -/
theorem Turn.sound_file {c : Change} {strict : Bool}
    (T : Turn s s' a reply copy (.update c strict .file) rest script) (inv : s.Inv) :
    Task.Sound s'.toShared ⟨copy, script⟩ := by
  obtain ⟨hcur, htmp, hfile⟩ := sound_cons.mp (inv.sound a _ T.before)
  obtain ⟨hpr, -, ⟨hd, rfl⟩ | ⟨hd, rfl⟩⟩ := perform_file T.perform
  · refine sound_cons.mpr ⟨hcur.held hpr, fun f hf => ?_⟩
    obtain ⟨g, hgt, hd⟩ := Option.map_eq_some_iff.mp hd
    rw [← hd, AList.lookup_insert] at hf
    obtain rfl := Option.some.inj hf
    exact htmp g hgt
  · split
    · exact .of_idle (by simp [Task.Open]) (by simp [Task.Adds])
    · rename_i hstrict
      exact sound_cons.mpr ⟨hcur.held hpr, fun f hf =>
        T.logged inv hstrict (hfile f (by rwa [hd] at hf))⟩

/-- **The task that runs stays sound.** -/
theorem Turn.sound (T : Turn s s' a reply copy i rest script) (inv : s.Inv)
    (hok : Undisturbed s (.run a reply)) : Task.Sound s'.toShared ⟨copy, script⟩ := by
  have ht := inv.tidy a _ T.before
  have idle : Task.Sound s'.toShared ⟨copy, rest⟩ :=
    .of_idle (ht.rest_idle copy).1 (ht.rest_idle copy).2
  by_cases hw : i.Lands reply
  · cases i with
    | update c strict stage =>
      cases stage with
      | tmp => exact T.sound_tmp inv hok hw
      | file => exact T.sound_file inv
      | state =>
        obtain ⟨-, -, -, rfl⟩ := perform_state T.perform
        exact idle
    | forget unlinked =>
      cases unlinked with
      | false =>
        obtain ⟨-, -, rfl, hd | ⟨-, hr⟩⟩ := perform_unlink T.perform
        · refine sound_cons.mpr ?_
          show s'.disk.files.lookup copy.id = none
          rw [hd]
          exact AList.lookup_erase _ _
        · exact absurd (hok _ T.before (.forget false) (by simp)).1 hr
      | true =>
        obtain ⟨-, -, -, rfl⟩ := perform_erase T.perform
        exact idle
    | _ => exact hw.elim
  · have hidle := fun hx => hw (T.lands inv.toOrdered hx)
    exact .of_idle (fun ho => hidle (.inl ho)) fun ha => hidle (.inr ha)

/-- Its record and its files, when its write or its removal has ended. -/
theorem Turn.mirrored (T : Turn s s' a reply copy i rest script) (inv : s.Inv)
    (hok : Undisturbed s (.run a reply)) {id : ProjectId} {f : Stored} {p : Project}
    (hq : s'.Quiet id) (hf : s'.disk.files.lookup id = some f)
    (hp : s'.projects.lookup id = some p) : Mirrors f p := by
  -- an open task of the record would still be open
  have quiet (ha : ¬ i.Open ∨ copy.id ≠ id) : s.Quiet id := by
    intro b u hu ho
    by_cases hb : b = a
    · subst hb
      rw [T.before] at hu
      obtain rfl := Option.some.inj hu
      exact ha.resolve_left (not_not_intro (open_cons.mp ho))
    · exact hq b u (T.keep b u hb hu) ho
  have closed : Task.Open ⟨copy, script⟩ → copy.id ≠ id := hq a _ T.after
  by_cases hid : id = copy.id
  swap
  · have hs := perform_local T.perform hid
    exact inv.mirrored id f p (quiet (.inr fun h => hid h.symm)) (hs.file ▸ hf) (hs.project ▸ hp)
  subst hid
  have hsnd := sound_cons.mp (inv.sound a _ T.before)
  have hper := T.perform
  by_cases hw : i.Lands reply
  · cases i with
    | update c strict stage =>
      cases stage with
      | tmp =>
        obtain ⟨hpr, -, ⟨-, rfl⟩ | ⟨hd, rfl⟩⟩ := perform_tmp hper
        · exact absurd rfl (closed (open_cons.mpr trivial))
        · split at closed
          · rw [hd] at hf
            rw [hpr] at hp
            exact inv.mirrored copy.id f p (quiet (.inl id)) hf hp
          · exact absurd rfl (closed (open_cons.mpr trivial))
      | file =>
        obtain ⟨hpr, -, ⟨-, rfl⟩ | ⟨hd, rfl⟩⟩ := perform_file hper
        · exact absurd rfl (closed (open_cons.mpr trivial))
        · split at closed
          · rename_i hstrict
            rw [hd] at hf
            rw [hpr] at hp
            cases c with
            | new =>
              subst hstrict
              exact absurd (List.mem_cons_self ..) ((inv.tidy a _ T.before).returned .file)
            | edit e =>
              obtain rfl : copy = p := Option.some.inj (hsnd.1.symm.trans hp)
              exact hsnd.2.2 f hf
          · exact absurd rfl (closed (open_cons.mpr trivial))
      | state =>
        obtain ⟨hpr, hd, -⟩ := perform_state hper
        rw [hd] at hf
        rw [hpr, AList.lookup_insert] at hp
        obtain rfl := Option.some.inj hp
        exact hsnd.2 f hf
    | forget unlinked =>
      cases unlinked with
      | false =>
        obtain ⟨-, -, rfl, -⟩ := perform_unlink hper
        exact absurd rfl (closed (open_cons.mpr trivial))
      | true =>
        obtain ⟨hpr, -⟩ := perform_erase hper
        rw [hpr, AList.lookup_erase] at hp
        simp at hp
    | _ => exact hw.elim
  · obtain ⟨hpr, hd, -⟩ := perform_idle hper hw
    rw [hd] at hf
    rw [hpr] at hp
    exact inv.mirrored copy.id f p (quiet (.inl fun h => hw h.lands)) hf hp

/-- **A task's step that disturbs no write keeps the invariant.** -/
theorem Turn.inv (T : Turn s s' a reply copy i rest script) (inv : s.Inv)
    (hok : Undisturbed s (.run a reply)) : s'.Inv where
  toOrdered := T.ordered inv.toOrdered
  alone b c t u hbc ht hu hto huo := by
    have writes (ho : Task.Open ⟨copy, script⟩) : i.Lands reply := T.lands inv.toOrdered (.inl ho)
    rcases T.task_cases ht with ⟨rfl, rfl⟩ | ⟨hb, ht⟩ | ⟨-, job, -, rfl⟩
    · rcases T.task_cases hu with ⟨rfl, -⟩ | ⟨hc, hu⟩ | ⟨-, job, -, rfl⟩
      · exact absurd rfl hbc
      · exact (T.apart inv hok (writes hto) hc hu (.inl huo)).symm
      · exact absurd huo (not_open_job job)
    · rcases T.task_cases hu with ⟨rfl, rfl⟩ | ⟨-, hu⟩ | ⟨-, job, -, rfl⟩
      · exact T.apart inv hok (writes huo) hb ht (.inl hto)
      · exact inv.alone b c t u hbc ht hu hto huo
      · exact absurd huo (not_open_job job)
    · exact absurd hto (not_open_job job)
  sound b u hu := by
    rcases T.task_cases hu with ⟨-, rfl⟩ | ⟨hb, hu⟩ | ⟨-, job, -, rfl⟩
    · exact T.sound inv hok
    · by_cases hx : u.Open ∨ u.Adds
      · exact (inv.sound b u hu).same (T.same inv hok hb hu hx)
      · exact .of_idle (fun h => hx (.inl h)) fun h => hx (.inr h)
    · exact .of_idle (not_open_job job) (not_adds_job job)
  mirrored _ _ _ hq hf hp := T.mirrored inv hok hq hf hp

end Turn

/-! ## The other steps -/

/-- A step that touches no task, record or file. -/
theorem Daemon.Inv.congr (inv : s.Inv) (h : s'.Ordered) (ht : ∀ a, s'.task a = s.task a)
    (hp : s'.projects = s.projects) (hd : s'.disk = s.disk) : s'.Inv where
  toOrdered := h
  alone a b t u hab ha hb := inv.alone a b t u hab (ht a ▸ ha) (ht b ▸ hb)
  sound a t ha := (inv.sound a t (ht a ▸ ha)).same (.of_eq hp hd)
  mirrored id f p hq hf h' :=
    inv.mirrored id f p (fun a t ha => hq a t ((ht a).symm ▸ ha)) (hd ▸ hf) (hp ▸ h')

theorem Daemon.Inv.request {r : Request} (inv : s.Inv) (hidle : s.Idle)
    (hr : r.task s.toShared = some t) :
    Daemon.Inv { s with dispatcher := some t, nextId := r.nextId s.toShared } := by
  obtain ⟨-, hopen, -, hcopy⟩ := request_task hr
  refine ⟨inv.toOrdered.request hr, fun b c u v hbc hu hv huo hvo => ?_, fun b u hu => ?_,
    fun id f p hq hf hp => ?_⟩
  · rcases requested_task hu with ⟨-, rfl⟩ | ⟨-, hu⟩
    · exact absurd huo hopen
    · rcases requested_task hv with ⟨-, rfl⟩ | ⟨-, hv⟩
      · exact absurd hvo hopen
      · exact inv.alone b c u v hbc hu hv huo hvo
  · rcases requested_task hu with ⟨-, rfl⟩ | ⟨-, hu⟩
    · by_cases hadds : u.Adds
      · obtain ⟨id, -, hno⟩ | ⟨hid, -⟩ := hcopy
        · exact absurd hadds hno
        · -- the next id has no file
          have hfile : s.disk.files.lookup u.copy.id = none := by
            rw [hid]
            by_contra hf
            obtain ⟨f, hf⟩ := Option.ne_none_iff_exists'.mp hf
            exact (inv.filed _ f hf).ne rfl
          exact fun i hi => .of_unfiled (fun ho => hopen ⟨i, hi, ho⟩) hfile
      · exact .of_idle hopen hadds
    · exact (inv.sound b u hu).same (.of_eq rfl rfl)
  · refine inv.mirrored id f p (fun b u hu ho => ?_) hf hp
    cases b with
    | dispatcher =>
      have := hidle u hu
      simp [Task.Open, this] at ho
    | worker j => exact hq (.worker j) u hu ho

theorem Daemon.Inv.applyPresence {flags : List (ProjectId × String × Bool)} (inv : s.Inv)
    (hok : Undisturbed s (.applyPresence flags))
    (h : Daemon.Ordered { s with projects := flags.foldl applyPresence s.projects }) :
    Daemon.Inv { s with projects := flags.foldl Projects.applyPresence s.projects } := by
  have ht (a : Actor) : Daemon.task
      { s with projects := flags.foldl Projects.applyPresence s.projects } a = s.task a := by
    cases a <;> rfl
  refine ⟨h, fun a b t u hab ha hb => inv.alone a b t u hab (ht a ▸ ha) (ht b ▸ hb),
    fun a t ha => ?_, fun id f q hq hf hp => ?_⟩
  · rw [ht a] at ha
    have hs := inv.sound a t ha
    by_cases ho : t.Open
    · exact hs.same ⟨hok a t ha ho, rfl, rfl⟩
    · exact fun i hi => (hs i hi).of_closed (fun h' => ho ⟨i, hi, h'⟩) rfl
  · obtain ⟨p, -, hlook, rfl⟩ := applyPresence_lookup hp
    have hm := inv.mirrored id f p (fun a t ha => hq a t ((ht a).symm ▸ ha)) hf hlook
    exact hm

/-- **Every step that disturbs no write keeps the invariant.** -/
theorem Daemon.Inv.step {act : Action} (inv : s.Inv) (hok : Undisturbed s act)
    (h : s.step act = some s') : s'.Inv := by
  have hord := inv.toOrdered.step h
  cases act with
  | run a reply =>
    obtain ⟨copy, i, rest, script, T⟩ := Daemon.advance_turn h
    exact T.inv inv hok
  | request r =>
    simp only [Daemon.step] at h
    split at h
    · rename_i hidle
      have h := Option.some.inj h
      cases hr : r.task s.toShared with
      | none =>
        rw [hr] at h
        exact h ▸ inv
      | some t =>
        rw [hr] at h
        exact h ▸ inv.request hidle hr
    · simp at h
  | cancelJob i =>
    obtain rfl := Option.some.inj h
    exact inv.congr hord (cancelJob_task s i) rfl rfl
  | sessionEnds id =>
    obtain rfl := Option.some.inj h
    exact inv.congr hord (fun a => by cases a <;> rfl) rfl rfl
  | applyPresence flags =>
    simp only [Daemon.step] at h
    split at h
    · obtain rfl := Option.some.inj h
      exact inv.applyPresence hok hord
    · simp at h

end Projects
end Willie
