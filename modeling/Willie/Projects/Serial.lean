import Willie.Projects.Writes

/-!
# Projects — when the records are serialisable

In a run whose steps disturb no write the records are at every point what
the committed changes make one after another of those at the start, a
project that was removed is gone from memory and disk, and a file that is
not being written shows its record's name and sandbox (`serial_run`). The
daemon does not see to that condition: a cancelled job writes back the copy
it was submitted with, over a sandbox set since (`stale_write_back`).
-/

namespace Willie
namespace Projects

variable {s s' : Daemon} {act : Action}

/-! ## One step -/

/-- **A step does to the records what it commits to.** -/
theorem step_commits (inv : s.Inv) (h : s.step act = some s') :
    s'.projects = (s.commits act).foldl Commit.apply s.projects := by
  cases act with
  | run a reply =>
    obtain ⟨copy, i, rest, script, T⟩ := Daemon.advance_turn h
    have hs := sound_cons.mp (inv.sound a _ T.before)
    have hp := T.perform
    simp only [Daemon.commits, T.before]
    by_cases hw : i.Writes
    · cases i with
      | update c strict stage =>
        cases stage with
        | tmp => exact (perform_tmp hp).1
        | file => exact (perform_file hp).1
        | state =>
          rw [(perform_state hp).1]
          cases c with
          | new => rfl
          | edit e =>
            -- the record has not changed since it was copied, so the whole copy is the edit
            have hcur : s.projects.lookup copy.id = some copy := hs.1
            simp only [Change.commit, List.foldl_cons, List.foldl_nil, Commit.apply, hcur]
            rfl
      | forget unlinked =>
        cases unlinked with
        | false => exact (perform_unlink hp).1
        | true => exact (perform_erase hp).1
      | _ => exact hw.elim
    · rw [(perform_still hp hw).1]
      cases i <;> first | rfl | exact absurd trivial hw
  | request r =>
    simp only [Daemon.step] at h
    split at h
    · have h := Option.some.inj h
      rw [← h]
      cases r.task s.toShared <;> rfl
    · simp at h
  | cancelJob i =>
    obtain rfl := Option.some.inj h
    rfl
  | sessionEnds id =>
    obtain rfl := Option.some.inj h
    rfl
  | applyPresence flags =>
    simp only [Daemon.step] at h
    split at h
    · obtain rfl := Option.some.inj h
      rfl
    · simp at h

/-- A project that was removed: no record, no file, and no task that adds
one of its id. -/
structure Daemon.Gone (s : Daemon) (id : ProjectId) : Prop where
  project : s.projects.lookup id = none
  file : s.disk.files.lookup id = none
  old : id < s.nextId
  unadded : ∀ a t, s.task a = some t → t.copy.id = id → ¬ t.Adds

theorem applyPresence_none {m : ProjectMap} {flags : List (ProjectId × String × Bool)}
    {id : ProjectId} (h : m.lookup id = none) : (flags.foldl applyPresence m).lookup id = none := by
  by_contra hq
  obtain ⟨q, hq⟩ := Option.ne_none_iff_exists'.mp hq
  obtain ⟨p, -, hp, -⟩ := applyPresence_lookup hq
  rw [h] at hp
  simp at hp

section Turn

variable {a : Actor} {reply : Reply} {copy : Project} {i : Instr} {rest script : List Instr}

/-- **A task whose copy is a removed project's writes nothing.** -/
theorem Turn.gone {id : ProjectId} (T : Turn s s' a reply copy i rest script) (inv : s.Inv)
    (hok : Undisturbed s (.run a reply)) (hg : s.Gone id) : s'.Gone id := by
  have hnext : s'.nextId = s.nextId := perform_nextId T.perform
  -- an add makes a project of its own, and this one is an old one
  have unadded : ∀ b u, s'.task b = some u → u.copy.id = id → ¬ u.Adds := by
    intro b u hu hid hadds
    rcases T.task_cases hu with ⟨rfl, rfl⟩ | ⟨-, hu⟩ | ⟨-, job, -, rfl⟩
    · exact hg.unadded b _ T.before hid (adds_cons.mpr (T.adds inv.toOrdered hadds))
    · exact hg.unadded b u hu hid hadds
    · exact not_adds_job job hadds
  by_cases hid : id = copy.id
  swap
  · have hs := perform_local T.perform hid
    exact ⟨hs.project.trans hg.project, hs.file.trans hg.file, hnext ▸ hg.old, unadded⟩
  subst hid
  have hcur {c : Change} (hc : c ≠ .new) : ¬ c.Current s.toShared copy := by
    cases c with
    | new => exact absurd rfl hc
    | edit e =>
      intro h
      rw [Change.Current, hg.project] at h
      simp at h
  have hnew {c : Change} {strict : Bool} {sg : Stage} (hi : i = .update c strict sg) : c ≠ .new :=
    fun hc => hg.unadded a _ T.before rfl (adds_cons.mpr (hi ▸ hc))
  have hs := sound_cons.mp (inv.sound a _ T.before)
  have hp := T.perform
  by_cases hw : i.Lands reply
  · cases i with
    | update c strict stage =>
      cases stage with
      | tmp =>
        -- a write that was checked against the record finds none
        have hgo := hok _ T.before (.update c strict .tmp) (by simp)
        exact absurd (hgo hw).1 (hcur (hnew rfl))
      | file => exact absurd hs.1 (hcur (hnew rfl))
      | state => exact absurd hs.1 (hcur (hnew rfl))
    | forget unlinked =>
      cases unlinked with
      | false =>
        obtain ⟨hpr, -, -, hd | ⟨hd, -⟩⟩ := perform_unlink hp
        · refine ⟨hpr ▸ hg.project, ?_, hnext ▸ hg.old, unadded⟩
          rw [hd]
          exact AList.lookup_erase _ _
        · exact ⟨hpr ▸ hg.project, hd ▸ hg.file, hnext ▸ hg.old, unadded⟩
      | true =>
        obtain ⟨hpr, hd, -⟩ := perform_erase hp
        refine ⟨?_, hd ▸ hg.file, hnext ▸ hg.old, unadded⟩
        rw [hpr]
        exact AList.lookup_erase _ _
    | _ => exact hw.elim
  · obtain ⟨hpr, hd, -⟩ := perform_idle hp hw
    exact ⟨hpr ▸ hg.project, hd ▸ hg.file, hnext ▸ hg.old, unadded⟩

/-- A removal that is committed leaves nothing. -/
theorem Turn.removed (T : Turn s s' a reply copy (.forget true) rest script) (inv : s.Inv) :
    s'.Gone copy.id := by
  obtain ⟨hpr, hd, hn, hscript⟩ := perform_erase T.perform
  refine ⟨?_, ?_, hn ▸ inv.young a _ T.before, fun b u hu hid hadds => ?_⟩
  · rw [hpr]
    exact AList.lookup_erase _ _
  · rw [hd]
    exact sound_cons.mp (inv.sound a _ T.before)
  · rcases T.task_cases hu with ⟨-, rfl⟩ | ⟨hb, hu⟩ | ⟨-, job, -, rfl⟩
    · exact (T.adds inv.toOrdered hadds).elim
    · exact inv.fresh b a u _ hb hu T.before hadds hid
    · exact not_adds_job job hadds

end Turn

theorem Daemon.Gone.step {id : ProjectId} (hg : s.Gone id) (inv : s.Inv) (hok : Undisturbed s act)
    (h : s.step act = some s') : s'.Gone id := by
  cases act with
  | run a reply =>
    obtain ⟨copy, i, rest, script, T⟩ := Daemon.advance_turn h
    exact T.gone inv hok hg
  | request r =>
    simp only [Daemon.step] at h
    split at h
    · have h := Option.some.inj h
      cases hr : r.task s.toShared with
      | none =>
        rw [hr] at h
        exact h ▸ hg
      | some t =>
        rw [hr] at h
        subst h
        obtain ⟨-, -, hle, hcopy⟩ := request_task hr
        refine ⟨hg.project, hg.file, Nat.lt_of_lt_of_le hg.old hle, fun b u hu hid hadds => ?_⟩
        cases b with
        | dispatcher =>
          obtain rfl := Option.some.inj hu
          -- a new project has a number that was never used
          rcases hcopy with ⟨-, -, hno⟩ | ⟨hnew, -⟩
          · exact hno hadds
          · exact hg.old.ne (hid.symm.trans hnew)
        | worker j => exact hg.unadded (.worker j) u hu hid hadds
    · simp at h
  | cancelJob i =>
    obtain rfl := Option.some.inj h
    refine ⟨hg.project, hg.file, hg.old, fun b u hu => ?_⟩
    rw [cancelJob_task] at hu
    exact hg.unadded b u hu
  | sessionEnds j =>
    obtain rfl := Option.some.inj h
    refine ⟨hg.project, hg.file, hg.old, fun b u hu => hg.unadded b u ?_⟩
    cases b <;> exact hu
  | applyPresence flags =>
    simp only [Daemon.step] at h
    split at h
    · obtain rfl := Option.some.inj h
      refine ⟨applyPresence_none hg.project, hg.file, hg.old, fun b u hu => hg.unadded b u ?_⟩
      cases b <;> exact hu
    · simp at h

/-- What a step removes is gone after it. -/
theorem removed_gone {id : ProjectId} (inv : s.Inv) (h : s.step act = some s')
    (hm : Commit.remove id ∈ s.commits act) : s'.Gone id := by
  cases act with
  | run a reply =>
    obtain ⟨copy, i, rest, script, T⟩ := Daemon.advance_turn h
    simp only [Daemon.commits, T.before] at hm
    split at hm
    · rename_i c _ _ _
      cases c <;> simp [Change.commit] at hm
    · rename_i heq
      obtain ⟨rfl, hcons⟩ := Task.mk.inj (Option.some.inj heq)
      obtain ⟨rfl, -⟩ := List.cons.inj hcons
      obtain rfl : id = copy.id := by simpa using hm
      exact T.removed inv
    · simp at hm
  | applyPresence flags => simp [Daemon.commits] at hm
  | _ => simp [Daemon.commits] at hm

/-! ## Runs -/

/-- **The records are serialisable in every run that disturbs no write.** At
every point they are what the committed changes make, one after another, of
the records at the start; a project whose removal was committed is gone from
memory and disk; and the file of a record nothing is writing shows its name
and sandbox. -/
theorem serial_run {acts : List Action} (hstart : s.Start)
    (hrun : Runs.exec Daemon.step s acts = some s')
    (hok : Runs.Guarded Daemon.step Undisturbed s acts) :
    s'.projects =
        (Runs.trace Daemon.step Daemon.commits s acts).foldl Commit.apply s.projects ∧
      (∀ id, Commit.remove id ∈ Runs.trace Daemon.step Daemon.commits s acts →
        s'.projects.lookup id = none ∧ s'.disk.files.lookup id = none) ∧
      ∀ id f p, s'.Quiet id → s'.disk.files.lookup id = some f →
        s'.projects.lookup id = some p → Mirrors f p := by
  let trace := Runs.trace Daemon.step Daemon.commits s
  suffices h : s'.projects = (trace acts).foldl Commit.apply s.projects ∧ s'.Inv ∧
      ∀ id, Commit.remove id ∈ trace acts → s'.Gone id from
    ⟨h.1, fun id hm => ⟨(h.2.2 id hm).project, (h.2.2 id hm).file⟩, h.2.1.mirrored⟩
  refine Runs.exec_induction (I := fun acts s' =>
    s'.projects = (trace acts).foldl Commit.apply s.projects ∧ s'.Inv ∧
      ∀ id, Commit.remove id ∈ trace acts → s'.Gone id) hrun hok
    ⟨rfl, hstart.inv, by simp [trace, Runs.trace]⟩ ?_
  rintro acts m act s' hm ⟨hproj, inv, hgone⟩ hact hstep
  have htrace : trace (acts ++ [act]) = trace acts ++ m.commits act := Runs.trace_snoc hm
  rw [htrace, List.foldl_append, ← hproj]
  refine ⟨step_commits inv hstep, inv.step hact hstep, fun id hid => ?_⟩
  rcases List.mem_append.mp hid with hid | hid
  · exact (hgone id hid).step inv hact hstep
  · exact removed_gone inv hstep hid

/-! ## A stale copy -/

/-- A project that was added and cloned. -/
def clonedProject : Project where
  id := 1
  name := "willie"
  slug := "willie"
  source := "C:\\src\\willie"
  workspace := "/home/willie/projects/willie"
  branch := "main"
  state := .ready
  sourcePresent := true
  createdAt := "t"
  sandbox := {}
  sandboxProblem := none

/-- A daemon that has read the file of one project. -/
def loadedDaemon : Daemon where
  projects := .singleton 1 clonedProject
  disk := ⟨.singleton 1 ⟨clonedProject, some {}⟩, ∅⟩
  busy := []
  live := []
  running := 0
  nextId := 2
  dispatcher := none
  workers := []

theorem of_lookup_singleton {β : Type} {i k : ProjectId} {v w : β}
    (h : (AList.singleton (β := fun _ => β) k v).lookup i = some w) : i = k ∧ v = w := by
  have hm : (⟨i, w⟩ : Sigma fun _ : ProjectId => β) ∈ [⟨k, v⟩] := AList.mem_lookup_iff.mp h
  obtain ⟨hi, hw⟩ := Sigma.mk.inj (List.mem_singleton.mp hm)
  exact ⟨hi, (eq_of_heq hw).symm⟩

theorem loadedDaemon_start : loadedDaemon.Start where
  dispatcher := rfl
  workers := rfl
  known id p h := by
    obtain ⟨rfl, rfl⟩ := of_lookup_singleton h
    exact ⟨rfl, by decide⟩
  filed id f h := by
    obtain ⟨rfl, rfl⟩ := of_lookup_singleton h
    decide
  mirrored id f p hf hp := by
    obtain ⟨rfl, rfl⟩ := of_lookup_singleton hp
    obtain ⟨-, rfl⟩ := of_lookup_singleton hf
    exact ⟨rfl, fun _ => rfl⟩

/-- A sync is under way while the project is renamed; then the checkout is
relocated, and then the project is removed. Each job runs to its end. -/
def renameRun : List Action :=
  let dispatcher := Action.run .dispatcher .ok
  let worker k := Action.run (.worker k) .ok
  [.request (.syncToWindows 1), dispatcher] ++ List.replicate 3 (worker 0) ++
    .request (.rename 1 "w") :: [dispatcher, worker 0, dispatcher, worker 0, dispatcher] ++
    List.replicate 6 (worker 0) ++
    [.request (.relocate 1 "D:\\w" true), dispatcher] ++ List.replicate 12 (worker 1) ++
    [.request (.remove 1 false false), dispatcher, dispatcher] ++ List.replicate 9 (worker 2)

/-- The rename is kept through the sync, and the project that was relocated
is removed for good. -/
theorem serial_run_rename : ∃ s', Runs.exec Daemon.step loadedDaemon renameRun = some s' ∧
    Runs.trace Daemon.step Daemon.commits loadedDaemon renameRun =
      [.edit 1 (.name "w"), .edit 1 (.relocated "D:\\w"), .remove 1] ∧
    s'.projects = (Runs.trace Daemon.step Daemon.commits loadedDaemon renameRun).foldl
      Commit.apply loadedDaemon.projects ∧
    s'.projects.lookup 1 = none ∧ s'.disk.files.lookup 1 = none := by
  have hsome : (Runs.exec Daemon.step loadedDaemon renameRun).isSome := by decide
  have hok : Runs.Guarded Daemon.step Undisturbed loadedDaemon renameRun := by decide
  have htrace : Runs.trace Daemon.step Daemon.commits loadedDaemon renameRun =
      [.edit 1 (.name "w"), .edit 1 (.relocated "D:\\w"), .remove 1] := by decide
  obtain ⟨s', hs'⟩ := Option.isSome_iff_exists.mp hsome
  obtain ⟨hproj, hgone, -⟩ := serial_run loadedDaemon_start hs' hok
  exact ⟨s', hs', htrace, hproj, hgone 1 (by simp [htrace])⟩

/-- A sandbox without ssh. -/
def noSsh : SandboxProfile := { ssh := some false }

/-- A sync is submitted and starts; the sandbox is set, and saved; the job is
cancelled, and notices. -/
def staleRun : List Action :=
  let dispatcher := Action.run .dispatcher .ok
  let worker := Action.run (.worker 0) .ok
  [.request (.syncToWindows 1), dispatcher, worker, worker,
    .request (.setSandbox 1 noSsh true), dispatcher, dispatcher, dispatcher,
    .cancelJob 0, worker, worker, worker, worker]

/-- **A cancelled job undoes an edit that was returned**: it writes back the
record it was submitted with, and ssh is open again. -/
theorem stale_write_back :
    ∃ s', Runs.exec Daemon.step loadedDaemon staleRun = some s' ∧
      s'.projects ≠ (Runs.trace Daemon.step Daemon.commits loadedDaemon staleRun).foldl
        Commit.apply loadedDaemon.projects ∧
      (s'.projects.lookup 1).map (·.sandbox) = some {} := by
  have hrun : (Runs.exec Daemon.step loadedDaemon staleRun).map
      (fun s => (s.projects.lookup 1).map (·.sandbox)) = some (some {}) := by decide
  have hserial : (((Runs.trace Daemon.step Daemon.commits loadedDaemon staleRun).foldl
      Commit.apply loadedDaemon.projects).lookup 1).map (·.sandbox) = some noSsh := by
    decide
  obtain ⟨s', hs', hsb⟩ := Option.map_eq_some_iff.mp hrun
  refine ⟨s', hs', fun h => ?_, hsb⟩
  rw [h, hserial] at hsb
  exact absurd hsb (by decide)

end Projects
end Willie
