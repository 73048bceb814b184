import Willie.Common.Runs
import Willie.Projects.Ops

/-!
# Projects — no two of them share a checkout

Adding a project refuses a source that is registered and takes a fresh
slug; nothing but a relocation changes a source, and none changes a slug or
a workspace. A relocation does not ask whether its new path is registered.
So projects stay distinct exactly as long as every relocation that ends
goes to a path no other project has (`distinct_iff`), and two projects
can be made to push into one checkout (`relocate_shares_checkout`).
-/

namespace Willie
namespace Projects

open Paths

variable {cfg : Config} {m m' m'' : ProjectMap} {d d' : Records}

/-- **Projects are distinct**: no two have the same source key, slug or
workspace. -/
def Distinct (cfg : Config) (m : ProjectMap) : Prop :=
  ∀ i j p q, m.lookup i = some p → m.lookup j = some q → i ≠ j →
    cfg.key p ≠ cfg.key q ∧ p.slug ≠ q.slug ∧ p.workspace ≠ q.workspace

/-- What is true of the record of every id. -/
structure Formed (cfg : Config) (nextId i : ProjectId) (p : Project) : Prop where
  id : p.id = i
  old : i < nextId
  workspace : p.workspace = join cfg.workspacesDir p.slug
  relative : isAbsolute p.slug = false

/-- Every record is the record of its id. -/
def Known (cfg : Config) (d : Records) : Prop :=
  ∀ i p, d.projects.lookup i = some p → Formed cfg d.nextId i p

/-- A relocation that ends goes to a path no other project has. -/
def FreshRelocation (cfg : Config) (d : Records) : Op → Prop
  | .relocate id windowsPath true .done =>
    id ∈ d.projects → (sourceToLinux windowsPath).isSome →
      ∀ j q, d.projects.lookup j = some q → j ≠ id →
        cfg.key q ≠ sourceKey cfg.toLowercase windowsPath
  | _ => True

/-! ## Changes that leave every identity alone -/

/-- Two records of one project, of the same source and place. -/
structure SameIdentity (p q : Project) : Prop where
  id : q.id = p.id
  slug : q.slug = p.slug
  workspace : q.workspace = p.workspace
  source : q.source = p.source

theorem SameIdentity.refl (p : Project) : SameIdentity p p := ⟨rfl, rfl, rfl, rfl⟩

theorem SameIdentity.trans {p q r : Project} (h : SameIdentity p q) (h' : SameIdentity q r) :
    SameIdentity p r :=
  ⟨h'.id.trans h.id, h'.slug.trans h.slug, h'.workspace.trans h.workspace,
    h'.source.trans h.source⟩

theorem SameIdentity.key {p q : Project} (h : SameIdentity p q) : cfg.key q = cfg.key p := by
  rw [Config.key, Config.key, h.source]

/-- Every record was there, and is of the same source and place. -/
def Shrinks (m m' : ProjectMap) : Prop :=
  ∀ i q, m'.lookup i = some q → ∃ p, m.lookup i = some p ∧ SameIdentity p q

theorem Shrinks.refl (m : ProjectMap) : Shrinks m m := fun _ q h => ⟨q, h, .refl q⟩

theorem Shrinks.trans (h : Shrinks m m') (h' : Shrinks m' m'') : Shrinks m m'' := by
  intro i r hr
  obtain ⟨q, hq, hqr⟩ := h' i r hr
  obtain ⟨p, hp, hpq⟩ := h i q hq
  exact ⟨p, hp, hpq.trans hqr⟩

/-- A removal, or an edit that is no relocation. -/
def Commit.Quiet : Commit → Prop
  | .edit _ (.relocated _) => False
  | .edit _ _ => True
  | .remove _ => True
  | _ => False

theorem Edit.sameIdentity {e : Edit} {i : ProjectId} (p : Project)
    (h : (Commit.edit i e).Quiet) : SameIdentity p (e.apply p) := by
  cases e with
  | relocated => exact h.elim
  | _ => exact ⟨rfl, rfl, rfl, rfl⟩

theorem Commit.Quiet.shrinks {c : Commit} (h : c.Quiet) (m : ProjectMap) :
    Shrinks m (c.apply m) := by
  intro i q hq
  cases c with
  | add => exact h.elim
  | presence => exact h.elim
  | remove j =>
    by_cases hij : i = j
    · subst hij
      simp [Commit.apply] at hq
    · rw [Commit.apply, AList.lookup_erase_ne hij] at hq
      exact ⟨q, hq, .refl q⟩
  | edit j e =>
    simp only [Commit.apply] at hq
    split at hq
    · rename_i p hp
      by_cases hij : i = j
      · subst hij
        rw [AList.lookup_insert] at hq
        obtain rfl := Option.some.inj hq
        exact ⟨p, hp, e.sameIdentity p h⟩
      · rw [AList.lookup_insert_ne hij] at hq
        exact ⟨q, hq, .refl q⟩
    · exact ⟨q, hq, .refl q⟩

theorem foldl_shrinks {cs : List Commit} (h : ∀ c ∈ cs, c.Quiet) (m : ProjectMap) :
    Shrinks m (cs.foldl Commit.apply m) := by
  induction cs generalizing m with
  | nil => exact .refl m
  | cons c cs ih =>
    have hc := (h c (List.mem_cons_self ..)).shrinks m
    exact hc.trans (ih (fun c' hc' => h c' (List.mem_cons_of_mem _ hc')) _)

/-- A job that ends otherwise than done only marks its record. -/
theorem JobEnd.quiet {kind : JobKind} {id : ProjectId} {last : List Commit} {jobEnd : JobEnd}
    (h : jobEnd = .done → ∀ c ∈ last, c.Quiet) : ∀ c ∈ jobEnd.commits kind id last, c.Quiet := by
  cases jobEnd with
  | done => exact h rfl
  | stopped => simp [JobEnd.commits]
  | failed e =>
    simp only [JobEnd.commits]
    split <;> simp [addFailed, Commit.Quiet]
  | cancelled => simp [JobEnd.commits, interrupted, Commit.Quiet]

/-! ## What such changes keep -/

theorem Distinct.shrink (h : Distinct cfg m) (hs : Shrinks m m') : Distinct cfg m' := by
  intro i j p' q' hp' hq' hij
  obtain ⟨p, hp, hpp⟩ := hs i p' hp'
  obtain ⟨q, hq, hqq⟩ := hs j q' hq'
  rw [hpp.key, hqq.key, hpp.slug, hqq.slug, hpp.workspace, hqq.workspace]
  exact h i j p q hp hq hij

theorem Formed.same {n n' i : ProjectId} {p q : Project} (h : Formed cfg n i p)
    (hs : SameIdentity p q) (hn : n ≤ n') : Formed cfg n' i q where
  id := hs.id.trans h.id
  old := Nat.lt_of_lt_of_le h.old hn
  workspace := by rw [hs.workspace, hs.slug, h.workspace]
  relative := by rw [hs.slug, h.relative]

theorem Known.shrink {n n' : ProjectId} (h : Known cfg ⟨m, n⟩) (hs : Shrinks m m') (hn : n ≤ n') :
    Known cfg ⟨m', n'⟩ := by
  intro i q hq
  obtain ⟨p, hp, hpq⟩ := hs i q hq
  exact (h i p hp).same hpq hn

/-! ## Adding -/

/-- **What a record that is added has**: the next id, a key no project has
and a slug none has, for its directory. -/
theorem addRecord_spec {id : ProjectId} {now : String} {params : AddParams} {git : Checkout}
    {p : Project} (h : addRecord cfg m id now params git = some (.ok p)) :
    Formed cfg (id + 1) id p ∧
      ∀ j q, m.lookup j = some q → cfg.key p ≠ cfg.key q ∧ p.slug ≠ q.slug := by
  simp only [addRecord] at h
  split at h
  · simp at h
  split at h
  · simp at h
  split at h
  · simp at h
  split at h
  · simp at h
  rename_i hfresh
  split at h
  · simp at h
  obtain ⟨slug, hslug, hp⟩ := Option.map_eq_some_iff.mp h
  split at hp
  · simp at hp
  obtain ⟨hfree, hrel⟩ := slugFor_spec hslug
  obtain rfl := Except.ok.inj hp
  refine ⟨⟨rfl, Nat.lt_succ_self id, rfl, hrel⟩, fun j q hq => ?_⟩
  have hmem : q ∈ values m :=
    List.mem_map.mpr ⟨⟨j, q⟩, AList.mem_lookup_iff.mp hq, rfl⟩
  exact ⟨fun hkey => hfresh ⟨q, hmem, hkey.symm⟩,
    fun hs => hfree (List.mem_map.mpr ⟨q, hmem, hs.symm⟩)⟩

/-- Slugs that differ name workspaces that differ. -/
theorem Formed.workspace_ne {n n' i j : ProjectId} {p q : Project} (hp : Formed cfg n i p)
    (hq : Formed cfg n' j q) (h : p.slug ≠ q.slug) : p.workspace ≠ q.workspace := by
  rw [hp.workspace, hq.workspace]
  exact fun hw => h (join_inj hp.relative hq.relative hw)

section Insert

variable {n i : ProjectId} {p : Project}

theorem Known.insert (h : Known cfg ⟨m, n⟩) (hp : Formed cfg (n + 1) i p) :
    Known cfg ⟨m.insert i p, n + 1⟩ := by
  intro j q hq
  by_cases hij : j = i
  · subst hij
    rw [AList.lookup_insert] at hq
    obtain rfl := Option.some.inj hq
    exact hp
  · rw [AList.lookup_insert_ne hij] at hq
    exact (h j q hq).same (.refl q) (Nat.le_succ n)

/-- **A record put in keeps projects distinct exactly if it differs from
every other.** -/
theorem distinct_insert (h : Distinct cfg m) :
    Distinct cfg (m.insert i p) ↔ ∀ j q, m.lookup j = some q → j ≠ i →
      cfg.key p ≠ cfg.key q ∧ p.slug ≠ q.slug ∧ p.workspace ≠ q.workspace := by
  constructor
  · intro hd j q hq hij
    exact hd i j p q (AList.lookup_insert m) (by rwa [AList.lookup_insert_ne hij]) hij.symm
  · intro hnew j k q r hq hr hjk
    by_cases hj : j = i <;> by_cases hk : k = i
    · exact absurd (hj.trans hk.symm) hjk
    · subst hj
      rw [AList.lookup_insert] at hq
      rw [AList.lookup_insert_ne hk] at hr
      obtain rfl := Option.some.inj hq
      exact hnew k r hr hk
    · subst hk
      rw [AList.lookup_insert] at hr
      rw [AList.lookup_insert_ne hj] at hq
      obtain rfl := Option.some.inj hr
      obtain ⟨hkey, hslug, hws⟩ := hnew j q hq hj
      exact ⟨hkey.symm, hslug.symm, hws.symm⟩
    · rw [AList.lookup_insert_ne hj] at hq
      rw [AList.lookup_insert_ne hk] at hr
      exact h j k q r hq hr hjk

end Insert

/-! ## One operation -/

/-- **What an operation can do to the records**: leave every identity
alone, add a fresh record, or point a project at another checkout. -/
theorem complete_cases {op : Op} (h : d.complete cfg op = some d') :
    d'.nextId = d.nextId + 1 ∧
    ((Shrinks d.projects d'.projects ∧ FreshRelocation cfg d op) ∨
    (∃ p now params git, addRecord cfg d.projects d.nextId now params git = some (.ok p) ∧
      Shrinks (d.projects.insert p.id p) d'.projects ∧ FreshRelocation cfg d op) ∨
    ∃ id windowsPath p, op = .relocate id windowsPath true .done ∧
      (sourceToLinux windowsPath).isSome ∧ d.projects.lookup id = some p ∧
      d'.projects = d.projects.insert id ((Edit.relocated windowsPath).apply p)) := by
  obtain ⟨cs, hcs, rfl⟩ := Option.map_eq_some_iff.mp h
  refine ⟨rfl, ?_⟩
  -- every operation but a relocation that is done only marks or removes records
  have quiet : (∀ c ∈ cs, c.Quiet) → Shrinks d.projects (cs.foldl Commit.apply d.projects) :=
    fun hq => foldl_shrinks hq _
  cases op with
  | add params git now jobEnd =>
    obtain ⟨r, hr, rfl⟩ := Option.map_eq_some_iff.mp hcs
    cases r with
    | error => exact .inl ⟨quiet (by simp), trivial⟩
    | ok p =>
      refine .inr (.inl ⟨p, now, params, git, hr, ?_, trivial⟩)
      exact foldl_shrinks (JobEnd.quiet fun _ => by simp [Commit.Quiet]) _
  | rename id name saved =>
    refine .inl ⟨quiet ?_, trivial⟩
    obtain rfl := Option.some.inj hcs
    split <;> simp [Commit.Quiet]
  | setSandbox id profile resolved saved =>
    refine .inl ⟨quiet ?_, trivial⟩
    obtain rfl := Option.some.inj hcs
    split <;> simp [Commit.Quiet]
  | syncToWindows id jobEnd =>
    refine .inl ⟨quiet ?_, trivial⟩
    obtain rfl := Option.some.inj hcs
    split
    · exact JobEnd.quiet fun _ => by simp
    · simp
  | updateFromWindows id jobEnd =>
    refine .inl ⟨quiet ?_, trivial⟩
    obtain rfl := Option.some.inj hcs
    split
    · exact JobEnd.quiet fun _ => by simp
    · simp
  | remove id liveSessions jobEnd =>
    refine .inl ⟨quiet ?_, trivial⟩
    obtain rfl := Option.some.inj hcs
    split
    · simp
    · exact JobEnd.quiet fun _ => by simp [Commit.Quiet]
  | relocate id windowsPath isRepo jobEnd =>
    obtain rfl := Option.some.inj hcs
    by_cases hdone : jobEnd = .done ∧ isRepo = true ∧ (sourceToLinux windowsPath).isSome
    · obtain ⟨rfl, rfl, hsrc⟩ := hdone
      simp only [hsrc, Bool.and_true, if_true, JobEnd.commits, List.foldl_cons, List.foldl_nil,
        Commit.apply]
      cases hp : d.projects.lookup id with
      | none =>
        refine .inl ⟨.refl _, fun hmem => ?_⟩
        exact absurd hmem (AList.lookup_eq_none.mp hp)
      | some p => exact .inr (.inr ⟨id, windowsPath, p, rfl, hsrc, hp, rfl⟩)
    · refine .inl ⟨quiet ?_, ?_⟩
      · split
        · rename_i hok
          rw [Bool.and_eq_true] at hok
          exact JobEnd.quiet fun he => absurd ⟨he, hok.2, hok.1⟩ hdone
        · simp
      · cases isRepo <;> cases jobEnd <;> try trivial
        exact fun _ hsrc => absurd ⟨rfl, rfl, hsrc⟩ hdone

theorem Known.complete {op : Op} (hk : Known cfg d) (h : d.complete cfg op = some d') :
    Known cfg d' := by
  obtain ⟨hn, ⟨hs, -⟩ | ⟨p, now, params, git, hp, hs, -⟩ | ⟨id, path, p, -, -, hp, hm⟩⟩ :=
    complete_cases h
  · rw [show d' = ⟨d'.projects, d.nextId + 1⟩ by rw [← hn]]
    exact Known.shrink hk hs (Nat.le_succ _)
  · obtain ⟨hformed, -⟩ := addRecord_spec hp
    rw [show d' = ⟨d'.projects, d.nextId + 1⟩ by rw [← hn]]
    exact (Known.insert hk (hformed.id ▸ hformed)).shrink hs le_rfl
  · rw [show d' = ⟨d'.projects, d.nextId + 1⟩ by rw [← hn], hm]
    have hf := hk id p hp
    exact Known.insert hk ⟨hf.id, Nat.lt_succ_of_lt hf.old, hf.workspace, hf.relative⟩

/-- **An operation keeps projects distinct exactly if it is no relocation
onto another's checkout.** -/
theorem Distinct.complete_iff {op : Op} (hk : Known cfg d) (hd : Distinct cfg d.projects)
    (h : d.complete cfg op = some d') : FreshRelocation cfg d op ↔ Distinct cfg d'.projects := by
  obtain ⟨-, ⟨hs, hok⟩ | ⟨p, now, params, git, hp, hs, hok⟩ | ⟨id, path, p, rfl, hsrc, hp, hm⟩⟩ :=
    complete_cases h
  · exact iff_of_true hok (hd.shrink hs)
  · obtain ⟨hformed, hnew⟩ := addRecord_spec hp
    refine iff_of_true hok (Distinct.shrink ?_ hs)
    refine (distinct_insert hd).mpr fun j q hq _ => ?_
    obtain ⟨hkey, hslug⟩ := hnew j q hq
    exact ⟨hkey, hslug, hformed.workspace_ne (hk j q hq) hslug⟩
  · have hmem : id ∈ d.projects := by
      rw [← AList.lookup_isSome, hp]
      rfl
    rw [hm, distinct_insert hd]
    constructor
    · intro hfresh j q hq hij
      obtain ⟨-, hslug, hws⟩ := hd id j p q hp hq hij.symm
      exact ⟨(hfresh hmem hsrc j q hq hij).symm, hslug, hws⟩
    · intro hall _ _ j q hq hij
      exact (hall j q hq hij).1.symm

/-! ## Runs -/

/-- **Projects stay distinct exactly as long as every relocation that ends
goes to a path no other project has.** -/
theorem distinct_iff (cfg : Config) (ops : List Op) :
    Runs.Always (Records.complete cfg) (fun d => Distinct cfg d.projects) ⟨∅, 0⟩ ops ↔
      Runs.Guarded (Records.complete cfg) (FreshRelocation cfg) ⟨∅, 0⟩ ops := by
  have hempty {i : ProjectId} {p : Project} : (∅ : ProjectMap).lookup i ≠ some p := by
    rw [AList.lookup_empty]
    simp
  refine Runs.always_iff_guarded (B := Known cfg) (fun i p hp => absurd hp hempty)
    (fun i j p q hp => absurd hp hempty) (fun d op d' hk hs => hk.complete hs) ?_
  intro d op hk hd
  constructor
  · exact fun hok d' hs => (hd.complete_iff hk hs).mp hok
  · intro hall
    cases hs : d.complete cfg op with
    | some d' => exact (hd.complete_iff hk hs).mpr (hall d' hs)
    | none =>
      -- only an addition can fail to end
      cases op with
      | add => trivial
      | _ => simp [Records.complete, Op.commits] at hs

/-! ## Two projects on one checkout -/

/-- A daemon whose text library is asked about ASCII paths only. -/
def asciiConfig : Config where
  workspacesDir := "/root/workspaces"
  toLowercase := fun s => String.ofList (s.toList.map Char.toLower)

/-- Two checkouts are added, and the second project is relocated to the
first's. -/
def relocateOnto : List Op :=
  let git : Checkout := ⟨true, true, .ok "main", false⟩
  [.add ⟨"C:\\a", none⟩ git "t" .done, .add ⟨"C:\\b", none⟩ git "t" .done,
    .relocate 1 "C:\\a" true .done]

/-- The keys of two projects after a run. -/
def keysAfter (cfg : Config) (ops : List Op) (i j : ProjectId) : Option (String × String) := do
  let d ← Runs.exec (Records.complete cfg) ⟨∅, 0⟩ ops
  let p ← d.projects.lookup i
  let q ← d.projects.lookup j
  return (cfg.key p, cfg.key q)

/-- **A relocation can put two projects on one checkout**, whose pushes
then overwrite each other. -/
theorem relocate_shares_checkout :
    ∃ d, Runs.exec (Records.complete asciiConfig) ⟨∅, 0⟩ relocateOnto = some d ∧
      ¬ Distinct asciiConfig d.projects := by
  have hkeys : keysAfter asciiConfig relocateOnto 0 1 = some ("c:/a", "c:/a") := by
    decide
  simp only [keysAfter, bind, Option.bind_eq_some_iff, pure, Option.some.injEq,
    Prod.mk.injEq] at hkeys
  obtain ⟨d, hrun, p, hp, q, hq, hkp, hkq⟩ := hkeys
  exact ⟨d, hrun, fun h => (h 0 1 p q hp hq (by decide)).1 (hkp.trans hkq.symm)⟩

end Projects
end Willie
