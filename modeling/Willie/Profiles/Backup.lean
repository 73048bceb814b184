import Willie.Profiles.Containment

/-!
# Profiles — what an apply saves

An apply plans, then backs up, then writes, and any step of it may fail.
A file system (`Disk`) is what can be said of the machine's files when
nobody else writes: a path leads to a file, links followed, and only a
write at a path that leads there changes it. On one, a backup into a new
directory comes before every write, and a file the writes destroy is in
it. Nothing makes the directory new but the clock: an apply whose clock
names an old backup writes over it.
-/

namespace Willie
namespace Profiles

open Paths Json Traced

variable {μ β F : Type} {E : Outside μ β} {w w' : μ} {t : List Access}

/-- **A file system under the machine**, its files named by `F`. A path leads
to one file for good, there or not: an apply creates directories and plain
files, never a link. A step that fails may have done anything to the file
it was writing. -/
structure Disk (E : Outside μ β) (F : Type) where
  leads : Path → F
  holds : μ → F → Option β
  read_ok : ∀ {w p b}, E.read w p = .ok b → holds w (leads p) = some b
  read_missing : ∀ {w p e}, E.read w p = .error e → e.kind = .notFound → holds w (leads p) = none
  write_ok : ∀ {w p b}, (E.write w p b).1 = .ok () →
    holds (E.write w p b).2 (leads p) = some b
  write_else : ∀ {w p b f}, f ≠ leads p → holds (E.write w p b).2 f = holds w f
  createDirAll_holds : ∀ {w p f}, holds (E.createDirAll w p).2 f = holds w f
  copyMode_holds : ∀ {w p q f}, holds (E.copyMode w p q) f = holds w f

/-- Every file outside `S` is as it was. -/
def Disk.Keeps (D : Disk E F) (S : F → Prop) (w w' : μ) : Prop :=
  ∀ f, ¬ S f → D.holds w' f = D.holds w f

instance (D : Disk E F) (S : F → Prop) : IsPreorder μ (D.Keeps S) where
  refl _ _ _ := rfl
  trans _ _ _ h h' f hf := (h' f hf).trans (h f hf)

/-- Where a change may go. -/
def Destination (frs : Fragments) (harness : Option Path) (q : Path) : Prop :=
  PlannedPath frs q ∨ q ∈ harness

/-- The copy of what stood at a change's path. -/
def copyPath (root q : Path) : Path := join root (backupRelativePath q)

/-- **A backup directory that is new**, to the changes that may come: nothing
is at their copies, no destination leads there, and two names are two files. -/
structure Disk.New (D : Disk E F) (w : μ) (ws root : Path) (Q : Path → Prop) : Prop where
  empty : ∀ q, Q q → D.holds w (D.leads (copyPath root q)) = none
  apart : ∀ q r, Q q → Q r → D.leads (copyPath root q) ≠ D.leads (resolveDest ws r)
  distinct : ∀ q r, Q q → Q r → D.leads (copyPath root q) = D.leads (copyPath root r) →
    backupRelativePath q = backupRelativePath r

/-- **Nothing was lost**: a file that held bytes holds them still, or it is a
change's destination and they are at the change's copy. -/
def Disk.Kept (D : Disk E F) (w w' : μ) (ws root : Path) (Q : Path → Prop) : Prop :=
  ∀ f b, D.holds w f = some b → D.holds w' f = some b ∨
    ∃ q, Q q ∧ D.leads (resolveDest ws q) = f ∧ D.holds w' (D.leads (copyPath root q)) = some b

/-- An apply up to its plan. -/
def planTarget (E : Outside μ β) (store : Path) (p : TargetParams) :
    Call μ (Path × List Change) := do
  let dir ← existingProfileDir E store p.name
  let profile ← readProfileToml E dir
  let changes ← planProjectChanges E dir profile p.workspace p.harnessSettings
  pure (dir, changes)

/-- An apply up to its first write: the plan made and its files saved. -/
def saveTarget (E : Outside μ β) (store : Path) (p : TargetParams) :
    Call μ (Path × List Change × Path) := do
  let (dir, changes) ← planTarget E store p
  let backupPath ← backupChanges E p.workspace changes
  pure (dir, changes, backupPath)

/-! ## Planning, however it ends -/

/-- Looking at a file. -/
def Access.Looks (a : Access) : Prop := (∃ p, a = .fragment p) ∨ ∃ p, a = .existing p

theorem readRequired_stays {p : Path} : (readRequired E p).Stays Eq Access.Looks := by
  refine stays_bind (stays_tell (.inl ⟨p, rfl⟩)) fun _ => stays_bind stays_ask fun r => ?_
  cases r with
  | ok s => exact stays_pure
  | error e => exact iteInduction (fun _ => stays_pure) fun _ => stays_throw

theorem readOptional_stays {p : Path} : (readOptional E p).Stays Eq Access.Looks := by
  refine stays_bind (stays_tell (.inr ⟨p, rfl⟩)) fun _ => stays_bind stays_ask fun r => ?_
  cases r with
  | ok s => exact stays_pure
  | error e => exact iteInduction (fun _ => stays_pure) fun _ => stays_throw

theorem readFragmentPair_stays {dir ws file rel : Path} {active : Bool} :
    (readFragmentPair E dir ws file rel active).Stays Eq Access.Looks := by
  refine iteInduction (fun _ => stays_pure) fun _ => ?_
  exact stays_bind readRequired_stays fun _ => stays_bind readOptional_stays fun _ => stays_pure

theorem readFileFamily_stays {dir ws fam : Path} {names : List String} {map : FileInputs} :
    (readFileFamily E dir ws fam map names).Stays Eq Access.Looks := by
  induction names generalizing map with
  | nil => exact stays_pure
  | cons name names ih =>
    exact stays_bind readRequired_stays fun _ => stays_bind readOptional_stays fun _ => ih

theorem planHarnessSettingsChange_stays {profile : Profile}
    {settings mcp : Option FragmentContent} {hp : Path} :
    (planHarnessSettingsChange E profile settings mcp hp).Stays Eq Access.Looks :=
  stays_bind readOptional_stays fun _ => stays_bind stays_settle fun _ => stays_pure

/-- **Planning only looks**, also when it fails. -/
theorem planProjectChanges_stays {dir ws : Path} {profile : Profile} {harness : Option Path} :
    (planProjectChanges E dir profile ws harness).Stays Eq Access.Looks := by
  refine stays_bind stays_ask fun there => ?_
  refine iteInduction (fun _ => stays_bind stays_throw fun _ => ?_) fun _ => ?_
  all_goals
    refine stays_bind readFragmentPair_stays fun settings => ?_
    refine stays_bind readFragmentPair_stays fun mcp => ?_
    refine stays_bind readFragmentPair_stays fun instructions => ?_
    refine stays_bind readFileFamily_stays fun rules => ?_
    refine stays_bind readFileFamily_stays fun hooks => stays_bind stays_settle fun changes => ?_
    cases harness with
    | none => exact stays_pure
    | some hp =>
      refine iteInduction (fun _ => ?_) fun _ => stays_pure
      exact stays_bind planHarnessSettingsChange_stays fun _ => stays_pure

theorem existingProfileDir_stays {store : Path} {name : String} :
    (existingProfileDir E store name).Stays Eq Access.Looks := by
  refine stays_bind stays_settle fun dir => stays_bind stays_ask fun there => ?_
  exact iteInduction (fun _ => stays_pure) fun _ => stays_throw

theorem readProfileToml_stays {dir : Path} : (readProfileToml E dir).Stays Eq Access.Looks :=
  stays_bind (stays_tell (.inl ⟨_, rfl⟩)) fun _ => stays_bind stays_ask fun _ => stays_settle

/-! ## What a plan creates -/

/-- The machine finds nothing at a path. -/
def Absent (E : Outside μ β) (w : μ) (p : Path) : Prop :=
  ∃ e, E.read w p = .error e ∧ e.kind = .notFound

theorem readOptional_none {p : Path} (h : (readOptional E p).Ends w t none w') :
    Absent E w p := by
  simp only [readOptional, ends_bind, ends_tell, ends_ask] at h
  obtain ⟨_, _, _, t₂, ⟨rfl, rfl⟩, ⟨r, _, _, t₄, ⟨rfl, rfl, rfl⟩, h, rfl⟩, rfl⟩ := h
  split at h
  · simp at h
  · rename_i e hread
    split at h
    · rename_i hkind
      unfold Outside.readToString at hread
      split at hread
      · split at hread
        · simp at hread
        · obtain rfl := Except.error.inj hread
          simp at hkind
      · obtain rfl := Except.error.inj hread
        exact ⟨_, ‹_›, hkind⟩
    · exact (ends_throw.mp h).elim

theorem readFragmentPair_absent {dir ws file rel : Path} {active : Bool}
    {o : Option FragmentContent} (h : (readFragmentPair E dir ws file rel active).Ends w t o w') :
    ∀ c ∈ o, c.existing = none → Absent E w (join ws rel) := by
  unfold readFragmentPair at h
  split at h
  · obtain ⟨-, rfl, -⟩ := ends_pure.mp h
    simp
  · simp only [ends_bind] at h
    obtain ⟨s, w₁, t₁, _, h₁, ⟨o', w₂, t₂, _, h₂, h₃, rfl⟩, rfl⟩ := h
    obtain ⟨-, rfl⟩ := readRequired_ends h₁
    obtain ⟨-, rfl, -⟩ := ends_pure.mp h₃
    rintro c hc hnone
    obtain rfl := Option.mem_some_iff.mp hc
    obtain rfl : o' = none := hnone
    exact readOptional_none h₂

theorem readFileFamily_absent {dir ws fam : Path} {map map' : FileInputs} {names : List String}
    (h : (readFileFamily E dir ws fam map names).Ends w t map' w') :
    ∀ x ∈ map', x ∈ map ∨
      (x.2.existing = none → Absent E w (join (join (join ws ".claude") fam) x.1)) := by
  induction names generalizing map t w with
  | nil =>
    obtain ⟨-, rfl, -⟩ := ends_pure.mp h
    exact fun x hx => .inl hx
  | cons name names ih =>
    simp only [readFileFamily, ends_bind] at h
    obtain ⟨s, w₁, t₁, _, h₁, ⟨o, w₂, t₂, _, h₂, h₃, rfl⟩, rfl⟩ := h
    obtain ⟨-, rfl⟩ := readRequired_ends h₁
    obtain ⟨-, rfl⟩ := readOptional_ends h₂
    intro x hx
    rcases ih h₃ x hx with hx | hx
    · rcases List.mem_cons.mp hx with rfl | hx
      · refine .inr fun hnone => ?_
        obtain rfl : o = none := hnone
        exact readOptional_none h₂
      · exact .inl hx
    · exact .inr hx

theorem kindOf_eq_create {existing : Option String} {kind : ChangeKind} (hk : kind ≠ .create) :
    kindOf existing kind = .create ↔ existing = none := by
  cases existing <;> simp [kindOf, hk]

/-- An input that comes with a prior content, if it comes at all. -/
def Pristine (o : Option FragmentContent) : Prop := ∃ c ∈ o, c.existing = none

theorem planSettings_create {C : Codec} {frs : Fragments} {targets : Targets} {o : Option Change}
    {c : Change} (h : planSettings C frs targets = .ok o) (hc : c ∈ o) (hk : c.kind = .create) :
    Pristine targets.settings ∨ Pristine targets.mcp := by
  have supplied : ∀ {what : String} {o : Option FragmentContent} {content : FragmentContent},
      required what o = .ok content → o = some content := by
    intro what o content h
    cases o <;> simp_all [required]
  have absent : ∀ existing : Option String,
      existing = (targets.settings.bind (·.existing)).or (targets.mcp.bind (·.existing)) →
      kindOf existing .merge = .create →
      targets.settings.bind (·.existing) = none ∧ targets.mcp.bind (·.existing) = none := by
    intro existing h hkind
    exact Option.or_eq_none_iff.mp (h ▸ (kindOf_eq_create (by simp)).mp hkind)
  unfold planSettings at h
  cases hs : frs.settings <;> cases hm : frs.mcp
  · simp_all
  all_goals
    simp only [hs, hm, Bool.not_true, Bool.not_false, Bool.and_false, Bool.and_true,
      Bool.false_eq_true, if_false, if_true, bind_eq_ok, pure_eq_ok] at h
  · obtain ⟨content, hcontent, _, -, rfl⟩ := h
    obtain rfl := Option.mem_some_iff.mp hc
    have hmcp := (absent _ rfl hk).2
    exact .inr ⟨content, supplied hcontent, by simpa [supplied hcontent] using hmcp⟩
  · obtain ⟨content, hcontent, _, -, rfl⟩ := h
    obtain rfl := Option.mem_some_iff.mp hc
    have hsettings := (absent _ rfl hk).1
    exact .inl ⟨content, supplied hcontent, by simpa [supplied hcontent] using hsettings⟩
  · obtain ⟨content, hcontent, _, -, _, -, _, -, rfl⟩ := h
    obtain rfl := Option.mem_some_iff.mp hc
    have hsettings := (absent _ rfl hk).1
    exact .inl ⟨content, supplied hcontent, by simpa [supplied hcontent] using hsettings⟩

theorem planInstructions_create {targets : Targets} {c : Change}
    (h : planInstructions targets = .ok c) (hk : c.kind = .create) :
    Pristine targets.instructions := by
  simp only [planInstructions, bind_eq_ok] at h
  obtain ⟨content, hcontent, after, -, h⟩ := h
  obtain rfl := pure_eq_ok.mp h
  refine ⟨content, ?_, (kindOf_eq_create (by simp)).mp hk⟩
  cases ho : targets.instructions <;> simp_all [required]

theorem planFiles_create {inputs : FileInputs} {destDir : Path} {names : List String}
    {cs : List Change} {c : Change} (h : planFiles inputs destDir names = .ok cs) (hc : c ∈ cs)
    (hk : c.kind = .create) :
    ∃ x ∈ inputs, x.1 ∈ names ∧ c.path = destDir ++ "/" ++ x.1 ∧ x.2.existing = none := by
  induction names generalizing cs with
  | nil => simp_all [planFiles]
  | cons name names ih =>
    simp only [planFiles, bind_eq_ok] at h
    obtain ⟨content, hcontent, rest, hrest, h⟩ := h
    obtain rfl := pure_eq_ok.mp h
    rcases List.mem_cons.mp hc with rfl | hc
    · have hlookup : inputs.lookup name = some content := by
        cases ho : inputs.lookup name <;> simp_all [required]
      obtain ⟨l₁, l₂, hinputs, -⟩ := List.lookup_eq_some_iff.mp hlookup
      refine ⟨(name, content), by simp [hinputs], by simp, rfl, ?_⟩
      exact (kindOf_eq_create (by simp)).mp hk
    · obtain ⟨x, hx, hname, hpath, hnone⟩ := ih hrest hc
      exact ⟨x, hx, List.mem_cons_of_mem _ hname, hpath, hnone⟩

/-- To a relative path a join puts the same text in front whatever it is. -/
theorem join_relative (a : Path) : ∃ x, ∀ p, isAbsolute p = false → join a p = x ++ p := by
  by_cases ha : a.toList = [] ∨ a.toList.getLast? = some '/'
  · exact ⟨a, fun p hp => by rw [join, if_neg (by simp [hp]), if_pos ha]⟩
  · exact ⟨a ++ "/", fun p hp => by rw [join, if_neg (by simp [hp]), if_neg ha]⟩

/-- Two steps down are one. -/
theorem join_join {a b c : Path} (hb : isAbsolute b = false) (hc : isAbsolute c = false)
    (hne : b ≠ "") (hend : b.toList.getLast? ≠ some '/') :
    join (join a b) c = join a (b ++ "/" ++ c) := by
  have hbne : b.toList ≠ [] := fun h => hne (String.toList_inj.mp h)
  have hrel : isAbsolute (b ++ "/" ++ c) = false := by
    simpa [isAbsolute, List.head?_append_of_ne_nil _ hbne] using hb
  have below : ∀ x : String, join (x ++ b) c = x ++ b ++ "/" ++ c := by
    intro x
    rw [join, if_neg (by simp [hc]), if_neg]
    rw [String.toList_append, List.getLast?_append_of_ne_nil _ hbne]
    simp [hbne, hend]
  obtain ⟨x, hx⟩ := join_relative a
  rw [hx b hb, below, hx _ hrel]
  simp [String.append_assoc]

/-- A family's file is looked for where its change will write it. -/
theorem join_family {ws : Path} {fam : Family} {f : String} (hf : isAbsolute f = false) :
    join (join (join ws ".claude") fam.dir) f = resolveDest ws (fam.dest f) := by
  have hdir : join (join ws ".claude") fam.dir = join ws fam.destDir := by
    rw [join_join (by decide) fam.dir_plain.relative (by decide) (by decide)]
    cases fam <;> rfl
  have hend : fam.destDir.toList.getLast? ≠ some '/' := by cases fam <;> decide
  rw [hdir, join_join (by cases fam <;> decide) hf (by cases fam <;> decide) hend,
    resolveDest, if_neg (by simp [fam.dest_relative]), Family.dest]

/-- The inputs of a family. -/
def Targets.files (targets : Targets) : Family → FileInputs
  | .rules => targets.rules
  | .hooks => targets.hooks

theorem planChanges_create {C : Codec} {profile : Profile} {targets : Targets}
    {cs : List Change} {c : Change} (h : planChanges C profile targets = .ok cs) (hc : c ∈ cs)
    (hk : c.kind = .create) :
    (c.path = ".claude/settings.json" ∧ (Pristine targets.settings ∨ Pristine targets.mcp)) ∨
    (c.path = "CLAUDE.md" ∧ Pristine targets.instructions) ∨
    ∃ fam, ∃ x ∈ targets.files fam, x.1 ∈ profile.fragments.files fam ∧ c.path = fam.dest x.1 ∧
      x.2.existing = none := by
  simp only [planChanges, bind_eq_ok] at h
  obtain ⟨settings, hs, instructions, hi, rules, hr, hooks, hh, h⟩ := h
  obtain rfl := pure_eq_ok.mp h
  simp only [List.mem_append, Option.mem_toList] at hc
  rcases hc with ((hc | hc) | hc) | hc
  · exact .inl ⟨planSettings_path hs hc, planSettings_create hs hc hk⟩
  · refine .inr (.inl ?_)
    unfold whenActive at hi
    split at hi
    · obtain ⟨d, hd, rfl⟩ := map_eq_ok.mp hi
      obtain rfl := Option.mem_some_iff.mp hc
      exact ⟨planInstructions_path hd, planInstructions_create hd hk⟩
    · simp_all
  · exact .inr (.inr ⟨.rules, planFiles_create hr hc hk⟩)
  · exact .inr (.inr ⟨.hooks, planFiles_create hh hc hk⟩)

theorem planHarnessSettingsChange_absent {profile : Profile}
    {settings mcp : Option FragmentContent} {hp : Path} {o : Option Change}
    (h : (planHarnessSettingsChange E profile settings mcp hp).Ends w t o w') :
    ∀ c ∈ o, c.kind = .create → Absent E w hp := by
  simp only [planHarnessSettingsChange, ends_bind] at h
  obtain ⟨existing, w₁, t₁, _, h₁, ⟨cs, w₂, t₂, _, h₂, h₃, rfl⟩, rfl⟩ := h
  obtain ⟨-, hplan, -⟩ := ends_settle.mp h₂
  obtain ⟨-, rfl, -⟩ := ends_pure.mp h₃
  intro c hc hk
  obtain ⟨d, hd, rfl⟩ := Option.map_eq_some_iff.mp hc
  have hmem : d ∈ cs := List.mem_of_getLast? hd
  -- both inputs of the second merge carry what the harness path held
  have hnone : existing = none := by
    rcases planChanges_create (mapError_eq_ok.mp hplan) hmem hk with
      ⟨-, h | h⟩ | ⟨-, h⟩ | ⟨fam, x, hx, hname, -⟩
    · obtain ⟨content, hcontent, hnone⟩ := h
      obtain ⟨_, -, rfl⟩ := Option.map_eq_some_iff.mp hcontent
      exact hnone
    · obtain ⟨content, hcontent, hnone⟩ := h
      obtain ⟨_, -, rfl⟩ := Option.map_eq_some_iff.mp hcontent
      exact hnone
    · simp [Pristine] at h
    · cases fam <;> simp [Fragments.files] at hname
  subst hnone
  exact readOptional_none h₁

/-- **A change creates only what is not there.** -/
theorem planProjectChanges_create {dir ws : Path} {profile : Profile} {harness : Option Path}
    {cs : List Change} {c : Change}
    (h : (planProjectChanges E dir profile ws harness).Ends w t cs w')
    (hnames : ∀ fam, ∀ f ∈ profile.fragments.files fam, isSafeFileName f = true)
    (hharness : ∀ h ∈ harness, isAbsolute h = true) (hc : c ∈ cs) (hk : c.kind = .create) :
    Absent E w (resolveDest ws c.path) := by
  simp only [planProjectChanges, ends_bind, ends_ask] at h
  obtain ⟨_, _, _, _, ⟨rfl, rfl, rfl⟩, h, rfl⟩ := h
  split at h
  · obtain ⟨_, _, _, _, h, -⟩ := ends_bind.mp h
    exact (ends_throw.mp h).elim
  simp only [ends_bind] at h
  obtain ⟨settings, w₁, t₁, _, h₁, ⟨mcp, w₂, t₂, _, h₂, ⟨instructions, w₃, t₃, _, h₃,
    ⟨rules, w₄, t₄, _, h₄, ⟨hooks, w₅, t₅, _, h₅, ⟨planned, w₆, t₆, t₇, h₆, h₇, rfl⟩,
      rfl⟩, rfl⟩, rfl⟩, rfl⟩, rfl⟩ := h
  obtain ⟨-, rfl⟩ := readFragmentPair_ends h₁
  obtain ⟨-, rfl⟩ := readFragmentPair_ends h₂
  obtain ⟨-, rfl⟩ := readFragmentPair_ends h₃
  obtain ⟨-, rfl⟩ := readFileFamily_ends h₄
  obtain ⟨-, rfl⟩ := readFileFamily_ends h₅
  obtain ⟨-, hplan, rfl⟩ := ends_settle.mp h₆
  have hplan := mapError_eq_ok.mp hplan
  -- a change of the plan proper was read where it will be written
  have project : ∀ c ∈ planned, c.kind = .create → Absent E w₅ (resolveDest ws c.path) := by
    intro c hc hk
    have family : ∀ (fam : Family) {map : FileInputs} {t : List Access},
        (readFileFamily E dir ws fam.dir [] (profile.fragments.files fam)).Ends w₅ t map w₅ →
        ∀ x ∈ map, x.1 ∈ profile.fragments.files fam → c.path = fam.dest x.1 →
        x.2.existing = none → Absent E w₅ (resolveDest ws c.path) := by
      intro fam map t h x hx hname hpath hnone
      have habsent := (readFileFamily_absent h x hx).resolve_left (by simp) hnone
      have hrel := (plain_of_isSafeFileName (hnames fam _ hname)).relative
      rwa [join_family hrel, ← hpath] at habsent
    rcases planChanges_create hplan hc hk with
      ⟨hpath, h | h⟩ | ⟨hpath, h⟩ | ⟨fam, x, hx, hname, hpath, hnone⟩
    · obtain ⟨content, hcontent, hnone⟩ := h
      rw [hpath, resolveDest, if_neg (by decide)]
      exact readFragmentPair_absent h₁ content hcontent hnone
    · obtain ⟨content, hcontent, hnone⟩ := h
      rw [hpath, resolveDest, if_neg (by decide)]
      exact readFragmentPair_absent h₂ content hcontent hnone
    · obtain ⟨content, hcontent, hnone⟩ := h
      rw [hpath, resolveDest, if_neg (by decide)]
      exact readFragmentPair_absent h₃ content hcontent hnone
    · cases fam with
      | rules => exact family .rules h₄ x hx hname hpath hnone
      | hooks => exact family .hooks h₅ x hx hname hpath hnone
  split at h₇
  · split at h₇
    · obtain ⟨o, w₁, t₁, t₂, h₈, h₉, rfl⟩ := ends_bind.mp h₇
      obtain ⟨-, rfl, -⟩ := ends_pure.mp h₉
      rcases List.mem_append.mp hc with hc | hc
      · exact project c hc hk
      · have hmem := Option.mem_toList.mp hc
        have hpath := (planHarnessSettingsChange_ends h₈).2.2 c hmem
        rw [hpath, resolveDest, if_pos (hharness _ (by simp))]
        exact planHarnessSettingsChange_absent h₈ c hmem hk
    · obtain ⟨-, rfl, -⟩ := ends_pure.mp h₇
      exact project c hc hk
  · obtain ⟨-, rfl, -⟩ := ends_pure.mp h₇
    exact project c hc hk

/-! ## Backing up and writing, however they end -/

section Phases

variable {D : Disk E F} {S : F → Prop} {P : Access → Prop} {ws root dir : Path} {c : Change}
  {cs : List Change}

theorem createParent_stays {p : Path} : (createParent E p).Stays (D.Keeps S) P := by
  unfold createParent
  split
  · exact stays_act fun w f _ => D.createDirAll_holds
  · exact stays_pure

theorem writeFile_stays {p : Path} {bytes : β} (hS : S (D.leads p)) (hP : P (.write p)) :
    (writeFile E p bytes).Stays (D.Keeps S) P := by
  refine stays_bind (stays_tell hP) fun _ => stays_act fun w f hf => D.write_else ?_
  rintro rfl
  exact hf hS

/-- A turn of the backup can only have changed its copy. -/
theorem backupChange_stays (hS : S (D.leads (copyPath root c.path)))
    (hP : P (.write (copyPath root c.path))) (hsav : ∀ q found, P (.saving q found)) :
    (backupChange E ws root c).Stays (D.Keeps S) P := by
  refine iteInduction (fun _ => stays_pure) fun _ => stays_bind createParent_stays fun _ => ?_
  refine stays_bind stays_ask fun r => ?_
  cases r with
  | ok bytes => exact stays_bind (stays_tell (hsav _ _)) fun _ => writeFile_stays hS hP
  | error e =>
    refine stays_bind (stays_tell (hsav _ _)) fun _ => ?_
    exact iteInduction (fun _ => stays_pure) fun _ => stays_throw

/-- A turn of the writes can only have changed its destination. -/
theorem writeChange_stays (hS : S (D.leads (resolveDest ws c.path)))
    (hP : P (.write (resolveDest ws c.path))) :
    (writeChange E dir ws c).Stays (D.Keeps S) P := by
  refine stays_bind createParent_stays fun _ => stays_bind (writeFile_stays hS hP) fun _ => ?_
  split
  · exact stays_act fun w f _ => D.copyMode_holds
  · exact stays_pure

/-- The copies of a list of changes. -/
def Disk.Copies (D : Disk E F) (root : Path) (cs : List Change) (f : F) : Prop :=
  ∃ c ∈ cs, f = D.leads (copyPath root c.path)

/-- Their destinations. -/
def Disk.Destinations (D : Disk E F) (ws : Path) (cs : List Change) (f : F) : Prop :=
  ∃ c ∈ cs, f = D.leads (resolveDest ws c.path)

/-- Backing up looks at files and writes copies. -/
def Saves (root : Path) (cs : List Change) (a : Access) : Prop :=
  (∃ q found, a = .saving q found) ∨ ∃ c ∈ cs, a = .write (copyPath root c.path)

theorem backupLoop_stays :
    (forM cs (backupChange E ws root) : Call μ PUnit).Stays (D.Keeps (D.Copies root cs))
      (Saves root cs) :=
  stays_forM fun c hc =>
    backupChange_stays ⟨c, hc, rfl⟩ (.inr ⟨c, hc, rfl⟩) fun q found => .inl ⟨q, found, rfl⟩

theorem writeChanges_stays :
    (writeChanges E dir ws cs).Stays (D.Keeps (D.Destinations ws cs)) fun _ => True :=
  stays_forM fun c hc => writeChange_stays ⟨c, hc, rfl⟩ trivial

/-- **A backup that succeeds has the bytes.** -/
theorem backupChange_saves {b : β} {u : Unit} (h : (backupChange E ws root c).Ends w t u w')
    (hk : c.kind ≠ .create) (hb : D.holds w (D.leads (resolveDest ws c.path)) = some b) :
    D.holds w' (D.leads (copyPath root c.path)) = some b := by
  unfold backupChange at h
  rw [if_neg hk] at h
  simp only [ends_bind, ends_ask] at h
  obtain ⟨_, w₁, _, _, h₁, ⟨r, _, _, _, ⟨rfl, rfl, rfl⟩, h₂, rfl⟩, rfl⟩ := h
  have hb₁ : D.holds w₁ (D.leads (resolveDest ws c.path)) = some b := by
    have hkeep : D.Keeps (fun _ => False) w w₁ :=
      (createParent_stays (P := fun _ => True).of_run h₁).1
    exact (hkeep _ id).trans hb
  split at h₂
  · rename_i bytes hread
    obtain rfl : bytes = b := Option.some.inj ((D.read_ok hread).symm.trans hb₁)
    simp only [writeFile, ends_bind, ends_tell] at h₂
    obtain ⟨_, _, _, _, ⟨rfl, rfl⟩, ⟨_, _, _, _, ⟨rfl, rfl⟩, h₃, rfl⟩, rfl⟩ := h₂
    obtain ⟨-, hwrite⟩ := ends_act.mp h₃
    obtain ⟨hok, rfl⟩ := Prod.ext_iff.mp hwrite
    exact D.write_ok (mapError_eq_ok.mp hok)
  · rename_i e hread
    simp only [ends_bind, ends_tell] at h₂
    obtain ⟨_, _, _, _, ⟨rfl, rfl⟩, h₃, rfl⟩ := h₂
    split at h₃
    · simp [D.read_missing hread ‹_›] at hb₁
    · exact (ends_throw.mp h₃).elim

/-- A copy's name tells the change's path, for changes that may come. -/
theorem backupRelativePath_inj {frs : Fragments} {harness : Option Path} {q r : Path}
    (hharness : ∀ h ∈ harness, isAbsolute h = true) (hq : Destination frs harness q)
    (hr : Destination frs harness r) (h : backupRelativePath q = backupRelativePath r) : q = r := by
  have planned : ∀ {q}, PlannedPath frs q →
      isAbsolute q = false ∧ q ≠ "harness-settings.json" := by
    rintro q (rfl | rfl | ⟨fam, f, -, rfl⟩)
    · decide
    · decide
    · refine ⟨fam.dest_relative f, fun h => ?_⟩
      have hhead := congrArg (fun p : Path => p.toList.head?) h
      cases fam <;> simp [Family.dest, Family.destDir] at hhead
  rcases hq with hq | hq <;> rcases hr with hr | hr
  · rwa [backupRelativePath, if_neg (by simp [(planned hq).1]), backupRelativePath,
      if_neg (by simp [(planned hr).1])] at h
  · rw [backupRelativePath, if_neg (by simp [(planned hq).1]), backupRelativePath,
      if_pos (hharness r hr)] at h
    exact absurd h (planned hq).2
  · rw [backupRelativePath, if_pos (hharness q hq), backupRelativePath,
      if_neg (by simp [(planned hr).1])] at h
    exact absurd h.symm (planned hr).2
  · exact Option.mem_unique hq hr

/-- **After the backup every destination's bytes are at its copy.** -/
theorem backupLoop_saves {Q : Path → Prop} {u : PUnit} {b : β}
    (h : (forM cs (backupChange E ws root) : Call μ PUnit).Ends w t u w')
    (hnew : D.New w ws root Q) (hcs : ∀ c ∈ cs, Q c.path)
    (hinj : ∀ q r, Q q → Q r → backupRelativePath q = backupRelativePath r → q = r)
    (hcreate : ∀ c ∈ cs, c.kind = .create → D.holds w (D.leads (resolveDest ws c.path)) = none)
    (hc : c ∈ cs) (hb : D.holds w (D.leads (resolveDest ws c.path)) = some b) :
    D.holds w' (D.leads (copyPath root c.path)) = some b := by
  -- the destinations stay as they were while the copies are made
  have unchanged : ∀ y ∈ cs, ∀ s, D.Keeps (D.Copies root cs) w s →
      D.holds s (D.leads (resolveDest ws y.path)) =
        D.holds w (D.leads (resolveDest ws y.path)) := by
    intro y hy s hs
    refine hs _ ?_
    rintro ⟨z, hz, hleads⟩
    exact hnew.apart z.path y.path (hcs z hz) (hcs y hy) hleads.symm
  have turn : ∀ y ∈ cs, ∀ s t s', (backupChange E ws root y).Ends s t u s' →
      D.Keeps (D.Copies root cs) w s → D.Keeps (D.Copies root cs) w s' := by
    intro y hy s t s' hy' hs
    have hstay : D.Keeps (D.Copies root cs) s s' :=
      ((backupChange_stays (P := fun _ => True) ⟨y, hy, rfl⟩ trivial
        fun _ _ => trivial).of_run hy').1
    exact IsTrans.trans _ _ _ hs hstay
  have hit : ∀ y ∈ cs, ∀ s t s', (backupChange E ws root y).Ends s t u s' → y.kind ≠ .create →
      D.Keeps (D.Copies root cs) w s → y.path = c.path →
      D.holds s' (D.leads (copyPath root c.path)) = some b := by
    intro y hy s t s' hy' hk hs hpath
    rw [← hpath]
    refine backupChange_saves hy' hk ?_
    rw [unchanged y hy s hs, hpath, hb]
  have hkind : c.kind ≠ .create := fun hk => by simp [hcreate c hc hk] at hb
  refine forM_attains (Q := fun s => D.holds s (D.leads (copyPath root c.path)) = some b)
    h hc turn (fun s t s' hy' hs => hit c hc s t s' hy' hkind hs rfl) ?_
    (refl w)
  intro y hy s t s' hy' hs hsaved
  by_cases hsame : D.leads (copyPath root c.path) = D.leads (copyPath root y.path)
  · -- another change to the same copy is a change of the same file
    have hpath := hinj _ _ (hcs c hc) (hcs y hy)
      (hnew.distinct _ _ (hcs c hc) (hcs y hy) hsame)
    by_cases hk : y.kind = .create
    · simp [hpath, hcreate y hy hk] at hb
    · exact hit y hy s t s' hy' hk hs hpath.symm
  · have hkeep : D.Keeps (· = D.leads (copyPath root y.path)) s s' :=
      ((backupChange_stays (S := (· = D.leads (copyPath root y.path))) (P := fun _ => True) rfl
        trivial fun _ _ => trivial).of_run hy').1
    rw [hkeep _ hsame, hsaved]

end Phases

/-! ## A whole apply -/

section Whole

variable {store : Path} {params : Value} {p : TargetParams} {profile : Profile}

theorem planTarget_stays : (planTarget E store p).Stays Eq Access.Looks :=
  stays_bind existingProfileDir_stays fun _ => stays_bind readProfileToml_stays fun _ =>
    stays_bind planProjectChanges_stays fun _ => stays_pure

/-- What a plan that comes to be is like. -/
theorem planTarget_ends {D : Disk E F} {dir : Path} {cs : List Change}
    (h : (planTarget E store p).Ends w t (dir, cs) w')
    (hprofile : E.profileToml w (join store p.name) = .ok profile)
    (hnames : ∀ fam, ∀ f ∈ profile.fragments.files fam, isSafeFileName f = true)
    (hharness : ∀ h ∈ p.harnessSettings, isAbsolute h = true) :
    (∀ c ∈ cs, Destination profile.fragments p.harnessSettings c.path) ∧
    ∀ c ∈ cs, c.kind = .create → D.holds w (D.leads (resolveDest p.workspace c.path)) = none := by
  simp only [planTarget, ends_bind] at h
  obtain ⟨dir', _, _, _, h₂, ⟨profile', _, _, _, h₃, ⟨cs', _, t₄, _, h₄, h₅, rfl⟩, rfl⟩, rfl⟩ := h
  obtain ⟨rfl, rfl, rfl⟩ := existingProfileDir_ends h₂
  simp only [readProfileToml, ends_bind, ends_tell, ends_ask, ends_settle] at h₃
  obtain ⟨_, _, _, _, ⟨rfl, rfl⟩, ⟨_, _, _, _, ⟨rfl, rfl, rfl⟩, ⟨rfl, hprofile', rfl⟩, rfl⟩, rfl⟩ :=
    h₃
  obtain rfl := Except.ok.inj (hprofile.symm.trans hprofile')
  obtain ⟨-, heq, rfl⟩ := ends_pure.mp h₅
  obtain ⟨rfl, rfl⟩ := Prod.mk.inj heq
  refine ⟨fun c hc => (planProjectChanges_ends h₄).2.paths c hc, fun c hc hk => ?_⟩
  obtain ⟨e, hread, hkind⟩ := planProjectChanges_create h₄ hnames hharness hc hk
  exact D.read_missing hread hkind

/-- An apply is a plan and a backup, then the writes. -/
theorem applyTarget_eq : applyTarget E store p = (do
    let (dir, changes, backupPath) ← saveTarget E store p
    writeChanges E dir p.workspace changes
    pure (.applied changes backupPath)) := by
  simp only [applyTarget, saveTarget, planTarget, bind_assoc, pure_bind]

theorem applyToProject_run (hparams : TargetParams.deserialize params = .ok p) :
    applyToProject E store params w = applyTarget E store p w := by
  have hparse : (parseParams params : Call μ TargetParams).Ends w [] p w :=
    ends_settle.mpr ⟨rfl, mapError_eq_ok.mpr hparams, rfl⟩
  rw [applyToProject, bind_ok hparse, List.nil_append]

/-- The backup of a plan, in a directory the clock names. -/
theorem saveTarget_run {dir : Path} {cs : List Change}
    (h : (planTarget E store p).Ends w t (dir, cs) w) :
    let root := backupRoot p.workspace (backupTimestamp (E.now w))
    let loop : Call μ PUnit := forM cs (backupChange E p.workspace root)
    saveTarget E store p w =
      (t ++ (loop w).1, (loop w).2.1.map fun _ => (dir, cs, root), (loop w).2.2) := by
  intro root loop
  have hroot : (ask E.now : Call μ (Nat × Nat)).Ends w [] (E.now w) w :=
    ends_ask.mpr ⟨rfl, rfl, rfl⟩
  rw [saveTarget, bind_ok h]
  simp only [backupChanges, bind_assoc, pure_bind]
  rw [bind_ok hroot, List.nil_append]
  rcases hloop : loop w with ⟨t', r, w'⟩
  cases r with
  | ok u => rw [bind_ok hloop]; simp [pure, Except.map, root]
  | error e => rw [bind_error hloop]; simp [Except.map]

/-- **An apply destroys nothing it has not saved.** On a file system with no
other writer, every name the grammar's and the backup directory new: however
the apply ends, a file that held bytes holds them still or they are at the
copy of the change that went to it; and if the plan or the backup fails, no
destination was written. -/
theorem apply_keeps_content (D : Disk E F)
    (hparams : TargetParams.deserialize params = .ok p)
    (hprofile : E.profileToml w (join store p.name) = .ok profile)
    (hnames : ∀ fam, ∀ f ∈ profile.fragments.files fam,
      ∃ s, Fragment.parse s = some (.rule f) ∨ Fragment.parse s = some (.hook f))
    (hharness : ∀ h ∈ p.harnessSettings, isAbsolute h = true)
    (hnew : D.New w p.workspace (backupRoot p.workspace (backupTimestamp (E.now w)))
      (Destination profile.fragments p.harnessSettings)) :
    let root := backupRoot p.workspace (backupTimestamp (E.now w))
    let run := applyToProject E store params w
    D.Kept w run.2.2 p.workspace root (Destination profile.fragments p.harnessSettings) ∧
    ∀ e, (saveTarget E store p w).2.1 = .error e → run.2.1 = .error e ∧
      ∀ q, Destination profile.fragments p.harnessSettings q →
        .write (resolveDest p.workspace q) ∉ run.1 ∧
        D.holds run.2.2 (D.leads (resolveDest p.workspace q)) =
          D.holds w (D.leads (resolveDest p.workspace q)) := by
  intro root run
  have hsafe : ∀ fam, ∀ f ∈ profile.fragments.files fam, isSafeFileName f = true :=
    fun fam f hf => (hnames fam f hf).elim fun _ h => isSafeFileName_of_parse h
  have hrun : run = applyTarget E store p w := applyToProject_run hparams
  rcases hplan : planTarget E store p w with ⟨t₁, r₁, w₁⟩
  obtain ⟨rfl, hlooks⟩ := planTarget_stays.of_run hplan
  cases r₁ with
  | error e =>
    have hsave : saveTarget E store p w = (t₁, .error e, w) := bind_error hplan
    have hrun : run = (t₁, .error e, w) := by rw [hrun, applyTarget_eq, bind_error hsave]
    rw [hrun, hsave]
    refine ⟨fun f b hb => .inl hb, fun e' he => ?_⟩
    obtain rfl := Except.error.inj he
    refine ⟨rfl, fun q hq => ⟨fun hmem => ?_, rfl⟩⟩
    rcases hlooks _ hmem with ⟨_, h⟩ | ⟨_, h⟩ <;> simp at h
  | ok plan =>
    obtain ⟨dir, cs⟩ := plan
    obtain ⟨hdest, hcreate⟩ := planTarget_ends (D := D) hplan hprofile hsafe hharness
    have hsave := saveTarget_run hplan
    simp only at hsave
    rcases hloop : (forM cs (backupChange E p.workspace root) : Call μ PUnit) w with ⟨t₂, r₂, w₂⟩
    rw [hloop] at hsave
    obtain ⟨hkeep, hsaves⟩ := backupLoop_stays (D := D).of_run hloop
    -- backing up touches nothing that was there, and no destination
    have there : ∀ f b, D.holds w f = some b → D.holds w₂ f = some b := by
      intro f b hb
      rw [← hb]
      refine hkeep f ?_
      rintro ⟨c, hc, rfl⟩
      exact absurd ((hnew.empty c.path (hdest c hc)).symm.trans hb) (by simp)
    have destinations : ∀ q, Destination profile.fragments p.harnessSettings q →
        D.holds w₂ (D.leads (resolveDest p.workspace q)) =
          D.holds w (D.leads (resolveDest p.workspace q)) := by
      intro q hq
      refine hkeep _ ?_
      rintro ⟨c, hc, hleads⟩
      exact hnew.apart c.path q (hdest c hc) hq hleads.symm
    cases r₂ with
    | error e =>
      have hrun : run = (t₁ ++ t₂, .error e, w₂) := by rw [hrun, applyTarget_eq, bind_error hsave]
      rw [hrun, hsave]
      refine ⟨fun f b hb => .inl (there f b hb), fun e' he => ?_⟩
      obtain rfl := Except.error.inj he
      refine ⟨rfl, fun q hq => ⟨fun hmem => ?_, destinations q hq⟩⟩
      rcases List.mem_append.mp hmem with hmem | hmem
      · rcases hlooks _ hmem with ⟨_, h⟩ | ⟨_, h⟩ <;> simp at h
      · rcases hsaves _ hmem with ⟨_, _, h⟩ | ⟨c, hc, h⟩
        · exact absurd h (by simp)
        · have hpath := Access.write.inj h
          exact hnew.apart c.path q (hdest c hc) hq (by rw [hpath])
    | ok u =>
      rw [hsave]
      refine ⟨fun f b hb => ?_, fun e he => by simp [Except.map] at he⟩
      have hwrites : D.Keeps (D.Destinations p.workspace cs) w₂ run.2.2 := by
        rw [hrun, applyTarget_eq, bind_ok hsave]
        exact (stays_bind (P := fun _ => True) writeChanges_stays (fun _ => stays_pure) w₂).1
      by_cases hf : D.Destinations p.workspace cs f
      · obtain ⟨c, hc, rfl⟩ := hf
        refine .inr ⟨c.path, hdest c hc, rfl, ?_⟩
        have hcopy := backupLoop_saves hloop hnew hdest
          (fun q r => backupRelativePath_inj hharness) hcreate hc hb
        rw [← hcopy]
        refine hwrites _ ?_
        rintro ⟨d, hd, hleads⟩
        exact hnew.apart c.path d.path (hdest c hc) (hdest d hd) hleads
      · exact .inl ((hwrites f hf).trans (there f b hb))

end Whole

/-! ## A disk of plain files -/

/-- Without links a path leads to its place. -/
def treeDisk (codec : Codec) : Disk (treeMachine codec) Place where
  leads := place
  holds w q := w.files.lookup q
  read_ok := by
    intro w p b h
    simp only [treeMachine] at h
    split at h <;> simp_all
  read_missing := by
    intro w p e h _
    simp only [treeMachine] at h
    split at h
    · cases h
    · assumption
  write_ok := by
    intro w p b h
    simp only [treeMachine] at h ⊢
    split at h <;> simp_all
  write_else := by
    intro w p b f hf
    simp only [treeMachine]
    split
    · rw [List.lookup_cons, beq_eq_false_iff_ne.mpr hf]
    · rfl
  createDirAll_holds := rfl
  copyMode_holds := rfl

/-- A workspace whose rule `style.md` is already there, and what is kept of
earlier applies. -/
def styleTree (kept : List (Place × String)) : Tree where
  dirs := ancestors (place "/v/plugins/profile/team/rules") ++ ancestors (place "/w/.claude/rules")
  files := [(place "/v/plugins/profile/team/profile.toml", ruleToml "style.md"),
    (place "/v/plugins/profile/team/rules/style.md", "be brief"),
    (place "/w/.claude/rules/style.md", "be kind")] ++ kept
  clock := (7, 5)

def styleFragments : Fragments := { rules := ["style.md"] }

/-- The apply of the profile to it. -/
def styleRun (kept : List (Place × String)) : List Access × Except PluginError Reply × Tree :=
  applyToProject (treeMachine ruleCodec) ruleStore ruleParams (styleTree kept)

/-- The backup directory of that apply, and the one copy in it. -/
def styleRoot (kept : List (Place × String)) : Path :=
  backupRoot "/w" (backupTimestamp ((treeMachine ruleCodec).now (styleTree kept)))

def styleCopy : Path := "/w/.willie-bak/7000000005/.claude/rules/style.md"

def styleDestinations : List Path :=
  [".claude/settings.json", "CLAUDE.md", ".claude/rules/style.md"]

theorem mem_styleDestinations {q : Path} (h : Destination styleFragments none q) :
    q ∈ styleDestinations := by
  rcases h with (rfl | rfl | ⟨fam, f, hf, rfl⟩) | h
  · simp [styleDestinations]
  · simp [styleDestinations]
  · cases fam with
    | rules =>
      obtain rfl : f = "style.md" := by simpa [Fragments.files, styleFragments] using hf
      simp [Family.dest, Family.destDir, styleDestinations]
    | hooks => simp [Fragments.files, styleFragments] at hf
  · simp at h

theorem styleNames {fam : Family} {f : String} (hf : f ∈ styleFragments.files fam) :
    ∃ s, Fragment.parse s = some (.rule f) ∨ Fragment.parse s = some (.hook f) := by
  cases fam with
  | rules =>
    obtain rfl : f = "style.md" := by simpa [Fragments.files, styleFragments] using hf
    exact ⟨"rules/style.md", .inl (by decide +kernel)⟩
  | hooks => simp [Fragments.files, styleFragments] at hf

/-- With nothing kept the directory is new. -/
theorem styleNew : (treeDisk ruleCodec).New (styleTree []) "/w" (styleRoot [])
    (Destination styleFragments none) := by
  have hempty : ∀ q ∈ styleDestinations, (treeDisk ruleCodec).holds (styleTree [])
      ((treeDisk ruleCodec).leads (copyPath (styleRoot []) q)) = none := by decide +kernel
  have hapart : ∀ q ∈ styleDestinations, ∀ r ∈ styleDestinations,
      (treeDisk ruleCodec).leads (copyPath (styleRoot []) q) ≠
        (treeDisk ruleCodec).leads (resolveDest "/w" r) := by decide +kernel
  have hdistinct : ∀ q ∈ styleDestinations, ∀ r ∈ styleDestinations,
      (treeDisk ruleCodec).leads (copyPath (styleRoot []) q) =
        (treeDisk ruleCodec).leads (copyPath (styleRoot []) r) →
      backupRelativePath q = backupRelativePath r := by decide +kernel
  exact
    { empty := fun q hq => hempty q (mem_styleDestinations hq)
      apart := fun q r hq hr => hapart q (mem_styleDestinations hq) r (mem_styleDestinations hr)
      distinct := fun q r hq hr =>
        hdistinct q (mem_styleDestinations hq) r (mem_styleDestinations hr) }

/-- What the apply of `style.md` was to keep. -/
def StyleKept (kept : List (Place × String)) : Prop :=
  (treeDisk ruleCodec).Kept (styleTree kept) (styleRun kept).2.2 "/w" (styleRoot kept)
    (Destination styleFragments none)

theorem style_profile (kept : List (Place × String)) :
    (treeMachine ruleCodec).profileToml (styleTree kept) (join ruleStore "team") =
      .ok ⟨"team", styleFragments⟩ := by
  have hread : (treeMachine ruleCodec).read (styleTree kept)
      (join (join ruleStore "team") "profile.toml") = .ok (ruleToml "style.md") := by
    have hplace : place (join (join ruleStore "team") "profile.toml") =
        place "/v/plugins/profile/team/profile.toml" := by decide +kernel
    simp [treeMachine, styleTree, hplace]
  have hparse : ruleCodec.tomlFromStr (ruleToml "style.md") = .ok ⟨"team", styleFragments⟩ := by
    decide +kernel
  simp only [Outside.profileToml, Outside.readToString, hread]
  simpa [treeMachine] using by rw [hparse]

/-- With a new directory the rule is replaced and what it said is at its
copy. -/
theorem apply_keeps_content_style : StyleKept [] ∧
    (treeDisk ruleCodec).holds (styleRun []).2.2 (place "/w/.claude/rules/style.md") =
      some "be brief" ∧
    (treeDisk ruleCodec).holds (styleRun []).2.2 (place styleCopy) = some "be kind" := by
  refine ⟨?_, by decide +kernel⟩
  have hparams : TargetParams.deserialize ruleParams = .ok ⟨"team", "/w", none⟩ := rfl
  exact (apply_keeps_content (treeDisk ruleCodec) hparams (style_profile [])
    (fun _ _ => styleNames) (by simp) styleNew).1

/-- **A clock that names an old backup destroys it.** An earlier apply kept
what the rule said then; the copy of what it says now takes its place, and
no change was to go there. -/
theorem apply_overwrites_backup :
    (styleRun [(place styleCopy, "be silent")]).2.1 =
      .ok (.applied [⟨".claude/rules/style.md", .overwrite, "be brief"⟩]
        "/w/.willie-bak/7000000005") ∧
    (treeDisk ruleCodec).holds (styleRun [(place styleCopy, "be silent")]).2.2 (place styleCopy) =
      some "be kind" ∧
    ¬ StyleKept [(place styleCopy, "be silent")] := by
  have hrun : (styleRun [(place styleCopy, "be silent")]).2.1 =
      .ok (.applied [⟨".claude/rules/style.md", .overwrite, "be brief"⟩]
        "/w/.willie-bak/7000000005") ∧
      (treeDisk ruleCodec).holds (styleRun [(place styleCopy, "be silent")]).2.2
        (place styleCopy) = some "be kind" := by decide +kernel
  refine ⟨hrun.1, hrun.2, fun h => ?_⟩
  have hheld : (treeDisk ruleCodec).holds (styleTree [(place styleCopy, "be silent")])
      (place styleCopy) = some "be silent" := by decide +kernel
  have helsewhere : ∀ q ∈ styleDestinations,
      (treeDisk ruleCodec).leads (resolveDest "/w" q) ≠ place styleCopy := by
    decide +kernel
  rcases h _ _ hheld with h | ⟨q, hq, hleads, -⟩
  · exact absurd (hrun.2.symm.trans h) (by decide)
  · exact helsewhere q (mem_styleDestinations hq) hleads

end Profiles
end Willie
