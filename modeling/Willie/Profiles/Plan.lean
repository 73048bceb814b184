import Willie.Profiles.Plugin

/-!
# Profiles — what a run touches

A run that succeeds, taken apart: planning reads and changes nothing, the
files it reads are fixed by the active fragments, and so are the paths of
the changes it returns. Backing up and writing then touch one file for each
change, plus the copy that is saved.
-/

namespace Willie
namespace Profiles

open Paths Json Traced

variable {μ β : Type} {E : Outside μ β} {w w' : μ} {t : List Access}

/-- Where a family lands in a workspace. -/
def Family.destDir : Family → Path
  | .rules => ".claude/rules"
  | .hooks => ".claude/hooks"

/-- The path of the change that writes one file of a family. -/
def Family.dest (fam : Family) (f : String) : Path := fam.destDir ++ "/" ++ f

/-- The profile's own copy of it. -/
def Family.source (dir : Path) (fam : Family) (f : String) : Path := join (join dir fam.dir) f

/-! ## The plan's paths -/

/-- The only destinations a plan has. -/
def PlannedPath (frs : Fragments) (p : Path) : Prop :=
  p = ".claude/settings.json" ∨ p = "CLAUDE.md" ∨ ∃ fam, ∃ f ∈ frs.files fam, p = fam.dest f

theorem planFiles_paths {inputs : FileInputs} {destDir : Path} {names : List String}
    {cs : List Change} (h : planFiles inputs destDir names = .ok cs) :
    cs.map (·.path) = names.map (destDir ++ "/" ++ ·) := by
  induction names generalizing cs with
  | nil => simp_all [planFiles]
  | cons name names ih =>
    simp only [planFiles, bind_eq_ok] at h
    obtain ⟨content, -, rest, hrest, h⟩ := h
    obtain rfl := pure_eq_ok.mp h
    simp [ih hrest]

theorem planInstructions_path {targets : Targets} {c : Change}
    (h : planInstructions targets = .ok c) : c.path = "CLAUDE.md" := by
  simp only [planInstructions, bind_eq_ok] at h
  obtain ⟨content, -, after, -, h⟩ := h
  obtain rfl := pure_eq_ok.mp h
  rfl

theorem planSettings_path {C : Codec} {frs : Fragments} {targets : Targets} {o : Option Change}
    {c : Change} (h : planSettings C frs targets = .ok o) (hc : c ∈ o) :
    c.path = ".claude/settings.json" := by
  unfold planSettings at h
  cases hs : frs.settings <;> cases hm : frs.mcp
  · simp_all
  all_goals
    simp only [hs, hm, Bool.not_true, Bool.not_false, Bool.and_false, Bool.and_true,
      Bool.false_eq_true, if_false, if_true, bind_eq_ok, pure_eq_ok] at h
  · obtain ⟨_, -, _, -, rfl⟩ := h
    obtain rfl := Option.mem_some_iff.mp hc
    rfl
  · obtain ⟨_, -, _, -, rfl⟩ := h
    obtain rfl := Option.mem_some_iff.mp hc
    rfl
  · obtain ⟨_, -, _, -, _, -, _, -, rfl⟩ := h
    obtain rfl := Option.mem_some_iff.mp hc
    rfl

/-- Every change of a plan has one of the planned paths, and every active
file has its change. -/
theorem planChanges_paths {C : Codec} {profile : Profile} {targets : Targets}
    {cs : List Change} (h : planChanges C profile targets = .ok cs) :
    (∀ c ∈ cs, PlannedPath profile.fragments c.path) ∧
    (∀ fam, ∀ f ∈ profile.fragments.files fam, ∃ c ∈ cs, c.path = fam.dest f) := by
  simp only [planChanges, bind_eq_ok] at h
  obtain ⟨settings, hs, instructions, hi, rules, hr, hooks, hh, h⟩ := h
  obtain rfl := pure_eq_ok.mp h
  have hrules := planFiles_paths hr
  have hhooks := planFiles_paths hh
  constructor
  · intro c hc
    simp only [List.mem_append, Option.mem_toList] at hc
    rcases hc with ((hc | hc) | hc) | hc
    · exact .inl (planSettings_path hs hc)
    · refine .inr (.inl ?_)
      unfold whenActive at hi
      split at hi
      · obtain ⟨d, hd, rfl⟩ := map_eq_ok.mp hi
        obtain rfl := Option.mem_some_iff.mp hc
        exact planInstructions_path hd
      · simp_all
    · have : c.path ∈ rules.map (·.path) := List.mem_map_of_mem hc
      rw [hrules, List.mem_map] at this
      obtain ⟨f, hf, hp⟩ := this
      exact .inr (.inr ⟨.rules, f, hf, hp.symm⟩)
    · have : c.path ∈ hooks.map (·.path) := List.mem_map_of_mem hc
      rw [hhooks, List.mem_map] at this
      obtain ⟨f, hf, hp⟩ := this
      exact .inr (.inr ⟨.hooks, f, hf, hp.symm⟩)
  · intro fam f hf
    cases fam with
    | rules =>
      have : Family.dest .rules f ∈ rules.map (·.path) := hrules ▸ List.mem_map_of_mem hf
      obtain ⟨c, hc, hp⟩ := List.mem_map.mp this
      exact ⟨c, by simp [hc], hp⟩
    | hooks =>
      have : Family.dest .hooks f ∈ hooks.map (·.path) := hhooks ▸ List.mem_map_of_mem hf
      obtain ⟨c, hc, hp⟩ := List.mem_map.mp this
      exact ⟨c, by simp [hc], hp⟩

/-! ## Reading -/

theorem readRequired_ends {p : Path} {s : String} (h : (readRequired E p).Ends w t s w') :
    t = [.fragment p] ∧ w' = w := by
  simp only [readRequired, ends_bind, ends_tell, ends_ask] at h
  obtain ⟨_, _, _, t₂, ⟨rfl, rfl⟩, ⟨_, _, _, t₄, ⟨rfl, rfl, rfl⟩, h, rfl⟩, rfl⟩ := h
  split at h
  · obtain ⟨rfl, rfl, rfl⟩ := ends_pure.mp h
    simp
  · split at h
    · obtain ⟨rfl, rfl, rfl⟩ := ends_pure.mp h
      simp
    · exact (ends_throw.mp h).elim

theorem readOptional_ends {p : Path} {o : Option String} (h : (readOptional E p).Ends w t o w') :
    t = [.existing p] ∧ w' = w := by
  simp only [readOptional, ends_bind, ends_tell, ends_ask] at h
  obtain ⟨_, _, _, t₂, ⟨rfl, rfl⟩, ⟨_, _, _, t₄, ⟨rfl, rfl, rfl⟩, h, rfl⟩, rfl⟩ := h
  split at h
  · obtain ⟨rfl, rfl, rfl⟩ := ends_pure.mp h
    simp
  · split at h
    · obtain ⟨rfl, rfl, rfl⟩ := ends_pure.mp h
      simp
    · exact (ends_throw.mp h).elim

theorem readFragmentPair_ends {dir ws file rel : Path} {active : Bool}
    {o : Option FragmentContent} (h : (readFragmentPair E dir ws file rel active).Ends w t o w') :
    (t = [] ∨ t = [.fragment (join dir file), .existing (join ws rel)]) ∧ w' = w := by
  unfold readFragmentPair at h
  split at h
  · obtain ⟨rfl, rfl, rfl⟩ := ends_pure.mp h
    simp
  · simp only [ends_bind] at h
    obtain ⟨_, w₁, t₁, _, h₁, ⟨_, w₂, t₂, _, h₂, h₃, rfl⟩, rfl⟩ := h
    obtain ⟨rfl, rfl⟩ := readRequired_ends h₁
    obtain ⟨rfl, rfl⟩ := readOptional_ends h₂
    obtain ⟨rfl, -, rfl⟩ := ends_pure.mp h₃
    simp

/-- Each file of a family is read at its own name, joined as it stands. -/
theorem readFileFamily_ends {dir ws fam : Path} {map map' : FileInputs} {names : List String}
    (h : (readFileFamily E dir ws fam map names).Ends w t map' w') :
    t = names.flatMap (fun f =>
      [.fragment (join (join dir fam) f), .existing (join (join (join ws ".claude") fam) f)]) ∧
    w' = w := by
  induction names generalizing map t w with
  | nil =>
    obtain ⟨rfl, -, rfl⟩ := ends_pure.mp h
    simp
  | cons name names ih =>
    simp only [readFileFamily, ends_bind] at h
    obtain ⟨_, w₁, t₁, _, h₁, ⟨_, w₂, t₂, _, h₂, h₃, rfl⟩, rfl⟩ := h
    obtain ⟨rfl, rfl⟩ := readRequired_ends h₁
    obtain ⟨rfl, rfl⟩ := readOptional_ends h₂
    obtain ⟨rfl, rfl⟩ := ih h₃
    simp

theorem planHarnessSettingsChange_ends {profile : Profile} {settings mcp : Option FragmentContent}
    {hp : Path} {o : Option Change}
    (h : (planHarnessSettingsChange E profile settings mcp hp).Ends w t o w') :
    t = [.existing hp] ∧ w' = w ∧ ∀ c ∈ o, c.path = hp := by
  simp only [planHarnessSettingsChange, ends_bind] at h
  obtain ⟨_, w₁, t₁, _, h₁, ⟨cs, w₂, t₂, _, h₂, h₃, rfl⟩, rfl⟩ := h
  obtain ⟨rfl, rfl⟩ := readOptional_ends h₁
  obtain ⟨rfl, -, rfl⟩ := ends_settle.mp h₂
  obtain ⟨rfl, rfl, rfl⟩ := ends_pure.mp h₃
  refine ⟨by simp, rfl, fun c hc => ?_⟩
  obtain ⟨d, -, rfl⟩ := Option.map_eq_some_iff.mp hc
  rfl

/-- What planning reads of the profile. -/
def PlannedSource (dir : Path) (frs : Fragments) (p : Path) : Prop :=
  p = join dir "settings.json" ∨ p = join dir "mcp.json" ∨ p = join dir "CLAUDE.md" ∨
    ∃ fam, ∃ f ∈ frs.files fam, p = Family.source dir fam f

/-- **Planning, done.** It only read: the profile's planned sources, and what
stands at the destinations. Each change has a planned path or is the
harness's. -/
structure Planned (dir : Path) (profile : Profile) (harness : Option Path) (t : List Access)
    (cs : List Change) : Prop where
  reads : ∀ a ∈ t, (∃ p, a = .fragment p ∧ PlannedSource dir profile.fragments p) ∨
    ∃ p, a = .existing p
  sources : ∀ fam, ∀ f ∈ profile.fragments.files fam, .fragment (Family.source dir fam f) ∈ t
  paths : ∀ c ∈ cs, PlannedPath profile.fragments c.path ∨ c.path ∈ harness
  changes : ∀ fam, ∀ f ∈ profile.fragments.files fam, ∃ c ∈ cs, c.path = fam.dest f

/-- A pair read for an active fragment is a planned read. -/
theorem readFragmentPair_planned {dir ws file rel : Path} {active : Bool} {frs : Fragments}
    {o : Option FragmentContent} (h : (readFragmentPair E dir ws file rel active).Ends w t o w')
    (hfile : PlannedSource dir frs (join dir file)) :
    w' = w ∧ ∀ a ∈ t, (∃ p, a = .fragment p ∧ PlannedSource dir frs p) ∨ ∃ p, a = .existing p := by
  obtain ⟨rfl | rfl, rfl⟩ := readFragmentPair_ends h
  · simp
  · refine ⟨rfl, fun a ha => ?_⟩
    simp only [List.mem_cons, List.not_mem_nil, or_false] at ha
    rcases ha with rfl | rfl
    · exact .inl ⟨_, rfl, hfile⟩
    · exact .inr ⟨_, rfl⟩

theorem readFileFamily_planned {dir ws : Path} {fam : Family} {map map' : FileInputs}
    {frs : Fragments}
    (h : (readFileFamily E dir ws fam.dir map (frs.files fam)).Ends w t map' w') :
    w' = w ∧ (∀ a ∈ t, (∃ p, a = .fragment p ∧ PlannedSource dir frs p) ∨ ∃ p, a = .existing p) ∧
    ∀ f ∈ frs.files fam, .fragment (Family.source dir fam f) ∈ t := by
  obtain ⟨rfl, rfl⟩ := readFileFamily_ends h
  refine ⟨rfl, fun a ha => ?_, fun f hf => ?_⟩
  · obtain ⟨f, hf, ha⟩ := List.mem_flatMap.mp ha
    simp only [List.mem_cons, List.not_mem_nil, or_false] at ha
    rcases ha with rfl | rfl
    · exact .inl ⟨_, rfl, .inr (.inr (.inr ⟨fam, f, hf, rfl⟩))⟩
    · exact .inr ⟨_, rfl⟩
  · exact List.mem_flatMap.mpr ⟨f, hf, by simp [Family.source]⟩

/-- What the harness adds to a plan: at most one change, at its own path. -/
theorem harnessChange_ends {profile : Profile} {settings mcp : Option FragmentContent}
    {harness : Option Path} {cs cs' : List Change}
    (h : (match harness with
      | some harnessPath =>
        if profile.fragments.settings && profile.fragments.settingsScope = .global then do
          let change ← planHarnessSettingsChange E profile settings mcp harnessPath
          pure (cs ++ change.toList)
        else pure cs
      | none => pure cs : Call μ (List Change)).Ends w t cs' w') :
    w' = w ∧ (∀ a ∈ t, ∃ p, a = .existing p) ∧ cs ⊆ cs' ∧ ∀ c ∈ cs', c ∈ cs ∨ c.path ∈ harness := by
  have same : ∀ {t : List Access} {cs' : List Change} {w' : μ},
      (pure cs : Call μ (List Change)).Ends w t cs' w' →
      w' = w ∧ (∀ a ∈ t, ∃ p, a = .existing p) ∧ cs ⊆ cs' ∧
        ∀ c ∈ cs', c ∈ cs ∨ c.path ∈ harness := by
    intro t cs' w' h
    obtain ⟨rfl, rfl, rfl⟩ := ends_pure.mp h
    exact ⟨rfl, by simp, List.Subset.refl _, fun c hc => .inl hc⟩
  split at h
  · split at h
    · obtain ⟨o, w₁, t₁, t₂, h₁, h₂, rfl⟩ := ends_bind.mp h
      obtain ⟨rfl, rfl, ho⟩ := planHarnessSettingsChange_ends h₁
      obtain ⟨rfl, rfl, rfl⟩ := ends_pure.mp h₂
      refine ⟨rfl, by simp, List.subset_append_left _ _, fun c hc => ?_⟩
      rcases List.mem_append.mp hc with hc | hc
      · exact .inl hc
      · exact .inr (by simp [ho c (Option.mem_toList.mp hc)])
    · exact same h
  · exact same h

theorem planProjectChanges_ends {dir ws : Path} {profile : Profile} {harness : Option Path}
    {cs : List Change} (h : (planProjectChanges E dir profile ws harness).Ends w t cs w') :
    w' = w ∧ Planned dir profile harness t cs := by
  simp only [planProjectChanges, ends_bind, ends_ask] at h
  obtain ⟨_, _, _, _, ⟨rfl, rfl, rfl⟩, h, rfl⟩ := h
  split at h
  · obtain ⟨_, _, _, _, h, -⟩ := ends_bind.mp h
    exact (ends_throw.mp h).elim
  simp only [ends_bind] at h
  obtain ⟨settings, w₁, t₁, _, h₁, ⟨mcp, w₂, t₂, _, h₂, ⟨instructions, w₃, t₃, _, h₃,
    ⟨rules, w₄, t₄, _, h₄, ⟨hooks, w₅, t₅, _, h₅, ⟨planned, w₆, t₆, t₇, h₆, h₇, rfl⟩,
      rfl⟩, rfl⟩, rfl⟩, rfl⟩, rfl⟩ := h
  obtain ⟨rfl, r₁⟩ := readFragmentPair_planned h₁ (.inl rfl)
  obtain ⟨rfl, r₂⟩ := readFragmentPair_planned h₂ (.inr (.inl rfl))
  obtain ⟨rfl, r₃⟩ :=
    readFragmentPair_planned h₃ (.inr (.inr (.inl rfl)))
  have h₄ : Ends (readFileFamily E dir ws (Family.dir .rules) [] (profile.fragments.files .rules))
    w₃ t₄ rules w₄ := h₄
  have h₅ : Ends (readFileFamily E dir ws (Family.dir .hooks) []
    (profile.fragments.files .hooks)) w₄ t₅ hooks w₅ := h₅
  obtain ⟨rfl, r₄, s₄⟩ := readFileFamily_planned h₄
  obtain ⟨rfl, r₅, s₅⟩ := readFileFamily_planned h₅
  obtain ⟨rfl, hplan, rfl⟩ := ends_settle.mp h₆
  obtain ⟨hpaths, hchanges⟩ := planChanges_paths (mapError_eq_ok.mp hplan)
  obtain ⟨rfl, r₇, hsub, hmem⟩ := harnessChange_ends h₇
  refine ⟨rfl, ⟨fun a ha => ?_, fun fam f hf => ?_, fun c hc => ?_, fun fam f hf => ?_⟩⟩
  · simp only [List.nil_append, List.mem_append] at ha
    rcases ha with ha | ha | ha | ha | ha | ha
    exacts [r₁ a ha, r₂ a ha, r₃ a ha, r₄ a ha, r₅ a ha, .inr (r₇ a ha)]
  · cases fam with
    | rules => simp [s₄ f hf]
    | hooks => simp [s₅ f hf]
  · exact (hmem c hc).imp_left (hpaths c)
  · obtain ⟨c, hc, hp⟩ := hchanges fam f hf
    exact ⟨c, hsub hc, hp⟩

/-! ## Backing up and writing -/

theorem faulting_ends {α : Type} {p : Path} {f : μ → Except IoError α × μ} {a : α}
    (h : (faulting p f).Ends w t a w') : t = [] := (ends_act.mp h).1.symm

theorem createParent_ends {p : Path} {u : Unit} (h : (createParent E p).Ends w t u w') :
    t = [] := by
  unfold createParent at h
  split at h
  · exact faulting_ends h
  · exact (ends_pure.mp h).1.symm

theorem writeFile_ends {p : Path} {bytes : β} {u : Unit}
    (h : (writeFile E p bytes).Ends w t u w') : t = [.write p] := by
  simp only [writeFile, ends_bind, ends_tell] at h
  obtain ⟨_, _, _, _, ⟨rfl, rfl⟩, h, rfl⟩ := h
  rw [faulting_ends h]
  rfl

/-- Backing up a change looks for its file and writes the copy if it was
there. -/
theorem backupChange_ends {ws root : Path} {c : Change} {u : Unit}
    (h : (backupChange E ws root c).Ends w t u w') :
    t = [] ∨ t = [.saving c.path false] ∨
      t = [.saving c.path true, .write (join root (backupRelativePath c.path))] := by
  unfold backupChange at h
  split at h
  · exact .inl (ends_pure.mp h).1.symm
  · simp only [ends_bind, ends_ask] at h
    obtain ⟨_, w₁, _, _, h₁, ⟨_, _, _, _, ⟨rfl, rfl, rfl⟩, h₂, rfl⟩, rfl⟩ := h
    rw [createParent_ends h₁]
    split at h₂
    · simp only [ends_bind, ends_tell] at h₂
      obtain ⟨_, _, _, _, ⟨rfl, rfl⟩, h₃, rfl⟩ := h₂
      rw [writeFile_ends h₃]
      exact .inr (.inr rfl)
    · simp only [ends_bind, ends_tell] at h₂
      obtain ⟨_, _, _, _, ⟨rfl, rfl⟩, h₃, rfl⟩ := h₂
      split at h₃
      · obtain ⟨rfl, -, -⟩ := ends_pure.mp h₃
        exact .inr (.inl rfl)
      · exact (ends_throw.mp h₃).elim

theorem writeChange_ends {dir ws : Path} {c : Change} {u : Unit}
    (h : (writeChange E dir ws c).Ends w t u w') : t = [.write (resolveDest ws c.path)] := by
  simp only [writeChange, ends_bind] at h
  obtain ⟨_, w₁, _, _, h₁, ⟨_, w₂, _, _, h₂, h₃, rfl⟩, rfl⟩ := h
  rw [createParent_ends h₁, writeFile_ends h₂]
  split at h₃
  · obtain ⟨rfl, -⟩ := ends_act.mp h₃
    rfl
  · obtain ⟨rfl, -⟩ := ends_pure.mp h₃
    rfl

/-- **What backing up touches**: it writes exactly the copies of the files it
found. -/
theorem backupChanges_ends {ws root : Path} {cs : List Change}
    (h : (backupChanges E ws cs).Ends w t root w') :
    root = backupRoot ws (backupTimestamp (E.now w)) ∧ (∀ p, .fragment p ∉ t) ∧
    (∀ p, .write p ∈ t → ∃ c ∈ cs, .saving c.path true ∈ t ∧
      p = join root (backupRelativePath c.path)) ∧
    ∀ q, .saving q true ∈ t → .write (join root (backupRelativePath q)) ∈ t := by
  simp only [backupChanges, ends_bind, ends_ask, ends_pure] at h
  obtain ⟨_, _, _, _, ⟨rfl, rfl, rfl⟩, ⟨_, w₁, t₁, _, h, ⟨rfl, rfl, rfl⟩, rfl⟩, rfl⟩ := h
  simp only [List.nil_append, List.append_nil]
  refine ⟨trivial, fun p hp => ?_, fun p hp => ?_, fun q hq => ?_⟩
  · obtain ⟨c, hc, _, _, _, ht, hp, -⟩ := forM_event h hp
    rcases backupChange_ends ht with rfl | rfl | rfl <;> simp at hp
  · obtain ⟨c, hc, _, _, _, ht, hp, hsub⟩ := forM_event h hp
    rcases backupChange_ends ht with rfl | rfl | rfl
    · simp at hp
    · simp at hp
    · exact ⟨c, hc, hsub (by simp), by simpa using hp⟩
  · obtain ⟨c, hc, _, _, _, ht, hq, hsub⟩ := forM_event h hq
    rcases backupChange_ends ht with rfl | rfl | rfl
    · simp at hq
    · simp at hq
    · obtain rfl : q = c.path := by simpa using hq
      exact hsub (by simp)

/-- What writing touches: each change's destination. -/
theorem writeChanges_ends {dir ws : Path} {cs : List Change} {u : Unit}
    (h : (writeChanges E dir ws cs).Ends w t u w') :
    ∀ a, a ∈ t ↔ ∃ c ∈ cs, a = .write (resolveDest ws c.path) := by
  intro a
  constructor
  · intro ha
    obtain ⟨c, hc, _, _, _, ht, ha, -⟩ := forM_event h ha
    rw [writeChange_ends ht] at ha
    exact ⟨c, hc, by simpa using ha⟩
  · rintro ⟨c, hc, rfl⟩
    obtain ⟨_, _, _, ht, hsub⟩ := forM_turn h hc
    rw [writeChange_ends ht] at hsub
    exact hsub (by simp)

/-! ## A whole apply -/

/-- **An apply, done.** The plan it made, and what its trace holds beyond the
plan's reads: a write at every change's destination, and a copy for every
file the backup found. -/
structure Applied (dir ws root : Path) (profile : Profile) (harness : Option Path)
    (t : List Access) (cs : List Change) : Prop where
  reads : ∀ p, .fragment p ∈ t →
    p = join dir "profile.toml" ∨ PlannedSource dir profile.fragments p
  sources : ∀ fam, ∀ f ∈ profile.fragments.files fam, .fragment (Family.source dir fam f) ∈ t
  paths : ∀ c ∈ cs, PlannedPath profile.fragments c.path ∨ c.path ∈ harness
  changes : ∀ fam, ∀ f ∈ profile.fragments.files fam, ∃ c ∈ cs, c.path = fam.dest f
  writes : ∀ p, .write p ∈ t →
    (∃ c ∈ cs, p = resolveDest ws c.path) ∨
    ∃ c ∈ cs, .saving c.path true ∈ t ∧ p = join root (backupRelativePath c.path)
  written : ∀ c ∈ cs, .write (resolveDest ws c.path) ∈ t
  copied : ∀ q, .saving q true ∈ t → .write (join root (backupRelativePath q)) ∈ t

theorem existingProfileDir_ends {store dir : Path} {name : String}
    (h : (existingProfileDir E store name).Ends w t dir w') :
    t = [] ∧ w' = w ∧ dir = join store name := by
  simp only [existingProfileDir, ends_bind, ends_settle, ends_ask] at h
  obtain ⟨d, _, _, _, ⟨rfl, hd, rfl⟩, ⟨_, _, _, _, ⟨rfl, rfl, rfl⟩, h, rfl⟩, rfl⟩ := h
  split at h
  · obtain ⟨rfl, rfl, rfl⟩ := ends_pure.mp h
    unfold profileDir at hd
    refine ⟨rfl, rfl, ?_⟩
    split at hd
    · simp at hd
    · split at hd
      · simp at hd
      · exact (Except.ok.inj hd).symm
  · exact (ends_throw.mp h).elim

theorem applyToProject_ends {store : Path} {params : Value} {reply : Reply}
    (h : (applyToProject E store params).Ends w t reply w') :
    ∃ p profile cs, TargetParams.deserialize params = .ok p ∧
      E.profileToml w (join store p.name) = .ok profile ∧
      Applied (join store p.name) p.workspace (backupRoot p.workspace (backupTimestamp (E.now w)))
        profile p.harnessSettings t cs := by
  simp only [applyToProject, applyTarget, ends_bind] at h
  obtain ⟨p, _, _, _, h₁, ⟨dir, _, _, _, h₂, ⟨profile, _, _, _, h₃, ⟨cs, _, t₄, _, h₄,
    ⟨root, _, t₅, _, h₅, ⟨_, _, t₆, _, h₆, h₇, rfl⟩, rfl⟩, rfl⟩, rfl⟩, rfl⟩, rfl⟩ := h
  obtain ⟨rfl, hp, rfl⟩ := ends_settle.mp h₁
  obtain ⟨rfl, rfl, rfl⟩ := existingProfileDir_ends h₂
  simp only [readProfileToml, ends_bind, ends_tell, ends_ask, ends_settle] at h₃
  obtain ⟨_, _, _, _, ⟨rfl, rfl⟩, ⟨_, _, _, _, ⟨rfl, rfl, rfl⟩, ⟨rfl, hprofile, rfl⟩, rfl⟩, rfl⟩ :=
    h₃
  obtain ⟨rfl, plan⟩ := planProjectChanges_ends h₄
  obtain ⟨rfl, nofrag, copies, copied⟩ := backupChanges_ends h₅
  have hwrites := writeChanges_ends h₆
  obtain ⟨rfl, -, -⟩ := ends_pure.mp h₇
  -- nothing in the plan's trace is a write or a copy
  have planReads : ∀ a ∈ t₄, (∃ p, a = .fragment p) ∨ ∃ p, a = .existing p := fun a ha =>
    (plan.reads a ha).imp_left fun h => h.imp fun _ hp => hp.1
  refine ⟨p, profile, cs, mapError_eq_ok.mp hp, hprofile, ?_⟩
  refine
    { reads := fun q hq => ?_
      sources := fun fam f hf => by simp [plan.sources fam f hf]
      paths := plan.paths
      changes := plan.changes
      writes := fun q hq => ?_
      written := fun c hc => ?_
      copied := fun q hq => ?_ }
  · simp only [List.nil_append, List.append_nil, List.singleton_append, List.mem_cons,
      List.mem_append, Access.fragment.injEq] at hq
    rcases hq with rfl | hq | hq | hq
    · exact .inl rfl
    · rcases plan.reads _ hq with ⟨p', hp', hsrc⟩ | ⟨p', hp'⟩
      · exact .inr (Access.fragment.inj hp' ▸ hsrc)
      · simp at hp'
    · exact (nofrag q hq).elim
    · obtain ⟨c, -, hc⟩ := (hwrites _).mp hq
      simp at hc
  · simp only [List.nil_append, List.append_nil, List.singleton_append, List.mem_cons,
      List.mem_append, reduceCtorEq, false_or] at hq
    rcases hq with hq | hq | hq
    · rcases planReads _ hq with ⟨_, h⟩ | ⟨_, h⟩ <;> simp at h
    · obtain ⟨c, hc, hsav, rfl⟩ := copies q hq
      exact .inr ⟨c, hc, by simp [hsav], rfl⟩
    · obtain ⟨c, hc, h⟩ := (hwrites _).mp hq
      exact .inl ⟨c, hc, Access.write.inj h⟩
  · simp [(hwrites (.write (resolveDest p.workspace c.path))).mpr ⟨c, hc, rfl⟩]
  · simp only [List.nil_append, List.append_nil, List.singleton_append, List.mem_cons,
      List.mem_append, reduceCtorEq, false_or] at hq
    rcases hq with hq | hq | hq
    · rcases planReads _ hq with ⟨_, h⟩ | ⟨_, h⟩ <;> simp at h
    · simp [copied q hq]
    · obtain ⟨c, -, h⟩ := (hwrites _).mp hq
      simp at h

end Profiles
end Willie
