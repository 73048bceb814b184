import Willie.Profiles.Plan

/-!
# Profiles — where an apply writes and reads

An apply has its places: the profile's directory, the workspace, its own
backup directory and the harness settings. The names in `profile.toml` are
joined to them as they stand. Read lexically, a name that climbs no level,
or one level and then names something, keeps to those places; every name
the fragment grammar accepts is of that kind. A profile with any other name
has an apply that leaves them, so the names alone decide which profiles are
safe to apply everywhere (`apply_inside_iff`).
-/

namespace Willie
namespace Profiles

open Paths Json Traced

/-- The places of one apply. -/
structure Places where
  profile : Path
  workspace : Path
  backups : Path
  harness : Option Path

/-- The places an apply of a profile has on a machine. -/
def places {μ β : Type} (E : Outside μ β) (w : μ) (store : Path) (p : TargetParams) : Places :=
  ⟨join store p.name, p.workspace, backupRoot p.workspace (backupTimestamp (E.now w)),
    p.harnessSettings⟩

/-- A file an apply may write: the workspace's `CLAUDE.md`, something below
its `.claude`, something below the backup directory, or the harness
settings. -/
def Places.Target (P : Places) (p : Path) : Prop :=
  place p = place (join P.workspace "CLAUDE.md") ∨
  (place p).StrictlyUnder (place (join P.workspace ".claude")) ∨
  (place p).StrictlyUnder (place P.backups) ∨
  ∃ h ∈ P.harness, place p = place h

instance (P : Places) (p : Path) : Decidable (P.Target p) := by
  unfold Places.Target
  exact inferInstance

/-- **A run keeps to its places**: what it writes is a target, what it reads
of the profile lies in the profile. -/
def Places.Inside (P : Places) (t : List Access) : Prop :=
  (∀ p, .fragment p ∈ t → (place p).Under (place P.profile)) ∧
  ∀ p, .write p ∈ t → P.Target p

/-- A name that stays near: relative, it climbs no level, or one and then
names something. -/
def Direct (f : String) : Prop :=
  isAbsolute f = false ∧ (rises f = 0 ∨ rises f = 1 ∧ descends f ≠ [])

/-! ## Names, read lexically -/

theorem Family.dest_relative (fam : Family) (f : String) : isAbsolute (fam.dest f) = false := by
  cases fam <;> simp [isAbsolute, Family.dest, Family.destDir]

/-- A destination goes down into `.claude`, then into the family, then along
the name. -/
theorem Family.walk_dest (fam : Family) (f : String) (q : Place) :
    q.walk (fam.dest f) = (q.down [".claude".toList, fam.dir.toList]).walk f := by
  rw [Family.dest, Place.walk_append_slash]
  congr 1
  cases fam
  · rw [Place.walk, show segments Family.rules.destDir = [".claude".toList, "rules".toList] from
      by decide]
    simp [Place.step, Family.dir]
  · rw [Place.walk, show segments Family.hooks.destDir = [".claude".toList, "hooks".toList] from
      by decide]
    simp [Place.step, Family.dir]

theorem Family.dir_plain (fam : Family) : Plain fam.dir.toList := by
  cases fam <;> simp [Family.dir, Plain]

/-- Where a direct name leads from two levels down: below the upper one. -/
theorem Direct.walk_strictlyUnder {f : String} (hf : Direct f) (q : Place) (a b : Segment) :
    ((q.down [a, b]).walk f).StrictlyUnder (q.down [a]) := by
  rw [Place.walk_eq]
  rcases hf.2 with h | ⟨h, hne⟩
  · rw [h]
    exact ⟨b :: descends f, by simp, by simp⟩
  · rw [h, Place.climb_one, show [a, b] = [a] ++ [b] from rfl, Place.up_down_snoc]
    exact ⟨descends f, hne, rfl⟩

/-- From one level down a direct name stays in. -/
theorem Direct.walk_under {f : String} (hf : Direct f) (q : Place) (a : Segment) :
    ((q.down [a]).walk f).Under q := by
  rw [Place.walk_eq]
  rcases hf.2 with h | ⟨h, -⟩
  · rw [h]
    exact ⟨a :: descends f, by simp⟩
  · rw [h]
    exact ⟨descends f, by simp⟩

theorem place_join_claude (d : Path) :
    place (join d ".claude") = (place d).down [".claude".toList] := by
  rw [place_join (by decide), Place.walk_plain _ (by simp [Plain])]

/-- A direct name is read from the profile. -/
theorem Direct.source_under {f : String} (hf : Direct f) (dir : Path) (fam : Family) :
    (place (Family.source dir fam f)).Under (place dir) := by
  rw [Family.source, place_join hf.1, place_join fam.dir_plain.relative,
    Place.walk_plain _ fam.dir_plain]
  exact hf.walk_under _ _

/-- It is written below `.claude`. -/
theorem Direct.target {P : Places} {f : String} (hf : Direct f) (fam : Family) :
    P.Target (join P.workspace (fam.dest f)) := by
  refine .inr (.inl ?_)
  rw [place_join (fam.dest_relative f), fam.walk_dest, place_join_claude]
  exact hf.walk_strictlyUnder _ _ _

/-- What stood there is copied below the backup directory. -/
theorem Direct.copy_target {P : Places} {f : String} (hf : Direct f) (fam : Family) :
    P.Target (join P.backups (fam.dest f)) := by
  refine .inr (.inr (.inl ?_))
  rw [place_join (fam.dest_relative f), fam.walk_dest]
  obtain ⟨ns, hne, h⟩ := hf.walk_strictlyUnder (place P.backups) ".claude".toList fam.dir.toList
  exact ⟨".claude".toList :: ns, by simp, by rw [h]; simp⟩

/-- What the fragment grammar accepts is direct. -/
theorem direct_of_isSafeFileName {f : String} (h : isSafeFileName f = true) : Direct f :=
  ⟨(plain_of_isSafeFileName h).relative, .inl (plain_of_isSafeFileName h).rises⟩

/-! ## The files of every plan -/

/-- A file named plainly lies below what it is joined to. -/
theorem strictlyUnder_join {d f : Path} (hf : Plain f.toList) :
    (place (join d f)).StrictlyUnder (place d) := by
  rw [place_join hf.relative, Place.walk_plain _ hf]
  exact Place.strictlyUnder_down _ (by simp)

theorem place_join_settings (d : Path) :
    place (join d ".claude/settings.json") =
      (place d).down [".claude".toList, "settings.json".toList] := by
  rw [place_join (by decide), Place.walk,
    show segments ".claude/settings.json" = [".claude".toList, "settings.json".toList] from
      by decide]
  simp [Place.step]

/-- A planned destination is a target, if the names' are. -/
theorem Places.target_of_planned {P : Places} {frs : Fragments} {q : Path}
    (hq : PlannedPath frs q)
    (hnames : ∀ fam, ∀ f ∈ frs.files fam, P.Target (join P.workspace (fam.dest f))) :
    P.Target (resolveDest P.workspace q) := by
  rcases hq with rfl | rfl | ⟨fam, f, hf, rfl⟩
  · refine .inr (.inl ⟨["settings.json".toList], by simp, ?_⟩)
    rw [resolveDest, if_neg (by decide), place_join_settings, place_join (by decide),
      Place.walk_plain _ (by simp [Plain])]
    simp
  · exact .inl rfl
  · rw [resolveDest, if_neg (by simp [fam.dest_relative])]
    exact hnames fam f hf

/-- Its copy is one too, if the names' copies are. -/
theorem Places.target_of_copied {P : Places} {frs : Fragments} {q : Path}
    (hq : PlannedPath frs q)
    (hnames : ∀ fam, ∀ f ∈ frs.files fam, q = fam.dest f → P.Target (join P.backups q)) :
    P.Target (join P.backups (backupRelativePath q)) := by
  rcases hq with rfl | rfl | ⟨fam, f, hf, rfl⟩
  · rw [backupRelativePath, if_neg (by decide), Target, place_join_settings]
    exact .inr (.inr (.inl (Place.strictlyUnder_down _ (by simp))))
  · rw [backupRelativePath, if_neg (by decide)]
    exact .inr (.inr (.inl (strictlyUnder_join (by simp [Plain]))))
  · rw [backupRelativePath, if_neg (by simp [fam.dest_relative])]
    exact hnames fam f hf rfl

variable {μ β : Type} {E : Outside μ β} {w w' : μ} {t : List Access}

/-- **An apply of direct names keeps to its places.** -/
theorem applyToProject_inside {store : Path} {params : Value} {p : TargetParams}
    {profile : Profile} {reply : Reply}
    (hrun : (applyToProject E store params).Ends w t reply w')
    (hparams : TargetParams.deserialize params = .ok p)
    (hprofile : E.profileToml w (join store p.name) = .ok profile)
    (hharness : ∀ h ∈ p.harnessSettings, isAbsolute h = true)
    (hnames : ∀ fam, ∀ f ∈ profile.fragments.files fam, Direct f) :
    (places E w store p).Inside t := by
  obtain ⟨p', profile', cs, hparams', hprofile', done⟩ := applyToProject_ends hrun
  obtain rfl := Except.ok.inj (hparams.symm.trans hparams')
  obtain rfl := Except.ok.inj (hprofile.symm.trans hprofile')
  refine ⟨fun q hq => ?_, fun q hq => ?_⟩
  · rcases done.reads q hq with rfl | rfl | rfl | rfl | ⟨fam, f, hf, rfl⟩
    · exact (strictlyUnder_join (by simp [Plain])).under
    · exact (strictlyUnder_join (by simp [Plain])).under
    · exact (strictlyUnder_join (by simp [Plain])).under
    · exact (strictlyUnder_join (by simp [Plain])).under
    · exact (hnames fam f hf).source_under _ fam
  · rcases done.writes q hq with ⟨c, hc, rfl⟩ | ⟨c, hc, hsaved, rfl⟩
    · rcases done.paths c hc with hpath | hpath
      · exact Places.target_of_planned (P := places E w store p) hpath
          fun fam f hf => (hnames fam f hf).target fam
      · rw [resolveDest, if_pos (hharness _ hpath)]
        exact .inr (.inr (.inr ⟨_, hpath, rfl⟩))
    · rcases done.paths c hc with hpath | hpath
      · exact Places.target_of_copied (P := places E w store p) hpath
          fun fam f hf h => h ▸ (hnames fam f hf).copy_target fam
      · rw [backupRelativePath, if_pos (hharness _ hpath)]
        exact .inr (.inr (.inl (strictlyUnder_join (by simp [Plain]))))

/-! ## A machine of blank files

Every file a name leads to is there and empty, so that any profile can be
applied, and whether the apply stays inside is up to its names. -/

/-- The machine on which every `profile.toml` reads as `profile`. -/
def blankMachine (profile : Profile) : Outside Unit Unit where
  isDir _ _ := true
  isFile _ _ := true
  read _ _ := .ok ()
  write w _ _ := (.ok (), w)
  createDirAll w _ := (.ok (), w)
  copyMode w _ _ := w
  now _ := (0, 0)
  asBytes _ := ()
  fromUtf8 _ := some ""
  codec := ⟨fun _ => .ok (.object []), fun _ => .ok "", fun _ => .ok profile⟩

section Blank

variable {profile : Profile} {dir ws : Path}

theorem blank_readRequired (p : Path) :
    (readRequired (blankMachine profile) p).Yields fun _ => True :=
  yields_bind yields_tell fun _ _ =>
    yields_bind (yields_ask (P := (· = .ok "")) fun _ => rfl) fun _ h => by
      subst h
      exact yields_pure trivial

theorem blank_readOptional (p : Path) :
    (readOptional (blankMachine profile) p).Yields (· = some "") :=
  yields_bind yields_tell fun _ _ =>
    yields_bind (yields_ask (P := (· = .ok "")) fun _ => rfl) fun _ h => by
      subst h
      exact yields_pure rfl

/-- An input is read for an active fragment, of a destination that is
empty. -/
def BlankInput (active : Bool) (o : Option FragmentContent) : Prop :=
  active = true → ∃ content, o = some content ∧ content.existing = some ""

theorem blank_readFragmentPair {file rel : Path} {active : Bool} :
    (readFragmentPair (blankMachine profile) dir ws file rel active).Yields
      (BlankInput active) := by
  cases active
  · exact yields_pure (by simp [BlankInput])
  · exact yields_bind (blank_readRequired _) fun _ _ =>
      yields_bind (blank_readOptional _) fun _ h => yields_pure fun _ => ⟨_, rfl, h⟩

/-- Every name of a family is read. -/
theorem blank_readFileFamily {fam : Path} {names : List String} {map : FileInputs} :
    (readFileFamily (blankMachine profile) dir ws fam map names).Yields fun map' =>
      ∀ f, f ∈ names ∨ (map.lookup f).isSome → (map'.lookup f).isSome := by
  induction names generalizing map with
  | nil => exact yields_pure (by simp)
  | cons name names ih =>
    refine yields_bind (blank_readRequired _) fun fragment _ =>
      yields_bind (blank_readOptional _) fun existing _ => ?_
    intro s
    obtain ⟨t, map', s', hends, hmap⟩ := @ih ((name, ⟨fragment, existing⟩) :: map) s
    refine ⟨t, map', s', hends, fun f hf => hmap f ?_⟩
    simp only [List.lookup_cons]
    by_cases hname : f = name
    · simp [hname]
    · rcases hf with hf | hf
      · exact .inl (by simpa [hname] using hf)
      · refine .inr ?_
        rw [beq_eq_false_iff_ne.mpr hname]
        exact hf

theorem blank_planFiles {inputs : FileInputs} (destDir : Path) {names : List String}
    (h : ∀ f ∈ names, (inputs.lookup f).isSome) :
    ∃ cs, planFiles inputs destDir names = .ok cs := by
  induction names with
  | nil => exact ⟨_, rfl⟩
  | cons name names ih =>
    obtain ⟨content, hcontent⟩ := Option.isSome_iff_exists.mp (h name (by simp))
    obtain ⟨cs, hcs⟩ := ih fun f hf => h f (by simp [hf])
    exact ⟨_, by simp only [planFiles, hcontent, required, hcs]; rfl⟩

theorem blank_planSettings {frs : Fragments} (targets : Targets)
    (hs : BlankInput frs.settings targets.settings) (hm : BlankInput frs.mcp targets.mcp) :
    ∃ o, planSettings (blankMachine profile).codec frs targets = .ok o := by
  cases hsettings : frs.settings <;> cases hmcp : frs.mcp <;>
    simp only [planSettings, hsettings, hmcp]
  · exact ⟨_, rfl⟩
  · obtain ⟨c, hc, -⟩ := hm hmcp
    exact ⟨_, by rw [hc]; rfl⟩
  · obtain ⟨c, hc, -⟩ := hs hsettings
    exact ⟨_, by rw [hc]; rfl⟩
  · obtain ⟨c, hc, -⟩ := hs hsettings
    obtain ⟨d, hd, -⟩ := hm hmcp
    exact ⟨_, by rw [hc, hd]; rfl⟩

theorem blank_planInstructions (targets : Targets) (h : BlankInput true targets.instructions) :
    ∃ c, planInstructions targets = .ok c := by
  obtain ⟨content, hc, hexisting⟩ := h rfl
  have hspan : markerSpan "" = .ok none := by decide
  exact ⟨_, by simp only [planInstructions, hc, required, hexisting, mergeMarkdown, bind,
    Except.bind, Option.getD_some, hspan]; rfl⟩

theorem blank_planProjectChanges :
    (planProjectChanges (blankMachine profile) dir profile ws none).Yields fun _ => True := by
  refine yields_bind (yields_ask (P := (· = true)) fun _ => rfl) fun _ h => ?_
  subst h
  refine yields_bind blank_readFragmentPair fun settings hs => ?_
  refine yields_bind blank_readFragmentPair fun mcp hm => ?_
  refine yields_bind blank_readFragmentPair fun instructions hi => ?_
  refine yields_bind blank_readFileFamily fun rules hr => ?_
  refine yields_bind blank_readFileFamily fun hooks hh => ?_
  have hplan : ∃ cs, planChanges (blankMachine profile).codec profile
      ⟨settings, mcp, instructions, rules, hooks⟩ = .ok cs := by
    obtain ⟨o, ho⟩ : ∃ o, planSettings (blankMachine profile).codec profile.fragments
        ⟨settings, mcp, instructions, rules, hooks⟩ = .ok o := blank_planSettings _ hs hm
    obtain ⟨rs, hrs⟩ := blank_planFiles ".claude/rules" fun f hf => hr f (.inl hf)
    obtain ⟨hs, hhs⟩ := blank_planFiles ".claude/hooks" fun f hf => hh f (.inl hf)
    cases hinstr : profile.fragments.instructions with
    | false => exact ⟨_, by simp only [planChanges, ho, hrs, hhs, hinstr, whenActive]; rfl⟩
    | true =>
      obtain ⟨c, hc⟩ := blank_planInstructions
        ⟨settings, mcp, instructions, rules, hooks⟩ (hinstr ▸ hi)
      exact ⟨_, by simp only [planChanges, ho, hrs, hhs, hinstr, whenActive, hc]; rfl⟩
  obtain ⟨cs, hcs⟩ := hplan
  simp only [hcs]
  exact yields_bind (yields_settle (P := fun _ => True) trivial) fun _ _ => yields_pure trivial

theorem blank_createParent (p : Path) :
    (createParent (blankMachine profile) p).Yields fun _ => True := by
  unfold createParent
  split
  · exact yields_act fun _ => ⟨(), rfl, trivial⟩
  · exact yields_pure trivial

theorem blank_writeFile (p : Path) :
    (writeFile (blankMachine profile) p ()).Yields fun _ => True :=
  yields_bind yields_tell fun _ _ => yields_act fun _ => ⟨(), rfl, trivial⟩

theorem blank_backupChanges (cs : List Change) :
    (backupChanges (blankMachine profile) ws cs).Yields fun _ => True := by
  refine yields_bind (yields_ask (P := fun _ => True) fun _ => trivial) fun _ _ =>
    yields_bind (yields_forM fun c _ => ?_) fun _ _ => yields_pure trivial
  unfold backupChange
  split
  · exact yields_pure trivial
  refine yields_bind (blank_createParent _) fun _ _ =>
    yields_bind (yields_ask (P := (· = .ok ())) fun _ => rfl) fun _ h => ?_
  subst h
  exact yields_bind yields_tell fun _ _ => blank_writeFile _

theorem blank_writeChanges (cs : List Change) :
    (writeChanges (blankMachine profile) dir ws cs).Yields fun _ => True := by
  refine yields_forM fun c _ => yields_bind (blank_createParent _) fun _ _ =>
    yields_bind (blank_writeFile _) fun _ _ => ?_
  split
  · exact yields_act fun _ => ⟨(), rfl, trivial⟩
  · exact yields_pure trivial

/-- `profile.apply` of the profile called `name`, targets filled in. -/
def applyParams (name : String) : Value :=
  .object [("name", .string name), ("project_id", .string "proj_1"), ("_workspace", .string "/w")]

/-- **The apply succeeds, whatever the profile.** -/
theorem blank_apply (profile : Profile) {store : Path} {name : String}
    (h : ∃ d, profileDir store name = .ok d) :
    ∃ t reply, (applyToProject (blankMachine profile) store (applyParams name)).Ends () t reply
      () := by
  obtain ⟨d, hd⟩ := h
  have hrun : (applyToProject (blankMachine profile) store (applyParams name)).Yields
      fun _ => True := by
    refine yields_bind (P := (· = ⟨name, "/w", none⟩)) ?_ fun p hp => ?_
    · exact yields_settle rfl
    subst hp
    refine yields_bind (P := fun _ => True) ?_ fun dir _ => ?_
    · unfold existingProfileDir
      rw [hd]
      refine yields_bind (yields_settle (P := fun _ => True) trivial) fun _ _ =>
        yields_bind (yields_ask (P := (· = true)) fun _ => rfl) fun _ h => ?_
      subst h
      exact yields_pure trivial
    refine yields_bind (P := (· = profile)) ?_ fun _ h => ?_
    · refine yields_bind yields_tell fun _ _ =>
        yields_bind (yields_ask (P := (· = .ok profile)) fun _ => rfl) fun _ h => ?_
      subst h
      exact yields_settle rfl
    subst h
    exact yields_bind blank_planProjectChanges fun cs _ =>
      yields_bind (blank_backupChanges cs) fun _ _ =>
        yields_bind (blank_writeChanges cs) fun _ _ => yields_pure trivial
  obtain ⟨t, reply, w', hends, -⟩ := hrun ()
  exact ⟨t, reply, hends⟩

end Blank

/-! ## Exactly which profiles keep to their places -/

/-- What `n` names is not the second name of `q`. -/
theorem not_under_of_second {q : Place} {n : Segment} (h : q.names[1]? ≠ some n) :
    ¬ q.Under ((⟨true, 0, []⟩ : Place).down ["v".toList, n]) := by
  rintro ⟨ns, rfl⟩
  simp [Place.down] at h

/-- **A name that is not direct leaves, if only the profile is called
right.** Climbing further it is read from outside the profile, and so is an
absolute one; climbing one level to name nothing, it is written over
`.claude` itself. -/
theorem leaves_of_not_direct {f : String} (hf : ¬ Direct f) (fam : Family) :
    ∃ name ∈ ["a", "b"],
      ¬ (place (Family.source (join "/v" name) fam f)).Under (place (join "/v" name)) ∨
      ¬ (⟨join "/v" name, "/w", backupRoot "/w" (backupTimestamp (0, 0)), none⟩ : Places).Target
        (join "/w" (fam.dest f)) := by
  have hdir : ∀ name ∈ ["a", "b"],
      place (join "/v" name) = (⟨true, 0, []⟩ : Place).down ["v".toList, name.toList] := by decide
  -- one of the two names is not where a fixed path goes
  have hchoose : ∀ q : Place, ∃ name ∈ ["a", "b"], ¬ q.Under (place (join "/v" name)) := by
    intro q
    by_cases ha : q.names[1]? = some "a".toList
    · refine ⟨"b", by simp, ?_⟩
      rw [hdir "b" (by simp)]
      exact not_under_of_second (by rw [ha]; decide)
    · refine ⟨"a", by simp, ?_⟩
      rw [hdir "a" (by simp)]
      exact not_under_of_second ha
  by_cases habs : isAbsolute f = true
  · obtain ⟨name, hname, hout⟩ := hchoose (place f)
    refine ⟨name, hname, .inl ?_⟩
    rwa [Family.source, join, if_pos habs]
  have hrel : isAbsolute f = false := by simpa using habs
  rcases Nat.lt_or_ge (rises f) 2 with hlow | hhigh
  · -- it names nothing one level up
    have hup : rises f = 1 ∧ descends f = [] := by
      by_contra hno
      refine hf ⟨hrel, ?_⟩
      by_cases h0 : rises f = 0
      · exact .inl h0
      · exact .inr ⟨by omega, fun hd => hno ⟨by omega, hd⟩⟩
    have hplace : place (join "/w" (fam.dest f)) = place "/w/.claude" := by
      rw [place_join (fam.dest_relative f), fam.walk_dest, Place.walk_eq, hup.1, hup.2,
        Place.climb_one, show [".claude".toList, fam.dir.toList] = [".claude".toList] ++
          [fam.dir.toList] from rfl, Place.up_down_snoc]
      decide
    refine ⟨"a", by simp, .inr ?_⟩
    rw [Places.Target, hplace]
    decide +kernel
  · -- it climbs out of the profile
    have hsource : ∀ name ∈ ["a", "b"], place (Family.source (join "/v" name) fam f) =
        (((⟨true, 0, []⟩ : Place).down ["v".toList]).climb (rises f - 2)).down (descends f) := by
      intro name hname
      rw [Family.source, place_join hrel, place_join fam.dir_plain.relative,
        Place.walk_plain _ fam.dir_plain, hdir name hname, Place.walk_eq]
      obtain ⟨k, hk⟩ : ∃ k, rises f = 2 + k := ⟨rises f - 2, by omega⟩
      rw [hk, Nat.add_sub_cancel_left, Place.down_down,
        show ["v".toList, name.toList] ++ [fam.dir.toList] =
          ["v".toList] ++ [name.toList, fam.dir.toList] from rfl, ← Place.down_down,
        Place.climb_down_pair]
    obtain ⟨name, hname, hout⟩ := hchoose
      ((((⟨true, 0, []⟩ : Place).down ["v".toList]).climb (rises f - 2)).down (descends f))
    exact ⟨name, hname, .inl (hsource name hname ▸ hout)⟩

/-- **Exactly which profiles keep to their places.** Every successful apply
of a profile, from every store, to every workspace and on every machine,
keeps to its places if and only if every active name is direct. -/
theorem apply_inside_iff (profile : Profile) :
    (∀ (μ β : Type) (E : Outside μ β) (w w' : μ) (t : List Access) (store : Path)
      (params : Value) (p : TargetParams) (reply : Reply),
      (applyToProject E store params).Ends w t reply w' →
      TargetParams.deserialize params = .ok p →
      E.profileToml w (join store p.name) = .ok profile →
      (∀ h ∈ p.harnessSettings, isAbsolute h = true) →
      (places E w store p).Inside t) ↔
    ∀ fam, ∀ f ∈ profile.fragments.files fam, Direct f := by
  constructor
  · intro h fam f hf
    by_contra hno
    obtain ⟨name, hname, hleaves⟩ := leaves_of_not_direct hno fam
    have hstore : ∃ d, profileDir "/v" name = .ok d := by
      simp only [List.mem_cons, List.not_mem_nil, or_false] at hname
      rcases hname with rfl | rfl
      · exact ⟨"/v/a", by decide⟩
      · exact ⟨"/v/b", by decide⟩
    obtain ⟨t, reply, hrun⟩ := blank_apply profile hstore
    obtain ⟨hreads, hwrites⟩ := h Unit Unit _ () () t "/v" _ ⟨name, "/w", none⟩ reply hrun rfl rfl
      (by simp)
    obtain ⟨p, profile', cs, hparams, hprofile, done⟩ := applyToProject_ends hrun
    obtain rfl : ⟨name, "/w", none⟩ = p := Except.ok.inj hparams
    obtain rfl : profile = profile' := Except.ok.inj hprofile
    rcases hleaves with hout | hout
    · exact hout (hreads _ (done.sources fam f hf))
    · obtain ⟨c, hc, hpath⟩ := done.changes fam f hf
      have hwritten := hwrites _ (done.written c hc)
      rw [resolveDest, hpath, fam.dest_relative, if_neg (by simp)] at hwritten
      exact hout hwritten
  · exact fun hnames μ β E w w' t store params p reply hrun hparams hprofile hharness =>
      applyToProject_inside hrun hparams hprofile hharness hnames

/-! ## A machine of plain files -/

/-- Directories and files at their places, no links among them, and a
clock. -/
structure Tree where
  dirs : List Place
  files : List (Place × String)
  clock : Nat × Nat
  deriving DecidableEq

/-- The directory of a place and all above it. -/
def ancestors (q : Place) : List Place := q.names.inits.map fun ns => { q with names := ns }

/-- A tree of text files answers as a Unix file system without links does. -/
def treeMachine (codec : Codec) : Outside Tree String where
  isDir w p := place p ∈ w.dirs
  isFile w p := (w.files.lookup (place p)).isSome
  read w p :=
    match w.files.lookup (place p) with
    | some text => .ok text
    | none => .error ⟨.notFound, "No such file or directory (os error 2)"⟩
  write w p text :=
    if (place p).up ∈ w.dirs then (.ok (), { w with files := (place p, text) :: w.files })
    else (.error ⟨.notFound, "No such file or directory (os error 2)"⟩, w)
  createDirAll w p := (.ok (), { w with dirs := ancestors (place p) ++ w.dirs })
  copyMode w _ _ := w
  now w := w.clock
  asBytes := id
  fromUtf8 := some
  codec := codec

/-- A `profile.toml` with one rule. -/
def ruleToml (rule : String) : String :=
  "name = \"team\"\n\n[fragments]\nrules = [\"" ++ rule ++ "\"]\n"

/-- What the TOML parser makes of two such files. -/
def ruleCodec : Codec where
  jsonFromStr _ := .error "EOF while parsing a value at line 1 column 0"
  jsonToStringPretty _ := .error "unsupported"
  tomlFromStr text :=
    if text = ruleToml "style.md" then .ok ⟨"team", { rules := ["style.md"] }⟩
    else if text = ruleToml "../../x" then .ok ⟨"team", { rules := ["../../x"] }⟩
    else .error "invalid document"

/-- A daemon with one profile and one workspace. -/
def ruleTree (rule : String) : Tree where
  dirs := ancestors (place "/v/plugins/profile/team/rules") ++ ancestors (place "/w")
  files := [(place "/v/plugins/profile/team/profile.toml", ruleToml rule),
    (place "/v/plugins/profile/x", "key"),
    (place "/v/plugins/profile/team/rules/style.md", "be brief")]
  clock := (7, 5)

/-- `profile.apply` of it, targets filled in. -/
def ruleParams : Value :=
  .object [("name", .string "team"), ("project_id", .string "proj_1"), ("_workspace", .string "/w")]

/-- Where the daemon keeps its profiles. -/
def ruleStore : Path := "/v/plugins/profile"

/-- The run of that apply. -/
def ruleRun (rule : String) : List Access × Except PluginError Reply × Tree :=
  applyToProject (treeMachine ruleCodec) ruleStore ruleParams (ruleTree rule)

/-- Applying a rule writes the one file it names. -/
def ruleReply (rule text : String) : Reply :=
  .applied [⟨Family.dest .rules rule, .create, text⟩] "/w/.willie-bak/7000000005"

def rulePlaces (rule : String) : Places :=
  places (treeMachine ruleCodec) (ruleTree rule) ruleStore ⟨"team", "/w", none⟩

/-- An apply of the rule `style.md` keeps to its places. -/
theorem apply_inside_style : (rulePlaces "style.md").Inside (ruleRun "style.md").1 := by
  have hok : (ruleRun "style.md").2.1 = .ok (ruleReply "style.md" "be brief") := by
    decide +kernel
  have hprofile : (treeMachine ruleCodec).profileToml (ruleTree "style.md")
      (join ruleStore "team") = .ok ⟨"team", { rules := ["style.md"] }⟩ := by decide +kernel
  refine (apply_inside_iff ⟨"team", { rules := ["style.md"] }⟩).mpr (fun fam f hf => ?_)
    Tree String (treeMachine ruleCodec) _ _ _ ruleStore ruleParams ⟨"team", "/w", none⟩ _
    (Ends.of_ok hok) rfl hprofile (by simp)
  cases fam with
  | rules =>
    obtain rfl : f = "style.md" := by simpa [Fragments.files] using hf
    exact direct_of_isSafeFileName (by decide)
  | hooks => simp [Fragments.files] at hf

/-- **The rule `../../x` leaves them.** The apply succeeds, having read `x`
from beside the profile and written it to the top of the workspace. -/
theorem apply_escapes :
    (ruleRun "../../x").2.1 = .ok (ruleReply "../../x" "key") ∧
    .fragment "/v/plugins/profile/team/rules/../../x" ∈ (ruleRun "../../x").1 ∧
    .write "/w/.claude/rules/../../x" ∈ (ruleRun "../../x").1 ∧
    ¬ (rulePlaces "../../x").Inside (ruleRun "../../x").1 := by
  obtain ⟨hok, hread, hwrite⟩ :
      (ruleRun "../../x").2.1 = .ok (ruleReply "../../x" "key") ∧
      .fragment "/v/plugins/profile/team/rules/../../x" ∈ (ruleRun "../../x").1 ∧
      .write "/w/.claude/rules/../../x" ∈ (ruleRun "../../x").1 := by
    decide +kernel
  refine ⟨hok, hread, hwrite, fun h => ?_⟩
  exact (by decide +kernel : ¬ (rulePlaces "../../x").Target "/w/.claude/rules/../../x")
    (h.2 _ hwrite)

end Profiles
end Willie
