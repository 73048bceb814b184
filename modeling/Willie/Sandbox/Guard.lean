import Willie.Sandbox.Policy

/-!
# Sandbox — what the guard refuses

The guard compares texts; what it decides is about names: an accepted path
has no `..`, is not the root, lies below one drive if it is under `/mnt`,
and is neither above a guarded location nor, where the location is guarded
as a subtree, below it (`guardExtraPath_none`).
-/

namespace Willie
namespace Sandbox

open Paths Projects

variable {path home pre rest : Path} {ns ms : List Segment} {g : GuardedLocation}
  {n : Segment}

/-! ## Texts and names -/

theorem stripPrefix_eq_some : stripPrefix pre path = some rest ↔ path = pre ++ rest := by
  simp only [stripPrefix, Option.map_eq_some_iff, List.isPrefixOf?_eq_some_iff_append_eq]
  constructor
  · rintro ⟨cs, h, rfl⟩
    exact String.toList_injective (by simp [← h])
  · rintro rfl
    exact ⟨rest.toList, by simp, by simp⟩

theorem spelled_length (hn : Clean ns) : 1 < (spelled ns).length ↔ ns ≠ [] := by
  cases ns with
  | nil => decide
  | cons s ns =>
    obtain ⟨-, hs, -⟩ := hn s (List.mem_cons_self ..)
    have := List.length_pos_of_ne_nil hs
    simp [spelled, ← String.length_toList]
    omega

/-- **The loop writes the normal form.** -/
theorem normalizeLexical_eq (path : Path) : normalizeLexical path = spelled (names path) := by
  have loop (parts acc : List Segment) (hp : Clean parts) (ha : Clean acc) :
      parts.foldl (fun out part => (if 1 < out.length then out ++ "/" else out) ++
        String.ofList part) (spelled acc) = spelled (acc ++ parts) := by
    induction parts generalizing acc with
    | nil => simp
    | cons part parts ih =>
      obtain ⟨hpart, hrest⟩ := List.forall_mem_cons.mp hp
      have hnext : Clean (acc ++ [part]) := ha.append fun s hs => by
        obtain rfl := List.mem_singleton.mp hs
        exact hpart
      have hstep : (if 1 < (spelled acc).length then spelled acc ++ "/" else spelled acc) ++
          String.ofList part = spelled (acc ++ [part]) := by
        by_cases hacc : acc = []
        · subst hacc
          rw [if_neg fun h => (spelled_length ha).mp h rfl]
          apply String.toList_injective
          simp [spelled]
        · rw [if_pos ((spelled_length ha).mpr hacc), spelled_snoc hacc]
      rw [List.foldl_cons, hstep, ih _ hrest hnext, List.append_assoc, List.singleton_append]
  exact loop (names path) [] (names_clean path) (by simp [Clean])

theorem isPrefixPath_spelled (hn : Clean ns) (hm : Clean ms) (hne : ns ≠ []) :
    isPrefixPath (spelled ns) (spelled ms) = true ↔ ns <+: ms := by
  rw [← spelled_prefix hn hm hne, isPrefixPath, Bool.or_eq_true, decide_eq_true_iff,
    Option.any_eq_true]
  simp only [stripPrefix_eq_some]

theorem hasDotdotComponent_iff : hasDotdotComponent path = true ↔ ['.', '.'] ∈ names path := by
  simp [hasDotdotComponent, names, idle]

/-! ## Drives -/

/-- A path under `/mnt` lies below one drive. -/
def OnDrive (ns : List Segment) : Prop :=
  ∀ rest, ns = "mnt".toList :: rest →
    ∃ drive below, rest = drive :: below ∧ isDriveLetter drive = true ∧ below ≠ []

theorem spelled_cons (n : Segment) (ms : List Segment) :
    spelled (n :: ms) = "/" ++ String.ofList (n ++ ms.flatMap ('/' :: ·)) := by
  apply String.toList_injective
  simp [spelled]

/-- What `guardMnt` sees of a path is its first names. -/
theorem segments_cons (hn : Clean (n :: ms)) :
    segments (String.ofList (n ++ ms.flatMap ('/' :: ·))) = n :: ms := by
  obtain ⟨⟨hslash, -⟩, hrest⟩ := List.forall_mem_cons.mp hn
  simpa [segments] using segments_flatMap (fun s hs => (hrest s hs).1) n hslash

theorem guardMnt_none (hn : Clean ns) : guardMnt (spelled ns) = none ↔ OnDrive ns := by
  cases ns with
  | nil => exact iff_of_true (by decide) fun rest h => by simp at h
  | cons n ms =>
    -- the string prefixes the source strips are the names the path is spelled with
    have hseg := segments_cons hn
    by_cases hmnt : n = "mnt".toList
    · subst hmnt
      have hstrip : stripPrefix "/mnt" (spelled ("mnt".toList :: ms)) =
          some (String.ofList (ms.flatMap ('/' :: ·))) := by
        rw [stripPrefix_eq_some]
        apply String.toList_injective
        simp [spelled_cons]
      rw [guardMnt, hstrip, Option.bind_some]
      cases ms with
      | nil =>
        refine iff_of_false (by simp) fun h => ?_
        obtain ⟨drive, below, hcons, -⟩ := h [] rfl
        simp at hcons
      | cons d below =>
        have hbelow := segments_cons (List.forall_mem_cons.mp hn).2
        have hslash : stripPrefix "/" (String.ofList ((d :: below).flatMap ('/' :: ·))) =
            some (String.ofList (d ++ below.flatMap ('/' :: ·))) := by
          rw [stripPrefix_eq_some]
          apply String.toList_injective
          simp
        rw [if_neg (fun h => by simpa using congrArg String.toList h), hslash, Option.bind_some,
          hbelow]
        constructor
        · intro h rest hrest
          obtain rfl := (List.cons.inj hrest).2
          refine ⟨d, below, rfl, ?_⟩
          by_cases hdrive : isDriveLetter d = true
          · refine ⟨hdrive, fun hbelow => ?_⟩
            simp [hdrive, hbelow] at h
          · simp [hdrive] at h
        · intro h
          obtain ⟨drive, below', hcons, hdrive, hne⟩ := h _ rfl
          obtain ⟨rfl, rfl⟩ := List.cons.inj hcons
          simp [hdrive, hne]
    · refine iff_of_true ?_ fun rest h => absurd (List.cons.inj h).1 hmnt
      rw [guardMnt, Option.bind_eq_none_iff]
      intro rest hstrip
      rw [stripPrefix_eq_some, spelled_cons] at hstrip
      have hrest : n ++ ms.flatMap ('/' :: ·) = "mnt".toList ++ rest.toList := by
        simpa using congrArg String.toList hstrip
      -- a name that only begins with mnt is another directory
      have hsplit : n :: ms = ("mnt".toList ++ rest.toList).splitOn '/' := by
        rw [← hrest, ← hseg, segments, String.toList_ofList]
      rw [if_neg, Option.bind_eq_none_iff]
      · intro below hslash
        rw [stripPrefix_eq_some] at hslash
        subst hslash
        rw [show ("/" ++ below).toList = '/' :: below.toList by simp,
          List.splitOn_append_cons_self] at hsplit
        exact absurd (List.cons.inj hsplit).1 hmnt
      · rintro rfl
        exact absurd (List.cons.inj hsplit).1 hmnt

/-! ## The table -/

/-- The table of a home in its normal form is the table in its normal form. -/
theorem guardedLocations_normalize (hroot : names home ≠ []) :
    guardedLocations (normalizeLexical home) =
      (guardedLocations home).map fun g => { g with location := normalizeLexical g.location } := by
  have hsystem : guardedSystem.map (fun g => { g with location := normalizeLexical g.location }) =
      guardedSystem := by decide
  have hrel {rel : String} (h : Clean [rel.toList]) :
      normalizeLexical (home ++ "/" ++ rel) = normalizeLexical home ++ "/" ++ rel := by
    have hnames : names rel = [rel.toList] := by
      obtain ⟨⟨hslash, hne, hdot⟩, -⟩ := List.forall_mem_cons.mp h
      simp [names, segments, List.splitOn_eq_singleton hslash, idle, hne, hdot]
    rw [normalizeLexical_eq, normalizeLexical_eq, names_append_slash, hnames, spelled_snoc hroot,
      String.ofList_toList]
  simp only [guardedLocations, List.map_append, hsystem, List.map_cons, guardedHome, List.map_nil]
  repeat rw [hrel (by decide)]

theorem names_guarded (hroot : names home ≠ []) (hg : g ∈ guardedLocations home) :
    names g.location ≠ [] := by
  rcases List.mem_append.mp hg with hg | hg
  · have hsystem : ∀ g ∈ guardedSystem, names g.location ≠ [] := by decide
    exact hsystem g hg
  · rcases List.mem_cons.mp hg with rfl | hg
    · exact hroot
    · obtain ⟨⟨rel, flavor, reason⟩, -, rfl⟩ := List.mem_map.mp hg
      simp [names_append_slash, hroot]

/-- **What an extra path must be**: no `..`, below one drive if it is under
`/mnt`, neither a guarded location nor above one, and not below one that is
guarded as a subtree. -/
structure Outside (home path : Path) : Prop where
  plain : ['.', '.'] ∉ names path
  drive : OnDrive (names path)
  above : ∀ g ∈ guardedLocations home, ¬ Covers path g.location
  below : ∀ g ∈ guardedLocations home, g.flavor = .subtree → ¬ Covers g.location path

/-- A row of the table refuses what lies above it, and what lies below if it
is a subtree. -/
theorem matches_normalized (hg : names g.location ≠ []) (hp : names path ≠ []) :
    GuardedLocation.matches { g with location := normalizeLexical g.location }
        (normalizeLexical path) = true ↔
      Covers path g.location ∨ g.flavor = .subtree ∧ Covers g.location path := by
  have habove := isPrefixPath_spelled (names_clean path) (names_clean g.location) hp
  have hbelow := isPrefixPath_spelled (names_clean g.location) (names_clean path) hg
  simp only [GuardedLocation.matches, normalizeLexical_eq]
  cases g.flavor with
  | subtree => simp [habove, hbelow, Covers, or_comm]
  | exact => simp [habove, Covers]

/-- **The guard accepts exactly the paths outside.** -/
theorem guardExtraPath_none (hroot : names home ≠ []) :
    guardExtraPath path home = none ↔ Outside home path := by
  by_cases hdot : hasDotdotComponent path = true
  · refine iff_of_false (by simp [guardExtraPath, hdot]) fun h => ?_
    exact h.plain (hasDotdotComponent_iff.mp hdot)
  by_cases hnil : names path = []
  · refine iff_of_false ?_ fun h => ?_
    · simp [guardExtraPath, hdot, normalizeLexical_eq path, hnil, spelled]
    · -- the root is above every location
      have hrow : (⟨"/init", .subtree, interopReason⟩ : GuardedLocation) ∈ guardedLocations home :=
        List.mem_append_left _ (by decide)
      exact h.above _ hrow (by simp [Covers, hnil])
  have hslash : normalizeLexical path ≠ "/" := by
    rw [normalizeLexical_eq]
    exact fun h => hnil (spelled_inj (names_clean path) (by simp [Clean]) h)
  have htable : (guardedLocations (normalizeLexical home)).find?
      (·.matches (normalizeLexical path)) = none ↔
        ∀ g ∈ guardedLocations home,
          ¬ (Covers path g.location ∨ g.flavor = .subtree ∧ Covers g.location path) := by
    rw [guardedLocations_normalize hroot, List.find?_eq_none, List.forall_mem_map]
    exact forall₂_congr fun g hg => not_congr (matches_normalized (names_guarded hroot hg) hnil)
  have hmnt : guardMnt (normalizeLexical path) = none ↔ OnDrive (names path) := by
    rw [normalizeLexical_eq, guardMnt_none (names_clean path)]
  have hguard : guardExtraPath path home = none ↔
      guardMnt (normalizeLexical path) = none ∧
        (guardedLocations (normalizeLexical home)).find? (·.matches (normalizeLexical path)) =
          none := by
    simp only [guardExtraPath, hdot, hslash, if_false, Bool.false_eq_true]
    cases guardMnt (normalizeLexical path) with
    | some reason => simp
    | none => simp
  rw [hguard, hmnt, htable]
  constructor
  · rintro ⟨hdrive, hrows⟩
    refine ⟨fun h => hdot (hasDotdotComponent_iff.mpr h), hdrive, fun g hg h => ?_,
      fun g hg hsub h => ?_⟩
    · exact hrows g hg (.inl h)
    · exact hrows g hg (.inr ⟨hsub, h⟩)
  · intro h
    refine ⟨h.drive, fun g hg => ?_⟩
    rintro (habove | ⟨hsub, hbelow⟩)
    · exact h.above g hg habove
    · exact h.below g hg hsub hbelow

/-! ## What the merge accepts -/

theorem forM_ok {ε α : Type} {f : α → Except ε Unit} {xs : List α} (h : xs.forM f = .ok ()) :
    ∀ x ∈ xs, f x = .ok () := by
  induction xs with
  | nil => simp
  | cons x xs ih =>
    have h : (do f x; xs.forM f) = .ok () := h
    cases hx : f x with
    | error e => simp [hx, bind, Except.bind] at h
    | ok u =>
      rw [hx] at h
      exact List.forall_mem_cons.mpr ⟨hx, ih h⟩

/-- **What an accepted profile resolves to**: its own extra paths, every one
of them absolute and passed by the guard. -/
theorem resolve_ok {defaults set : CapabilitySet} {profile : SandboxProfile}
    (h : resolve defaults profile home = .ok set) :
    set.extraPaths = profile.extraPaths ∧ set.projectRw = true ∧
      ∀ e ∈ set.extraPaths, isAbsolute e.path = true ∧ guardExtraPath e.path home = none := by
  unfold resolve at h
  split at h
  · simp [throw, throwThe, MonadExceptOf.throw] at h
  · cases hcheck : profile.extraPaths.forM (checkExtraPath home) with
    | error e => simp [hcheck, bind, Except.bind] at h
    | ok u =>
      rw [hcheck] at h
      obtain rfl := Except.ok.inj h
      refine ⟨rfl, rfl, fun e he => ?_⟩
      have hone := forM_ok hcheck e he
      unfold checkExtraPath at hone
      split at hone
      · simp at hone
      · rename_i habs
        split at hone
        · simp at hone
        · rename_i hguard
          exact ⟨by simpa using habs, hguard⟩

end Sandbox
end Willie
