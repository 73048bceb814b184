import Willie.Projects.Forward

/-!
# Projects — what the two jobs bring about

Where a job succeeds each of its steps did, and what they answered says what
the last one found: a sync's push sets the branch the checkout was seen on,
an update's merge reaches the tip the fetch brought. Where nobody writes, an
update leaves a sync nothing to refuse.
-/

namespace Willie
namespace Projects

open Git Traced

variable {κ : Type} [DecidableEq κ] {D : Dag κ} {m m' : Meanwhile κ} {b : Branch} {tip : κ}
  {r r' : Repos κ} {t : List (Happening κ)} {log : String} {n : ℕ} {u : Unit} {x y : Bool}

/-! ## A sync that succeeds -/

/-- The checkout has been seen on the branch, which has commits. -/
theorem seen_ends (h : (seen D m b).Ends r t u r') : ∃ tip, r'.windows.branches b = some tip := by
  obtain ⟨_, _, _, _, -, h, -⟩ := ends_bind.mp h
  obtain ⟨_, _, _, _, -, h, -⟩ := ends_bind.mp h
  obtain ⟨_, _, _, _, -, h, -⟩ := ends_bind.mp h
  obtain ⟨_, _, _, _, -, h, -⟩ := ends_bind.mp h
  obtain ⟨_, _, _, _, -, h, -⟩ := ends_bind.mp h
  obtain ⟨current, r₁, _, _, hparse, h, -⟩ := ends_bind.mp h
  obtain ⟨hcurrent, -, rfl⟩ := ends_ensure.mp h
  obtain rfl := of_decide_eq_true hcurrent
  obtain ⟨-, -, hlook⟩ := ends_run.mp hparse
  obtain ⟨habbrev, rfl⟩ := look_eq_some.mp hlook
  exact (abbrevRef_eq.mp habbrev).2

/-- **What a sync pushes onto**: the branch the checkout was seen on. -/
theorem runSync_ends (h : (runSync D m b).Ends r t log r') :
    (∃ tip, (r.windows.play D (moves t)).branches b = some tip) ∧
      (r.windows.play D (moves t)).receive D b r.workspace.head = some r'.windows ∧
      r'.workspace.head = r.workspace.head := by
  rw [runSync_eq] at h
  obtain ⟨_, r₁, t₁, _, hseen, hrest, rfl⟩ := ends_bind.mp h
  obtain ⟨_, r₂, t₂, t₃, hcompared, hlast, rfl⟩ := ends_bind.mp hrest
  obtain ⟨-, rfl, heffect⟩ := ends_run.mp hlast
  obtain ⟨hreceive, hspace⟩ := push_spec (effect_eq_some.mp heffect).2
  have hidle := (goes_seen.of_ends hseen).untouched
  have huntouched := chains_untouched.next hidle (goes_compared.of_ends hcompared)
  obtain ⟨tip, htip⟩ := seen_ends hseen
  have hwindows : (r₂.play D (m.others .push)).windows =
      r.windows.play D (moves (t₁ ++ (t₂ ++ (m.others .push).map .moved))) := by
    rw [play_windows, huntouched.windows, ← play_append, ← List.append_assoc]
    simp only [moves_append, moves_moved]
  rw [hwindows, play_workspace, huntouched.head] at hreceive
  refine ⟨?_, hreceive, by rw [hspace, play_workspace, huntouched.head]⟩
  rw [hidle.windows] at htip
  rw [moves_append]
  exact tip_play htip _

/-! ## An update that succeeds -/

/-- The person's moves by the time an update has fetched. -/
def Meanwhile.untilFetch (m : Meanwhile κ) : List (Move κ) :=
  m.others (.check 0) ++ m.others .isRepo ++ m.others .fetch

theorem fetched_ends : (fetched D m).Ends r t u r' ↔
    m.cancelled 0 = false ∧ r.windows.isRepo = true ∧ m.fails .fetch = false ∧
      m.untilFetch.map .moved = t ∧ (r.play D m.untilFetch).fetch = some r' := by
  simp only [fetched, Meanwhile.untilFetch, List.map_append, List.append_assoc]
  simp only [ends_bind, ends_checkCancelled, ends_isRepo, ends_ensure, ends_run, effect_eq_some]
  constructor
  · rintro ⟨_, _, _, _, ⟨hcancelled, rfl, rfl⟩, ⟨_, _, _, _, ⟨rfl, hrepo, rfl⟩,
      ⟨_, _, _, _, ⟨rfl, rfl, rfl⟩, ⟨hfails, rfl, -, hfetch⟩, rfl⟩, rfl⟩, rfl⟩
    rw [play_windows, isRepo_play] at hrepo
    rw [play_play, play_play] at hfetch
    exact ⟨hcancelled, hrepo, hfails, rfl, hfetch⟩
  · rintro ⟨hcancelled, hrepo, hfails, rfl, hfetch⟩
    simp [hcancelled, hrepo, hfails, hfetch]

/-- The comparison has found the tips on one line, and nothing of the
workspace has changed. -/
theorem matched_workspace (h : (matched D m b).Ends r t u r') : r'.workspace = r.workspace := by
  rw [(goes_matched.of_ends h).repos, play_workspace]

/-- **What an update reaches**: what the workspace was on, and what the
checkout's branch was on when it fetched. -/
theorem runUpdate_ends (h : (runUpdate D m b).Ends r t log r') :
    m.cancelled 0 = false ∧ r.windows.isRepo = true ∧
      D.Ancestor r.workspace.head r'.workspace.head ∧
      ∀ tip, (r.windows.play D m.untilFetch).branches b = some tip →
        D.Ancestor tip r'.workspace.head := by
  rw [runUpdate_eq] at h
  obtain ⟨_, r₁, _, _, hfetched, hrest, -⟩ := ends_bind.mp h
  obtain ⟨_, r₂, _, _, hmatched, hlast, -⟩ := ends_bind.mp hrest
  obtain ⟨hcancelled, hrepo, -, -, hfetch⟩ := fetched_ends.mp hfetched
  obtain ⟨-, -, heffect⟩ := ends_run.mp hlast
  obtain ⟨-, -, hhead, tip', htip', hle⟩ := mergeFfOnly_spec (effect_eq_some.mp heffect).2
  obtain ⟨-, hsame, htracks⟩ := fetch_spec hfetch
  rw [play_workspace, matched_workspace hmatched] at hhead htip'
  refine ⟨hcancelled, hrepo, by rwa [hsame, play_workspace] at hhead, fun tip htip => ?_⟩
  obtain rfl := Option.some.inj (htip'.symm.trans (htracks b tip htip))
  exact hle

/-! ## An update, then a sync -/

/-- Nobody writes, nobody cancels, nothing fails. -/
structure Meanwhile.Quiet (m : Meanwhile κ) : Prop where
  others : ∀ s, m.others s = []
  cancelled : ∀ n, m.cancelled n = false
  fails : ∀ s, m.fails s = false

/-- **Nothing is refused** where the checkout is clean, on the branch, and
behind the workspace. -/
theorem runSync_of_quiet (hm : m.Quiet) (hrepo : r.windows.isRepo = true)
    (hclean : r.windows.isClean = true) (hon : r.windows.head = .branch b)
    (htip : r.windows.branches b = some tip) (hle : D.Ancestor tip r.workspace.head) :
    ∃ t log r', (runSync D m b).Ends r t log r' := by
  have hname : r.windows.abbrevRef = some b.name := abbrevRef_eq.mpr ⟨hon, tip, htip⟩
  obtain ⟨r₁, hfetch⟩ : ∃ r₁, r.fetch = some r₁ := by simp [Repos.fetch, hrepo]
  obtain ⟨hwindows, hhead, htracks⟩ := fetch_spec hfetch
  have hlist : r₁.revList D b = some 0 := by
    rw [Repos.revList, htracks b tip htip, hhead]
    exact congrArg some (Dag.length_beyond_eq_zero.mpr hle)
  obtain ⟨w, hw⟩ : ∃ w, r₁.windows.receive D b r₁.workspace.head = some w := by
    rw [hwindows, hhead]
    refine Option.isSome_iff_exists.mp (receive_isSome hon hclean fun tip' htip' => ?_)
    obtain rfl := Option.some.inj (htip.symm.trans htip')
    exact hle
  have hpush : r₁.push D b = some { r₁ with windows := w } := by
    rw [Repos.push, if_pos (by rw [hwindows, hrepo]), hw]
    rfl
  have hcheck (n : ℕ) (q : Repos κ) : (checkCancelled D m .syncToWindows n).Ends q [] () q := by
    simp [hm.cancelled, hm.others]
  have hrun {α : Type} {s : Step} {f : Repos κ → Option (α × Repos κ)} {q q' : Repos κ} {a : α}
      (hf : f q = some (a, q')) : (run D m s f).Ends q [] a q' := by
    simp [hm.fails, hm.others, hf]
  have hensure (refusal : Refusal) (q : Repos κ) : (ensure true refusal).Ends q [] () q := rfl
  have hseen : (seen D m b).Ends r [] () r :=
    (hcheck 0 r).bind <|
    (show (isRepo D m).Ends r [] true r by simp [hm.others, hrepo]).bind <|
    (hensure _ r).bind <|
    (hrun (by rw [hclean])).bind <|
    (hensure _ r).bind <|
    (hrun (by rw [hname]; rfl)).bind <|
    ends_ensure.mpr ⟨decide_eq_true rfl, rfl, rfl⟩
  have hcompared : (compared D m b).Ends r [] () r₁ :=
    (hcheck 1 r).bind <|
    (hrun (by rw [hfetch]; rfl)).bind <|
    (hrun (by rw [hlist]; rfl)).bind <|
    (hensure _ r₁).bind (hcheck 2 r₁)
  refine ⟨[], m.prints .push, { r₁ with windows := w }, ?_⟩
  rw [runSync_eq]
  exact hseen.bind (hcompared.bind (hrun (by rw [hpush]; rfl)))

/-! ## When an update finds both sides moved -/

theorem refuses_checkCancelled {kind : JobKind} {e : Refusal} :
    (checkCancelled D m kind n).Refuses r e ↔
      m.cancelled n = true ∧ interruptedOutcome kind = e := by
  have hnever (s : Step) : ¬ (meantime D m s).Refuses r e := nofun
  unfold checkCancelled
  cases m.cancelled n <;> simp [hnever]

theorem refuses_run {α : Type} {s : Step} {f : Repos κ → Option (α × Repos κ)} {e : Refusal}
    (h : (run D m s f).Refuses r e) : e = gitErrOutcome ⟨"git_failed", m.prints s⟩ := by
  rcases refuses_bind.mp h with h | ⟨_, r₁, _, -, h⟩
  · cases h
  · simp only [refuses_act] at h
    split at h
    · cases h
    · exact (Except.error.inj h).symm

omit [DecidableEq κ] in
theorem refuses_ensure {refusal e : Refusal} :
    (ensure x refusal : Run κ Unit).Refuses r e ↔ x = false ∧ refusal = e := by
  cases x <;> simp [ensure]

@[simp] theorem ends_isAncestor :
    (isAncestor D m b y).Ends r t x r' ↔ (m.others (.isAncestor y)).map .moved = t ∧
      (!m.fails (.isAncestor y) && r.isAncestor D b y) = x ∧
        r.play D (m.others (.isAncestor y)) = r' := by
  simp only [isAncestor, ends_bind, ends_meantime, ends_ask]
  constructor
  · rintro ⟨_, _, _, _, ⟨rfl, rfl⟩, ⟨rfl, rfl, rfl⟩, rfl⟩
    exact ⟨(List.append_nil _).symm, rfl, rfl⟩
  · rintro ⟨rfl, rfl, rfl⟩
    exact ⟨(), _, _, _, ⟨rfl, rfl⟩, ⟨rfl, rfl, rfl⟩, List.append_nil _⟩

theorem not_refuses_isAncestor {e : Refusal} : ¬ (isAncestor D m b y).Refuses r e := nofun

theorem not_refuses_isRelated {e : Refusal} : ¬ (isRelated D m b).Refuses r e := by
  intro h
  rcases refuses_bind.mp h with h | ⟨y, r₁, _, -, h⟩
  · exact not_refuses_isAncestor h
  · cases y
    · exact not_refuses_isAncestor h
    · exact refuses_pure.mp h

/-- What the two comparisons say, where they answer. -/
theorem isRelated_ends (hanswers : ∀ y, m.fails (.isAncestor y) = false)
    (htip : r.workspace.tracking b = some tip) (h : (isRelated D m b).Ends r t x r') :
    x = true ↔ D.Ancestor r.workspace.head tip ∨ D.Ancestor tip r.workspace.head := by
  have hanswer (q : Repos κ) (hq : q.workspace = r.workspace) :
      (q.isAncestor D b true = true ↔ D.Ancestor r.workspace.head tip) ∧
        (q.isAncestor D b false = true ↔ D.Ancestor tip r.workspace.head) := by
    simp [Repos.isAncestor, hq, htip]
  obtain ⟨y, r₁, _, _, hfirst, h, -⟩ := ends_bind.mp h
  obtain ⟨-, rfl, rfl⟩ := ends_isAncestor.mp hfirst
  rw [hanswers, Bool.not_false, Bool.true_and] at h
  split at h
  · rename_i hbehind
    obtain ⟨-, rfl, -⟩ := ends_pure.mp h
    exact iff_of_true rfl (.inl ((hanswer r rfl).1.mp hbehind))
  · rename_i hnot
    obtain ⟨-, rfl, -⟩ := ends_isAncestor.mp h
    rw [hanswers, Bool.not_false, Bool.true_and,
      (hanswer (r.play D (m.others (.isAncestor true))) rfl).2, ← (hanswer r rfl).1]
    exact ⟨.inr, fun hor => hor.resolve_left hnot⟩

/-- A fetch that fails does not speak of divergence. -/
theorem refuses_fetched {e : Refusal} (h : (fetched D m).Refuses r e) :
    e.1 ≠ workspaceDiverged.1 := by
  rcases refuses_bind.mp h with h | ⟨_, r₁, _, -, h⟩
  · obtain ⟨-, rfl⟩ := refuses_checkCancelled.mp h
    decide
  rcases refuses_bind.mp h with h | ⟨_, r₂, _, -, h⟩
  · cases h
  rcases refuses_bind.mp h with h | ⟨_, r₃, _, -, h⟩
  · obtain ⟨-, rfl⟩ := refuses_ensure.mp h
    decide
  · rw [refuses_run h]
    exact (by decide : "git_failed" ≠ workspaceDiverged.1)

/-- **Divergence is reported exactly where it is**: a job that comes to
compare reports it if neither of the two tips leads to the other. -/
theorem reports_diverged (hanswers : ∀ y, m.fails (.isAncestor y) = false)
    (htip : (r.windows.play D m.untilFetch).branches b = some tip) :
    (∃ e, (runUpdate D m b).Refuses r e ∧ e.1 = workspaceDiverged.1) ↔
      (m.cancelled 0 = false ∧ r.windows.isRepo = true ∧ m.fails .fetch = false ∧
        m.cancelled 1 = false) ∧
      ¬ D.Ancestor r.workspace.head tip ∧ ¬ D.Ancestor tip r.workspace.head := by
  rw [runUpdate_eq]
  constructor
  · rintro ⟨e, h, hcode⟩
    rcases refuses_bind.mp h with h | ⟨_, r₁, _, hfetched, h⟩
    · exact absurd hcode (refuses_fetched h)
    obtain ⟨hcancelled, hrepo, hfails, -, hfetch⟩ := fetched_ends.mp hfetched
    obtain ⟨-, hhead, htracks⟩ := fetch_spec hfetch
    have htip' : (r₁.play D (m.others (.check 1))).workspace.tracking b = some tip :=
      htracks b tip htip
    rcases refuses_bind.mp h with h | ⟨_, r₂, _, -, h⟩
    · rcases refuses_bind.mp h with h | ⟨_, r₂, _, hcheck, h⟩
      · obtain ⟨-, rfl⟩ := refuses_checkCancelled.mp h
        exact absurd hcode (by decide)
      obtain ⟨hcancelled', -, rfl⟩ := ends_checkCancelled.mp hcheck
      rcases refuses_bind.mp h with h | ⟨x, r₃, _, hrelated, h⟩
      · exact absurd h not_refuses_isRelated
      obtain ⟨rfl, -⟩ := refuses_ensure.mp h
      have hanswer := isRelated_ends hanswers htip' hrelated
      rw [play_workspace, hhead, play_workspace] at hanswer
      exact ⟨⟨hcancelled, hrepo, hfails, hcancelled'⟩,
        not_or.mp fun hor => (nomatch hanswer.mpr hor)⟩
    · rw [refuses_run h] at hcode
      exact absurd hcode (by decide : "git_failed" ≠ workspaceDiverged.1)
  · rintro ⟨⟨hcancelled, hrepo, hfails, hcancelled'⟩, hnot⟩
    obtain ⟨r₁, hfetch⟩ : ∃ r₁, (r.play D m.untilFetch).fetch = some r₁ := by
      simp [Repos.fetch, hrepo]
    obtain ⟨-, hhead, htracks⟩ := fetch_spec hfetch
    have htip' : (r₁.play D (m.others (.check 1))).workspace.tracking b = some tip :=
      htracks b tip htip
    have hfetched : (fetched D m).Ends r _ () r₁ :=
      fetched_ends.mpr ⟨hcancelled, hrepo, hfails, rfl, hfetch⟩
    have hcheck : (checkCancelled D m .updateFromWindows 1).Ends r₁ _ () _ :=
      ends_checkCancelled.mpr ⟨hcancelled', rfl, rfl⟩
    obtain ⟨_, x, _, hrelated⟩ := exists_ends (m := isRelated D m b)
      (s := r₁.play D (m.others (.check 1))) fun e => not_refuses_isRelated
    have hanswer := isRelated_ends hanswers htip' hrelated
    rw [play_workspace, hhead, play_workspace] at hanswer
    have hx : x = false := Bool.eq_false_iff.mpr fun hx => not_or.mpr hnot (hanswer.mp hx)
    refine ⟨workspaceDiverged, refuses_bind.mpr (.inr ⟨(), r₁, _, hfetched, ?_⟩), rfl⟩
    refine refuses_bind.mpr (.inl (refuses_bind.mpr (.inr ⟨(), _, _, hcheck, ?_⟩)))
    exact refuses_bind.mpr (.inr ⟨x, _, _, hrelated, refuses_ensure.mpr ⟨hx, rfl⟩⟩)

/-! ## The law -/

/-- A job, with what goes on around it. -/
inductive Attempt (κ : Type) where
  | sync (m : Meanwhile κ)
  | update (m : Meanwhile κ)

/-- The repositories after some jobs. -/
def afterAttempts (D : Dag κ) (b : Branch) (attempts : List (Attempt κ)) (r : Repos κ) : Repos κ :=
  attempts.foldl (fun r attempt =>
    match attempt with
    | .sync m => (runSync D m b r).2.2
    | .update m => (runUpdate D m b r).2.2) r

theorem ahead_afterAttempts {attempts : List (Attempt κ)} :
    Ahead D r [] (afterAttempts D b attempts r) := by
  induction attempts generalizing r with
  | nil => exact chains_ahead.still r
  | cons attempt attempts ih =>
    cases attempt with
    | sync m =>
      have hahead := chains_ahead.next (ahead_runSync (m := m) (b := b) r) ih
      exact ⟨hahead.windows, hahead.head⟩
    | update m =>
      have hahead := chains_ahead.next (ahead_runUpdate (m := m) (b := b) r) ih
      exact ⟨hahead.windows, hahead.head⟩

/-- **Sync and update only move forward.** A sync that succeeds has pushed
the workspace's commit onto a tip that leads to it; one that fails leaves
Windows to the person. An update that succeeds has gone to a commit that its
own and the fetched tip lead to; one that fails has not moved, and neither
touches Windows. No jobs lose what either side could reach. Undisturbed, a
sync after an update that succeeded succeeds, and an update that comes to
compare reports divergence exactly if neither tip leads to the other. -/
theorem sync_update_forward (D : Dag κ) (m : Meanwhile κ) (b : Branch) (r : Repos κ) :
    (∀ t log r', runSync D m b r = (t, .ok log, r') →
      (∃ tip, (r.windows.play D (moves t)).branches b = some tip ∧
        D.Ancestor tip r.workspace.head) ∧
      (r.windows.play D (moves t)).receive D b r.workspace.head = some r'.windows ∧
      r'.windows.branches b = some r.workspace.head ∧
      r'.workspace.head = r.workspace.head) ∧
    (∀ t e r', runSync D m b r = (t, .error e, r') →
      r'.windows = r.windows.play D (moves t) ∧ r'.workspace.head = r.workspace.head) ∧
    (∀ t log r', runUpdate D m b r = (t, .ok log, r') →
      D.Ancestor r.workspace.head r'.workspace.head ∧
      ∀ tip, (r.windows.play D m.untilFetch).branches b = some tip →
        D.Ancestor tip r'.workspace.head) ∧
    (∀ t e r', runUpdate D m b r = (t, .error e, r') →
      r'.workspace.head = r.workspace.head) ∧
    (∀ t result r', runUpdate D m b r = (t, result, r') →
      r'.windows = r.windows.play D (moves t)) ∧
    (∀ attempts, (∀ c, D.Holds r.windows.branches c →
        D.Holds (afterAttempts D b attempts r).windows.branches c) ∧
      ∀ c, D.Ancestor c r.workspace.head →
        D.Ancestor c (afterAttempts D b attempts r).workspace.head) ∧
    (∀ tip t log r' m', (∀ s, m.others s = []) → m'.Quiet → r.windows.isClean = true →
      r.windows.head = .branch b → r.windows.branches b = some tip →
      runUpdate D m b r = (t, .ok log, r') →
      ∃ t' log' r'', runSync D m' b r' = (t', .ok log', r'')) ∧
    (∀ tip, (∀ y, m.fails (.isAncestor y) = false) →
      (r.windows.play D m.untilFetch).branches b = some tip →
      ((∃ e, (runUpdate D m b).Refuses r e ∧ e.1 = workspaceDiverged.1) ↔
        (m.cancelled 0 = false ∧ r.windows.isRepo = true ∧ m.fails .fetch = false ∧
          m.cancelled 1 = false) ∧
        ¬ D.Ancestor r.workspace.head tip ∧ ¬ D.Ancestor tip r.workspace.head)) := by
  refine ⟨fun t log r' h => ?_, fun t e r' h => ?_, fun t log r' h => ?_, fun t e r' h => ?_,
    fun t result r' h => ?_, fun attempts => ?_,
    fun tip t log r' m' hothers hquiet hclean hon htip h => ?_,
    fun tip hanswers htip => reports_diverged hanswers htip⟩
  · obtain ⟨⟨tip, htip⟩, hreceive, hhead⟩ := runSync_ends h
    obtain ⟨hbranches, -, hbehind⟩ := receive_spec hreceive
    exact ⟨⟨tip, htip, hbehind tip htip⟩, hreceive, by rw [hbranches, Function.update_self], hhead⟩
  · have huntouched := fails_runSync.of_run h
    exact ⟨huntouched.windows, huntouched.head⟩
  · exact (runUpdate_ends h).2.2
  · exact (fails_runUpdate.of_run h).head
  · have hspared := spared_runUpdate (D := D) (m := m) (b := b) r
    rw [h] at hspared
    exact hspared.windows
  · have hahead : Ahead D r [] (afterAttempts D b attempts r) := ahead_afterAttempts
    exact ⟨fun c hc => hahead.windows.holds hc, fun c hc => hc.trans hahead.head⟩
  · obtain ⟨-, hrepo, -, hreached⟩ := runUpdate_ends h
    have hspared := spared_runUpdate (D := D) (m := m) (b := b) r
    rw [h] at hspared
    -- nobody has moved on Windows, so it is as it was
    have hmoves : moves t = [] := by
      refine List.eq_nil_iff_forall_not_mem.mpr fun x hx => ?_
      obtain ⟨s, hs⟩ := hspared.others x hx
      rw [hothers] at hs
      cases hs
    have hwindows : r'.windows = r.windows := by rw [hspared.windows, hmoves, play_nil]
    rw [Meanwhile.untilFetch, hothers, hothers, hothers] at hreached
    rw [← hwindows] at hrepo hclean hon htip
    exact runSync_of_quiet hquiet hrepo hclean hon htip (hreached tip (hwindows ▸ htip))

/-- Commits in one line. -/
def line : Dag ℕ where
  parents n := if n = 0 then [] else [n - 1]
  rank n := n
  older c p hp := by
    split at hp
    · cases hp
    · obtain rfl := List.mem_singleton.mp hp
      omega

def mainBranch : Branch := ⟨"main", by decide⟩

/-- A workspace one commit behind its checkout. -/
def behind : Repos ℕ where
  windows := ⟨true, fun b => if b = mainBranch then some 1 else none, .branch mainBranch,
    .of (some 1)⟩
  workspace := ⟨0, fun _ => none⟩

def undisturbed : Meanwhile ℕ := ⟨fun _ => [], fun _ => false, fun _ => false, fun _ => ""⟩

theorem sync_update_forward_behind :
    (runUpdate line undisturbed mainBranch behind).2.2.workspace.head = 1 ∧
      ∃ t log r', runSync line undisturbed mainBranch
        (runUpdate line undisturbed mainBranch behind).2.2 = (t, .ok log, r') :=
  ⟨by decide,
    (sync_update_forward line undisturbed mainBranch behind).2.2.2.2.2.2.1 1 [] "" _ undisturbed
      (fun _ => rfl) ⟨fun _ => rfl, fun _ => rfl, fun _ => rfl⟩ (by decide) rfl rfl rfl⟩

end Projects
end Willie
