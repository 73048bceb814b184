import Willie.Projects.Sync

/-!
# Projects — sync and update only move forward

A sync sets the Windows branch to the workspace's commit, which its tip leads
to; an update takes the workspace to a commit that its own and the fetched
tip lead to. A job that fails leaves both sides as a person alone would have,
and no job loses a commit of either side.

The rules of the single steps say exactly how one succeeds (`ends_run` and
its kin). That a job keeps its hands off is put together along its program:
every step but the last is `Untouched`, whatever comes of it, and the last
one where it fails.
-/

namespace Willie
namespace Projects

open Git Traced

section Moves

variable {κ : Type} {t t' : List (Happening κ)} {ms : List (Move κ)}

@[simp] theorem moves_nil : moves ([] : List (Happening κ)) = [] := rfl

@[simp] theorem moves_append : moves (t ++ t') = moves t ++ moves t' := List.filterMap_append

@[simp] theorem moves_moved : moves (ms.map .moved) = ms := by
  simp [moves, List.filterMap_map]

@[simp] theorem moves_edited {e : Edit} : moves ([.edited e] : List (Happening κ)) = [] := rfl

end Moves

variable {κ : Type} [DecidableEq κ] {D : Dag κ} {m : Meanwhile κ} {b : Branch}
  {r r' : Repos κ} {t t' : List (Happening κ)} {s : Step} {kind : JobKind} {n : ℕ} {x : Bool}
  {refusal : Refusal}

/-! ## How a step succeeds -/

@[simp] theorem ends_meantime {u : Unit} :
    (meantime D m s).Ends r t u r' ↔
      (m.others s).map .moved = t ∧ r.play D (m.others s) = r' := by
  simp [Ends, meantime]

@[simp] theorem ends_checkCancelled {u : Unit} :
    (checkCancelled D m kind n).Ends r t u r' ↔ m.cancelled n = false ∧
      (m.others (.check n)).map .moved = t ∧ r.play D (m.others (.check n)) = r' := by
  unfold checkCancelled
  cases m.cancelled n <;> simp

@[simp] theorem ends_run {α : Type} {f : Repos κ → Option (α × Repos κ)} {a : α} :
    (run D m s f).Ends r t a r' ↔ m.fails s = false ∧
      (m.others s).map .moved = t ∧ f (r.play D (m.others s)) = some (a, r') := by
  unfold run
  simp only [ends_bind, ends_meantime, ends_act]
  cases hfails : m.fails s
  · cases hf : f (r.play D (m.others s)) with
    | none => simp [hf]
    | some x => simp [hf, Prod.ext_iff, and_comm]
  · simp

@[simp] theorem ends_isRepo :
    (isRepo D m).Ends r t x r' ↔ (m.others .isRepo).map .moved = t ∧
      r.windows.isRepo = x ∧ r.play D (m.others .isRepo) = r' := by
  simp only [isRepo, ends_bind, ends_meantime, ends_ask]
  constructor
  · rintro ⟨_, _, _, _, ⟨rfl, rfl⟩, ⟨rfl, rfl, rfl⟩, rfl⟩
    exact ⟨(List.append_nil _).symm, isRepo_play.symm, rfl⟩
  · rintro ⟨rfl, rfl, rfl⟩
    exact ⟨(), _, _, _, ⟨rfl, rfl⟩, ⟨rfl, isRepo_play, rfl⟩, List.append_nil _⟩

omit [DecidableEq κ] in
@[simp] theorem ends_ensure {u : Unit} :
    (ensure x refusal : Run κ Unit).Ends r t u r' ↔ x = true ∧ [] = t ∧ r = r' := by
  cases x <;> simp [ensure]

/-! ## Hands off -/

/-- The moves on the way are the person's. -/
def Others (m : Meanwhile κ) (t : List (Happening κ)) : Prop :=
  ∀ x ∈ moves t, ∃ s, x ∈ m.others s

omit [DecidableEq κ] in
theorem others_append (h : Others m t) (h' : Others m t') : Others m (t ++ t') := by
  intro x hx
  rw [moves_append] at hx
  exact (List.mem_append.mp hx).elim (h x) (h' x)

omit [DecidableEq κ] in
theorem others_nil : Others m [] := nofun

/-- Only they have happened. -/
structure Idle (D : Dag κ) (m : Meanwhile κ) (r : Repos κ) (t : List (Happening κ))
    (r' : Repos κ) : Prop where
  repos : r' = r.play D (moves t)
  others : Others m t

/-- Windows is as they make it. -/
structure Spared (D : Dag κ) (m : Meanwhile κ) (r : Repos κ) (t : List (Happening κ))
    (r' : Repos κ) : Prop where
  windows : r'.windows = r.windows.play D (moves t)
  others : Others m t

/-- Windows is as they make it, and the workspace is on the same commit. -/
structure Untouched (D : Dag κ) (m : Meanwhile κ) (r : Repos κ) (t : List (Happening κ))
    (r' : Repos κ) : Prop extends Spared D m r t r' where
  head : r'.workspace.head = r.workspace.head

/-- Both sides have moved forward. -/
structure Ahead (D : Dag κ) (r : Repos κ) (_ : List (Happening κ)) (r' : Repos κ) : Prop where
  windows : D.Forward r.windows.branches r'.windows.branches
  head : D.Ancestor r.workspace.head r'.workspace.head

theorem chains_idle : Chains (Idle D m) where
  still _ := ⟨rfl, others_nil⟩
  next h h' :=
    ⟨by rw [h'.repos, h.repos, moves_append, play_play], others_append h.others h'.others⟩

theorem chains_spared : Chains (Spared D m) where
  still _ := ⟨rfl, others_nil⟩
  next h h' :=
    ⟨by rw [h'.windows, h.windows, moves_append, play_append], others_append h.others h'.others⟩

theorem chains_untouched : Chains (Untouched D m) where
  still r := ⟨chains_spared.still r, rfl⟩
  next h h' := ⟨chains_spared.next h.toSpared h'.toSpared, h'.head.trans h.head⟩

omit [DecidableEq κ] in
theorem chains_ahead : Chains (Ahead D) where
  still _ := ⟨.refl, .refl⟩
  next h h' := ⟨h.windows.trans h'.windows, h.head.trans h'.head⟩

theorem Idle.untouched (h : Idle D m r t r') : Untouched D m r t r' :=
  ⟨⟨by rw [h.repos, play_windows], h.others⟩, by rw [h.repos, play_workspace]⟩

theorem Untouched.ahead (h : Untouched D m r t r') : Ahead D r t r' :=
  ⟨h.windows ▸ forward_play, h.head ▸ .refl⟩

theorem goes_meantime : (meantime D m s).Goes (Idle D m) := by
  intro r
  refine ⟨?_, fun x hx => ⟨s, ?_⟩⟩
  · show r.play D (m.others s) = _
    rw [meantime, moves_moved]
  · rwa [meantime, moves_moved] at hx

theorem goes_checkCancelled : (checkCancelled D m kind n).Goes (Idle D m) := by
  refine goes_bind chains_idle goes_meantime fun _ => ?_
  split
  · refine goes_bind chains_idle (goes_tell fun r => ⟨rfl, others_nil⟩) fun _ => ?_
    exact goes_throw chains_idle
  · exact goes_pure chains_idle

theorem goes_isRepo : (isRepo D m).Goes (Idle D m) :=
  goes_bind chains_idle goes_meantime fun _ => goes_ask chains_idle

theorem goes_isAncestor : (isAncestor D m b x).Goes (Idle D m) :=
  goes_bind chains_idle goes_meantime fun _ => goes_ask chains_idle

theorem goes_isRelated : (isRelated D m b).Goes (Idle D m) := by
  refine goes_bind chains_idle goes_isAncestor fun _ => ?_
  split
  · exact goes_pure chains_idle
  · exact goes_isAncestor

theorem goes_ensure : (ensure x refusal : Run κ Unit).Goes (Idle D m) := by
  cases x
  · exact goes_throw chains_idle
  · exact goes_pure chains_idle

section Commands

variable {α : Type} {f : Repos κ → Option (α × Repos κ)} {o : Option α} {a a' : α}

/-- A command goes where its effect does; one that fails has none. -/
theorem goes_run {R : Repos κ → List (Happening κ) → Repos κ → Prop} (hR : Chains R)
    (hidle : ∀ r t r', Idle D m r t r' → R r t r')
    (hf : ∀ r a r', f r = some (a, r') → R r [] r') : (run D m s f).Goes R := by
  refine goes_bind hR (goes_meantime.mono hidle) fun _ => goes_act fun r => ?_
  split
  · rename_i a r' hr
    split at hr
    · cases hr
    · exact hf r a r' hr
  · exact hR.still r

theorem fails_run : (run D m s f).Fails (Idle D m) := by
  refine fails_bind chains_idle goes_meantime fun _ r e he => ?_
  simp only [Refuses, act] at he ⊢
  split at he
  · cases he
  · exact chains_idle.still r

omit [DecidableEq κ] in
/-- A command that only looks prints what it saw. -/
@[simp] theorem look_eq_some : o.map (·, r) = some (a, r') ↔ o = some a ∧ r = r' := by
  cases o <;> simp

omit [DecidableEq κ] in
/-- A command that is run for its effect prints what nobody reads. -/
@[simp] theorem effect_eq_some {o : Option (Repos κ)} :
    o.map (a, ·) = some (a', r') ↔ a = a' ∧ o = some r' := by
  cases o <;> simp [and_comm]

theorem goes_look {g : Repos κ → Option α} :
    (run D m s fun r => (g r).map (·, r)).Goes (Idle D m) :=
  goes_run chains_idle (fun _ _ _ h => h) fun r a r' h => by
    obtain ⟨-, rfl⟩ := look_eq_some.mp h
    exact chains_idle.still r

end Commands

theorem goes_status : (run D m .status fun r => some (r.windows.isClean, r)).Goes (Idle D m) :=
  goes_look (g := fun r => some r.windows.isClean)

theorem goes_fetch : (run D m .fetch fun r => r.fetch.map ((), ·)).Goes (Untouched D m) :=
  goes_run chains_untouched (fun _ _ _ h => h.untouched) fun r a r' h => by
    obtain ⟨hwindows, hhead, -⟩ := fetch_spec (effect_eq_some.mp h).2
    exact ⟨⟨hwindows, others_nil⟩, hhead⟩

theorem goes_push : (run D m .push fun r => (r.push D b).map (m.prints .push, ·)).Goes (Ahead D) :=
  goes_run chains_ahead (fun _ _ _ h => h.untouched.ahead) fun r a r' h => by
    obtain ⟨hreceive, hspace⟩ := push_spec (effect_eq_some.mp h).2
    exact ⟨forward_receive hreceive, hspace ▸ .refl⟩

/-! ## The jobs -/

/-- The checks of the Windows checkout. -/
def seen (D : Dag κ) (m : Meanwhile κ) (b : Branch) : Run κ Unit := do
  checkCancelled D m .syncToWindows 0
  ensure (← isRepo D m) sourceMissing
  ensure (← run D m .status fun r => some (r.windows.isClean, r)) windowsTreeDirty
  let current ← run D m .revParse fun r => r.windows.abbrevRef.map (·, r)
  ensure (current = b.name) (windowsBranchMismatch current b.name)

/-- The comparison with what the checkout has. -/
def compared (D : Dag κ) (m : Meanwhile κ) (b : Branch) : Run κ Unit := do
  checkCancelled D m .syncToWindows 1
  run D m .fetch fun r => r.fetch.map ((), ·)
  let ahead ← run D m .revList fun r => (r.revList D b).map (·, r)
  ensure (readCount ahead = 0) windowsDiverged
  checkCancelled D m .syncToWindows 2

theorem runSync_eq : runSync D m b = (do
    seen D m b
    compared D m b
    run D m .push fun r => (r.push D b).map (m.prints .push, ·)) := by
  simp only [runSync, seen, compared, bind_assoc]

/-- The fetch of an update. -/
def fetched (D : Dag κ) (m : Meanwhile κ) : Run κ Unit := do
  checkCancelled D m .updateFromWindows 0
  ensure (← isRepo D m) sourceMissing
  run D m .fetch fun r => r.fetch.map ((), ·)

/-- The comparison of what it fetched. -/
def matched (D : Dag κ) (m : Meanwhile κ) (b : Branch) : Run κ Unit := do
  checkCancelled D m .updateFromWindows 1
  ensure (← isRelated D m b) workspaceDiverged

theorem runUpdate_eq : runUpdate D m b = (do
    fetched D m
    matched D m b
    run D m .merge fun r => (r.mergeFfOnly D b).map (m.prints .merge, ·)) := by
  simp only [runUpdate, fetched, matched, bind_assoc]

theorem goes_seen : (seen D m b).Goes (Idle D m) :=
  goes_bind chains_idle goes_checkCancelled fun _ =>
  goes_bind chains_idle goes_isRepo fun _ =>
  goes_bind chains_idle goes_ensure fun _ =>
  goes_bind chains_idle goes_status fun _ =>
  goes_bind chains_idle goes_ensure fun _ =>
  goes_bind chains_idle goes_look fun _ => goes_ensure

theorem goes_compared : (compared D m b).Goes (Untouched D m) :=
  have idle : ∀ r t r', Idle D m r t r' → Untouched D m r t r' := fun _ _ _ h => h.untouched
  goes_bind chains_untouched (goes_checkCancelled.mono idle) fun _ =>
  goes_bind chains_untouched goes_fetch fun _ =>
  goes_bind chains_untouched (goes_look.mono idle) fun _ =>
  goes_bind chains_untouched (goes_ensure.mono idle) fun _ => goes_checkCancelled.mono idle

theorem goes_fetched : (fetched D m).Goes (Untouched D m) :=
  have idle : ∀ r t r', Idle D m r t r' → Untouched D m r t r' := fun _ _ _ h => h.untouched
  goes_bind chains_untouched (goes_checkCancelled.mono idle) fun _ =>
  goes_bind chains_untouched (goes_isRepo.mono idle) fun _ =>
  goes_bind chains_untouched (goes_ensure.mono idle) fun _ => goes_fetch

theorem goes_matched : (matched D m b).Goes (Idle D m) :=
  goes_bind chains_idle goes_checkCancelled fun _ =>
  goes_bind chains_idle goes_isRelated fun _ => goes_ensure

/-- **A sync that fails has done nothing.** -/
theorem fails_runSync : (runSync D m b).Fails (Untouched D m) := by
  rw [runSync_eq]
  refine fails_bind chains_untouched (goes_seen.mono fun _ _ _ h => h.untouched) fun _ => ?_
  exact fails_bind chains_untouched goes_compared fun _ r e he => (fails_run r e he).untouched

/-- **An update that fails has only fetched.** -/
theorem fails_runUpdate : (runUpdate D m b).Fails (Untouched D m) := by
  rw [runUpdate_eq]
  refine fails_bind chains_untouched goes_fetched fun _ => ?_
  refine fails_bind chains_untouched (goes_matched.mono fun _ _ _ h => h.untouched) fun _ => ?_
  exact fun r e he => (fails_run r e he).untouched

/-- What an update keeps is what its merge keeps. -/
theorem goes_runUpdate {R : Repos κ → List (Happening κ) → Repos κ → Prop} (hR : Chains R)
    (hU : ∀ r t r', Untouched D m r t r' → R r t r')
    (hmerge : ∀ r r', r.mergeFfOnly D b = some r' → R r [] r') : (runUpdate D m b).Goes R := by
  rw [runUpdate_eq]
  refine goes_bind hR (goes_fetched.mono hU) fun _ => ?_
  refine goes_bind hR (goes_matched.mono fun r t r' h => hU r t r' h.untouched) fun _ => ?_
  exact goes_run hR (fun r t r' h => hU r t r' h.untouched) fun r _ r' h =>
    hmerge r r' (effect_eq_some.mp h).2

theorem spared_runUpdate : (runUpdate D m b).Goes (Spared D m) :=
  goes_runUpdate chains_spared (fun _ _ _ h => h.toSpared) fun _ _ h =>
    ⟨(mergeFfOnly_spec h).1, others_nil⟩

/-- **Both jobs only go forward.** -/
theorem ahead_runUpdate : (runUpdate D m b).Goes (Ahead D) := by
  refine goes_runUpdate chains_ahead (fun _ _ _ h => h.ahead) fun r r' h => ?_
  obtain ⟨hwindows, -, hhead, -⟩ := mergeFfOnly_spec h
  exact ⟨hwindows ▸ .refl, hhead⟩

theorem ahead_runSync : (runSync D m b).Goes (Ahead D) := by
  rw [runSync_eq]
  refine goes_bind chains_ahead (goes_seen.mono fun _ _ _ h => h.untouched.ahead) fun _ => ?_
  exact goes_bind chains_ahead (goes_compared.mono fun _ _ _ h => h.ahead) fun _ => goes_push

end Projects
end Willie
