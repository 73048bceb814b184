import Willie.App.Held

/-!
# The app — when its store converges

A reply that resolves late takes the place of a newer snapshot, an event that
nobody listened to is missed, and a fetch that fails may be the one that was
new enough. Where none of these happens the snapshot held only ever gets
newer, and with nothing left in flight a ready store holds what the daemon
holds.
-/

namespace Willie
namespace App

open Daemon (Snapshot Event Mutation Agree Unseen)
open Projects (Project)
open Runs

variable {view : Project → Project} {disk : Table Project} {d d' : Daemon.World} {x : Snapshot}
  {w w' : World} {a : Action} {gen k : ℕ} {f : Fetch}

/-! ## Each step keeps the store sound -/

theorem mem_eraseIdx_of_ne {g : Fetch} (hf : w.fetches[k]? = some f) (hg : g ∈ w.fetches)
    (hne : g ≠ f) : g ∈ w.fetches.eraseIdx k := by
  obtain ⟨i, hi⟩ := List.getElem?_of_mem hg
  refine List.mem_eraseIdx_iff_getElem?.mpr ⟨i, ?_, hi⟩
  rintro rfl
  exact hne (Option.some.inj (hi.symm.trans hf))

/-- A subscription changes, and leaves a part of what is on its way. -/
theorem Kept.onSub (h : Kept view disk w) {g : Subscription → Subscription}
    (hg : ∀ sub, (g sub).gen = sub.gen)
    (hqueue : gen = w.store.generation → ∀ sub ∈ w.sub? gen,
      (g sub).queue <:+ w.daemon.sent ∧ ((g sub).listens = false → (g sub).queue = [])) :
    Kept view disk (w.onSub gen g) := by
  refine ⟨h.serving, h.held, h.replies, h.fetchGens, fun sub hsub => ?_, fun sub hsub => ?_,
    h.refused⟩
  · obtain ⟨sub₀, hsub₀, rfl⟩ := List.mem_map.mp hsub
    have hle := h.subGens sub₀ hsub₀
    split
    · rw [hg]; exact hle
    · exact hle
  · rw [sub?_onSub hg] at hsub
    split at hsub
    · rename_i hgen
      obtain ⟨sub₀, hsub₀, rfl⟩ := Option.map_eq_some_iff.mp hsub
      exact hqueue hgen.symm sub₀ (hgen ▸ hsub₀)
    · exact h.queue sub hsub

/-- Another fetch covers whatever there is. -/
theorem Kept.load (h : Kept view disk w) : Sound view disk (w.load w.store.generation) where
  serving := h.serving
  held := h.held
  replies f hf x hx := by
    rcases List.mem_append.mp hf with hf | hf
    · exact h.replies f hf x hx
    · obtain rfl := List.mem_singleton.mp hf
      cases hx
  fetchGens f hf := by
    rcases List.mem_append.mp hf with hf | hf
    · exact h.fetchGens f hf
    · obtain rfl := List.mem_singleton.mp hf
      exact le_rfl
  subGens := h.subGens
  queue := h.queue
  refused := h.refused
  covered _ := .inr ⟨_, List.mem_append_right _ (List.mem_singleton.mpr rfl), rfl, nofun⟩

namespace Sound

/-- Who holds the store, and how to unlisten, is nothing to what it holds. -/
theorem congr (h : Sound view disk w) (hdaemon : w'.daemon = w.daemon)
    (hfetches : w'.fetches = w.fetches) (hsubs : w'.subs = w.subs)
    (hstate : w'.store.state = w.store.state)
    (hgen : w'.store.generation = w.store.generation)
    (hproblem : w'.store.subscriptionProblem = w.store.subscriptionProblem) :
    Sound view disk w' := by
  obtain ⟨⟨state, holders, generation, unlisten, problem⟩, handles, fetches, subs, daemon⟩ := w
  obtain ⟨⟨_, _, _, _, _⟩, _, _, _, _⟩ := w'
  subst hdaemon hfetches hsubs hstate hgen hproblem
  exact ⟨⟨h.serving, h.held, h.replies, h.fetchGens, h.subGens, h.queue, h.refused⟩, h.covered⟩

/-- A subscription changes; the store's own keeps its events on their way. -/
theorem onSub (h : Sound view disk w) {g : Subscription → Subscription}
    (hg : ∀ sub, (g sub).gen = sub.gen)
    (hqueue : gen = w.store.generation → ∀ sub ∈ w.sub? gen, (g sub).queue = sub.queue ∧
      ((g sub).listens = false → sub.queue = [])) : Sound view disk (w.onSub gen g) := by
  have hstore : (w.onSub gen g).store = w.store := rfl
  have hqueued : (w.onSub gen g).queued = w.queued := by
    unfold World.queued
    rw [hstore, sub?_onSub hg]
    by_cases hgen : w.store.generation = gen
    · subst hgen
      cases hsub : w.sub? w.store.generation with
      | none => simp
      | some sub => simp [(hqueue rfl sub hsub).1]
    · rw [if_neg hgen]
  have howed : (w.onSub gen g).owed = w.owed := by
    simp only [World.owed, hqueued]
    rfl
  refine ⟨h.toKept.onSub hg fun hgen sub hsub => ?_, fun hready => ?_⟩
  · obtain ⟨hsame, hnil⟩ := hqueue hgen sub hsub
    rw [hsame]
    exact ⟨(h.queue sub (hgen ▸ hsub)).1, hnil⟩
  · have hcovered := h.covered hready
    simp only [World.Covered, Fetch.Covers, howed]
    exact hcovered

/-- A fetch leaves the flight, and the store has another state. -/
theorem settle (h : Sound view disk w) (state : StoreState)
    (hheld : ∀ x ∈ state.snapshot, Tracks view x w.daemon)
    (hrefused : w.store.subscriptionProblem ≠ none → state.status ≠ .ready)
    (hcovered : state.status = .ready →
      World.Covered { w with store := w.store.set state, fetches := w.fetches.eraseIdx k }) :
    Sound view disk { w with store := w.store.set state, fetches := w.fetches.eraseIdx k } where
  serving := h.serving
  held := hheld
  replies f hf := h.replies f (List.mem_of_mem_eraseIdx hf)
  fetchGens f hf := h.fetchGens f (List.mem_of_mem_eraseIdx hf)
  subGens := h.subGens
  queue := h.queue
  refused := hrefused
  covered := hcovered

/-- A fetch of another generation leaves the flight. -/
theorem forget (h : Sound view disk w) (hf : w.fetches[k]? = some f)
    (hgen : f.gen ≠ w.store.generation) :
    Sound view disk { w with fetches := w.fetches.eraseIdx k } := by
  refine h.settle w.store.state h.held h.refused fun hready => ?_
  rcases h.covered hready with hheld | ⟨g, hg, hcovers⟩
  · exact .inl hheld
  · have hne : g ≠ f := fun heq => hgen (heq ▸ hcovers.1)
    exact .inr ⟨g, mem_eraseIdx_of_ne hf hg hne, hcovers⟩

/-- A reply that is as new as what is held takes its place. -/
theorem resolve (h : Sound view disk w) (hf : w.fetches[k]? = some f) (hx : f.reply = some x)
    (hok : Orderly w (.resolve k)) :
    Sound view disk { w with
      store := w.store.resolved f.gen x, fetches := w.fetches.eraseIdx k } := by
  have hmem : f ∈ w.fetches := List.mem_of_getElem? hf
  have htracks : Tracks view x w.daemon := h.replies f hmem x hx
  unfold Store.resolved
  split
  · exact h.forget hf ‹_›
  · rename_i hgen
    have hgen : f.gen = w.store.generation := not_not.mp hgen
    split
    · rename_i problem hproblem
      refine h.settle _ (fun y hy => ?_) (fun _ => nofun) nofun
      obtain rfl := Option.some.inj hy
      exact htracks
    · rename_i hproblem
      refine h.settle _ (fun y hy => ?_) (fun hsome => absurd hproblem hsome) fun _ => ?_
      · obtain rfl := Option.some.inj hy
        exact htracks
      · obtain ⟨hnewer, hcovered⟩ := hok f hf hgen x hx
        rcases hcovered.resolve_left (not_not.mpr hproblem) with
          ⟨held, hheld, hle⟩ | ⟨g, hg, hcovers⟩
        · exact .inl ⟨x, rfl, hle.trans (hnewer held hheld)⟩
        · by_cases heq : g = f
          · exact .inl ⟨x, rfl, hcovers.2 x (heq ▸ hx)⟩
          · exact .inr ⟨g, mem_eraseIdx_of_ne hf hg heq, hcovers⟩

/-- A rejection leaves a store that is not ready. -/
theorem reject (h : Sound view disk w) (hf : w.fetches[k]? = some f) {problem : Problem} :
    Sound view disk { w with
      store := w.store.rejected f.gen problem, fetches := w.fetches.eraseIdx k } := by
  unfold Store.rejected
  split
  · exact h.settle _ h.held (fun _ => nofun) nofun
  · exact h.forget hf ‹_›

/-- The daemon answers a fetch with what it holds. -/
theorem serve (h : Sound view disk w) (hf : w.fetches[k]? = some f)
    {flags : List (Projects.ProjectId × String × Bool)}
    (hunseen : Unseen view w.daemon (.applyPresence flags))
    (hstep : w.daemon.step (.applyPresence flags) = some d') :
    Sound view disk { w with
      daemon := d', fetches := w.fetches.set k { f with reply := some d'.snapshot } } := by
  have hd' : d' = { w.daemon with state := w.daemon.state.applyPresence flags } := by
    obtain ⟨-, hstep⟩ := Option.ite_none_right_eq_some.mp hstep
    exact (Option.some.inj hstep).symm
  have hserving : d'.serving = true := hd' ▸ h.serving.1
  have hsent : d'.sent = w.daemon.sent := by rw [hd']
  have hseq : d'.state.seq = w.daemon.state.seq := by rw [hd']; rfl
  have hmem : f ∈ w.fetches := List.mem_of_getElem? hf
  have howed : World.owed { w with
      daemon := d', fetches := w.fetches.set k { f with reply := some d'.snapshot } } =
      w.owed := by
    simp only [World.owed, hseq]
    rfl
  have hfetch (g : Fetch) (hg : g ∈ w.fetches.set k { f with reply := some d'.snapshot }) :
      g ∈ w.fetches ∨ g = { f with reply := some d'.snapshot } := List.mem_or_eq_of_mem_set hg
  refine ⟨⟨h.serving.step hstep hserving, fun x hx => (h.held x hx).step hunseen hstep,
    fun g hg x hx => ?_, fun g hg => ?_, h.subGens, fun sub hsub => ?_, h.refused⟩,
    fun hready => ?_⟩
  · rcases hfetch g hg with hg | rfl
    · exact (h.replies g hg x hx).step hunseen hstep
    · obtain rfl := Option.some.inj hx
      exact Tracks.self hserving
  · rcases hfetch g hg with hg | rfl
    · exact h.fetchGens g hg
    · exact h.fetchGens f hmem
  · rw [hsent]
    exact h.queue sub hsub
  · rcases h.covered hready with ⟨held, hheld, hle⟩ | ⟨g, hg, hcovers⟩
    · exact .inl ⟨held, hheld, howed ▸ hle⟩
    · -- the fetch that covers is another, or now has the newest reply there is
      right
      obtain ⟨i, hi⟩ := List.getElem?_of_mem hg
      by_cases hik : i = k
      · subst hik
        obtain rfl := Option.some.inj (hi.symm.trans hf)
        refine ⟨_, List.mem_set (List.getElem?_eq_some_iff.mp hf).1 _, hcovers.1, fun x hx => ?_⟩
        obtain rfl := Option.some.inj hx
        rw [howed]
        show w.owed ≤ d'.state.seq
        rw [hseq]
        exact Nat.sub_le _ _
      · refine ⟨g, List.mem_of_getElem? (i := i) ?_, hcovers.1, fun x hx => ?_⟩
        · rw [List.getElem?_set_ne (Ne.symm hik)]
          exact hi
        · rw [howed]
          exact hcovers.2 x hx

/-- The daemon tells of a change: it is on its way, or a fetch still to be
served will show it, or the store is not to be ready. -/
theorem emit (h : Sound view disk w) {m : Mutation} (hok : Orderly w (.emit m))
    (hstep : w.daemon.step (.emit m) = some d') :
    Sound view disk { w with
      daemon := d', subs := w.subs.map (Subscription.hear (m.apply w.daemon.state).2) } := by
  have hd' : d' = { w.daemon with
      state := (m.apply w.daemon.state).1
      sent := w.daemon.sent ++ [(m.apply w.daemon.state).2] } :=
    (Option.some.inj hstep).symm
  have hserving : d'.serving = true := hd' ▸ h.serving.1
  have hseq : d'.state.seq = w.daemon.state.seq + 1 := by
    rw [hd']
    exact Daemon.emit_seq.2
  have hsent : d'.sent = w.daemon.sent ++ [(m.apply w.daemon.state).2] := by rw [hd']
  have htrack {x : Snapshot} (hx : Tracks view x w.daemon) : Tracks view x d' :=
    hx.step (show Unseen view w.daemon (.emit m) from trivial) hstep
  generalize (m.apply w.daemon.state).2 = ev at hsent ⊢
  have hsub : World.sub? { w with daemon := d', subs := w.subs.map (Subscription.hear ev) }
      w.store.generation = (w.sub? w.store.generation).map (Subscription.hear ev) := sub?_hear
  refine ⟨⟨h.serving.step hstep hserving, fun x hx => htrack (h.held x hx),
    fun g hg x hx => htrack (h.replies g hg x hx), h.fetchGens, fun sub hsub => ?_,
    fun sub hsub' => ?_, h.refused⟩, fun hready => ?_⟩
  · obtain ⟨sub₀, hsub₀, rfl⟩ := List.mem_map.mp hsub
    have hle := h.subGens sub₀ hsub₀
    unfold Subscription.hear
    split <;> exact hle
  · obtain ⟨sub₀, hsub₀, rfl⟩ := Option.map_eq_some_iff.mp (hsub.symm.trans hsub')
    obtain ⟨hsuffix, hnil⟩ := h.queue sub₀ hsub₀
    rw [hsent]
    unfold Subscription.hear
    split
    · rename_i hlistens
      refine ⟨?_, fun hnot => ?_⟩
      · obtain ⟨before, hbefore⟩ := hsuffix
        exact ⟨before, by rw [← hbefore, List.append_assoc]⟩
      · have hnot : sub₀.listens = false := hnot
        rw [hlistens] at hnot
        cases hnot
    · rename_i hlistens
      rw [hnil (by simpa using hlistens)]
      exact ⟨List.nil_suffix, fun _ => rfl⟩
  · rcases hok with ⟨sub, hsub₀, hlistens⟩ | ⟨g, hg, hgen, hunserved⟩ | hnot
    · -- the event is on its way: nothing more is owed
      have howed : World.owed { w with
          daemon := d', subs := w.subs.map (Subscription.hear ev) } = w.owed := by
        have hhear : sub.hear ev = { sub with queue := sub.queue ++ [ev] } := if_pos hlistens
        have hsub₁ : w.sub? w.store.generation = some sub := hsub₀
        have hqueued : World.queued { w with
            daemon := d', subs := w.subs.map (Subscription.hear ev) } = w.queued + 1 := by
          simp only [World.queued, hsub, hsub₁, Option.map_some, hhear, List.length_append,
            List.length_singleton]
        simp only [World.owed, hqueued, hseq]
        omega
      have hcovered := h.covered hready
      simp only [World.Covered, Fetch.Covers, howed]
      exact hcovered
    · refine .inr ⟨g, hg, hgen, fun x hx => ?_⟩
      rw [hunserved] at hx
      cases hx
    · exact absurd hready hnot

/-- An event arrives: what it makes the store do covers it. -/
theorem deliver (h : Sound view disk w) {sub : Subscription} (hsub : w.sub? gen = some sub)
    {ev : Event} {queue : List Event} (hqueue : sub.queue = ev :: queue) :
    Sound view disk ((w.onSub gen fun sub => { sub with queue }).handle ev gen) := by
  have hstore : (w.onSub gen fun sub => { sub with queue }).store = w.store := rfl
  by_cases hgen : gen = w.store.generation
  · subst hgen
    obtain ⟨⟨before, hbefore⟩, hnil⟩ := h.queue sub hsub
    rw [hqueue] at hbefore
    obtain ⟨hseq, htotal⟩ := h.serving.seq_of_split hbefore.symm
    have hlistens : sub.listens = true := by
      by_contra hnot
      rw [hnil (by simpa using hnot)] at hqueue
      cases hqueue
    have hkept : Kept view disk (w.onSub w.store.generation fun sub => { sub with queue }) := by
      refine h.toKept.onSub (fun _ => rfl) fun _ sub' hsub' => ?_
      obtain rfl := Option.some.inj (hsub.symm.trans hsub')
      refine ⟨⟨before ++ [ev], by simp [← hbefore]⟩, fun hnot => ?_⟩
      have hnot : sub.listens = false := hnot
      rw [hlistens] at hnot
      cases hnot
    unfold World.handle
    rw [hstore, if_neg (not_not.mpr rfl)]
    split
    · rename_i current hready hcurrent
      split
      · exact hkept.load
      · rename_i hnext
        have hmem : ev ∈ w.daemon.sent := by simp [← hbefore]
        refine ⟨⟨h.serving, fun x hx => ?_, hkept.replies, hkept.fetchGens, hkept.subGens,
          hkept.queue, fun hsome => absurd hready (h.refused hsome)⟩, fun _ => .inl ?_⟩
        · obtain rfl := Option.some.inj hx
          exact (h.held current hcurrent).applyEvent h.serving hmem (by simpa using hnext)
        · refine ⟨_, rfl, ?_⟩
          rw [Snapshot.applyEvent_seq]
          -- the events behind this one are on their way
          have hqueued : World.queued { w.onSub w.store.generation fun sub => { sub with queue }
              with store := w.store.set ⟨.ready, some (current.applyEvent ev), none⟩ } =
              queue.length := by
            have hfind : (w.onSub w.store.generation fun sub => { sub with queue }).sub?
                w.store.generation = some { sub with queue } := by
              refine (sub?_onSub (f := fun sub => { sub with queue }) fun _ => rfl).trans ?_
              rw [if_pos rfl, hsub]
              rfl
            exact queued_eq hfind
          show w.daemon.state.seq - World.queued _ ≤ ev.seq
          rw [hqueued]
          omega
    · exact hkept.load
  · unfold World.handle
    rw [hstore, if_pos hgen]
    exact h.onSub (fun _ => rfl) fun heq => absurd heq hgen

/-- The first holder's generation starts with a fetch and a subscription. -/
theorem acquire (h : Sound view disk w) : Sound view disk w.acquire := by
  unfold World.acquire
  dsimp only
  split
  · have hfresh : w.sub? (w.store.generation + 1) = none :=
      sub?_eq_none fun sub hsub => Nat.lt_succ_of_le (h.subGens sub hsub)
    refine ⟨⟨h.serving, h.held, fun f hf x hx => ?_, fun f hf => ?_, fun sub hsub => ?_,
      fun sub hsub => ?_, fun hsome => absurd rfl hsome⟩, nofun⟩
    · rcases List.mem_append.mp hf with hf | hf
      · exact h.replies f hf x hx
      · obtain rfl := List.mem_singleton.mp hf
        cases hx
    · rcases List.mem_append.mp hf with hf | hf
      · exact Nat.le_succ_of_le (h.fetchGens f hf)
      · obtain rfl := List.mem_singleton.mp hf
        exact le_rfl
    · rcases List.mem_append.mp hsub with hsub | hsub
      · exact Nat.le_succ_of_le (h.subGens sub hsub)
      · obtain rfl := List.mem_singleton.mp hsub
        exact le_rfl
    · have hsub : (w.subs ++ ([⟨w.store.generation + 1, false, false, false, []⟩] :
          List Subscription)).find? (·.gen = w.store.generation + 1) = some sub := hsub
      rw [List.find?_append, show w.subs.find? _ = none from hfresh] at hsub
      have hsub : ⟨w.store.generation + 1, false, false, false, []⟩ = sub := by simpa using hsub
      rw [← hsub]
      exact ⟨List.nil_suffix, fun _ => rfl⟩
  · exact h.congr rfl rfl rfl rfl rfl rfl

/-- A new generation nobody holds has nothing in flight. -/
theorem abandon (h : Sound view disk w) (hdaemon : w'.daemon = w.daemon)
    (hfetches : w'.fetches = w.fetches) (hgen : w'.store.generation = w.store.generation + 1)
    (hsubs : ∀ sub ∈ w'.subs, sub.gen ≤ w.store.generation)
    (hproblem : w'.store.subscriptionProblem = none)
    (hstate : w'.store.state = ⟨.idle, none, none⟩) : Sound view disk w' := by
  have hnone : w'.sub? w'.store.generation = none :=
    sub?_eq_none fun sub hsub => by have := hsubs sub hsub; omega
  refine ⟨⟨hdaemon ▸ h.serving, fun x hx => ?_, fun f hf => ?_, fun f hf => ?_,
    fun sub hsub => ?_, fun sub hsub => ?_, fun hsome => absurd hproblem hsome⟩,
    fun hready => ?_⟩
  · rw [hstate] at hx
    cases hx
  · rw [hdaemon]
    exact h.replies f (hfetches ▸ hf)
  · rw [hgen]
    exact Nat.le_succ_of_le (h.fetchGens f (hfetches ▸ hf))
  · rw [hgen]
    exact Nat.le_succ_of_le (hsubs sub hsub)
  · rw [hnone] at hsub
    cases hsub
  · rw [hstate] at hready
    cases hready

theorem teardown (h : Sound view disk w) : Sound view disk w.teardown := by
  unfold World.teardown
  dsimp only
  split
  · refine h.abandon rfl rfl rfl (fun sub hsub => ?_) rfl rfl
    obtain ⟨sub₀, hsub₀, rfl⟩ := List.mem_map.mp hsub
    have hle := h.subGens sub₀ hsub₀
    split <;> exact hle
  · exact h.abandon rfl rfl rfl h.subGens rfl rfl

theorem release (h : Sound view disk w) (i : ℕ) : Sound view disk (w.release i) := by
  unfold World.release
  split
  · dsimp only
    split
    · have hcalled : Sound view disk { w with
          handles := w.handles.set i true
          store := { w.store with holders := w.store.holders - 1 } } :=
        h.congr rfl rfl rfl rfl rfl rfl
      exact hcalled.teardown
    · exact h.congr rfl rfl rfl rfl rfl rfl
  · exact h

/-- `onEvent` resolves: the events on their way are what they were. -/
theorem listening (h : Sound view disk w) : Sound view disk (w.listening gen) := by
  have hsettled : Sound view disk (w.onSub gen fun sub => { sub with settled := true }) :=
    h.onSub (fun _ => rfl) fun hgen sub hsub => ⟨rfl, (h.queue sub (hgen ▸ hsub)).2⟩
  unfold World.listening
  dsimp only
  split
  · exact hsettled.congr rfl rfl rfl rfl rfl rfl
  · rename_i hgen
    exact hsettled.onSub (fun _ => rfl) fun heq => absurd heq hgen

/-- `onEvent` rejects: the store is not ready in this generation. -/
theorem refuse (h : Sound view disk w) {sub : Subscription} (hsub : w.sub? gen = some sub)
    (hlive : sub.live = false) {problem : Problem} :
    Sound view disk (w.refused gen problem) := by
  have hended : Sound view disk
      (w.onSub gen fun sub => { sub with settled := true, ended := true }) := by
    refine h.onSub (fun _ => rfl) fun hgen sub' hsub' => ⟨rfl, fun _ => ?_⟩
    obtain rfl := Option.some.inj (hsub.symm.trans hsub')
    exact (h.queue sub (hgen ▸ hsub)).2 (by simp [Subscription.listens, hlive])
  unfold World.refused
  dsimp only
  split
  · exact hended
  · exact ⟨⟨hended.serving, hended.held, hended.replies, hended.fetchGens, hended.subGens,
      hended.queue, fun _ => nofun⟩, nofun⟩

theorem goLive (h : Sound view disk w) {sub : Subscription} (hsub : w.sub? gen = some sub)
    (hended : sub.ended = false) :
    Sound view disk (w.onSub gen fun sub => { sub with live := true }) := by
  refine h.onSub (fun _ => rfl) fun _ sub' hsub' => ⟨rfl, fun hnot => ?_⟩
  obtain rfl := Option.some.inj (hsub.symm.trans hsub')
  simp [Subscription.listens, hended] at hnot

/-- **One step.** -/
theorem step (h : Sound view disk w) (hok : Orderly w a) (hshown : Shown view w a)
    (hstep : w.step a = some w') : Sound view disk w' := by
  cases a with
  | acquire =>
    obtain rfl := Option.some.inj hstep
    exact h.acquire
  | release i =>
    obtain rfl := Option.some.inj hstep
    exact h.release i
  | serve k flags =>
    obtain ⟨f, hf, hstep⟩ := Option.bind_eq_some_iff.mp hstep
    obtain ⟨d', hd', hstep⟩ := Option.bind_eq_some_iff.mp hstep
    split at hstep
    · cases hstep
    · obtain rfl := Option.some.inj hstep
      exact h.serve hf hshown hd'
  | resolve k =>
    obtain ⟨f, hf, hstep⟩ := Option.bind_eq_some_iff.mp hstep
    obtain ⟨x, hx, hstep⟩ := Option.bind_eq_some_iff.mp hstep
    obtain rfl := Option.some.inj hstep
    exact h.resolve hf hx hok
  | reject k problem =>
    obtain ⟨f, hf, hstep⟩ := Option.bind_eq_some_iff.mp hstep
    obtain rfl := Option.some.inj hstep
    exact h.reject hf
  | goLive gen =>
    obtain ⟨sub, hsub, hstep⟩ := Option.bind_eq_some_iff.mp hstep
    split at hstep
    · cases hstep
    · rename_i hnot
      obtain rfl := Option.some.inj hstep
      exact h.goLive hsub (by simp_all)
  | listening gen =>
    obtain ⟨sub, -, hstep⟩ := Option.bind_eq_some_iff.mp hstep
    split at hstep
    · cases hstep
    · obtain rfl := Option.some.inj hstep
      exact h.listening
  | refused gen problem =>
    obtain ⟨sub, hsub, hstep⟩ := Option.bind_eq_some_iff.mp hstep
    split at hstep
    · cases hstep
    · rename_i hnot
      obtain rfl := Option.some.inj hstep
      exact h.refuse hsub (by simp_all)
  | deliver gen =>
    obtain ⟨sub, hsub, hstep⟩ := Option.bind_eq_some_iff.mp hstep
    split at hstep
    · cases hstep
    · rename_i ev queue hqueue
      obtain rfl := Option.some.inj hstep
      exact h.deliver hsub hqueue
  | emit m =>
    obtain rfl := Option.some.inj hstep
    exact h.emit hok rfl

end Sound

theorem sound_new (hd : Serving disk d) : Sound view disk (World.new d) where
  serving := hd
  held _ hx := nomatch hx
  replies _ hf := nomatch hf
  fetchGens _ hf := nomatch hf
  subGens _ hsub := nomatch hsub
  queue _ hsub := nomatch hsub
  refused h := absurd rfl h
  covered := nofun

/-! ## What is held only gets newer -/

/-- From a state to a later one: in one generation, the snapshot held is as
new. -/
def Newer (w w' : World) : Prop :=
  w.store.generation ≤ w'.store.generation ∧
    (w'.store.generation = w.store.generation →
      ∀ x ∈ w.store.state.snapshot, ∃ x' ∈ w'.store.state.snapshot, x.seq ≤ x'.seq)

theorem Newer.of_eq (hgen : w'.store.generation = w.store.generation)
    (hsnapshot : w'.store.state.snapshot = w.store.state.snapshot) : Newer w w' :=
  ⟨hgen.ge, fun _ x hx => ⟨x, hsnapshot ▸ hx, le_rfl⟩⟩

theorem Newer.of_lt (hgen : w.store.generation < w'.store.generation) : Newer w w' :=
  ⟨hgen.le, fun heq => absurd heq hgen.ne'⟩

theorem Newer.trans {w'' : World} (h : Newer w w') (h' : Newer w' w'') : Newer w w'' := by
  refine ⟨h.1.trans h'.1, fun heq x hx => ?_⟩
  have hle := h.1
  have hle' := h'.1
  obtain ⟨y, hy, hxy⟩ := h.2 (by omega) x hx
  obtain ⟨z, hz, hyz⟩ := h'.2 (by omega) y hy
  exact ⟨z, hz, hxy.trans hyz⟩

theorem newer_handle {ev : Event} : Newer w (w.handle ev gen) := by
  unfold World.handle
  split
  · exact .of_eq rfl rfl
  · split
    · rename_i current _ hcurrent
      split
      · exact .of_eq rfl rfl
      · rename_i hnext
        have hseq : ev.seq = current.seq + 1 := by simpa [Snapshot.needsResnapshot] using hnext
        refine ⟨le_rfl, fun _ x hx => ⟨_, rfl, ?_⟩⟩
        obtain rfl := Option.some.inj (hcurrent.symm.trans hx)
        rw [Snapshot.applyEvent_seq, hseq]
        exact Nat.le_succ _
    · exact .of_eq rfl rfl

theorem newer_teardown : Newer w w.teardown := by
  refine .of_lt ?_
  unfold World.teardown
  dsimp only
  split <;> exact Nat.lt_succ_self _

/-- **One step.** -/
theorem newer_step (hok : Orderly w a) (hstep : w.step a = some w') : Newer w w' := by
  cases a with
  | acquire =>
    obtain rfl := Option.some.inj hstep
    unfold World.acquire
    dsimp only
    split
    · exact .of_lt (Nat.lt_succ_self _)
    · exact .of_eq rfl rfl
  | release i =>
    obtain rfl := Option.some.inj hstep
    unfold World.release
    split
    · dsimp only
      split
      · have hcalled : Newer w { w with
            handles := w.handles.set i true
            store := { w.store with holders := w.store.holders - 1 } } := .of_eq rfl rfl
        exact hcalled.trans newer_teardown
      · exact .of_eq rfl rfl
    · exact .of_eq rfl rfl
  | serve k flags =>
    obtain ⟨f, -, hstep⟩ := Option.bind_eq_some_iff.mp hstep
    obtain ⟨d', -, hstep⟩ := Option.bind_eq_some_iff.mp hstep
    split at hstep
    · cases hstep
    · obtain rfl := Option.some.inj hstep
      exact .of_eq rfl rfl
  | resolve k =>
    obtain ⟨f, hf, hstep⟩ := Option.bind_eq_some_iff.mp hstep
    obtain ⟨x, hx, hstep⟩ := Option.bind_eq_some_iff.mp hstep
    obtain rfl := Option.some.inj hstep
    by_cases hgen : f.gen = w.store.generation
    · have hsame : (w.store.resolved f.gen x).generation = w.store.generation ∧
          (w.store.resolved f.gen x).state.snapshot = some x := by
        unfold Store.resolved
        rw [if_neg (not_not.mpr hgen)]
        split <;> exact ⟨rfl, rfl⟩
      exact ⟨hsame.1.ge, fun _ held hheld => ⟨x, hsame.2, (hok f hf hgen x hx).1 held hheld⟩⟩
    · have hsame : w.store.resolved f.gen x = w.store := if_pos hgen
      exact .of_eq (congrArg Store.generation hsame) (congrArg (·.state.snapshot) hsame)
  | reject k problem =>
    obtain ⟨f, -, hstep⟩ := Option.bind_eq_some_iff.mp hstep
    obtain rfl := Option.some.inj hstep
    have hsame : (w.store.rejected f.gen problem).generation = w.store.generation ∧
        (w.store.rejected f.gen problem).state.snapshot = w.store.state.snapshot := by
      unfold Store.rejected
      split <;> exact ⟨rfl, rfl⟩
    exact .of_eq hsame.1 hsame.2
  | goLive gen =>
    obtain ⟨sub, -, hstep⟩ := Option.bind_eq_some_iff.mp hstep
    split at hstep
    · cases hstep
    · obtain rfl := Option.some.inj hstep
      exact .of_eq rfl rfl
  | listening gen =>
    obtain ⟨sub, -, hstep⟩ := Option.bind_eq_some_iff.mp hstep
    split at hstep
    · cases hstep
    · obtain rfl := Option.some.inj hstep
      unfold World.listening
      dsimp only
      split <;> exact .of_eq rfl rfl
  | refused gen problem =>
    obtain ⟨sub, -, hstep⟩ := Option.bind_eq_some_iff.mp hstep
    split at hstep
    · cases hstep
    · obtain rfl := Option.some.inj hstep
      unfold World.refused
      dsimp only
      split <;> exact .of_eq rfl rfl
  | deliver gen =>
    obtain ⟨sub, -, hstep⟩ := Option.bind_eq_some_iff.mp hstep
    split at hstep
    · cases hstep
    · rename_i queue _
      obtain rfl := Option.some.inj hstep
      have harrived : Newer w (w.onSub gen fun sub => { sub with queue }) := .of_eq rfl rfl
      exact harrived.trans newer_handle
  | emit m =>
    obtain rfl := Option.some.inj hstep
    exact .of_eq rfl rfl

theorem newer_run {as : List Action} (hrun : exec World.step w as = some w')
    (hok : Guarded World.step Orderly w as) : Newer w w' :=
  exec_invariant (I := Newer w) hrun hok (.of_eq rfl rfl)
    fun _ _ _ h hok hstep => h.trans (newer_step hok hstep)

/-! ## Convergence -/

theorem sound_run {as : List Action} (hd : Serving disk d)
    (hrun : exec World.step (World.new d) as = some w)
    (hok : Guarded World.step (fun w a => Orderly w a ∧ Shown view w a) (World.new d) as) :
    Sound view disk w :=
  exec_invariant (I := Sound view disk) hrun hok (sound_new hd)
    fun _ _ _ h hok hstep => h.step hok.1 hok.2 hstep

/-- With nothing left in flight a ready store is the daemon's state. -/
theorem Sound.current (h : Sound view disk w) (hdelivered : w.Delivered)
    (hready : w.store.state.status = .ready) :
    ∃ x ∈ w.store.state.snapshot, Agree view x w.daemon.snapshot := by
  rcases h.covered hready with ⟨x, hx, hle⟩ | ⟨f, hf, hcovers⟩
  · refine ⟨x, hx, (h.held x hx).current ?_⟩
    rw [World.owed, hdelivered.2] at hle
    exact hle
  · exact absurd hcovers.1 (hdelivered.1 f hf)

theorem shown_apart (w : World) (a : Action) : Shown Daemon.apartFromPresence w a := by
  cases a with
  | serve k flags => exact Daemon.unseen_apart w.daemon (.applyPresence flags)
  | _ => trivial

/-- **The store converges where its steps are orderly**: within a generation
the snapshot it holds only gets newer, and once every reply and event in
flight has been delivered a ready store holds the daemon's current state,
apart from the flags worked out for each snapshot; and those too where no
refresh of them changed one. -/
theorem store_converges {bs : List Daemon.Action} {as : List Action}
    (hdaemon : exec Daemon.World.step (Daemon.World.boot disk) bs = some d)
    (hserving : d.serving = true) (hrun : exec World.step (World.new d) as = some w)
    (hok : Guarded World.step Orderly (World.new d) as) :
    (∀ pre mid post m m', as = pre ++ mid ++ post → exec World.step (World.new d) pre = some m →
      exec World.step m mid = some m' → m'.store.generation = m.store.generation →
        ∀ x ∈ m.store.state.snapshot, ∃ x' ∈ m'.store.state.snapshot, x.seq ≤ x'.seq) ∧
    (w.Delivered → w.store.state.status = .ready →
      ∃ x ∈ w.store.state.snapshot, Agree Daemon.apartFromPresence x w.daemon.snapshot ∧
        (Guarded World.step (Shown id) (World.new d) as → Agree id x w.daemon.snapshot)) := by
  have hd : Serving disk d := ⟨hserving, bs, hdaemon⟩
  refine ⟨?_, fun hdelivered hready => ?_⟩
  · rintro pre mid post m m' rfl hpre hmid hgen
    have hpreMid : Guarded World.step Orderly (World.new d) (pre ++ mid) := by
      have hwhole : exec World.step (World.new d) (pre ++ mid) = some m' := by
        rw [exec_append, hpre]
        exact hmid
      exact ((guarded_append hwhole).mp hok).1
    exact (newer_run hmid ((guarded_append hpre).mp hpreMid).2).2 hgen
  · have hapart : Sound Daemon.apartFromPresence disk w := sound_run hd hrun
      (hok.imp fun w a h => ⟨h, shown_apart w a⟩)
    obtain ⟨x, hx, hagree⟩ := hapart.current hdelivered hready
    refine ⟨x, hx, hagree, fun hshown => ?_⟩
    obtain ⟨y, hy, hagree'⟩ :=
      (sound_run hd hrun (hok.and hshown)).current hdelivered hready
    obtain rfl : x = y := Option.some.inj ((Option.mem_def.mp hx).symm.trans hy)
    exact hagree'

/-- A daemon that serves one project. -/
def servingDaemon : Daemon.World := ⟨⟨Daemon.onDisk, .empty, .empty, 0⟩, [], true⟩

/-- Two fetches are in flight, one for a job that began after the first was
served. The second fails; another job begins, and a third fetch is made. The
first reply comes, then the third. -/
def jobsAreTold : List Action :=
  [.acquire, .serve 0 [], .goLive 1, .listening 1,
    .emit (.upsertJob ⟨7, .add, some 1, .running, "2", none, ""⟩), .deliver 1, .serve 1 [],
    .reject 1 ⟨"daemon_timeout", "no reply", ""⟩,
    .emit (.upsertJob ⟨8, .add, some 1, .running, "3", none, ""⟩), .deliver 1, .serve 1 [],
    .resolve 0, .resolve 0]

theorem store_converges_job : ∃ w,
    exec World.step (World.new servingDaemon) jobsAreTold = some w ∧
    w.daemon.snapshot.jobs.length = 2 ∧
    ∃ x ∈ w.store.state.snapshot, Agree Daemon.apartFromPresence x w.daemon.snapshot := by
  obtain ⟨w, hrun, hready, hdelivered, hjobs⟩ :
      ∃ w, exec World.step (World.new servingDaemon) jobsAreTold = some w ∧
        w.store.state.status = .ready ∧ w.Delivered ∧ w.daemon.snapshot.jobs.length = 2 :=
    ⟨_, rfl, rfl, ⟨nofun, rfl⟩, rfl⟩
  have hdaemon : exec Daemon.World.step (Daemon.World.boot Daemon.onDisk) [.serve] =
      some servingDaemon := rfl
  have hok : Guarded World.step Orderly (World.new servingDaemon) jobsAreTold := by
    decide
  obtain ⟨x, hx, hagree, -⟩ :=
    (store_converges hdaemon rfl hrun hok).2 hdelivered hready
  exact ⟨w, hrun, hjobs, x, hx, hagree⟩

/-- The event comes before the first reply, so a second fetch is made, and its
reply comes first. -/
def secondReplyFirst : List Action :=
  [.acquire, .serve 0 [], .goLive 1, .listening 1,
    .emit (.upsertJob ⟨7, .add, some 1, .running, "2", none, ""⟩), .deliver 1, .serve 1 [],
    .resolve 1]

/-- **The late reply** takes the newer snapshot's place, and with nothing left
in flight the store is ready without the daemon's job. -/
theorem late_reply_held : ∃ m w,
    exec World.step (World.new servingDaemon) secondReplyFirst = some m ∧
    exec World.step m [.resolve 0] = some w ∧
    w.store.generation = m.store.generation ∧
    m.store.state.snapshot.map (·.seq) = some 1 ∧ w.store.state.snapshot.map (·.seq) = some 0 ∧
    w.Delivered ∧ w.store.state.status = .ready ∧
    ∀ x ∈ w.store.state.snapshot, ¬ Agree Daemon.apartFromPresence x w.daemon.snapshot := by
  refine ⟨_, _, rfl, rfl, rfl, rfl, rfl, ⟨nofun, rfl⟩, rfl, fun x hx hagree => ?_⟩
  obtain rfl := Option.some.inj hx
  cases hagree.seq

end App
end Willie
