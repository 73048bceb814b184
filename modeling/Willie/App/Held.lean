import Willie.App.Store

/-!
# The app — what its store holds

A snapshot tracks the daemon when the events sent since fold it into the
daemon's present state. Every snapshot the store holds, or is about to be
given, tracks; what may go wrong is only how old it is. The store is covered
when what it holds, or a fetch in flight, is as new as every event that is
not on its way to it any more.
-/

namespace Willie
namespace App

open Daemon (Snapshot Event Mutation Agree Unseen Continues)
open Projects (Project)
open Runs

variable {view : Project → Project} {disk : Table Project} {d d' : Daemon.World} {x : Snapshot}
  {w w' : World} {a : Action} {gen : ℕ} {f : Fetch}

/-! ## Snapshots that track the daemon -/

/-- The events sent since fold the snapshot into the daemon's present. -/
def Tracks (view : Project → Project) (x : Snapshot) (d : Daemon.World) : Prop :=
  ∃ sent, Continues view x sent d

/-- A daemon that has been run from its start and serves. -/
def Serving (disk : Table Project) (d : Daemon.World) : Prop :=
  d.serving = true ∧ ∃ bs, exec Daemon.World.step (Daemon.World.boot disk) bs = some d

theorem Serving.step {a : Daemon.Action} (h : Serving disk d) (hstep : d.step a = some d')
    (hserving : d'.serving = true) : Serving disk d' := by
  obtain ⟨-, bs, hrun⟩ := h
  exact ⟨hserving, bs ++ [a], exec_snoc.mpr ⟨d, hrun, hstep⟩⟩

/-- The event at each place is numbered by it. -/
theorem Serving.seq_of_split (h : Serving disk d) {before after : List Event} {ev : Event}
    (hsent : d.sent = before ++ ev :: after) :
    ev.seq = before.length + 1 ∧ d.state.seq = before.length + 1 + after.length := by
  obtain ⟨-, bs, hrun⟩ := h
  have hseqs := Daemon.sent_consecutive hrun
  have hlen := congrArg List.length hseqs
  rw [List.length_map, List.length_range', hsent, List.length_append, List.length_cons] at hlen
  refine ⟨?_, by omega⟩
  have hat := congrArg (fun seqs => seqs[before.length]?) hseqs
  simp only [hsent, List.map_append, List.map_cons] at hat
  rw [List.getElem?_append_right (by simp), List.getElem?_range' (by omega)] at hat
  simp only [List.length_map, Nat.sub_self, List.getElem?_cons_zero] at hat
  have := Option.some.inj hat
  omega

/-- Events with one number are one event. -/
theorem Serving.eq_of_seq (h : Serving disk d) {ev ev' : Event} (hev : ev ∈ d.sent)
    (hev' : ev' ∈ d.sent) (hseq : ev.seq = ev'.seq) : ev = ev' := by
  obtain ⟨-, bs, hrun⟩ := h
  have hnodup : (d.sent.map Event.seq).Nodup := by
    rw [Daemon.sent_consecutive hrun]
    exact List.nodup_range'
  exact List.inj_on_of_nodup_map hnodup hev hev' hseq

namespace Tracks

theorem self (hserving : d.serving = true) : Tracks view d.snapshot d :=
  ⟨d.sent, hserving, [], d.snapshot, (List.append_nil _).symm, rfl, Agree.refl⟩

theorem step {a : Daemon.Action} (h : Tracks view x d) (hunseen : Unseen view d a)
    (hstep : d.step a = some d') : Tracks view x d' := by
  obtain ⟨sent, h⟩ := h
  exact ⟨sent, h.step hunseen hstep⟩

/-- One as new as the daemon's last event is the daemon's state. -/
theorem current (h : Tracks view x d) (hseq : d.state.seq ≤ x.seq) :
    Agree view x d.snapshot := by
  obtain ⟨sent, -, later, s, -, hreplay, hagree⟩ := h
  have hs : s.seq = d.state.seq := hagree.seq
  have hlater : later = [] := by
    have := Snapshot.replay_seq hreplay
    exact List.eq_nil_of_length_eq_zero (by omega)
  rw [hlater] at hreplay
  obtain rfl := Option.some.inj hreplay
  exact hagree

/-- An event that extends it is the next it has to fold. -/
theorem applyEvent (hd : Serving disk d) (h : Tracks view x d) {ev : Event} (hev : ev ∈ d.sent)
    (hnext : x.needsResnapshot ev = false) : Tracks view (x.applyEvent ev) d := by
  obtain ⟨sent, hserving, later, s, hsent, hreplay, hagree⟩ := h
  have hseq : ev.seq = x.seq + 1 := by simpa [Snapshot.needsResnapshot] using hnext
  have hs : s.seq = d.state.seq := hagree.seq
  have hlen := Snapshot.replay_seq hreplay
  cases later with
  | nil =>
    -- it would be newer than the daemon
    obtain ⟨before, after, hsplit⟩ := List.append_of_mem hev
    obtain ⟨hat, htotal⟩ := hd.seq_of_split hsplit
    simp only [List.length_nil] at hlen
    omega
  | cons e rest =>
    simp only [Snapshot.replay] at hreplay
    split at hreplay
    · cases hreplay
    · rename_i he
      have heseq : e.seq = x.seq + 1 := by simpa [Snapshot.needsResnapshot] using he
      have hmem : e ∈ d.sent := by simp [hsent]
      obtain rfl := hd.eq_of_seq hmem hev (heseq.trans hseq.symm)
      exact ⟨sent ++ [e], hserving, rest, s, by simp [hsent], hreplay, hagree⟩

end Tracks

/-! ## Subscriptions -/

theorem sub?_onSub {f : Subscription → Subscription} (hf : ∀ sub, (f sub).gen = sub.gen)
    {gen' : ℕ} : (w.onSub gen f).sub? gen' =
      if gen' = gen then (w.sub? gen').map f else w.sub? gen' := by
  have hcomp : ((fun sub : Subscription => decide (sub.gen = gen')) ∘
      fun sub => if sub.gen = gen then f sub else sub) = fun sub => decide (sub.gen = gen') := by
    funext sub
    simp only [Function.comp_apply]
    split
    · rw [hf]
    · rfl
  simp only [World.sub?, World.onSub, List.find?_map, hcomp]
  cases hfind : w.subs.find? fun sub => decide (sub.gen = gen') with
  | none => simp
  | some sub =>
    have hgen : sub.gen = gen' := by simpa using List.find?_some hfind
    simp only [Option.map_some, hgen]
    split <;> rfl

/-- What an event sent makes of a generation's subscription. -/
theorem sub?_hear {ev : Event} {gen : ℕ} :
    (w.subs.map (Subscription.hear ev)).find? (·.gen = gen) =
      (w.sub? gen).map (Subscription.hear ev) := by
  have hcomp : ((fun sub : Subscription => decide (sub.gen = gen)) ∘ Subscription.hear ev) =
      fun sub => decide (sub.gen = gen) := by
    funext sub
    simp only [Function.comp_apply, Subscription.hear]
    split <;> rfl
  rw [List.find?_map, hcomp]
  rfl

theorem sub?_eq_none (h : ∀ sub ∈ w.subs, sub.gen < gen) : w.sub? gen = none := by
  refine List.find?_eq_none.mpr fun sub hsub => ?_
  have := h sub hsub
  simp only [decide_eq_true_eq]
  omega

/-! ## How old what it holds is -/

/-- How many events are on their way to the store. -/
def World.queued (w : World) : ℕ :=
  match w.sub? w.store.generation with
  | some sub => sub.queue.length
  | none => 0

theorem queued_eq {w : World} {sub : Subscription} (h : w.sub? w.store.generation = some sub) :
    w.queued = sub.queue.length := by
  rw [World.queued, h]

/-- The last event that is not on its way any more: the store was handed it,
or never will be. -/
def World.owed (w : World) : ℕ := w.daemon.state.seq - w.queued

/-- A fetch that is, or will be, as new as what is owed. -/
def Fetch.Covers (f : Fetch) (w : World) : Prop :=
  f.gen = w.store.generation ∧ ∀ x ∈ f.reply, w.owed ≤ x.seq

/-- **What the store holds, or a fetch in flight, is as new as what is owed.** -/
def World.Covered (w : World) : Prop :=
  (∃ x ∈ w.store.state.snapshot, w.owed ≤ x.seq) ∨ ∃ f ∈ w.fetches, f.Covers w

/-- No fetch of the generation is in flight. -/
def World.Fetched (w : World) : Prop := ∀ f ∈ w.fetches, f.gen ≠ w.store.generation

/-- Every reply and event in flight has been delivered. -/
def World.Delivered (w : World) : Prop := w.Fetched ∧ w.queued = 0

/-- **The condition.** A reply that makes the store ready is as new as what is
held, and what is held or some fetch in flight is then as new as what is owed;
and while the subscription of a ready store does not listen, the daemon tells
nothing, unless a fetch is still to be served. Where the subscription failed the
store is not ready whatever comes. -/
def Orderly (w : World) : Action → Prop
  | .resolve k => ∀ f ∈ w.fetches[k]?, f.gen = w.store.generation → ∀ x ∈ f.reply,
      (∀ held ∈ w.store.state.snapshot, held.seq ≤ x.seq) ∧
        (w.store.subscriptionProblem ≠ none ∨ w.Covered)
  | .emit _ => (∃ sub ∈ w.sub? w.store.generation, sub.listens) ∨
      (∃ f ∈ w.fetches, f.gen = w.store.generation ∧ f.reply = none) ∨
      w.store.state.status ≠ .ready
  | _ => True

instance : Decidable (Fetch.Covers f w) :=
  inferInstanceAs (Decidable (f.gen = w.store.generation ∧ ∀ x ∈ f.reply, w.owed ≤ x.seq))

instance : Decidable w.Covered :=
  inferInstanceAs (Decidable ((∃ x ∈ w.store.state.snapshot, w.owed ≤ x.seq) ∨
    ∃ f ∈ w.fetches, f.Covers w))

instance Orderly.decidable (w : World) : ∀ a, Decidable (Orderly w a)
  | .resolve k => inferInstanceAs (Decidable (∀ f ∈ w.fetches[k]?, f.gen = w.store.generation →
      ∀ x ∈ f.reply, (∀ held ∈ w.store.state.snapshot, held.seq ≤ x.seq) ∧
        (w.store.subscriptionProblem ≠ none ∨ w.Covered)))
  | .emit _ => inferInstanceAs (Decidable
      ((∃ sub ∈ w.sub? w.store.generation, sub.listens = true) ∨
        (∃ f ∈ w.fetches, f.gen = w.store.generation ∧ f.reply = none) ∨
        w.store.state.status ≠ .ready))
  | .acquire | .release _ | .serve _ _ | .reject _ _ | .goLive _ | .listening _ | .refused _ _
  | .deliver _ => .isTrue trivial

/-- What a refresh of the flags shows through the view. -/
def Shown (view : Project → Project) (w : World) : Action → Prop
  | .serve _ flags => Unseen view w.daemon (.applyPresence flags)
  | _ => True

/-- What is held and what is in flight is of this daemon and this store. -/
structure Kept (view : Project → Project) (disk : Table Project) (w : World) : Prop where
  serving : Serving disk w.daemon
  held : ∀ x ∈ w.store.state.snapshot, Tracks view x w.daemon
  replies : ∀ f ∈ w.fetches, ∀ x ∈ f.reply, Tracks view x w.daemon
  fetchGens : ∀ f ∈ w.fetches, f.gen ≤ w.store.generation
  subGens : ∀ sub ∈ w.subs, sub.gen ≤ w.store.generation
  /-- The events on their way to the store are the last that were sent. -/
  queue : ∀ sub ∈ w.sub? w.store.generation, sub.queue <:+ w.daemon.sent ∧
    (sub.listens = false → sub.queue = [])
  refused : w.store.subscriptionProblem ≠ none → w.store.state.status ≠ .ready

/-- **The invariant.** A ready store is covered. -/
structure Sound (view : Project → Project) (disk : Table Project) (w : World) : Prop
    extends Kept view disk w where
  covered : w.store.state.status = .ready → w.Covered

end App
end Willie
