import Willie.Engine.Replies

/-!
# The engine — how a call ends

A call is five steps of its own away from its caller, and once the stream
has ended the next of them never has to wait: what is not in the call's hand
by then does not come. A subscription is sent what the reader sees, as long
as its receiver is kept.
-/

namespace Willie
namespace Engine

open Runs

variable {wire : Wire} {spawned : Bool} {w w' : World} {c c' : Call} {t : Turn} {a : Action}
  {as bs : List Action}

/-- What holds of the client after any steps. -/
theorem reached (hrun : exec (World.step wire) (World.new spawned) as = some w) :
    Routes w ∧ Sealed w ∧ Numbered w :=
  exec_keeps (I := fun w => Routes w ∧ Sealed w ∧ Numbered w) hrun
    ⟨routes_new, sealed_new, numbered_new⟩ fun _ _ _ ⟨hr, hs, hn⟩ hstep =>
      have h := stepped hstep
      ⟨hr.stepped h, hs.stepped h, hn.stepped hr h⟩

/-! ## No call waits for ever -/

/-- How many steps of its own a call is from its return, at most. -/
def Stage.left : Stage → ℕ
  | .entered => 5
  | .opened _ => 4
  | .registered _ _ => 3
  | .waiting _ _ => 2
  | .timedOut => 1

def Action.isTurn : Action → Bool
  | .turn _ => true
  | _ => false

/-- A turn brings the call nearer to its return. -/
theorem Turned.left (h : Turned w c t w') (hc' : w'.calling = some c') :
    c'.id = c.id ∧ c'.stage.left < c.stage.left := by
  cases h with
  | fails | shut | refused | receives | disconnects | givesUp => cases hc'
  | opens h | registers _ h | sends _ _ h | expires _ _ h =>
    obtain rfl := Option.some.inj hc'
    exact ⟨rfl, by simp [h, Stage.left]⟩

/-- Nothing else moves it, and later calls have other ids. -/
theorem Stepped.left (h : Stepped w a w') (hc' : w'.calling = some c') :
    w.nextId ≤ c'.id ∨ ∃ c, w.calling = some c ∧ c'.id = c.id ∧
      a.isTurn.toNat + c'.stage.left ≤ c.stage.left := by
  cases h with
  | call request idle =>
    obtain rfl := Option.some.inj hc'
    exact .inl le_rfl
  | turn t c w' calling turned =>
    obtain ⟨hid, hlt⟩ := turned.left hc'
    refine .inr ⟨c, calling, hid, ?_⟩
    show 1 + _ ≤ _
    omega
  | reader a w' reading routed other =>
    have hturn : a.isTurn = false := by
      cases a <;> first | rfl | exact absurd rfl (other _)
    rw [hturn]
    cases routed with
    | frame | takes | ends => exact .inr ⟨c', hc', rfl, by simp⟩
    | delivers chan r =>
      obtain ⟨c, hc, rfl⟩ := Option.map_eq_some_iff.mp hc'
      refine .inr ⟨c, hc, rfl, ?_⟩
      cases c.stage <;> simp [Stage.push, Stage.left]
  | other a input subscribers receivers other =>
    have hturn : a.isTurn = false := by
      cases a <;> first | rfl | exact absurd rfl (other _)
    exact .inr ⟨c', hc', rfl, by simp [hturn]⟩

theorem Stepped.nextId (h : Stepped w a w') : w.nextId ≤ w'.nextId := by
  cases h with
  | call => exact Nat.le_succ _
  | turn t c w' calling turned => exact Nat.le_of_eq turned.nextId.symm
  | reader a w' reading routed => cases routed <;> exact le_rfl
  | other => exact le_rfl

/-- **A call takes a few steps.** While it has not returned, its own steps in
a run use up what it had left. -/
theorem turns_le (hrun : exec (World.step wire) w bs = some w') (hc : w.calling = some c)
    (hfresh : c.id < w.nextId) (hc' : w'.calling = some c') (hid : c'.id = c.id) :
    bs.countP Action.isTurn + c'.stage.left ≤ c.stage.left := by
  have hinv : c.id < w'.nextId ∧ ∀ c', w'.calling = some c' → c'.id = c.id →
      bs.countP Action.isTurn + c'.stage.left ≤ c.stage.left := by
    refine run_induction (I := fun bs m => c.id < m.nextId ∧
      ∀ c', m.calling = some c' → c'.id = c.id →
        bs.countP Action.isTurn + c'.stage.left ≤ c.stage.left) hrun
      ⟨hfresh, fun c' hc' _ => ?_⟩ fun bs m a m' _ ⟨hlt, hcount⟩ hstep => ?_
    · obtain rfl := Option.some.inj (hc.symm.trans hc')
      simp
    · have hs := stepped hstep
      refine ⟨lt_of_lt_of_le hlt hs.nextId, fun c' hc' hid => ?_⟩
      rcases hs.left hc' with hnew | ⟨c₁, hc₁, hid₁, hle⟩
      · omega
      · have := hcount c₁ hc₁ (hid₁ ▸ hid)
        rw [List.countP_append, List.countP_singleton]
        cases hturn : a.isTurn <;> simp_all <;> omega
  exact hinv.2 c' hc' hid

/-- **After the end nothing is waited for.** The call under way has a step to
make that is no timeout. -/
theorem can_turn (hs : Sealed w) (hend : w.reader = .ended) (hc : w.calling = some c) :
    ∃ t, t ≠ .timeout ∧ (World.step wire w (.turn t)).isSome := by
  have hgone (chan : Chan) : w.connected chan = false := by
    simp [World.connected, hend, hs.cleared hend]
  have hturn (t : Turn) : World.step wire w (.turn t) = w.turn c t := by
    simp [World.step, hc]
  obtain ⟨id, request, stage⟩ := c
  cases stage with
  | entered => exact ⟨.prepare, by simp, by rw [hturn]; rfl⟩
  | opened chan => exact ⟨.register, by simp, by rw [hturn]; rfl⟩
  | registered chan queue => exact ⟨.send, by simp, by rw [hturn]; rfl⟩
  | waiting chan queue =>
    cases queue with
    | nil => exact ⟨.disconnect, by simp, by rw [hturn]; simp [World.turn, hgone]⟩
    | cons r queue => exact ⟨.receive, by simp, by rw [hturn]; rfl⟩
  | timedOut => exact ⟨.giveUp, by simp, by rw [hturn]; rfl⟩

/-! ## What is not there by the end does not come -/

/-- The call came back without a reply: with the closed-stdout error, its
timeout, or the failure to serialise its request. -/
def Returned.Unanswered (d : Returned) : Prop :=
  d.result = .error (.protocol closedStdout) ∨
    d.result = .error (.timeout d.request.method) ∨
      ∃ e, d.request.line = .error e ∧ d.result = .error (.protocol e)

/-- A call keeps in hand what its channel holds, or leaves it. -/
theorem Turned.queue (h : Turned w c t w') (hc' : w'.calling = some c') :
    c'.stage.queue = [] ∨ c'.stage.queue = c.stage.queue := by
  cases h with
  | fails | shut | refused | receives | disconnects | givesUp => cases hc'
  | opens | registers | expires =>
    obtain rfl := Option.some.inj hc'
    exact .inl rfl
  | sends chan queue h =>
    obtain rfl := Option.some.inj hc'
    exact .inr (by simp [h, Stage.queue])

theorem Turned.result (h : Turned w c t w') {d : Returned} (hd : d ∈ w'.returned) :
    d ∈ w.returned ∨ d.Unanswered ∨
      d.id = c.id ∧ ∃ r, c.stage.queue.head? = some r ∧ d.exit = .replied r := by
  cases h with
  | opens | registers | sends | expires => exact .inl hd
  | fails _ e line =>
    rcases List.mem_append.mp hd with hd | hd
    · exact .inl hd
    · obtain rfl := List.mem_singleton.mp hd
      exact .inr (.inl (.inr (.inr ⟨e, line, rfl⟩)))
  | receives chan r queue h =>
    rcases List.mem_append.mp hd with hd | hd
    · exact .inl hd
    · obtain rfl := List.mem_singleton.mp hd
      exact .inr (.inr ⟨rfl, r, by simp [h, Stage.queue], rfl⟩)
  | shut | refused | disconnects =>
    rcases List.mem_append.mp hd with hd | hd
    · exact .inl hd
    · obtain rfl := List.mem_singleton.mp hd
      exact .inr (.inl (.inl rfl))
  | givesUp =>
    rcases List.mem_append.mp hd with hd | hd
    · exact .inl hd
    · obtain rfl := List.mem_singleton.mp hd
      exact .inr (.inl (.inr (.inl rfl)))

/-- The call of `d` was under way in `w`, with this reply already in hand. -/
def Returned.InHand (d : Returned) (w : World) : Prop :=
  ∃ c r, w.calling = some c ∧ d.id = c.id ∧ c.stage.queue.head? = some r ∧ d.exit = .replied r

/-- **After the end.** What returns then returns unanswered, the reply in
hand apart. -/
theorem unanswered (hrun : exec (World.step wire) w bs = some w') (hend : w.reader = .ended) :
    ∀ d ∈ w'.returned, d ∈ w.returned ∨ d.Unanswered ∨ d.InHand w := by
  have hinv := exec_keeps (I := fun m => m.reader = .ended ∧
    (∀ c', m.calling = some c' → c'.stage.queue = [] ∨
      ∃ c, w.calling = some c ∧ c'.id = c.id ∧ c'.stage.queue = c.stage.queue) ∧
    ∀ d ∈ m.returned, d ∈ w.returned ∨ d.Unanswered ∨ d.InHand w) hrun
    ⟨hend, fun c hc => .inr ⟨c, hc, rfl, rfl⟩, fun d hd => .inl hd⟩ ?_
  · exact hinv.2.2
  · rintro m a m' ⟨hend, hqueue, hret⟩ hstep
    cases stepped hstep with
    | call request idle =>
      refine ⟨hend, fun c' hc' => ?_, hret⟩
      obtain rfl := Option.some.inj hc'
      exact .inl rfl
    | turn t c m' calling turned =>
      refine ⟨turned.reader.trans hend, fun c' hc' => ?_, fun d hd => ?_⟩
      · rcases turned.queue hc' with hnil | hsame
        · exact .inl hnil
        · rw [hsame, (turned.left hc').1]
          exact hqueue c calling
      · rcases turned.result hd with hd | hd | ⟨hid, r, hhead, hexit⟩
        · exact hret d hd
        · exact .inr (.inl hd)
        · rcases hqueue c calling with hnil | ⟨c₀, hc₀, hid₀, hsame⟩
          · simp [hnil] at hhead
          · exact .inr (.inr ⟨c₀, r, hc₀, hid.trans hid₀, hsame ▸ hhead, hexit⟩)
    | reader a m' reading => exact absurd hend reading
    | other => exact ⟨hend, hqueue, hret⟩

/-! ## Subscriptions -/

/-- The line a step reads. -/
def Action.line? : Action → Option String
  | .line text => some text
  | _ => none

/-- The notifications in the lines a run reads, in their order. -/
def notices (wire : Wire) (as : List Action) : List Notification :=
  (as.filterMap Action.line?).filterMap wire.notice?

theorem getElem?_foldl_modify {α : Type} {f : α → α} {is : List ℕ} (h : is.Nodup) {xs : List α}
    {i : ℕ} : (is.foldl (fun xs j => xs.modify j f) xs)[i]? =
      if i ∈ is then xs[i]?.map f else xs[i]? := by
  induction is generalizing xs with
  | nil => simp
  | cons j is ih =>
    obtain ⟨hj, his⟩ := List.nodup_cons.mp h
    rw [List.foldl_cons, ih his, List.getElem?_modify]
    by_cases hij : i = j
    · subst hij
      simp [hj]
    · have hji : j ≠ i := Ne.symm hij
      simp [hij, hji]

@[simp] theorem length_foldl_modify {α : Type} {f : α → α} {is : List ℕ} {xs : List α} :
    (is.foldl (fun xs j => xs.modify j f) xs).length = xs.length := by
  induction is generalizing xs with
  | nil => rfl
  | cons j is ih => simp [ih]

/-- A receiver has been sent what was seen since it subscribed: all of it
while it is kept, and the first of it in any case. -/
structure Receiver.Served (rc : Receiver) (noted : List Notification) : Prop where
  since : rc.since ≤ noted.length
  got : rc.received <+: noted.drop rc.since
  all : rc.kept → rc.received = noted.drop rc.since

/-- The reader's list has every receiver that is kept, once. -/
structure Subscribed (subscribers : List ℕ) (receivers : List Receiver)
    (noted : List Notification) : Prop where
  nodup : subscribers.Nodup
  known : ∀ i ∈ subscribers, i < receivers.length
  kept : ∀ i rc, receivers[i]? = some rc → rc.kept → i ∈ subscribers
  served : ∀ (i : ℕ) (rc : Receiver), receivers[i]? = some rc → rc.Served noted

theorem Receiver.Served.offer {rc : Receiver} {noted : List Notification} {n : Notification}
    (h : rc.Served noted) : (rc.offer n).Served (noted ++ [n]) := by
  have hdrop : (noted ++ [n]).drop rc.since = noted.drop rc.since ++ [n] := by
    rw [List.drop_append_of_le_length h.since]
  have hlen : rc.since ≤ (noted ++ [n]).length := by
    have := h.since
    simp only [List.length_append, List.length_singleton]
    omega
  unfold Receiver.offer
  split
  · rename_i hkept
    have hall : rc.received ++ [n] = (noted ++ [n]).drop rc.since := by
      rw [hdrop, h.all hkept]
    exact ⟨hlen, hall ▸ List.prefix_refl _, fun _ => hall⟩
  · rename_i hkept
    exact ⟨hlen, hdrop ▸ h.got.trans (List.prefix_append _ _), fun hk => absurd hk hkept⟩

theorem Receiver.Served.drop {rc : Receiver} {noted : List Notification} (h : rc.Served noted) :
    { rc with kept := false }.Served noted :=
  ⟨h.since, h.got, nofun⟩

@[simp] theorem kept_offer {rc : Receiver} {n : Notification} : (rc.offer n).kept = rc.kept := by
  unfold Receiver.offer
  split <;> rfl

/-- A subscription comes after those there are. -/
theorem eq_of_getElem?_subscribe {receivers : List Receiver} {new rc : Receiver} {i : ℕ}
    (h : (receivers ++ [new])[i]? = some rc) :
    receivers[i]? = some rc ∨ i = receivers.length ∧ rc = new := by
  rw [List.getElem?_append] at h
  split at h
  · exact .inl h
  · rw [List.getElem?_singleton] at h
    split at h
    · exact .inr ⟨by omega, (Option.some.inj h).symm⟩
    · cases h

namespace Subscribed

variable {subscribers : List ℕ} {receivers : List Receiver} {noted : List Notification}

theorem fanOut (h : Subscribed subscribers receivers noted) (n : Notification) :
    Subscribed (subscribers.filter fun i => receivers[i]?.any Receiver.kept)
      (subscribers.foldl (fun rcs i => rcs.modify i (·.offer n)) receivers) (noted ++ [n]) where
  nodup := h.nodup.filter _
  known i hi := by
    rw [length_foldl_modify]
    exact h.known i (List.mem_of_mem_filter hi)
  kept i rc hrc hkept := by
    rw [getElem?_foldl_modify h.nodup] at hrc
    split at hrc
    · rename_i hi
      obtain ⟨rc₀, hrc₀, rfl⟩ := Option.map_eq_some_iff.mp hrc
      exact List.mem_filter.mpr ⟨hi, by simpa [hrc₀] using hkept⟩
    · rename_i hi
      exact absurd (h.kept i rc hrc hkept) hi
  served i rc hrc := by
    rw [getElem?_foldl_modify h.nodup] at hrc
    split at hrc
    · obtain ⟨rc₀, hrc₀, rfl⟩ := Option.map_eq_some_iff.mp hrc
      exact (h.served i rc₀ hrc₀).offer
    · -- a receiver that is not in the list is gone, and takes nothing
      rename_i hi
      have hgone : ¬ rc.kept := fun hkept => hi (h.kept i rc hrc hkept)
      have hserved := (h.served i rc hrc).offer (n := n)
      rwa [Receiver.offer, if_neg hgone] at hserved

theorem subscribe (h : Subscribed subscribers receivers noted) :
    Subscribed (subscribers ++ [receivers.length])
      (receivers ++ [⟨true, noted.length, []⟩]) noted where
  nodup := by
    refine List.nodup_append.mpr ⟨h.nodup, List.nodup_singleton _, fun i hi j hj hij => ?_⟩
    have hlt := h.known i hi
    rw [hij, List.mem_singleton.mp hj] at hlt
    exact Nat.lt_irrefl _ hlt
  known i hi := by
    rw [List.length_append, List.length_singleton]
    rcases List.mem_append.mp hi with hi | hi
    · exact Nat.lt_succ_of_lt (h.known i hi)
    · exact List.mem_singleton.mp hi ▸ Nat.lt_succ_self _
  kept i rc hrc hkept := by
    rcases eq_of_getElem?_subscribe hrc with hrc | ⟨hi, -⟩
    · exact List.mem_append_left _ (h.kept i rc hrc hkept)
    · exact List.mem_append_right _ (List.mem_singleton.mpr hi)
  served i rc hrc := by
    rcases eq_of_getElem?_subscribe hrc with hrc | ⟨-, rfl⟩
    · exact h.served i rc hrc
    · exact ⟨le_rfl, List.nil_prefix, fun _ => by simp⟩

theorem unsubscribe (h : Subscribed subscribers receivers noted) (i : ℕ) :
    Subscribed subscribers (receivers.modify i fun rc => { rc with kept := false }) noted where
  nodup := h.nodup
  known j hj := by
    rw [List.length_modify]
    exact h.known j hj
  kept j rc hrc hkept := by
    rw [List.getElem?_modify] at hrc
    obtain ⟨rc₀, hrc₀, rfl⟩ := Option.map_eq_some_iff.mp hrc
    refine h.kept j rc₀ hrc₀ ?_
    split at hkept
    · cases hkept
    · exact hkept
  served j rc hrc := by
    rw [List.getElem?_modify] at hrc
    obtain ⟨rc₀, hrc₀, rfl⟩ := Option.map_eq_some_iff.mp hrc
    have hserved := h.served j rc₀ hrc₀
    split
    · exact hserved.drop
    · exact hserved

end Subscribed

/-- The subscriptions of a client are in order. -/
def World.Subscribed (w : World) : Prop :=
  Engine.Subscribed w.subscribers w.receivers w.noted

theorem Turned.subscribed (h : Turned w c t w') (hw : w.Subscribed) : w'.Subscribed := by
  cases h <;> exact hw

theorem Turned.noted (h : Turned w c t w') : w'.noted = w.noted := by
  cases h <;> rfl

theorem subscribed_route (wire : Wire) (line : String) (h : w.Subscribed) :
    (w.route wire line).Subscribed ∧
      (w.route wire line).noted = w.noted ++ (wire.notice? line).toList := by
  unfold World.route Wire.notice?
  cases hr : wire.response line with
  | some r =>
    dsimp only
    cases w.inbox.waiters.lookup r.id <;> exact ⟨h, (List.append_nil _).symm⟩
  | none =>
    cases hn : wire.notification line with
    | some n => exact ⟨Engine.Subscribed.fanOut h n, rfl⟩
    | none => exact ⟨h, (List.append_nil _).symm⟩

/-- What a step does to the subscriptions, and what it sees. -/
theorem subscribed_step (h : w.Subscribed) (hstep : w.step wire a = some w') :
    w'.Subscribed ∧ w'.noted = w.noted ++ notices wire [a] := by
  have hnothing (ha : a.line? = none) : notices wire [a] = [] := by
    simp [notices, ha]
  cases a with
  | line text =>
    simp only [World.step] at hstep
    split at hstep
    · obtain rfl := Option.some.inj hstep
      obtain ⟨hsub, hnoted⟩ := subscribed_route wire text h
      refine ⟨hsub, hnoted.trans ?_⟩
      cases hn : wire.notice? text <;> simp [notices, Action.line?, hn]
    · cases hstep
  | turn t =>
    obtain ⟨c, -, ht⟩ := Option.bind_eq_some_iff.mp hstep
    have ht := turned ht
    exact ⟨ht.subscribed h, by rw [ht.noted, hnothing rfl, List.append_nil]⟩
  | subscribe =>
    obtain rfl := Option.some.inj hstep
    exact ⟨Engine.Subscribed.subscribe h, by rw [hnothing rfl, List.append_nil]⟩
  | unsubscribe i =>
    obtain rfl := Option.some.inj hstep
    exact ⟨Engine.Subscribed.unsubscribe h i, by rw [hnothing rfl, List.append_nil]⟩
  | call | deliver | eof | close =>
    rw [hnothing rfl, List.append_nil]
    simp only [World.step] at hstep
    split at hstep
    all_goals first
      | cases hstep; done
      | obtain rfl := Option.some.inj hstep
        exact ⟨h, rfl⟩

theorem subscribed (hrun : exec (World.step wire) (World.new spawned) as = some w) :
    w.Subscribed ∧ w.noted = notices wire as := by
  have start : (World.new spawned).Subscribed := ⟨.nil, nofun, nofun, nofun⟩
  refine run_induction (I := fun as w => w.Subscribed ∧ w.noted = notices wire as) hrun
    ⟨start, rfl⟩ ?_
  rintro as m a m' - ⟨hsub, hnoted⟩ hstep
  obtain ⟨hsub', hnoted'⟩ := subscribed_step hsub hstep
  exact ⟨hsub', by rw [hnoted', hnoted]; simp [notices]⟩

/-! ## The law -/

/-- **Replies go to their own call.** A call returns, and is only ever sent,
the response that carries its own id, and no two calls have one id. The table
has no entry of a call that has returned. A call takes at most five steps of
its own, and after the stream's end there is always one that is no timeout;
what returns then returns unanswered, but for a reply it had in hand already.
A subscriber has been sent the notifications read since it subscribed, in
their order. -/
theorem replies_go_to_their_own_call
    (hrun : exec (World.step wire) (World.new spawned) as = some w) :
    (∀ d ∈ w.returned, ∀ r, d.exit = .replied r → r.id = d.id) ∧
    (∀ c, w.calling = some c → ∀ r ∈ c.stage.queue, r.id = c.id) ∧
    w.ids.Pairwise (· < ·) ∧
    (∀ e ∈ w.inbox.waiters, ∃ c, w.calling = some c ∧ e.1 = c.id) ∧
    (∀ e ∈ w.inbox.waiters, ∀ d ∈ w.returned, e.1 ≠ d.id) ∧
    (∀ bs w' c c', exec (World.step wire) w bs = some w' → w.calling = some c →
      w'.calling = some c' → c'.id = c.id → bs.countP Action.isTurn < 5) ∧
    (w.reader = .ended → ∀ c, w.calling = some c →
      ∃ t, t ≠ .timeout ∧ (World.step wire w (.turn t)).isSome) ∧
    (w.reader = .ended → ∀ bs w', exec (World.step wire) w bs = some w' →
      ∀ d ∈ w'.returned, d ∈ w.returned ∨ d.Unanswered ∨ d.InHand w) ∧
    w.noted = notices wire as ∧
    ∀ rc ∈ w.receivers, rc.received <+: w.noted.drop rc.since ∧
      (rc.kept → rc.received = w.noted.drop rc.since) := by
  obtain ⟨hroutes, hsealed, hnumbered⟩ := reached hrun
  obtain ⟨hsub, hnoted⟩ := subscribed hrun
  have hentry : ∀ e ∈ w.inbox.waiters, ∃ c, w.calling = some c ∧ e.1 = c.id := by
    intro e he
    cases hc : w.calling with
    | none => rw [hroutes.idle hc] at he; cases he
    | some c => exact ⟨c, rfl, ((hroutes.linked c hc).listed e he).1⟩
  have hmine : ∀ c, w.calling = some c → c.id ∈ w.ids := by
    intro c hc
    simp [World.ids, hc]
  refine ⟨hnumbered.answered, fun c hc r hr => ((hroutes.linked c hc).queued r hr).1,
    hnumbered.ordered, hentry, fun e he d hd => ?_, fun bs w' c c' hbs hc hc' hid => ?_,
    fun hend c hc => can_turn hsealed hend hc, fun hend bs w' hbs => unanswered hbs hend,
    hnoted, fun rc hrc => ?_⟩
  · obtain ⟨c, hc, hid⟩ := hentry e he
    have hlt : d.id < c.id := by
      refine (List.pairwise_append.mp hnumbered.ordered).2.2 d.id (List.mem_map_of_mem hd) c.id ?_
      simp [hc]
    omega
  · have hle := turns_le hbs hc (hnumbered.fresh c.id (hmine c hc)) hc' hid
    have hleft : c.stage.left ≤ 5 ∧ 0 < c'.stage.left := by
      constructor
      · cases c.stage <;> simp [Stage.left]
      · cases c'.stage <;> exact Nat.succ_pos _
    omega
  · obtain ⟨i, hi⟩ := List.getElem?_of_mem hrc
    have hserved := hsub.served i rc hi
    exact ⟨hserved.got, hserved.all⟩

/-- A parser, at the lines of the runs below. -/
def sampleWire : Wire where
  response line :=
    if line = "\x7b\"jsonrpc\":\"2.0\",\"id\":1,\"result\":true\x7d" then
      some ⟨"2.0", 1, some (.bool true), none⟩
    else if line = "\x7b\"jsonrpc\":\"2.0\",\"id\":2,\"result\":true\x7d" then
      some ⟨"2.0", 2, some (.bool true), none⟩
    else none
  notification line :=
    if line = "\x7b\"jsonrpc\":\"2.0\",\"method\":\"state.event\"\x7d" then
      some ⟨"2.0", "state.event", .null⟩
    else none

/-- A request for a health report, under an id. -/
def health (id : String) : Request where
  method := "daemon.health"
  line := .ok ("\x7b\"jsonrpc\":\"2.0\",\"id\":" ++ id ++
    ",\"method\":\"daemon.health\",\"params\":null\x7d")
  decode := .ok

/-- A call that is answered, one that times out and whose answer comes late,
and one after the end of the stream. -/
def threeCalls : List Action :=
  [.subscribe, .call (health "1"), .turn .prepare, .turn .register, .turn .send,
    .line "\x7b\"jsonrpc\":\"2.0\",\"method\":\"state.event\"\x7d",
    .line "\x7b\"jsonrpc\":\"2.0\",\"id\":1,\"result\":true\x7d", .deliver, .turn .receive,
    .call (health "2"), .turn .prepare, .turn .register, .turn .send, .turn .timeout,
    .turn .giveUp, .call (health "3"), .turn .prepare,
    .line "\x7b\"jsonrpc\":\"2.0\",\"id\":2,\"result\":true\x7d", .eof, .turn .register]

theorem three_calls_settled : ∃ w,
    exec (World.step sampleWire) (World.new true) threeCalls = some w ∧
    w.returned.map Returned.id = [1, 2, 3] ∧ w.noted.length = 1 ∧
    (∀ d ∈ w.returned, ∀ r, d.exit = .replied r → r.id = d.id) ∧
    ∀ e ∈ w.inbox.waiters, ∀ d ∈ w.returned, e.1 ≠ d.id := by
  have hrun : (exec (World.step sampleWire) (World.new true) threeCalls).map
      (fun w => (w.returned.map Returned.id, w.noted.length)) = some ([1, 2, 3], 1) := by
    decide
  obtain ⟨w, hw, hseen⟩ := Option.map_eq_some_iff.mp hrun
  obtain ⟨hids, hnoted⟩ := Prod.mk.inj hseen
  obtain ⟨hown, -, -, -, hgone, -⟩ := replies_go_to_their_own_call hw
  exact ⟨w, hw, hids, hnoted, hown, hgone⟩

/-- A call whose answer arrives just before the end of the stream. -/
def answeredAtTheEnd : List Action :=
  [.call (health "1"), .turn .prepare, .turn .register, .turn .send,
    .line "\x7b\"jsonrpc\":\"2.0\",\"id\":1,\"result\":true\x7d", .deliver, .eof]

/-- **A call may wait when the stream ends and come back with its reply**: it
was in the channel, and nobody had looked yet. -/
theorem reply_after_the_end : ∃ w w' c chan queue,
    exec (World.step sampleWire) (World.new true) answeredAtTheEnd = some w ∧
    w.reader = .ended ∧ w.calling = some c ∧ c.id = 1 ∧ c.stage = .waiting chan queue ∧
    exec (World.step sampleWire) w [.turn .receive] = some w' ∧
    ∃ d ∈ w'.returned, d.id = 1 ∧ d.result = .ok (.bool true) := by
  refine ⟨_, _, _, _, _, rfl, rfl, rfl, rfl, rfl, rfl, _, List.mem_singleton.mpr rfl, rfl, rfl⟩

end Engine
end Willie
