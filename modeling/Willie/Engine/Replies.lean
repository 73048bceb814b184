import Willie.Engine.Rpc

/-!
# The engine — replies go to their own call

What holds of the client in every interleaving of its calls with the reader.
The table only ever holds the entry of the call under way, under a channel no
other call has; a response in a channel carries its call's id; and once the
stream has ended no channel has a sender left, so nothing waits for ever.
-/

namespace Willie
namespace Engine

open Runs

variable {wire : Wire} {spawned : Bool} {w w' : World} {c c' : Call} {t : Turn} {a : Action}
  {as bs : List Action}

/-! ## What a step does -/

/-- What a step of a call does. -/
inductive Turned (w : World) (c : Call) : Turn → World → Prop where
  | fails (h : c.stage = .entered) (e : String) (line : c.request.line = .error e) :
      Turned w c .prepare (w.finish c (.unserialisable e))
  | shut (h : c.stage = .entered) : Turned w c .prepare (w.finish c .inputClosed)
  | opens (h : c.stage = .entered) :
      Turned w c .prepare
        ({ w with nextChan := w.nextChan + 1 }.moveTo c (.opened w.nextChan))
  | refused (chan : Chan) (h : c.stage = .opened chan) : Turned w c .register (w.finish c .closed)
  | registers (chan : Chan) (h : c.stage = .opened chan) (open_ : w.inbox.closed = false) :
      Turned w c .register
        ({ w with inbox := w.inbox.insert c.id chan }.moveTo c (.registered chan []))
  | sends (chan : Chan) (queue : List Response) (h : c.stage = .registered chan queue) :
      Turned w c .send (w.moveTo c (.waiting chan queue))
  | receives (chan : Chan) (r : Response) (queue : List Response)
      (h : c.stage = .waiting chan (r :: queue)) : Turned w c .receive (w.finish c (.replied r))
  | expires (chan : Chan) (queue : List Response) (h : c.stage = .waiting chan queue) :
      Turned w c .timeout (w.moveTo c .timedOut)
  | disconnects (chan : Chan) (h : c.stage = .waiting chan []) (gone : w.connected chan = false) :
      Turned w c .disconnect (w.finish c .disconnected)
  | givesUp (h : c.stage = .timedOut) :
      Turned w c .giveUp ({ w with inbox := w.inbox.remove c.id }.finish c .timedOut)

theorem turned (h : w.turn c t = some w') : Turned w c t w' := by
  obtain ⟨id, request, stage⟩ := c
  cases stage with
  | entered =>
    cases t with
    | prepare =>
      obtain rfl := Option.some.inj h
      cases hline : request.line with
      | error e => exact .fails rfl e hline
      | ok line =>
        show Turned w _ _ (if _ then _ else _)
        split
        · exact .opens rfl
        · exact .shut rfl
    | _ => cases h
  | opened chan =>
    cases t with
    | register =>
      obtain rfl := Option.some.inj h
      split
      · exact .refused chan rfl
      · exact .registers chan rfl (by simp_all)
    | _ => cases h
  | registered chan queue =>
    cases t with
    | send =>
      obtain rfl := Option.some.inj h
      exact .sends chan queue rfl
    | _ => cases h
  | waiting chan queue =>
    cases t with
    | receive =>
      cases queue with
      | nil => cases h
      | cons r queue =>
        obtain rfl := Option.some.inj h
        exact .receives chan r queue rfl
    | timeout =>
      have h : some (w.moveTo ⟨id, request, .waiting chan queue⟩ .timedOut) = some w' := by
        cases queue <;> exact h
      obtain rfl := Option.some.inj h
      exact .expires chan queue rfl
    | disconnect =>
      cases queue with
      | nil =>
        simp only [World.turn] at h
        split at h
        · cases h
        · obtain rfl := Option.some.inj h
          exact .disconnects chan rfl (by simp_all)
      | cons => cases h
    | _ => cases queue <;> cases h
  | timedOut =>
    cases t with
    | giveUp =>
      obtain rfl := Option.some.inj h
      exact .givesUp rfl
    | _ => cases h

/-- What a step of the reader does to the calls: nothing, or it takes a
waiter out, sends to it, or ends. -/
inductive Routed (w : World) : World → Prop where
  | frame (subscribers : List ℕ) (receivers : List Receiver) (noted : List Notification)
      (stray : List String) :
      Routed w { w with subscribers, receivers, noted, stray }
  | takes (chan : Chan) (r : Response) (entry : (r.id, chan) ∈ w.inbox.waiters) :
      Routed w { w with inbox := w.inbox.remove r.id, reader := .holding chan r }
  | delivers (chan : Chan) (r : Response) (held : w.reader = .holding chan r) :
      Routed w (w.deliver chan r)
  | ends : Routed w { w with inbox := ⟨[], true⟩, reader := .ended }

theorem routed_route {line : String} : Routed w (w.route wire line) := by
  unfold World.route
  split
  · rename_i r _
    cases hlookup : w.inbox.waiters.lookup r.id with
    | some chan =>
      refine .takes chan r ?_
      obtain ⟨l₁, l₂, h, -⟩ := List.lookup_eq_some_iff.mp hlookup
      rw [h]
      simp
    | none => exact .frame w.subscribers w.receivers w.noted w.stray
  · split
    · exact .frame _ _ _ w.stray
    · exact .frame w.subscribers w.receivers w.noted _

/-- What a step of the client does. -/
inductive Stepped (w : World) : Action → World → Prop where
  | call (request : Request) (idle : w.calling = none) :
      Stepped w (.call request)
        { w with nextId := w.nextId + 1, calling := some ⟨w.nextId, request, .entered⟩ }
  | turn (t : Turn) (c : Call) (w' : World) (calling : w.calling = some c)
      (turned : Turned w c t w') : Stepped w (.turn t) w'
  | reader (a : Action) (w' : World) (reading : w.reader ≠ .ended) (routed : Routed w w')
      (other : ∀ t, a ≠ .turn t) : Stepped w a w'
  | other (a : Action) (input : Bool) (subscribers : List ℕ) (receivers : List Receiver)
      (other : ∀ t, a ≠ .turn t) :
      Stepped w a { w with input, subscribers, receivers }

theorem stepped (h : w.step wire a = some w') : Stepped w a w' := by
  cases a with
  | call request =>
    simp only [World.step] at h
    split at h
    · cases h
    · obtain rfl := Option.some.inj h
      exact .call request ‹_›
  | turn t =>
    obtain ⟨c, hc, ht⟩ := Option.bind_eq_some_iff.mp h
    exact .turn t c w' hc (turned ht)
  | line text =>
    simp only [World.step] at h
    split at h
    · obtain rfl := Option.some.inj h
      exact .reader _ _ (by simp [*]) routed_route nofun
    · cases h
  | deliver =>
    simp only [World.step] at h
    split at h
    · rename_i chan r held
      obtain rfl := Option.some.inj h
      exact .reader _ _ (by simp [*]) (.delivers chan r held) nofun
    · cases h
  | eof =>
    simp only [World.step] at h
    split at h
    · obtain rfl := Option.some.inj h
      exact .reader _ _ (by simp [*]) .ends nofun
    · cases h
  | subscribe =>
    obtain rfl := Option.some.inj h
    exact .other _ w.input _ _ nofun
  | unsubscribe i =>
    obtain rfl := Option.some.inj h
    exact .other _ w.input w.subscribers _ nofun
  | close =>
    simp only [World.step] at h
    split at h
    · cases h
    · obtain rfl := Option.some.inj h
      exact .other _ false w.subscribers w.receivers nofun

/-! ## Whose channel is whose -/

/-- The channel of a call that may still be sent to. -/
def Stage.chan? : Stage → Option Chan
  | .opened chan | .registered chan _ | .waiting chan _ => some chan
  | .entered | .timedOut => none

/-- What a call's channel holds. -/
def Stage.queue : Stage → List Response
  | .registered _ queue | .waiting _ queue => queue
  | .entered | .opened _ | .timedOut => []

/-- The call may have an entry in the table. -/
def Stage.Listed : Stage → Prop
  | .registered _ _ | .waiting _ _ | .timedOut => True
  | .entered | .opened _ => False

/-- The ids of the calls there were, in their order. -/
def World.ids (w : World) : List ℕ :=
  w.returned.map Returned.id ++ (w.calling.map Call.id).toList

/-- The table and the reader as the call under way finds them. -/
structure Linked (w : World) (c : Call) : Prop where
  /-- Only this call has an entry, of its own channel. -/
  listed : ∀ e ∈ w.inbox.waiters, e.1 = c.id ∧ c.stage.Listed ∧
    ∀ chan, c.stage.chan? = some chan → e.2 = chan
  numbered : ∀ chan, c.stage.chan? = some chan → chan < w.nextChan
  /-- A response on its way to the call has taken the entry with it. -/
  held : ∀ chan r, c.stage.chan? = some chan → w.reader = .holding chan r →
    r.id = c.id ∧ c.stage.Listed ∧ w.inbox.waiters = []
  queued : ∀ r ∈ c.stage.queue, r.id = c.id ∧ w.inbox.waiters = []

/-- **The routing invariant.** Channels are numbered in turn, and nobody but
the call under way is in the table. -/
structure Routes (w : World) : Prop where
  entries : ∀ e ∈ w.inbox.waiters, e.2 < w.nextChan
  held : ∀ chan r, w.reader = .holding chan r → chan < w.nextChan
  idle : w.calling = none → w.inbox.waiters = []
  linked : ∀ c, w.calling = some c → Linked w c

/-- The table is closed exactly when the stream has ended, and is empty then. -/
structure Sealed (w : World) : Prop where
  closed : w.inbox.closed = true ↔ w.reader = .ended
  cleared : w.reader = .ended → w.inbox.waiters = []

/-- Ids are given out in turn, and a reply carries its call's. -/
structure Numbered (w : World) : Prop where
  ordered : w.ids.Pairwise (· < ·)
  fresh : ∀ id ∈ w.ids, id < w.nextId
  answered : ∀ d ∈ w.returned, ∀ r, d.exit = .replied r → r.id = d.id

theorem routes_new : Routes (World.new spawned) where
  entries _ he := nomatch he
  held _ _ h := by cases spawned <;> cases h
  idle _ := rfl
  linked _ h := nomatch h

theorem sealed_new : Sealed (World.new spawned) where
  closed := by cases spawned <;> simp [World.new]
  cleared _ := rfl

theorem numbered_new : Numbered (World.new spawned) where
  ordered := .nil
  fresh _ h := nomatch h
  answered _ h := nomatch h

namespace Routes

/-- Before it registers a call finds the table empty. -/
theorem empty (h : Routes w) (hc : w.calling = some c) (hl : ¬ c.stage.Listed) :
    w.inbox.waiters = [] :=
  List.eq_nil_iff_forall_not_mem.mpr fun e he => hl ((h.linked c hc).listed e he).2.1

/-- With the table empty a call can return. -/
theorem finish (h : Routes w) (hempty : w.inbox.waiters = []) {exit : Exit} :
    Routes (w.finish c exit) where
  entries := h.entries
  held := h.held
  idle _ := hempty
  linked _ hc := nomatch hc

/-- A call moves on, with its channel and what the channel holds. -/
theorem moveTo (h : Routes w) (hc : w.calling = some c) {stage : Stage}
    (hlisted : c.stage.Listed → stage.Listed)
    (hchan : ∀ chan, stage.chan? = some chan → c.stage.chan? = some chan)
    (hqueue : ∀ r ∈ stage.queue, r ∈ c.stage.queue) : Routes (w.moveTo c stage) where
  entries := h.entries
  held := h.held
  idle hidle := nomatch hidle
  linked c' hc' := by
    obtain rfl := Option.some.inj hc'
    have hlinked := h.linked c hc
    refine ⟨fun e he => ?_, fun chan hl => hlinked.numbered chan (hchan chan hl),
      fun chan r hl hheld => ?_, fun r hr => hlinked.queued r (hqueue r hr)⟩
    · obtain ⟨hid, hl, hchans⟩ := hlinked.listed e he
      exact ⟨hid, hlisted hl, fun chan hl => hchans chan (hchan chan hl)⟩
    · obtain ⟨hid, hl, hempty⟩ := hlinked.held chan r (hchan chan hl) hheld
      exact ⟨hid, hlisted hl, hempty⟩

/-- The channel a call opens is nobody's. -/
theorem opens (h : Routes w) (hempty : w.inbox.waiters = []) :
    Routes ({ w with nextChan := w.nextChan + 1 }.moveTo c (.opened w.nextChan)) where
  entries e he := Nat.lt_succ_of_lt (h.entries e he)
  held chan r hheld := Nat.lt_succ_of_lt (h.held chan r hheld)
  idle hidle := nomatch hidle
  linked c' hc' := by
    obtain rfl := Option.some.inj hc'
    refine ⟨fun e he => ?_, fun chan hchan => ?_, fun chan r hchan hheld => ?_, nofun⟩
    · have he : e ∈ w.inbox.waiters := he
      rw [hempty] at he
      cases he
    · obtain rfl := Option.some.inj hchan
      exact Nat.lt_succ_self _
    · obtain rfl := Option.some.inj hchan
      exact absurd (h.held _ r hheld) (Nat.lt_irrefl _)

/-- Its entry is the only one. -/
theorem registers (h : Routes w) (hc : w.calling = some c) {chan : Chan}
    (hstage : c.stage = .opened chan) :
    Routes ({ w with inbox := w.inbox.insert c.id chan }.moveTo c (.registered chan [])) := by
  have hlinked := h.linked c hc
  have hempty : w.inbox.waiters = [] := h.empty hc (by simp [hstage, Stage.Listed])
  have hentry : (w.inbox.insert c.id chan).waiters = [(c.id, chan)] := by
    simp [Inbox.insert, hempty]
  have hlt : chan < w.nextChan := hlinked.numbered chan (by rw [hstage]; rfl)
  refine ⟨fun e he => ?_, h.held, nofun, fun c' hc' => ?_⟩
  · have he : e ∈ (w.inbox.insert c.id chan).waiters := he
    rw [hentry] at he
    obtain rfl := List.mem_singleton.mp he
    exact hlt
  · obtain rfl := Option.some.inj hc'
    refine ⟨fun e he => ?_, fun chan' hchan => ?_, fun chan' r hchan hheld => ?_, nofun⟩
    · have he : e ∈ (w.inbox.insert c.id chan).waiters := he
      rw [hentry] at he
      obtain rfl := List.mem_singleton.mp he
      exact ⟨rfl, trivial, fun chan' hchan => Option.some.inj hchan⟩
    · obtain rfl := Option.some.inj hchan
      exact hlt
    · -- the reader cannot hold a response for a channel that was never listed
      obtain rfl := Option.some.inj hchan
      have hl := (hlinked.held chan r (by rw [hstage]; rfl) hheld).2.1
      rw [hstage] at hl
      exact hl.elim

theorem turned (h : Routes w) (hc : w.calling = some c) (ht : Turned w c t w') : Routes w' := by
  have hlinked := h.linked c hc
  cases ht with
  | fails hs | shut hs => exact h.finish (h.empty hc (by simp [hs, Stage.Listed]))
  | opens hs => exact h.opens (h.empty hc (by simp [hs, Stage.Listed]))
  | refused chan hs => exact h.finish (h.empty hc (by simp [hs, Stage.Listed]))
  | registers chan hs => exact h.registers hc hs
  | sends chan queue hs =>
    refine h.moveTo hc (fun _ => trivial) (fun chan' hchan => ?_) fun r hr => ?_
    · rw [hs]; exact hchan
    · rw [hs]; exact hr
  | receives chan r queue hs =>
    exact h.finish (hlinked.queued r (by simp [hs, Stage.queue])).2
  | expires chan queue hs => exact h.moveTo hc (fun _ => trivial) nofun nofun
  | disconnects chan hs gone =>
    refine h.finish (List.eq_nil_iff_forall_not_mem.mpr fun e he => ?_)
    have hchan : e.2 = chan := (hlinked.listed e he).2.2 chan (by rw [hs]; rfl)
    simp only [World.connected, Bool.or_eq_false_iff, List.any_eq_false] at gone
    exact gone.1 e he (by simpa using hchan)
  | givesUp hs =>
    refine ⟨fun e he => h.entries e (List.mem_of_mem_filter he), h.held, fun _ => ?_, nofun⟩
    exact List.filter_eq_nil_iff.mpr fun e he => by simp [(hlinked.listed e he).1]

/-- What neither the calls nor the reader look at is nothing to them. -/
theorem congr (h : Routes w) (hinbox : w'.inbox = w.inbox) (hreader : w'.reader = w.reader)
    (hcalling : w'.calling = w.calling) (hchan : w'.nextChan = w.nextChan) : Routes w' where
  entries := by rw [hinbox, hchan]; exact h.entries
  held := by rw [hreader, hchan]; exact h.held
  idle := by rw [hinbox, hcalling]; exact h.idle
  linked c hc := by
    obtain ⟨listed, numbered, held, queued⟩ := h.linked c (hcalling ▸ hc)
    exact ⟨by rw [hinbox]; exact listed, by rw [hchan]; exact numbered,
      by rw [hinbox, hreader]; exact held, by rw [hinbox]; exact queued⟩

/-- The reader takes a waiter out: the call's, or nobody's any more. -/
theorem takes (h : Routes w) {chan : Chan} {r : Response}
    (hentry : (r.id, chan) ∈ w.inbox.waiters) :
    Routes { w with inbox := w.inbox.remove r.id, reader := .holding chan r } where
  entries e he := h.entries e (List.mem_of_mem_filter he)
  held chan' r' hheld := by
    obtain ⟨rfl, rfl⟩ := Reader.holding.inj hheld
    exact h.entries _ hentry
  idle hidle := by
    rw [h.idle hidle] at hentry
    cases hentry
  linked c hc := by
    have hlinked := h.linked c hc
    obtain ⟨hid, hl, hchan⟩ := hlinked.listed _ hentry
    have hempty : (w.inbox.remove r.id).waiters = [] :=
      List.filter_eq_nil_iff.mpr fun e he => by
        simp [(hlinked.listed e he).1, ← hid]
    refine ⟨fun e he => hlinked.listed e (List.mem_of_mem_filter he), hlinked.numbered,
      fun chan' r' hchan' hheld => ?_, fun r' hr => ⟨(hlinked.queued r' hr).1, hempty⟩⟩
    obtain ⟨rfl, rfl⟩ := Reader.holding.inj hheld
    exact ⟨hid, hl, hempty⟩

theorem mem_queue_push {chan : Chan} {r r' : Response} {s : Stage}
    (h : r' ∈ (s.push chan r).queue) : r' ∈ s.queue ∨ s.chan? = some chan ∧ r' = r := by
  cases s with
  | entered | opened | timedOut => cases h
  | registered chan' queue | waiting chan' queue =>
    by_cases hchan : chan' = chan
    · subst hchan
      simpa [Stage.push, Stage.queue, Stage.chan?] using h
    · exact .inl (by simpa [Stage.push, Stage.queue, hchan] using h)

@[simp] theorem chan?_push {chan : Chan} {r : Response} {s : Stage} :
    (s.push chan r).chan? = s.chan? := by cases s <;> rfl

theorem listed_push {chan : Chan} {r : Response} {s : Stage} (h : s.Listed) :
    (s.push chan r).Listed := by
  cases s <;> trivial

/-- A response arrives with the call whose channel it is, or with nobody. -/
theorem delivers (h : Routes w) {chan : Chan} {r : Response} (hheld : w.reader = .holding chan r) :
    Routes (w.deliver chan r) where
  entries := h.entries
  held chan' r' hheld' := nomatch hheld'
  idle hidle := h.idle (Option.map_eq_none_iff.mp hidle)
  linked c' hc' := by
    obtain ⟨c, hc, rfl⟩ := Option.map_eq_some_iff.mp hc'
    have hlinked := h.linked c hc
    refine ⟨fun e he => ?_, fun chan' hchan => ?_, nofun, fun r' hr => ?_⟩
    · obtain ⟨hid, hl, hchans⟩ := hlinked.listed e he
      exact ⟨hid, listed_push hl, fun chan' hchan => hchans chan' (chan?_push ▸ hchan)⟩
    · exact hlinked.numbered chan' (chan?_push ▸ hchan)
    · rcases mem_queue_push hr with hr | ⟨hchan, rfl⟩
      · exact hlinked.queued r' hr
      · obtain ⟨hid, -, hempty⟩ := hlinked.held chan r' hchan hheld
        exact ⟨hid, hempty⟩

theorem routed (h : Routes w) (hr : Routed w w') : Routes w' := by
  cases hr with
  | frame => exact h.congr rfl rfl rfl rfl
  | takes chan r entry => exact h.takes entry
  | delivers chan r held => exact h.delivers held
  | ends =>
    refine ⟨nofun, nofun, fun _ => rfl, fun c hc => ?_⟩
    have hlinked := h.linked c hc
    exact ⟨nofun, hlinked.numbered, nofun, fun r hr => ⟨(hlinked.queued r hr).1, rfl⟩⟩

theorem stepped (h : Routes w) (hs : Stepped w a w') : Routes w' := by
  cases hs with
  | call request idle =>
    have hempty := h.idle idle
    refine ⟨h.entries, h.held, nofun, fun c hc => ?_⟩
    obtain rfl := Option.some.inj hc
    refine ⟨fun e he => ?_, nofun, nofun, nofun⟩
    have he : e ∈ w.inbox.waiters := he
    rw [hempty] at he
    cases he
  | turn t c w' calling turned => exact h.turned calling turned
  | reader a w' reading routed => exact h.routed routed
  | other => exact h.congr rfl rfl rfl rfl

end Routes

/-! ## The closed table, and the ids -/

theorem Turned.reader (h : Turned w c t w') : w'.reader = w.reader := by
  cases h <;> rfl

theorem Turned.closed (h : Turned w c t w') : w'.inbox.closed = w.inbox.closed := by
  cases h <;> rfl

theorem Turned.nextId (h : Turned w c t w') : w'.nextId = w.nextId := by
  cases h <;> rfl

theorem ids_moveTo {stage : Stage} (h : w.calling = some c) : (w.moveTo c stage).ids = w.ids := by
  simp [World.ids, World.moveTo, h]

theorem ids_finish {exit : Exit} (h : w.calling = some c) : (w.finish c exit).ids = w.ids := by
  simp [World.ids, World.finish, h]

theorem Turned.ids (hc : w.calling = some c) (h : Turned w c t w') : w'.ids = w.ids := by
  cases h with
  | fails | shut | refused | receives | disconnects => exact ids_finish hc
  | sends | expires => exact ids_moveTo hc
  | opens | registers => simp [World.ids, World.moveTo, hc]
  | givesUp => simp [World.ids, World.finish, hc]

theorem Sealed.stepped (h : Sealed w) (hs : Stepped w a w') : Sealed w' := by
  cases hs with
  | call => exact ⟨h.closed, h.cleared⟩
  | turn t c w' calling turned =>
    refine ⟨by rw [turned.closed, turned.reader]; exact h.closed, fun hend => ?_⟩
    rw [turned.reader] at hend
    have hempty := h.cleared hend
    cases turned with
    | registers chan _ hopen => simp [h.closed.mpr hend] at hopen
    | givesUp => exact List.filter_eq_nil_iff.mpr (by simp [hempty])
    | _ => exact hempty
  | reader a w' reading routed =>
    cases routed with
    | frame => exact ⟨h.closed, h.cleared⟩
    | takes | delivers =>
      have hopen : w.inbox.closed ≠ true := fun hc => reading (h.closed.mp hc)
      exact ⟨iff_of_false hopen nofun, nofun⟩
    | ends => exact ⟨iff_of_true rfl rfl, fun _ => rfl⟩
  | other => exact ⟨h.closed, h.cleared⟩

/-- What a call returns with, if it does. -/
theorem Turned.returned (h : Turned w c t w') : w'.returned = w.returned ∨
    ∃ exit, w'.returned = w.returned ++ [⟨c.id, c.request, exit⟩] ∧
      ∀ r, exit = .replied r → r ∈ c.stage.queue := by
  cases h with
  | opens | registers | sends | expires => exact .inl rfl
  | receives chan r queue h =>
    refine .inr ⟨_, rfl, fun r' hr => ?_⟩
    obtain rfl := Exit.replied.inj hr
    simp [h, Stage.queue]
  | fails | shut | refused | disconnects | givesUp => exact .inr ⟨_, rfl, nofun⟩

theorem Numbered.stepped (h : Numbered w) (hr : Routes w) (hs : Stepped w a w') :
    Numbered w' := by
  cases hs with
  | call request idle =>
    have hids : World.ids { w with
        nextId := w.nextId + 1, calling := some ⟨w.nextId, request, .entered⟩ } =
        w.ids ++ [w.nextId] := by simp [World.ids, idle]
    refine ⟨?_, fun id hid => ?_, h.answered⟩
    · rw [hids]
      exact List.pairwise_append.mpr ⟨h.ordered, List.pairwise_singleton _ _,
        fun id hid id' hid' => List.mem_singleton.mp hid' ▸ h.fresh id hid⟩
    · rw [hids] at hid
      rcases List.mem_append.mp hid with hid | hid
      · exact Nat.lt_succ_of_lt (h.fresh id hid)
      · exact List.mem_singleton.mp hid ▸ Nat.lt_succ_self _
  | turn t c w' calling turned =>
    refine ⟨by rw [turned.ids calling]; exact h.ordered,
      by rw [turned.ids calling, turned.nextId]; exact h.fresh, fun d hd r hexit => ?_⟩
    rcases turned.returned with hret | ⟨exit, hret, hqueue⟩
    · exact h.answered d (hret ▸ hd) r hexit
    · rw [hret] at hd
      rcases List.mem_append.mp hd with hd | hd
      · exact h.answered d hd r hexit
      · obtain rfl := List.mem_singleton.mp hd
        exact ((hr.linked c calling).queued r (hqueue r hexit)).1
  | reader a w' reading routed =>
    have hids : w'.ids = w.ids ∧ w'.nextId = w.nextId ∧ w'.returned = w.returned := by
      cases routed with
      | frame | takes | ends => exact ⟨rfl, rfl, rfl⟩
      | delivers =>
        refine ⟨?_, rfl, rfl⟩
        cases hc : w.calling <;> simp [World.ids, World.deliver, hc]
    obtain ⟨hids, hnext, hret⟩ := hids
    exact ⟨by rw [hids]; exact h.ordered, by rw [hids, hnext]; exact h.fresh,
      by rw [hret]; exact h.answered⟩
  | other => exact ⟨h.ordered, h.fresh, h.answered⟩

end Engine
end Willie
