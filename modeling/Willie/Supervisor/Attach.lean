import Mathlib.Data.List.Infix
import Willie.Supervisor.Clients

/-!
# Supervisor — attach loses and repeats nothing

A terminal's replay is read off the ring under one lock, and the terminal is
registered later under another; the pump pushes into the ring and fans out
under the same two. What the terminal is sent is the ring and everything
after it exactly if, when it is registered, what the pump has fanned out is
what had been forwarded when the replay was read.
-/

namespace Willie
namespace Supervisor

variable {s s' : Shared} {id j line p : ℕ} {role : Role} {cont : List Op} {op : Op} {i : In}
  {bytes : Bytes} {room : List (ℕ × ℕ)} {q q' : List Msg} {m : State} {turn : ℕ × In}

/-- The output a client was sent. -/
def outputs (q : List Msg) : Bytes :=
  q.flatMap fun
    | .output bytes => bytes
    | _ => []

@[simp] theorem outputs_append : outputs (q ++ q') = outputs q ++ outputs q' := List.flatMap_append

@[simp] theorem outputs_output {frames : List Bytes} :
    outputs (frames.map .output) = frames.flatten := by
  induction frames with
  | nil => rfl
  | cons f fs ih =>
    rw [List.map_cons, List.flatten_cons, ← ih]
    rfl

theorem outputs_send {msgs : List Msg} (h : outputs msgs = []) :
    outputs ((s.send id msgs).queue j) = outputs (s.queue j) := by
  rw [queue_send, outputs_append, apply_ite outputs, h]
  exact (congrArg _ (ite_self _)).trans (List.append_nil _)

/-- **A terminal was sent the whole**: what it was sent and what is still to
be fanned out is the ring as its replay was read, and everything forwarded
since. -/
def WholeAt (s : Shared) (j : ℕ) : Prop :=
  ∀ p, s.joined j = some p →
    outputs (s.queue j) ++ s.forwarded.drop s.fanned =
      lastBytes ringBytes (s.forwarded.take p) ++ s.forwarded.drop p

/-- Every terminal on the list, and every one `finish` took from it, was sent
the whole. What the pump has forwarded and is still to fan out counts as sent:
a byte is repeated from the moment it is in a replay and still to come. A
replay off the alternate screen is not in question. -/
def Whole (m : State) : Prop :=
  ∀ j, ⟨j, .terminal⟩ ∈ m.shared.clients ++ m.shared.taken → WholeAt m.shared j

/-- **A terminal is registered** with nothing fanned out since its replay was
read, and nothing of it still to be fanned out. -/
def Joins (m : State) (turn : ℕ × In) : Prop :=
  ∀ id p, m.next turn.1 = some (.client id) → turn.2 = .go →
    m.shared.stage id = .registering .terminal → m.shared.joined id = some p → m.shared.fanned = p

/-! ## The pump -/

/-- What is in the ring and not with the clients. -/
def Main.owed : Main → Bytes
  | .fanOut bytes => bytes
  | _ => []

/-- The output has ended. -/
def Main.ended : Main → Bool
  | .pump | .push _ | .fanOut _ => false
  | _ => true

structure Pumped (s : Shared) : Prop where
  ring : s.ring = lastBytes ringBytes s.forwarded
  fanned : s.fanned + s.main.owed.length = s.forwarded.length
  owed : s.forwarded.drop s.fanned = s.main.owed
  taken : s.main.ended = false → s.taken = []

theorem Pumped.aside (hp : Pumped s) (hr : s'.ring = s.ring) (hf : s'.forwarded = s.forwarded)
    (hfan : s'.fanned = s.fanned) (ho : s'.main.owed = s.main.owed)
    (ht : s'.main.ended = false → s'.taken = []) : Pumped s' where
  ring := by rw [hr, hf, hp.ring]
  fanned := by rw [hfan, hf, ho, hp.fanned]
  owed := by rw [hfan, hf, ho, hp.owed]
  taken := ht

theorem Pumped.main (hp : Pumped s) (h : MainStep s s.main i s' cont) : Pumped s' := by
  have howed := hp.owed
  have hfanned := hp.fanned
  have htaken := hp.taken
  generalize hm : s.main = main at h howed hfanned htaken
  cases h with
  | read =>
    refine hp.aside rfl rfl rfl ?_ fun _ => htaken rfl
    rw [hm]
    dsimp only
    split <;> rfl
  | push =>
    have hall : s.fanned = s.forwarded.length := hfanned
    refine ⟨?_, ?_, ?_, fun _ => htaken rfl⟩
    · dsimp only
      rw [hp.ring]
      exact pushRing_lastBytes
    · simp [Main.owed, hall]
    · simp [Main.owed, hall]
  | @fanOut bytes room =>
    have hall : s.fanned + bytes.length = s.forwarded.length := hfanned
    refine ⟨hp.ring, hall, ?_, fun _ => htaken rfl⟩
    exact List.drop_eq_nil_of_le hall.ge
  | drain => exact hp.aside rfl rfl rfl (by rw [hm]) fun he => (nomatch he)
  | _ => exact hp.aside rfl rfl rfl (by rw [hm]; rfl) fun he => (nomatch he)

theorem Pumped.run (hp : Pumped s) (h : run op i s = some (s', cont)) : Pumped s' := by
  cases does_of_run h with
  | main h => exact hp.main h
  | client h =>
    rw [h.own.rest]
    exact hp.aside rfl rfl rfl rfl hp.taken
  | unstarted hs =>
    rw [hs]
    exact hp.aside rfl rfl rfl rfl hp.taken
  | started hs =>
    rw [hs]
    exact hp.aside rfl rfl rfl rfl hp.taken
  | fanOut hs =>
    rw [hs]
    exact hp.aside rfl rfl rfl rfl hp.taken
  | world hs =>
    rw [hs]
    exact hp.aside rfl rfl rfl rfl hp.taken
  | quiet hs =>
    rw [hs]
    exact hp.aside rfl rfl rfl rfl hp.taken

theorem Pumped.le (hp : Pumped s) : s.fanned ≤ s.forwarded.length := by
  have := hp.fanned
  omega

/-! ## A client that attaches -/

/-- The frames of the replay a terminal was not sent yet. -/
def Stage.unsent : Stage → Option (List Bytes)
  | .replay frames _ _ => some frames
  | .registering .terminal => some []
  | _ => none

/-- **A client on its way to the list**: it was sent the replay as far as its
thread has come. -/
structure Coming (s : Shared) (j : ℕ) : Prop where
  joined : ∀ p, s.joined j = some p → p ≤ s.forwarded.length
  silent : (∃ rows cols, s.stage j = .snapshot rows cols) ∨ s.stage j = .unborn →
    outputs (s.queue j) = []
  replay : ∀ frames, (s.stage j).unsent = some frames → ∀ p, s.joined j = some p →
    outputs (s.queue j) ++ frames.flatten = lastBytes ringBytes (s.forwarded.take p)

/-- What leaves a client's stage, its mark and its output as they are. -/
theorem Coming.frame (hc : Coming s j) (hst : s'.stage j = s.stage j)
    (hj : s'.joined j = s.joined j) (hf : s.forwarded <+: s'.forwarded)
    (hq : (s.stage j).early = true → outputs (s'.queue j) = outputs (s.queue j)) :
    Coming s' j := by
  have hle := hf.length_le
  refine ⟨fun p hp => ?_, fun h => ?_, fun frames h p hp => ?_⟩
  · exact (hc.joined p (hj ▸ hp)).trans hle
  · rw [hst] at h
    rw [hq]
    · exact hc.silent h
    · rcases h with ⟨rows, cols, h⟩ | h <;> rw [h] <;> rfl
  · rw [hst] at h
    rw [hj] at hp
    have htake : s'.forwarded.take p = s.forwarded.take p := by
      obtain ⟨more, hmore⟩ := hf
      rw [← hmore, List.take_append_of_le_length (hc.joined p hp)]
    rw [hq, htake]
    · exact hc.replay frames h p hp
    · cases hstage : s.stage j with
      | replay => rfl
      | registering => rfl
      | _ => rw [hstage] at h; cases h

/-- The main thread hands no output but what it fans out. -/
theorem MainStep.outputs (h : MainStep s s.main i s' cont) :
    outputs (s'.queue j) = outputs (s.queue j) ∨
      ∃ bytes room, s.main = .fanOut bytes ∧ ⟨j, .terminal⟩ ∈ s.clients ∧
        s' = s.fanOutOutput bytes room := by
  generalize s.main = main at h
  cases h with
  | @fanOut bytes room =>
    by_cases hmem : ⟨j, .terminal⟩ ∈ s.clients
    · exact .inr ⟨bytes, room, rfl, hmem, rfl⟩
    · refine .inl ?_
      dsimp only [Shared.fanOutOutput]
      rw [if_neg fun h => hmem h.1]
  | close => exact .inl (outputs_send rfl)
  | _ => exact .inl rfl

/-- What is forwarded grows. -/
theorem MainStep.forwarded {main : Main} (h : MainStep s main i s' cont) :
    s.forwarded <+: s'.forwarded := by
  cases h with
  | push => exact List.prefix_append ..
  | _ => exact List.prefix_rfl

theorem Coming.main (hc : Coming s j) (hn : Numbered s) (h : MainStep s s.main i s' cont) :
    Coming s' j := by
  have ha := h.aside
  refine hc.frame (by rw [ha.stage]) (by rw [ha.joined]) h.forwarded fun he => ?_
  rcases h.outputs (j := j) with hq | ⟨_, _, -, hmem, -⟩
  · exact hq
  · exact absurd hmem (hn.not_mem he)

/-- Once it is past the list there is nothing more to say of its way there. -/
theorem Coming.past (hc : Coming s j) (hst : (s'.stage j).early = false)
    (hj : s'.joined j = s.joined j) (hf : s'.forwarded = s.forwarded) : Coming s' j := by
  refine ⟨fun p hp => ?_, fun h => ?_, fun frames h => ?_⟩
  · rw [hf]
    exact hc.joined p (hj ▸ hp)
  · rcases h with ⟨rows, cols, h⟩ | h <;> rw [h] at hst <;> cases hst
  · cases hstage : s'.stage j with
    | replay => rw [hstage] at hst; cases hst
    | registering => rw [hstage] at hst; cases hst
    | _ => rw [hstage] at h; cases h

theorem flatten_replay {ring : Bytes} : (if ring = [] then [] else chunks ring).flatten = ring := by
  split
  · rename_i h
    rw [h]
    rfl
  · exact chunks_flatten

/-- A client's thread brings its own client on. -/
theorem Coming.client (hc : Coming s id) (hp : Pumped s)
    (h : ClientStep s id (s.stage id) i s' cont) : Coming s' id := by
  by_cases hearly : (s.stage id).early = false
  · exact hc.past (h.early hearly) (by rw [(h.marks hearly).1]) (by rw [h.own.rest])
  have hreplay := hc.replay
  have hsilent := hc.silent
  generalize s.stage id = st at h hreplay hsilent hearly
  cases h with
  | @snapshot rows cols =>
    have hmark (p : ℕ) (hp : Function.update s.joined id
        (if s.alt.active = true then none else some s.forwarded.length) id = some p) :
        s.alt.active = false ∧ s.forwarded.length = p := by
      rw [Function.update_self] at hp
      split at hp
      · cases hp
      · rename_i halt
        exact ⟨Bool.eq_false_of_not_eq_true halt, Option.some.inj hp⟩
    refine ⟨fun p hp => (hmark p hp).2.ge, fun h => ?_, fun frames hf p hj => ?_⟩
    · dsimp only at h
      rw [Function.update_self] at h
      rcases h with ⟨_, _, h⟩ | h <;> cases h
    · -- the frames are the ring, and the ring is the end of what was forwarded
      dsimp only at hf hj ⊢
      rw [Function.update_self] at hf
      obtain ⟨halt, rfl⟩ := hmark p hj
      obtain rfl := Option.some.inj hf
      rw [hsilent (.inl ⟨rows, cols, rfl⟩), List.nil_append, flatten_replay,
        if_neg (by simp [halt]), hp.ring, List.take_length]
  | @sent frame frames rows cols hgone =>
    refine ⟨hc.joined, fun h => ?_, fun frames' hf p hj => ?_⟩
    · dsimp only at h
      rw [Function.update_self] at h
      rcases h with ⟨_, _, h⟩ | h <;> cases h
    · dsimp only at hf hj ⊢
      rw [Function.update_self] at hf
      obtain rfl := Option.some.inj hf
      have hframe : outputs [.output frame] = frame := List.append_nil frame
      rw [queue_send, if_pos ⟨rfl, hgone⟩, outputs_append, List.append_assoc, hframe]
      exact hreplay _ rfl p hj
  | dropped =>
    refine hc.past ?_ rfl rfl
    simp [Stage.early]
  | replayed =>
    refine ⟨hc.joined, fun h => ?_, fun frames' hf p hj => ?_⟩
    · dsimp only at h
      rw [Function.update_self] at h
      rcases h with ⟨_, _, h⟩ | h <;> cases h
    · dsimp only at hf hj ⊢
      rw [Function.update_self] at hf
      obtain rfl := Option.some.inj hf
      exact hreplay _ rfl p hj
  | register =>
    refine hc.past ?_ rfl rfl
    simp [Stage.early]
  | _ => exact absurd rfl hearly

/-! ## Every operation -/

/-- What the pump and the clients on their way keep whatever happens. -/
structure Attaching (s : Shared) : Prop where
  numbered : Numbered s
  pumped : Pumped s
  coming : ∀ j, Coming s j

theorem outputs_fanOutEvent {ev : Sessions.SessionEvent} {refused : List ℕ} :
    outputs ((s.fanOutEvent ev refused).queue j) = outputs (s.queue j) := by
  dsimp only [Shared.fanOutEvent]
  rw [outputs_append]
  split <;> exact List.append_nil _

theorem Attaching.run (ha : Attaching s) (h : run op i s = some (s', cont)) : Attaching s' := by
  refine ⟨ha.numbered.run h, ha.pumped.run h, fun j => ?_⟩
  have hc := ha.coming j
  cases does_of_run h with
  | main h => exact hc.main ha.numbered h
  | @client id i h =>
    by_cases hj : j = id
    · subst hj
      exact hc.client ha.pumped h
    · have ho := h.own
      refine hc.frame (ho.stage j hj) (ho.joined j hj) ?_ fun _ => by rw [ho.queue j hj]
      rw [ho.rest]
  | unstarted hs =>
    rw [hs]
    exact hc.frame rfl rfl List.prefix_rfl fun _ => rfl
  | @started role rows cols hs =>
    rw [hs]
    by_cases hj : j = s.nextId + 1
    · subst hj
      have hborn := ha.numbered.unborn _ (Nat.lt_succ_self s.nextId)
      refine ⟨hc.joined, fun _ => hc.silent (.inr hborn), fun frames hf => ?_⟩
      dsimp only at hf
      rw [Function.update_self] at hf
      cases role <;> cases hf
    · refine hc.frame ?_ rfl List.prefix_rfl fun _ => rfl
      exact Function.update_of_ne hj ..
  | fanOut hs =>
    rw [hs]
    exact hc.frame rfl rfl List.prefix_rfl fun _ => outputs_fanOutEvent
  | world hs =>
    rw [hs]
    exact hc.frame rfl rfl List.prefix_rfl fun _ => rfl
  | quiet hs =>
    rw [hs]
    exact hc.frame rfl rfl List.prefix_rfl fun _ => rfl

theorem WholeAt.frame (h : WholeAt s j) (hj : s'.joined j = s.joined j)
    (hf : s'.forwarded = s.forwarded) (hfan : s'.fanned = s.fanned)
    (hq : outputs (s'.queue j) = outputs (s.queue j)) : WholeAt s' j := by
  intro p hp
  rw [hf, hfan, hq]
  exact h p (hj ▸ hp)

/-- What the pump pushes is still to be fanned out to every terminal. -/
theorem WholeAt.push (h : WholeAt s j) (ha : Attaching s) (hj : s'.joined j = s.joined j)
    (hf : s'.forwarded = s.forwarded ++ bytes) (hfan : s'.fanned = s.fanned)
    (hq : s'.queue j = s.queue j) : WholeAt s' j := by
  intro p hp
  have hp' : s.joined j = some p := hj ▸ hp
  have hle := (ha.coming j).joined p hp'
  rw [hf, hfan, hq, List.drop_append_of_le_length ha.pumped.le, List.drop_append_of_le_length hle,
    List.take_append_of_le_length hle, ← List.append_assoc, ← List.append_assoc, h p hp']

/-- A terminal that keeps its place is sent all of a broadcast. -/
theorem outputs_fanOutOutput (hmem : ⟨j, .terminal⟩ ∈ (s.fanOutOutput bytes room).clients) :
    outputs ((s.fanOutOutput bytes room).queue j) = outputs (s.queue j) ++ bytes := by
  obtain ⟨hin, hkeeps⟩ := List.mem_filter.mp hmem
  have hroom : (chunks bytes).length ≤ s.roomFor (chunks bytes) room j := by
    simpa [Shared.keepsOutput] using hkeeps
  have hgone : j ∉ s.gone := fun hg => by
    have hpos : 0 < (chunks bytes).length := by
      unfold chunks
      split
      · exact Nat.one_pos
      · rename_i hne
        have hlen := List.length_pos_iff.mpr hne
        rw [List.length_map, List.length_range]
        unfold maxPayload
        omega
    rw [Shared.roomFor, if_pos hg] at hroom
    omega
  dsimp only [Shared.fanOutOutput]
  rw [if_pos ⟨hin, hgone⟩, if_pos hroom, List.append_nil, outputs_append, outputs_output,
    List.take_of_length_le hroom, chunks_flatten]

theorem WholeAt.fanOut (h : WholeAt s j) (hp : Pumped s) (hm : s.main = .fanOut bytes)
    (hmem : ⟨j, .terminal⟩ ∈ (s.fanOutOutput bytes room).clients) :
    WholeAt (s.fanOutOutput bytes room) j := by
  intro p hj
  have howed := hp.owed
  have hfanned := hp.fanned
  rw [hm] at howed hfanned
  have hall : (s.fanOutOutput bytes room).forwarded.drop (s.fanOutOutput bytes room).fanned = [] :=
    List.drop_eq_nil_of_le hfanned.ge
  have hwhole := h p hj
  rw [howed] at hwhole
  rw [hall, List.append_nil, outputs_fanOutOutput hmem]
  exact hwhole

/-- What the main thread does to a terminal that stays, or that it takes. -/
theorem WholeAt.main (ha : Attaching s)
    (hw : ∀ j, ⟨j, .terminal⟩ ∈ s.clients ++ s.taken → WholeAt s j)
    (h : MainStep s s.main i s' cont) (hmem : ⟨j, .terminal⟩ ∈ s'.clients ++ s'.taken) :
    WholeAt s' j := by
  have hwas : ⟨j, .terminal⟩ ∈ s.clients ++ s.taken := by
    rcases List.mem_append.mp hmem with hm | hm
    · exact List.mem_append_left _ (h.aside.clients.subset hm)
    · rcases h.aside.taken _ hm with hm | hm
      · exact List.mem_append_right _ hm
      · exact List.mem_append_left _ hm
  have hj := hw j hwas
  have hp := ha.pumped
  generalize hm : s.main = main at h
  cases h with
  | push => exact hj.push ha rfl rfl rfl rfl
  | @fanOut bytes room =>
    have hnone : (s.fanOutOutput bytes room).taken = [] := hp.taken (by rw [hm]; rfl)
    refine hj.fanOut hp hm ((List.mem_append.mp hmem).resolve_right fun ht => ?_)
    rw [hnone] at ht
    cases ht
  | close => exact hj.frame rfl rfl rfl (outputs_send rfl)
  | _ => exact hj.frame rfl rfl rfl rfl

/-- What a registered client's own thread hands it is no output. -/
theorem ClientStep.outputs {st : Stage} (h : ClientStep s id st i s' cont)
    (hst : st.early = false) : outputs (s'.queue id) = outputs (s.queue id) := by
  cases h with
  | snapshot | sent | dropped | replayed | register => cases hst
  | status | shut => exact outputs_send rfl
  | _ => rfl

theorem WholeAt.client (ha : Attaching s)
    (hw : ∀ j, ⟨j, .terminal⟩ ∈ s.clients ++ s.taken → WholeAt s j)
    (hok : ∀ p, i = .go → s.stage id = .registering .terminal → s.joined id = some p →
      s.fanned = p)
    (h : ClientStep s id (s.stage id) i s' cont)
    (hmem : ⟨j, .terminal⟩ ∈ s'.clients ++ s'.taken) : WholeAt s' j := by
  have ho := h.own
  have hf : s'.forwarded = s.forwarded := by rw [ho.rest]
  have hfan : s'.fanned = s.fanned := by rw [ho.rest]
  have ht : s'.taken = s.taken := by rw [ho.rest]
  by_cases hj : j = id
  · subst hj
    have hwas : ⟨j, .terminal⟩ ∈ s.clients ++ s.taken ∨
        (s.stage j = .registering .terminal ∧ i = .go ∧ s'.queue = s.queue ∧
          s'.joined = s.joined ∧ s'.since j = s.log.length) := by
      rw [ht] at hmem
      rcases List.mem_append.mp hmem with hm | hm
      · exact (h.listed hm).imp_left (List.mem_append_left _)
      · exact .inl (List.mem_append_right _ hm)
    rcases hwas with hin | ⟨hst, hi, hq, hjoined, -⟩
    · have hearly : (s.stage j).early = false := by
        rcases List.mem_append.mp hin with hm | hm
        · exact ha.numbered.not_early hm
        · exact ha.numbered.taken _ hm
      exact (hw j hin).frame (by rw [(h.marks hearly).1]) hf hfan (h.outputs hearly)
    · -- it is registered now, with what its replay was
      intro p hp
      rw [hjoined] at hp
      have hsent := (ha.coming j).replay [] (by rw [hst]; rfl) p hp
      rw [List.flatten_nil, List.append_nil] at hsent
      rw [hf, hfan, hq, hsent, hok p hi hst hp]
  · have hwas : ⟨j, .terminal⟩ ∈ s.clients ++ s.taken := by
      rw [ht, List.mem_append] at hmem
      exact List.mem_append.mpr (hmem.imp_left (ho.clients _ hj).mp)
    exact (hw j hwas).frame (ho.joined j hj) hf hfan (by rw [ho.queue j hj])

/-- **A step keeps the terminals whole** if it registers none too early or
too late. -/
theorem Whole.step {m' : State} (ha : Attaching m.shared) (hw : Whole m) (hok : Joins m turn)
    (h : step m turn = some m') : Whole m' := by
  obtain ⟨op, cont, -, -, hnext, hrun, -, -⟩ := Threads.step_pending h
  obtain ⟨k, i⟩ := turn
  dsimp only at hnext hrun
  intro j hmem
  cases does_of_run hrun with
  | main h => exact WholeAt.main ha hw h hmem
  | client h =>
    exact WholeAt.client ha hw (fun p hi hst hp => hok _ p hnext hi hst hp) h hmem
  | unstarted hs =>
    rw [hs] at hmem ⊢
    exact (hw j hmem).frame rfl rfl rfl rfl
  | started hs =>
    rw [hs] at hmem ⊢
    exact (hw j hmem).frame rfl rfl rfl rfl
  | fanOut hs =>
    rw [hs] at hmem ⊢
    refine (hw j ?_).frame rfl rfl rfl outputs_fanOutEvent
    exact List.mem_append.mpr ((List.mem_append.mp hmem).imp_left List.mem_of_mem_filter)
  | world hs =>
    rw [hs] at hmem ⊢
    exact (hw j hmem).frame rfl rfl rfl rfl
  | quiet hs =>
    rw [hs] at hmem ⊢
    exact (hw j hmem).frame rfl rfl rfl rfl

/-- A terminal registered too early or too late is not whole, from the moment
it is registered. -/
theorem joins_of_whole (ha : Attaching m.shared)
    (h : ∀ m', step m turn = some m' → Whole m') : Joins m turn := by
  intro id p hnext hi hst hp
  obtain ⟨s', cont, hrun, hmem, hjoined, hq, hf, hfan⟩ : ∃ s' cont,
      run (.client id) turn.2 m.shared = some (s', cont) ∧ ⟨id, .terminal⟩ ∈ s'.clients ∧
        s'.joined = m.shared.joined ∧ s'.queue = m.shared.queue ∧
        s'.forwarded = m.shared.forwarded ∧ s'.fanned = m.shared.fanned := by
    rw [hi]
    change ∃ s' cont, runClient m.shared id (m.shared.stage id) .go = some (s', cont) ∧ _
    rw [hst]
    exact ⟨_, _, rfl, List.mem_append_right _ (List.mem_singleton_self _), rfl, rfl, rfl, rfl⟩
  obtain ⟨m', hstep, rfl⟩ := Threads.step_of_next hnext hrun
  have hwhole := h m' hstep id (List.mem_append_left _ hmem) p (hjoined ▸ hp)
  have hsent := (ha.coming id).replay [] (by rw [hst]; rfl) p hp
  rw [List.flatten_nil, List.append_nil] at hsent
  rw [hq, hf, hfan, hsent] at hwhole
  have hlen := congrArg List.length (List.append_cancel_left hwhole)
  rw [List.length_drop, List.length_drop] at hlen
  have hle := ha.pumped.le
  have hle' := (ha.coming id).joined p hp
  omega

theorem attaching_start {at_ : String} {pid n : ℕ} {mechanisms unavailable : List String} :
    Attaching (start at_ pid mechanisms unavailable n).shared where
  numbered := numbered_start
  pumped := ⟨List.drop_nil.symm, rfl, rfl, fun _ => rfl⟩
  coming _ := ⟨fun _ h => (nomatch h), fun _ => rfl, fun _ h => (nomatch h)⟩

/-- **Attach loses and repeats nothing** in exactly the runs that register
every terminal when what was fanned out is what had been forwarded as its
replay was read. -/
theorem attach_whole (at_ : String) (pid : ℕ) (mechanisms unavailable : List String) (n : ℕ)
    (turns : List (ℕ × In)) :
    Runs.Always step Whole (start at_ pid mechanisms unavailable n) turns ↔
      Runs.Guarded step Joins (start at_ pid mechanisms unavailable n) turns := by
  refine Runs.always_iff_guarded (B := fun m => Attaching m.shared) attaching_start
    (fun j h => by cases h) (fun m turn m' ha h => ?_) fun m turn ha hw =>
      ⟨fun hok m' h => hw.step ha hok h, fun h => joins_of_whole ha h⟩
  obtain ⟨op, cont, -, -, -, hrun, -, -⟩ := Threads.step_pending h
  exact ha.run hrun

/-- It says hello and its replay is read off the ring. -/
def replayRead : List (ℕ × In) :=
  [(4, .greeting .terminal 24 80), (4, .outcome true), (4, .go)]

/-- The size is applied and logged, and the client registered. -/
def registered : List (ℕ × In) :=
  [(4, .go), (4, .go), (4, .outcome true), (4, .wrote "2" true), (4, .refused []), (4, .go)]

/-- A byte is broadcast between the two: the client is never sent it. -/
def between : List (ℕ × In) :=
  replayRead ++ ([(0, .read [65] []), (0, .go), (0, .room [])] : List (ℕ × In)) ++ registered

/-- A byte is in the ring before the first, and fanned out after the second:
the client is sent it twice. -/
def across : List (ℕ × In) :=
  ([(0, .read [65] []), (0, .go)] : List (ℕ × In)) ++ replayRead ++
    ([(4, .outcome true)] : List (ℕ × In)) ++ registered ++ ([(0, .room [])] : List (ℕ × In))

/-- What is seen of the client at the end of a run. -/
def seen (m : State) : List Handle × Option ℕ × ℕ × Bytes × Bytes :=
  (m.shared.clients, m.shared.joined 1, m.shared.fanned, m.shared.forwarded,
    outputs (m.shared.queue 1))

/-- The byte is lost in the one run, and repeated in the other. -/
theorem lost_and_repeated :
    (∃ m, Runs.exec step (opened 1) between = some m ∧ m.shared.forwarded = [65] ∧
      outputs (m.shared.queue 1) = [] ∧ ¬ Whole m) ∧
    ∃ m, Runs.exec step (opened 1) across = some m ∧ m.shared.forwarded = [65] ∧
      outputs (m.shared.queue 1) = [65, 65] ∧ ¬ Whole m := by
  have hlost : (Runs.exec step (opened 1) between).map seen =
      some ([⟨1, .terminal⟩], some 0, 1, [65], []) := by decide
  have hrepeated : (Runs.exec step (opened 1) across).map seen =
      some ([⟨1, .terminal⟩], some 1, 1, [65], [65, 65]) := by decide
  constructor
  · obtain ⟨m, hm, hseen⟩ := Option.map_eq_some_iff.mp hlost
    simp only [seen, Prod.mk.injEq] at hseen
    obtain ⟨hc, hj, hfan, hf, hq⟩ := hseen
    refine ⟨m, hm, hf, hq, fun hw => ?_⟩
    have hwhole := hw 1 (by simp [hc]) 0 hj
    rw [hq, hfan, hf] at hwhole
    exact absurd hwhole (by decide)
  · obtain ⟨m, hm, hseen⟩ := Option.map_eq_some_iff.mp hrepeated
    simp only [seen, Prod.mk.injEq] at hseen
    obtain ⟨hc, hj, hfan, hf, hq⟩ := hseen
    refine ⟨m, hm, hf, hq, fun hw => ?_⟩
    have hwhole := hw 1 (by simp [hc]) 1 hj
    rw [hq, hfan, hf] at hwhole
    exact absurd hwhole (by decide)

end Supervisor
end Willie
