import Willie.Supervisor.Logging

/-!
# Supervisor — the live stream is the log

An event is appended to the log under one lock, and fanned out to the control
clients under another. A control client is sent the log from the moment it is
registered if events are fanned out in the order of their lines, and it is
not registered between an event's two halves.
-/

namespace Willie
namespace Supervisor

open Sessions (SessionEvent SessionEventKind applyEvent fromLog)

variable {s s' : Shared} {id j line : ℕ} {role : Role} {cont : List Op} {op : Op} {i : In}
  {q q' : List Msg} {m m' : State} {turn : ℕ × In} {turns : List (ℕ × In)}

/-! ## The stream -/

/-- An event between its two halves. -/
def Op.unsent : Op → ℕ
  | .fanOut .. => 1
  | _ => 0

/-- **The stream is the log**: each control client on the list was sent the
lines since it was registered, as far as they were fanned out; and what was
not is what is between its two halves. -/
structure Live (m : State) : Prop where
  sent : ∀ j, ⟨j, .control⟩ ∈ m.shared.clients →
    m.shared.since j ≤ m.shared.told ∧
      events (m.shared.queue j) = (m.shared.log.take m.shared.told).drop (m.shared.since j)
  owed : m.shared.told + m.load Op.unsent = m.shared.log.length

/-- An operation in order: while a control client is on the list, events are
fanned out in the order of their lines; all of them are written, and no control
client is registered between an event's two halves. -/
def Op.inOrder (s : Shared) : Op → In → Bool
  | .fanOut line _, _ => line = s.told || s.clients.all (·.role ≠ .control)
  | .client id, .go => s.stage id ≠ .registering .control || s.told = s.log.length
  | _, .wrote _ ok => ok
  | _, _ => true

/-- **The turn's operation is in order.** -/
def InOrder (m : State) (turn : ℕ × In) : Prop :=
  ∀ op ∈ m.next turn.1, op.inOrder m.shared turn.2 = true

instance (m : State) (turn : ℕ × In) : Decidable (InOrder m turn) :=
  inferInstanceAs (Decidable (∀ op ∈ m.next turn.1, _))

/-- What every step keeps. -/
structure Streaming (m : State) : Prop where
  numbered : Numbered m.shared
  early : ∀ j, (m.shared.stage j).early = true → events (m.shared.queue j) = []
  lines : ∀ op ∈ m.pending, ∀ line ev, op = .fanOut line ev → m.shared.log[line]? = some ev
  live : Live m

/-! ## A step in order -/

theorem unsent_eq_zero (hop : ∀ line ev, op ≠ .fanOut line ev) : op.unsent = 0 := by
  cases op with
  | fanOut line ev => exact absurd rfl (hop line ev)
  | _ => rfl

/-- A line stays where it is, and what is to be fanned out has one. -/
theorem lines_of_run (h : run op i s = some (s', cont)) (hok : op.inOrder s i = true) :
    (∀ (line : ℕ) ev, s.log[line]? = some ev → s'.log[line]? = some ev) ∧
      ∀ line ev, .fanOut line ev ∈ cont → s'.log[line]? = some ev := by
  cases logs_of_run h with
  | @line op at_ ok kind rest hop hlog htold hcont hrest =>
    have hwrote : ok = true := by
      rcases hop with rfl | ⟨rfl, -⟩ <;> exact hok
    rw [hwrote, if_pos rfl] at hlog
    refine ⟨fun line ev hline => ?_, fun line ev hmem => ?_⟩
    · rw [hlog, List.getElem?_append_left (List.getElem?_eq_some_iff.mp hline).1]
      exact hline
    · rw [hcont] at hmem
      rcases List.mem_cons.mp hmem with heq | hmem
      · obtain ⟨rfl, rfl⟩ := Op.fanOut.inj heq
        simp [hlog]
      · rcases hrest with rfl | rfl <;> simp at hmem
  | @fanOut line ev refused hs hcont =>
    have hlog : s'.log = s.log := by rw [hs]; rfl
    rw [hlog, hcont]
    exact ⟨fun _ _ h => h, nofun⟩
  | other hlog htold hop _ hcont =>
    rw [hlog]
    exact ⟨fun _ _ h => h, fun line ev hmem => absurd hmem (hcont line ev)⟩

/-- What is written is told, or is between its two halves. -/
theorem told_of_run (h : run op i s = some (s', cont)) (hok : op.inOrder s i = true) :
    s'.told + (cont.map Op.unsent).sum + s.log.length = s'.log.length + (s.told + op.unsent) := by
  cases logs_of_run h with
  | @line op at_ ok kind rest hop hlog htold hcont hrest =>
    have hwrote : ok = true := by
      rcases hop with rfl | ⟨rfl, -⟩ <;> exact hok
    have hzero : Op.unsent op = 0 := by
      rcases hop with rfl | ⟨rfl, -⟩ <;> rfl
    have hone : (cont.map Op.unsent).sum = 1 := by
      rw [hcont]
      rcases hrest with rfl | rfl <;> rfl
    rw [htold, hlog, hwrote, if_pos rfl, List.length_append, List.length_singleton]
    omega
  | @fanOut line ev refused hs hcont =>
    have hlog : s'.log = s.log := by rw [hs]; rfl
    have htold : s'.told = s.told + 1 := by rw [hs]; rfl
    have hone : Op.unsent (.fanOut line ev) = 1 := rfl
    rw [hlog, htold, hcont, List.map_nil, List.sum_nil]
    omega
  | other hlog htold hop _ hcont =>
    have hnone : (cont.map Op.unsent).sum = 0 :=
      Threads.sum_eq_zero fun o ho => unsent_eq_zero fun line ev he => hcont line ev (he ▸ ho)
    rw [hlog, htold, hnone, unsent_eq_zero hop]
    omega

/-- **Who is on the list was sent the log**, as far as it was told. -/
theorem Streaming.sent_step (hs : Streaming m) (hmem : op ∈ m.pending)
    (hrun : run op i m.shared = some (s', cont)) (hok : op.inOrder m.shared i = true)
    (hlisted : ⟨j, .control⟩ ∈ s'.clients) : s'.since j ≤ s'.told ∧
      events (s'.queue j) = (s'.log.take s'.told).drop (s'.since j) := by
  have howed := hs.live.owed
  have hlist := listed_of_run hs.numbered hrun hlisted
  cases logs_of_run hrun with
  | @line op at_ ok kind rest hop hlog htold hcont hrest =>
    have hwrote : ok = true := by
      rcases hop with rfl | ⟨rfl, -⟩ <;> exact hok
    have hfan : ∀ line ev, op ≠ .fanOut line ev := by
      rintro line ev rfl
      rcases hop with hop | ⟨hop, -⟩ <;> cases hop
    rcases hlist with ⟨hwas, hsince⟩ | ⟨rfl, -⟩
    · obtain ⟨hle, hsent⟩ := hs.live.sent j hwas
      rw [events_of_run hrun hfan, hsince, htold, hlog, hwrote, if_pos rfl,
        List.take_append_of_le_length (by omega)]
      exact ⟨hle, hsent⟩
    · rcases hop with hop | ⟨hop, -⟩ <;> cases hop
  | @fanOut line ev refused hshared hcont =>
    have hline := hs.lines _ hmem _ _ rfl
    have hlog : s'.log = m.shared.log := by rw [hshared]; rfl
    have htold : s'.told = m.shared.told + 1 := by rw [hshared]; rfl
    rcases hlist with ⟨hwas, hsince⟩ | ⟨hop, -⟩
    · obtain ⟨hle, hsent⟩ := hs.live.sent j hwas
      -- with this client on the list, it is the next line's turn
      obtain rfl : line = m.shared.told := by
        rcases (Bool.or_eq_true ..).mp hok with hnext | hnone
        · exact of_decide_eq_true hnext
        · exact absurd rfl (of_decide_eq_true (List.all_eq_true.mp hnone _ hwas))
      have hlt := (List.getElem?_eq_some_iff.mp hline).1
      have htake : m.shared.log.take (m.shared.told + 1) =
          m.shared.log.take m.shared.told ++ [ev] := by
        rw [List.take_add_one, hline]
        rfl
      rw [hsince, htold, hlog, htake, List.drop_append_of_le_length
        (by rw [List.length_take]; omega), ← hsent]
      rw [hshared] at hlisted ⊢
      rw [events_fanOutEvent, if_pos hlisted]
      exact ⟨by omega, rfl⟩
    · cases hop
  | other hlog htold hop _ hcont =>
    rw [events_of_run hrun hop, htold, hlog]
    rcases hlist with ⟨hwas, hsince⟩ | ⟨rfl, hi, hst, hsince⟩
    · rw [hsince]
      exact hs.live.sent j hwas
    · -- it is registered now, with nothing between its halves
      have hall : m.shared.told = m.shared.log.length := by
        rw [hi] at hok
        simpa [Op.inOrder, hst] using hok
      have hnone := hs.early j (by rw [hst]; rfl)
      rw [hnone, hsince, ← hall]
      exact ⟨Nat.le_refl _, by simp⟩

/-- **A step in order keeps the stream the log.** -/
theorem Streaming.step (hs : Streaming m) (hok : InOrder m turn) (h : step m turn = some m') :
    Streaming m' := by
  obtain ⟨op, cont, pre, post, hnext, hrun, hold, hnew⟩ := Threads.step_pending h
  have horder : op.inOrder m.shared turn.2 = true := hok op hnext
  have hload := Threads.load_step (f := Op.unsent) hold hnew
  have howed := hs.live.owed
  have htold := told_of_run hrun horder
  obtain ⟨hkept, hcont⟩ := lines_of_run hrun horder
  refine ⟨hs.numbered.run hrun, fun j => early_events_of_run hs.numbered hs.early hrun, ?_,
    ⟨fun j => hs.sent_step (Threads.next_mem hnext) hrun horder, by omega⟩⟩
  exact Threads.forall_pending hold hnew hs.lines
    (fun o ho line ev he => hkept line ev (ho line ev he))
    fun o ho line ev he => hcont line ev (he ▸ ho)

theorem streaming_start {at_ : String} {pid n : ℕ} {mechanisms unavailable : List String} :
    Streaming (start at_ pid mechanisms unavailable n) := by
  have hnone : ∀ op ∈ (start at_ pid mechanisms unavailable n).pending, ∀ line ev,
      op ≠ .fanOut line ev := by
    rintro op hop line ev rfl
    rcases pending_start hop with h | h | h | h | h <;> cases h
  refine ⟨numbered_start, fun _ _ => rfl, fun op hop line ev he => absurd he (hnone op hop line ev),
    fun _ h => (List.not_mem_nil h).elim, ?_⟩
  rw [load_start rfl rfl rfl rfl rfl]
  rfl

theorem streaming_run {at_ : String} {pid n : ℕ} {mechanisms unavailable : List String}
    (hrun : Runs.exec step (start at_ pid mechanisms unavailable n) turns = some m)
    (hok : Runs.Guarded step InOrder (start at_ pid mechanisms unavailable n) turns) :
    Streaming m :=
  Runs.exec_invariant hrun hok streaming_start fun _ _ _ hs ho h => hs.step ho h

/-- **The live stream is the log.** In a run in order, what a control client
on the list was sent, and then what is between its two halves, is the log
since it was registered; and folding the one onto the log until then is
folding the other. -/
theorem stream_is_log {at_ : String} {pid n : ℕ} {mechanisms unavailable : List String}
    (hrun : Runs.exec step (start at_ pid mechanisms unavailable n) turns = some m)
    (hok : Runs.Guarded step InOrder (start at_ pid mechanisms unavailable n) turns)
    (hj : ⟨j, .control⟩ ∈ m.shared.clients) (spec : Sessions.SessionSpec) :
    ∃ owed, events (m.shared.queue j) ++ owed = m.shared.log.drop (m.shared.since j) ∧
      owed.length = m.load Op.unsent ∧
      (events (m.shared.queue j) ++ owed).foldl applyEvent
        (fromLog spec (m.shared.log.take (m.shared.since j))) = fromLog spec m.shared.log := by
  have hlive := (streaming_run hrun hok).live
  obtain ⟨hle, hsent⟩ := hlive.sent j hj
  have howed := hlive.owed
  have hall : events (m.shared.queue j) ++ m.shared.log.drop m.shared.told =
      m.shared.log.drop (m.shared.since j) := by
    rw [hsent, ← List.drop_append_of_le_length (by rw [List.length_take]; omega),
      List.take_append_drop]
  refine ⟨m.shared.log.drop m.shared.told, hall, by rw [List.length_drop]; omega, ?_⟩
  rw [hall, fromLog, fromLog, ← List.foldl_append, List.take_append_drop]

/-- Two threads' refusals cross while nobody listens. Then a control client is
registered; a signal's stop and a refused call are logged, one behind the other,
and fanned out so. -/
def inOrder : List (ℕ × In) :=
  [(0, .read [] ["osc"]), (0, .now 0), (0, .wrote "2" true), (1, .notified "bpf"), (1, .now 0),
    (1, .wrote "3" true), (1, .refused []), (0, .refused []),
    (4, .greeting .control 0 0), (4, .outcome true), (4, .go), (2, .go), (2, .go), (2, .go),
    (2, .wrote "4" true), (1, .notified "kexec_load"), (1, .now 0), (1, .wrote "5" true),
    (2, .refused []), (1, .refused [])]

theorem stream_is_log_denial : ∃ m, Runs.exec step (opened 1) inOrder = some m ∧
    ⟨1, .control⟩ ∈ m.shared.clients ∧ (events (m.shared.queue 1)).length = 2 ∧
    ∀ spec, ∃ owed,
      events (m.shared.queue 1) ++ owed = m.shared.log.drop (m.shared.since 1) ∧
      owed.length = m.load Op.unsent ∧
      (events (m.shared.queue 1) ++ owed).foldl applyEvent
        (fromLog spec (m.shared.log.take (m.shared.since 1))) = fromLog spec m.shared.log := by
  have hend : (Runs.exec step (opened 1) inOrder).any (fun m =>
      ⟨1, .control⟩ ∈ m.shared.clients && (events (m.shared.queue 1)).length = 2) = true := by
    decide
  obtain ⟨m, hm, hview⟩ := (Option.any_eq_true ..).mp hend
  simp only [Bool.and_eq_true, decide_eq_true_eq] at hview
  exact ⟨m, hm, hview.1, hview.2, fun spec => stream_is_log hm (by decide) hview.1 spec⟩

/-- A signal's stop and a refused call are logged in one order, and fanned out
in the other. -/
def crossed : List (ℕ × In) :=
  [(4, .greeting .control 0 0), (4, .outcome true), (4, .go), (2, .go), (2, .go), (2, .go),
    (2, .wrote "2" true), (1, .notified "bpf"), (1, .now 0), (1, .wrote "3" true),
    (1, .refused []), (2, .refused [])]

/-- The client is then sent the refusal before the stop. -/
theorem stream_crosses : ∃ m, Runs.exec step (opened 1) crossed = some m ∧
    ⟨1, .control⟩ ∈ m.shared.clients ∧ m.load Op.unsent = 0 ∧
    m.shared.log.drop (m.shared.since 1) =
      [⟨"2", .stopRequested "signal"⟩, ⟨"3", .sandboxDenied "syscall" "bpf" 1⟩] ∧
    events (m.shared.queue 1) =
      [⟨"3", .sandboxDenied "syscall" "bpf" 1⟩, ⟨"2", .stopRequested "signal"⟩] := by
  have hend : (Runs.exec step (opened 1) crossed).map (fun m => (m.shared.clients,
      m.load Op.unsent, m.shared.log.drop (m.shared.since 1), events (m.shared.queue 1))) =
        some ([⟨1, .control⟩], 0,
          [⟨"2", .stopRequested "signal"⟩, ⟨"3", .sandboxDenied "syscall" "bpf" 1⟩],
          [⟨"3", .sandboxDenied "syscall" "bpf" 1⟩, ⟨"2", .stopRequested "signal"⟩]) := by
    decide
  obtain ⟨m, hm, hview⟩ := Option.map_eq_some_iff.mp hend
  simp only [Prod.mk.injEq] at hview
  obtain ⟨hc, hload, hlog, hsent⟩ := hview
  exact ⟨m, hm, by simp [hc], hload, hlog, hsent⟩

end Supervisor
end Willie
