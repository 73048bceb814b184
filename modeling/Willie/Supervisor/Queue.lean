import Mathlib.Algebra.GroupWithZero.Nat
import Mathlib.Algebra.Order.BigOperators.Group.List
import Mathlib.Algebra.Order.Group.Nat
import Mathlib.Data.Int.Notation
import Willie.Common.Threads
import Willie.Supervisor.Screen

/-!
# Supervisor — what one client's queue holds

A client's messages go to its writer over a channel without bound, and a
counter of their bytes stands for the bound. Whoever sends adds to the
counter first, and takes back what it added if it may not send, or nobody
receives; the writer subtracts what it has written. Any number of threads
make any calls, so what each of them calls next does not matter.
-/

namespace Willie
namespace Supervisor
namespace Queue

/-- The budget of one client. -/
def queueBytes : ℕ := 1024 * 1024

/-- What the writer is handed. -/
inductive Msg where
  | data (bytes : Bytes)
  /-- Written, and then the writer ends. -/
  | close (bytes : Bytes)
  deriving DecidableEq, Repr

def Msg.len : Msg → ℕ
  | .data bytes | .close bytes => bytes.length

/-- Who hands it a message. -/
inductive Call where
  /-- `enqueue`, by a broadcast, the replay or a fan-out. -/
  | enqueue
  /-- The client's thread answers a `status_req`. -/
  | status
  /-- `close_client`, or `finish`. -/
  | close
  /-- The client's thread ends. -/
  | leave
  deriving DecidableEq, Repr

structure Sent where
  msg : Msg
  call : Call
  deriving DecidableEq, Repr

/-- What a client's handle, its thread and its writer share. -/
structure Client where
  /-- The counter, an `AtomicUsize`; here a subtraction too many goes below
  zero. -/
  queued : ℤ := 0
  /-- What was sent and not received. -/
  channel : List Sent := []
  /-- The writer receives. -/
  alive : Bool := true

inductive Op where
  | call (call : Call) (bytes : Bytes)
  /-- What was added to the counter is sent. -/
  | send (sent : Sent)
  /-- What was added is subtracted again. -/
  | undo (len : ℕ)
  /-- The writer waits for a message. -/
  | receive
  | write (sent : Sent)
  /-- Its write has returned, and is subtracted. -/
  | settle (msg : Msg) (ok : Bool)
  /-- The writer ends, and the channel with it. -/
  | hangUp
  deriving DecidableEq, Repr

inductive In where
  | go
  /-- Whether the write succeeded. -/
  | outcome (ok : Bool)
  deriving DecidableEq, Repr

variable (s : Client)

def Client.add (len : ℕ) : Client := { s with queued := s.queued + len }

def Client.sub (len : ℕ) : Client := { s with queued := s.queued - len }

/-- A send on the channel, lost if nobody receives. -/
def Client.deliver (sent : Sent) : Client :=
  if s.alive then { s with channel := s.channel ++ [sent] } else s

/-- What the writer does after a write. -/
def Msg.next : Msg → Bool → List Op
  | .data _, true => [.receive]
  | _, _ => [.hangUp]

/-- **One atomic operation** of the threads of a client. -/
def run : Op → In → Client → Option (Client × List Op)
  | .call .enqueue frame, .go, s =>
    -- the test reads the counter as it was before the addition
    some (s.add frame.length, if s.queued + frame.length > queueBytes then [.undo frame.length]
      else [.send ⟨.data frame, .enqueue⟩])
  | .call .status frame, .go, s => some (s.add frame.length, [.send ⟨.data frame, .status⟩])
  | .call .close frame, .go, s => some (s.add frame.length, [.send ⟨.close frame, .close⟩])
  | .call .leave _, .go, s => some (s.deliver ⟨.close [], .leave⟩, [])
  | .send sent, .go, s =>
    -- a status reply that nobody receives is not taken back
    some (s.deliver sent, if s.alive ∨ sent.call = .status then [] else [.undo sent.msg.len])
  | .undo len, .go, s => some (s.sub len, [])
  | .receive, .go, s =>
    match s.channel with
    | [] => none
    | sent :: rest => some ({ s with channel := rest }, [.write sent])
  | .write sent, .outcome ok, s => some (s, [.settle sent.msg ok])
  | .settle msg ok, .go, s => some (s.sub msg.len, msg.next ok)
  | .hangUp, .go, s => some ({ s with alive := false }, [])
  | _, _, _ => none

abbrev State := Threads.State Client Op

abbrev step : State → ℕ × In → Option State := Threads.step run

/-- The writer, and the threads that will call. -/
def start (calls : List (List (Call × Bytes))) : State where
  shared := {}
  threads := [.receive] :: calls.map fun thread => thread.map fun c => .call c.1 c.2

/-- **What an operation can do.** -/
inductive Step (s : Client) : Op → In → Client → List Op → Prop
  | enqueue {frame : Bytes} (hle : s.queued + frame.length ≤ queueBytes) :
    Step s (.call .enqueue frame) .go (s.add frame.length) [.send ⟨.data frame, .enqueue⟩]
  | refuse {frame : Bytes} :
    Step s (.call .enqueue frame) .go (s.add frame.length) [.undo frame.length]
  | status {frame : Bytes} :
    Step s (.call .status frame) .go (s.add frame.length) [.send ⟨.data frame, .status⟩]
  | close {frame : Bytes} :
    Step s (.call .close frame) .go (s.add frame.length) [.send ⟨.close frame, .close⟩]
  | leave {frame : Bytes} : Step s (.call .leave frame) .go (s.deliver ⟨.close [], .leave⟩) []
  | send {sent : Sent} : Step s (.send sent) .go (s.deliver sent)
    (if s.alive ∨ sent.call = .status then [] else [.undo sent.msg.len])
  | undo {len : ℕ} : Step s (.undo len) .go (s.sub len) []
  | receive {sent : Sent} {rest : List Sent} (hchannel : s.channel = sent :: rest) :
    Step s .receive .go { s with channel := rest } [.write sent]
  | write {sent : Sent} {ok : Bool} : Step s (.write sent) (.outcome ok) s [.settle sent.msg ok]
  | settle {msg : Msg} {ok : Bool} : Step s (.settle msg ok) .go (s.sub msg.len) (msg.next ok)
  | hangUp : Step s .hangUp .go { s with alive := false } []

theorem step_of_run {s s' : Client} {op : Op} {i : In} {cont : List Op}
    (h : run op i s = some (s', cont)) : Step s op i s' cont := by
  unfold run at h
  split at h
  case h_1 =>
    obtain ⟨rfl, rfl⟩ := Prod.mk.inj (Option.some.inj h)
    split
    · exact .refuse
    · rename_i hle
      exact .enqueue (Int.not_lt.mp hle)
  case h_7 =>
    split at h
    · cases h
    · rename_i hchannel
      obtain ⟨rfl, rfl⟩ := Prod.mk.inj (Option.some.inj h)
      exact .receive hchannel
  case h_11 => cases h
  all_goals
    obtain ⟨rfl, rfl⟩ := Prod.mk.inj (Option.some.inj h)
    constructor

/-! ## Where the bytes are -/

/-- The bytes of messages. -/
def bytes (msgs : List Sent) : ℕ := (msgs.map (·.msg.len)).sum

/-- What the writer has received and not yet written. -/
def Op.writing : Op → ℕ
  | .write sent => sent.msg.len
  | _ => 0

/-- What is added and not yet sent or taken back, or written and not yet
subtracted. -/
def Op.between : Op → ℕ
  | .send sent => sent.msg.len
  | .undo len => len
  | .settle msg _ => msg.len
  | _ => 0

/-- **What the writer was handed** and has not written. -/
def unwritten (m : State) : ℕ := bytes m.shared.channel + m.load Op.writing

def between (m : State) : ℕ := m.load Op.between

/-- What `enqueue` accepted. -/
def Sent.accepted (sent : Sent) : ℕ := if sent.call = .enqueue then sent.msg.len else 0

def Op.accepted : Op → ℕ
  | .send sent | .write sent => sent.accepted
  | _ => 0

/-- What `enqueue` accepted and is not written, on its way to the channel,
in it, or with the writer. -/
def accepted (m : State) : ℕ := (m.shared.channel.map Sent.accepted).sum + m.load Op.accepted

/-- **The counter counts**: while the writer receives it is what was handed
and not written, and what is between an operation and its subtraction; and
never less. -/
structure Counted (m : State) : Prop where
  covers : (unwritten m + between m : ℤ) ≤ m.shared.queued
  exact : m.shared.alive = true → m.shared.queued = unwritten m + between m
  budget : accepted m ≤ queueBytes

variable {s s' : Client} {m m' : State} {turn : ℕ × In} {op : Op} {i : In} {cont : List Op}
  {sent : Sent} {len : ℕ}

@[simp] theorem bytes_nil : bytes [] = 0 := rfl
@[simp] theorem bytes_cons {msgs : List Sent} :
    bytes (sent :: msgs) = sent.msg.len + bytes msgs := by
  simp [bytes]
@[simp] theorem bytes_append {msgs msgs' : List Sent} :
    bytes (msgs ++ msgs') = bytes msgs + bytes msgs' := by
  simp [bytes]

/-- All the bytes there are, once the counter is set aside. -/
def held (s : Client) (ops : List Op) : ℕ :=
  bytes s.channel + (ops.map fun op => op.writing + op.between).sum

@[simp] theorem deliver_queued : (s.deliver sent).queued = s.queued := by
  unfold Client.deliver
  split <;> rfl

@[simp] theorem deliver_alive : (s.deliver sent).alive = s.alive := by
  unfold Client.deliver
  split <;> rfl

theorem held_deliver {ops : List Op} : held (s.deliver sent) ops =
    held s ops + if s.alive = true then sent.msg.len else 0 := by
  unfold Client.deliver
  split <;> simp [held]
  omega

theorem next_held {msg : Msg} {ok : Bool} :
    ((msg.next ok).map fun op => op.writing + op.between).sum = 0 := by
  unfold Msg.next
  split <;> rfl

/-- **What an operation does to the counter and to the bytes**: it changes
them by the same, or there is no writer and fewer bytes. -/
structure Balanced (s s' : Client) (op : Op) (cont : List Op) : Prop where
  covers : s.queued + held s' cont ≤ s'.queued + held s [op]
  exact : s'.alive = true → s.alive = true ∧ s'.queued + held s [op] = s.queued + held s' cont

theorem Balanced.of_eq (ha : s'.alive = s.alive)
    (h : s'.queued + held s [op] = s.queued + held s' cont) : Balanced s s' op cont :=
  ⟨Int.le_of_eq h.symm, fun hs => ⟨ha ▸ hs, h⟩⟩

theorem balanced_of_run (h : run op i s = some (s', cont)) : Balanced s s' op cont := by
  cases step_of_run h with
  | enqueue | refuse | status | close =>
    refine .of_eq rfl ?_
    simp [held, Client.add, Op.writing, Op.between, Msg.len]
    omega
  | leave =>
    refine .of_eq deliver_alive ?_
    rw [deliver_queued, held_deliver]
    simp [held, Op.writing, Op.between, Msg.len]
  | send =>
    cases halive : s.alive with
    | true =>
      refine .of_eq deliver_alive ?_
      rw [deliver_queued, held_deliver, if_pos halive]
      simp [held, Op.writing, Op.between]
    | false =>
      -- the bytes are given up: taken back, or not
      refine ⟨?_, fun ha => ?_⟩
      · rw [deliver_queued, held_deliver, halive, if_neg Bool.false_ne_true]
        split
        · simp [held, Op.writing, Op.between]
        · simp [held, Op.writing, Op.between]
      · rw [deliver_alive, halive] at ha
        cases ha
  | undo =>
    refine .of_eq rfl ?_
    simp [held, Client.sub, Op.writing, Op.between]
  | receive hchannel =>
    refine .of_eq rfl ?_
    simp [held, hchannel, Op.writing, Op.between]
    omega
  | write =>
    refine .of_eq rfl ?_
    simp [held, Op.writing, Op.between]
  | settle =>
    refine .of_eq rfl ?_
    rw [held, held, next_held]
    simp [Client.sub, Op.writing, Op.between]
  | hangUp => exact ⟨Int.le_refl _, fun ha => (nomatch ha)⟩

theorem unwritten_add_between :
    unwritten m + between m = bytes m.shared.channel +
      m.load fun op => op.writing + op.between := by
  have hload : (m.load fun op => op.writing + op.between) =
      m.load Op.writing + m.load Op.between := List.sum_map_add
  rw [hload, unwritten, between, Nat.add_assoc]

/-! ## The budget -/

theorem accepted_le : accepted m ≤ unwritten m + between m := by
  rw [unwritten_add_between]
  refine Nat.add_le_add (List.sum_le_sum fun sent _ => ?_) (List.sum_le_sum fun op _ => ?_)
  · unfold Sent.accepted
    split
    · exact Nat.le_refl _
    · exact Nat.zero_le _
  · cases op with
    | send sent | write sent =>
      simp only [Op.accepted, Op.writing, Op.between, Sent.accepted]
      split <;> omega
    | _ => exact Nat.zero_le _

/-- What `enqueue` accepted grows by what it accepts, and not beyond the
budget. -/
theorem accepted_of_run (h : run op i s = some (s', cont)) :
    (s'.channel.map Sent.accepted).sum + (cont.map Op.accepted).sum ≤
        (s.channel.map Sent.accepted).sum + op.accepted ∨
      ∃ n : ℕ, s.queued + n ≤ queueBytes ∧
        (s'.channel.map Sent.accepted).sum + (cont.map Op.accepted).sum =
          (s.channel.map Sent.accepted).sum + op.accepted + n := by
  have hdeliver (sent : Sent) : ((s.deliver sent).channel.map Sent.accepted).sum ≤
      (s.channel.map Sent.accepted).sum + sent.accepted := by
    unfold Client.deliver
    split
    · simp
    · exact Nat.le_add_right ..
  cases step_of_run h with
  | @enqueue frame hle =>
    refine .inr ⟨frame.length, hle, ?_⟩
    simp [Op.accepted, Client.add, Sent.accepted, Msg.len]
  | leave => exact .inl (hdeliver _)
  | @send sent =>
    refine .inl ?_
    have hd := hdeliver sent
    split <;> simpa [Op.accepted] using hd
  | receive hchannel =>
    refine .inl ?_
    simp [hchannel, Op.accepted]
    omega
  | settle =>
    refine .inl ?_
    unfold Msg.next
    split <;> simp [Op.accepted, Client.sub]
  | _ => exact .inl (by simp [Op.accepted, Client.add, Client.sub, Sent.accepted])

/-! ## Every run -/

theorem Counted.step (hc : Counted m) (h : step m turn = some m') : Counted m' := by
  obtain ⟨op, cont, pre, post, -, hrun, hold, hnew⟩ := Threads.step_pending h
  have hbal := balanced_of_run hrun
  have hload := Threads.load_step (f := fun op => op.writing + op.between) hold hnew
  have hload' := Threads.load_step (f := Op.accepted) hold hnew
  have hcovers := hc.covers
  have hexact := hc.exact
  have hsum : held m.shared [op] = bytes m.shared.channel + (op.writing + op.between) := by
    simp [held]
  have hall : (unwritten m + between m : ℤ) = ((unwritten m + between m : ℕ) : ℤ) := by simp
  have hall' : (unwritten m' + between m' : ℤ) = ((unwritten m' + between m' : ℕ) : ℤ) := by simp
  rw [hall, unwritten_add_between] at hcovers hexact
  refine ⟨?_, fun ha => ?_, ?_⟩
  · have hle := hbal.covers
    rw [hsum, held] at hle
    rw [hall', unwritten_add_between]
    omega
  · obtain ⟨ha', heq⟩ := hbal.exact ha
    have hwas := hexact ha'
    rw [hsum, held] at heq
    rw [hall', unwritten_add_between]
    omega
  · rcases accepted_of_run hrun with hle | ⟨n, hle, heq⟩
    · have hbudget := hc.budget
      unfold accepted at hbudget ⊢
      omega
    · have hsmall := accepted_le (m := m)
      rw [unwritten_add_between] at hsmall
      unfold accepted at hsmall ⊢
      omega

theorem counted_start {calls : List (List (Call × Bytes))} : Counted (start calls) := by
  have hnone (f : Op → ℕ) (hr : f .receive = 0) (hc : ∀ c b, f (.call c b) = 0) :
      (start calls).load f = 0 := by
    refine Threads.load_eq_zero fun op hop => ?_
    simp only [start, Threads.State.pending, List.flatten_cons, List.mem_append,
      List.mem_singleton, List.mem_flatten, List.mem_map] at hop
    rcases hop with rfl | ⟨_, ⟨thread, -, rfl⟩, hop⟩
    · exact hr
    · obtain ⟨c, -, rfl⟩ := List.mem_map.mp hop
      exact hc _ _
  have hw := hnone Op.writing rfl fun _ _ => rfl
  have hb := hnone Op.between rfl fun _ _ => rfl
  have ha := hnone Op.accepted rfl fun _ _ => rfl
  refine ⟨?_, fun _ => ?_, ?_⟩
  · rw [unwritten, between, hw, hb]
    exact Int.le_refl _
  · rw [unwritten, between, hw, hb]
    rfl
  · rw [accepted, ha]
    exact Nat.zero_le _

/-- **The accounting of one queue**, in one state. -/
structure Accounts (m : State) : Prop where
  nonneg : 0 ≤ m.shared.queued
  covers : (unwritten m : ℤ) ≤ m.shared.queued
  /-- Nothing is added and not sent, or written and not subtracted. -/
  exact : m.shared.alive = true → between m = 0 → m.shared.queued = unwritten m
  budget : accepted m ≤ queueBytes
  /-- `enqueue` would refuse for what there is. -/
  refuses : m.shared.alive = true → ∀ frame : Bytes,
    m.shared.queued + frame.length > queueBytes ↔
      unwritten m + between m + frame.length > queueBytes

theorem Counted.accounts (hc : Counted m) : Accounts m := by
  have hcovers := hc.covers
  refine ⟨by omega, by omega, fun ha hb => ?_, hc.budget, fun ha frame => ?_⟩
  · have hexact := hc.exact ha
    omega
  · have hexact := hc.exact ha
    omega

/-- **Queue accounting never wraps**, whatever the threads call and however
their operations take turns. -/
theorem queue_never_wraps (calls : List (List (Call × Bytes))) (turns : List (ℕ × In)) :
    Runs.Always step Accounts (start calls) turns :=
  Runs.always_of_keeps counted_start (fun _ _ _ hc h => hc.step h) fun _ hc => hc.accounts

/-! ## What the counter does not say -/

/-- An event is sent, received and written. -/
def writtenOnce : List (ℕ × In) := [(1, .go), (1, .go), (0, .go), (0, .outcome true)]

/-- Events that fit in the budget are all sent. -/
theorem exec_enqueue {s : Client} (k : ℕ) (frame : Bytes) (rest : List Op)
    (others : List (List Op)) (ha : s.alive = true)
    (hle : s.queued + k * frame.length ≤ queueBytes) :
    Runs.exec step
      ⟨s, [.receive] :: (List.replicate k (.call .enqueue frame) ++ rest) :: others⟩
      (List.replicate (2 * k) (1, .go)) =
    some ⟨{ s with
      queued := s.queued + k * frame.length
      channel := s.channel ++ List.replicate k ⟨.data frame, .enqueue⟩ },
      [.receive] :: rest :: others⟩ := by
  induction k generalizing s with
  | zero => simp [Runs.exec]
  | succ k ih =>
    push_cast at hle ⊢
    have hgrow : (frame.length : ℤ) ≤ (k + 1) * frame.length := by
      rw [Int.add_mul, Int.one_mul]
      exact Int.le_add_of_nonneg_left (Int.mul_nonneg (Int.natCast_nonneg k) (Int.natCast_nonneg _))
    have hfits : ¬ s.queued + frame.length > queueBytes := by omega
    have hnext := ih (s := (s.add frame.length).deliver ⟨.data frame, .enqueue⟩)
      (by rw [deliver_alive]; exact ha)
      (by rw [deliver_queued, Client.add]; dsimp only; rw [Int.add_mul, Int.one_mul] at hle; omega)
    have htwo : List.replicate (2 * (k + 1)) ((1, .go) : ℕ × In) =
        (1, .go) :: (1, .go) :: List.replicate (2 * k) (1, .go) := rfl
    rw [htwo]
    have hadd : step ⟨s, [.receive] :: (List.replicate (k + 1) (.call .enqueue frame) ++ rest) ::
        others⟩ (1, .go) = some ⟨s.add frame.length, [.receive] ::
          (.send ⟨.data frame, .enqueue⟩ :: (List.replicate k (.call .enqueue frame) ++ rest)) ::
            others⟩ := by
      simp [Threads.step, run, hfits, List.replicate_succ]
    have hsend : step ⟨s.add frame.length, [.receive] ::
        (.send ⟨.data frame, .enqueue⟩ :: (List.replicate k (.call .enqueue frame) ++ rest)) ::
          others⟩ (1, .go) = some ⟨(s.add frame.length).deliver ⟨.data frame, .enqueue⟩,
            [.receive] :: (List.replicate k (.call .enqueue frame) ++ rest) :: others⟩ := by
      simp [Threads.step, run, Client.add, ha]
    rw [Runs.exec, hadd, Option.bind_some, Runs.exec, hsend, Option.bind_some, hnext]
    simp [Client.deliver, Client.add, ha, List.replicate_succ, Int.add_mul, Int.add_assoc,
      Int.add_comm]

section Overtaken

variable {k : ℕ} {event reply : Bytes}

/-- Events, and a status reply. -/
def filling (k : ℕ) (event reply : Bytes) : State :=
  start [List.replicate (k + 1) (.enqueue, event), [(.status, reply)]]

/-- The last of the events is accepted, and the reply sent before it. -/
def overtaken (k : ℕ) : List (ℕ × In) :=
  List.replicate (2 * k) (1, .go) ++ ([(1, .go), (2, .go), (2, .go)] : List (ℕ × In))

theorem exec_overtaken (hle : k * event.length + event.length ≤ queueBytes) :
    Runs.exec step (filling k event reply) (overtaken k) =
      some ⟨{
        queued := k * event.length + event.length + reply.length
        channel := List.replicate k ⟨.data event, .enqueue⟩ ++ [⟨.data reply, .status⟩] },
        [[.receive], [.send ⟨.data event, .enqueue⟩], []]⟩ := by
  have hstart : filling k event reply = ⟨{}, [.receive] ::
      (List.replicate k (.call .enqueue event) ++ [.call .enqueue event]) ::
        [[.call .status reply]]⟩ := by
    simp [filling, start, List.replicate_succ']
  have hfill := @exec_enqueue {} k event [.call .enqueue event] [[.call .status reply]] rfl
    (by dsimp only; omega)
  have hfits : ¬ (k * event.length + event.length : ℤ) > queueBytes := by omega
  rw [hstart, overtaken, Runs.exec_append, hfill, Option.bind_some]
  simp [Runs.exec, Threads.step, run, Client.add, Client.deliver, hfits]

/-- The event is sent, and what is not written grows by it. -/
theorem overtaken_send (k : ℕ) (event reply : Bytes)
    (hle : k * event.length + event.length ≤ queueBytes) :
    ∃ m m', Runs.exec step (filling k event reply) (overtaken k) = some m ∧
      m.next 1 = some (.send ⟨.data event, .enqueue⟩) ∧ step m (1, .go) = some m' ∧
      unwritten m = k * event.length + reply.length ∧
      unwritten m' = k * event.length + reply.length + event.length := by
  have hbytes (sent : Sent) : bytes (List.replicate k sent) = k * sent.msg.len := by
    simp [bytes]
  refine ⟨_, _, exec_overtaken hle, rfl, rfl, ?_, ?_⟩
  · simp [unwritten, Threads.State.load, Threads.State.pending, Op.writing, hbytes, Msg.len]
  · simp [unwritten, Threads.State.load, Threads.State.pending, Op.writing, hbytes, Msg.len,
      Client.deliver]
    omega

end Overtaken

/-- The counter is ahead of what is not written between a write and its
subtraction; and a message that fitted when it was accepted is more than the
budget when it is sent, if a reply was sent in between. -/
theorem counter_strays :
    (∃ m, Runs.exec step (start [[(.enqueue, [0])]]) writtenOnce = some m ∧
      m.shared.alive = true ∧ m.pending = [.settle (.data [0]) true] ∧
      m.shared.queued = 1 ∧ unwritten m = 0) ∧
    ∃ event reply : Bytes, event.length = 256 ∧ reply.length = 100 ∧
      ∃ m m', Runs.exec step (filling 4095 event reply) (overtaken 4095) = some m ∧
        m.next 1 = some (.send ⟨.data event, .enqueue⟩) ∧ step m (1, .go) = some m' ∧
        unwritten m ≤ queueBytes ∧ unwritten m' > queueBytes := by
  constructor
  · have hend : (Runs.exec step (start [[(.enqueue, [0])]]) writtenOnce).map (fun m =>
        (m.shared.alive, m.pending, m.shared.queued, unwritten m)) =
          some (true, [.settle (.data [0]) true], 1, 0) := by decide
    obtain ⟨m, hm, hview⟩ := Option.map_eq_some_iff.mp hend
    simp only [Prod.mk.injEq] at hview
    exact ⟨m, hm, hview⟩
  · have hevent : (List.replicate 256 (0 : UInt8)).length = 256 := List.length_replicate
    have hreply : (List.replicate 100 (0 : UInt8)).length = 100 := List.length_replicate
    obtain ⟨m, m', hm, hnext, hstep, hwas, hnow⟩ := overtaken_send 4095
      (List.replicate 256 0) (List.replicate 100 0) (by rw [hevent]; decide)
    rw [hevent, hreply] at hwas hnow
    refine ⟨_, _, hevent, hreply, m, m', hm, hnext, hstep, ?_, ?_⟩
    · rw [hwas]
      decide
    · rw [hnow]
      decide

end Queue
end Supervisor
end Willie
