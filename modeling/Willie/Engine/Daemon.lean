import Mathlib.Data.List.Infix
import Willie.Engine.Rpc

/-!
# The engine — the daemon it supervises

`DaemonSupervisor` holds the daemon's process while it runs, and says in what
state the daemon is. Processes are numbered as they are spawned, and what
happens to them is written down: here the owner of a process and the history
of all processes are one state. What an operation meets on the way (a spawn,
a reply, an exit noticed by a `try_wait`) is its argument.

After every operation the process it holds is the one that lives, and it holds
one exactly while it says `Running` (`never_orphaned`), so long as a spawn that
fails has not left a process behind.
-/

namespace Willie
namespace Engine

open Json (Value)

/-! ## What can go wrong -/

/-- A failure of `wsl.exe` that a spawn or a transport can meet. -/
inductive WslError where
  | notInstalled
  | io (message : String)
  deriving DecidableEq, Repr

def WslError.code : WslError → String
  | .notInstalled => "wsl_not_installed"
  | .io _ => "wsl_io"

def WslError.message : WslError → String
  | .notInstalled => "wsl.exe is not installed or not on PATH"
  | .io e => "i/o error talking to wsl.exe: " ++ e

/-- What the supervisor fails with. -/
inductive Failure where
  /-- A call's failure. -/
  | client (e : EngineError)
  | wsl (e : WslError)
  | daemonExited (code : Option ℤ) (detail : String)
  | versionMismatch (engine daemon : String)
  | daemonNotRunning

def EngineError.code : EngineError → String
  | .rpc _ => "daemon_error"
  | .timeout _ => "daemon_timeout"
  | .protocol _ => "protocol_violation"

def EngineError.message : EngineError → String
  | .rpc e => "daemon returned `" ++ e.code ++ "`: " ++ e.message
  | .timeout method => "no reply to `" ++ method ++ "` within the timeout"
  | .protocol e => "protocol violation: " ++ e

def logonTypeNotGranted : String := "0x80070569"

def Failure.code : Failure → String
  | .client e => e.code
  | .wsl e => e.code
  | .daemonExited _ detail =>
    if logonTypeNotGranted.toList <:+: detail.toList then "service_logon_right_missing"
    else "daemon_exited"
  | .versionMismatch .. => "version_mismatch"
  | .daemonNotRunning => "daemon_not_running"

def daemonExitedMessage (code : Option ℤ) (detail : String) : String :=
  let code := match code with
    | some code => toString code
    | none => "unknown"
  if Sessions.trim detail.toList = [] then "daemon exited with code " ++ code ++ " (no output)"
  else "daemon exited with code " ++ code ++ ": " ++ detail

def Failure.message : Failure → String
  | .client e => e.message
  | .wsl e => e.message
  | .daemonExited code detail => daemonExitedMessage code detail
  | .versionMismatch engine daemon =>
    "engine " ++ engine ++ " and daemon " ++ daemon ++ " are different Willie versions"
  | .daemonNotRunning => "the daemon is not running"

/-! ## The supervisor -/

inductive DaemonState where
  | stopped
  | running (willieVersion : String) (imageVersion : Option String)
  | failed (code message : String)
  deriving DecidableEq, Repr

def DaemonState.isRunning : DaemonState → Bool
  | .running .. => true
  | _ => false

/-- What happens to a process. A `try_wait` that notices its exit reaps it. -/
inductive Event where
  | spawned (process : ℕ)
  | killed (process : ℕ)
  | reaped (process : ℕ)
  deriving DecidableEq, Repr

structure DaemonSupervisor where
  live : Option ℕ := none
  state : DaemonState := .stopped
  history : List Event := []
  deriving DecidableEq, Repr

/-- What a `try_wait` answers: the exit code, once there is one. -/
abbrev TryWait := Except WslError (Option ℤ)

def TryWait.exited : TryWait → Bool
  | .ok (some _) => true
  | _ => false

structure HelloReply where
  willieVersion : String
  protocolVersion : ℕ
  distroImageVersion : Option String
  deriving DecidableEq, Repr

/-- How a spawn ends. -/
inductive Spawn where
  | failed (e : WslError)
  /-- The child runs, and the thread that would read its stderr cannot be
  started: the child is dropped, and neither killed nor waited for. -/
  | lost (e : WslError)
  | started

/-- What stopping the daemon meets: the reply to its shutdown, which is not
looked at, and the `try_wait`s before the deadline. -/
structure Stopping where
  shutdown : Except EngineError Value
  polls : List TryWait

/-- What starting it meets. -/
structure Starting where
  stopping : Stopping
  spawn : Spawn
  transport : Except WslError Unit
  hello : Except EngineError HelloReply
  /-- After a hello that failed: the `try_wait`s before the deadline, the one
  that decides, and what the child wrote to its stderr and its stdout. -/
  settle : List TryWait
  last : TryWait
  stderr : String
  stray : String

namespace DaemonSupervisor

variable (version : String) (d : DaemonSupervisor)

def log (events : List Event) : DaemonSupervisor := { d with history := d.history ++ events }

/-- The number of the next process. -/
def next (history : List Event) : ℕ := history.countP fun
  | .spawned _ => true
  | _ => false

/-- Kills and reaps the process before recording a failure. -/
def record (e : Failure) : DaemonSupervisor :=
  let d := match d.live with
    | some p => { d.log [.killed p, .reaped p] with live := none }
    | none => d
  { d with state := .failed e.code e.message }

/-- The `try_wait`s up to a deadline: whether one notices the exit. -/
def poll : List TryWait → Bool
  | [] => false
  | t :: ts => if t.exited then true else poll ts

def stop (s : Stopping) : DaemonSupervisor :=
  let d := match d.live with
    | some p =>
      { d.log (if poll s.polls then [.reaped p] else [.killed p, .reaped p]) with live := none }
    | none => d
  { d with state := .stopped }

/-- What an exit behind a failed hello says for itself. -/
def helloFailure (s : Starting) (e : EngineError) : Failure :=
  match s.last with
  | .ok (some code) =>
    .daemonExited (some code) (if Sessions.trim s.stderr.toList = [] then s.stray else s.stderr)
  | _ => .client e

def startWith (s : Starting) : DaemonSupervisor × Except Failure HelloReply :=
  let d := d.stop s.stopping
  let p := next d.history
  match s.spawn with
  | .failed e => (d.record (.wsl e), .error (.wsl e))
  | .lost e => ((d.log [.spawned p]).record (.wsl e), .error (.wsl e))
  | .started =>
    match s.transport with
    | .error e =>
      ((d.log [.spawned p, .killed p, .reaped p]).record (.wsl e), .error (.wsl e))
    | .ok () =>
      match s.hello with
      | .error e =>
        let noticed := if poll s.settle || s.last.exited then [.reaped p] else []
        let failure := helloFailure s e
        ((d.log (.spawned p :: noticed ++ [.killed p, .reaped p])).record failure, .error failure)
      | .ok reply =>
        if reply.willieVersion ≠ version then
          let failure := .versionMismatch version reply.willieVersion
          ((d.log [.spawned p, .killed p, .reaped p]).record failure, .error failure)
        else
          ({ d.log [.spawned p] with
              live := some p
              state := .running reply.willieVersion reply.distroImageVersion }, .ok reply)

/-- `state`: a daemon that died behind the engine's back is reaped. -/
def checked (seen : TryWait) (stderr : String) : DaemonSupervisor :=
  match d.live, seen with
  | some p, .ok (some code) => (d.log [.reaped p]).record (.daemonExited (some code) stderr)
  | _, _ => d

/-- A request to the daemon: only an error reply proves it alive. -/
def ask (reply : Except EngineError Value) : DaemonSupervisor × Except Failure Value :=
  match d.live with
  | none => (d, .error .daemonNotRunning)
  | some _ =>
    match reply with
    | .ok v => (d, .ok v)
    | .error (.rpc e) => (d, .error (.client (.rpc e)))
    | .error e => (d.record (.client e), .error (.client e))

def health (reply : Except EngineError Value) : DaemonSupervisor × Except Failure Value :=
  d.ask reply

def doctor (reply : Except EngineError Value) : DaemonSupervisor × Except Failure Value :=
  d.ask reply

/-- The first half of `call`: a daemon that does not run is started. -/
def reach (seen : TryWait) (stderr : String) (s : Starting) :
    DaemonSupervisor × Except Failure Unit :=
  let d := d.checked seen stderr
  if d.state.isRunning then (d, .ok ())
  else
    match d.startWith version s with
    | (d, .error e) => (d, .error e)
    | (d, .ok _) => (d, .ok ())

def call (seen : TryWait) (stderr : String) (s : Starting) (reply : Except EngineError Value) :
    DaemonSupervisor × Except Failure Value :=
  match d.reach version seen stderr s with
  | (d, .error e) => (d, .error e)
  | (d, .ok ()) => d.ask reply

end DaemonSupervisor

/-! ## Runs -/

/-- An operation, with what it meets. -/
inductive SupervisorOp where
  | start (s : Starting)
  | call (seen : TryWait) (stderr : String) (s : Starting) (reply : Except EngineError Value)
  | health (reply : Except EngineError Value)
  | doctor (reply : Except EngineError Value)
  | state (seen : TryWait) (stderr : String)
  | stop (s : Stopping)

namespace DaemonSupervisor

def perform (version : String) (d : DaemonSupervisor) : SupervisorOp → DaemonSupervisor
  | .start s => (d.startWith version s).1
  | .call seen stderr s reply => (d.call version seen stderr s reply).1
  | .health reply => (d.health reply).1
  | .doctor reply => (d.doctor reply).1
  | .state seen stderr => d.checked seen stderr
  | .stop s => d.stop s

/-- The supervisor after some operations, from one that was just made. -/
def after (version : String) (ops : List SupervisorOp) : DaemonSupervisor :=
  ops.foldl (perform version) {}

/-! ## What happens to processes -/

/-- A process was spawned, and nobody has waited for it. -/
def Alive (history : List Event) (p : ℕ) : Prop := .spawned p ∈ history ∧ .reaped p ∉ history

/-- **A history with one owner**: a process is spawned when none lives, and the
one that lives may be killed and is reaped. What was reaped may be killed and
reaped again. -/
inductive Orderly : List Event → Option ℕ → Prop
  | new : Orderly [] none
  | spawn {h : List Event} (ho : Orderly h none) :
    Orderly (h ++ [.spawned (next h)]) (some (next h))
  | kill {h : List Event} {p : ℕ} (ho : Orderly h (some p)) : Orderly (h ++ [.killed p]) (some p)
  | reap {h : List Event} {p : ℕ} (ho : Orderly h (some p)) : Orderly (h ++ [.reaped p]) none
  | killAgain {h : List Event} {p : ℕ} (ho : Orderly h none) (hp : .reaped p ∈ h) :
    Orderly (h ++ [.killed p]) none
  | reapAgain {h : List Event} {p : ℕ} (ho : Orderly h none) (hp : .reaped p ∈ h) :
    Orderly (h ++ [.reaped p]) none

variable {h pre : List Event} {l : Option ℕ} {p q : ℕ} {e : Event}

theorem next_le (h : List Event) (e : Event) : next h ≤ next (h ++ [e]) := by
  unfold next
  rw [List.countP_append]
  exact Nat.le_add_right _ _

theorem next_spawned (h : List Event) (p : ℕ) : next (h ++ [.spawned p]) = next h + 1 := by
  unfold next
  rw [List.countP_append]
  rfl

/-- The one that lives was spawned, and each was numbered before the next. -/
theorem Orderly.spawned (ho : Orderly h l) (hl : l = some p) : .spawned p ∈ h := by
  induction ho with
  | spawn ho ih =>
    obtain rfl := Option.some.inj hl
    simp
  | kill ho ih => simp [ih hl]
  | new | reap | killAgain | reapAgain => cases hl

/-- Who was waited for last, or what was heard of a process before. -/
theorem of_mem_reaped (hp : .spawned p ∈ h ++ [.reaped q] ∨ .reaped p ∈ h ++ [.reaped q]) :
    (.spawned p ∈ h ∨ .reaped p ∈ h) ∨ p = q := by
  simp at hp
  tauto

theorem Orderly.lt_next (ho : Orderly h l) (hp : .spawned p ∈ h ∨ .reaped p ∈ h) : p < next h := by
  induction ho with
  | new => simp at hp
  | @spawn h ho ih =>
    -- only a spawn takes the next number
    rw [next_spawned]
    have hcases : (.spawned p ∈ h ∨ .reaped p ∈ h) ∨ p = next h := by
      simp at hp
      tauto
    rcases hcases with hold | rfl
    · exact Nat.lt_succ_of_lt (ih hold)
    · exact Nat.lt_succ_self _
  | @reap h p' ho ih =>
    rcases of_mem_reaped hp with hold | rfl
    · exact lt_of_lt_of_le (ih hold) (next_le _ _)
    · exact lt_of_lt_of_le (ih (.inl (ho.spawned rfl))) (next_le _ _)
  | @kill h p' ho ih | @killAgain h p' ho hp' ih =>
    exact lt_of_lt_of_le (ih (by simpa using hp)) (next_le _ _)
  | @reapAgain h p' ho hp' ih =>
    rcases of_mem_reaped hp with hold | rfl
    · exact lt_of_lt_of_le (ih hold) (next_le _ _)
    · exact lt_of_lt_of_le (ih (.inr hp')) (next_le _ _)

/-- **Who lives** is the owner's to say. -/
theorem Orderly.alive_iff (ho : Orderly h l) : Alive h p ↔ l = some p := by
  induction ho with
  | new => simp [Alive]
  | @spawn h ho ih =>
    -- a number that is taken now was not waited for before
    have hfresh : .reaped (next h) ∉ h := fun hp => Nat.lt_irrefl _ (ho.lt_next (.inr hp))
    constructor
    · rintro ⟨hspawned, hreaped⟩
      rcases List.mem_append.mp hspawned with hold | hnew
      · exact nomatch ih.mp ⟨hold, fun hp => hreaped (List.mem_append_left _ hp)⟩
      · rw [(Event.spawned.inj (List.mem_singleton.mp hnew))]
    · intro hp
      obtain rfl := Option.some.inj hp
      exact ⟨by simp, by simpa using hfresh⟩
  | kill ho ih | killAgain ho hp ih => simpa [Alive] using ih
  | @reap h p' ho ih =>
    refine iff_of_false ?_ (fun hp => nomatch hp)
    rintro ⟨hspawned, hreaped⟩
    simp at hspawned hreaped
    obtain rfl := Option.some.inj (ih.mp ⟨hspawned, hreaped.1⟩)
    exact hreaped.2 rfl
  | @reapAgain h p' ho hp ih =>
    refine iff_of_false ?_ (fun hp => nomatch hp)
    rintro ⟨hspawned, hreaped⟩
    simp at hspawned hreaped
    exact nomatch ih.mp ⟨hspawned, hreaped.1⟩

/-- All of a history, or what came before its last event. -/
theorem Orderly.before_concat (ho : Orderly (h ++ [e]) l)
    (ih : pre <+: h → ∃ l', Orderly pre l') (hpre : pre <+: h ++ [e]) : ∃ l', Orderly pre l' := by
  rcases List.prefix_concat_iff.mp hpre with rfl | hpre
  · exact ⟨l, ho⟩
  · exact ih hpre

/-- What has happened at any time is a history with one owner. -/
theorem Orderly.before (ho : Orderly h l) (hpre : pre <+: h) : ∃ l', Orderly pre l' := by
  induction ho with
  | new =>
    obtain rfl := List.prefix_nil.mp hpre
    exact ⟨none, .new⟩
  | spawn ho ih => exact ho.spawn.before_concat ih hpre
  | kill ho ih => exact ho.kill.before_concat ih hpre
  | reap ho ih => exact ho.reap.before_concat ih hpre
  | killAgain ho hp ih => exact (ho.killAgain hp).before_concat ih hpre
  | reapAgain ho hp ih => exact (ho.reapAgain hp).before_concat ih hpre

/-! ## What the supervisor keeps -/

/-- **It owns the process that lives**, and holds one while it says `Running`. -/
structure Owns (d : DaemonSupervisor) : Prop where
  orderly : Orderly d.history d.live
  running : d.live.isSome = d.state.isRunning

variable {version : String} {d : DaemonSupervisor}

/-- A process that lives is killed, and waited for. -/
theorem Orderly.ends (ho : Orderly h (some p)) : Orderly (h ++ [.killed p, .reaped p]) none := by
  have htwo := ho.kill.reap
  rwa [List.append_assoc] at htwo

theorem Orderly.endsAgain (ho : Orderly h none) (hp : .reaped p ∈ h) :
    Orderly (h ++ [.killed p, .reaped p]) none := by
  have htwo := (ho.killAgain hp).reapAgain (List.mem_append_left _ hp)
  rwa [List.append_assoc] at htwo

/-- Whatever it held is gone once a failure is recorded. -/
theorem owns_record (ho : Orderly d.history d.live) (e : Failure) : Owns (d.record e) := by
  unfold record
  cases hlive : d.live with
  | none => exact ⟨by simpa [hlive] using ho, by simp [hlive, DaemonState.isRunning]⟩
  | some p =>
    rw [hlive] at ho
    exact ⟨ho.ends, rfl⟩

theorem owns_stop (ho : Orderly d.history d.live) (s : Stopping) :
    Owns (d.stop s) ∧ (d.stop s).live = none := by
  unfold stop
  cases hlive : d.live with
  | none =>
    refine ⟨⟨by simpa [hlive] using ho, ?_⟩, by simp [hlive]⟩
    simp [hlive, DaemonState.isRunning]
  | some p =>
    rw [hlive] at ho
    refine ⟨⟨?_, rfl⟩, rfl⟩
    simp only [log]
    split
    · exact ho.reap
    · exact ho.ends

/-- A failure is recorded of a process it does not hold yet. -/
theorem owns_record_log {events : List Event} (hnone : d.live = none)
    (ho : Orderly (d.history ++ events) none) (e : Failure) : Owns ((d.log events).record e) := by
  refine owns_record ?_ e
  show Orderly (d.history ++ events) d.live
  rw [hnone]
  exact ho

/-- A spawn that fails leaves no process behind. -/
def Starting.handsOver (s : Starting) : Prop := ∀ e, s.spawn ≠ .lost e

theorem Owns.startWith (hd : Owns d) {s : Starting} (hs : Starting.handsOver s) :
    Owns (d.startWith version s).1 := by
  -- whatever it held is stopped first
  obtain ⟨hstop, hnone⟩ := owns_stop hd.orderly s.stopping
  have ho : Orderly (d.stop s.stopping).history none := hnone ▸ hstop.orderly
  unfold DaemonSupervisor.startWith
  simp only
  cases hspawn : s.spawn with
  | failed e => exact owns_record (by rw [hnone]; exact ho) _
  | lost e => exact absurd hspawn (hs e)
  | started =>
    have hspawned := ho.spawn
    have hended := hspawned.ends
    rw [List.append_assoc] at hended
    cases htransport : s.transport with
    | error e => exact owns_record_log hnone hended _
    | ok _ =>
      cases hhello : s.hello with
      | error e =>
        refine owns_record_log hnone ?_ _
        split
        · -- the exit was noticed before the kill
          have hreaped := hspawned.reap
          rw [List.append_assoc] at hreaped
          have htwice := hreaped.endsAgain (p := next (d.stop s.stopping).history) (by simp)
          rw [List.append_assoc] at htwice
          exact htwice
        · exact hended
      | ok reply =>
        simp only
        split
        · exact owns_record_log hnone hended _
        · exact ⟨hspawned, rfl⟩

theorem Owns.checked (hd : Owns d) (seen : TryWait) (stderr : String) :
    Owns (d.checked seen stderr) := by
  unfold DaemonSupervisor.checked
  split
  · rename_i p code hlive
    have ho := hd.orderly
    rw [hlive] at ho
    have hboth := ho.reap.endsAgain (p := p) (by simp)
    refine ⟨?_, ?_⟩
    · simpa [record, log, hlive] using hboth
    · simp [record, log, hlive, DaemonState.isRunning]
  · exact hd

theorem Owns.ask (hd : Owns d) (reply : Except EngineError Value) : Owns (d.ask reply).1 := by
  unfold DaemonSupervisor.ask
  split
  · exact hd
  · split
    · exact hd
    · exact hd
    · exact owns_record hd.orderly _

theorem Owns.reach (hd : Owns d) {s : Starting} (hs : Starting.handsOver s) (seen : TryWait)
    (stderr : String) : Owns (d.reach version seen stderr s).1 := by
  have hchecked := hd.checked seen stderr
  unfold DaemonSupervisor.reach
  simp only
  split
  · exact hchecked
  · have hstarted : Owns ((d.checked seen stderr).startWith version s).1 :=
      hchecked.startWith hs
    split
    · rename_i heq
      rwa [heq] at hstarted
    · rename_i heq
      rwa [heq] at hstarted

theorem Owns.call (hd : Owns d) {s : Starting} (hs : Starting.handsOver s) (seen : TryWait)
    (stderr : String) (reply : Except EngineError Value) :
    Owns (d.call version seen stderr s reply).1 := by
  have hreached : Owns (d.reach version seen stderr s).1 := hd.reach hs seen stderr
  unfold DaemonSupervisor.call
  split
  · rename_i heq
    rwa [heq] at hreached
  · rename_i heq
    rw [heq] at hreached
    exact hreached.ask reply

/-- No spawn of the operation leaves a process behind. -/
def handsOver : SupervisorOp → Prop
  | .start s | .call _ _ s _ => Starting.handsOver s
  | _ => True

theorem Owns.perform (hd : Owns d) {op : SupervisorOp} (hop : handsOver op) :
    Owns (d.perform version op) := by
  cases op with
  | start s => exact hd.startWith hop
  | call seen stderr s reply => exact hd.call hop seen stderr reply
  | health reply => exact hd.ask reply
  | doctor reply => exact hd.ask reply
  | state seen stderr => exact hd.checked seen stderr
  | stop s => exact (owns_stop hd.orderly s).1

theorem owns_after {ops : List SupervisorOp} (hops : ∀ op ∈ ops, handsOver op) :
    Owns (after version ops) := by
  have hall : ∀ (ops : List SupervisorOp) (d : DaemonSupervisor), Owns d →
      (∀ op ∈ ops, handsOver op) → Owns (ops.foldl (perform version) d) := by
    intro ops
    induction ops with
    | nil => exact fun _ hd _ => hd
    | cons op ops ih =>
      intro d hd hops
      exact ih _ (hd.perform (hops op List.mem_cons_self)) fun o ho =>
        hops o (List.mem_cons_of_mem _ ho)
  exact hall ops {} ⟨.new, rfl⟩ hops

/-- **The engine never orphans or misreports a daemon**, whatever it is asked
for and whatever it meets, if no spawn that fails leaves a process behind: it
holds a process exactly while it says `Running`, and that one lives; every
process spawned is that one or has been waited for; at no time does more than
one live; and an error reply to a request leaves all as it is. -/
theorem never_orphaned (version : String) (ops : List SupervisorOp)
    (hops : ∀ op ∈ ops, handsOver op) :
    (after version ops).live.isSome = (after version ops).state.isRunning ∧
    (∀ p, (after version ops).live = some p → Alive (after version ops).history p) ∧
    (∀ p, .spawned p ∈ (after version ops).history →
      (after version ops).live = some p ∨ .reaped p ∈ (after version ops).history) ∧
    (∀ pre, pre <+: (after version ops).history → ∀ p q, Alive pre p → Alive pre q → p = q) ∧
    ∀ e, ((after version ops).health (.error (.rpc e))).1 = after version ops ∧
      ((after version ops).doctor (.error (.rpc e))).1 = after version ops ∧
      ∀ seen stderr s d, (after version ops).reach version seen stderr s = (d, .ok ()) →
        ((after version ops).call version seen stderr s (.error (.rpc e))).1 = d := by
  have howns : Owns (after version ops) := owns_after hops
  -- an error reply is no reason to give the process up
  have hask : ∀ (d : DaemonSupervisor) e, (d.ask (.error (.rpc e))).1 = d := by
    intro d e
    unfold ask
    cases d.live <;> rfl
  refine ⟨howns.running, fun p hp => howns.orderly.alive_iff.mpr hp, ?_, ?_, ?_⟩
  · intro p hspawned
    by_cases hreaped : .reaped p ∈ (after version ops).history
    · exact .inr hreaped
    · exact .inl (howns.orderly.alive_iff.mp ⟨hspawned, hreaped⟩)
  · intro pre hpre p q hp hq
    obtain ⟨l, ho⟩ := howns.orderly.before hpre
    exact Option.some.inj ((ho.alive_iff.mp hp).symm.trans (ho.alive_iff.mp hq))
  · intro e
    refine ⟨hask _ e, hask _ e, fun seen stderr s d hreach => ?_⟩
    unfold DaemonSupervisor.call
    rw [hreach]
    exact hask d e

/-- A start that meets nothing. -/
def startsUp : Starting where
  stopping := ⟨.ok .null, []⟩
  spawn := .started
  transport := .ok ()
  hello := .ok ⟨"0.1.0", 1, none⟩
  settle := []
  last := .ok none
  stderr := ""
  stray := ""

def busy : RpcError := ⟨"job_running", "a job is running", none⟩

/-- The daemon refuses a request, dies, and is started again by the next. -/
def restarted : List SupervisorOp :=
  [.start startsUp, .health (.error (.rpc busy)), .state (.ok (some 3)) "boom",
    .call (.ok none) "" startsUp (.error (.rpc busy))]

theorem never_orphaned_restarted : (after "0.1.0" restarted).live = some 1 ∧
    Alive (after "0.1.0" restarted).history 1 ∧ .reaped 0 ∈ (after "0.1.0" restarted).history := by
  have hlive : (after "0.1.0" restarted).live = some 1 := by decide
  have hhands : ∀ op ∈ restarted, handsOver op := by
    simp [restarted, handsOver, Starting.handsOver, startsUp]
  obtain ⟨-, halive, hwaited, -⟩ := never_orphaned "0.1.0" restarted hhands
  refine ⟨hlive, halive 1 hlive, (hwaited 0 (by decide)).resolve_left ?_⟩
  rw [hlive]
  decide

/-- The daemon speaks another protocol, and refuses the hello. -/
def refusedHello : Starting :=
  { startsUp with
    hello := .error (.rpc ⟨"protocol_version_mismatch",
      "client speaks protocol 1, daemon speaks 2",
      some "update Willie so engine and daemon share a version"⟩) }

/-- No thread is left to read the child's stderr. -/
def lostChild : Starting :=
  { startsUp with spawn := .lost (.io "Resource temporarily unavailable (os error 11)") }

/-- **An error reply kills the daemon** where it answers the hello, and changes
the recorded state; and a process can be left that is neither held nor waited
for. -/
theorem refused_or_lost :
    (after "0.1.0" [.start startsUp, .start refusedHello]).history.drop 3 =
      [.spawned 1, .killed 1, .reaped 1] ∧
    (after "0.1.0" [.start startsUp, .start refusedHello]).state = .failed "daemon_error"
      ("daemon returned `protocol_version_mismatch`: " ++
        "client speaks protocol 1, daemon speaks 2") ∧
    (after "0.1.0" [.start lostChild]).live = none ∧
    Alive (after "0.1.0" [.start lostChild]).history 0 := by
  unfold Alive
  decide

end DaemonSupervisor

end Engine
end Willie
