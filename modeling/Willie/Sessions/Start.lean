import Mathlib.Logic.Basic
import Willie.Sandbox.Prepare
import Willie.Sessions.Ready

/-!
# Sessions — a start is all or nothing

Once its event log is open the supervisor takes a dozen steps, and each may
end the start: it logs why, kills what it spawned and replies. A start that
announces the session has it in the log, confined by all that is required; a
start that is refused leaves no session, no child, and the one reason given.
-/

namespace Willie
namespace Sessions
namespace Start

open Lines
open Sandbox (PrepareError)

/-! ## What may fail -/

/-- What is attempted with a path. -/
inductive Step where
  | workspace
  | exec
  deriving DecidableEq, Repr

def Step.text : Step → String
  | .workspace => Sandbox.workspaceStep
  | .exec => Sandbox.execStep

inductive SpawnError where
  | setup (error : String)
  | exec (step : Step) (error : String)
  deriving DecidableEq, Repr

def SpawnError.text : SpawnError → String
  | .setup error => error
  | .exec step error => step.text ++ ": " ++ error

/-- How a spawn failure is recorded. -/
def spawnFailure (e : SpawnError) : String × String :=
  match e with
  | .exec .workspace _ => ("harness_exec_failed", e.text)
  | .exec .exec _ =>
    ("sandbox_apply_failed", "the namespace helper did not start: " ++ e.text)
  | .setup _ => ("supervisor_spawn_failed", e.text)

/-- What `spawn` meets. -/
inductive Fork where
  /-- There is no child: something before the fork fails, or the fork. -/
  | none (error : String)
  /-- There is, but the pipe it reports on cannot be read. -/
  | unread (child : Int32) (error : String)
  /-- It reports that it failed; it is waited for. -/
  | failed (child : Int32) (step : Step) (error : String) (waited : Bool)
  | started (child : Int32)
  deriving DecidableEq, Repr

/-- What the in-namespace stage reports. -/
inductive ReportOutcome where
  | applied (mechanisms unavailable : List String) (listener : Bool)
  | refused (code message : String)
  | helperGone
  | timedOut
  deriving DecidableEq, Repr

/-- What starting the filter's server comes to: an error, or a server, and
the events it logs before clients are accepted. -/
inductive FilterServer where
  | failed (error : String)
  | serves (events : List {k : SessionEventKind // Stage.started.notes k})

/-- **The outcomes of every step of a start.** A step that succeeds has no
error. -/
structure Outcomes where
  socket : String
  bind : Option String := none
  prepare : Option PrepareError := none
  reportSocket : Option String := none
  openPty : Option String := none
  spawn : Fork
  /-- The request reached the stage; whether it did is not looked at. -/
  wroteRequest : Bool := true
  report : ReportOutcome
  /-- What is on the terminal of a helper that is gone. -/
  said : Text := []
  /-- How it ended, if it could be waited for. -/
  waited : Option (Option Int × Option Int) := some (none, none)
  filterServer : FilterServer := .serves []
  accept : Option String := none
  waiter : Option String := none
  /-- What other threads log before the reply, once clients are accepted. -/
  meanwhile : List {k : SessionEventKind // Stage.listening.notes k} := []

/-! ## The start -/

/-- What a start does. -/
inductive Act where
  | append (kind : SessionEventKind)
  | reply (ready : Ready)
  | fork (child : Int32)
  /-- `SIGKILL` is sent. -/
  | kill (target : Int32)
  | reap (child : Int32)
  deriving DecidableEq, Repr

def helperWordsLimit : Nat := 400

/-- What the helper said, on one line. -/
def helperWords (raw : Text) : Option String :=
  let joined := [';', ' '].intercalate <|
    ((lines raw).map fun line => trim (line.rdropWhile (· = '\r'))).filter (· ≠ [])
  if joined = [] then none
  else if joined.length > helperWordsLimit then
    some (String.ofList (joined.take helperWordsLimit) ++ "…")
  else some (String.ofList joined)

/-- The message for a helper that refused after it was executed. -/
def applyFailure (raw : Text) (code signal : Option Int) : String :=
  match helperWords raw, code, signal with
  | some words, _, _ => "the namespace helper refused: " ++ words
  | none, some code, _ => "the namespace helper exited with " ++ toString code ++
      " before the harness started, and said nothing"
  | none, none, some signal => "the namespace helper was killed by signal " ++ toString signal ++
      " before the harness started"
  | none, none, none =>
    "the namespace helper ended before the harness started, and said nothing"

/-- The failure is logged, and the launcher told. -/
def refuse (code text : String) : List Act :=
  [.append (.failed code text), .reply (.fail code text)]

/-- The same, and the child is killed between the two. -/
def refuseKilled (child : Int32) (code text : String) : List Act :=
  [.append (.failed code text), .kill (-child), .reply (.fail code text)]

/-- The pid a session records. -/
def pidOf (child : Int32) : Nat := child.toInt.toNat

/-- `pty::spawn`. -/
def spawn : Fork → List Act × Except SpawnError Int32
  | .none error => ([], .error (.setup error))
  | .unread child error => ([.fork child], .error (.setup error))
  | .failed child step error waited =>
    (.fork child :: if waited then [.reap child] else [], .error (.exec step error))
  | .started child => ([.fork child], .ok child)

/-- `serve_filter`, for a stage that sent its listener. -/
def serveFilter (listener : Bool) (server : FilterServer) : List Act :=
  if listener then
    match server with
    | .failed error => [.append (.sandboxDegraded "seccomp"
        ("the syscall filter's server did not start (" ++ error ++
          "); intercepted calls fail with ENOSYS"))]
    | .serves events => events.map fun k => .append k.val
  else []

/-- The harness runs behind a stage that applied what it must. -/
def announce (o : Outcomes) (child : Int32) (mechanisms unavailable : List String)
    (listener : Bool) : List Act :=
  [.append (.sandboxApplied mechanisms unavailable), .append (.started (pidOf child))] ++
    serveFilter listener o.filterServer ++
    match o.accept with
    -- the one exit that neither logs the failure nor kills the child
    | some error => [.reply (.fail "supervisor_spawn_failed" error)]
    | none => (o.meanwhile.map fun k => .append k.val) ++ [.reply (.ok (pidOf child))]

/-- What is made of the stage's report. -/
def confirm (o : Outcomes) (child : Int32) : List Act :=
  match o.report with
  | .applied mechanisms unavailable listener =>
    if mechanisms.contains "seccomp" && !listener then
      refuseKilled child "sandbox_apply_failed" "the sandbox reported seccomp but sent no listener"
    else
      match requiredMissing mechanisms with
      | some missing =>
        refuseKilled child "sandbox_backend_missing" ("the sandbox did not apply " ++ missing)
      | none => announce o child mechanisms unavailable listener
  | .refused code message => refuseKilled child code message
  | .helperGone =>
    let exit := o.waited.getD (none, none)
    (if o.waited.isSome then [.reap child] else []) ++
      refuse "sandbox_apply_failed" (applyFailure o.said exit.1 exit.2)
  | .timedOut =>
    refuseKilled child "sandbox_apply_failed" "the sandbox reported nothing within the deadline"

/-- **`session_main`**, from the moment its event log is open to its reply. -/
def sessionMain (o : Outcomes) : List Act :=
  .append .created ::
    match o.bind with
    | some error =>
      refuse "supervisor_spawn_failed" ("cannot bind " ++ o.socket ++ ": " ++ error)
    | none =>
    match o.prepare with
    | some e => refuse e.code e.message
    | none =>
    match o.reportSocket with
    | some error => refuse "supervisor_spawn_failed" ("cannot make the report socket: " ++ error)
    | none =>
    match o.openPty with
    | some error => refuse "supervisor_spawn_failed" ("cannot open a pty: " ++ error)
    | none =>
      (spawn o.spawn).1 ++
        match (spawn o.spawn).2 with
        | .error e => refuse (spawnFailure e).1 (spawnFailure e).2
        | .ok child => confirm o child

/-! ## What it comes to -/

def logged (acts : List Act) : List SessionEventKind :=
  acts.filterMap fun
    | .append kind => some kind
    | _ => none

def replies (acts : List Act) : List Ready :=
  acts.filterMap fun
    | .reply ready => some ready
    | _ => none

/-- Every child was sent `SIGKILL`, or was reaped. -/
def Ended (acts : List Act) : Prop :=
  ∀ child, .fork child ∈ acts → .kill (-child) ∈ acts ∨ .reap child ∈ acts

/-- The daemon reads what was replied. -/
def Crosses (log : String) : Ready → Prop
  | .ok pid => readiness (Reply.ok pid) log = .ok pid
  | .fail code text => ∃ t, readiness (Reply.fail code text) log = .fail code t

/-- The session is announced, and the log has it. -/
def Announced (before : List Act) (ready : Ready) : Prop :=
  ∃ pid mechanisms unavailable, ready = .ok pid ∧
    [.sandboxApplied mechanisms unavailable, .started pid].Sublist (logged before) ∧
    (∀ m ∈ required, m ∈ mechanisms) ∧ ∀ k ∈ logged before, k.isEnd = false

/-- It is refused, and the log has nothing but the failure. -/
def Refused (before : List Act) (ready : Ready) : Prop :=
  ∃ code text message, ready = .fail code text ∧ (∀ pid, .started pid ∉ logged before) ∧
    (logged before).filter (·.isEnd) = [.failed code message] ∧ Ended before

/-- **One reply, its last act, and by then one of the two**; the daemon reads
the same. -/
def AllOrNothing (acts : List Act) (log : String) : Prop :=
  ∃ before ready, acts = before ++ [.reply ready] ∧ replies before = [] ∧
    Xor (Announced before ready) (Refused before ready) ∧ Crosses log ready

/-- The child is spawned: nothing fails before. -/
def Outcomes.Forks (o : Outcomes) : Prop :=
  o.bind = none ∧ o.prepare = none ∧ o.reportSocket = none ∧ o.openPty = none

instance (o : Outcomes) : Decidable o.Forks := inferInstanceAs (Decidable (_ ∧ _))

/-- A reply the daemon reads: its code is one word of the line, and its text
is not blank where that matters. -/
def Legible (code text : String) : Prop :=
  Plain code.toList ∧ (¬ Blank text.toList ∨ code = "supervisor_spawn_failed")

/-- **When a start is all or nothing**: no child is left by `spawn` or by a
wait that fails, the stage refuses with a code that can be told, and the
accept thread starts if it comes to that. -/
def Outcomes.Meets (o : Outcomes) : Prop :=
  o.Forks →
    match o.spawn with
    | .none _ => True
    | .unread .. => False
    | .failed _ _ _ waited => waited = true
    | .started _ =>
      match o.report with
      | .applied mechanisms _ listener =>
        (mechanisms.contains "seccomp" && !listener) = true ∨ requiredMissing mechanisms ≠ none ∨
          o.accept = none
      | .refused code message => Legible code message
      | .helperGone => o.waited.isSome = true
      | .timedOut => True

/-! ## Acts -/

variable {acts before mid : List Act} {ready : Ready} {code text log : String}

@[simp] theorem logged_append : logged (acts ++ mid) = logged acts ++ logged mid :=
  List.filterMap_append

@[simp] theorem replies_append : replies (acts ++ mid) = replies acts ++ replies mid :=
  List.filterMap_append

theorem allOrNothing_concat (h : replies before = []) :
    AllOrNothing (before ++ [.reply ready]) log ↔
      Xor (Announced before ready) (Refused before ready) ∧ Crosses log ready := by
  constructor
  · rintro ⟨before', ready', heq, -, hxor, hcross⟩
    obtain ⟨rfl, hready⟩ := List.append_inj' heq rfl
    obtain rfl := Act.reply.inj (List.singleton_injective hready)
    exact ⟨hxor, hcross⟩
  · rintro ⟨hxor, hcross⟩
    exact ⟨before, ready, rfl, h, hxor, hcross⟩

/-- A failure that is logged, and then told. -/
theorem refusal_iff (pre mid : List Act) (code text log : String) (hpre : logged pre = [])
    (hmid : logged mid = []) (hr : replies pre = []) (hr' : replies mid = []) :
    AllOrNothing (.append .created ::
        (pre ++ .append (.failed code text) :: (mid ++ [.reply (.fail code text)]))) log ↔
      Ended (pre ++ mid) ∧ Legible code text := by
  let before := .append .created :: (pre ++ .append (.failed code text) :: mid)
  have hlog : logged before = [.created, .failed code text] := by
    change logged ([.append .created] ++ (pre ++ ([.append (.failed code text)] ++ mid))) = _
    rw [logged_append, logged_append, logged_append, hpre, hmid]
    rfl
  have hreplies : replies before = [] := by
    change replies ([.append .created] ++ (pre ++ ([.append (.failed code text)] ++ mid))) = _
    rw [replies_append, replies_append, replies_append, hr, hr']
    rfl
  have hended : Ended before ↔ Ended (pre ++ mid) := by simp [Ended, before]
  have hsplit : .append .created ::
      (pre ++ .append (.failed code text) :: (mid ++ [.reply (.fail code text)])) =
        before ++ [.reply (.fail code text)] := by simp [before]
  have hannounced : ¬ Announced before (.fail code text) := by
    rintro ⟨pid, _, _, hready, -⟩
    cases hready
  have hrefused : Refused before (.fail code text) ↔ Ended before := by
    constructor
    · rintro ⟨_, _, _, -, -, -, h⟩
      exact h
    · intro h
      refine ⟨code, text, text, rfl, fun pid => ?_, ?_, h⟩
      · simp [hlog]
      · rw [hlog]
        rfl
  rw [hsplit, allOrNothing_concat hreplies, xor_def, hrefused, hended]
  simp only [hannounced, false_and, not_false_eq_true, and_true, false_or]
  exact and_congr_right fun _ => readiness_fail_iff

theorem refuse_iff (pre : List Act) (code text log : String) (hpre : logged pre = [])
    (hr : replies pre = []) :
    AllOrNothing (.append .created :: (pre ++ refuse code text)) log ↔
      Ended pre ∧ Legible code text := by
  have h := refusal_iff pre [] code text log hpre rfl hr rfl
  rwa [List.append_nil] at h

theorem refuseKilled_iff {child : Int32} :
    AllOrNothing (.append .created :: ([.fork child] ++ refuseKilled child code text)) log ↔
      Legible code text := by
  have h := refusal_iff [.fork child] [.kill (-child)] code text log rfl rfl rfl rfl
  refine h.trans (and_iff_right fun c hc => .inl ?_)
  simp only [List.cons_append, List.nil_append, List.mem_cons, List.not_mem_nil, or_false,
    reduceCtorEq, Act.fork.injEq] at hc
  simp [hc]

/-! ## What can be told -/

theorem not_blank_append {a b : String} (h : ¬ Blank a.toList) : ¬ Blank (a ++ b).toList := by
  rw [String.toList_append]
  exact fun hb => h fun c hc => hb c (List.mem_append_left _ hc)

theorem legible_spawnFailed : Legible "supervisor_spawn_failed" text :=
  ⟨plain_spawnFailed, .inr rfl⟩

theorem legible_applyFailed (h : ¬ Blank text.toList) : Legible "sandbox_apply_failed" text :=
  ⟨by constructor <;> decide, .inl h⟩

theorem legible_backendMissing (h : ¬ Blank text.toList) : Legible "sandbox_backend_missing" text :=
  ⟨by constructor <;> decide, .inl h⟩

theorem legible_execFailed (h : ¬ Blank text.toList) : Legible "harness_exec_failed" text :=
  ⟨by constructor <;> decide, .inl h⟩

theorem legible_specInvalid (h : ¬ Blank text.toList) : Legible "spec_invalid" text :=
  ⟨by constructor <;> decide, .inl h⟩

theorem legible_profileInvalid (h : ¬ Blank text.toList) : Legible "sandbox_profile_invalid" text :=
  ⟨by constructor <;> decide, .inl h⟩

theorem not_blank_step (step : Step) : ¬ Blank step.text.toList := by
  cases step <;> decide

theorem not_blank_append_right {a b : String} (h : ¬ Blank b.toList) :
    ¬ Blank (a ++ b).toList := by
  rw [String.toList_append]
  exact fun hb => h fun c hc => hb c (List.mem_append_right _ hc)

theorem legible_prepare (e : PrepareError) : Legible e.code e.message := by
  cases e with
  | harnessUnknown id =>
    exact legible_specInvalid (not_blank_append (not_blank_append (by decide)))
  | plan e =>
    cases e
    exact legible_specInvalid (by decide)
  | backendMissing path => exact legible_backendMissing (not_blank_append (by decide))
  | cacheDir path error =>
    exact legible_applyFailed
      (not_blank_append (not_blank_append (not_blank_append (by decide))))
  | harness step error path =>
    exact legible_execFailed (not_blank_append (not_blank_append (not_blank_append
      (not_blank_append (not_blank_append_right (by decide))))))
  | extraPath path detail =>
    exact legible_profileInvalid
      (not_blank_append (not_blank_append (not_blank_append (by decide))))
  | bindSource path =>
    exact legible_applyFailed (not_blank_append (not_blank_append (by decide)))

theorem legible_spawnFailure (e : SpawnError) : Legible (spawnFailure e).1 (spawnFailure e).2 := by
  cases e with
  | setup error => exact legible_spawnFailed
  | exec step error =>
    cases step with
    | workspace =>
      exact legible_execFailed (not_blank_append (not_blank_append (not_blank_step .workspace)))
    | exec => exact legible_applyFailed (not_blank_append (by decide))

theorem legible_applyFailure {raw : Text} {c signal : Option Int} :
    Legible "sandbox_apply_failed" (applyFailure raw c signal) := by
  refine legible_applyFailed ?_
  unfold applyFailure
  split
  · exact not_blank_append (by decide)
  · exact not_blank_append (not_blank_append (by decide))
  · exact not_blank_append (not_blank_append (by decide))
  · decide

/-! ## The announcement -/

theorem notes_quiet {stage : Stage} {k : SessionEventKind} (h : stage.notes k) :
    k.isEnd = false := by
  cases stage <;> cases k <;> first | rfl | cases h

section Notes

variable {stage : Stage} {events : List {k : SessionEventKind // stage.notes k}}

theorem logged_notes : logged (events.map fun k => .append k.val) = events.map (·.val) := by
  rw [logged, List.filterMap_map, ← List.filterMap_eq_map]
  rfl

theorem replies_notes : replies (events.map fun k => .append k.val) = [] := by
  rw [replies, List.filterMap_map]
  exact List.filterMap_eq_nil_iff.mpr fun _ _ => rfl

theorem notes_isEnd : ∀ k ∈ logged (events.map fun k => .append k.val), k.isEnd = false := by
  rw [logged_notes]
  intro k hk
  obtain ⟨⟨k', h⟩, -, rfl⟩ := List.mem_map.mp hk
  exact notes_quiet h

end Notes

theorem replies_serveFilter {listener : Bool} {server : FilterServer} :
    replies (serveFilter listener server) = [] := by
  unfold serveFilter
  split
  · cases server with
    | failed error => rfl
    | serves events => exact replies_notes
  · rfl

theorem serveFilter_isEnd {listener : Bool} {server : FilterServer} :
    ∀ k ∈ logged (serveFilter listener server), k.isEnd = false := by
  unfold serveFilter
  split
  · cases server with
    | failed error => exact fun k hk => by obtain rfl := List.mem_singleton.mp hk; rfl
    | serves events => exact notes_isEnd
  · simp [logged]

theorem requiredMissing_eq_none {mechanisms : List String} :
    requiredMissing mechanisms = none ↔ ∀ m ∈ required, m ∈ mechanisms := by
  simp [requiredMissing, List.find?_eq_none]

theorem pidOf_lt {child : Int32} : pidOf child < 2 ^ 32 := by
  have h := child.toInt_lt
  unfold pidOf
  omega

/-- A stage that applied what it must is announced exactly if clients can be
accepted: if they cannot, the log has a session that no one is told of. -/
theorem announce_iff {o : Outcomes} {child : Int32} {mechanisms unavailable : List String}
    {listener : Bool} (hreq : requiredMissing mechanisms = none) :
    AllOrNothing (.append .created ::
        ([.fork child] ++ announce o child mechanisms unavailable listener)) log ↔
      o.accept = none := by
  let filter := serveFilter listener o.filterServer
  let head := [.append .created, .fork child, .append (.sandboxApplied mechanisms unavailable),
    .append (.started (pidOf child))] ++ filter
  have hlog (rest : List Act) : logged (head ++ rest) =
      .created :: .sandboxApplied mechanisms unavailable :: .started (pidOf child) ::
        (logged filter ++ logged rest) := by
    rw [logged_append, logged_append]
    rfl
  have hreplies : replies head = [] := by
    rw [replies_append, replies_serveFilter]
    rfl
  cases haccept : o.accept with
  | some error =>
    have hacts : .append .created :: ([.fork child] ++
        announce o child mechanisms unavailable listener) =
          head ++ [.reply (.fail "supervisor_spawn_failed" error)] := by
      simp [announce, haccept, head, filter]
    rw [hacts, allOrNothing_concat hreplies]
    simp only [reduceCtorEq, iff_false, not_and]
    intro hxor
    have hstarted : .started (pidOf child) ∈ logged head := by
      have h := hlog []
      rw [List.append_nil] at h
      simp [h]
    rcases hxor with ⟨⟨_, _, _, hready, -⟩, -⟩ | ⟨⟨_, _, _, -, hnone, -⟩, -⟩
    · cases hready
    · exact absurd hstarted (hnone _)
  | none =>
    let before := head ++ o.meanwhile.map fun k => .append k.val
    have hacts : .append .created :: ([.fork child] ++
        announce o child mechanisms unavailable listener) =
          before ++ [.reply (.ok (pidOf child))] := by
      simp [announce, haccept, before, head, filter]
    have hreplies' : replies before = [] := by
      rw [replies_append, hreplies, replies_notes]
      rfl
    have hannounced : Announced before (.ok (pidOf child)) := by
      refine ⟨pidOf child, mechanisms, unavailable, rfl, ?_, requiredMissing_eq_none.mp hreq, ?_⟩
      · rw [hlog]
        exact .cons _ (.cons_cons _ (.cons_cons _ (List.nil_sublist _)))
      · rw [hlog]
        intro k hk
        simp only [List.mem_cons, List.mem_append] at hk
        rcases hk with rfl | rfl | rfl | hk | hk
        · rfl
        · rfl
        · rfl
        · exact serveFilter_isEnd k hk
        · exact notes_isEnd k hk
    have hrefused : ¬ Refused before (.ok (pidOf child)) := by
      rintro ⟨_, _, _, hready, -⟩
      cases hready
    rw [hacts, allOrNothing_concat hreplies']
    exact iff_of_true ⟨.inl ⟨hannounced, hrefused⟩, readiness_ok pidOf_lt⟩ rfl

/-! ## The start -/

theorem confirm_iff {o : Outcomes} {child : Int32} :
    AllOrNothing (.append .created :: ([.fork child] ++ confirm o child)) log ↔
      match o.report with
      | .applied mechanisms _ listener =>
        (mechanisms.contains "seccomp" && !listener) = true ∨ requiredMissing mechanisms ≠ none ∨
          o.accept = none
      | .refused code message => Legible code message
      | .helperGone => o.waited.isSome = true
      | .timedOut => True := by
  unfold confirm
  cases o.report with
  | applied mechanisms unavailable listener =>
    dsimp only
    split
    · rename_i hlistener
      rw [refuseKilled_iff]
      exact iff_of_true (legible_applyFailed (by decide)) (.inl hlistener)
    · rename_i hlistener
      split
      · rename_i missing hmissing
        rw [refuseKilled_iff]
        exact iff_of_true (legible_backendMissing (not_blank_append (by decide)))
          (.inr (.inl (by simp [hmissing])))
      · rename_i hmissing
        rw [announce_iff hmissing]
        exact ⟨fun h => .inr (.inr h),
          fun h => (h.resolve_left hlistener).resolve_left (not_not.mpr hmissing)⟩
  | refused code message => exact refuseKilled_iff
  | helperGone =>
    cases hwaited : o.waited with
    | none =>
      have h := refuse_iff [.fork child] "sandbox_apply_failed" (applyFailure o.said none none)
        log rfl rfl
      refine h.trans (iff_of_false (fun hended => ?_) Bool.false_ne_true)
      simpa using hended.1 child (List.mem_singleton_self _)
    | some exit =>
      have h := refuse_iff [.fork child, .reap child] "sandbox_apply_failed"
        (applyFailure o.said exit.1 exit.2) log rfl rfl
      refine h.trans (iff_of_true ⟨fun c hc => .inr ?_, legible_applyFailure⟩ rfl)
      simp only [List.mem_cons, List.not_mem_nil, or_false, reduceCtorEq, Act.fork.injEq] at hc
      simp [hc]
  | timedOut =>
    dsimp only
    rw [refuseKilled_iff]
    exact iff_of_true (legible_applyFailed (by decide)) trivial

/-- What comes before the report, if anything of it fails. -/
theorem spawnFailed_iff (pre : List Act) {e : SpawnError} (hpre : logged pre = [])
    (hr : replies pre = []) :
    AllOrNothing (.append .created :: (pre ++ refuse (spawnFailure e).1 (spawnFailure e).2)) log ↔
      Ended pre := by
  rw [refuse_iff pre _ _ _ hpre hr]
  exact and_iff_left (legible_spawnFailure e)

/-- A start that ends before there is a child. -/
theorem early_iff (h : Legible code text) :
    AllOrNothing (.append .created :: refuse code text) log := by
  refine (refuse_iff [] _ _ _ rfl rfl).mpr ⟨fun child hc => ?_, h⟩
  cases hc

/-- **A start is all or nothing** exactly when nothing of it meets one of the
exits that leave a child, or tell a reason the daemon cannot read. -/
theorem sessionMain_allOrNothing (o : Outcomes) (log : String) :
    AllOrNothing (sessionMain o) log ↔ o.Meets := by
  unfold sessionMain Outcomes.Meets Outcomes.Forks
  cases o.bind with
  | some error =>
    exact iff_of_true (early_iff legible_spawnFailed) fun h => by cases h.1
  | none =>
  cases o.prepare with
  | some e =>
    exact iff_of_true (early_iff (legible_prepare e)) fun h => by cases h.2.1
  | none =>
  cases o.reportSocket with
  | some error =>
    exact iff_of_true (early_iff legible_spawnFailed) fun h => by cases h.2.2.1
  | none =>
  cases o.openPty with
  | some error =>
    exact iff_of_true (early_iff legible_spawnFailed) fun h => by cases h.2.2.2
  | none =>
    simp only [and_self, true_imp_iff]
    cases o.spawn with
    | none error => exact iff_of_true (early_iff legible_spawnFailed) trivial
    | unread child error =>
      refine (spawnFailed_iff [.fork child] rfl rfl).trans (iff_false_intro fun h => ?_)
      simpa using h child (List.mem_singleton_self _)
    | failed child step error waited =>
      cases waited with
      | false =>
        refine (spawnFailed_iff [.fork child] rfl rfl).trans
          (iff_of_false (fun h => ?_) Bool.false_ne_true)
        simpa using h child (List.mem_singleton_self _)
      | true =>
        refine (spawnFailed_iff [.fork child, .reap child] rfl rfl).trans
          (iff_of_true (fun c hc => .inr ?_) rfl)
        simp only [List.mem_cons, List.not_mem_nil, or_false, reduceCtorEq, Act.fork.injEq] at hc
        simp [hc]
    | started child => exact confirm_iff

/-- Clients cannot be accepted: no thread can be made for it. -/
def acceptFails : Outcomes where
  socket := "/run/willie/s.sock"
  spawn := .started 7
  report := .applied required [] true
  accept := some "Resource temporarily unavailable"

/-- The log then has a session, its harness runs, and the daemon is told that
there is none. -/
theorem unannounced :
    sessionMain acceptFails = [.append .created, .fork 7, .append (.sandboxApplied required []),
      .append (.started 7),
      .reply (.fail "supervisor_spawn_failed" "Resource temporarily unavailable")] ∧
    ¬ AllOrNothing (sessionMain acceptFails) "/var/log/willie/s.log" := by
  have hacts : sessionMain acceptFails = [.append .created, .fork 7,
      .append (.sandboxApplied required []), .append (.started 7)] ++
        [.reply (.fail "supervisor_spawn_failed" "Resource temporarily unavailable")] := rfl
  refine ⟨hacts, ?_⟩
  rw [hacts, allOrNothing_concat rfl]
  rintro ⟨⟨⟨_, _, _, hready, -⟩, -⟩ | ⟨⟨_, _, _, -, hnone, -⟩, -⟩, -⟩
  · cases hready
  · exact hnone 7 (by decide)

end Start
end Sessions
end Willie
