import Mathlib.Data.List.Sort
import Mathlib.Data.String.Basic
import Willie.Projects.Names
import Willie.Sandbox.Plan
import Willie.Sessions.Rename
import Willie.Sessions.System

/-!
# Sessions — creating one that continues another

A create reads the project and the session to continue under one lock,
decides, and only then writes. The session to continue is the one the caller
names, of which the decision sees the state and nothing else, or the
project's latest that has ended, whatever its kind (`resume_lineage`). So
where none is named a shell may be recorded, or nothing (`resume_strays`).
-/

namespace Willie
namespace Sessions

open Projects (OpError Project ProjectId ProjectMap SandboxProblem busyErr sourceToLinux)
open Sandbox (CapabilityError CapabilitySet claudeCode)
open Paths (Path)

/-! ## The decision -/

/-- How a harness resumes a previous conversation. -/
inductive Resume where
  | none
  | byId
  | continues
  deriving DecidableEq, Repr

/-- How to start the harness for one session. -/
inductive LaunchMode where
  | fresh
  | continues
  deriving DecidableEq, Repr

/-- What a create names as its resume target. -/
inductive ResumeTarget where
  | none
  /-- The project's most recent session that has ended, if it has one. -/
  | latest (id : Option SessionId)
  /-- The session the caller names, and its state if there is such a session. -/
  | named (id : SessionId) (state : Option SessionState)
  deriving DecidableEq, Repr

def harnessCannotResume : OpError :=
  coded "harness_cannot_resume" "this harness cannot resume a conversation"

def resumeTargetNotFound : OpError :=
  ⟨"resume_target_not_found", "no such session", "choose a session from the Sessions panel"⟩

def resumeTargetLive : OpError :=
  ⟨"resume_target_live", "that session is already open", "it is already open; switch to its tab"⟩

/-- The resume guard and mode decision. -/
def resumeDecision (resume : Bool) (harnessResume : Resume) :
    ResumeTarget → Except OpError (LaunchMode × Option SessionId)
  | target =>
    if !resume then .ok (.fresh, none)
    else if harnessResume = .none then .error harnessCannotResume
    else
      match target with
      | .named _ none => .error resumeTargetNotFound
      | .named id (some s) =>
        if s.isLive then .error resumeTargetLive else .ok (.continues, some id)
      | .latest id => .ok (.continues, id)
      | .none => .ok (.continues, none)

/-! ## The request -/

structure GitIdentity where
  name : String
  email : String
  deriving DecidableEq, Repr

structure CreateParams where
  projectId : ProjectId
  gitIdentity : Option GitIdentity := none
  resume : Bool := false
  resumeFrom : Option SessionId := none
  kind : SessionKind := .agent
  deriving DecidableEq, Repr

/-- The sessions of the index, by id. -/
def State.values (st : State) : List Session :=
  (st.sessions.entries.map (·.2)).insertionSort fun s t => s.id ≤ t.id

/-- The last of those created last, as the texts of the times compare. -/
def lastCreated : List Session → Option Session :=
  List.foldl (fun best s => match best with
    | some b => if s.createdAt < b.createdAt then some b else some s
    | none => some s) none

/-- The project's sessions that have ended. -/
def State.ended (st : State) (project : ProjectId) : List Session :=
  st.values.filter fun s => s.projectId = project ∧ s.state.isTerminal

/-- The target of a create, read together with its project. -/
def resumeTarget (st : State) (params : CreateParams) : ResumeTarget :=
  match params.resumeFrom with
  | some id => .named id ((st.get id).map (·.state))
  | none =>
    if params.resume then .latest ((lastCreated (st.ended params.projectId)).map (·.id)) else .none

/-- What a create finds outside the daemon's state, and how its steps end. -/
structure Host where
  /-- How an id is written. -/
  display : ProjectId → String
  home : Path
  busy : ProjectId → Bool
  /-- The installed harness. -/
  claude : Option Path
  zsh : Bool
  /-- How `identity::ensure` fails, as a code and a message. -/
  ensure : Option GitIdentity → Option String → Option (String × String)
  id : SessionId
  now : String
  specError : Option String
  ready : Except OpError Ready
  readyAt : String

def notFoundErr (text : String) : OpError :=
  ⟨"project_not_found", "no project with id `" ++ text ++ "`", "check the project id and try again"⟩

def fromProblem (p : SandboxProblem) : OpError := ⟨p.code, p.message, p.remediation⟩

/-- A refused policy's own words. -/
def fromCapabilityError (e : CapabilityError) : OpError := ⟨e.code, e.message, e.remediation⟩

/-- What is decided before anything is written. -/
structure Admitted where
  project : Project
  capabilities : CapabilitySet
  mode : LaunchMode
  resumedFrom : Option SessionId

/-- A shell cannot resume a conversation. -/
def harnessResume : SessionKind → Resume
  | .agent => .byId
  | .shell => .none

/-- The first part of `create`: the guards, and the decision. -/
def createGuards (host : Host) (projects : ProjectMap) (st : State) (params : CreateParams) :
    Except OpError Admitted :=
  match projects.lookup params.projectId with
  | none => .error (notFoundErr (host.display params.projectId))
  | some project =>
    match project.sandboxProblem with
    | some problem => .error (fromProblem problem)
    | none =>
      if project.state ≠ .ready then
        .error (coded "project_not_ready" "the project is not ready")
      else if host.busy params.projectId then .error busyErr
      else
        match Sandbox.resolve claudeCode.defaultCapabilities project.sandbox host.home with
        | .error e => .error (fromCapabilityError e)
        | .ok capabilities =>
          match resumeDecision params.resume (harnessResume params.kind)
              (resumeTarget st params) with
          | .error e => .error e
          | .ok (mode, resumedFrom) => .ok { project, capabilities, mode, resumedFrom }

/-- What is launched, and under which harness's name. -/
def launch (host : Host) (kind : SessionKind) (mode : LaunchMode) :
    Except OpError (List String × String) :=
  match kind with
  | .agent =>
    match host.claude with
    | none => .error (coded "harness_not_installed" "Claude Code is not installed")
    | some path =>
      .ok (path :: (if mode = .continues then ["--continue"] else []), "claude-code")
  | .shell =>
    if host.zsh then .ok (["/usr/bin/zsh", "-l"], "zsh")
    else .error (coded "shell_unavailable" "zsh is not installed in the image")

/-- What a create does outside, in order. -/
inductive CreateAct where
  /-- It sees to the git identity, which may write `.gitconfig`. -/
  | identity
  | spec (spec : SessionSpec) (argv : List String) (capabilities : CapabilitySet)
  | runDir
  /-- A record is put in the index, and the app told. -/
  | upsert (s : Session)
  | spawn
  | watch
  | notifyPlugins

/-- The last part of `create`: the supervisor is spawned and waited for. -/
def startSupervisor (host : Host) (session : Session) :
    List CreateAct × Except OpError Session :=
  let failed (e : OpError) : List CreateAct × Except OpError Session :=
    ([.spawn, .upsert (applyEvent session ⟨host.readyAt, .failed e.code e.message⟩)], .error e)
  match host.ready with
  | .error e => failed e
  | .ok (.fail code text) => failed (coded code text)
  | .ok (.ok pid) =>
    let session := applyEvent session ⟨host.readyAt, .started pid⟩
    ([.spawn, .upsert session, .watch, .notifyPlugins], .ok session)

/-- `create`: what it does, and its answer. -/
def create (host : Host) (projects : ProjectMap) (st : State) (params : CreateParams) :
    List CreateAct × Except OpError Session :=
  match createGuards host projects st params with
  | .error e => ([], .error e)
  | .ok { project, capabilities, mode, resumedFrom } =>
    match launch host params.kind mode with
    | .error e => ([], .error e)
    | .ok (argv, harness) =>
      match host.ensure params.gitIdentity (sourceToLinux project.source) with
      | some (code, message) => ([.identity], .error (coded code message))
      | none =>
        let spec : SessionSpec := {
          id := host.id
          projectId := project.id
          harness
          workspace := project.workspace
          createdAt := host.now
          resumedFrom
          kind := params.kind }
        match host.specError with
        | some e =>
          ([.identity, .spec spec argv capabilities],
            .error (coded "supervisor_spawn_failed" e))
        | none =>
          let session := fromLog spec []
          let (acts, answer) := startSupervisor host session
          ([.identity, .spec spec argv capabilities, .runDir, .upsert session] ++ acts, answer)

variable {host : Host} {projects : ProjectMap} {st : State} {params : CreateParams}
variable {s t b : Session} {xs : List Session} {id : SessionId}

/-! ## The latest -/

theorem State.get_iff_mem : st.get s.id = some s ↔ s ∈ st.values := by
  unfold State.values State.get
  rw [List.mem_insertionSort, List.mem_map]
  constructor
  · exact fun h => ⟨⟨s.id, s⟩, AList.mem_lookup_iff.mp h, rfl⟩
  · rintro ⟨⟨k, s'⟩, hmem, rfl⟩
    have hlookup : st.sessions.lookup k = some s' := AList.mem_lookup_iff.mpr hmem
    show st.sessions.lookup s'.id = some s'
    rw [st.keyed k s' hlookup]
    exact hlookup

theorem mem_ended {project : ProjectId} : s ∈ st.ended project ↔
    st.get s.id = some s ∧ s.projectId = project ∧ s.state.isTerminal = true := by
  simp [State.ended, State.get_iff_mem]

theorem lastCreated_snoc : lastCreated (xs ++ [s]) = some (match lastCreated xs with
    | some b => if s.createdAt < b.createdAt then b else s
    | none => s) := by
  unfold lastCreated
  rw [List.foldl_append]
  cases List.foldl _ none xs with
  | none => rfl
  | some b =>
    simp only [List.foldl_cons, List.foldl_nil]
    split_ifs <;> rfl

theorem lastCreated_eq_none : lastCreated xs = none ↔ xs = [] := by
  cases xs using List.reverseRecOn with
  | nil => exact iff_of_true rfl rfl
  | append_singleton xs s _ => simp [lastCreated_snoc]

/-- The last created is one of them, and none was created after it. -/
theorem lastCreated_spec (h : lastCreated xs = some b) :
    b ∈ xs ∧ ∀ t ∈ xs, ¬ b.createdAt < t.createdAt := by
  induction xs using List.reverseRecOn generalizing b with
  | nil => cases h
  | append_singleton xs s ih =>
    rw [lastCreated_snoc, Option.some.injEq] at h
    cases hlast : lastCreated xs with
    | none =>
      obtain rfl := lastCreated_eq_none.mp hlast
      rw [hlast] at h
      obtain rfl : s = b := h
      exact ⟨by simp, fun t ht => by rw [List.mem_singleton.mp ht]; exact lt_irrefl _⟩
    | some b' =>
      obtain ⟨hmem, hmax⟩ := ih hlast
      simp only [hlast] at h
      split_ifs at h with hlt
      · obtain rfl : b' = b := h
        refine ⟨List.mem_append_left _ hmem, fun t ht => ?_⟩
        rcases List.mem_append.mp ht with ht | ht
        · exact hmax t ht
        · rw [List.mem_singleton.mp ht]
          exact not_lt.mpr hlt.le
      · obtain rfl : s = b := h
        refine ⟨by simp, fun t ht => ?_⟩
        rcases List.mem_append.mp ht with ht | ht
        · exact not_lt.mpr ((not_lt.mp (hmax t ht)).trans (not_lt.mp hlt))
        · rw [List.mem_singleton.mp ht]
          exact lt_irrefl _

/-! ## What is continued -/

/-- The session that is named, if there is one, is a conversation of the
project, open or ended. -/
def NamesConversation (st : State) (params : CreateParams) : Prop :=
  ∀ named ∈ params.resumeFrom, ∀ s, st.get named = some s →
    s.projectId = params.projectId ∧ s.kind = .agent ∧
      (s.state.isLive = true ∨ s.state.isTerminal = true)

/-- **What a resume records**: a session of the project that has ended, the
conversation that is named, or the latest where none is; nothing only where
none is named and none has ended. -/
def Lineage (st : State) (params : CreateParams) : Option SessionId → Prop
  | some id => ∃ s, st.get id = some s ∧ s.projectId = params.projectId ∧
      s.state.isTerminal = true ∧
      match params.resumeFrom with
      | some named => id = named ∧ s.kind = .agent
      | none => ∀ t ∈ st.ended params.projectId, ¬ s.createdAt < t.createdAt
  | none => params.resumeFrom = none ∧ st.ended params.projectId = []

/-- **What is decided** of a resume. -/
theorem resumeDecision_ok {mode : LaunchMode} {lineage : Option SessionId}
    (hresume : params.resume = true)
    (h : resumeDecision params.resume (harnessResume params.kind) (resumeTarget st params) =
      .ok (mode, lineage)) :
    mode = .continues ∧ params.kind = .agent ∧
      (∀ id ∈ lineage, ∃ s, st.get id = some s) ∧
      (NamesConversation st params → Lineage st params lineage) := by
  have hkind : params.kind = .agent := by
    cases hk : params.kind with
    | agent => rfl
    | shell => simp [resumeDecision, hresume, hk, harnessResume] at h
  have hharness : harnessResume params.kind ≠ .none := by
    rw [hkind]
    decide
  unfold Lineage
  cases hfrom : params.resumeFrom with
  | some named =>
    have htarget : resumeTarget st params = .named named ((st.get named).map (·.state)) := by
      rw [resumeTarget, hfrom]
    cases hget : st.get named with
    | none => simp [resumeDecision, hresume, hharness, htarget, hget] at h
    | some s =>
      simp only [resumeDecision, hresume, hharness, htarget, hget, Bool.not_true,
        Bool.false_eq_true, if_false, Option.map_some] at h
      split_ifs at h with hlive
      obtain ⟨rfl, rfl⟩ := Prod.mk.inj (Except.ok.inj h)
      refine ⟨rfl, hkind, fun id hid => ⟨s, Option.some.inj hid ▸ hget⟩, fun hnames => ?_⟩
      obtain ⟨hproject, hagent, hstate⟩ := hnames named hfrom s hget
      exact ⟨s, hget, hproject, hstate.resolve_left hlive, rfl, hagent⟩
  | none =>
    have htarget : resumeTarget st params =
        .latest ((lastCreated (st.ended params.projectId)).map (·.id)) := by
      simp [resumeTarget, hfrom, hresume]
    simp only [resumeDecision, hresume, hharness, htarget, Bool.not_true, Bool.false_eq_true,
      if_false] at h
    obtain ⟨rfl, rfl⟩ := Prod.mk.inj (Except.ok.inj h)
    cases hlast : lastCreated (st.ended params.projectId) with
    | none => exact ⟨rfl, hkind, nofun, fun _ => ⟨rfl, lastCreated_eq_none.mp hlast⟩⟩
    | some s =>
      obtain ⟨hmem, hmax⟩ := lastCreated_spec hlast
      obtain ⟨hget, hproject, hterminal⟩ := mem_ended.mp hmem
      refine ⟨rfl, hkind, fun id hid => ⟨s, Option.some.inj hid ▸ hget⟩, fun _ => ?_⟩
      exact ⟨s, hget, hproject, hterminal, hmax⟩

/-- What passed the guards is the decision's. -/
theorem createGuards_ok {a : Admitted} (h : createGuards host projects st params = .ok a) :
    projects.lookup params.projectId = some a.project ∧
      resumeDecision params.resume (harnessResume params.kind) (resumeTarget st params) =
        .ok (a.mode, a.resumedFrom) := by
  unfold createGuards at h
  cases hlookup : projects.lookup params.projectId with
  | none => simp [hlookup] at h
  | some project =>
    simp only [hlookup] at h
    cases hproblem : project.sandboxProblem with
    | some problem => simp [hproblem] at h
    | none =>
      simp only [hproblem] at h
      split_ifs at h
      split at h
      · cases h
      · split at h
        · cases h
        · rename_i hdecision
          obtain rfl := Except.ok.inj h
          exact ⟨rfl, hdecision⟩

theorem create_refused {e : OpError} (h : createGuards host projects st params = .error e) :
    create host projects st params = ([], .error e) := by
  simp only [create, h]

/-- **A spec that is written** is of a create that was admitted. -/
theorem create_spec {spec : SessionSpec} {argv : List String} {capabilities : CapabilitySet}
    (h : .spec spec argv capabilities ∈ (create host projects st params).1) :
    ∃ a, createGuards host projects st params = .ok a ∧ spec.projectId = a.project.id ∧
      spec.kind = params.kind ∧ spec.resumedFrom = a.resumedFrom ∧
      (params.kind = .agent → a.mode = .continues → "--continue" ∈ argv) := by
  unfold create at h
  cases hguards : createGuards host projects st params with
  | error e => simp [hguards] at h
  | ok a =>
    refine ⟨a, rfl, ?_⟩
    simp only [hguards] at h
    cases hlaunch : launch host params.kind a.mode with
    | error e => simp [hlaunch] at h
    | ok line =>
      obtain ⟨argv', harness⟩ := line
      have hargv : params.kind = .agent → a.mode = .continues → "--continue" ∈ argv' := by
        intro hkind hmode
        rw [hkind, hmode] at hlaunch
        unfold launch at hlaunch
        cases hclaude : host.claude with
        | none => simp [hclaude] at hlaunch
        | some path =>
          simp only [hclaude, if_true, Except.ok.injEq, Prod.mk.injEq] at hlaunch
          rw [← hlaunch.1]
          exact List.mem_cons_of_mem _ List.mem_cons_self
      have hrest : ∀ session, .spec spec argv capabilities ∉ (startSupervisor host session).1 := by
        intro session
        unfold startSupervisor
        split <;> simp
      simp only [hlaunch] at h
      split at h
      · simp at h
      · split at h
        · simp only [List.mem_cons, reduceCtorEq, CreateAct.spec.injEq, false_or,
            List.not_mem_nil, or_false] at h
          obtain ⟨rfl, rfl, -⟩ := h
          exact ⟨rfl, rfl, rfl, hargv⟩
        · simp only [List.cons_append, List.nil_append, List.mem_cons, reduceCtorEq,
            CreateAct.spec.injEq, false_or, hrest, or_false] at h
          obtain ⟨rfl, rfl, -⟩ := h
          exact ⟨rfl, rfl, rfl, hargv⟩

/-- **What a resume continues**, in every state: an agent session's create
that gets past the decision records a session of the index, and, unless it
names what is no conversation of the project, the conversation it names, which
has ended, or the project's latest that has; a spec that is written records
just that; and a create that does not get past it writes nothing. -/
theorem resume_lineage (hresume : params.resume = true) :
    (∀ a, createGuards host projects st params = .ok a →
      projects.lookup params.projectId = some a.project ∧ a.mode = .continues ∧
        params.kind = .agent ∧ (∀ id ∈ a.resumedFrom, ∃ s, st.get id = some s) ∧
        (NamesConversation st params → Lineage st params a.resumedFrom)) ∧
    (∀ spec argv capabilities, .spec spec argv capabilities ∈ (create host projects st params).1 →
      spec.kind = .agent ∧ "--continue" ∈ argv ∧
        (∀ id ∈ spec.resumedFrom, ∃ s, st.get id = some s) ∧
        (NamesConversation st params → Lineage st params spec.resumedFrom)) ∧
    ∀ e, createGuards host projects st params = .error e →
      create host projects st params = ([], .error e) := by
  have hpast (a : Admitted) (h : createGuards host projects st params = .ok a) :
      projects.lookup params.projectId = some a.project ∧ a.mode = .continues ∧
        params.kind = .agent ∧ (∀ id ∈ a.resumedFrom, ∃ s, st.get id = some s) ∧
        (NamesConversation st params → Lineage st params a.resumedFrom) := by
    obtain ⟨hlookup, hdecision⟩ := createGuards_ok h
    exact ⟨hlookup, resumeDecision_ok hresume hdecision⟩
  refine ⟨hpast, fun spec argv capabilities hspec => ?_, fun e he => create_refused he⟩
  obtain ⟨a, hguards, -, hkind, hfrom, hargv⟩ := create_spec hspec
  obtain ⟨-, hmode, hagent, hlineage⟩ := hpast a hguards
  exact ⟨hkind.trans hagent, hargv hagent hmode, hfrom ▸ hlineage⟩

/-- A machine on which every step goes well. -/
def readyHost : Host where
  display := toString
  home := "/home/willie"
  busy _ := false
  claude := some "/home/willie/.local/bin/claude"
  zsh := true
  ensure _ _ := none
  id := 9
  now := "1700000009"
  specError := none
  ready := .ok (.ok 42)
  readyAt := "1700000010"

def readyProject : Project where
  id := 1
  name := "x"
  slug := "x"
  source := "C:\\github\\x"
  workspace := "/home/willie/projects/x"
  branch := "main"
  state := .ready
  sourcePresent := true
  createdAt := "1600000000"
  sandbox := {}
  sandboxProblem := none

/-- The one project. -/
def oneProject : ProjectMap := AList.singleton 1 readyProject

/-- A conversation of the project, finished. -/
def talk : Session where
  id := 1
  projectId := 1
  harness := "claude-code"
  workspace := "/home/willie/projects/x"
  kind := .agent
  state := .exited (some 0) none
  createdAt := "1700000001"
  startedAt := some "1700000002"
  finishedAt := some "1700000003"
  pid := none
  clients := 0
  resumedFrom := none
  label := none
  title := none
  sandbox := {}

/-- A shell of the project, opened and closed later. -/
def laterShell : Session :=
  { talk with id := 2, kind := .shell, harness := "zsh", createdAt := "1700000005" }

def resumeLatest : CreateParams := { projectId := 1, resume := true }

def resumeNamed : CreateParams := { projectId := 1, resume := true, resumeFrom := some 1 }

/-- The conversation is resumed, by its name, though a shell is later. -/
theorem resume_lineage_talk :
    ∃ a, createGuards readyHost oneProject
        ((State.empty.upsertSession talk).upsertSession laterShell) resumeNamed = .ok a ∧
      a.mode = .continues ∧ a.resumedFrom = some 1 ∧
      Lineage ((State.empty.upsertSession talk).upsertSession laterShell) resumeNamed
        a.resumedFrom := by
  have hguards : ∃ a, createGuards readyHost oneProject
      ((State.empty.upsertSession talk).upsertSession laterShell) resumeNamed = .ok a ∧
        a.resumedFrom = some 1 := ⟨_, rfl, rfl⟩
  have hnames : NamesConversation ((State.empty.upsertSession talk).upsertSession laterShell)
      resumeNamed := by
    rintro named ⟨⟩ s hs
    obtain rfl : talk = s := Option.some.inj (Eq.trans (by rfl) hs)
    exact ⟨rfl, rfl, .inr rfl⟩
  obtain ⟨a, hguards, hfrom⟩ := hguards
  obtain ⟨-, hmode, -, -, hlineage⟩ := (resume_lineage rfl).1 a hguards
  exact ⟨a, hguards, hmode, hfrom, hlineage hnames⟩

/-- A finished conversation of the project, the latest where none is named. -/
def Continued (st : State) (params : CreateParams) : Option SessionId → Prop
  | some id => ∃ s, st.get id = some s ∧ s.projectId = params.projectId ∧ s.kind = .agent ∧
      s.state.isTerminal = true ∧ (params.resumeFrom = none →
        ∀ t ∈ st.ended params.projectId, t.kind = .agent → ¬ s.createdAt < t.createdAt)
  | none => False

/-- A create that gets past the decision with something else. -/
def Strays (st : State) (params : CreateParams) : Prop :=
  ∃ a, createGuards readyHost oneProject st params = .ok a ∧ ¬ Continued st params a.resumedFrom

/-- **Where none is named**, what is recorded is the latest that has ended, a
shell too, and nothing where nothing has. -/
theorem resume_strays :
    Strays ((State.empty.upsertSession talk).upsertSession laterShell) resumeLatest ∧
    Strays State.empty resumeLatest := by
  refine ⟨⟨_, rfl, ?_⟩, ⟨_, rfl, id⟩⟩
  rintro ⟨s, hs, -, hkind, -⟩
  obtain rfl : laterShell = s := Option.some.inj (State.get_upsertSession.symm.trans hs)
  cases hkind

end Sessions
end Willie
