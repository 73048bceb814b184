import Willie.Profiles.Containment
import Willie.Projects.Model

/-!
# Profiles — who names the targets

A `profile.*` call passes the daemon before it reaches the plugin: the two
target fields are taken out of the params, and a project id in them is
looked up and its targets filled in. The plugin then deserialises what it
is handed, from an object by field name and from an array by position. The
stripping knows objects only, so an array's second and third elements reach
the plugin as the caller wrote them.
-/

namespace Willie
namespace Profiles

open Paths Json Traced Projects

/-- What the daemon knows when a `profile.*` call arrives. -/
structure Daemon where
  stateDir : Path
  home : Path
  projects : ProjectMap
  /-- The projects the profiles plugin is enabled in. -/
  enabled : List ProjectId
  /-- Reads a project id from its text. -/
  parseId : String → Option ProjectId

/-- The two methods that act on a project. -/
inductive Method where
  | check
  | apply
  deriving DecidableEq, Repr

/-- A call's failure, by where it comes from. -/
inductive RpcError where
  | invalidParams (text : String)
  | projectNotFound (id : ProjectId)
  | pluginDisabled
  | plugin (e : PluginError)
  deriving DecidableEq, Repr

/-- The harness-state settings every session reads. -/
def Daemon.harnessSettings (D : Daemon) : Path :=
  join D.home ".willie/agent-state/claude/dot-claude/settings.json"

/-- A plugin's private store. -/
def Daemon.storeDir (D : Daemon) : Path := join (join D.stateDir "plugins") "profile"

/-- Takes the target fields out of an object. -/
def strip : Value → Value
  | .object m => .object (Map.remove (Map.remove m "_workspace") "_harness_settings")
  | v => v

/-- Puts the daemon's own targets into an object. -/
def fill (workspace harness : Path) : Value → Value
  | .object m =>
    .object (Map.insert (Map.insert m "_workspace" (.string workspace)) "_harness_settings"
      (.string harness))
  | v => v

/-- The project id a value names, as text. -/
def projectIdOf (params : Value) : Option String := (params.get? "project_id").bind Value.asStr?

/-- The targets are stripped, then filled in for the project the params
name. -/
def Daemon.resolveProfileTargets (D : Daemon) (params : Value) : Except RpcError Value :=
  match projectIdOf (strip params) with
  | none => .ok (strip params)
  | some rawId =>
    match D.parseId rawId with
    | none => .error (.invalidParams rawId)
    | some id =>
      match D.projects.lookup id with
      | none => .error (.projectNotFound id)
      | some project => .ok (fill project.workspace D.harnessSettings (strip params))

variable {μ β : Type} (E : Outside μ β)

/-- What an RPC leaves: the files it touched, its result and the machine. -/
abbrev Outcome (μ : Type) := List Access × Except RpcError Reply × μ

/-- A plugin's run as an RPC's. -/
def reply {α : Type} (r : List Access × Except PluginError α × μ) :
    List Access × Except RpcError α × μ :=
  (r.1, r.2.1.mapError .plugin, r.2.2)

/-- The plugin's method on its params. -/
def Method.call (store : Path) (params : Value) : Method → Call μ Reply
  | .check => Profiles.check E store params
  | .apply => applyToProject E store params

/-- The method on targets already read. -/
def Method.on (store : Path) (p : TargetParams) : Method → Call μ Reply
  | .check => checkTarget E store p
  | .apply => applyTarget E store p

/-- The host hands the call to the plugin if it is enabled anywhere. Its
store is created on the way. -/
def Daemon.pluginHandle (D : Daemon) (method : Method) (params : Value) (w : μ) : Outcome μ :=
  if D.enabled = [] then ([], .error .pluginDisabled, w)
  else reply (method.call E D.storeDir params (E.createDirAll w D.storeDir).2)

/-- `profile.check` and `profile.apply`, as served. -/
def Daemon.profileHandle (D : Daemon) (method : Method) (params : Value) (w : μ) : Outcome μ :=
  match D.resolveProfileTargets params with
  | .error e => ([], .error e, w)
  | .ok params => D.pluginHandle E method params w

/-! ## Deserialising an object -/

/-- A target field the daemon filled in, or none at all. -/
def TargetsFilled (m : Map) : Prop :=
  (∀ v, Map.get? m "_workspace" = some v → ∃ s, v = .string s) ∧
  ∀ v, Map.get? m "_harness_settings" = some v → ∃ s, v = .string s

/-- Fields already seen do not come again. -/
def Fields.Fresh (fs : Fields) (m : Map) : Prop :=
  (fs.name.isSome → Map.get? m "name" = none) ∧
  (fs.workspace.isSome → Map.get? m "_workspace" = none) ∧
  (fs.harnessSettings.isSome → Map.get? m "_harness_settings" = none)

/-- The fields an object brings, by lookup. -/
def Fields.lookup (fs : Fields) (m : Map) : Except DeError Fields :=
  match Map.get? m "name" with
  | none => .ok { fs with
      workspace := fs.workspace.or ((Map.get? m "_workspace").bind Value.asStr?)
      harnessSettings := fs.harnessSettings.or
        ((Map.get? m "_harness_settings").map Value.asStr?) }
  | some v =>
    match deString v with
    | .error e => .error e
    | .ok name => .ok
        { name := some name
          workspace := fs.workspace.or ((Map.get? m "_workspace").bind Value.asStr?)
          harnessSettings := fs.harnessSettings.or
            ((Map.get? m "_harness_settings").map Value.asStr?) }

/-- **Reading an object's fields one by one is looking them up**, once its
target fields are texts. -/
theorem visitEntries_eq {m : Map} {fs : Fields} (hu : Map.Unique m) (ht : TargetsFilled m)
    (hf : fs.Fresh m) : visitEntries fs m = fs.lookup m := by
  induction m generalizing fs with
  | nil => simp [visitEntries, Fields.lookup]
  | cons e m ih =>
    obtain ⟨k, v⟩ := e
    obtain ⟨hnotin, hrest⟩ := List.nodup_cons.mp hu
    have hk : Map.get? m k = none := Map.get?_eq_none.mpr hnotin
    have ht' : TargetsFilled m := by
      refine ⟨fun v' h => ht.1 v' ?_, fun v' h => ht.2 v' ?_⟩
      all_goals
        rw [Map.get?_cons, if_neg ?_]
        · exact h
        · rintro rfl
          simp [hk] at h
    obtain ⟨hname, hworkspace, hharness⟩ := hf
    by_cases h1 : k = "name"
    · subst h1
      have hn : fs.name = none := by simpa using mt hname
      cases hv : deString v with
      | error e => simp [visitEntries, Fields.lookup, hn, hv]
      | ok name =>
        simp only [visitEntries, hn, hv, if_true, Option.isSome_none, Bool.false_eq_true,
          if_false, ok_bind]
        rw [ih hrest ht' ⟨fun _ => hk, by simpa using hworkspace, by simpa using hharness⟩]
        simp [Fields.lookup, hk, hv]
    by_cases h2 : k = "_workspace"
    · subst h2
      have hn : fs.workspace = none := by simpa using mt hworkspace
      obtain ⟨s, rfl⟩ := ht.1 v (by simp)
      simp only [visitEntries, hn, h1, if_true, Option.isSome_none, Bool.false_eq_true,
        if_false, deString, ok_bind]
      rw [ih hrest ht' ⟨by simpa using hname, fun _ => hk, by simpa using hharness⟩]
      simp [Fields.lookup, hk, hn, Value.asStr?]
    by_cases h3 : k = "_harness_settings"
    · subst h3
      have hn : fs.harnessSettings = none := by simpa using mt hharness
      obtain ⟨s, rfl⟩ := ht.2 v (by simp)
      simp only [visitEntries, hn, h1, h2, if_true, Option.isSome_none, Bool.false_eq_true,
        if_false, deOptionString, deString, Except.map, ok_bind]
      rw [ih hrest ht' ⟨by simpa using hname, by simpa using hworkspace, fun _ => hk⟩]
      simp [Fields.lookup, hk, hn, Value.asStr?]
    simp only [visitEntries, h1, h2, h3, if_false]
    rw [ih hrest ht' ⟨by simpa [h1] using hname, by simpa [h2] using hworkspace,
      by simpa [h3] using hharness⟩]
    simp [Fields.lookup, h1, h2, h3]

theorem deserialize_object {m : Map} (hu : Map.Unique m) (ht : TargetsFilled m) :
    TargetParams.deserialize (.object m) = Fields.lookup {} m >>= Fields.build := by
  rw [TargetParams.deserialize, visitEntries_eq hu ht ⟨by simp, by simp, by simp⟩]

/-! ## What the plugin is handed -/

/-- The profile a call names. -/
def nameOf : Option Value → Except DeError String
  | none => .error (.missingField "name")
  | some v => deString v

theorem get?_strip {m : Map} (hu : Map.Unique m) (key : String) :
    Map.get? (Map.remove (Map.remove m "_workspace") "_harness_settings") key =
      if key = "_workspace" ∨ key = "_harness_settings" then none else Map.get? m key := by
  rw [Map.get?_remove hu.remove, Map.get?_remove hu]
  grind

/-- Stripped and not filled, an object lacks a workspace. -/
theorem deserialize_strip {m : Map} (hu : Map.Unique m) :
    TargetParams.deserialize (strip (.object m)) =
      nameOf (Map.get? m "name") >>= fun _ => .error (.missingField "_workspace") := by
  rw [strip, deserialize_object hu.remove.remove ⟨by simp [get?_strip hu], by simp [get?_strip hu]⟩]
  simp only [Fields.lookup, get?_strip hu]
  cases hn : Map.get? m "name" with
  | none => simp [nameOf, Fields.build]
  | some v => cases hv : deString v <;> simp [nameOf, hv, Fields.build]

/-- Filled, an object has the daemon's targets and nothing of the caller's
but the name. -/
theorem deserialize_fill {m : Map} (hu : Map.Unique m) (workspace harness : Path) :
    TargetParams.deserialize (fill workspace harness (strip (.object m))) =
      nameOf (Map.get? m "name") >>= fun name => .ok ⟨name, workspace, some harness⟩ := by
  rw [strip, fill, deserialize_object hu.remove.remove.insert.insert
    ⟨by simp, by simp⟩]
  simp only [Fields.lookup, Map.get?_insert, get?_strip hu]
  cases hn : Map.get? m "name" with
  | none => simp [nameOf, Fields.build]
  | some v => cases hv : deString v <;> simp [nameOf, hv, Fields.build, Value.asStr?]

variable {E} {D : Daemon} {method : Method} {w : μ}

/-- The host's run of a call whose params have been read. -/
def Daemon.serve (E : Outside μ β) (D : Daemon) (method : Method)
    (params : Except DeError TargetParams) (w : μ) : Outcome μ :=
  if D.enabled = [] then ([], .error .pluginDisabled, w)
  else
    reply ((settle (params.mapError .badRequest) >>= fun p =>
        method.on E D.storeDir p : Call μ Reply)
      (E.createDirAll w D.storeDir).2)

/-- The plugin sees of its params what they deserialise to. -/
theorem pluginHandle_eq (params : Value) :
    D.pluginHandle E method params w = D.serve E method (TargetParams.deserialize params) w := by
  cases method <;> rfl

/-- **What becomes of an object**: its project id decides the targets, its
name the profile, and no other field is seen. -/
theorem profileHandle_object {m : Map} (hu : Map.Unique m) :
    D.profileHandle E method (.object m) w =
      match (Map.get? m "project_id").bind Value.asStr? with
      | none =>
        D.serve E method
          (nameOf (Map.get? m "name") >>= fun _ => .error (.missingField "_workspace")) w
      | some rawId =>
        match D.parseId rawId with
        | none => ([], .error (.invalidParams rawId), w)
        | some id =>
          match D.projects.lookup id with
          | none => ([], .error (.projectNotFound id), w)
          | some project =>
            D.serve E method (nameOf (Map.get? m "name") >>= fun name =>
              .ok ⟨name, project.workspace, some D.harnessSettings⟩) w := by
  have hid : projectIdOf (strip (.object m)) = (Map.get? m "project_id").bind Value.asStr? := by
    simp [projectIdOf, strip, Value.get?, get?_strip hu]
  unfold Daemon.profileHandle Daemon.resolveProfileTargets
  rw [hid]
  cases (Map.get? m "project_id").bind Value.asStr? with
  | none => simp only [pluginHandle_eq, deserialize_strip hu]
  | some rawId =>
    simp only
    cases D.parseId rawId with
    | none => rfl
    | some id =>
      simp only
      cases D.projects.lookup id with
      | none => rfl
      | some project => simp only [pluginHandle_eq, deserialize_fill hu]

/-- An array passes the seam as it came. -/
theorem profileHandle_array (vs : List Value) :
    D.profileHandle E method (.array vs) w = D.serve E method (visitSeq vs) w := by
  show D.pluginHandle E method (.array vs) w = _
  rw [pluginHandle_eq]
  rfl

/-! ## Who names the targets -/

/-- Params that differ at most in the target data, where the plugin would
read it: two fields of an object, the second and third elements of an
array. -/
inductive SameButTargets : Value → Value → Prop
  | object {m m' : Map} (h : ∀ key, key ≠ "_workspace" → key ≠ "_harness_settings" →
      Map.get? m key = Map.get? m' key) : SameButTargets (.object m) (.object m')
  | array {vs vs' : List Value} (hname : vs.head? = vs'.head?) (hrest : vs.drop 3 = vs'.drop 3) :
      SameButTargets (.array vs) (.array vs')
  | same (v : Value) : SameButTargets v v

/-- The call acted on the targets of the project its params name, as the
daemon has them. -/
def Daemon.OnProject (E : Outside μ β) (D : Daemon) (method : Method) (params : Value) (w : μ) :
    Prop :=
  ∃ rawId id project name, projectIdOf params = some rawId ∧ D.parseId rawId = some id ∧
    D.projects.lookup id = some project ∧ params.get? "name" = some (.string name) ∧
    D.profileHandle E method params w =
      reply (method.on E D.storeDir ⟨name, project.workspace, some D.harnessSettings⟩
        (E.createDirAll w D.storeDir).2)

/-- **Only the daemon names the targets of a call**: it fails or acts on the
project's, and the caller's own target data changes nothing. -/
def Daemon.NamesTargets (E : Outside μ β) (D : Daemon) (method : Method) (params : Value) (w : μ) :
    Prop :=
  (∀ r, (D.profileHandle E method params w).2.1 = .ok r → D.OnProject E method params w) ∧
  ∀ other : Value, other.WellFormed → SameButTargets params other →
    D.profileHandle E method other w = D.profileHandle E method params w

/-- An array that gives a profile's name by position. -/
def Positional (params : Value) : Prop := ∃ name rest, params = .array (.string name :: rest)

/-- Params that do not deserialise are refused before anything happens. -/
theorem serve_error {e : DeError} (h : D.enabled ≠ []) :
    D.serve E method (.error e) w =
      ([], .error (.plugin (.badRequest e)), (E.createDirAll w D.storeDir).2) := by
  rw [Daemon.serve, if_neg h]
  rfl

theorem serve_disabled {params : Except DeError TargetParams} (h : D.enabled = []) :
    D.serve E method params w = ([], .error .pluginDisabled, w) := by
  rw [Daemon.serve, if_pos h]

theorem serve_error_ne_ok {e : DeError} {r : Reply} :
    (D.serve E method (.error e) w).2.1 ≠ .ok r := by
  by_cases h : D.enabled = []
  · simp [serve_disabled h]
  · simp [serve_error h]

/-- An object's call is the daemon's. -/
theorem namesTargets_object {m : Map} (hu : Map.Unique m) :
    D.NamesTargets E method (.object m) w := by
  constructor
  · intro r hr
    have heq := @profileHandle_object _ _ E D method w m hu
    rw [heq] at hr
    split at hr
    · cases hn : nameOf (Map.get? m "name") <;> rw [hn] at hr <;>
        exact (serve_error_ne_ok hr).elim
    · rename_i rawId hid
      split at hr
      · simp at hr
      · rename_i id hparse
        split at hr
        · simp at hr
        · rename_i project hlookup
          cases hn : nameOf (Map.get? m "name") with
          | error e =>
            rw [hn] at hr
            exact (serve_error_ne_ok hr).elim
          | ok name =>
            have hname : Map.get? m "name" = some (.string name) := by
              unfold nameOf deString at hn
              grind
            have hen : D.enabled ≠ [] := by
              intro hen
              simp [serve_disabled hen] at hr
            refine ⟨rawId, id, project, name, hid, hparse, hlookup, hname, ?_⟩
            rw [heq]
            simp only [hid, hparse, hlookup, hn, ok_bind]
            rw [Daemon.serve, if_neg hen]
            rfl
  · rintro other hw (⟨hsame⟩ | _ | _)
    · rw [profileHandle_object hw.1, profileHandle_object hu, hsame "project_id" (by decide)
        (by decide), hsame "name" (by decide) (by decide)]
    · rfl

/-- An array whose first element is no text is refused for it, whatever
follows. -/
theorem visitSeq_of_head {vs : List Value} (h : ∀ name, vs.head? ≠ some (.string name)) :
    visitSeq vs = .error (match vs.head? with
      | none => .invalidLength 0
      | some v => .invalidType (unexpected v)) := by
  rcases vs with _ | ⟨v, _ | ⟨w, _ | ⟨x, vs⟩⟩⟩
  · rfl
  all_goals
    cases v with
    | string s => exact (h s rfl).elim
    | null | bool | number | array | object => rfl

theorem allWellFormed_drop {vs : List Value} (h : allWellFormed vs) (n : Nat) :
    allWellFormed (vs.drop n) := by
  induction vs generalizing n with
  | nil => simpa using h
  | cons v vs ih =>
    cases n with
    | zero => exact h
    | succ n => exact ih h.2 n

/-- Params that are no object and fail whatever their target data is. -/
theorem namesTargets_of_fails {params : Value}
    (hfails : ∀ r, (D.profileHandle E method params w).2.1 ≠ .ok r)
    (hsame : ∀ other, SameButTargets params other →
      D.profileHandle E method other w = D.profileHandle E method params w) :
    D.NamesTargets E method params w :=
  ⟨fun r hr => (hfails r hr).elim, fun other _ h => hsame other h⟩

/-- A value that is neither object nor array is refused. -/
theorem namesTargets_scalar {params : Value} {e : DeError} (hseam : strip params = params)
    (hid : projectIdOf params = none) (hde : TargetParams.deserialize params = .error e)
    (honly : ∀ other, SameButTargets params other → other = params) :
    D.NamesTargets E method params w := by
  have heq : D.profileHandle E method params w = D.serve E method (.error e) w := by
    rw [Daemon.profileHandle, Daemon.resolveProfileTargets, hseam, hid]
    simp only [pluginHandle_eq, hde]
  refine namesTargets_of_fails (fun r => heq ▸ serve_error_ne_ok) fun other h => ?_
  rw [honly other h]

/-- A name by position lets the caller's own target data through: two arrays
that differ in it are refused differently. -/
theorem not_namesTargets_of_positional {name : String} {rest : List Value}
    (hw : (Value.array (.string name :: rest)).WellFormed) (hen : D.enabled ≠ []) :
    ¬ D.NamesTargets E method (.array (.string name :: rest)) w := by
  rintro ⟨-, hsame⟩
  have hrest : allWellFormed (rest.drop 2) := allWellFormed_drop hw.2 2
  have answers : ∀ v : Value, v.WellFormed → (∀ s, v ≠ .string s) →
      D.profileHandle E method (.array (.string name :: rest)) w =
        ([], .error (.plugin (.badRequest (.invalidType (unexpected v)))),
          (E.createDirAll w D.storeDir).2) := by
    intro v hv hstr
    have hseq : visitSeq (.string name :: v :: .null :: rest.drop 2) =
        .error (.invalidType (unexpected v)) := by
      cases v with
      | string s => exact (hstr s rfl).elim
      | null | bool | number | array | object => rfl
    rw [← hsame (.array (.string name :: v :: .null :: rest.drop 2))
      ⟨trivial, hv, trivial, hrest⟩ (.array rfl (by simp)), profileHandle_array, hseq,
      serve_error hen]
  have h₁ := answers (.bool true) trivial (by simp)
  have h₂ := answers .null trivial (by simp)
  rw [h₁] at h₂
  simp [unexpected] at h₂

/-- **Exactly when the seam holds.** Only the daemon names the targets of a
call when the plugin is disabled, or the params do not give the profile's
name by position. -/
theorem namesTargets_iff {params : Value} (hw : params.WellFormed) :
    D.NamesTargets E method params w ↔ D.enabled = [] ∨ ¬ Positional params := by
  cases params with
  | object m =>
    exact ⟨fun _ => .inr (by simp [Positional]), fun _ => namesTargets_object hw.1⟩
  | array vs =>
    constructor
    · intro h
      by_contra hno
      simp only [not_or, not_not] at hno
      obtain ⟨hen, name, rest, hvs⟩ := hno
      rw [hvs] at h hw
      exact not_namesTargets_of_positional hw hen h
    · rintro (hen | hpos)
      · refine namesTargets_of_fails ?_ ?_
        · simp [profileHandle_array, serve_disabled hen]
        · rintro _ (_ | _ | _)
          · simp [profileHandle_array, serve_disabled hen]
          · rfl
      · have hhead : ∀ name, vs.head? ≠ some (.string name) := by
          intro name h
          obtain ⟨rest, rfl⟩ := List.head?_eq_some_iff.mp h
          exact hpos ⟨name, rest, rfl⟩
        refine namesTargets_of_fails ?_ ?_
        · intro r
          rw [profileHandle_array, visitSeq_of_head hhead]
          exact serve_error_ne_ok
        · rintro _ (_ | ⟨hname, -⟩ | _)
          · rw [profileHandle_array, profileHandle_array, visitSeq_of_head hhead,
              visitSeq_of_head (by rwa [← hname]), hname]
          · rfl
  | null | bool | number | string =>
    refine ⟨fun _ => .inr (by simp [Positional]), fun _ => ?_⟩
    exact namesTargets_scalar rfl rfl rfl fun _ h => by cases h; rfl

/-! ## A project, and one since removed -/

/-- A daemon with one project, in which the plugin is enabled. -/
def teamDaemon : Daemon where
  stateDir := "/v"
  home := "/home/willie"
  projects := AList.singleton 1
    { id := 1, name := "w", slug := "w", source := "C:\\w", workspace := "/w", branch := "main"
      state := .ready, sourcePresent := true, createdAt := "1", sandbox := {}
      sandboxProblem := none }
  enabled := [1]
  parseId := fun text => if text = "1" then some 1 else none

/-- The project is named, and other targets are smuggled in. -/
def smuggled : Value :=
  .object [("name", .string "team"), ("project_id", .string "1"), ("_workspace", .string "/etc"),
    ("_harness_settings", .string "/etc/settings.json")]

/-- An object's targets are the daemon's: the apply writes in the project's
workspace, whatever else the object names. -/
theorem namesTargets_object_params :
    teamDaemon.NamesTargets (treeMachine ruleCodec) .apply smuggled (ruleTree "style.md") ∧
    (teamDaemon.profileHandle (treeMachine ruleCodec) .apply smuggled
      (ruleTree "style.md")).2.1 = .ok (ruleReply "style.md" "be brief") :=
  ⟨(namesTargets_iff (by simp [smuggled, Value.WellFormed, Map.Unique, entriesWellFormed])).mpr
    (.inr (by simp [Positional, smuggled])), by decide +kernel⟩

/-- The project is gone, and the plugin still enabled for it. -/
def bareDaemon : Daemon where
  stateDir := "/v"
  home := "/home/willie"
  projects := ∅
  enabled := [1]
  parseId := fun _ => none

/-- **An array names its own workspace.** The daemon has no project at all,
and the apply writes where the second element says. -/
theorem positional_names_targets :
    (bareDaemon.profileHandle (treeMachine ruleCodec) .apply
      (.array [.string "team", .string "/w"]) (ruleTree "style.md")).2.1 =
      .ok (ruleReply "style.md" "be brief") ∧
    ¬ bareDaemon.NamesTargets (treeMachine ruleCodec) .apply
      (.array [.string "team", .string "/w"]) (ruleTree "style.md") := by
  have hok : (bareDaemon.profileHandle (treeMachine ruleCodec) .apply
      (.array [.string "team", .string "/w"]) (ruleTree "style.md")).2.1 =
      .ok (ruleReply "style.md" "be brief") := by decide +kernel
  refine ⟨hok, fun h => ?_⟩
  obtain ⟨rawId, _, _, _, hid, -⟩ := h.1 _ hok
  simp [projectIdOf, Value.get?] at hid

end Profiles
end Willie
