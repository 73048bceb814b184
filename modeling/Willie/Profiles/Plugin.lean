import Willie.Common.Traced
import Willie.Profiles.Apply

/-!
# Profiles — the plugin's check and apply

What `profile.check` and `profile.apply` do on a machine: read the profile,
read the files its fragments land on, plan, and for an apply back up and
write. The machine is whatever answers the calls (`Outside`): files, links,
other processes and failures are its own affair. A run leaves the trace of
the files it touched.
-/

namespace Willie
namespace Profiles

open Paths Json Traced

/-- What an io error says about the file. -/
inductive ErrorKind where
  | notFound
  | other
  deriving DecidableEq, Repr

structure IoError where
  kind : ErrorKind
  text : String
  deriving DecidableEq, Repr

/-- **The machine under the plugin**, in state `μ`, its files holding `β`.
Every answer may depend on everything that happened. -/
structure Outside (μ β : Type) where
  isDir : μ → Path → Bool
  isFile : μ → Path → Bool
  read : μ → Path → Except IoError β
  write : μ → Path → β → Except IoError Unit × μ
  createDirAll : μ → Path → Except IoError Unit × μ
  /-- Gives the second file the mode of the first, if it can. -/
  copyMode : μ → Path → Path → μ
  /-- Seconds since the epoch, and nanoseconds within the second. -/
  now : μ → Nat × Nat
  /-- The bytes of a text, and the text of bytes that are UTF-8. -/
  asBytes : String → β
  fromUtf8 : β → Option String
  codec : Codec

/-- A file the plugin touches. -/
inductive Access where
  /-- A read of one of the profile's own files. -/
  | fragment (p : Path)
  /-- A read of what a destination holds before the plan is made. -/
  | existing (p : Path)
  /-- The backup of the change at a path looked for the file to save. -/
  | saving (path : Path) (found : Bool)
  /-- A file is written. -/
  | write (p : Path)
  deriving DecidableEq, Repr

/-- What JSON a value turned out to be when another was expected. -/
inductive Unexpected where
  | null
  | bool (b : Bool)
  | number (text : String)
  | string (s : String)
  | seq
  | map
  deriving DecidableEq, Repr

/-- Why a value does not deserialise into a struct. -/
inductive DeError where
  | invalidType (found : Unexpected)
  | missingField (field : String)
  | duplicateField (field : String)
  | invalidLength (length : Nat)
  deriving DecidableEq, Repr

/-- The failure a plugin call returns. A bad request says what the params
did not fit. -/
inductive PluginError where
  | internal (message : String)
  | badRequest (e : DeError)
  | coded (code message remediation : String)
  deriving DecidableEq, Repr

/-! ## Params -/

/-- The params of `profile.check` and of `profile.apply`: the two structs
have the same fields. -/
structure TargetParams where
  name : String
  workspace : Path
  harnessSettings : Option Path
  deriving DecidableEq, Repr

def unexpected : Value → Unexpected
  | .null => .null
  | .bool b => .bool b
  | .number n => .number n
  | .string s => .string s
  | .array _ => .seq
  | .object _ => .map

def deString : Value → Except DeError String
  | .string s => .ok s
  | v => .error (.invalidType (unexpected v))

def deOptionString : Value → Except DeError (Option String)
  | .null => .ok none
  | v => (deString v).map some

/-- The fields of the struct as they come in. -/
structure Fields where
  name : Option String := none
  workspace : Option String := none
  harnessSettings : Option (Option String) := none
  deriving DecidableEq, Repr

/-- By field name: each known key once, the others passed by. -/
def visitEntries (fs : Fields) : List (String × Value) → Except DeError Fields
  | [] => .ok fs
  | (key, v) :: rest => do
    if key = "name" then
      if fs.name.isSome then .error (.duplicateField key)
      else visitEntries { fs with name := some (← deString v) } rest
    else if key = "_workspace" then
      if fs.workspace.isSome then .error (.duplicateField key)
      else visitEntries { fs with workspace := some (← deString v) } rest
    else if key = "_harness_settings" then
      if fs.harnessSettings.isSome then .error (.duplicateField key)
      else visitEntries { fs with harnessSettings := some (← deOptionString v) } rest
    else visitEntries fs rest

/-- The struct the fields make; only the harness settings have a default. -/
def Fields.build (fs : Fields) : Except DeError TargetParams :=
  match fs.name, fs.workspace with
  | none, _ => .error (.missingField "name")
  | _, none => .error (.missingField "_workspace")
  | some name, some workspace => .ok ⟨name, workspace, fs.harnessSettings.getD none⟩

/-- By position: name, workspace, harness settings; the last may be left
off, and nothing may follow. -/
def visitSeq : List Value → Except DeError TargetParams
  | [] => .error (.invalidLength 0)
  | [v] => do
    let _ ← deString v
    .error (.invalidLength 1)
  | [v, w] => do return ⟨← deString v, ← deString w, none⟩
  | v :: w :: h :: rest => do
    let params := TargetParams.mk (← deString v) (← deString w) (← deOptionString h)
    if rest = [] then return params else .error (.invalidLength (rest.length + 3))

/-- A derived struct deserialises from an object by field name and from an
array by position. -/
def TargetParams.deserialize : Value → Except DeError TargetParams
  | .object m => do (← visitEntries {} m).build
  | .array vs => visitSeq vs
  | v => .error (.invalidType (unexpected v))

/-! ## The plugin -/

variable {μ β : Type} (E : Outside μ β)

/-- A call into the plugin. -/
abbrev Call (μ α : Type) := Traced μ Access PluginError α

def ioFault (path : Path) (e : IoError) : PluginError :=
  .internal ("cannot access " ++ path ++ ": " ++ e.text)

/-- A file's text. Bytes that are not UTF-8 are an error of their own. -/
def Outside.readToString (w : μ) (path : Path) : Except IoError String :=
  match E.read w path with
  | .ok bytes =>
    match E.fromUtf8 bytes with
    | some s => .ok s
    | none => .error ⟨.other, "stream did not contain valid UTF-8"⟩
  | .error e => .error e

/-- An io step whose failure is a fault at a path. -/
def faulting {α : Type} (path : Path) (f : μ → Except IoError α × μ) : Call μ α :=
  act fun w => ((f w).1.mapError (ioFault path), (f w).2)

def parseParams (params : Value) : Call μ TargetParams :=
  settle ((TargetParams.deserialize params).mapError .badRequest)

def invalidName (name : String) : PluginError :=
  .coded "profile_name_invalid" ("`" ++ name ++ "` is not a valid profile name")
    "use a name with no path separators, and not `.` or `..`"

def notFound (name : String) : PluginError :=
  .coded "profile_not_found" ("no profile named `" ++ name ++ "`")
    "check profile.list for the available profile names"

def targetMissing (workspace : Path) : PluginError :=
  .coded "profile_target_missing" ("the project workspace " ++ workspace ++ " does not exist")
    ("the project's ext4 workspace is gone; re-add the project before checking or applying " ++
      "a profile")

def applyErrorToPlugin (e : ApplyError) : PluginError :=
  .coded e.code e.message <|
    if e.code = "profile_fragment_invalid" then
      "fix the fragment's or the target's content so it parses as JSON, then check or apply again"
    else if e.code = "profile_markers_malformed" then
      "fix or remove the stray <!-- willie:begin --> marker in the target file, then apply again"
    else if e.code = "profile_fragment_missing" then
      "this is a wiring bug in Willie, not something to fix in the profile; check the daemon log"
    else "check the daemon log for details"

/-- Is the directory still below the store? -/
def isContained (store dir : Path) : Bool := startsWith dir store

/-- The directory of a profile, if its name can be one. -/
def profileDir (store : Path) (name : String) : Except PluginError Path :=
  if !isValidProfileName name then .error (invalidName name)
  else if !isContained store (join store name) then .error (invalidName name)
  else .ok (join store name)

def existingProfileDir (store : Path) (name : String) : Call μ Path := do
  let dir ← settle (profileDir store name)
  if ← ask fun w => E.isFile w (join dir "profile.toml") then pure dir else throw (notFound name)

/-- `profile.toml`, read and parsed. -/
def Outside.profileToml (w : μ) (dir : Path) : Except PluginError Profile :=
  let path := join dir "profile.toml"
  match E.readToString w path with
  | .error e => .error (ioFault path e)
  | .ok text =>
    match E.codec.tomlFromStr text with
    | .ok profile => .ok profile
    | .error e => .error (.internal ("cannot parse " ++ path ++ ": " ++ e))

def readProfileToml (dir : Path) : Call μ Profile := do
  tell (.fragment (join dir "profile.toml"))
  settle (← ask fun w => E.profileToml w dir)

/-- A profile's file, or the empty text if it was never written. -/
def readRequired (path : Path) : Call μ String := do
  tell (.fragment path)
  match ← ask fun w => E.readToString w path with
  | .ok s => pure s
  | .error e => if e.kind = .notFound then pure "" else throw (ioFault path e)

/-- What a destination holds, if it exists. -/
def readOptional (path : Path) : Call μ (Option String) := do
  tell (.existing path)
  match ← ask fun w => E.readToString w path with
  | .ok s => pure (some s)
  | .error e => if e.kind = .notFound then pure none else throw (ioFault path e)

/-- One fragment's inputs when it is active. -/
def readFragmentPair (profileDir workspace fragmentFile targetRel : Path) (active : Bool) :
    Call μ (Option FragmentContent) := do
  if !active then pure none
  else
    let fragment ← readRequired E (join profileDir fragmentFile)
    let existing ← readOptional E (join workspace targetRel)
    pure (some ⟨fragment, existing⟩)

/-- Every file of a family, its name joined as it stands. -/
def readFileFamily (profileDir workspace family : Path) (map : FileInputs) :
    List String → Call μ FileInputs
  | [] => pure map
  | name :: names => do
    let fragment ← readRequired E (join (join profileDir family) name)
    let existing ← readOptional E (join (join (join workspace ".claude") family) name)
    readFileFamily profileDir workspace family ((name, ⟨fragment, existing⟩) :: map) names

/-- The second change of a settings fragment that applies globally: the same
content merged into the harness's own settings. -/
def planHarnessSettingsChange (profile : Profile) (settings mcp : Option FragmentContent)
    (harnessPath : Path) : Call μ (Option Change) := do
  let harnessExisting ← readOptional E harnessPath
  let harnessProfile : Profile :=
    { profile with
      fragments := { profile.fragments with instructions := false, rules := [], hooks := [] } }
  let harnessTargets : Targets :=
    { settings := settings.map fun c => ⟨c.fragment, harnessExisting⟩
      mcp := mcp.map fun c => ⟨c.fragment, harnessExisting⟩ }
  let changes ← settle
    ((planChanges E.codec harnessProfile harnessTargets).mapError applyErrorToPlugin)
  pure (changes.getLast?.map fun c => { c with path := harnessPath })

/-- The changes an apply would make. -/
def planProjectChanges (profileDir : Path) (profile : Profile) (workspace : Path)
    (harnessSettings : Option Path) : Call μ (List Change) := do
  if !(← ask fun w => E.isDir w workspace) then throw (targetMissing workspace)
  let frs := profile.fragments
  let settings ←
    readFragmentPair E profileDir workspace "settings.json" ".claude/settings.json" frs.settings
  let mcp ← readFragmentPair E profileDir workspace "mcp.json" ".claude/settings.json" frs.mcp
  let instructions ←
    readFragmentPair E profileDir workspace "CLAUDE.md" "CLAUDE.md" frs.instructions
  let rules ← readFileFamily E profileDir workspace "rules" [] frs.rules
  let hooks ← readFileFamily E profileDir workspace "hooks" [] frs.hooks
  let targets : Targets := ⟨settings, mcp, instructions, rules, hooks⟩
  let changes ← settle ((planChanges E.codec profile targets).mapError applyErrorToPlugin)
  match harnessSettings with
  | some harnessPath =>
    if frs.settings && frs.settingsScope = .global then
      let change ← planHarnessSettingsChange E profile settings mcp harnessPath
      pure (changes ++ change.toList)
    else pure changes
  | none => pure changes

/-- A change's destination. -/
def resolveDest (workspace path : Path) : Path :=
  if isAbsolute path then path else join workspace path

/-- Where a change's prior content goes, below the backup directory. -/
def backupRelativePath (path : Path) : Path :=
  if isAbsolute path then "harness-settings.json" else path

/-- Nanoseconds since the epoch, in decimal. -/
def backupTimestamp (clock : Nat × Nat) : String :=
  toString clock.1 ++ String.ofList (List.leftpad 9 '0' (toString clock.2).toList)

/-- The backup directory of one apply. -/
def backupRoot (workspace : Path) (timestamp : String) : Path :=
  join (join workspace ".willie-bak") timestamp

/-- Creates the directories above a file. -/
def createParent (path : Path) : Call μ Unit :=
  match parent path with
  | some dir => faulting dir fun w => E.createDirAll w dir
  | none => pure ()

def writeFile (path : Path) (bytes : β) : Call μ Unit := do
  tell (.write path)
  faulting path fun w => E.write w path bytes

/-- Saves what one destination holds, unless the change creates it. -/
def backupChange (workspace root : Path) (change : Change) : Call μ Unit := do
  if change.kind = .create then return
  let dest := resolveDest workspace change.path
  let backupDest := join root (backupRelativePath change.path)
  createParent E backupDest
  match ← ask fun w => E.read w dest with
  | .ok bytes =>
    tell (.saving change.path true)
    writeFile E backupDest bytes
  | .error e =>
    tell (.saving change.path false)
    if e.kind = .notFound then pure () else throw (ioFault dest e)

def backupChanges (workspace : Path) (changes : List Change) : Call μ Path := do
  let root := backupRoot workspace (backupTimestamp (← ask E.now))
  forM changes (backupChange E workspace root)
  pure root

/-- Writes one destination; a hook file also gets the mode of the profile's
own. -/
def writeChange (profileDir workspace : Path) (change : Change) : Call μ Unit := do
  let dest := resolveDest workspace change.path
  createParent E dest
  writeFile E dest (E.asBytes change.after)
  match stripPrefix change.path ".claude/hooks/" with
  | some name => act fun w => (.ok (), E.copyMode w (join (join profileDir "hooks") name) dest)
  | none => pure ()

def writeChanges (profileDir workspace : Path) (changes : List Change) : Call μ Unit :=
  forM changes (writeChange E profileDir workspace)

/-- What a call answers. -/
inductive Reply where
  | checked (changes : List Change)
  | applied (changes : List Change) (backupPath : Path)
  deriving DecidableEq, Repr

/-- `profile.check`, its params parsed. -/
def checkTarget (store : Path) (p : TargetParams) : Call μ Reply := do
  let dir ← existingProfileDir E store p.name
  let profile ← readProfileToml E dir
  let changes ← planProjectChanges E dir profile p.workspace p.harnessSettings
  pure (.checked changes)

/-- `profile.apply`, its params parsed. -/
def applyTarget (store : Path) (p : TargetParams) : Call μ Reply := do
  let dir ← existingProfileDir E store p.name
  let profile ← readProfileToml E dir
  let changes ← planProjectChanges E dir profile p.workspace p.harnessSettings
  let backupPath ← backupChanges E p.workspace changes
  writeChanges E dir p.workspace changes
  pure (.applied changes backupPath)

/-- `profile.check`. -/
def check (store : Path) (params : Value) : Call μ Reply := do
  checkTarget E store (← parseParams params)

/-- `profile.apply`. -/
def applyToProject (store : Path) (params : Value) : Call μ Reply := do
  applyTarget E store (← parseParams params)

end Profiles
end Willie
