import Willie.Common.Json
import Willie.Profiles.Model

/-!
# Profiles — the merge and the plan

The pure part of applying a profile: what each active fragment makes of the
file it lands on, and the list of changes, one for each destination. The
parsers and printers of the text formats come from other crates and are
parameters here, a `Codec`.
-/

namespace Willie
namespace Profiles

open Paths Json

/-- The text formats: JSON in and out, and `profile.toml`. -/
structure Codec where
  jsonFromStr : String → Except String Value
  jsonToStringPretty : Value → Except String String
  tomlFromStr : String → Except String Profile

/-- A merge or plan failure. -/
structure ApplyError where
  code : String
  message : String
  deriving DecidableEq, Repr

/-- A fragment's content and what its destination holds, if it exists. -/
structure FragmentContent where
  fragment : String
  existing : Option String
  deriving DecidableEq, Repr

/-- Inputs keyed by file name, the last one read for a name in front. -/
abbrev FileInputs := List (String × FragmentContent)

/-- The inputs of every active fragment. -/
structure Targets where
  settings : Option FragmentContent := none
  mcp : Option FragmentContent := none
  instructions : Option FragmentContent := none
  rules : FileInputs := []
  hooks : FileInputs := []

/-- What applying a change does to its destination. -/
inductive ChangeKind where
  | create
  | merge
  | overwrite
  deriving DecidableEq, Repr

/-- One destination file. Its path is relative to the workspace, or it is
the absolute path of the harness settings. -/
structure Change where
  path : Path
  kind : ChangeKind
  after : String
  deriving DecidableEq, Repr

def markerBegin : String := "<!-- willie:begin -->"
def markerEnd : String := "<!-- willie:end -->"

variable (C : Codec)

/-! ## JSON -/

mutual

/-- Merges a fragment into a target: objects key by key, anything else
replaces. -/
def deepMerge (target : Value) : Value → Value
  | .object fragmentMap =>
    match target with
    | .object targetMap => .object (mergeEntries targetMap fragmentMap)
    | _ => .object fragmentMap
  | other => other

/-- The fragment's entries one after the other: merged where the key
stands, or appended. -/
def mergeEntries (targetMap : Map) : List (String × Value) → Map
  | [] => targetMap
  | (key, value) :: rest =>
    match Map.get? targetMap key with
    | some existing => mergeEntries (Map.insert targetMap key (deepMerge existing value)) rest
    | none => mergeEntries (Map.insert targetMap key value) rest

end

def parseJson (text which : String) : Except ApplyError Value :=
  match C.jsonFromStr text with
  | .ok v => .ok v
  | .error e =>
    .error ⟨"profile_fragment_invalid", "the " ++ which ++ " is not valid JSON: " ++ e⟩

def serializePretty (value : Value) : Except ApplyError String :=
  match C.jsonToStringPretty value with
  | .ok out => .ok (out ++ "\n")
  | .error e => .error ⟨"profile_fragment_invalid", "cannot serialise the merged JSON: " ++ e⟩

/-- Merges a fragment onto a target text, at the top or under one key. -/
def mergeValue (target fragment : String) (under : Option String) : Except ApplyError String := do
  let targetValue ← parseJson C target "target"
  let fragmentValue ← parseJson C fragment "fragment"
  match under with
  | none => serializePretty C (deepMerge targetValue fragmentValue)
  | some key =>
    match targetValue with
    | .object targetMap =>
      let slot := (Map.get? targetMap key).getD (.object [])
      serializePretty C (.object (Map.insert targetMap key (deepMerge slot fragmentValue)))
    | _ => .error ⟨"profile_fragment_invalid", "the target is not a JSON object"⟩

def mergeJson (target fragment : String) : Except ApplyError String :=
  mergeValue C target fragment none

def mergeUnder (target key fragment : String) : Except ApplyError String :=
  mergeValue C target fragment (some key)

/-! ## Markdown -/

/-- Where a text first holds another. -/
def find (pat : List Char) : List Char → Option Nat
  | [] => if pat = [] then some 0 else none
  | c :: s => if pat.isPrefixOf (c :: s) then some 0 else (find pat s).map (· + 1)

/-- The text without the line feeds at its ends. -/
def trimNewlines (s : List Char) : List Char :=
  ((s.dropWhile (· = '\n')).reverse.dropWhile (· = '\n')).reverse

def markerBlock (fragment : String) : String :=
  markerBegin ++ "\n" ++ String.ofList (trimNewlines fragment.toList) ++ "\n" ++ markerEnd

/-- The span a replacement covers, markers included; none without a begin
marker, refused when nothing closes it. -/
def markerSpan (target : String) : Except ApplyError (Option (Nat × Nat)) :=
  match find markerBegin.toList target.toList with
  | none => .ok none
  | some start =>
    let afterBegin := start + markerBegin.length
    match find markerEnd.toList (target.toList.drop afterBegin) with
    | none =>
      .error ⟨"profile_markers_malformed",
        "the willie-managed block is missing its closing <!-- willie:end --> marker; fix or " ++
        "remove the stray <!-- willie:begin --> marker, then apply again"⟩
    | some endRel => .ok (some (start, afterBegin + endRel + markerEnd.length))

/-- Appends the block, a blank line before it. -/
def appendBlock (target block : String) : String :=
  if target = "" then block ++ "\n"
  else
    let result := if target.toList.getLast? = some '\n' then target else target ++ "\n"
    result ++ "\n" ++ block ++ "\n"

def mergeMarkdown (target fragment : String) : Except ApplyError String := do
  let block := markerBlock fragment
  match ← markerSpan target with
  | some (start, stop) =>
    pure (String.ofList (target.toList.take start) ++ block ++
      String.ofList (target.toList.drop stop))
  | none => pure (appendBlock target block)

/-! ## The plan -/

def missingTarget (fragment : String) : ApplyError :=
  ⟨"profile_fragment_missing",
    "the `" ++ fragment ++ "` fragment is active but no target content was supplied"⟩

/-- An input, or the fault of a caller that did not supply it. -/
def required (fragment : String) : Option FragmentContent → Except ApplyError FragmentContent
  | some content => .ok content
  | none => .error (missingTarget fragment)

/-- `Create` for a file that does not exist yet. -/
def kindOf (existing : Option String) (kind : ChangeKind) : ChangeKind :=
  if existing.isSome then kind else .create

/-- Settings and MCP fragments merge into one file. -/
def planSettings (fragments : Fragments) (targets : Targets) :
    Except ApplyError (Option Change) := do
  if !fragments.settings && !fragments.mcp then return none
  let existing :=
    (targets.settings.bind (·.existing)).or (targets.mcp.bind (·.existing))
  let mut current := existing.getD "\x7b\x7d"
  if fragments.settings then
    let content ← required "settings" targets.settings
    current ← mergeJson C current content.fragment
  if fragments.mcp then
    let content ← required "mcp" targets.mcp
    current ← mergeUnder C current "mcpServers" content.fragment
  return some ⟨".claude/settings.json", kindOf existing .merge, current⟩

def planInstructions (targets : Targets) : Except ApplyError Change := do
  let content ← required "instructions" targets.instructions
  let after ← mergeMarkdown (content.existing.getD "") content.fragment
  return ⟨"CLAUDE.md", kindOf content.existing .merge, after⟩

/-- One change for each name, its path the name appended as it stands. -/
def planFiles (inputs : FileInputs) (destDir : Path) :
    List String → Except ApplyError (List Change)
  | [] => .ok []
  | name :: names => do
    let content ← required name (inputs.lookup name)
    let rest ← planFiles inputs destDir names
    return ⟨destDir ++ "/" ++ name, kindOf content.existing .overwrite, content.fragment⟩ :: rest

/-- A step taken when a fragment is active. -/
def whenActive {α : Type} (active : Bool) (step : Except ApplyError α) :
    Except ApplyError (Option α) :=
  if active then step.map some else .ok none

/-- The changes of every active fragment. -/
def planChanges (profile : Profile) (targets : Targets) : Except ApplyError (List Change) := do
  let settings ← planSettings C profile.fragments targets
  let instructions ← whenActive profile.fragments.instructions (planInstructions targets)
  let rules ← planFiles targets.rules ".claude/rules" profile.fragments.rules
  let hooks ← planFiles targets.hooks ".claude/hooks" profile.fragments.hooks
  return settings.toList ++ instructions.toList ++ rules ++ hooks

end Profiles
end Willie
