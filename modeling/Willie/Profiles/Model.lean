import Willie.Common.Paths

/-!
# Profiles — what `profile.toml` holds

`Profile` is the record a `profile.toml` deserialises into. A rule or hook
file is active once its name is in the list, and the names are plain
strings: nothing about them is checked when the file is read. The one place
that checks a name is the fragment grammar, `Fragment.parse`, which stands
before `read_fragment` and `write_fragment`.
-/

namespace Willie
namespace Profiles

open Paths

/-- Where a settings fragment applies. -/
inductive SettingsScope where
  | project
  | global
  deriving DecidableEq, Repr

/-- Which fragments a profile carries, and for the two file families which
files. -/
structure Fragments where
  settings : Bool := false
  settingsScope : SettingsScope := .project
  instructions : Bool := false
  rules : List String := []
  hooks : List String := []
  mcp : Bool := false
  deriving DecidableEq, Repr

/-- `<store_dir>/<name>/profile.toml`. -/
structure Profile where
  name : String
  fragments : Fragments := {}
  deriving DecidableEq, Repr

/-- A parsed `fragment` parameter. -/
inductive Fragment where
  | settings
  | instructions
  | mcp
  | rule (f : String)
  | hook (f : String)
  deriving DecidableEq, Repr

/-- What follows `pre` in a text that begins with it. -/
def stripPrefix (s pre : String) : Option String :=
  if pre.toList.isPrefixOf s.toList then some (String.ofList (s.toList.drop pre.length)) else none

/-- Does the text open with an ASCII letter and a colon? -/
def startsWithDriveLetter (s : String) : Bool :=
  match s.toList with
  | c :: ':' :: _ => c.isAlpha
  | _ => false

/-- A single path segment that can be nothing but a file name. -/
def isSafeFileName (f : String) : Bool :=
  f ≠ "" && !f.toList.contains '/' && !f.toList.contains '\\' && f ≠ "." && f ≠ ".." &&
    !startsWithDriveLetter f

/-- A profile's name becomes a segment under the store, so the same rule
holds. -/
def isValidProfileName (name : String) : Bool := isSafeFileName name

/-- The wire spelling of a fragment; a file's name must be safe. -/
def Fragment.parse (s : String) : Option Fragment :=
  if s = "settings" then some .settings
  else if s = "instructions" then some .instructions
  else if s = "mcp" then some .mcp
  else match stripPrefix s "rules/" with
    | some f => if isSafeFileName f then some (.rule f) else none
    | none =>
      match stripPrefix s "hooks/" with
      | some f => if isSafeFileName f then some (.hook f) else none
      | none => none

/-- The two families of files, `rules` and `hooks`. -/
inductive Family where
  | rules
  | hooks
  deriving DecidableEq, Repr

/-- A family's directory, in the profile and under `.claude`. -/
def Family.dir : Family → Path
  | .rules => "rules"
  | .hooks => "hooks"

/-- The active names of a family. -/
def Fragments.files (frs : Fragments) : Family → List String
  | .rules => frs.rules
  | .hooks => frs.hooks

/-! ## Names the grammar lets through -/

/-- A safe file name is one plain segment. -/
theorem plain_of_isSafeFileName {f : String} (h : isSafeFileName f = true) : Plain f.toList := by
  simp only [isSafeFileName, Bool.and_eq_true, decide_eq_true_eq, Bool.not_eq_true',
    List.contains_eq_mem, decide_eq_false_iff_not] at h
  obtain ⟨⟨⟨⟨⟨hne, hslash⟩, -⟩, hdot⟩, hdots⟩, -⟩ := h
  have toList_ne : ∀ g : String, f ≠ g → f.toList ≠ g.toList := by
    intro g hg h
    exact hg (String.toList_inj.mp h)
  exact ⟨hslash, toList_ne "" hne, toList_ne "." hdot, toList_ne ".." hdots⟩

/-- What the grammar accepts as a file fragment carries a safe name. -/
theorem isSafeFileName_of_parse {s f : String}
    (h : Fragment.parse s = some (.rule f) ∨ Fragment.parse s = some (.hook f)) :
    isSafeFileName f = true := by
  unfold Fragment.parse at h
  grind

end Profiles
end Willie
