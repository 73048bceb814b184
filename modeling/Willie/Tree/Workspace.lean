import Mathlib.Data.List.Lex
import Willie.Common.SortedMap
import Willie.Git.Porcelain
import Willie.Sessions.Resume

/-!
# Tree — one level of a workspace

`project.tree` lists a directory of the workspace: it resolves the path that
was asked for, reads git's status as a map from paths to flags, and looks each
entry up under the path it was asked for with the entry's name behind it.
-/

namespace Willie
namespace Tree

open Lines (lines)
open Paths (Path isAbsolute components join)
open Git (Name)
open Projects (GitError OpError ProjectId ProjectMap)
open Sessions (Text notFoundErr splitOnce trim)

/-- An entry of a directory, as it is read. -/
structure DirEntry where
  name : Name
  /-- Whether it is a directory, where its type can be read. -/
  isDir : Option Bool
  deriving DecidableEq

/-- How a command ended. -/
structure Output where
  success : Bool
  stdout : List UInt8
  stderr : List UInt8

/-- What the machine answers. A resolved path is the names from the root; a
directory's entries are read one by one, and one may fail. -/
structure Machine where
  canonicalize : Path → Except String (List Name)
  readDir : List Name → Option (List (Option DirEntry))
  git : Path → List String → Except String Output
  toLowercase : Text → Text

/-- `to_string_lossy`. -/
def lossy (name : Name) : Text := Utf8.decodeLossy name.bytes

/-! ## Paths within the workspace -/

inductive WsError where
  | outside
  | notText
  | io (error : String)
  deriving DecidableEq, Repr

def WsError.code : WsError → String
  | .outside => "path_outside_workspace"
  | .notText => "file_not_text"
  | .io _ => "workspace_read_failed"

def WsError.message : WsError → String
  | .outside => "the path is outside the project's workspace"
  | .notText => "the file is not text"
  | .io error => error

def WsError.remediation : WsError → String
  | .outside => "name a path inside the project's workspace"
  | .notText => "this file is binary; open it in VS Code instead"
  | .io _ => "check the workspace and try again"

def wsError (e : WsError) : OpError := ⟨e.code, e.message, e.remediation⟩

def resolveWithin (m : Machine) (workspace rel : Path) : Except WsError (List Name) :=
  if isAbsolute rel then .error .outside
  else if (components rel).any (· = .parentDir) then .error .outside
  else
    match m.canonicalize workspace with
    | .error e => .error (.io e)
    | .ok canonicalWorkspace =>
      match m.canonicalize (join workspace rel) with
      | .error e => .error (.io e)
      | .ok canonicalTarget =>
        if canonicalWorkspace.isPrefixOf canonicalTarget then .ok canonicalTarget
        else .error .outside

/-! ## The status -/

/-- The last lines of what a command complained of. -/
def tail (text : Text) : Text :=
  ['\n'].intercalate ((lines text).reverse.take 4).reverse

/-- `git::run`. -/
def run (m : Machine) (repo : Path) (args : List String) : Except GitError Text :=
  match m.git repo args with
  | .error e => .error ⟨"git_failed", e⟩
  | .ok output =>
    if output.success then .ok (Utf8.decodeLossy output.stdout)
    else .error ⟨"git_failed", String.ofList (tail (Utf8.decodeLossy output.stderr))⟩

def currentBranch (m : Machine) (repo : Path) : Except GitError Text :=
  match run m repo ["symbolic-ref", "--short", "HEAD"] with
  | .ok out => .ok (trim out)
  | .error _ => .error ⟨"source_detached_head",
      "the checkout is on a detached HEAD; check out a branch first"⟩

/-- A text cut after so many bytes, if a character ends there. -/
def splitAtByte : ℕ → Text → Option (Text × Text)
  | 0, text => some ([], text)
  | _ + 1, [] => none
  | n + 1, c :: text =>
    if c.utf8Size ≤ n + 1 then
      (splitAtByte (n + 1 - c.utf8Size) text).map fun (a, b) => (c :: a, b)
    else none

/-- The flags of a workspace, by path. -/
abbrev Flags := SortedMap Text Text

/-- What stands behind the first ` -> `, if there is one. -/
def newPath (rest : Text) : Text := ((splitOnce " -> ".toList rest).map (·.2)).getD rest

/-- What a line of the status says: a path and its flag. -/
def parseLine (line : Text) : Option (Text × Text) :=
  match splitAtByte 2 line, splitAtByte 3 line with
  | some (xy, _), some (_, rest) =>
    if xy = "??".toList then some (rest, ['?'])
    else if xy.head? = some 'R' ∨ xy.getLast? = some 'R' then some (newPath rest, ['R'])
    else some (rest, [(xy.find? (· ≠ ' ')).getD 'M'])
  | _, _ => none

def parsePorcelain (v1Output : Text) : Flags :=
  ((lines v1Output).filterMap parseLine).foldl (fun flags e => flags.insert e.1 e.2) .empty

/-! ## The listing -/

inductive EntryKind where
  | dir
  | file
  deriving DecidableEq, Repr

structure TreeEntry where
  name : Text
  kind : EntryKind
  git : Option Text
  deriving DecidableEq, Repr

/-- An entry's path under the one that was asked for. -/
def relOf (relPrefix : Text) (name : Name) : Text :=
  if relPrefix = [] then lossy name else relPrefix ++ '/' :: lossy name

/-- Does an entry show? -/
def DirEntry.listed (e : DirEntry) : Bool := lossy e.name ≠ ".git".toList && e.isDir.isSome

def DirEntry.kind (e : DirEntry) : EntryKind := if e.isDir = some true then .dir else .file

/-- The flag of an entry: its own, or one for everything beneath it. -/
def gitOf (flags : Flags) (relPrefix : Text) (e : DirEntry) : Option Text :=
  match e.kind with
  | .dir =>
    if flags.entries.any fun f => (relOf relPrefix e.name ++ ['/']).isPrefixOf f.1 then some ['M']
    else none
  | .file => flags.get (relOf relPrefix e.name)

/-- The row of an entry that bears a flag. -/
def DirEntry.row (e : DirEntry) (git : Option Text) : TreeEntry := ⟨lossy e.name, e.kind, git⟩

/-- Rows of one kind, by their names in lower case. -/
def sortByKey (m : Machine) (rows : List TreeEntry) : List TreeEntry :=
  rows.mergeSort fun a b => m.toLowercase a.name ≤ m.toLowercase b.name

def listDir (m : Machine) (dir : List Name) (flags : Flags) (relPrefix : Text) : List TreeEntry :=
  match m.readDir dir with
  | none => []
  | some read =>
    let rows := ((read.filterMap id).filter (·.listed)).map fun e => e.row (gitOf flags relPrefix e)
    sortByKey m (rows.filter (·.kind = .dir)) ++ sortByKey m (rows.filter (·.kind = .file))

structure TreeResult where
  entries : List TreeEntry
  branch : Option Text

/-- `project.tree`; `text` is how the id is written. -/
def projectTree (m : Machine) (projects : ProjectMap) (id : ProjectId) (text : String)
    (path : Option Path) : Except OpError TreeResult :=
  match projects.lookup id with
  | none => .error (notFoundErr text)
  | some project =>
    let workspace := project.workspace
    let rel := path.getD ""
    match resolveWithin m workspace rel with
    | .error e => .error (wsError e)
    | .ok dir =>
      let flags := match run m workspace ["status", "--porcelain=v1", "--untracked-files=all"] with
        | .ok out => parsePorcelain out
        | .error _ => .empty
      let branch := (currentBranch m workspace).toOption
      .ok ⟨listDir m dir flags rel.toList, branch⟩

end Tree
end Willie
