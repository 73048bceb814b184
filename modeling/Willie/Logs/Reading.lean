import Willie.Common.Json
import Willie.Common.Lines
import Willie.Sessions.System

/-!
# Logs — reading the harness's own session log

The daemon names a session after its first prompt and the usage plugin counts
its tokens, both from the logs the harness keeps of its conversations. A
workspace has one directory of them; which of its files is a session's is
worked out from when each was last modified. Nothing here fails: what cannot
be read is skipped.
-/

namespace Willie
namespace Logs

open Json (Value)
open Sessions (Text isWhitespace trim)

/-! ## Files -/

/-- A file of a log directory, with what a read of its front or of its end
gives. -/
structure LogFile where
  name : String
  /-- When it was last modified, in seconds since the epoch, if that can be
  told. -/
  modified : Option ℕ
  /-- The first 64 KiB, none where the file cannot be read. -/
  head : Option Text
  /-- The last 64 KiB; nothing where it cannot be read. -/
  tail : Text
  deriving DecidableEq

/-- A directory as it is listed; one that cannot be is empty. -/
structure Listing where
  files : List LogFile
  distinct : (files.map LogFile.name).Nodup

/-- What follows the last dot of a name, where something precedes the dot. -/
def extension (name : Text) : Option Text :=
  match name.reverse.span (· ≠ '.') with
  | (ext, '.' :: stem) => if stem = [] then none else some ext.reverse
  | _ => none

def LogFile.isJsonl (f : LogFile) : Bool := extension f.name.toList = some "jsonl".toList

/-- The harness's name for a workspace's directory. -/
def escapeWorkspace (workspace : String) : String :=
  String.ofList (workspace.toList.map fun c => if c = '/' then '-' else c)

/-! ## Titles -/

/-- How many characters a title keeps. -/
def titleLimit : ℕ := 80

/-- Whether a record is a user's turn. -/
def isUserRecord (record : Value) : Bool :=
  (record.get? "type").bind Value.asStr? = some "user" ||
    ((record.get? "message").bind (·.get? "role")).bind Value.asStr? = some "user"

/-- The text of a list of content items: the first that is text. -/
def itemsText (items : List Value) : Option String :=
  ((items.find? fun item => (item.get? "type").bind Value.asStr? = some "text").bind
    (·.get? "text")).bind Value.asStr?

/-- A user record's text: the message's content, as a string or as items, else
the record's own. -/
def extractText (record : Value) : Option String :=
  let content := (record.get? "message").bind (·.get? "content")
  match content with
  | some (.string s) => some s
  | some (.array items) =>
    match itemsText items with
    | some t => some t
    | none => (record.get? "content").bind Value.asStr?
  | _ => (record.get? "content").bind Value.asStr?

/-- White space collapsed; none where nothing is left, cut past the limit. -/
def normalize (text : Text) : Option Text :=
  let words := (text.splitOnP isWhitespace).filter (· ≠ [])
  let collapsed := [' '].intercalate words
  if collapsed = [] then none
  else if titleLimit < collapsed.length then some (collapsed.take titleLimit ++ ['…'])
  else some collapsed

/-- The title a line gives, if it is a user's turn with text. -/
def linePrompt (parse : Text → Option Value) (line : Text) : Option Text :=
  match parse (trim line) with
  | some (.object m) =>
    if isUserRecord (.object m) then
      (extractText (.object m)).bind fun text => normalize text.toList
    else none
  | _ => none

/-- `first_prompt`: the first line that gives a title. -/
def firstPrompt (parse : Text → Option Value) (head : Text) : Option Text :=
  (Lines.lines head).findSome? fun line =>
    if trim line = [] then none else linePrompt parse line

/-- The last of those with the greatest key. -/
def maxByKey {α : Type} (key : α → ℕ) : List α → Option α :=
  List.foldl (fun best x => match best with
    | some b => if key b ≤ key x then some x else some b
    | none => some x) none

/-- The logs of a directory with when they were modified, where it can be
told. -/
def dated (l : Listing) : List (LogFile × ℕ) :=
  l.files.filterMap fun f => if f.isJsonl then f.modified.map fun secs => (f, secs) else none

/-- `pick_log_for`: the newest log that was modified at or after the start. -/
def pickLogFor (l : Listing) (startedAt : ℕ) : Option LogFile :=
  (maxByKey Prod.snd ((dated l).filter (startedAt ≤ ·.2))).map Prod.fst

/-- `first_prompt_for`, in the one directory of the one harness there is. -/
def firstPromptFor (parse : Text → Option Value) (l : Listing) (startedAt : ℕ) : Option Text :=
  ((pickLogFor l startedAt).bind LogFile.head).bind (firstPrompt parse)

/-! ## Usage -/

/-- A session's tokens, and how full its context is. -/
structure SessionReading where
  tokens : ℕ
  contextPct : Option ℕ
  deriving DecidableEq

def SessionReading.none : SessionReading := ⟨0, Option.none⟩

def u64Max : ℕ := 2 ^ 64 - 1

def saturatingAdd (a b : ℕ) : ℕ := min (a + b) u64Max

/-- A number that is an unsigned 64-bit integer. -/
def asU64 : Value → Option ℕ
  | .number text =>
    if text.toList ≠ [] ∧ text.toList.all Char.isDigit then
      let n := text.toList.foldl (fun n c => n * 10 + (c.toNat - 48)) 0
      if n ≤ u64Max then some n else none
    else none
  | _ => none

def contextWindowFor (model : Option String) : Option ℕ :=
  model.bind fun name => if "claude-".toList.isPrefixOf name.toList then some 200000 else none

/-- The usage a line records, and its model. -/
def lineUsage (parse : Text → Option Value) (line : Text) : Option (Value × Option String) :=
  match parse (trim line) with
  | some (.object m) =>
    let record := Value.object m
    match record.get? "isSidechain" with
    | some (.bool true) => none
    | _ =>
      let message := record.get? "message"
      match (record.get? "usage").or (message.bind (·.get? "usage")) with
      | some (.object u) =>
        let model := (message.bind (·.get? "model")).or (record.get? "model")
        some (.object u, model.bind Value.asStr?)
      | _ => none
  | _ => none

/-- `project_session`: what the last line that records usage says. -/
def projectSession (parse : Text → Option Value) (tail : Text) (contextWindow : Option ℕ) :
    SessionReading :=
  let found := (Lines.lines tail).filterMap fun line =>
    if trim line = [] then none else lineUsage parse line
  match found.getLast? with
  | none => .none
  | some (usage, model) =>
    let field (key : String) : ℕ := ((usage.get? key).bind asU64).getD 0
    let context := saturatingAdd (saturatingAdd (field "input_tokens")
      (field "cache_creation_input_tokens")) (field "cache_read_input_tokens")
    let window := ((contextWindowFor model).or contextWindow).filter (0 < ·)
    { tokens := saturatingAdd context (field "output_tokens")
      contextPct := window.map fun window => min (context * 100 / window) 100 }

/-- `list_jsonl`: a log whose modification cannot be dated counts as old. -/
def listJsonl (l : Listing) : List (LogFile × ℕ) :=
  (l.files.filter LogFile.isJsonl).map fun f => (f, f.modified.getD 0)

/-- `pick_log`: the first file whose time falls inside the window. -/
def pickLog (listing : List (LogFile × ℕ)) (window : ℕ × ℕ) : Option LogFile :=
  (listing.find? fun f => window.1 ≤ f.2 ∧ f.2 ≤ window.2).map Prod.fst

/-- `read_session`, in the one directory of the one harness there is. -/
def readSession (parse : Text → Option Value) (l : Listing) (window : ℕ × ℕ) : SessionReading :=
  match pickLog (listJsonl l) window with
  | some f => projectSession parse f.tail none
  | none => .none

/-! ## What a log is picked by -/

section maxByKey

variable {α : Type} {key : α → ℕ} {xs : List α} {x y : α}

theorem maxByKey_snoc : maxByKey key (xs ++ [x]) = some (match maxByKey key xs with
    | some b => if key b ≤ key x then x else b
    | none => x) := by
  unfold maxByKey
  rw [List.foldl_append]
  cases List.foldl _ none xs with
  | none => rfl
  | some b =>
    simp only [List.foldl_cons, List.foldl_nil]
    split <;> rfl

theorem maxByKey_spec (h : maxByKey key xs = some x) : x ∈ xs ∧ ∀ y ∈ xs, key y ≤ key x := by
  induction xs using List.reverseRecOn generalizing x with
  | nil => cases h
  | append_singleton xs z ih =>
    rw [maxByKey_snoc] at h
    replace h := Option.some.inj h
    cases hbest : maxByKey key xs with
    | none =>
      have hnil : xs = [] := by
        rcases List.eq_nil_or_concat xs with rfl | ⟨ys, y, rfl⟩
        · rfl
        · rw [List.concat_eq_append, maxByKey_snoc] at hbest
          cases hbest
      rw [hbest] at h
      subst hnil h
      simp
    | some b =>
      obtain ⟨hb, hmax⟩ := ih hbest
      rw [hbest] at h
      simp only at h
      split at h
      · rename_i hle
        subst h
        refine ⟨by simp, fun y hy => ?_⟩
        rcases List.mem_append.mp hy with hy | hy
        · exact (hmax y hy).trans hle
        · rw [List.mem_singleton.mp hy]
      · rename_i hlt
        subst h
        refine ⟨List.mem_append_left _ hb, fun y hy => ?_⟩
        rcases List.mem_append.mp hy with hy | hy
        · exact hmax y hy
        · rw [List.mem_singleton.mp hy]
          omega

/-- **Among those past a bound** the greatest is the greatest of all, if that
is past it. -/
theorem maxByKey_filter {bound : ℕ} :
    maxByKey key (xs.filter (bound ≤ key ·)) = (maxByKey key xs).filter (bound ≤ key ·) := by
  induction xs using List.reverseRecOn with
  | nil => rfl
  | append_singleton xs z ih =>
    rw [List.filter_append, maxByKey_snoc]
    by_cases hz : bound ≤ key z
    · rw [List.filter_cons_of_pos (by simpa using hz), List.filter_nil, maxByKey_snoc, ih]
      cases hbest : maxByKey key xs with
      | none => simp [Option.filter, hz]
      | some b =>
        by_cases hb : bound ≤ key b
        · simp only [Option.filter, hb, decide_true, if_true]
          split <;> simp [hb, hz]
        · have hle : key b ≤ key z := by omega
          simp [Option.filter, hb, hz, hle]
    · rw [List.filter_cons_of_neg (by simpa using hz), List.filter_nil, List.append_nil, ih]
      cases hbest : maxByKey key xs with
      | none => simp [Option.filter, hz]
      | some b =>
        by_cases hb : bound ≤ key b
        · have hlt : ¬ key b ≤ key z := by omega
          simp [Option.filter, hb, hlt]
        · by_cases hle : key b ≤ key z <;> simp [Option.filter, hb, hz, hle]

end maxByKey

variable {l : Listing} {startedAt : ℕ} {f g : LogFile} {secs : ℕ} {window : ℕ × ℕ}

theorem mem_dated :
    (f, secs) ∈ dated l ↔ f ∈ l.files ∧ f.isJsonl = true ∧ f.modified = some secs := by
  unfold dated
  rw [List.mem_filterMap]
  constructor
  · rintro ⟨f', hf', h⟩
    split at h
    · obtain ⟨secs', hsecs, heq⟩ := Option.map_eq_some_iff.mp h
      obtain ⟨rfl, rfl⟩ := Prod.mk.inj heq
      exact ⟨hf', ‹_›, hsecs⟩
    · cases h
  · rintro ⟨hf, hjsonl, hsecs⟩
    exact ⟨f, hf, by simp [hjsonl, hsecs]⟩

/-- The newest log of a directory. -/
def newest (l : Listing) : Option (LogFile × ℕ) := maxByKey Prod.snd (dated l)

/-- **A session's log is the newest of all**, if that is not from before its
start. -/
theorem pickLogFor_eq :
    pickLogFor l startedAt = ((newest l).filter (startedAt ≤ ·.2)).map Prod.fst := by
  rw [pickLogFor, maxByKey_filter]
  rfl

/-- A log picked by its window is a log modified inside it. -/
theorem pickLog_spec (h : pickLog (listJsonl l) window = some f) :
    f ∈ l.files ∧ window.1 ≤ f.modified.getD 0 ∧ f.modified.getD 0 ≤ window.2 := by
  obtain ⟨⟨g, secs⟩, hfind, rfl⟩ := Option.map_eq_some_iff.mp h
  have hmem := List.mem_of_find?_eq_some hfind
  obtain ⟨g', hg', heq⟩ := List.mem_map.mp hmem
  obtain ⟨rfl, rfl⟩ := Prod.mk.inj heq
  have hin := List.find?_some hfind
  exact ⟨(List.mem_filter.mp hg').1, by simpa using hin⟩

end Logs
end Willie
