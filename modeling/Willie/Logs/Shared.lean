import Willie.Daemon.State
import Willie.Logs.Reading

/-!
# Logs — whose a log is

Sessions start and end, the harness writes its logs, and at any moment the
daemon looks for the titles that are missing or the usage plugin is asked for
its figures. Each takes the sessions as they are when it begins, and reads
one directory for each of them in turn, as it is by then. No file is claimed
by a session: it is matched by workspace and time alone.
-/

namespace Willie
namespace Logs

open Json (Value)
open Projects (ProjectId)
open Sessions (Text Session SessionId SessionKind SessionState)

/-- A number of seconds in decimal. -/
def parseSecs (text : String) : Option ℕ :=
  let digits := (text.toList.dropPrefix? ['+']).getD text.toList
  if digits ≠ [] ∧ digits.all Char.isDigit then
    let n := digits.foldl (fun n c => n * 10 + (c.toNat - 48)) 0
    if n ≤ u64Max then some n else none
  else none

/-- An untitled session, as a pass takes it. -/
structure Candidate where
  id : SessionId
  workspace : String
  startedAt : ℕ
  finished : Bool
  deriving DecidableEq

def candidate (s : Session) : Candidate where
  id := s.id
  workspace := s.workspace
  startedAt := ((s.startedAt.or (some s.createdAt)).bind parseSecs).getD 0
  finished := s.state.isTerminal

/-- A session that a pass reads a log for. -/
def wantsTitle (givenUp : List SessionId) (s : Session) : Bool :=
  s.kind = .agent && s.title.isNone && (s.state.isLive || s.state.isTerminal) && s.id ∉ givenUp

/-- A session as the usage plugin is given it. -/
structure Target where
  id : SessionId
  projectId : ProjectId
  workspace : String
  /-- From its creation to its end, if it has one. -/
  window : ℕ × Option ℕ
  deriving DecidableEq

def target (s : Session) : Target where
  id := s.id
  projectId := s.projectId
  workspace := s.workspace
  window := ((parseSecs s.createdAt).getD 0, s.finishedAt.bind parseSecs)

/-- Stands in for a session that is not there. -/
def placeholder (id : SessionId) : Session :=
  ⟨id, 0, "", "", .agent, .running, "", none, none, none, 0, none, none, none, {}⟩

/-- A log that gave a session its title. -/
structure Titled where
  session : Candidate
  /-- When the session had ended, if it had by then. -/
  ended : Option ℕ
  listing : Listing
  file : LogFile

/-- A log whose tokens were counted as a session's, in its window. -/
structure Counted where
  session : Target
  window : ℕ × ℕ
  listing : Listing
  file : LogFile
  reading : SessionReading

/-- A request for the figures: when it was made, who is still to be read, and
each project's sum so far. -/
structure Request where
  now : ℕ
  targets : List Target
  totals : SortedMap ProjectId ℕ

/-- The daemon's sessions, the log directories, and what is under way. What
was titled and counted from which file is kept. -/
structure World where
  state : Daemon.State
  /-- The directory of each escaped workspace. -/
  logs : String → Listing
  /-- The finished sessions that are given up on. -/
  untitled : List SessionId
  passes : List (List Candidate)
  requests : List Request
  titled : List Titled
  counted : List Counted

/-- A daemon that has looked for nothing yet. -/
def World.new (state : Daemon.State) (logs : String → Listing) : World :=
  ⟨state, logs, [], [], [], [], []⟩

/-- The directory of a workspace. -/
def World.logsOf (w : World) (workspace : String) : Listing := w.logs (escapeWorkspace workspace)

/-- One candidate's turn in a pass. -/
def World.title (parse : Text → Option Value) (w : World) (c : Candidate) : World :=
  let listing := w.logsOf c.workspace
  match firstPromptFor parse listing c.startedAt with
  | none => if c.finished then { w with untitled := c.id :: w.untitled } else w
  | some title =>
    let session := (w.state.sessions.row c.id).getD (placeholder c.id)
    { w with
      state := (w.state.upsertSession { session with title := some (String.ofList title) }).1
      titled := w.titled ++ (pickLogFor listing c.startedAt).toList.map fun file =>
        ⟨c, session.finishedAt.bind parseSecs, listing, file⟩ }

/-- One session's turn in a request for the figures. -/
def World.count (parse : Text → Option Value) (w : World) (now : ℕ) (t : Target) : World :=
  let listing := w.logsOf t.workspace
  let window := (t.window.1, t.window.2.getD now)
  { w with
    counted := w.counted ++ (pickLog (listJsonl listing) window).toList.map fun file =>
      ⟨t, window, listing, file, readSession parse listing window⟩ }

/-- A project's sum with another session's tokens. -/
def addTokens (totals : SortedMap ProjectId ℕ) (p : ProjectId) (tokens : ℕ) :
    SortedMap ProjectId ℕ :=
  totals.insert p (saturatingAdd ((totals.get p).getD 0) tokens)

inductive Action where
  /-- Another thread changes the daemon's state. -/
  | change (m : Daemon.Mutation)
  /-- The harness, or anybody, changes a log directory. -/
  | write (dir : String) (listing : Listing)
  /-- `title_untitled_agent_sessions` begins. -/
  | lookForTitles
  | titleNext (pass : ℕ)
  /-- `usage.snapshot` is asked for. -/
  | askUsage (now : ℕ)
  | countNext (request : ℕ)

/-- **One step.** Any number of passes and requests are under way. -/
def World.step (parse : Text → Option Value) (w : World) : Action → Option World
  | .change m => some { w with state := (m.apply w.state).1 }
  | .write dir listing => some { w with logs := Function.update w.logs dir listing }
  | .lookForTitles =>
    let found := w.state.sessions.values.filter (wantsTitle w.untitled)
    some { w with passes := w.passes ++ [found.map candidate] }
  | .titleNext pass =>
    match w.passes[pass]? with
    | some (c :: rest) => some ({ w with passes := w.passes.set pass rest }.title parse c)
    | _ => none
  | .askUsage now =>
    let agents := w.state.sessions.values.filter (·.kind = .agent)
    some { w with requests := w.requests ++ [⟨now, agents.map target, .empty⟩] }
  | .countNext request =>
    match w.requests[request]? with
    | some ⟨now, t :: rest, totals⟩ =>
      let tokens := (readSession parse (w.logsOf t.workspace)
        (t.window.1, t.window.2.getD now)).tokens
      some ({ w with
        requests := w.requests.set request ⟨now, rest, addTokens totals t.projectId tokens⟩
        }.count parse now t)
    | _ => none

/-! ## What a log was picked by -/

open Runs

variable {parse : Text → Option Value} {w w' : World} {as : List Action} {c : Candidate}
  {t : Target} {now : ℕ}

/-- A session's title is from the newest log of its directory, modified since
the session started. -/
structure Titled.Sound (d : Titled) : Prop where
  newest : ∃ secs, newest d.listing = some (d.file, secs) ∧ d.session.startedAt ≤ secs

/-- A session's tokens are from a log of its directory, modified inside its
window. -/
structure Counted.Sound (d : Counted) : Prop where
  listed : d.file ∈ d.listing.files
  start : d.window.1 ≤ d.file.modified.getD 0
  finish : d.file.modified.getD 0 ≤ d.window.2

theorem titled_title (h : ∀ d ∈ w.titled, d.Sound) :
    ∀ d ∈ (w.title parse c).titled, d.Sound := by
  unfold World.title
  dsimp only
  split
  · split <;> exact h
  · intro d hd
    rcases List.mem_append.mp hd with hd | hd
    · exact h d hd
    · obtain ⟨file, hfile, rfl⟩ := List.mem_map.mp hd
      rw [Option.mem_toList, pickLogFor_eq] at hfile
      obtain ⟨⟨f, secs⟩, hnewest, rfl⟩ := Option.map_eq_some_iff.mp hfile
      obtain ⟨hnewest, hstart⟩ := Option.filter_eq_some_iff.mp hnewest
      exact ⟨secs, hnewest, by simpa using hstart⟩

theorem counted_count (h : ∀ d ∈ w.counted, d.Sound) :
    ∀ d ∈ (w.count parse now t).counted, d.Sound := by
  intro d hd
  rcases List.mem_append.mp hd with hd | hd
  · exact h d hd
  · obtain ⟨file, hfile, rfl⟩ := List.mem_map.mp hd
    obtain ⟨hmem, hstart, hfinish⟩ := pickLog_spec (Option.mem_toList.mp hfile)
    exact ⟨hmem, hstart, hfinish⟩

theorem step_sound {a : Action} (ht : ∀ d ∈ w.titled, d.Sound) (hc : ∀ d ∈ w.counted, d.Sound)
    (hstep : w.step parse a = some w') :
    (∀ d ∈ w'.titled, d.Sound) ∧ ∀ d ∈ w'.counted, d.Sound := by
  cases a with
  | change | write | lookForTitles | askUsage =>
    obtain rfl := Option.some.inj hstep
    exact ⟨ht, hc⟩
  | titleNext pass =>
    simp only [World.step] at hstep
    split at hstep
    · rename_i c rest _
      obtain rfl := Option.some.inj hstep
      refine ⟨titled_title ht, ?_⟩
      unfold World.title
      dsimp only
      split
      · split <;> exact hc
      · exact hc
    · cases hstep
  | countNext request =>
    simp only [World.step] at hstep
    split at hstep
    · obtain rfl := Option.some.inj hstep
      exact ⟨ht, counted_count hc⟩
    · cases hstep

theorem run_sound {state : Daemon.State} {logs : String → Listing}
    (hrun : exec (World.step parse) (World.new state logs) as = some w) :
    (∀ d ∈ w.titled, d.Sound) ∧ ∀ d ∈ w.counted, d.Sound :=
  exec_keeps (I := fun w => (∀ d ∈ w.titled, d.Sound) ∧ ∀ d ∈ w.counted, d.Sound) hrun
    ⟨nofun, nofun⟩ fun _ _ _ ⟨ht, hc⟩ hstep => step_sound ht hc hstep

/-- The session was live at the time, to the second. -/
def Titled.LiveAt (d : Titled) (secs : ℕ) : Prop :=
  d.session.startedAt ≤ secs ∧ ∀ ended ∈ d.ended, secs ≤ ended

/-- The log was not modified after the session ended. -/
def Titled.InTime (d : Titled) : Prop :=
  ∀ ended ∈ d.ended, ∀ secs ∈ d.file.modified, secs ≤ ended

/-- The newest log of a directory was modified when it says. -/
theorem modified_of_newest {l : Listing} {f : LogFile} {secs : ℕ} (h : newest l = some (f, secs)) :
    f.modified = some secs :=
  (mem_dated.mp (maxByKey_spec h).1).2.2

/-- Such a log was modified while the session was live. -/
theorem Titled.Sound.live {d : Titled} (h : d.Sound) (hd : d.InTime) :
    ∃ secs, d.file.modified = some secs ∧ d.LiveAt secs := by
  obtain ⟨secs, hnewest, hstart⟩ := h.newest
  have hmodified := modified_of_newest hnewest
  exact ⟨secs, hmodified, hstart, fun ended he => hd ended he secs hmodified⟩

/-- **A log is shared by sessions live at once**, or after it was written
again. It gives a session its title only as the newest of its directory,
modified since the session started, and a directory that does not change
titles every session from one log. Unmodified in between it titles two
sessions, neither of which had ended before it was modified, only if both
were live then; and its tokens, counted as a session's only if it was modified
in the session's window, are two sessions' only if the windows overlap. -/
theorem shared_by_time {state : Daemon.State} {logs : String → Listing}
    (hrun : exec (World.step parse) (World.new state logs) as = some w) :
    (∀ d ∈ w.titled, ∃ secs, newest d.listing = some (d.file, secs) ∧
      d.session.startedAt ≤ secs) ∧
    (∀ d ∈ w.titled, ∀ e ∈ w.titled, d.file.modified = e.file.modified → d.InTime → e.InTime →
      ∃ secs, d.file.modified = some secs ∧ d.LiveAt secs ∧ e.LiveAt secs) ∧
    (∀ d ∈ w.titled, ∀ e ∈ w.titled, d.listing = e.listing → d.file = e.file) ∧
    (∀ d ∈ w.counted, d.file ∈ d.listing.files ∧ d.window.1 ≤ d.file.modified.getD 0 ∧
      d.file.modified.getD 0 ≤ d.window.2) ∧
    ∀ d ∈ w.counted, ∀ e ∈ w.counted, d.file.modified = e.file.modified →
      d.window.1 ≤ e.window.2 ∧ e.window.1 ≤ d.window.2 := by
  obtain ⟨ht, hc⟩ := run_sound hrun
  refine ⟨fun d hd => (ht d hd).newest, fun d hd e he hsame hin hin' => ?_,
    fun d hd e he hlisting => ?_,
    fun d hd => ⟨(hc d hd).listed, (hc d hd).start, (hc d hd).finish⟩,
    fun d hd e he hsame => ?_⟩
  · obtain ⟨secs, hd, hlive⟩ := (ht d hd).live hin
    obtain ⟨secs', he, hlive'⟩ := (ht e he).live hin'
    obtain rfl : secs = secs' := Option.some.inj (hd.symm.trans (hsame.trans he))
    exact ⟨secs, hd, hlive, hlive'⟩
  · obtain ⟨secs, hd, -⟩ := (ht d hd).newest
    obtain ⟨secs', he, -⟩ := (ht e he).newest
    rw [hlisting] at hd
    exact congrArg Prod.fst (Option.some.inj (hd.symm.trans he))
  · have hd := hc d hd
    have he := hc e he
    exact ⟨hd.start.trans (hsame ▸ he.finish), he.start.trans (hsame ▸ hd.finish)⟩

/-! ## Two sessions, one log -/

/-- A session that runs. -/
def runningSince (id : SessionId) (secs : String) : Session :=
  { placeholder id with
    projectId := 1, harness := "claude-code", workspace := "/home/willie/projects/x",
    createdAt := secs, startedAt := some secs }

/-- The session once it has ended. -/
def endedAt (s : Session) (secs : String) : Session :=
  { s with state := .exited (some 0) none, finishedAt := some secs }

/-- One log, with a prompt and a count of tokens. -/
def oneLog (modified : ℕ) : Listing where
  files := [⟨"c.jsonl", some modified,
    some "\x7b\"type\":\"user\",\"message\":\x7b\"content\":\"fix it\"\x7d\x7d\n".toList,
    "\x7b\"usage\":\x7b\"input_tokens\":5\x7d\x7d\n".toList⟩]
  distinct := List.nodup_singleton _

/-- A parser, at the lines of the log. -/
def sampleParse (line : Text) : Option Value :=
  if line = "\x7b\"type\":\"user\",\"message\":\x7b\"content\":\"fix it\"\x7d\x7d".toList then
    some (.object [("type", .string "user"), ("message", .object [("content", .string "fix it")])])
  else if line = "\x7b\"usage\":\x7b\"input_tokens\":5\x7d\x7d".toList then
    some (.object [("usage", .object [("input_tokens", .number "5")])])
  else none

/-- No session yet, and the one log in every directory. -/
def beforeBoth : World := World.new ⟨.empty, .empty, .empty, 0⟩ fun _ => oneLog 200

/-- Two sessions run in one workspace; a look for titles and one for tokens. -/
def liveTogether : List Action :=
  [.change (.upsertSession (runningSince 1 "100")), .change (.upsertSession (runningSince 2 "150")),
    .lookForTitles, .titleNext 0, .titleNext 0, .askUsage 300, .countNext 0, .countNext 0]

/-- A session ends, and is titled and counted; another continues its
conversation, in the same log, and is too. -/
def oneContinued : List Action :=
  let resumed := { runningSince 2 "300" with resumedFrom := some 1 }
  [.change (.upsertSession (endedAt (runningSince 1 "100") "250")), .lookForTitles, .titleNext 0,
    .askUsage 260, .countNext 0, .change (.upsertSession resumed),
    .write "-home-willie-projects-x" (oneLog 350), .lookForTitles, .titleNext 1, .askUsage 400,
    .countNext 1, .countNext 1]

/-- Neither had ended when the log was modified: both were live then. -/
theorem shared_by_time_two : ∃ w,
    exec (World.step sampleParse) beforeBoth liveTogether = some w ∧
    w.titled.map (fun d => (d.session.id, d.ended)) = [(1, none), (2, none)] ∧
    ∀ d ∈ w.titled, ∀ e ∈ w.titled, d.file.modified = e.file.modified → d.InTime → e.InTime →
      ∃ secs, d.file.modified = some secs ∧ d.LiveAt secs ∧ e.LiveAt secs := by
  have hseen : (exec (World.step sampleParse) beforeBoth liveTogether).map
      (fun w => w.titled.map fun d => (d.session.id, d.ended)) = some [(1, none), (2, none)] := by
    decide
  obtain ⟨w, hrun, hids⟩ := Option.map_eq_some_iff.mp hseen
  exact ⟨w, hrun, hids, (shared_by_time hrun).2.1⟩

/-- What a run leaves: the sessions titled from each log, and the tokens
counted for each. -/
def shares (as : List Action) : Option (List (SessionId × String × Option String) ×
    List (SessionId × String × ℕ)) :=
  (exec (World.step sampleParse) beforeBoth as).map fun w =>
    (w.titled.map fun d =>
      (d.session.id, d.file.name, (w.state.sessions.row d.session.id).bind (·.title)),
      w.counted.map fun d => (d.session.id, d.file.name, d.reading.tokens))

/-- **One log, two sessions**: two that are live at once are both named after
it, and its tokens are counted for both; so it is with one that continues
another's conversation. -/
theorem one_log_two_sessions :
    shares liveTogether = some ([(1, "c.jsonl", some "fix it"), (2, "c.jsonl", some "fix it")],
      [(1, "c.jsonl", 5), (2, "c.jsonl", 5)]) ∧
    shares oneContinued = some ([(1, "c.jsonl", some "fix it"), (2, "c.jsonl", some "fix it")],
      [(1, "c.jsonl", 5), (2, "c.jsonl", 5)]) := by
  constructor <;> decide

end Logs
end Willie
