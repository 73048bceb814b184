import Willie.Common.Lines
import Willie.Sessions.Model

/-!
# Sessions — the event log and its two writers

`events.jsonl` is opened for appending by the supervisor and, for a rename,
by the daemon. The supervisor writes an event's line and its line feed apart;
the daemon writes both at once. What the file holds is the writes in the
order they reached it, and reading it skips the lines that are no event.
-/

namespace Willie
namespace Sessions

open Lines

/-- The JSON library: how it writes an event and what it reads in a line. -/
structure SerdeJson where
  toString : SessionEvent → Text
  fromStr : Text → Option SessionEvent

/-- **What the log relies on** of the events that are written: the text of an
event is on one line and reads back as the event, and what is empty or holds
two values is refused. -/
structure SerdeJson.Lawful (json : SerdeJson) (evs : List SessionEvent) : Prop where
  one_line : ∀ ev ∈ evs, '\n' ∉ json.toString ev
  no_return : ∀ ev ∈ evs, (json.toString ev).getLast? ≠ some '\r'
  round_trip : ∀ ev ∈ evs, json.fromStr (json.toString ev) = some ev
  eof : json.fromStr [] = none
  trailing : ∀ ev ∈ evs, ∀ ev' ∈ evs, json.fromStr (json.toString ev ++ json.toString ev') = none

/-! ## The writes -/

/-- One write to the file: the supervisor's line, its line feed, or the
daemon's line with its line feed. -/
inductive Write where
  | line (ev : SessionEvent)
  | newline
  | record (ev : SessionEvent)
  deriving DecidableEq, Repr

/-- What the supervisor writes for an event: `writeln!` on a file, a write
for each piece. -/
def EventLog.append (ev : SessionEvent) : List Write := [.line ev, .newline]

/-- What the daemon writes for an event: one `write_all`. -/
def appendEvent (ev : SessionEvent) : List Write := [.record ev]

def Write.text (json : SerdeJson) : Write → Text
  | .line ev => json.toString ev
  | .newline => ['\n']
  | .record ev => json.toString ev ++ ['\n']

/-- What the file holds after the writes. -/
def contents (json : SerdeJson) (ws : List Write) : Text := ws.flatMap (Write.text json)

/-- Every parseable line of the file, in order; nothing of a file that cannot
be read. -/
def readEvents (json : SerdeJson) : Option Text → List SessionEvent
  | none => []
  | some text => (lines text).filterMap json.fromStr

/-- The writes of a supervisor that appends `es`, one append at a time, and of
a daemon that appends `ds`, in some order. The supervisor may have been killed
between the two writes of its last append. -/
def Interleaving (es ds : List SessionEvent) (ws : List Write) : Prop :=
  ∃ sup, (sup = es.flatMap EventLog.append ∨ sup = (es.flatMap EventLog.append).dropLast) ∧
    Woven sup (ds.flatMap appendEvent) ws

/-- A daemon's write that lands on a supervisor's unfinished line. -/
def Write.Splits : Write → Write → Prop
  | .line _, .record _ => True
  | _, _ => False

instance : DecidableRel Write.Splits
  | .line _, .record _ => .isTrue trivial
  | .line _, .line _ | .line _, .newline | .newline, _ | .record _, _ => .isFalse id

/-- No write of the daemon comes between the two writes of a supervisor's
append. -/
def Unsplit (ws : List Write) : Prop := ws.IsChain fun w w' => ¬ w.Splits w'

instance (ws : List Write) : Decidable (Unsplit ws) :=
  inferInstanceAs (Decidable (ws.IsChain fun w w' => ¬ w.Splits w'))

/-! ## What a supervisor's writes look like -/

/-- The events whose lines the supervisor wrote. -/
def Write.lined : Write → Option SessionEvent
  | .line ev => some ev
  | _ => none

/-- The events the daemon wrote. -/
def Write.recorded : Write → Option SessionEvent
  | .record ev => some ev
  | _ => none

/-- The supervisor's lines and line feeds take turns; `held` tells that a line
waits for its line feed. -/
def Alternates : Bool → List Write → Prop
  | _, [] => True
  | held, .line _ :: ws => held = false ∧ Alternates true ws
  | held, .newline :: ws => held = true ∧ Alternates false ws
  | held, .record _ :: ws => Alternates held ws

variable {json : SerdeJson} {es ds : List SessionEvent} {ws sup rec : List Write} {held : Bool}
variable {ev : SessionEvent}

theorem alternates_append : Alternates false (es.flatMap EventLog.append) := by
  induction es with
  | nil => trivial
  | cons e es ih => exact ⟨rfl, rfl, ih⟩

theorem Alternates.dropLast (h : Alternates held ws) : Alternates held ws.dropLast := by
  induction ws generalizing held with
  | nil => trivial
  | cons w ws ih =>
    cases ws with
    | nil => trivial
    | cons w' ws =>
      rw [List.dropLast_cons_cons]
      cases w with
      | line ev => exact ⟨h.1, ih h.2⟩
      | newline => exact ⟨h.1, ih h.2⟩
      | record ev =>
        have hrest : Alternates held (w' :: ws) := h
        exact ih hrest

/-- The daemon's writes between them do not matter. -/
theorem Alternates.woven (h : Alternates held sup) (hrec : ∀ w ∈ rec, ∃ ev, w = .record ev)
    (hw : Woven sup rec ws) : Alternates held ws := by
  induction hw generalizing held with
  | nil => trivial
  | @left w _ _ _ _ ih =>
    cases w with
    | line ev => exact ⟨h.1, ih h.2 hrec⟩
    | newline => exact ⟨h.1, ih h.2 hrec⟩
    | record ev =>
      have hsup : Alternates held _ := h
      exact ih hsup hrec
  | @right w _ _ _ _ ih =>
    obtain ⟨hw, hrest⟩ := List.forall_mem_cons.mp hrec
    obtain ⟨ev, rfl⟩ := hw
    exact ih h hrest

theorem lined_append : (es.flatMap EventLog.append).filterMap Write.lined = es := by
  induction es with
  | nil => rfl
  | cons e es ih =>
    have hone : (EventLog.append e).filterMap Write.lined = [e] := rfl
    rw [List.flatMap_cons, List.filterMap_append, hone, ih, List.singleton_append]

theorem lined_dropLast : (es.flatMap EventLog.append).dropLast.filterMap Write.lined = es := by
  induction es using List.reverseRecOn with
  | nil => rfl
  | append_singleton es e _ =>
    have hdrop : ((es ++ [e]).flatMap EventLog.append).dropLast =
        es.flatMap EventLog.append ++ [.line e] := by
      rw [List.flatMap_append, List.flatMap_singleton, List.dropLast_append_of_ne_nil]
      · rfl
      · exact List.cons_ne_nil _ _
    have hone : [Write.line e].filterMap Write.lined = [e] := rfl
    rw [hdrop, List.filterMap_append, lined_append, hone]

/-- **What the two writers appended**, read off their writes in the order they
reached the file. -/
theorem Interleaving.writes (h : Interleaving es ds ws) :
    Alternates false ws ∧ ws.filterMap Write.lined = es ∧ ws.filterMap Write.recorded = ds := by
  obtain ⟨sup, hsup, hw⟩ := h
  have hrec : ∀ w ∈ ds.flatMap appendEvent, ∃ ev, w = .record ev := by
    intro w hw
    obtain ⟨ev, -, hev⟩ := List.mem_flatMap.mp hw
    exact ⟨ev, List.mem_singleton.mp hev⟩
  have hlined : sup.filterMap Write.lined = es := by
    rcases hsup with rfl | rfl
    · exact lined_append
    · exact lined_dropLast
  have halt : Alternates false sup := by
    rcases hsup with rfl | rfl
    · exact alternates_append
    · exact alternates_append.dropLast
  have hnone : (ds.flatMap appendEvent).filterMap Write.lined = [] := by
    simp [List.filterMap_flatMap, appendEvent, Write.lined]
  have hnone' : sup.filterMap Write.recorded = [] := by
    have hall : ∀ w ∈ es.flatMap EventLog.append, w.recorded = none := by
      intro w hw
      obtain ⟨ev, -, hev⟩ := List.mem_flatMap.mp hw
      rcases List.mem_pair.mp hev with rfl | rfl
      · rfl
      · rfl
    refine List.filterMap_eq_nil_iff.mpr fun w hw => hall w ?_
    rcases hsup with rfl | rfl
    · exact hw
    · exact List.dropLast_subset _ hw
  have hds : (ds.flatMap appendEvent).filterMap Write.recorded = ds := by
    simp [List.filterMap_flatMap, appendEvent, Write.recorded]
  refine ⟨halt.woven hrec hw, ?_, ?_⟩
  · -- each writer keeps its order, and the other writes nothing of the kind
    have h := hw.filterMap Write.lined
    rw [hnone, hlined] at h
    exact woven_nil_right h
  · have h := hw.filterMap Write.recorded
    rw [hds, hnone'] at h
    exact woven_nil_left h

/-! ## Which events survive -/

/-- What a line that several events were written to reads as: two texts on
one line are none. -/
def onLine : List SessionEvent → List SessionEvent
  | [ev] => [ev]
  | _ => []

/-- The events that are read back: `cur` are those on the line that is being
written. -/
def survivors : List SessionEvent → List Write → List SessionEvent
  | cur, [] => onLine cur
  | cur, .line ev :: ws => survivors (cur ++ [ev]) ws
  | cur, .newline :: ws => onLine cur ++ survivors [] ws
  | cur, .record ev :: ws => onLine (cur ++ [ev]) ++ survivors [] ws

/-- Only a line can be split. -/
theorem unsplit_cons {w : Write} (h : ∀ ev, w ≠ .line ev) : Unsplit (w :: ws) ↔ Unsplit ws := by
  have hnot : ∀ w', ¬ w.Splits w' := by
    intro w'
    cases w with
    | line ev => exact absurd rfl (h ev)
    | newline => exact id
    | record ev => exact id
  cases ws with
  | nil => exact iff_of_true (List.isChain_singleton _) List.isChain_nil
  | cons w' ws =>
    rw [Unsplit, List.isChain_cons_cons]
    exact and_iff_right (hnot w')

theorem unsplit_newline : Unsplit (.newline :: ws) ↔ Unsplit ws := unsplit_cons nofun

theorem unsplit_record : Unsplit (.record ev :: ws) ↔ Unsplit ws := unsplit_cons nofun

theorem unsplit_line_newline : Unsplit (.line ev :: .newline :: ws) ↔ Unsplit ws := by
  rw [Unsplit, List.isChain_cons_cons, ← Unsplit, unsplit_newline]
  exact and_iff_right id

/-- **Both writers' events survive** where no line is split. -/
theorem survivors_unsplit :
    (Alternates false ws → Unsplit ws →
      Woven (ws.filterMap Write.lined) (ws.filterMap Write.recorded) (survivors [] ws)) ∧
    ∀ ev, Alternates true ws → Unsplit (.line ev :: ws) →
      Woven (ev :: ws.filterMap Write.lined) (ws.filterMap Write.recorded) (survivors [ev] ws) := by
  induction ws with
  | nil => exact ⟨fun _ _ => .nil, fun ev _ _ => .left .nil⟩
  | cons w ws ih =>
    obtain ⟨clear, opened⟩ := ih
    refine ⟨fun halt hun => ?_, fun ev halt hun => ?_⟩
    · cases w with
      | line ev => exact opened ev halt.2 hun
      | newline => exact absurd halt.1 (by decide)
      | record ev => exact (clear halt (unsplit_record.mp hun)).right
    · cases w with
      | line ev' => exact absurd halt.1 (by decide)
      | newline => exact (clear halt.2 (unsplit_line_newline.mp hun)).left
      | record ev' => exact absurd trivial (List.isChain_cons_cons.mp hun).1

/-- How many events the writes append. -/
def appended (ws : List Write) : Nat :=
  (ws.filterMap Write.lined).length + (ws.filterMap Write.recorded).length

theorem appended_line : appended (.line ev :: ws) = appended ws + 1 := Nat.add_right_comm ..

theorem appended_newline : appended (.newline :: ws) = appended ws := rfl

theorem appended_record : appended (.record ev :: ws) = appended ws + 1 := rfl

/-- **A split line loses two events**: as many as were appended are read back
only where no line is split. -/
theorem survivors_length :
    (Alternates false ws → (survivors [] ws).length ≤ appended ws ∧
      ((survivors [] ws).length = appended ws → Unsplit ws)) ∧
    (∀ ev, Alternates true ws → (survivors [ev] ws).length ≤ appended ws + 1 ∧
      ((survivors [ev] ws).length = appended ws + 1 → Unsplit (.line ev :: ws))) ∧
    (Alternates true ws → (survivors [] ws).length ≤ appended ws) := by
  -- the three states a line can be in: none open, one open, one open and lost
  induction ws with
  | nil =>
    exact ⟨fun _ => ⟨le_refl _, fun _ => List.isChain_nil⟩,
      fun ev _ => ⟨le_refl _, fun _ => List.isChain_singleton _⟩, fun _ => le_refl _⟩
  | cons w ws ih =>
    obtain ⟨clear, opened, lost⟩ := ih
    cases w with
    | line ev =>
      rw [appended_line]
      exact ⟨fun halt => opened ev halt.2, fun _ halt => absurd halt.1 (by decide),
        fun halt => absurd halt.1 (by decide)⟩
    | newline =>
      rw [appended_newline]
      refine ⟨fun halt => absurd halt.1 (by decide), fun ev halt => ?_, fun halt => ?_⟩
      · obtain ⟨hle, heq⟩ := clear halt.2
        have hone : (survivors [ev] (.newline :: ws)).length = (survivors [] ws).length + 1 := rfl
        rw [hone]
        refine ⟨by omega, fun h => unsplit_line_newline.mpr (heq ?_)⟩
        omega
      · exact (clear halt.2).1
    | record ev =>
      rw [appended_record]
      have hone : (survivors [] (.record ev :: ws)).length = (survivors [] ws).length + 1 := rfl
      refine ⟨fun halt => ?_, fun ev' halt => ?_, fun halt => ?_⟩
      · obtain ⟨hle, heq⟩ := clear halt
        rw [hone]
        refine ⟨by omega, fun h => unsplit_record.mpr (heq ?_)⟩
        omega
      · -- both the open line's event and this one are gone
        have hle := lost halt
        have hgone : survivors [ev'] (.record ev :: ws) = survivors [] ws := rfl
        rw [hgone]
        refine ⟨by omega, fun h => ?_⟩
        omega
      · have hle := lost halt
        rw [hone]
        omega

/-! ## Reading the file -/

variable {evs : List SessionEvent} {l text : Text}

theorem SerdeJson.Lawful.toString_ne_nil (hjson : json.Lawful evs) (hev : ev ∈ evs) :
    json.toString ev ≠ [] := by
  intro h
  have hrt := hjson.round_trip ev hev
  rw [h, hjson.eof] at hrt
  cases hrt

/-- A line is read on its own. -/
theorem readEvents_line (h : '\n' ∉ l) (hr : l.getLast? ≠ some '\r') :
    readEvents json (some (l ++ '\n' :: text)) =
      (json.fromStr l).toList ++ readEvents json (some text) := by
  rw [readEvents, lines_line h hr]
  cases hl : json.fromStr l with
  | none => simp [readEvents, hl]
  | some ev => simp [readEvents, hl]

/-- **What is read is what survives.** -/
theorem readEvents_contents (hjson : json.Lawful evs) (hlined : ws.filterMap Write.lined ⊆ evs)
    (hrec : ws.filterMap Write.recorded ⊆ evs) :
    (∀ held, Alternates held ws →
      readEvents json (some (contents json ws)) = survivors [] ws) ∧
    ∀ ev ∈ evs, Alternates true ws →
      readEvents json (some (json.toString ev ++ contents json ws)) = survivors [ev] ws := by
  induction ws with
  | nil =>
    refine ⟨fun _ _ => rfl, fun ev hev _ => ?_⟩
    have hlines := lines_rest (hjson.one_line ev hev) (hjson.toString_ne_nil hev)
    simp [readEvents, contents, hlines, hjson.round_trip ev hev, survivors, onLine]
  | cons w ws ih =>
    have hfirst (l : Text) (h : '\n' ∉ l) (hr : l.getLast? ≠ some '\r') :
        readEvents json (some (l ++ '\n' :: contents json ws)) =
          (json.fromStr l).toList ++ readEvents json (some (contents json ws)) :=
      readEvents_line h hr
    cases w with
    | line ev =>
      obtain ⟨hev, hlined⟩ := List.cons_subset.mp hlined
      refine ⟨fun held halt => (ih hlined hrec).2 ev hev halt.2, fun _ _ halt => ?_⟩
      exact absurd halt.1 (by decide)
    | newline =>
      obtain ⟨clear, -⟩ := ih hlined hrec
      refine ⟨fun held halt => ?_, fun ev hev halt => ?_⟩
      · have hread := hfirst [] List.not_mem_nil (by simp)
        rw [hjson.eof, clear false halt.2] at hread
        exact hread
      · have hread := hfirst _ (hjson.one_line ev hev) (hjson.no_return ev hev)
        rw [hjson.round_trip ev hev, clear false halt.2] at hread
        exact hread
    | record ev =>
      obtain ⟨hev, hrec⟩ := List.cons_subset.mp hrec
      obtain ⟨clear, -⟩ := ih hlined hrec
      have htext : contents json (.record ev :: ws) =
          json.toString ev ++ '\n' :: contents json ws := by
        simp [contents, Write.text]
      refine ⟨fun held halt => ?_, fun ev' hev' halt => ?_⟩
      · have hread := hfirst _ (hjson.one_line ev hev) (hjson.no_return ev hev)
        rw [hjson.round_trip ev hev, clear held halt] at hread
        rw [htext]
        exact hread
      · -- the record's text follows the open line's, and the line is refused
        have hline : '\n' ∉ json.toString ev' ++ json.toString ev := by
          have h' := hjson.one_line ev' hev'
          have h := hjson.one_line ev hev
          simp [h, h']
        have hreturn : (json.toString ev' ++ json.toString ev).getLast? ≠ some '\r' := by
          rw [List.getLast?_append_of_ne_nil _ (hjson.toString_ne_nil hev)]
          exact hjson.no_return ev hev
        have hread := hfirst _ hline hreturn
        rw [hjson.trailing ev' hev' ev hev, clear true halt, List.append_assoc] at hread
        rw [htext]
        exact hread

/-! ## Both writers' events -/

/-- **Every event is read back exactly when no line is split**: what is read
is woven from the supervisor's events and the daemon's, each once and in its
writer's order, if and only if no write of the daemon comes between a
supervisor's line and its line feed. -/
theorem events_kept_iff (hjson : json.Lawful (es ++ ds)) (hws : Interleaving es ds ws) :
    Woven es ds (readEvents json (some (contents json ws))) ↔ Unsplit ws := by
  obtain ⟨halt, hlined, hrec⟩ := hws.writes
  have hread : readEvents json (some (contents json ws)) = survivors [] ws := by
    refine (readEvents_contents hjson ?_ ?_).1 false halt
    · rw [hlined]
      exact List.subset_append_left es ds
    · rw [hrec]
      exact List.subset_append_right es ds
  rw [hread]
  constructor
  · intro h
    have hlength := h.length
    rw [← hlined, ← hrec] at hlength
    exact (survivors_length.1 halt).2 hlength
  · intro h
    have hkept := survivors_unsplit.1 halt h
    rwa [hlined, hrec] at hkept

/-- Three events of one session. -/
def started : SessionEvent := ⟨"1", .started 7⟩

def renamed : SessionEvent := ⟨"2", .renamed (some "w")⟩

def exited : SessionEvent := ⟨"3", .exited (some 0) none⟩

/-- Their lines as the library writes them. -/
def logLines : List (SessionEvent × Text) :=
  [(started, "\x7b\"at\":\"1\",\"kind\":\"started\",\"pid\":7\x7d".toList),
   (renamed, "\x7b\"at\":\"2\",\"kind\":\"renamed\",\"label\":\"w\"\x7d".toList),
   (exited, "\x7b\"at\":\"3\",\"kind\":\"exited\",\"code\":0,\"signal\":null\x7d".toList)]

def tableJson : SerdeJson where
  toString ev := (logLines.lookup ev).getD []
  fromStr text := (logLines.find? fun row => row.2 = text).map (·.1)

theorem tableJson_lawful : tableJson.Lawful ([started, exited] ++ [renamed]) where
  one_line := by decide
  no_return := by decide
  round_trip := by decide
  eof := by decide
  trailing := by decide

/-- The rename's line between the supervisor's two appends. -/
theorem between_appends : Interleaving [started, exited] [renamed]
    [.line started, .newline, .record renamed, .line exited, .newline] :=
  ⟨_, .inl rfl, .left (.left (.right (.left (.left .nil))))⟩

/-- A rename between the two appends loses nothing. -/
theorem events_kept_between : Woven [started, exited] [renamed] (readEvents tableJson (some
    (contents tableJson
      [.line started, .newline, .record renamed, .line exited, .newline]))) :=
  (events_kept_iff tableJson_lawful between_appends).mpr (by decide)

/-- **A rename inside an append loses both events**: the session's exit is
gone from its log, and so is its name. -/
theorem exit_and_rename_lost : ∃ ws, Interleaving [started, exited] [renamed] ws ∧
    tableJson.Lawful ([started, exited] ++ [renamed]) ∧
    readEvents tableJson (some (contents tableJson ws)) = [started] ∧
    ¬ Woven [started, exited] [renamed] (readEvents tableJson (some (contents tableJson ws))) := by
  have hread : readEvents tableJson (some (contents tableJson
      [.line started, .newline, .line exited, .record renamed, .newline])) = [started] := by
    decide
  refine ⟨_, ⟨_, .inl rfl, .left (.left (.left (.right (.left .nil))))⟩, tableJson_lawful, hread,
    fun h => ?_⟩
  have hlength := h.length
  rw [hread] at hlength
  exact absurd hlength (by decide)

end Sessions
end Willie
