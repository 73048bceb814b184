import Willie.Sessions.Ready
import Willie.Sessions.Rename
import Willie.Sessions.Torn

/-!
# Sessions — the label a rename returns

A rename answers with the record it has folded its event onto, and a restart
folds the log. A record that has ended takes no event, and a log that has
ended, or that ends in a line that was cut, gives the event no effect. In
these cases the answer is an Ok all the same (`rename_sticks_iff`).
-/

namespace Willie
namespace Sessions

open Lines JsonText
open Projects (OpError)

/-! ## The request, with the log it writes -/

/-- How an append to the log ends: the whole line is in the file, or some of
it is and an error tells so. -/
inductive Append where
  | whole
  | failed (error : String) (written : Bytes)
  deriving DecidableEq, Repr

/-- `rename`, with nobody else at the record: its answer, the index and the
log's file. -/
def rename (json : SerdeJson) (id : SessionId) (label : Option String) (at_ : String)
    (append : Append) (st : State) (file : Bytes) : Except OpError Session × State × Bytes :=
  match checkLabel label with
  | .error e => (.error e, st, file)
  | .ok label =>
    match st.get id with
    | none => (.error (coded "session_not_found" "no such session"), st, file)
    | some copy =>
      let ev : SessionEvent := ⟨at_, .renamed label⟩
      match append with
      | .failed e written =>
        (.error ⟨"state_write_failed", e,
          "check the daemon's state directory permissions and try again"⟩, st, file ++ written)
      | .whole =>
        let session := applyEvent copy ev
        (.ok session, st.upsertSession session, file ++ Utf8.encode (lineOf json ev))

/-- The label that was asked for: trimmed, none if nothing is left. -/
def trimmed (label : Option String) : Option String :=
  ((label.map fun l => trim l.toList).filter fun l => !l.isEmpty).map String.ofList

/-- The event of a rename. -/
def renameEvent (at_ : String) (label : Option String) : SessionEvent :=
  ⟨at_, .renamed (trimmed label)⟩

variable {json : SerdeJson} {id : SessionId} {label : Option String} {at_ : String}
variable {append : Append} {st st' : State} {file file' : Bytes} {copy session : Session}
variable {spec : SessionSpec} {torn ev : SessionEvent} {after evs : List SessionEvent}
variable {full cut rest : Bytes}

/-! ## The label -/

theorem trim_eq_nil {t : Text} : trim t = [] ↔ Blank t := by
  rw [show trim t = trimEnd (t.dropWhile isWhitespace) from rfl, trimEnd_eq_nil]
  constructor
  · intro h c hc
    have hnil : t.dropWhile isWhitespace = [] := by
      by_contra hne
      have hhead := List.head_dropWhile_not isWhitespace hne
      rw [h _ (List.head_mem hne)] at hhead
      contradiction
    exact List.dropWhile_eq_nil_iff.mp hnil c hc
  · exact fun h c hc => h c ((List.dropWhile_sublist _).mem hc)

/-- What was trimmed is not trimmed away. -/
theorem trim_trim_ne_nil {t : Text} (h : trim t ≠ []) : trim (trim t) ≠ [] := by
  intro hnil
  have hblank : ¬ Blank (t.dropWhile isWhitespace) := fun hb => h (trimEnd_eq_nil.mpr hb)
  exact not_blank_trimEnd hblank (trim_eq_nil.mp hnil)

theorem checkLabel_ok {l : Option String} (h : checkLabel label = .ok l) : l = trimmed label := by
  unfold checkLabel at h
  unfold trimmed
  cases hl : (label.map fun l => trim l.toList).filter fun l => !l.isEmpty with
  | none =>
    rw [hl] at h
    exact (Except.ok.inj h).symm
  | some text =>
    simp only [hl] at h
    split_ifs at h
    exact (Except.ok.inj h).symm

/-- The fold keeps the label that was asked for. -/
theorem keepLabel_trimmed : keepLabel (trimmed label) = trimmed label := by
  unfold trimmed keepLabel
  cases hl : (label.map fun l => trim l.toList).filter fun l => !l.isEmpty with
  | none => rfl
  | some text =>
    obtain ⟨hmap, hne⟩ := Option.filter_eq_some_iff.mp hl
    obtain ⟨l, -, rfl⟩ := Option.map_eq_some_iff.mp hmap
    have htrim : trim l.toList ≠ [] := by simpa using hne
    simp [trim_trim_ne_nil htrim]

theorem renameEvent_renames : (renameEvent at_ label).Renames := ⟨_, rfl⟩

/-- What a rename's event makes of a record's label. -/
theorem label_renameEvent :
    (applyEvent copy (renameEvent at_ label)).label =
      if copy.state.isTerminal then copy.label else trimmed label := by
  unfold applyEvent renameEvent
  split_ifs
  · rfl
  · exact keepLabel_trimmed

/-- Every other event leaves the label. -/
theorem label_applyEvent (h : ¬ ev.Renames) : (applyEvent copy ev).label = copy.label := by
  obtain ⟨at_, kind⟩ := ev
  unfold applyEvent
  split_ifs
  · rfl
  · cases kind with
    | renamed label => exact absurd ⟨label, rfl⟩ h
    | sandboxDegraded mechanism message =>
      simp only [SessionEventKind.fold]
      split_ifs <;> rfl
    | stopRequested by_ =>
      simp only [SessionEventKind.fold]
      split_ifs <;> rfl
    | _ => rfl

theorem label_foldl (h : ∀ ev ∈ evs, ¬ ev.Renames) :
    (evs.foldl applyEvent copy).label = copy.label := by
  induction evs generalizing copy with
  | nil => rfl
  | cons ev evs ih =>
    obtain ⟨hev, hevs⟩ := List.forall_mem_cons.mp h
    rw [List.foldl_cons, ih hevs, label_applyEvent hev]

/-- **What an Ok is**: the record with the event on it is the answer and in
the index, and the event's line is in the file. -/
theorem rename_ok (hget : st.get id = some copy)
    (hok : rename json id label at_ append st file = (.ok session, st', file')) :
    checkLabel label = .ok (trimmed label) ∧ append = .whole ∧
      session = applyEvent copy (renameEvent at_ label) ∧ st' = st.upsertSession session ∧
      file' = file ++ Utf8.encode (lineOf json (renameEvent at_ label)) := by
  unfold rename at hok
  cases hlabel : checkLabel label with
  | error e => simp [hlabel] at hok
  | ok l =>
    obtain rfl := checkLabel_ok hlabel
    cases append with
    | failed e written => simp [hlabel, hget] at hok
    | whole =>
      simp only [hlabel, hget, Prod.mk.injEq, Except.ok.injEq] at hok
      obtain ⟨rfl, rfl, rfl⟩ := hok
      exact ⟨rfl, rfl, rfl, rfl, rfl⟩

/-- A label that is not too long is set wherever its line is written. -/
theorem rename_whole (hlabel : checkLabel label = .ok (trimmed label))
    (hget : st.get id = some copy) :
    rename json id label at_ .whole st file =
      (.ok (applyEvent copy (renameEvent at_ label)),
        st.upsertSession (applyEvent copy (renameEvent at_ label)),
        file ++ Utf8.encode (lineOf json (renameEvent at_ label))) := by
  simp only [rename, hlabel, hget]
  rfl

/-- The rename is the three turns of one that no event interrupts. -/
theorem rename_turns (hget : st.get id = some copy)
    (hok : rename json id label at_ append st file = (.ok session, st', file')) :
    ∃ d, Runs.exec (Renaming.step id) (.begin st label)
        [.rename at_ none, .rename at_ none, .rename at_ none] = some d ∧
      d.rename = .renamed (renameEvent at_ label) session ∧ d.state = st' ∧
      file' = file ++ Utf8.encode (linesOf json d.log) := by
  obtain ⟨hlabel, -, rfl, rfl, rfl⟩ := rename_ok hget hok
  refine ⟨⟨_, _, [renameEvent at_ label], []⟩, ?_, rfl, rfl, ?_⟩
  · simp only [Runs.exec, Renaming.begin, Renaming.step, hlabel, hget, Option.bind_some]
    rfl
  · simp [linesOf]

/-! ## The log -/

/-- Lines that all end, whatever they hold. -/
def WholeLines (full : Bytes) : Prop := full = [] ∨ full.getLast? = some 0x0a

/-- Whole lines are read apart from what follows, or nothing is read at all. -/
theorem decode_whole (h : WholeLines full) :
    Utf8.decode (full ++ rest) =
      (Utf8.decode full).bind fun text => (Utf8.decode rest).map fun more => text ++ more := by
  have hfeed : String.utf8EncodeChar '\n' = [0x0a] := by decide
  have hnil : Utf8.decode [] = some [] := rfl
  rcases h with rfl | hlast
  · rw [hnil]
    simp
  · obtain ⟨pre, rfl⟩ := List.getLast?_eq_some_iff.mp hlast
    rw [List.append_assoc, List.singleton_append, Utf8.decode_append_cons (by decide) hfeed,
      Utf8.decode_append_cons (by decide) hfeed, hnil]
    cases Utf8.decode pre with
    | none => rfl
    | some before =>
      cases Utf8.decode rest with
      | none => rfl
      | some after => simp

theorem readEvents_whole {text more : Text} (h : WholeLines full)
    (hfull : Utf8.decode full = some text) :
    readEvents json (some (text ++ more)) =
      readEvents json (some text) ++ readEvents json (some more) := by
  have hlines : lines (text ++ more) = lines text ++ lines more := by
    rcases h with rfl | hlast
    · obtain rfl : [] = text := Option.some.inj hfull
      rfl
    · obtain ⟨pre, rfl⟩ := List.getLast?_eq_some_iff.mp hlast
      rw [Utf8.decode_append_cons (c := '\n') (by decide) (by decide),
        Option.bind_eq_some_iff] at hfull
      obtain ⟨before, -, hbefore⟩ := hfull
      obtain rfl : before ++ ['\n'] = text := Option.some.inj hbefore
      rw [List.append_assoc, List.singleton_append, lines_append]
  rw [readEvents, readEvents, readEvents, hlines, List.filterMap_append]

/-- What is on an unfinished line: some of an event's, not all of it. -/
def CutShort (json : SerdeJson) (torn : SessionEvent) (cut : Bytes) : Prop :=
  cut <+: Utf8.encode (lineOf json torn) ∧ cut ≠ Utf8.encode (lineOf json torn)

/-- **What an event adds to the log** that ends in such a line. -/
theorem readFile_append (hjson : json.Objects (torn :: ev :: after)) (hfull : WholeLines full)
    (hcut : CutShort json torn cut) :
    readFile json (full ++ cut ++ Utf8.encode (lineOf json ev) ++
        Utf8.encode (linesOf json after)) =
      if (Utf8.decode full).isSome ∧ (Utf8.decode cut).isSome then
        readFile json full ++ ((if cut = [] then [ev] else []) ++ after)
      else [] := by
  have hlater : json.Objects (ev :: after) := hjson.sub (List.subset_cons_self torn _)
  have hafter : json.Objects after := hlater.sub (List.subset_cons_self ev _)
  have hfile : full ++ cut ++ Utf8.encode (lineOf json ev) ++ Utf8.encode (linesOf json after) =
      full ++ (cut ++ Utf8.encode (linesOf json (ev :: after))) := by
    simp [linesOf]
  have hread : readEvents json (some (linesOf json after)) = after := readEvents_all hafter
  rw [hfile, readFile, decode_whole hfull]
  cases htext : Utf8.decode full with
  | none => simp [readEvents]
  | some text =>
    cases hdecode : Utf8.decode cut with
    | none =>
      rw [decode_torn_char hlater hcut.1 hdecode]
      simp [readEvents]
    | some t =>
      obtain rfl := Utf8.decode_eq_some.mp hdecode
      have hprefix : t <+: json.toString torn := by
        rcases List.prefix_concat_iff.mp (Utf8.prefix_of_encode_prefix hcut.1) with heq | hpre
        · exact absurd (congrArg Utf8.encode heq) hcut.2
        · exact hpre
      rw [← Utf8.encode_append, Utf8.decode_encode]
      simp only [Option.bind_some, Option.map_some, Option.isSome_some, and_self, if_true,
        Utf8.encode_eq_nil]
      rw [readEvents_whole hfull htext, readFile, htext]
      refine congrArg (readEvents json (some text) ++ ·) ?_
      rw [show linesOf json (ev :: after) = lineOf json ev ++ linesOf json after from rfl]
      split_ifs with hempty
      · -- the line is one of its own
        rw [hempty, List.nil_append, readEvents_lineOf hlater List.mem_cons_self, hread]
        rfl
      · rw [readEvents_joined hjson List.mem_cons_self (by simp) hprefix hempty, hread]
        rfl

/-! ## The law -/

/-- **The rename sticks**: the answer carries the label asked for and is
otherwise the record as it was, it is in the index, and the log gives the
label to whoever reads it later. -/
structure Sticks (json : SerdeJson) (spec : SessionSpec) (id : SessionId) (label : Option String)
    (after : List SessionEvent) (copy session : Session) (st : State) (file : Bytes) : Prop where
  labelled : session.label = trimmed label
  otherwise : SameButLabel session copy
  stored : st.get id = some session
  reloaded : (fromLog spec
    (readFile json (file ++ Utf8.encode (linesOf json after)))).label = trimmed label

/-- The log takes the event: it ends with a line, is a text, and its events
have not ended the session. -/
def Takes (json : SerdeJson) (spec : SessionSpec) (full cut : Bytes) : Prop :=
  cut = [] ∧ (Utf8.decode full).isSome ∧
    (fromLog spec (readFile json full)).state.isTerminal = false

/-- The label of a log that does not take it: that of its whole lines, none
where the file is no text. -/
def labelLeft (json : SerdeJson) (spec : SessionSpec) (full cut : Bytes) : Option String :=
  if (Utf8.decode cut).isSome then (fromLog spec (readFile json full)).label else none

/-- What the log gives after a rename. -/
theorem reloaded_iff (hjson : json.Objects (torn :: renameEvent at_ label :: after))
    (hfull : WholeLines full) (hcut : CutShort json torn cut)
    (hafter : ∀ ev ∈ after, ¬ ev.Renames) :
    (fromLog spec (readFile json (full ++ cut ++
        Utf8.encode (lineOf json (renameEvent at_ label)) ++
        Utf8.encode (linesOf json after)))).label = trimmed label ↔
      Takes json spec full cut ∨ labelLeft json spec full cut = trimmed label := by
  have hnew : (fromLog spec []).label = none := rfl
  rw [readFile_append hjson hfull hcut]
  unfold Takes labelLeft
  by_cases htext : (Utf8.decode full).isSome ∧ (Utf8.decode cut).isSome
  · simp only [htext.1, htext.2, true_and, if_true]
    rw [fromLog_append, List.foldl_append, label_foldl hafter]
    by_cases hempty : cut = []
    · simp only [hempty, if_true, List.foldl_cons, List.foldl_nil, label_renameEvent, true_and]
      cases hend : (fromLog spec (readFile json full)).state.isTerminal with
      | true => simp
      | false => simp
    · simp [hempty]
  · simp only [if_neg htext, hnew]
    by_cases hfulltext : (Utf8.decode full).isSome
    · -- the cut is no text
      have hcuttext : ¬ (Utf8.decode cut).isSome := fun h => htext ⟨hfulltext, h⟩
      have hne : cut ≠ [] := by
        rintro rfl
        exact hcuttext rfl
      simp [hcuttext, hne]
    · have hnone : Utf8.decode full = none := by simpa using hfulltext
      have hempty : readFile json full = [] := by rw [readFile, hnone]; rfl
      simp [hnone, hempty, hnew]

/-- **A rename that returns Ok sticks** if and only if the record has not
ended or bears the label already, and the log takes the event or gives that
label without it. -/
theorem rename_sticks_iff (hjson : json.Objects (torn :: renameEvent at_ label :: after))
    (hfull : WholeLines full) (hcut : CutShort json torn cut)
    (hafter : ∀ ev ∈ after, ¬ ev.Renames) (hget : st.get id = some copy)
    (hok : rename json id label at_ append st (full ++ cut) = (.ok session, st', file')) :
    Sticks json spec id label after copy session st' file' ↔
      (copy.state.isTerminal = false ∨ copy.label = trimmed label) ∧
        (Takes json spec full cut ∨ labelLeft json spec full cut = trimmed label) := by
  obtain ⟨-, -, rfl, rfl, rfl⟩ := rename_ok hget hok
  have hlabel : (applyEvent copy (renameEvent at_ label)).label = trimmed label ↔
      copy.state.isTerminal = false ∨ copy.label = trimmed label := by
    rw [label_renameEvent]
    cases copy.state.isTerminal with
    | true => simp
    | false => simp
  constructor
  · intro h
    exact ⟨hlabel.mp h.labelled, (reloaded_iff hjson hfull hcut hafter).mp h.reloaded⟩
  · rintro ⟨hmemory, hdisk⟩
    exact {
      labelled := hlabel.mpr hmemory
      otherwise := renameEvent_renames.sameButLabel
      stored := State.get_upsertSession_of (applyEvent_id.trans (State.get_id hget))
      reloaded := (reloaded_iff hjson hfull hcut hafter).mpr hdisk }

/-- The spec of the running session. -/
def runningSpec : SessionSpec where
  id := 1
  projectId := 1
  harness := "claude-code"
  workspace := "/home/willie/projects/x"
  createdAt := "1"
  resumedFrom := none
  kind := .agent

/-- A daemon that holds one session. -/
def holding (s : Session) : State := State.empty.upsertSession s

theorem rename_holding (s : Session) (events : List SessionEvent) (label : String)
    (hlabel : checkLabel label = .ok (trimmed label)) :
    rename tableJson s.id label "2" .whole (holding s)
        (Utf8.encode (linesOf tableJson events) ++ []) =
      (.ok (applyEvent s (renameEvent "2" label)),
        (holding s).upsertSession (applyEvent s (renameEvent "2" label)),
        Utf8.encode (linesOf tableJson events) ++ [] ++
          Utf8.encode (lineOf tableJson (renameEvent "2" label))) :=
  rename_whole hlabel State.get_upsertSession

/-- A running session is renamed, and exits later. -/
theorem rename_sticks_running : ∃ session st' file',
    rename tableJson 1 (some " w ") "2" .whole (holding runningSession)
        (Utf8.encode (linesOf tableJson [started]) ++ []) = (.ok session, st', file') ∧
      Sticks tableJson runningSpec 1 (some " w ") [exited] runningSession session st' file' := by
  have hcut : CutShort tableJson started [] := ⟨List.nil_prefix, by decide⟩
  have hjson : tableJson.Objects (started :: renameEvent "2" (some " w ") :: [exited]) :=
    tableJson_objects.sub (by decide)
  have hafter : ∀ ev ∈ [exited], ¬ ev.Renames := by
    rintro ev hev ⟨label, hkind⟩
    rw [List.mem_singleton.mp hev] at hkind
    cases hkind
  have hfull : WholeLines (Utf8.encode (linesOf tableJson [started])) := .inr (by decide)
  have hget : (holding runningSession).get 1 = some runningSession := State.get_upsertSession
  have hok := rename_holding runningSession [started] " w " (by decide)
  refine ⟨_, _, _, hok, (rename_sticks_iff hjson hfull hcut hafter hget hok).mpr
    ⟨.inl rfl, .inl ⟨rfl, ?_, ?_⟩⟩⟩
  · decide
  · decide

/-- The session after its exit. -/
def exitedSession : Session := applyEvent runningSession exited

/-- **A session that has ended keeps its old name**, and the answer is Ok. -/
theorem rename_ended_returns_ok : ∃ session st' file',
    rename tableJson 1 (some "w") "2" .whole (holding exitedSession)
        (Utf8.encode (linesOf tableJson [started, exited]) ++ []) = (.ok session, st', file') ∧
      tableJson.Objects [started, renamed, exited] ∧ session = exitedSession ∧
      (fromLog runningSpec (readFile tableJson file')).label = none ∧
      ¬ Sticks tableJson runningSpec 1 (some "w") [] exitedSession session st' file' := by
  have hok := rename_holding exitedSession [started, exited] "w" (by decide)
  refine ⟨_, _, _, hok, tableJson_objects, rfl, by decide +kernel, fun h => ?_⟩
  have hlabel := h.labelled
  revert hlabel
  decide

end Sessions
end Willie
