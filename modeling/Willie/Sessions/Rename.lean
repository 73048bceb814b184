import Willie.Common.Runs
import Willie.Projects.Ops
import Willie.Sessions.State

/-!
# Sessions — renaming one while its events come in

A rename copies the record out, writes its event to the log with no lock
held, folds the event onto the copy and puts the copy back. The control
reader folds the session's events in the meantime, each under the lock.
-/

namespace Willie
namespace Sessions

open Projects (OpError)

/-! ## The request -/

/-- A session or tool error; its remediation is the table's. -/
def coded (code message : String) : OpError := ⟨code, message, remediationFor code⟩

/-- The label a rename sets: trimmed, none if nothing is left, refused if it
is too long. -/
def checkLabel (label : Option String) : Except OpError (Option String) :=
  match (label.map fun l => trim l.toList).filter fun l => !l.isEmpty with
  | none => .ok none
  | some l =>
    if l.length > 120 then
      .error ⟨"invalid_params", "the label is longer than 120 characters", "shorten the name"⟩
    else .ok (some (String.ofList l))

/-- How far a rename has come. -/
inductive Rename where
  | asked (label : Option String)
  /-- It has copied the record out. -/
  | copied (copy : Session) (label : Option String)
  /-- Its event is in the log. -/
  | written (copy : Session) (ev : SessionEvent)
  | refused (e : OpError)
  | renamed (ev : SessionEvent) (session : Session)
  deriving Repr

/-- The daemon while a session is renamed: `log` is what the rename appended
to `events.jsonl`, `delivered` the events the reader has folded. -/
structure Renaming where
  state : State
  rename : Rename
  log : List SessionEvent := []
  delivered : List SessionEvent := []

/-- Who moves: the control reader, with an event, or the rename, with what
the clock says and how the append ended. -/
inductive Renaming.Turn where
  | event (ev : SessionEvent)
  | rename (at_ : String) (error : Option String)
  deriving Repr

variable (id : SessionId)

/-- **One turn.** What the rename does between taking the lock and giving it
back is one step; so is its append. -/
def Renaming.step (d : Renaming) : Renaming.Turn → Option Renaming
  | .event ev =>
    some { d with state := d.state.onEvent id ev, delivered := d.delivered ++ [ev] }
  | .rename at_ error =>
    match d.rename with
    | .asked label =>
      match checkLabel label with
      | .error e => some { d with rename := .refused e }
      | .ok label =>
        match d.state.get id with
        | none => some { d with rename := .refused (coded "session_not_found" "no such session") }
        | some copy => some { d with rename := .copied copy label }
    | .copied copy label =>
      match error with
      | some e =>
        some { d with rename := .refused ⟨"state_write_failed", e,
          "check the daemon's state directory permissions and try again"⟩ }
      | none =>
        let ev : SessionEvent := ⟨at_, .renamed label⟩
        some { d with rename := .written copy ev, log := d.log ++ [ev] }
    | .written copy ev =>
      let session := applyEvent copy ev
      some { d with state := d.state.upsertSession session, rename := .renamed ev session }
    | .refused _ | .renamed .. => none

/-! ## What a rename changes -/

/-- The record without its label. -/
def Session.unlabelled (s : Session) : Session := { s with label := none }

/-- Two records that differ in their label at most. -/
def SameButLabel (s t : Session) : Prop := s.unlabelled = t.unlabelled

/-- The event is a rename's. -/
def SessionEvent.Renames (ev : SessionEvent) : Prop := ∃ label, ev.kind = .renamed label

variable {id} {s t : Session} {ev : SessionEvent} {evs : List SessionEvent}

theorem fold_unlabelled (k : SessionEventKind) (s : Session) (at_ : String) :
    (k.fold s.unlabelled at_).unlabelled = (k.fold s at_).unlabelled := by
  cases k with
  | sandboxDegraded mechanism message =>
    by_cases hold : mechanism ∈ s.sandbox.degraded
    · simp [SessionEventKind.fold, Session.unlabelled, hold]
    · simp [SessionEventKind.fold, Session.unlabelled, hold]
  | stopRequested by_ =>
    by_cases hlive : s.state.isLive = true
    · simp [SessionEventKind.fold, Session.unlabelled, hlive]
    · simp [SessionEventKind.fold, Session.unlabelled, hlive]
  | _ => rfl

theorem SameButLabel.state_eq (h : SameButLabel s t) : s.state = t.state := by
  have hstate := congrArg Session.state (show s.unlabelled = t.unlabelled from h)
  exact hstate

/-- Events change the rest of the record alike, whatever the label. -/
theorem SameButLabel.foldl (h : SameButLabel s t) :
    SameButLabel (evs.foldl applyEvent s) (evs.foldl applyEvent t) :=
  foldl_view (fun _ => rfl) fold_unlabelled h

/-- A rename changes the label at most. -/
theorem SessionEvent.Renames.sameButLabel (h : ev.Renames) : SameButLabel (applyEvent s ev) s := by
  obtain ⟨label, hkind⟩ := h
  unfold applyEvent
  split
  · rfl
  · rw [hkind]
    rfl

/-- Wherever a rename falls among the events, the rest of the record is what
the events make it. -/
theorem SessionEvent.Renames.inserted (h : ev.Renames) (pre post : List SessionEvent) :
    SameButLabel ((pre ++ ev :: post).foldl applyEvent s) ((pre ++ post).foldl applyEvent s) := by
  rw [List.foldl_append, List.foldl_append, List.foldl_cons]
  exact h.sameButLabel.foldl

/-- On a record that is the copy but for its label, or has not moved since it
ended, the rename does what it does on the copy. -/
theorem SessionEvent.Renames.eq_of_same (h : ev.Renames)
    (hsame : SameButLabel (evs.foldl applyEvent s) s) :
    applyEvent (evs.foldl applyEvent s) ev = applyEvent s ev := by
  have hstate := hsame.state_eq
  cases hs : s.state.isTerminal with
  | true => rw [foldl_terminal hs]
  | false =>
    obtain ⟨label, hkind⟩ := h
    rw [applyEvent_open hs, applyEvent_open (by rw [hstate, hs]), hkind]
    have hunlabelled : (evs.foldl applyEvent s).unlabelled = s.unlabelled := hsame
    exact congrArg (fun u : Session => { u with label := keepLabel label }) hunlabelled

/-! ## What holds while it runs -/

variable {start : Session} {d d' : Renaming} {turn : Renaming.Turn} {turns : List Renaming.Turn}
variable {copy : Session}

/-- The record is what the delivered events make it. -/
def Renaming.Folded (id : SessionId) (start : Session) (d : Renaming) : Prop :=
  d.state.getOr id = d.delivered.foldl applyEvent start

/-- **What the rename promises**: the record is the fold of every event
delivered, and once the rename is done, of these and the rename. -/
def Renaming.Sound (id : SessionId) (start : Session) (d : Renaming) : Prop :=
  match d.rename with
  | .renamed ev _ => ∃ pre post, d.delivered = pre ++ post ∧
      d.state.getOr id = (pre ++ ev :: post).foldl applyEvent start
  | _ => d.Folded id start

/-- The copy is the record as it was after some of the events. -/
def Renaming.Took (id : SessionId) (start : Session) (d : Renaming) (copy : Session) : Prop :=
  copy.id = id ∧ ∃ pre post, d.delivered = pre ++ post ∧ copy = pre.foldl applyEvent start

/-- What every turn keeps. -/
def Renaming.Inv (id : SessionId) (start : Session) (d : Renaming) : Prop :=
  match d.rename with
  | .asked _ | .refused _ => d.Folded id start
  | .copied copy _ => d.Folded id start ∧ d.Took id start copy
  | .written copy ev => d.Folded id start ∧ d.Took id start copy ∧ ev.Renames
  | .renamed ev _ => ev.Renames

/-- **The rename's copy is current when it is put back**: the record is as it
was copied, in every field but the label. -/
def Renaming.Current (id : SessionId) (d : Renaming) : Renaming.Turn → Prop
  | .event _ => True
  | .rename .. =>
    match d.rename with
    | .written copy _ => SameButLabel (d.state.getOr id) copy
    | _ => True

/-- The reader's turn. -/
def Renaming.deliver (id : SessionId) (d : Renaming) (ev : SessionEvent) : Renaming :=
  { d with state := d.state.onEvent id ev, delivered := d.delivered ++ [ev] }

theorem Renaming.Folded.deliver (h : d.Folded id start) : (d.deliver id ev).Folded id start := by
  unfold Renaming.Folded at h ⊢
  simp [Renaming.deliver, h]

theorem Renaming.Took.deliver (h : d.Took id start copy) :
    (d.deliver id ev).Took id start copy := by
  obtain ⟨hid, pre, post, hdelivered, hcopy⟩ := h
  exact ⟨hid, pre, post ++ [ev], by simp [Renaming.deliver, hdelivered], hcopy⟩

@[simp] theorem Renaming.rename_deliver : (d.deliver id ev).rename = d.rename := rfl

theorem Renaming.Inv.deliver (h : d.Inv id start) : (d.deliver id ev).Inv id start := by
  cases hr : d.rename with
  | asked label =>
    simp only [Renaming.Inv, hr, rename_deliver] at h ⊢
    exact h.deliver
  | refused e =>
    simp only [Renaming.Inv, hr, rename_deliver] at h ⊢
    exact h.deliver
  | copied copy label =>
    simp only [Renaming.Inv, hr, rename_deliver] at h ⊢
    exact ⟨h.1.deliver, h.2.deliver⟩
  | written copy ev =>
    simp only [Renaming.Inv, hr, rename_deliver] at h ⊢
    exact ⟨h.1.deliver, h.2.1.deliver, h.2.2⟩
  | renamed ev session =>
    simp only [Renaming.Inv, hr, rename_deliver] at h ⊢
    exact h

/-- The reader never undoes a rename. -/
theorem Renaming.Sound.deliver (h : d.Sound id start) : (d.deliver id ev).Sound id start := by
  cases hr : d.rename with
  | renamed ev' session =>
    simp only [Renaming.Sound, hr, rename_deliver] at h ⊢
    obtain ⟨pre, post, hdelivered, hrecord⟩ := h
    refine ⟨pre, post ++ [ev], by simp [Renaming.deliver, hdelivered], ?_⟩
    simp [Renaming.deliver, hrecord]
  | _ =>
    simp only [Renaming.Sound, hr, rename_deliver] at h ⊢
    exact h.deliver

/-- **What a turn of the rename is**, by how far it has come. -/
theorem Renaming.step_rename {at_ : String} {error : Option String}
    (h : d.step id (.rename at_ error) = some d') :
    (∃ label, d.rename = .asked label ∧ ∃ r, d' = { d with rename := r } ∧
      ((∃ e, r = .refused e) ∨
        ∃ copy label', d.state.get id = some copy ∧ r = .copied copy label')) ∨
    (∃ copy label, d.rename = .copied copy label ∧
      ((∃ e, d' = { d with rename := .refused e }) ∨
        d' = { d with rename := .written copy ⟨at_, .renamed label⟩,
                      log := d.log ++ [⟨at_, .renamed label⟩] })) ∨
    ∃ copy ev, d.rename = .written copy ev ∧
      d' = { d with state := d.state.upsertSession (applyEvent copy ev),
                    rename := .renamed ev (applyEvent copy ev) } := by
  unfold Renaming.step at h
  cases hr : d.rename with
  | asked label =>
    simp only [hr] at h
    refine .inl ⟨label, rfl, ?_⟩
    cases hl : checkLabel label with
    | error e =>
      simp only [hl, Option.some.injEq] at h
      exact ⟨_, h.symm, .inl ⟨e, rfl⟩⟩
    | ok label' =>
      cases hg : d.state.get id with
      | none =>
        simp only [hl, hg, Option.some.injEq] at h
        exact ⟨_, h.symm, .inl ⟨_, rfl⟩⟩
      | some copy =>
        simp only [hl, hg, Option.some.injEq] at h
        -- the record is copied out, and the lock is released
        exact ⟨_, h.symm, .inr ⟨copy, label', rfl, rfl⟩⟩
  | copied copy label =>
    simp only [hr] at h
    refine .inr (.inl ⟨copy, label, rfl, ?_⟩)
    cases error with
    | some e =>
      simp only [Option.some.injEq] at h
      exact .inl ⟨_, h.symm⟩
    | none =>
      simp only [Option.some.injEq] at h
      exact .inr h.symm
  | written copy ev =>
    simp only [hr, Option.some.injEq] at h
    exact .inr (.inr ⟨copy, ev, rfl, h.symm⟩)
  | refused e => simp [hr] at h
  | renamed ev session => simp [hr] at h

theorem Renaming.Inv.step (h : d.Inv id start) (hstep : d.step id turn = some d') :
    d'.Inv id start := by
  cases turn with
  | event ev =>
    obtain rfl := Option.some.inj hstep
    exact h.deliver
  | rename at_ error =>
    obtain ⟨label, hr, r, rfl, ⟨e, rfl⟩ | ⟨copy, label', hget, rfl⟩⟩ |
      ⟨copy, label, hr, ⟨e, rfl⟩ | rfl⟩ | ⟨copy, ev, hr, rfl⟩ := Renaming.step_rename hstep
    · simp only [Renaming.Inv, hr] at h ⊢
      exact h
    · -- the copy is the record, which is the fold of all that was delivered
      simp only [Renaming.Inv, hr] at h ⊢
      refine ⟨h, State.get_id hget, d.delivered, [], by simp, ?_⟩
      rw [← h, State.getOr, hget]
      rfl
    · simp only [Renaming.Inv, hr] at h ⊢
      exact h.1
    · simp only [Renaming.Inv, hr] at h ⊢
      exact ⟨h.1, h.2, label, rfl⟩
    · simp only [Renaming.Inv, hr] at h ⊢
      exact h.2.2

/-- **Where the promise is kept no event is undone**: the rest of the record is
what the events make it. -/
theorem Renaming.Sound.sameButLabel (h : d.Sound id start) (hinv : d.Inv id start) :
    SameButLabel (d.state.getOr id) (d.delivered.foldl applyEvent start) := by
  cases hr : d.rename with
  | renamed ev session =>
    simp only [Renaming.Sound, Renaming.Inv, hr] at h hinv
    obtain ⟨pre, post, hdelivered, hrecord⟩ := h
    rw [hrecord, hdelivered]
    exact hinv.inserted pre post
  | _ =>
    simp only [Renaming.Sound, hr] at h
    exact congrArg Session.unlabelled h

/-- **What putting the copy back does**: the promise is kept exactly where the
copy is current. -/
theorem Renaming.Inv.put_back (hr : d.rename = .written copy ev) (h : d.Inv id start) :
    Renaming.Sound id start { d with state := d.state.upsertSession (applyEvent copy ev),
                                     rename := .renamed ev (applyEvent copy ev) } ↔
      SameButLabel (d.state.getOr id) copy := by
  have hinv := h
  simp only [Renaming.Inv, hr] at hinv
  obtain ⟨hfold, ⟨hid, pre, post, hdelivered, hcopy⟩, hev⟩ := hinv
  have hget : (d.state.upsertSession (applyEvent copy ev)).getOr id = applyEvent copy ev := by
    rw [State.getOr, State.get_upsertSession_of (applyEvent_id.trans hid), Option.getD_some]
  have hcurrent : d.state.getOr id = post.foldl applyEvent copy := by
    rw [hfold, hdelivered, List.foldl_append, hcopy]
  constructor
  · intro hsound
    have hrest := hsound.sameButLabel hev
    have hcopied : SameButLabel (applyEvent copy ev) (d.state.getOr id) := by
      rw [hfold]
      rwa [hget] at hrest
    exact hcopied.symm.trans hev.sameButLabel
  · intro hsame
    refine ⟨d.delivered, [], by simp, ?_⟩
    rw [hcurrent] at hsame
    rw [hget, List.foldl_append, ← hfold, hcurrent]
    exact (hev.eq_of_same hsame).symm

/-- A session that is asked to be renamed. -/
def Renaming.begin (st : State) (label : Option String) : Renaming where
  state := st
  rename := .asked label

/-- **A rename undoes no event exactly when its copy is current**: all along a
run, the record is the fold of every event delivered and the rename, if and
only if whenever a copy is put back the record is still as it was copied, in
every field but the label. -/
theorem rename_keeps_events_iff (st : State) (label : Option String)
    (turns : List Renaming.Turn) :
    Runs.Always (Renaming.step id) (Renaming.Sound id (st.getOr id)) (.begin st label) turns ↔
      Runs.Guarded (Renaming.step id) (Renaming.Current id) (.begin st label) turns := by
  refine Runs.always_iff_guarded (B := Renaming.Inv id (st.getOr id)) rfl rfl
    (fun d turn d' h hstep => h.step hstep) fun d turn hinv hsound => ?_
  cases turn with
  | event ev =>
    refine iff_of_true trivial fun d' hstep => ?_
    obtain rfl := Option.some.inj hstep
    exact hsound.deliver
  | rename at_ error =>
    cases hr : d.rename with
    | written copy ev =>
      have hstep : d.step id (.rename at_ error) =
          some { d with state := d.state.upsertSession (applyEvent copy ev),
                        rename := .renamed ev (applyEvent copy ev) } := by
        simp only [Renaming.step, hr]
      have hput := hinv.put_back hr
      simp only [Renaming.Current, hr]
      constructor
      · intro hcurrent d' hstep'
        obtain rfl := Option.some.inj (hstep.symm.trans hstep')
        exact hput.mpr hcurrent
      · exact fun h => hput.mp (h _ hstep)
    | _ =>
      -- any other turn of the rename leaves the record alone
      simp only [Renaming.Current, hr, true_iff]
      intro d' hstep
      have hinv' := hinv.step hstep
      obtain ⟨label, -, r, rfl, ⟨e, rfl⟩ | ⟨copy, label', -, rfl⟩⟩ |
        ⟨copy, label, -, ⟨e, rfl⟩ | rfl⟩ | ⟨copy, ev, hr', -⟩ := Renaming.step_rename hstep
      · exact hinv'
      · exact hinv'.1
      · exact hinv'
      · exact hinv'.1
      · rw [hr] at hr'
        cases hr'

/-! ## A rename while the session ends -/

/-- A running session. -/
def runningSession : Session where
  id := 1
  projectId := 1
  harness := "claude-code"
  workspace := "/home/willie/projects/x"
  kind := .agent
  state := .running
  createdAt := "1"
  startedAt := some "1"
  finishedAt := none
  pid := some 7
  clients := 0
  resumedFrom := none
  label := none
  title := none
  sandbox := {}

/-- A rename during which the session exits: the reader folds the exit after
the record was copied. -/
def renameWhileExiting : List Renaming.Turn :=
  [.rename "2" none, .event ⟨"3", .exited (some 0) none⟩, .rename "4" none, .rename "5" none]

/-- **The session runs again**: its exit was delivered, and the rename's copy
puts it back to Running. -/
theorem exit_undone_by_rename : ∃ d,
    Runs.exec (Renaming.step 1)
      (.begin (State.empty.upsertSession runningSession) (some "w")) renameWhileExiting = some d ∧
      ⟨"3", .exited (some 0) none⟩ ∈ d.delivered ∧ (d.state.getOr 1).state = .running ∧
      ¬ d.Sound 1 ((State.empty.upsertSession runningSession).getOr 1) := by
  have hrun : (Runs.exec (Renaming.step 1)
      (.begin (State.empty.upsertSession runningSession) (some "w")) renameWhileExiting).map
        (fun d => (d.delivered, (d.state.getOr 1).state)) =
      some ([⟨"3", .exited (some 0) none⟩], .running) := by decide
  obtain ⟨d, hrun, hend⟩ := Option.map_eq_some_iff.mp hrun
  obtain ⟨hdelivered, hstate⟩ := Prod.mk.inj hend
  refine ⟨d, hrun, by simp [hdelivered], hstate, fun hsound => ?_⟩
  have hinv : d.Inv 1 ((State.empty.upsertSession runningSession).getOr 1) :=
    Runs.exec_keeps hrun rfl fun _ _ _ h hstep => h.step hstep
  have hend := (hsound.sameButLabel hinv).state_eq
  rw [hstate, hdelivered] at hend
  exact absurd hend (by decide)

end Sessions
end Willie
