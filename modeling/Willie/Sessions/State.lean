import Willie.Sessions.Model

/-!
# Sessions — what the daemon holds in memory

The daemon's index of sessions, keyed by id. Every change to it is made under
one lock, with its event, so a change is one step of whoever makes it; a
session that was copied out before is a copy.
-/

namespace Willie
namespace Sessions

/-- What a change to a session tells the app: `session_changed`. -/
structure Event where
  seq : Nat
  session : Session
  deriving DecidableEq, Repr

/-- The daemon's sessions, each under its own id, and the events sent. -/
structure State where
  sessions : AList fun _ : SessionId => Session
  seq : Nat
  sent : List Event
  keyed : ∀ id s, sessions.lookup id = some s → s.id = id

/-- What a daemon starts with. -/
def State.empty : State where
  sessions := ∅
  seq := 0
  sent := []
  keyed _ _ h := by simp at h

variable {st : State} {s : Session} {id : SessionId} {ev : SessionEvent}

/-- The record of a session, if there is one. -/
def State.get (st : State) (id : SessionId) : Option Session := st.sessions.lookup id

theorem State.get_id (h : st.get id = some s) : s.id = id := st.keyed id s h

/-- **Replaces the record of a session**, and sends the change. -/
def State.upsertSession (st : State) (s : Session) : State where
  sessions := st.sessions.insert s.id s
  seq := st.seq + 1
  sent := st.sent ++ [⟨st.seq + 1, s⟩]
  keyed id t h := by
    by_cases hid : id = s.id
    · subst hid
      rw [AList.lookup_insert] at h
      obtain rfl : s = t := Option.some.inj h
      rfl
    · rw [AList.lookup_insert_ne hid] at h
      exact st.keyed id t h

@[simp] theorem State.get_upsertSession : (st.upsertSession s).get s.id = some s :=
  AList.lookup_insert _

theorem State.get_upsertSession_of (h : s.id = id) : (st.upsertSession s).get id = some s := by
  subst h
  exact State.get_upsertSession

/-- Puts a record in without telling the app: what a scan does with a session
that has ended. -/
def State.insertSession (st : State) (s : Session) : State where
  sessions := st.sessions.insert s.id s
  seq := st.seq
  sent := st.sent
  keyed := (st.upsertSession s).keyed

theorem State.get_insertSession_of (h : s.id = id) : (st.insertSession s).get id = some s := by
  subst h
  exact AList.lookup_insert _

/-! ## The reader's fold -/

/-- A stand-in for an event that arrives before the daemon has the session. -/
def placeholder (id : SessionId) : Session where
  id := id
  projectId := 0
  harness := ""
  workspace := ""
  kind := .agent
  state := .running
  createdAt := ""
  startedAt := none
  finishedAt := none
  pid := none
  clients := 0
  resumedFrom := none
  label := none
  title := none
  sandbox := {}

/-- The record of a session, or its stand-in. -/
def State.getOr (st : State) (id : SessionId) : Session := (st.get id).getD (placeholder id)

/-- **What the control reader does with an event**: reads the record, folds
the event and puts it back, under the lock. -/
def State.onEvent (st : State) (id : SessionId) (ev : SessionEvent) : State :=
  st.upsertSession (applyEvent (st.getOr id) ev)

theorem State.getOr_id : (st.getOr id).id = id := by
  unfold State.getOr
  cases h : st.get id with
  | none => rfl
  | some s => exact State.get_id h

theorem State.get_onEvent : (st.onEvent id ev).get id = some (applyEvent (st.getOr id) ev) :=
  State.get_upsertSession_of (applyEvent_id.trans State.getOr_id)

@[simp] theorem State.getOr_onEvent :
    (st.onEvent id ev).getOr id = applyEvent (st.getOr id) ev := by
  rw [State.getOr, State.get_onEvent, Option.getD_some]

end Sessions
end Willie
