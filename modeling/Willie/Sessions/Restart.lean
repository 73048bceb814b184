import Willie.Sessions.Moves

/-!
# Sessions — a restart changes nothing

While the daemon has a record of a session, the record and what is still on
its way to it are what the log says. When nothing is on its way, the record is
what a restarted daemon would read.
-/

namespace Willie
namespace Sessions

variable {spec : SessionSpec} {s t rec : Session} {ev : SessionEvent}
variable {sup sup' : Supervisor} {link link' : Link} {w w' : World} {act : Act} {acts : List Act}

/-! ## The law -/

/-- Nobody has anything to do: the supervisor has sent what it appended, the
daemon has read what it was sent, and none of its threads can move. -/
structure World.Quiescent (w : World) : Prop where
  main : w.daemon.main = .done
  sent : w.sup.inflight = []
  read : w.link.frames = []
  attached : w.daemon.reader = .reading → w.link.conn ≠ .shut
  joining : w.daemon.finaliser = .joining → w.daemon.reader = .reading
  probing : w.daemon.finaliser ≠ .probing

/-- **The record says what the log says.** -/
def World.Faithful (spec : SessionSpec) (w : World) : Prop :=
  ∀ s, w.daemon.state.get spec.id = some s → s.Agrees (w.sup.told spec)

/-! ## What holds between the steps -/

/-- The thread that creates or scans is the only one. -/
def Daemon.Alone (d : Daemon) : Prop := d.reader = .idle ∧ d.finaliser = .idle

/-- The session is watched, and its connection owes what the log says. -/
def World.Watched (spec : SessionSpec) (w : World) : Prop :=
  w.daemon.reader = .reading ∧ w.daemon.finaliser = .joining ∧
    ∃ rec, w.daemon.state.get spec.id = some rec ∧ Linked spec w.sup w.link rec

/-- The session is not watched any more: there is no record, or it says what
the log says, or its supervisor is gone and its finaliser will look. -/
def World.Left (spec : SessionSpec) (w : World) : Prop :=
  w.daemon.reader ≠ .reading ∧ w.link = {} ∧
    ((w.daemon.finaliser = .idle ∧ w.daemon.state.get spec.id = none) ∨
      ∃ rec, w.daemon.state.get spec.id = some rec ∧
        (Held spec w.sup rec ∨
          w.sup.stage = .gone ∧ (w.daemon.finaliser = .probing ∨
            w.daemon.finaliser = .joining ∧ Lost spec w.sup rec [])))

/-- **What every step keeps**, by where the daemon's main thread is. -/
def Synced (spec : SessionSpec) (w : World) : Prop :=
  match w.daemon.main with
  | .create | .spawn | .waiting => w.link = {} ∧ w.daemon.Alone
  | .scan => w.link = {} ∧ w.daemon.Alone ∧ w.daemon.state.get spec.id = none
  | .probe s => w.link = {} ∧ w.daemon.Alone ∧ w.daemon.state.get spec.id = none ∧
      s = w.sup.told spec
  | .watch => w.link = {} ∧ w.daemon.Alone ∧
      ∃ rec, w.daemon.state.get spec.id = some rec ∧ Held spec w.sup rec
  | .threads => w.daemon.Alone ∧
      ∃ rec, w.daemon.state.get spec.id = some rec ∧ Linked spec w.sup w.link rec
  | .done => w.Watched spec ∨ w.Left spec

/-! ## The supervisor's steps -/

/-- There is nothing to send to, to break or to shut. -/
theorem Supervisor.step_unlinked {a : SupAct} (h : sup.step link a = some (sup', link'))
    (hnone : link.conn = .none) : link' = link := by
  have hhang (kept : Nat) : link.hang kept = link := if_pos hnone
  cases a with
    simp only [Supervisor.step, hhang, hnone, Option.ite_none_right_eq_some,
      Option.ite_none_left_eq_some, Option.map_eq_some_iff, not_or, Option.some.injEq,
      Prod.mk.injEq, reduceCtorEq, if_false] at h
  | report =>
    split at h
    · exact (Prod.mk.inj (Option.some.inj h)).2.symm
    · cases h
  | fanOut i fits =>
    obtain ⟨ev, -, -, rfl⟩ := h
    rfl
  | lose kept => exact absurd trivial h.1.1
  | _ =>
    obtain ⟨-, -, rfl⟩ := h
    rfl

/-- A supervisor's step keeps a session that is not watched. -/
theorem World.Left.step_sup (h : w.Left spec) (hmoves : Moves spec w.sup w.link sup' link') :
    World.Left spec { w with sup := sup', link := link' } := by
  obtain ⟨hreader, hlink, h⟩ := h
  have hnone : w.link.conn = .none := by rw [hlink]
  obtain ⟨rfl, told, gone⟩ := hmoves.unlinked hnone
  refine ⟨hreader, hlink, ?_⟩
  rcases h with hnone' | ⟨rec, hget, hheld | ⟨hgone, hfin⟩⟩
  · exact .inl hnone'
  · exact .inr ⟨rec, hget, .inl (hheld.congr told)⟩
  · exact .inr ⟨rec, hget, .inr ⟨gone hgone, hfin.imp id (·.imp id (·.congr told gone))⟩⟩

theorem Synced.step_sup {a : SupAct} (h : Synced spec w) (hok : Keeps spec w (.sup a))
    (hstep : w.sup.step w.link a = some (sup', link')) :
    Synced spec { w with sup := sup', link := link' } := by
  have hunlinked : w.link = {} → link' = {} := by
    intro hlink
    rw [Supervisor.step_unlinked hstep (by rw [hlink]), hlink]
  cases hmain : w.daemon.main with
  -- the daemon holds nothing yet that the supervisor could contradict
  | create | spawn | waiting | scan =>
    simp only [Synced, hmain] at h ⊢
    exact ⟨hunlinked h.1, h.2⟩
  | probe s =>
    have hmoves := Supervisor.step_moves (by simp [hmain, Main.loaded]) hok hstep
    simp only [Synced, hmain] at h ⊢
    obtain ⟨hlink, halone, hget, rfl⟩ := h
    obtain ⟨-, told, -⟩ := hmoves.unlinked (by rw [hlink])
    exact ⟨hunlinked hlink, halone, hget, told.symm⟩
  | watch =>
    have hmoves := Supervisor.step_moves (by simp [hmain, Main.loaded]) hok hstep
    simp only [Synced, hmain] at h ⊢
    obtain ⟨hlink, halone, rec, hget, hheld⟩ := h
    obtain ⟨-, told, -⟩ := hmoves.unlinked (by rw [hlink])
    exact ⟨hunlinked hlink, halone, rec, hget, hheld.congr told⟩
  | threads =>
    have hmoves := Supervisor.step_moves (by simp [hmain, Main.loaded]) hok hstep
    simp only [Synced, hmain] at h ⊢
    obtain ⟨halone, rec, hget, hlinked⟩ := h
    exact ⟨halone, rec, hget, hlinked.moves hmoves⟩
  | done =>
    have hmoves := Supervisor.step_moves (by simp [hmain, Main.loaded]) hok hstep
    simp only [Synced, hmain] at h ⊢
    rcases h with ⟨hreader, hfin, rec, hget, hlinked⟩ | hleft
    · exact .inl ⟨hreader, hfin, rec, hget, hlinked.moves hmoves⟩
    · exact .inr (hleft.step_sup hmoves)

/-! ## What the daemon's steps keep -/

/-- **Two records of one spec**, one of which says nothing else, agree exactly
if the other says this and nothing else. -/
theorem Session.Plain.agrees_iff {state : SessionState} {pid : Option Nat} (h : s.Plain state pid)
    (horigin : s.origin = t.origin) : s.Agrees t ↔ t.Plain state pid := by
  obtain ⟨hstate, hpid, hclients, hlabel, hsandbox⟩ := h
  simp only [Session.origin, Prod.mk.injEq] at horigin
  obtain ⟨hid, hproject, hharness, hworkspace, hkind, hcreated, hresumed⟩ := horigin
  constructor
  · intro hagrees
    simp only [Session.Agrees, Session.bare, Session.mk.injEq] at hagrees
    obtain ⟨-, -, -, -, -, hs, -, -, -, hp, hc, -, hl, -, hb⟩ := hagrees
    exact ⟨hs ▸ hstate, hp ▸ hpid, hc ▸ hclients, hl ▸ hlabel, hb ▸ hsandbox⟩
  · rintro ⟨hs, hp, hc, hl, hb⟩
    simp [Session.Agrees, Session.bare, *]

theorem told_origin : (sup.told spec).origin = (Session.new spec).origin :=
  foldl_origin

/-- **What `create` folds agrees with the log** exactly if it is all the log
says: a session whose log has a sandbox report never does. -/
theorem agrees_created_iff {state : SessionState} {pid : Option Nat}
    (hrec : (applyEvent (fromLog spec []) ev).Plain state pid) :
    (applyEvent (fromLog spec []) ev).Agrees (sup.told spec) ↔
      (sup.told spec).Plain state pid :=
  hrec.agrees_iff (applyEvent_origin.trans told_origin.symm)

/-- **A failed `create` is held** if the log says that it failed so. -/
theorem held_failed {at_ code text : String}
    (h : (sup.told spec).Plain (.failed code text (remediationFor code)) none) :
    Held spec sup (applyEvent (fromLog spec []) ⟨at_, .failed code text⟩) :=
  (agrees_created_iff ⟨rfl, rfl, rfl, rfl, rfl⟩).mpr h

/-- A record that is held is left behind when the main thread is done. -/
theorem Synced.left (hmain : w.daemon.main = .done) (hlink : w.link = {}) (halone : w.daemon.Alone)
    (hget : w.daemon.state.get spec.id = some rec) (hheld : Held spec w.sup rec) :
    Synced spec w := by
  simp only [Synced, hmain]
  exact .inr ⟨by rw [halone.1]; decide, hlink, .inr ⟨rec, hget, .inl hheld⟩⟩

/-- The event that is read is folded, and owed no more. -/
theorem Linked.read (h : Linked spec sup link rec) (hframes : link.frames = .event ev :: fs) :
    Linked spec sup { link with frames := fs } (applyEvent rec ev) := by
  rcases h.conn with hconn | hconn | hconn
  · rw [Linked.opened hconn, hframes] at h
    exact absurd h.1 (List.cons_ne_nil _ _)
  · rw [Linked.registered hconn, hframes] at h
    obtain ⟨hopen, howed, hexited⟩ := h
    have hclient : ({ link with frames := fs } : Link).conn = .registered := hconn
    rw [Linked.registered hclient]
    exact ⟨fun hmem => hopen (List.mem_cons_of_mem _ hmem), howed, hexited⟩
  · rw [Linked.shut hconn, hframes] at h
    have hshut : ({ link with frames := fs } : Link).conn = .shut := hconn
    rw [Linked.shut hshut]
    exact h

/-- Nothing is owed after the end of the connection. -/
theorem Linked.closed (h : Linked spec sup link rec) (hframes : link.frames = .closed :: fs) :
    Held spec sup rec ∨ Lost spec sup rec [] := by
  rcases h.conn with hconn | hconn | hconn
  · rw [Linked.opened hconn, hframes] at h
    exact absurd h.1 (List.cons_ne_nil _ _)
  · rw [Linked.registered hconn, hframes] at h
    exact absurd List.mem_cons_self h.1
  · rw [Linked.shut hconn, hframes] at h
    exact h

/-- **A connection that breaks** owes nothing, or its supervisor is gone. -/
theorem Linked.broken (h : Linked spec sup link rec)
    (hok : sup.stage = .gone ∨
      owed link.frames = [] ∧ (link.conn = .registered → sup.inflight = [])) :
    Held spec sup rec ∨ Lost spec sup rec [] := by
  rcases h.conn with hconn | hconn | hconn
  · rw [Linked.opened hconn] at h
    exact .inl h.2
  · rw [Linked.registered hconn] at h
    rcases hok with hgone | ⟨howed, hsent⟩
    · exact .inr ⟨hgone, _, h.2.1⟩
    · refine .inl ?_
      simpa [Held, howed, hsent hconn] using h.2.1
  · rw [Linked.shut hconn] at h
    rcases h with hheld | ⟨hgone, lost, hlost⟩
    · rcases hok with hgone | ⟨howed, -⟩
      · exact .inr ⟨hgone, owed link.frames, hheld⟩
      · rw [howed] at hheld
        exact .inl hheld
    · exact .inr ⟨hgone, owed link.frames ++ lost, hlost⟩

/-- **A session that has ended in memory has lost nothing.** -/
theorem Lost.held (h : Lost spec sup rec []) (hend : rec.state.isTerminal = true) :
    Held spec sup rec := by
  obtain ⟨-, lost, hlost⟩ := h
  rw [foldl_terminal hend] at hlost
  exact hlost

/-- **Finalising puts in what the log says**, if it has ended. -/
theorem get_finaliseLost {st : State} {at_ : String}
    (hend : (sup.told spec).state.isTerminal = true) :
    (finaliseLost spec sup.log true at_ st).get spec.id = some (sup.told spec) := by
  have hlog : (fromLog spec sup.log).state.isTerminal = true := hend
  simp only [finaliseLost, if_true, hlog]
  exact State.get_upsertSession_of fromLog_id

/-- The reader and the finaliser run only when the main thread is done. -/
theorem Synced.of_threads (h : Synced spec w)
    (hrun : w.daemon.reader = .reading ∨ w.daemon.finaliser ≠ .idle) :
    w.daemon.main = .done ∧ (w.Watched spec ∨ w.Left spec) := by
  have halone : ¬ w.daemon.Alone := by
    rintro ⟨hreader, hfin⟩
    simp [hreader, hfin] at hrun
  cases hmain : w.daemon.main with
  | done => exact ⟨rfl, by simpa only [Synced, hmain] using h⟩
  | threads =>
    simp only [Synced, hmain] at h
    exact absurd h.1 halone
  | create | spawn | waiting =>
    simp only [Synced, hmain] at h
    exact absurd h.2 halone
  | scan | probe | watch =>
    simp only [Synced, hmain] at h
    exact absurd h.2.1 halone

/-- A daemon that is done, with one of its threads moved on. -/
theorem Synced.done (hmain : w.daemon.main = .done) (h : w.Watched spec ∨ w.Left spec) :
    Synced spec w := by
  simpa only [Synced, hmain] using h

/-- What the reader does. -/
theorem Synced.read (h : Synced spec w) (hstep : w.daemonStep spec .read = some w') :
    Synced spec w' := by
  simp only [World.daemonStep, Option.ite_none_right_eq_some] at hstep
  obtain ⟨hreading, hstep⟩ := hstep
  obtain ⟨hmain, h⟩ := h.of_threads (.inl hreading)
  obtain ⟨-, hfin, rec, hget, hlinked⟩ := h.resolve_right fun hleft => hleft.1 hreading
  split at hstep
  · rename_i ev fs hframes
    obtain rfl := Option.some.inj hstep
    refine .done hmain (.inl ⟨hreading, hfin, applyEvent rec ev, ?_, hlinked.read hframes⟩)
    rw [State.get_onEvent, State.getOr, hget, Option.getD_some]
  · rename_i fs hframes
    obtain rfl := Option.some.inj hstep
    refine .done hmain (.inr ⟨by simp, rfl, .inr ⟨rec, hget, ?_⟩⟩)
    rcases hlinked.closed hframes with hheld | hlost
    · exact .inl hheld
    · exact .inr ⟨hlost.1, .inr ⟨hfin, hlost⟩⟩
  · cases hstep

theorem Synced.hangUp (h : Synced spec w) (hok : Keeps spec w (.daemon .hangUp))
    (hstep : w.daemonStep spec .hangUp = some w') : Synced spec w' := by
  simp only [World.daemonStep, Option.ite_none_right_eq_some, Option.some.injEq] at hstep
  obtain ⟨hreading, rfl⟩ := hstep
  obtain ⟨hmain, h⟩ := h.of_threads (.inl hreading)
  obtain ⟨-, hfin, rec, hget, hlinked⟩ := h.resolve_right fun hleft => hleft.1 hreading
  refine .done hmain (.inr ⟨by simp, rfl, .inr ⟨rec, hget, ?_⟩⟩)
  rcases hlinked.broken hok with hheld | hlost
  · exact .inl hheld
  · exact .inr ⟨hlost.1, .inr ⟨hfin, hlost⟩⟩

/-- What the finaliser does when the reader has ended: a session that has not
ended is looked for. -/
theorem Synced.join (h : Synced spec w) (hstep : w.daemonStep spec .join = some w') :
    Synced spec w' := by
  simp only [World.daemonStep, Option.ite_none_right_eq_some, Option.some.injEq] at hstep
  obtain ⟨⟨hjoining, hreader⟩, rfl⟩ := hstep
  obtain ⟨hmain, h⟩ := h.of_threads (.inr (by simp [hjoining]))
  obtain ⟨-, hlink, h⟩ := h.resolve_left fun hwatched => hreader hwatched.1
  refine .done hmain (.inr ⟨hreader, hlink, ?_⟩)
  rcases h with ⟨hidle, -⟩ | ⟨rec, hget, hheld | ⟨hgone, hprobing | ⟨-, hlost⟩⟩⟩
  · rw [hjoining] at hidle
    cases hidle
  · exact .inr ⟨rec, hget, .inl hheld⟩
  · rw [hjoining] at hprobing
    cases hprobing
  · refine .inr ⟨rec, hget, ?_⟩
    by_cases hend : rec.state.isTerminal = true
    · exact .inl (hlost.held hend)
    · exact .inr ⟨hgone, .inl (by simp [hget, hend])⟩

/-- A session that nobody answers for becomes what its log says. -/
theorem Synced.finalise {answers found : Bool} {at_ : String} (h : Synced spec w)
    (hok : Keeps spec w (.daemon (.finalise answers found at_)))
    (hstep : w.daemonStep spec (.finalise answers found at_) = some w') : Synced spec w' := by
  simp only [World.daemonStep, Option.ite_none_right_eq_some] at hstep
  obtain ⟨hprobing, hstep⟩ := hstep
  obtain ⟨hmain, h⟩ := h.of_threads (.inr (by simp [hprobing]))
  obtain ⟨hreader, hlink, h⟩ := h.resolve_left fun hwatched => by
    have hjoining := hwatched.2.1
    rw [hprobing] at hjoining
    cases hjoining
  cases answers with
  | true =>
    simp only [if_true, Option.ite_none_right_eq_some, Option.some.injEq] at hstep
    -- a supervisor that answers is not gone, so nothing was lost
    obtain ⟨hanswers, rfl⟩ := hstep
    refine .done hmain (.inr ⟨hreader, hlink, ?_⟩)
    rcases h with ⟨hidle, -⟩ | ⟨rec, hget, hheld | ⟨hgone, -⟩⟩
    · rw [hprobing] at hidle
      cases hidle
    · exact .inr ⟨rec, hget, .inl hheld⟩
    · rw [hgone] at hanswers
      cases hanswers
  | false =>
    simp only [Bool.false_eq_true, if_false, Option.some.injEq] at hstep
    obtain rfl := hstep
    obtain ⟨rfl, hend⟩ := hok rfl
    exact .done hmain (.inr ⟨hreader, hlink,
      .inr ⟨w.sup.told spec, get_finaliseLost hend, .inl (.refl _)⟩⟩)

/-- What `create` does when it is told whether the session runs. -/
theorem Synced.answer {at_ : String} (h : Synced spec w)
    (hok : Keeps spec w (.daemon (.answer at_)))
    (hstep : w.daemonStep spec (.answer at_) = some w') : Synced spec w' := by
  simp only [World.daemonStep, Option.ite_none_right_eq_some, Option.some.injEq] at hstep
  obtain ⟨⟨hmain, -⟩, rfl⟩ := hstep
  simp only [Synced, hmain] at h
  obtain ⟨hlink, halone⟩ := h
  simp only [Keeps] at hok
  cases hready : readiness w.sup.reply w.sup.logFile with
  | ok pid =>
    simp only [hready] at hok
    refine ⟨hlink, halone, _, State.get_upsertSession_of ?_, ?_⟩
    · exact applyEvent_id.trans fromLog_id
    · exact (agrees_created_iff ⟨rfl, rfl, rfl, rfl, rfl⟩).mpr hok
  | fail code text =>
    simp only [hready] at hok
    refine .left rfl hlink halone (State.get_upsertSession_of ?_) (held_failed hok)
    exact applyEvent_id.trans fromLog_id

theorem Synced.launcherFails {at_ : String} {line : Text} (h : Synced spec w)
    (hok : Keeps spec w (.daemon (.launcherFails at_ line)))
    (hstep : w.daemonStep spec (.launcherFails at_ line) = some w') : Synced spec w' := by
  simp only [World.daemonStep, Option.ite_none_right_eq_some] at hstep
  obtain ⟨hmain, hstep⟩ := hstep
  simp only [Synced, hmain] at h
  simp only [Keeps] at hok
  split at hstep
  · cases hstep
  · rename_i code text hready
    obtain rfl := Option.some.inj hstep
    simp only [hready] at hok
    refine .left rfl h.1 h.2 (State.get_upsertSession_of ?_) (held_failed hok)
    exact applyEvent_id.trans fromLog_id

/-- What a scan does with a session it has read. -/
theorem Synced.probe {answers found : Bool} {at_ : String} (h : Synced spec w)
    (hok : Keeps spec w (.daemon (.probe answers found at_)))
    (hstep : w.daemonStep spec (.probe answers found at_) = some w') : Synced spec w' := by
  simp only [World.daemonStep] at hstep
  split at hstep
  case h_2 => cases hstep
  case h_1 s hmain =>
  simp only [Synced, hmain] at h
  obtain ⟨hlink, halone, hget, rfl⟩ := h
  cases answers with
  | true =>
    simp only [if_true, Option.ite_none_right_eq_some, Option.some.injEq] at hstep
    obtain ⟨-, rfl⟩ := hstep
    obtain ⟨hstate, hpid, hclients⟩ := hok
    -- the status says what the log says
    have hadopt : adopt (w.sup.told spec) (statusOf w.sup) = w.sup.told spec := by
      simp only [adopt, statusOf, ← hstate, ← hpid, ← hclients]
    refine ⟨hlink, halone, w.sup.told spec, ?_, .refl _⟩
    rw [hadopt]
    exact State.get_upsertSession_of fromLog_id
  | false =>
    simp only [Bool.false_eq_true, if_false, Option.some.injEq] at hstep
    obtain rfl := hstep
    cases found with
    | true =>
      have hend := hok rfl
      exact .left rfl hlink halone (get_finaliseLost hend) (.refl _)
    | false => exact .done rfl (.inr ⟨by simp [halone.1], hlink, .inl ⟨halone.2, hget⟩⟩)

/-- **A step of the daemon keeps memory and log together.** -/
theorem Synced.daemonStep {a : DaemonAct} (h : Synced spec w) (hok : Keeps spec w (.daemon a))
    (hstep : w.daemonStep spec a = some w') : Synced spec w' := by
  cases a with
  | create =>
    simp only [World.daemonStep, Option.ite_none_right_eq_some, Option.some.injEq] at hstep
    obtain ⟨hmain, rfl⟩ := hstep
    simp only [Synced, hmain] at h
    exact h
  | launch =>
    simp only [World.daemonStep, Option.ite_none_right_eq_some, Option.some.injEq] at hstep
    obtain ⟨⟨hmain, -⟩, rfl⟩ := hstep
    simp only [Synced, hmain] at h
    exact h
  | spawnFails at_ message =>
    simp only [World.daemonStep, Option.ite_none_right_eq_some, Option.some.injEq] at hstep
    obtain ⟨hmain, rfl⟩ := hstep
    simp only [Synced, hmain] at h
    refine .left rfl h.1 h.2 (State.get_upsertSession_of ?_) (held_failed hok)
    exact applyEvent_id.trans fromLog_id
  | timeout at_ =>
    simp only [World.daemonStep, Option.ite_none_right_eq_some, Option.some.injEq] at hstep
    obtain ⟨hmain, rfl⟩ := hstep
    simp only [Synced, hmain] at h
    refine .left rfl h.1 h.2 (State.get_upsertSession_of ?_) (held_failed hok)
    exact applyEvent_id.trans fromLog_id
  | answer at_ => exact h.answer hok hstep
  | launcherFails at_ line => exact h.launcherFails hok hstep
  | connect ok =>
    simp only [World.daemonStep, Option.ite_none_right_eq_some] at hstep
    obtain ⟨hmain, hstep⟩ := hstep
    simp only [Synced, hmain] at h
    obtain ⟨hlink, halone, rec, hget, hheld⟩ := h
    split at hstep
    · simp only [Option.ite_none_right_eq_some, Option.some.injEq] at hstep
      obtain ⟨-, rfl⟩ := hstep
      exact ⟨halone, rec, hget, (Linked.opened rfl).mpr ⟨rfl, hheld⟩⟩
    · obtain rfl := Option.some.inj hstep
      exact .left rfl hlink halone hget hheld
  | threads reader finaliser =>
    simp only [World.daemonStep, Option.ite_none_right_eq_some, Option.some.injEq] at hstep
    obtain ⟨hmain, rfl⟩ := hstep
    simp only [Synced, hmain] at h
    obtain ⟨rfl, rfl⟩ := hok
    exact .done rfl (.inl ⟨rfl, rfl, h.2⟩)
  | load readable =>
    simp only [World.daemonStep, Option.ite_none_right_eq_some] at hstep
    obtain ⟨hmain, hstep⟩ := hstep
    simp only [Synced, hmain] at h
    obtain ⟨hlink, halone, hget⟩ := h
    cases readable with
    | false =>
      obtain rfl := Option.some.inj hstep
      exact .done rfl (.inr ⟨by simp [halone.1], hlink, .inl ⟨halone.2, hget⟩⟩)
    | true =>
      simp only [if_true] at hstep
      split at hstep
      · obtain rfl := Option.some.inj hstep
        exact .left rfl hlink halone (State.get_insertSession_of fromLog_id) (.refl _)
      · obtain rfl := Option.some.inj hstep
        exact ⟨hlink, halone, hget, rfl⟩
  | probe answers found at_ => exact h.probe hok hstep
  | read => exact h.read hstep
  | hangUp => exact h.hangUp hok hstep
  | join => exact h.join hstep
  | finalise answers found at_ => exact h.finalise hok hstep
  | restart =>
    obtain rfl := Option.some.inj hstep
    exact ⟨rfl, ⟨rfl, rfl⟩, rfl⟩

theorem Synced.step {a : Act} (h : Synced spec w) (hok : Keeps spec w a)
    (hstep : w.step spec a = some w') : Synced spec w' := by
  cases a with
  | daemon act => exact h.daemonStep hok hstep
  | sup act =>
    obtain ⟨⟨sup', link'⟩, hsup, rfl⟩ := Option.map_eq_some_iff.mp hstep
    exact h.step_sup hok hsup

/-! ## What a run keeps -/

theorem Synced.fresh (h : w.Fresh) : Synced spec w := by
  obtain ⟨hlink, ⟨st, hdaemon⟩ | hdaemon⟩ := h
  · simp only [Synced, hdaemon, Daemon.creating]
    exact ⟨hlink, rfl, rfl⟩
  · simp only [Synced, hdaemon, Daemon.restarted]
    exact ⟨hlink, ⟨rfl, rfl⟩, rfl⟩

/-- **What is quiet is faithful**: nothing is owed any more. -/
theorem Synced.faithful (h : Synced spec w) (hq : w.Quiescent) : w.Faithful spec := by
  simp only [Synced, hq.main] at h
  intro s hs
  rcases h with ⟨hreading, -, rec, hget, hlinked⟩ | ⟨hreader, -, hleft⟩
  · -- what is registered owes its frames and what is to be sent: nothing
    obtain rfl : rec = s := Option.some.inj (hget.symm.trans hs)
    rcases hlinked.conn with hconn | hconn | hconn
    · rw [Linked.opened hconn] at hlinked
      exact hlinked.2
    · rw [Linked.registered hconn] at hlinked
      simpa [hq.read, hq.sent, owed] using hlinked.2.1
    · exact absurd hconn (hq.attached hreading)
  · rcases hleft with ⟨-, hnone⟩ | ⟨rec, hget, hheld | ⟨-, hprobing | ⟨hjoining, -⟩⟩⟩
    · rw [hnone] at hs
      cases hs
    · obtain rfl : rec = s := Option.some.inj (hget.symm.trans hs)
      exact hheld
    · exact absurd hprobing hq.probing
    · exact absurd (hq.joining hjoining) hreader

/-- The steps with which `create` ends: it folds one outcome. -/
def DaemonAct.endsCreate : DaemonAct → Bool
  | .spawnFails .. | .timeout _ | .answer _ | .launcherFails .. => true
  | _ => false

/-- A daemon that has folded one outcome says what the log says exactly if that
is all the log says. -/
theorem faithful_iff_plain {st : State} {state : SessionState} {pid : Option Nat}
    (hrec : (applyEvent (fromLog spec []) ev).Plain state pid)
    (hstate : w.daemon.state = st.upsertSession (applyEvent (fromLog spec []) ev)) :
    w.Faithful spec ↔ (w.sup.told spec).Plain state pid := by
  have hget : w.daemon.state.get spec.id = some (applyEvent (fromLog spec []) ev) := by
    rw [hstate]
    exact State.get_upsertSession_of (applyEvent_id.trans fromLog_id)
  rw [← agrees_created_iff hrec]
  constructor
  · intro hfaithful
    exact hfaithful _ hget
  · intro hagrees s hs
    obtain rfl := Option.some.inj (hget.symm.trans hs)
    exact hagrees

/-- **What is asked of `create` is exact**: the outcome it folds agrees with the
log exactly if that step keeps memory and log together. -/
theorem created_faithful_iff {a : DaemonAct} (ha : a.endsCreate = true)
    (hstep : w.daemonStep spec a = some w') : w'.Faithful spec ↔ Keeps spec w (.daemon a) := by
  cases a with
  | spawnFails at_ message =>
    simp only [World.daemonStep, Option.ite_none_right_eq_some, Option.some.injEq] at hstep
    obtain ⟨-, rfl⟩ := hstep
    exact faithful_iff_plain ⟨rfl, rfl, rfl, rfl, rfl⟩ rfl
  | timeout at_ =>
    simp only [World.daemonStep, Option.ite_none_right_eq_some, Option.some.injEq] at hstep
    obtain ⟨-, rfl⟩ := hstep
    exact faithful_iff_plain ⟨rfl, rfl, rfl, rfl, rfl⟩ rfl
  | answer at_ =>
    simp only [World.daemonStep, Option.ite_none_right_eq_some, Option.some.injEq] at hstep
    obtain ⟨-, rfl⟩ := hstep
    simp only [Keeps]
    cases hready : readiness w.sup.reply w.sup.logFile with
    | ok pid => exact faithful_iff_plain ⟨rfl, rfl, rfl, rfl, rfl⟩ rfl
    | fail code text => exact faithful_iff_plain ⟨rfl, rfl, rfl, rfl, rfl⟩ rfl
  | launcherFails at_ line =>
    simp only [World.daemonStep, Option.ite_none_right_eq_some] at hstep
    obtain ⟨-, hstep⟩ := hstep
    simp only [Keeps]
    cases hready : parseReady (firstLine line) with
    | ok pid =>
      rw [hready] at hstep
      cases hstep
    | fail code text =>
      rw [hready] at hstep
      obtain rfl := Option.some.inj hstep
      exact faithful_iff_plain ⟨rfl, rfl, rfl, rfl, rfl⟩ rfl
  | _ => cases ha

/-- **A restart changes nothing** after a run that keeps memory and log
together: whenever nothing is on its way, the record is what a restarted
daemon would read. Of the steps that end `create` no less can be asked: right
after such a step the record is what the log says exactly if the step keeps
them together. -/
theorem restart_equivalence (hfresh : w.Fresh)
    (hok : Runs.Guarded (World.step spec) (Keeps spec) w acts)
    (hrun : Runs.exec (World.step spec) w acts = some w') :
    (w'.Quiescent → w'.Faithful spec) ∧
      ∀ a w'', a.endsCreate = true → w'.step spec (.daemon a) = some w'' →
        (w''.Faithful spec ↔ Keeps spec w' (.daemon a)) := by
  have hsynced : Synced spec w' :=
    Runs.exec_invariant hrun hok (Synced.fresh hfresh) fun _ _ _ h hok hstep => h.step hok hstep
  exact ⟨hsynced.faithful, fun _ _ ha hstep => created_faithful_iff ha hstep⟩

/-! ## Two runs -/

instance : Decidable (Silenced s evs) :=
  inferInstanceAs (Decidable (∀ ev ∈ evs, applyEvent s ev = s))

instance : Decidable (sup.Silent spec ev) :=
  inferInstanceAs (Decidable (applyEvent (sup.told spec) ev = sup.told spec))

instance (state : SessionState) (pid : Option Nat) : Decidable (s.Plain state pid) :=
  inferInstanceAs (Decidable
    (s.state = state ∧ s.pid = pid ∧ s.clients = 0 ∧ s.label = none ∧ s.sandbox = {}))

instance (spec : SessionSpec) (w : World) (act : Act) : Decidable (Keeps spec w act) := by
  unfold Keeps
  split
  case h_11 | h_12 => split <;> infer_instance
  all_goals infer_instance

/-- A daemon that was restarted while its session runs. -/
def restartedWorld : World where
  sup := {
    stage := .serving
    pid := 7
    logFile := "/var/lib/willie/sessions/1/supervisor.log"
    log := [⟨"1", .created⟩, ⟨"1", .sandboxApplied required ["landlock"]⟩, ⟨"1", .started 7⟩] }
  link := {}
  daemon := .restarted

/-- It adopts the session; a terminal attaches, and the harness exits. -/
def adopted : List Act :=
  [.daemon (.load true), .daemon (.probe true true "9"), .daemon (.connect true), .sup .register,
    .daemon (.threads true true), .sup .attach, .sup (.note "9" (.attached 1) true),
    .sup (.fanOut 0 true), .daemon .read, .sup .ending, .sup (.exited "10" (some 0) none true),
    .sup (.fanOut 0 true), .daemon .read, .sup .close, .daemon .read, .daemon .join]

instance (w : World) : Decidable w.Quiescent :=
  decidable_of_iff (w.daemon.main = .done ∧ w.sup.inflight = [] ∧ w.link.frames = [] ∧
      (w.daemon.reader = .reading → w.link.conn ≠ .shut) ∧
      (w.daemon.finaliser = .joining → w.daemon.reader = .reading) ∧
      w.daemon.finaliser ≠ .probing)
    ⟨fun ⟨main, sent, read, attached, joining, probing⟩ =>
      ⟨main, sent, read, attached, joining, probing⟩,
      fun h => ⟨h.main, h.sent, h.read, h.attached, h.joining, h.probing⟩⟩

/-- A session that is created and refused, and read again after a restart. -/
def refused : List Act :=
  [.daemon .create, .daemon .launch, .sup (.created "1" true),
    .sup (.refuse "1" "sandbox_unavailable" "no user namespaces" true), .sup .report,
    .daemon (.answer "2"), .daemon .restart, .daemon (.load true)]

/-- An adopted session is what its log says when it has ended; so is a refused
one, before a restart and after it. -/
theorem restart_equivalence_both :
    (∃ w, Runs.exec (World.step claudeSpec) restartedWorld adopted = some w ∧ w.Quiescent ∧
      w.Faithful claudeSpec) ∧
    ∀ n ∈ [6, 8], ∃ w, Runs.exec (World.step claudeSpec) createWorld (refused.take n) = some w ∧
      w.Quiescent ∧ (w.daemon.state.get claudeSpec.id).isSome = true ∧ w.Faithful claudeSpec := by
  constructor
  · have hrun : (Runs.exec (World.step claudeSpec) restartedWorld adopted).any
        (fun w => w.Quiescent) = true := by decide
    obtain ⟨w, hw, hquiet⟩ := (Option.any_eq_true ..).mp hrun
    have hquiet : w.Quiescent := of_decide_eq_true hquiet
    have hfresh : restartedWorld.Fresh := ⟨rfl, .inr rfl⟩
    exact ⟨w, hw, hquiet, (restart_equivalence hfresh (by decide) hw).1 hquiet⟩
  · intro n hn
    have hok : Runs.Guarded (World.step claudeSpec) (Keeps claudeSpec) createWorld
        (refused.take n) := by
      rcases List.mem_pair.mp hn with rfl | rfl
      · decide
      · decide
    have hrun : (Runs.exec (World.step claudeSpec) createWorld (refused.take n)).any
        (fun w => w.Quiescent ∧ (w.daemon.state.get claudeSpec.id).isSome = true) = true := by
      rcases List.mem_pair.mp hn with rfl | rfl
      · decide
      · decide
    obtain ⟨w, hw, hend⟩ := (Option.any_eq_true ..).mp hrun
    obtain ⟨hquiet, hknown⟩ := of_decide_eq_true hend
    exact ⟨w, hw, hquiet, hknown, (restart_equivalence createWorld_fresh hok hw).1 hquiet⟩

/-- **A created session is not what its log says**: what the sandbox applied
is logged before a control client is registered, and `create` folds only the
start. -/
theorem created_without_sandbox : createWorld.Fresh ∧ ∃ w,
    Runs.exec (World.step claudeSpec) createWorld
      (announced ++ [.daemon (.connect true), .sup .register, .daemon (.threads true true)]) =
        some w ∧
      w.Quiescent ∧ (w.daemon.state.get claudeSpec.id).map (·.sandbox.applied) = some [] ∧
      (w.sup.told claudeSpec).sandbox.applied = required ∧ ¬ w.Faithful claudeSpec := by
  refine ⟨createWorld_fresh, ?_⟩
  have hrun : (Runs.exec (World.step claudeSpec) createWorld
      (announced ++ [.daemon (.connect true), .sup .register, .daemon (.threads true true)])).any
        (fun w => w.Quiescent ∧
          (w.daemon.state.get claudeSpec.id).map (·.sandbox.applied) = some [] ∧
          (w.sup.told claudeSpec).sandbox.applied = required) = true := by decide
  obtain ⟨w, hw, hend⟩ := (Option.any_eq_true ..).mp hrun
  obtain ⟨hquiet, hmemory, hlog⟩ := of_decide_eq_true hend
  refine ⟨w, hw, hquiet, hmemory, hlog, fun hfaithful => ?_⟩
  obtain ⟨s, hget, happlied⟩ := Option.map_eq_some_iff.mp hmemory
  rw [(hfaithful s hget).sandbox_eq, hlog] at happlied
  exact absurd happlied (by decide)

end Sessions
end Willie
