import Mathlib.Algebra.GroupWithZero.Nat
import Willie.Common.Absorb
import Willie.Sessions.Model

/-!
# Sessions — what the fold of a log keeps

A log may be torn, edited or repeated, so its events may come in any order.
Whatever it holds, the record folded from it is of one shape: it reads the
log as far as the first event that ends the session, and the fields that say
how the session stands agree with its state. The row of one thing refused is
what the log reports of it, added up.
-/

namespace Willie
namespace Sessions

variable {s : Session} {ev : SessionEvent} {evs : List SessionEvent} {spec : SessionSpec}
variable {cls name : String} {rows : List Denied}

/-- The log as far as the first event that ends the session. -/
def toEnd (evs : List SessionEvent) : List SessionEvent := Absorb.upTo (·.kind.isEnd) evs

theorem fold_ends {k : SessionEventKind} {at_ : String} (hs : s.state.isTerminal = false) :
    (k.fold s at_).state.isTerminal = k.isEnd := by
  cases k with
  | sandboxDegraded mechanism message =>
    simp only [SessionEventKind.fold]
    split <;> exact hs
  | stopRequested by_ =>
    simp only [SessionEventKind.fold]
    split
    · rfl
    · exact hs
  | started pid => rfl
  | exited code signal => rfl
  | failed code message => rfl
  | _ => exact hs

theorem absorbs : Absorb.Absorbs applyEvent (·.state.isTerminal) (·.kind.isEnd) where
  stays _ _ := applyEvent_terminal
  ends _ _ h := (applyEvent_open h).symm ▸ fold_ends h

/-- A log ends once: the record is folded from what comes before that. -/
theorem fromLog_toEnd : fromLog spec (toEnd evs) = fromLog spec evs :=
  absorbs.foldl_upTo rfl

theorem fromLog_terminal :
    (fromLog spec evs).state.isTerminal = evs.any (·.kind.isEnd) :=
  absorbs.done_foldl rfl

/-- What a new session has and every event passes on, the record of a log has
of the part it was folded from. -/
theorem fromLog_induction {P : List SessionEvent → Session → Prop} (start : P [] (Session.new spec))
    (next : ∀ evs s ev, s.state.isTerminal = false → P evs s →
      P (evs ++ [ev]) (ev.kind.fold s ev.at_)) : P (toEnd evs) (fromLog spec evs) :=
  absorbs.foldl_induction rfl start fun evs s ev hs hP =>
    (applyEvent_open hs).symm ▸ next evs s ev hs hP

/-! ## One row for each thing refused -/

/-- The thing a row counts. -/
def Denied.key (d : Denied) : String × String := (d.cls, d.name)

/-- The row of one thing. -/
def rowOf (cls name : String) (rows : List Denied) : Option Denied :=
  rows.find? fun d => d.key = (cls, name)

/-- A refusal counted in the row of its thing, or the row it opens. -/
def countIn (cls name : String) (row : Option Denied) (r : String × Nat) : Option Denied :=
  match row with
  | none => some ⟨cls, name, r.2, r.1, r.1⟩
  | some d => some { d with count := d.count + r.2, lastAt := r.1 }

/-- When and how many times an event says one thing was refused. -/
def SessionEvent.refusal (cls name : String) (ev : SessionEvent) : Option (String × Nat) :=
  match ev.kind with
  | .sandboxDenied c n count => if (c, n) = (cls, name) then some (ev.at_, count) else none
  | _ => none

/-- What a log reports of one thing. -/
def refusals (cls name : String) (evs : List SessionEvent) : List (String × Nat) :=
  evs.filterMap (·.refusal cls name)

theorem recordDenied_keys {at_ c n : String} {count : Nat} :
    (recordDenied rows at_ c n count).map Denied.key =
      if (c, n) ∈ rows.map Denied.key then rows.map Denied.key
      else rows.map Denied.key ++ [(c, n)] := by
  induction rows with
  | nil => rfl
  | cons d rest ih =>
    simp only [recordDenied]
    split
    · rename_i h
      have hkey : d.key = (c, n) := Prod.ext h.1 h.2
      simp [Denied.key, h]
    · rename_i h
      have hkey : (c, n) ≠ d.key := fun he =>
        h ⟨congrArg Prod.fst he.symm, congrArg Prod.snd he.symm⟩
      rw [List.map_cons, ih, List.map_cons]
      simp only [List.mem_cons, hkey, false_or]
      split <;> rfl

theorem recordDenied_nodup {at_ c n : String} {count : Nat}
    (h : (rows.map Denied.key).Nodup) :
    ((recordDenied rows at_ c n count).map Denied.key).Nodup := by
  rw [recordDenied_keys]
  split
  · exact h
  · rename_i hnew
    exact List.Nodup.append h (List.nodup_singleton _) (by simpa using hnew)

theorem rowOf_cons_self {d : Denied} (h : d.key = (cls, name)) :
    rowOf cls name (d :: rows) = some d := by
  simp [rowOf, h]

theorem rowOf_cons_ne {d : Denied} (h : d.key ≠ (cls, name)) :
    rowOf cls name (d :: rows) = rowOf cls name rows := by
  simp [rowOf, h]

/-- A refusal changes the row of its thing and no other. -/
theorem rowOf_recordDenied {at_ c n : String} {count : Nat} :
    rowOf cls name (recordDenied rows at_ c n count) =
      if (c, n) = (cls, name) then countIn cls name (rowOf cls name rows) (at_, count)
      else rowOf cls name rows := by
  induction rows with
  | nil =>
    by_cases h : (c, n) = (cls, name)
    · obtain ⟨rfl, rfl⟩ := Prod.mk.inj h
      rw [recordDenied, rowOf_cons_self, if_pos rfl] <;> rfl
    · rw [recordDenied, rowOf_cons_ne, if_neg h]
      exact h
  | cons d rest ih =>
    simp only [recordDenied]
    split
    · rename_i hd
      obtain ⟨rfl, rfl⟩ := hd
      by_cases h : (d.cls, d.name) = (cls, name)
      · rw [rowOf_cons_self (d := d) h, rowOf_cons_self, if_pos h]
        · rfl
        · exact h
      · rw [rowOf_cons_ne (d := d) h, rowOf_cons_ne, if_neg h]
        exact h
    · rename_i hd
      by_cases h : d.key = (cls, name)
      · have hne : (c, n) ≠ (cls, name) := fun he =>
          hd ⟨congrArg Prod.fst (h.trans he.symm), congrArg Prod.snd (h.trans he.symm)⟩
        rw [rowOf_cons_self h, if_neg hne, rowOf_cons_self h]
      · rw [rowOf_cons_ne h, rowOf_cons_ne h, ih]

theorem mem_of_rowOf {d : Denied} (h : rowOf cls name rows = some d) :
    d ∈ rows ∧ d.key = (cls, name) :=
  ⟨List.mem_of_find?_eq_some h, by simpa using List.find?_some h⟩

theorem rowOf_of_mem {d : Denied} (hrows : (rows.map Denied.key).Nodup) (hd : d ∈ rows) :
    rowOf d.cls d.name rows = some d := by
  induction rows with
  | nil => simp at hd
  | cons e rest ih =>
    simp only [List.map_cons, List.nodup_cons] at hrows
    rcases List.mem_cons.mp hd with rfl | hd
    · exact rowOf_cons_self rfl
    · have hne : e.key ≠ (d.cls, d.name) := fun he =>
        hrows.1 (List.mem_map.mpr ⟨d, hd, he.symm⟩)
      rw [rowOf_cons_ne hne]
      exact ih hrows.2 hd

/-- A row adds up what was counted in it, from the first to the last. -/
theorem foldl_countIn {r : String × Nat} {rs : List (String × Nat)} :
    (r :: rs).foldl (countIn cls name) none =
      some ⟨cls, name, ((r :: rs).map Prod.snd).sum, r.1, (rs.getLast?.getD r).1⟩ := by
  induction rs using List.reverseRecOn with
  | nil => simp [countIn]
  | append_singleton rs r' ih =>
    rw [← List.cons_append, List.foldl_append, ih]
    simp [countIn, Nat.add_assoc]

/-! ## The shape of a record -/

/-- The fields of a record that say how the session stands agree. -/
structure Session.Shaped (s : Session) : Prop where
  /-- The end is dated exactly when there is one. -/
  finished : s.finishedAt.isSome = s.state.isTerminal
  ended : s.state.isTerminal = true → s.pid = none ∧ s.clients = 0
  live : s.state.isLive = true → s.pid.isSome = true ∧ s.startedAt.isSome = true
  rows : (s.sandbox.denied.map Denied.key).Nodup
  degraded : s.sandbox.degraded.Nodup
  /-- A label is never blank. -/
  label : ∀ l ∈ s.label, trim l.toList ≠ []

theorem Session.new_shaped : (Session.new spec).Shaped where
  finished := rfl
  ended h := by cases h
  live h := by cases h
  rows := List.nodup_nil
  degraded := List.nodup_nil
  label _ h := by cases h

theorem keepLabel_not_blank {label : Option String} {l : String} (h : l ∈ keepLabel label) :
    trim l.toList ≠ [] := by
  obtain ⟨-, hl⟩ := Option.filter_eq_some_iff.mp h
  simpa using hl

/-- **Every event keeps the shape** of a session that has not ended. -/
theorem Session.Shaped.fold {k : SessionEventKind} {at_ : String}
    (hs : s.state.isTerminal = false) (h : s.Shaped) : (k.fold s at_).Shaped := by
  have hopen : s.finishedAt.isSome = false := h.finished.trans hs
  cases k with
  | created => exact h
  | resized rows cols => exact h
  | sandboxApplied mechanisms unavailable =>
    exact ⟨h.finished, h.ended, h.live, h.rows, h.degraded, h.label⟩
  | sandboxDenied cls name count =>
    exact ⟨h.finished, h.ended, h.live, recordDenied_nodup h.rows, h.degraded, h.label⟩
  | sandboxDegraded mechanism message =>
    simp only [SessionEventKind.fold]
    split
    · exact h
    · rename_i hnew
      have hdegraded : (s.sandbox.degraded ++ [mechanism]).Nodup :=
        List.Nodup.append h.degraded (List.nodup_singleton _) (by simpa using hnew)
      exact ⟨h.finished, h.ended, h.live, h.rows, hdegraded, h.label⟩
  | started pid =>
    exact ⟨hopen, fun h => (by cases h), fun _ => ⟨rfl, rfl⟩, h.rows, h.degraded, h.label⟩
  | renamed label =>
    exact ⟨h.finished, h.ended, h.live, h.rows, h.degraded, fun _ => keepLabel_not_blank⟩
  | attached client =>
    have hended (ht : s.state.isTerminal = true) : s.pid = none ∧ s.clients + 1 = 0 := by
      simp [hs] at ht
    exact ⟨h.finished, hended, h.live, h.rows, h.degraded, h.label⟩
  | detached client =>
    have hended (ht : s.state.isTerminal = true) : s.pid = none ∧ s.clients - 1 = 0 := by
      simp [hs] at ht
    exact ⟨h.finished, hended, h.live, h.rows, h.degraded, h.label⟩
  | stopRequested by_ =>
    simp only [SessionEventKind.fold]
    split
    · rename_i hlive
      exact ⟨hopen, fun h => (by cases h), fun _ => h.live hlive, h.rows, h.degraded, h.label⟩
    · exact h
  | exited code signal =>
    exact ⟨rfl, fun _ => ⟨rfl, rfl⟩, fun h => (by cases h), h.rows, h.degraded, h.label⟩
  | failed code message =>
    exact ⟨rfl, fun _ => ⟨rfl, rfl⟩, fun h => (by cases h), h.rows, h.degraded, h.label⟩

/-- The record of a log is shaped. -/
theorem fromLog_shaped : (fromLog spec evs).Shaped :=
  fromLog_induction (P := fun _ s => s.Shaped) Session.new_shaped fun _ _ _ hs h => h.fold hs

theorem fold_denied {k : SessionEventKind} {at_ : String} :
    rowOf cls name (k.fold s at_).sandbox.denied =
      match (SessionEvent.mk at_ k).refusal cls name with
      | some r => countIn cls name (rowOf cls name s.sandbox.denied) r
      | none => rowOf cls name s.sandbox.denied := by
  cases k with
  | sandboxDenied c n count =>
    simp only [SessionEventKind.fold, SessionEvent.refusal, rowOf_recordDenied]
    split <;> rfl
  | sandboxDegraded mechanism message =>
    simp only [SessionEventKind.fold, SessionEvent.refusal]
    split <;> rfl
  | stopRequested by_ =>
    simp only [SessionEventKind.fold, SessionEvent.refusal]
    split <;> rfl
  | _ => rfl

/-- **The row of one thing** is what the log reports of it, counted together. -/
theorem rowOf_fromLog :
    rowOf cls name (fromLog spec evs).sandbox.denied =
      (refusals cls name (toEnd evs)).foldl (countIn cls name) none := by
  refine fromLog_induction (P := fun evs s =>
    rowOf cls name s.sandbox.denied = (refusals cls name evs).foldl (countIn cls name) none) rfl ?_
  intro evs s ev _ h
  rw [fold_denied, h, refusals, refusals, List.filterMap_append, List.foldl_append]
  cases hr : ev.refusal cls name with
  | none => simp [hr]
  | some r => simp [hr]

/-- There is a row for each thing the log says was refused, and for nothing else. -/
theorem exists_row_iff :
    (∃ d ∈ (fromLog spec evs).sandbox.denied, d.key = (cls, name)) ↔
      refusals cls name (toEnd evs) ≠ [] := by
  have hrow := @rowOf_fromLog evs spec cls name
  cases hr : refusals cls name (toEnd evs) with
  | nil =>
    rw [hr, List.foldl_nil, rowOf, List.find?_eq_none] at hrow
    simpa using hrow
  | cons r rs =>
    rw [hr, foldl_countIn] at hrow
    simpa using ⟨_, mem_of_rowOf hrow⟩

/-- A row's count, first and last date are those of the events it merges. -/
theorem row_of_mem {d : Denied} (hd : d ∈ (fromLog spec evs).sandbox.denied) :
    d.count = ((refusals d.cls d.name (toEnd evs)).map Prod.snd).sum ∧
      (refusals d.cls d.name (toEnd evs)).head?.map Prod.fst = some d.firstAt ∧
      (refusals d.cls d.name (toEnd evs)).getLast?.map Prod.fst = some d.lastAt := by
  have hrow := rowOf_of_mem fromLog_shaped.rows hd
  rw [rowOf_fromLog] at hrow
  cases hr : refusals d.cls d.name (toEnd evs) with
  | nil => simp [hr] at hrow
  | cons r rs =>
    rw [hr, foldl_countIn] at hrow
    obtain ⟨cls, name, count, firstAt, lastAt⟩ := d
    simp only [Option.some.injEq, Denied.mk.injEq] at hrow
    obtain ⟨-, -, hcount, hfirst, hlast⟩ := hrow
    refine ⟨hcount.symm, congrArg some hfirst, ?_⟩
    rw [List.getLast?_cons]
    exact congrArg some hlast

/-- How often the record says one thing was refused. -/
theorem count_fromLog :
    ((rowOf cls name (fromLog spec evs).sandbox.denied).map Denied.count).getD 0 =
      ((refusals cls name (toEnd evs)).map Prod.snd).sum := by
  rw [rowOf_fromLog]
  cases refusals cls name (toEnd evs) with
  | nil => rfl
  | cons r rs =>
    rw [foldl_countIn]
    rfl

/-- **The fold of a log is well formed**, whatever the log. -/
theorem fromLog_wellFormed (spec : SessionSpec) (evs : List SessionEvent) :
    (∀ evs', toEnd evs' = toEnd evs → fromLog spec evs' = fromLog spec evs) ∧
      (fromLog spec evs).Shaped ∧
      (∀ cls name, (∃ d ∈ (fromLog spec evs).sandbox.denied, d.key = (cls, name)) ↔
        refusals cls name (toEnd evs) ≠ []) ∧
      ∀ d ∈ (fromLog spec evs).sandbox.denied,
        d.count = ((refusals d.cls d.name (toEnd evs)).map Prod.snd).sum ∧
        (refusals d.cls d.name (toEnd evs)).head?.map Prod.fst = some d.firstAt ∧
        (refusals d.cls d.name (toEnd evs)).getLast?.map Prod.fst = some d.lastAt := by
  refine ⟨fun evs' h => ?_, fromLog_shaped, fun _ _ => exists_row_iff, fun _ => row_of_mem⟩
  rw [← fromLog_toEnd, h, fromLog_toEnd]

end Sessions
end Willie
