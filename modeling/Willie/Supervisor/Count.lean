import Mathlib.Data.List.Perm.Subperm
import Willie.Sessions.Fold
import Willie.Supervisor.Lists

/-!
# Supervisor — the client count is right

The fold of the log does not count below zero, so it counts the terminals on
the list only if none detaches in the log before it attached there. Then the
lines about one terminal are its two, in order.
-/

namespace Willie
namespace Supervisor

open Sessions (SessionEvent SessionEventKind SessionSpec fromLog)

variable {s s' : Shared} {id : ℕ} {cont : List Op} {op : Op} {i : In} {m m' : State}
  {turn : ℕ × In} {turns : List (ℕ × In)} {k : SessionEventKind}

/-! ## The lines, in order -/

/-- The lines about a terminal. -/
def lineup (id : ℕ) (log : List SessionEvent) : List SessionEventKind :=
  (log.map (·.kind)).filter fun k => k = .attached id ∨ k = .detached id

theorem lineup_append {ev : SessionEvent} {log : List SessionEvent} : lineup id (log ++ [ev]) =
    lineup id log ++ if ev.kind = .attached id ∨ ev.kind = .detached id then [ev.kind] else [] := by
  by_cases h : ev.kind = .attached id ∨ ev.kind = .detached id
  · simp [lineup, h]
  · simp [lineup, h]

/-- One first line and no second line is all there is of a terminal. -/
theorem lineup_eq {log : List SessionEvent} (ha : lines (.attached id) log = 1)
    (hd : lines (.detached id) log = 0) : lineup id log = [.attached id] := by
  have hcount : (lineup id log).count (.attached id) = 1 := by
    rw [lineup, List.count_filter (by simp)]
    exact ha
  have hall : ∀ k ∈ lineup id log, k = .attached id := by
    intro k hk
    obtain ⟨hmem, hmark⟩ := List.mem_filter.mp hk
    refine (of_decide_eq_true hmark).resolve_right fun he => ?_
    exact List.count_eq_zero.mp hd (he ▸ hmem)
  have hrep := List.eq_replicate_of_mem hall
  rw [hrep, List.count_replicate_self] at hcount
  rw [hrep, hcount]
  rfl

theorem lines_pos {log : List SessionEvent} : 0 < lines k log ↔ ∃ ev ∈ log, ev.kind = k := by
  rw [lines, List.count_pos_iff, List.mem_map]

theorem lines_le_total : lines k m.shared.log ≤ total m k := Nat.le_add_right ..

theorem Counted.detached_le (hc : Counted m) : total m (.detached id) ≤ total m (.attached id) := by
  have hbal := hc.balance id
  omega

/-- That a terminal detached is the last that is logged of it. -/
def Paired (log : List SessionEvent) : Prop :=
  ∀ id, 0 < lines (.detached id) log → lineup id log = [.attached id, .detached id]

/-- **A step keeps the lines in order.** -/
theorem Paired.step (hp : Paired m.shared.log) (hc : Counted m) (hok : AfterAttached m turn)
    (h : step m turn = some m') : Paired m'.shared.log := by
  have hc' := hc.step hok h
  obtain ⟨op, cont, pre, post, hnext, hrun, hold, hnew⟩ := Threads.step_pending h
  have hop := hok op hnext
  generalize turn.2 = i at hrun hop
  cases logs_of_run hrun with
  | @line op at_ ok kind rest hkind hlog htold hcont hrest =>
    cases ok with
    | false =>
      rw [hlog]
      exact hp
    | true =>
      rw [if_pos rfl] at hlog
      intro id hpos
      have hatt : lines (.attached id) m'.shared.log ≤ 1 :=
        Nat.le_trans lines_le_total (hc'.once id)
      have hdet : lines (.detached id) m'.shared.log ≤ 1 :=
        Nat.le_trans lines_le_total (Nat.le_trans hc'.detached_le (hc'.once id))
      rw [hlog, lines_append] at hpos hatt hdet
      rw [hlog, lineup_append]
      dsimp only at hpos hatt hdet ⊢
      by_cases hd : kind = .detached id
      · subst hd
        -- the line it follows is in the log, and there is only the one
        rw [if_pos rfl] at hdet
        rw [if_neg (by simp)] at hatt
        have hfirst : 0 < lines (.attached id) m.shared.log := by
          rcases hkind with rfl | ⟨-, code, signal, -, he⟩
          · obtain ⟨ev, hev, hk⟩ := List.any_eq_true.mp (hop : m.shared.log.any _ = true)
            exact lines_pos.mpr ⟨ev, hev, of_decide_eq_true hk⟩
          · cases he
        rw [lineup_eq (by omega) (by omega), if_pos (.inr rfl)]
        rfl
      · rw [if_neg hd, Nat.add_zero] at hpos
        have hpair := hp id hpos
        have hfirst : 0 < lines (.attached id) m.shared.log := by
          have hmem : .attached id ∈ lineup id m.shared.log := by
            rw [hpair]
            exact List.mem_cons_self
          exact List.count_pos_iff.mpr (List.mem_of_mem_filter hmem)
        have ha : kind ≠ .attached id := fun he => by
          rw [if_pos he] at hatt
          omega
        rw [if_neg (not_or_intro ha hd), List.append_nil]
        exact hpair
  | fanOut hs hc =>
    rw [hs]
    exact hp
  | other hlog htold hop happ hcont =>
    rw [hlog]
    exact hp

/-! ## The fold -/

/-- Which terminals the log says attached. -/
def attachedIds (log : List SessionEvent) : List ℕ :=
  log.filterMap fun ev => match ev.kind with
    | .attached id => some id
    | _ => none

/-- Which terminals the log says detached. -/
def detachedIds (log : List SessionEvent) : List ℕ :=
  log.filterMap fun ev => match ev.kind with
    | .detached id => some id
    | _ => none

theorem count_attachedIds {log : List SessionEvent} :
    (attachedIds log).count id = lines (.attached id) log := by
  induction log with
  | nil => rfl
  | cons ev log ih =>
    obtain ⟨at_, k⟩ := ev
    cases k with
    | attached j => simp_all [attachedIds, lines, List.count_cons]
    | _ => simp_all [attachedIds, lines]

theorem count_detachedIds {log : List SessionEvent} :
    (detachedIds log).count id = lines (.detached id) log := by
  induction log with
  | nil => rfl
  | cons ev log ih =>
    obtain ⟨at_, k⟩ := ev
    cases k with
    | detached j => simp_all [detachedIds, lines, List.count_cons]
    | _ => simp_all [detachedIds, lines]

theorem fold_clients {s : Sessions.Session} (at_ : String) : k.isEnd = false →
    (k.fold s at_).clients = match k with
      | .attached _ => s.clients + 1
      | .detached _ => s.clients - 1
      | _ => s.clients := by
  intro hk
  cases k with
  | exited code signal => cases hk
  | failed code message => cases hk
  | sandboxDegraded mechanism message =>
    simp only [SessionEventKind.fold]
    split <;> rfl
  | stopRequested by_ =>
    simp only [SessionEventKind.fold]
    split <;> rfl
  | _ => rfl

/-- **The fold's count**, of a log that tells of no end, if no terminal
detached before it attached. -/
theorem clients_fromLog (spec : SessionSpec) {log : List SessionEvent}
    (hopen : log.any (·.kind.isEnd) = false)
    (hpaired : ∀ pre, pre <+: log → ∀ id, lines (.detached id) pre ≤ lines (.attached id) pre) :
    (fromLog spec log).clients + (detachedIds log).length = (attachedIds log).length := by
  induction log using List.reverseRecOn with
  | nil => rfl
  | append_singleton log ev ih =>
    have hsnoc : log.any (·.kind.isEnd) = false ∧ ev.kind.isEnd = false := by
      simpa [List.any_append] using hopen
    have hstate : (fromLog spec log).state.isTerminal = false :=
      Sessions.fromLog_terminal.trans hsnoc.1
    have hrec := ih hsnoc.1 fun pre hpre => hpaired pre (hpre.trans (List.prefix_append ..))
    have hsub : (detachedIds (log ++ [ev])).length ≤ (attachedIds (log ++ [ev])).length := by
      refine List.Subperm.length_le (List.subperm_ext_iff.mpr fun id _ => ?_)
      rw [count_detachedIds, count_attachedIds]
      exact hpaired _ (List.prefix_refl _) id
    have hfold : (fromLog spec (log ++ [ev])).clients = match ev.kind with
        | .attached _ => (fromLog spec log).clients + 1
        | .detached _ => (fromLog spec log).clients - 1
        | _ => (fromLog spec log).clients := by
      rw [← fold_clients ev.at_ hsnoc.2, fromLog, List.foldl_append, List.foldl_cons,
        List.foldl_nil]
      exact congrArg _ (Sessions.applyEvent_open hstate)
    rw [hfold]
    obtain ⟨at_, k⟩ := ev
    cases k with
    | attached id =>
      simp only [attachedIds, detachedIds, List.filterMap_append, List.length_append] at hrec ⊢
      simp
      omega
    | detached id =>
      simp only [attachedIds, detachedIds, List.filterMap_append, List.length_append] at hrec hsub ⊢
      simp at hsub ⊢
      omega
    | _ =>
      simp only [attachedIds, detachedIds, List.filterMap_append, List.length_append] at hrec ⊢
      simpa using hrec

theorem count_lineup {log : List SessionEvent} (hk : Marks id k) :
    (lineup id log).count k = lines k log := by
  rcases hk with rfl | rfl
  · exact List.count_filter (by simp)
  · exact List.count_filter (by simp)

theorem lineup_mono (id : ℕ) {pre log : List SessionEvent} (h : pre <+: log) :
    lineup id pre <+: lineup id log := by
  obtain ⟨post, rfl⟩ := h
  exact ⟨lineup id post, by simp [lineup]⟩

/-- At no time did more of a terminal's second lines come than of its first. -/
theorem Paired.lines_le {log : List SessionEvent} (hp : Paired log) (pre : List SessionEvent)
    (hpre : pre <+: log) (id : ℕ) : lines (.detached id) pre ≤ lines (.attached id) pre := by
  by_cases hpos : 0 < lines (.detached id) log
  · have hlineup := lineup_mono id hpre
    rw [hp id hpos, List.prefix_cons_iff] at hlineup
    rw [← count_lineup (.inr rfl), ← count_lineup (.inl rfl)]
    rcases hlineup with hnil | ⟨rest, hrest, hlast⟩
    · simp [hnil]
    · rw [hrest]
      rcases List.prefix_cons_iff.mp hlast with rfl | ⟨rest', rfl, hend⟩
      · simp
      · simp [List.prefix_nil.mp hend]
  · have hle : lines (.detached id) pre ≤ lines (.detached id) log :=
      (hpre.sublist.map _).count_le _
    omega

/-! ## Until the exit -/

/-- `finish` takes the list once the exit is logged. -/
structure Ended (s : Shared) : Prop where
  logged : s.main.exitLogged = true → s.log.any (·.kind.isEnd) = true
  taken : s.main.exitLogged = false → s.taken = []

theorem Ended.run (he : Ended s) (h : run op i s = some (s', cont))
    (hok : op.afterAttached s i = true) : Ended s' := by
  have hlog : s.log.any (·.kind.isEnd) = true → s'.log.any (·.kind.isEnd) = true := by
    intro hany
    cases logs_of_run h with
    | line hop hlog =>
      rw [hlog]
      split
      · rw [List.any_append, hany, Bool.true_or]
      · exact hany
    | fanOut hs =>
      rw [hs]
      exact hany
    | other hlog =>
      rw [hlog]
      exact hany
  by_cases hmain : op = .main
  · subst hmain
    obtain ⟨hlogged, htaken⟩ := he
    have h := mainStep_of_runMain h
    generalize s.main = main at h hlogged htaken
    cases h with
    | read =>
      refine ⟨fun hm => ?_, fun _ => htaken rfl⟩
      dsimp only at hm
      split at hm <;> cases hm
    | hungUp | push | fanOut | teardown | flush | setExited =>
      exact ⟨fun hm => (by cases hm), fun _ => htaken rfl⟩
    | logExited =>
      refine ⟨fun _ => ?_, fun hm => (by cases hm)⟩
      obtain rfl := hok
      simp [Shared.append, SessionEventKind.isEnd]
    | _ => exact ⟨fun _ => hlog (hlogged rfl), fun hm => (by cases hm)⟩
  · obtain ⟨hmain, htaken⟩ := main_of_run h hmain
    refine ⟨fun hm => hlog (he.logged (hmain ▸ hm)), fun hm => ?_⟩
    rw [htaken]
    exact he.taken (hmain ▸ hm)

/-- What holds of the terminals while the pump runs, and after. -/
structure Standing (m : State) : Prop where
  counted : Counted m
  paired : Paired m.shared.log
  ended : Ended m.shared

theorem Standing.step (hs : Standing m) (hok : AfterAttached m turn) (h : step m turn = some m') :
    Standing m' := by
  refine ⟨hs.counted.step hok h, hs.paired.step hs.counted hok h, ?_⟩
  obtain ⟨op, cont, -, -, hnext, hrun, -, -⟩ := Threads.step_pending h
  exact hs.ended.run hrun (hok op hnext)

theorem standing_start {at_ : String} {pid n : ℕ} {mechanisms unavailable : List String} :
    Standing (start at_ pid mechanisms unavailable n) := by
  have hnone (k : SessionEventKind) (id : ℕ) (hk : Marks id k) :
      total (start at_ pid mechanisms unavailable n) k = 0 := by
    have hload : (start at_ pid mechanisms unavailable n).load (Op.owes k) = 0 :=
      load_start rfl rfl rfl rfl rfl
    rw [total, hload, lines]
    rcases hk with rfl | rfl <;> rfl
  refine ⟨⟨numbered_start, fun id => ?_, fun id => ?_, fun id _ => hnone _ id (.inl rfl)⟩,
    fun id h => (by cases h), ⟨fun h => (by cases h), fun _ => rfl⟩⟩
  · rw [hnone _ id (.inl rfl), hnone _ id (.inr rfl)]
    rfl
  · rw [hnone _ id (.inl rfl)]
    exact Nat.zero_le _

theorem standing_run {at_ : String} {pid n : ℕ} {mechanisms unavailable : List String}
    (hrun : Runs.exec step (start at_ pid mechanisms unavailable n) turns = some m)
    (hok : Runs.Guarded step AfterAttached (start at_ pid mechanisms unavailable n) turns) :
    Standing m :=
  Runs.exec_invariant hrun hok standing_start fun _ _ _ hs ho h => hs.step ho h

/-- The operation logs that a terminal attached, or detached. -/
def Op.marks : Op → Bool
  | .append (.attached _) | .append (.detached _) => true
  | _ => false

/-- No thread has yet to log that a terminal attached or detached. -/
def Settled (m : State) : Prop := ∀ op ∈ m.pending, op.marks = false

instance (m : State) : Decidable (Settled m) := inferInstanceAs (Decidable (∀ op ∈ _, _))

theorem Settled.lines_eq (hset : Settled m) (hk : Marks id k) :
    lines k m.shared.log = total m k := by
  have hload : m.load (Op.owes k) = 0 := by
    refine Threads.load_eq_zero fun op hop => ?_
    have hnot := hset op hop
    cases op with
    | append kind =>
      refine if_neg ?_
      rintro rfl
      rcases hk with rfl | rfl <;> cases hnot
    | _ => rfl
  rw [total, hload, Nat.add_zero]

/-- **Of a settled session that has not exited** the log counts the terminals
on the list. -/
theorem Standing.clients (hs : Standing m) (hset : Settled m)
    (hopen : m.shared.log.any (·.kind.isEnd) = false) (spec : SessionSpec) :
    (fromLog spec m.shared.log).clients = (terminals m.shared.clients).length := by
  have hfold := clients_fromLog spec hopen hs.paired.lines_le
  have hlogged : m.shared.main.exitLogged = false := by
    refine Bool.eq_false_of_not_eq_true fun h => ?_
    rw [hs.ended.logged h] at hopen
    cases hopen
  have hperm : (attachedIds m.shared.log).Perm
      (detachedIds m.shared.log ++ terminals m.shared.clients) := by
    refine List.perm_iff_count.mpr fun id => ?_
    have hbal := hs.counted.balance id
    have hnil : (terminals []).count id = 0 := rfl
    rw [hs.ended.taken hlogged, hnil] at hbal
    rw [List.count_append, count_attachedIds, count_detachedIds, hset.lines_eq (.inl rfl),
      hset.lines_eq (.inr rfl)]
    omega
  have hlength := hperm.length_eq
  rw [List.length_append] at hlength
  omega

/-- A terminal that was on the list and is not has both its lines. -/
theorem Standing.gone (hs : Standing m) (hset : Settled m)
    (hopen : m.shared.log.any (·.kind.isEnd) = false) (hwas : 0 < total m (.attached id))
    (hgone : id ∉ terminals m.shared.clients) :
    lineup id m.shared.log = [.attached id, .detached id] := by
  have hlogged : m.shared.main.exitLogged = false := by
    refine Bool.eq_false_of_not_eq_true fun h => ?_
    rw [hs.ended.logged h] at hopen
    cases hopen
  have hbal := hs.counted.balance id
  have hnil : (terminals []).count id = 0 := rfl
  rw [hs.ended.taken hlogged, hnil, List.count_eq_zero.mpr hgone] at hbal
  refine hs.paired id ?_
  rw [hset.lines_eq (.inr rfl)]
  omega

/-- **The client count is right**, in a run where no terminal detaches in the
log before it attached there: until the exit is logged, whenever no such line
is owed, the count folded from the log is that of the terminals on the list,
and one that was on the list and is not attached and detached once. -/
theorem clients_counted {at_ : String} {pid n : ℕ} {mechanisms unavailable : List String}
    (hrun : Runs.exec step (start at_ pid mechanisms unavailable n) turns = some m)
    (hok : Runs.Guarded step AfterAttached (start at_ pid mechanisms unavailable n) turns)
    (hset : Settled m) (hopen : m.shared.log.any (·.kind.isEnd) = false) :
    (∀ spec, (fromLog spec m.shared.log).clients = (terminals m.shared.clients).length) ∧
      ∀ before after mid, turns = before ++ after →
        Runs.exec step (start at_ pid mechanisms unavailable n) before = some mid →
        ∀ id ∈ terminals mid.shared.clients, id ∉ terminals m.shared.clients →
          lineup id m.shared.log = [.attached id, .detached id] := by
  have hs := standing_run hrun hok
  refine ⟨hs.clients hset hopen, fun before after mid hturns hmid id hid hgone => ?_⟩
  subst hturns
  obtain ⟨hpre, hpost⟩ := (Runs.guarded_append hmid).mp hok
  have hrest : Runs.exec step mid after = some m := by
    rwa [Runs.exec_append, hmid] at hrun
  have hwas : 0 < total mid (.attached id) := by
    have hbal := (standing_run hmid hpre).counted.balance id
    have hcount := List.count_pos_iff.mpr hid
    omega
  have hnow : 0 < total m (.attached id) :=
    Runs.exec_invariant (I := fun m => 0 < total m (.attached id)) hrest hpost hwas
      fun _ _ _ hlt ho h => Nat.lt_of_lt_of_le hlt (total_attached_le ho h)
  exact hs.gone hset hopen hnow hgone

/-- A terminal says hello and is registered. -/
def attaching : List (ℕ × In) :=
  [(4, .greeting .terminal 24 80), (4, .outcome true), (4, .go), (4, .go), (4, .go),
    (4, .outcome true), (4, .wrote "2" true), (4, .refused []), (4, .go)]

/-- That it attached is logged; it detaches, and that is logged. -/
def detaching : List (ℕ × In) :=
  attaching ++ ([(4, .wrote "3" true), (4, .refused []), (4, .frame .detach), (4, .go), (4, .go),
    (4, .wrote "4" true), (4, .refused [])] : List (ℕ × In))

theorem clients_counted_detached : ∃ m, Runs.exec step (opened 1) detaching = some m ∧
    (∀ spec, (fromLog spec m.shared.log).clients = (terminals m.shared.clients).length) ∧
      ∀ before after mid, detaching = before ++ after →
        Runs.exec step (opened 1) before = some mid →
        ∀ id ∈ terminals mid.shared.clients, id ∉ terminals m.shared.clients →
          lineup id m.shared.log = [.attached id, .detached id] := by
  have hend : (Runs.exec step (opened 1) detaching).any (fun m => decide (Settled m) &&
      !m.shared.log.any (·.kind.isEnd)) = true := by decide
  obtain ⟨m, hm, hview⟩ := (Option.any_eq_true ..).mp hend
  obtain ⟨hset, hopen⟩ := Bool.and_eq_true_iff.mp hview
  exact ⟨m, hm, clients_counted hm (by decide) (of_decide_eq_true hset)
    (by simpa using hopen)⟩

/-- Before that is logged it does not keep up with the output, is dropped,
and the pump logs that it detached. -/
def inverted : List (ℕ × In) :=
  attaching ++ ([(0, .read [65] []), (0, .go), (0, .room [(1, 0)]), (0, .wrote "3" true),
    (0, .refused []), (4, .wrote "4" true), (4, .refused [])] : List (ℕ × In))

/-- The log then counts a terminal, and there is none. -/
theorem clients_miscounted : ∃ m, Runs.exec step (opened 1) inverted = some m ∧ Settled m ∧
    m.shared.log.any (·.kind.isEnd) = false ∧ terminals m.shared.clients = [] ∧
    lineup 1 m.shared.log = [.detached 1, .attached 1] ∧
    ∀ spec, (fromLog spec m.shared.log).clients = 1 := by
  have hend : (Runs.exec step (opened 1) inverted).map (fun m => (decide (Settled m),
      m.shared.clients, m.shared.log)) = some (true, [],
        [⟨"1", .created⟩, ⟨"1", .sandboxApplied ["namespaces", "mounts", "rlimits", "seccomp"] []⟩,
          ⟨"1", .started 7⟩, ⟨"2", .resized 24 80⟩, ⟨"3", .detached 1⟩, ⟨"4", .attached 1⟩]) := by
    decide
  obtain ⟨m, hm, hview⟩ := Option.map_eq_some_iff.mp hend
  simp only [Prod.mk.injEq] at hview
  obtain ⟨hset, hclients, hlog⟩ := hview
  refine ⟨m, hm, of_decide_eq_true hset, ?_, by rw [hclients]; rfl, ?_, fun spec => ?_⟩
  · rw [hlog]
    rfl
  · rw [hlog]
    decide
  · rw [hlog]
    rfl

end Supervisor
end Willie
