import Willie.Supervisor.Logging

/-!
# Supervisor — who is on the list, and what is owed to the log

A terminal is put on the list and taken off it under the clients' lock; that
it attached and that it detached is logged later, by two different threads.
Each line is owed as soon as the list has changed, so what is logged and what
is owed together say who is on the list.
-/

namespace Willie
namespace Supervisor

open Sessions (SessionEvent SessionEventKind)

variable {s s' : Shared} {id j : ℕ} {role : Role} {cont : List Op} {op : Op} {i : In}
  {bytes : Bytes} {room : List (ℕ × ℕ)} {m m' : State} {turn : ℕ × In} {turns : List (ℕ × In)}
  {k : SessionEventKind} {l l' : List Handle}

/-- The ids of the terminals on a list. -/
def terminals (l : List Handle) : List ℕ := (l.filter (·.role = .terminal)).map (·.id)

@[simp] theorem terminals_append : terminals (l ++ l') = terminals l ++ terminals l' := by
  simp [terminals]

theorem mem_terminals : id ∈ terminals l ↔ ⟨id, .terminal⟩ ∈ l := by
  constructor
  · intro h
    obtain ⟨c, hc, rfl⟩ := List.mem_map.mp h
    obtain ⟨hmem, hrole⟩ := List.mem_filter.mp hc
    rwa [← of_decide_eq_true hrole]
  · intro h
    exact List.mem_map.mpr ⟨_, List.mem_filter.mpr ⟨h, rfl⟩, rfl⟩

theorem nodup_terminals (h : l.Nodup) : (terminals l).Nodup := by
  refine List.Nodup.map_on (fun a ha b hb hab => ?_) (h.filter _)
  have hra := of_decide_eq_true (List.mem_filter.mp ha).2
  have hrb := of_decide_eq_true (List.mem_filter.mp hb).2
  cases a
  cases b
  simp_all

theorem count_terminals_split (l : List Handle) (id : ℕ) (p : Handle → Bool) :
    (terminals l).count id =
      (terminals (l.filter p)).count id + (terminals (l.filter fun h => !p h)).count id := by
  have hperm := (List.filter_append_perm p l).filter (·.role = .terminal)
  rw [← List.count_append, ← terminals_append]
  exact (hperm.map _).count_eq id |>.symm

/-! ## What an operation does to the list -/

/-- **What becomes of the list**, and which lines are owed for it. -/
inductive Lists (s s' : Shared) (cont : List Op) : Op → Prop
  | register {id : ℕ} {role : Role} (hst : s.stage id = .registering role)
    (hc : s'.clients = s.clients ++ [⟨id, role⟩]) (ht : s'.taken = s.taken)
    (hcont : cont = if role = .terminal then [.append (.attached id), .client id]
      else [.client id]) : Lists s s' cont (.client id)
  | leave {id : ℕ} {role : Role} (hst : s.stage id = .leaving role)
    (hc : s'.clients = s.clients.filter (·.id ≠ id)) (ht : s'.taken = s.taken)
    (hcont : cont = .client id :: if s.clients.any (·.id = id) ∧ role = .terminal then
      [.append (.detached id)] else []) : Lists s s' cont (.client id)
  | drop {bytes : Bytes} {room : List (ℕ × ℕ)} (hs : s' = s.fanOutOutput bytes room)
    (hcont : cont = (s.tooSlow bytes room).map (fun id => .append (.detached id)) ++ [.main]) :
    Lists s s' cont .main
  | take (hc : s'.clients = []) (ht : s'.taken = s.taken ++ s.clients) (hcont : cont = [.main]) :
    Lists s s' cont .main
  | tell {line : ℕ} {ev : SessionEvent} {refused : List ℕ} (hs : s' = s.fanOutEvent ev refused)
    (hcont : cont = []) : Lists s s' cont (.fanOut line ev)
  | other {op : Op} (hc : s'.clients = s.clients) (ht : s'.taken = s.taken)
    (hcont : ∀ id, .append (.attached id) ∉ cont ∧ .append (.detached id) ∉ cont) :
    Lists s s' cont op

theorem lists_of_run (h : run op i s = some (s', cont)) : Lists s s' cont op := by
  cases step_of_run h with
  | main h =>
    generalize s.main = main at h
    cases h with
    | fanOut => exact .drop rfl rfl
    | take => exact .take rfl rfl rfl
    | _ => exact .other rfl rfl fun id => by simp [denied]
  | @client id i s' cont h =>
    generalize hst : s.stage id = st at h
    cases h with
    | register => exact .register hst rfl rfl rfl
    | leave => exact .leave hst rfl rfl rfl
    | _ => exact .other rfl rfl fun id => by simp
  | fanOut => exact .tell rfl rfl
  | hello | applySize | winsize | failed => exact .other rfl rfl fun id => by split <;> simp
  | _ => exact .other rfl rfl fun id => by simp [denied]

/-! ## What is logged and what is owed -/

/-- The lines of a kind. -/
def lines (k : SessionEventKind) (log : List SessionEvent) : ℕ := (log.map (·.kind)).count k

/-- A line of the kind is owed. -/
def Op.owes (k : SessionEventKind) : Op → ℕ
  | .append k' => if k' = k then 1 else 0
  | _ => 0

/-- The lines of a kind, those still owed included. -/
def total (m : State) (k : SessionEventKind) : ℕ := lines k m.shared.log + m.load (Op.owes k)

/-- Of a terminal: it attached, or it detached. -/
def Marks (id : ℕ) (k : SessionEventKind) : Prop := k = .attached id ∨ k = .detached id

theorem lines_append {ev : SessionEvent} {log : List SessionEvent} :
    lines k (log ++ [ev]) = lines k log + if ev.kind = k then 1 else 0 := by
  simp [lines, List.count_singleton]

/-- A terminal's second line comes after its first; both are written, and so
is the exit. -/
def Op.afterAttached (s : Shared) : Op → In → Bool
  | .append (.detached id), .wrote _ ok => ok && s.log.any (·.kind = .attached id)
  | .append (.attached _), .wrote _ ok => ok
  | .main, .wrote _ ok => ok
  | _, _ => true

/-- **No terminal detaches in the log before it attached there.** -/
def AfterAttached (m : State) (turn : ℕ × In) : Prop :=
  ∀ op ∈ m.next turn.1, op.afterAttached m.shared turn.2 = true

instance (m : State) (turn : ℕ × In) : Decidable (AfterAttached m turn) :=
  inferInstanceAs (Decidable (∀ op ∈ m.next turn.1, _))

theorem written_of_afterAttached {at_ : String} {ok : Bool} (hk : Marks id k)
    (h : Op.afterAttached s (.append k) (.wrote at_ ok) = true) : ok = true := by
  rcases hk with rfl | rfl
  · exact h
  · exact (Bool.and_eq_true_iff.mp h).1

/-- **Logging a line moves it from what is owed to what is logged**; nothing
else does. -/
theorem total_step (hk : Marks id k) {pre post : List Op}
    (hrun : run op i m.shared = some (m'.shared, cont)) (hold : m.pending = pre ++ op :: post)
    (hnew : m'.pending = pre ++ (cont ++ post)) (hok : op.afterAttached m.shared i = true) :
    total m' k = total m k + (cont.map (Op.owes k)).sum := by
  have hload := Threads.load_step (f := Op.owes k) hold hnew
  unfold total
  cases logs_of_run hrun with
  | @line op at_ ok kind rest hop hlog htold hcont hrest =>
    have hsum : (cont.map (Op.owes k)).sum = 0 := by
      rw [hcont]
      rcases hrest with rfl | rfl <;> rfl
    have hop' : Op.owes k op = if kind = k then 1 else 0 := by
      rcases hop with rfl | ⟨rfl, code, signal, -, rfl⟩
      · rfl
      · rw [if_neg fun he => by rcases hk with rfl | rfl <;> cases he]
        rfl
    -- a line of another kind is no matter, whether it is written or not
    have hlines : lines k m'.shared.log = lines k m.shared.log + if kind = k then 1 else 0 := by
      rw [hlog]
      split
      · exact lines_append
      · rename_i hunwritten
        have hne : ¬ kind = k := by
          intro he
          refine hunwritten ?_
          rcases hop with rfl | ⟨rfl, code, signal, -, rfl⟩
          · exact written_of_afterAttached (he ▸ hk) hok
          · exact hok
        rw [if_neg hne, Nat.add_zero]
    omega
  | fanOut hs hc =>
    have hlog : m'.shared.log = m.shared.log := by rw [hs]; rfl
    rw [hlog]
    rw [hc] at hload ⊢
    have hzero : Op.owes k (.fanOut ‹_› ‹_›) = 0 := rfl
    simp only [List.map_nil, List.sum_nil] at hload ⊢
    omega
  | other hlog htold hop happ hcont =>
    have hzero : Op.owes k op = 0 := by
      cases op with
      | append kind => exact absurd rfl (happ kind)
      | _ => rfl
    rw [hlog]
    omega

/-! ## The list and the lines -/

/-- **Each terminal has one line for coming onto the list, and one for having
left it**, unless `finish` took it. -/
structure Counted (m : State) : Prop where
  numbered : Numbered m.shared
  balance : ∀ id, total m (.attached id) = total m (.detached id) +
    (terminals m.shared.clients).count id + (terminals m.shared.taken).count id
  once : ∀ id, total m (.attached id) ≤ 1
  early : ∀ id, (m.shared.stage id).early = true → total m (.attached id) = 0

theorem sum_owes_eq_zero (h : .append k ∉ cont) : (cont.map (Op.owes k)).sum = 0 := by
  refine Threads.sum_eq_zero fun o ho => ?_
  cases o with
  | append kind =>
    refine if_neg ?_
    rintro rfl
    exact h ho
  | _ => rfl

theorem sum_owes_dropped {ids : List ℕ} :
    ((ids.map (fun id => Op.append (.detached id)) ++ [Op.main]).map (Op.owes (.detached j))).sum =
      ids.count j := by
  induction ids with
  | nil => rfl
  | cons id ids ih =>
    have hone : Op.owes (.detached j) (.append (.detached id)) = if id = j then 1 else 0 := by
      simp [Op.owes]
    rw [List.map_cons, List.cons_append, List.map_cons, List.sum_cons, ih, List.count_cons, hone]
    simp only [beq_iff_eq]
    omega

/-- The terminals a broadcast drops are those it does not keep. -/
theorem tooSlow_eq : s.tooSlow bytes room =
    terminals (s.clients.filter fun h => !s.keepsOutput (chunks bytes) room h) := by
  unfold Shared.tooSlow terminals
  rw [List.filter_filter]
  congr 1
  refine List.filter_congr fun h _ => ?_
  cases hrole : h.role <;> simp [Shared.keepsOutput, hrole]

/-- A fan-out of an event drops control clients only. -/
theorem terminals_fanOutEvent {ev : SessionEvent} {refused : List ℕ} :
    terminals (s.fanOutEvent ev refused).clients = terminals s.clients := by
  unfold terminals Shared.fanOutEvent
  rw [List.filter_filter]
  congr 1
  refine List.filter_congr fun h _ => ?_
  cases hrole : h.role <;> simp [Shared.keepsEvent, hrole]

/-- Whether a client whose thread leaves is a terminal on the list. -/
theorem count_leaving (hn : Numbered s) (hst : s.stage id = .leaving role) :
    (terminals s.clients).count id =
      if s.clients.any (·.id = id) = true ∧ role = .terminal then 1 else 0 := by
  have hnd := nodup_terminals hn.nodup
  have hmem : id ∈ terminals s.clients ↔ s.clients.any (·.id = id) = true ∧ role = .terminal := by
    rw [mem_terminals, List.any_eq_true]
    constructor
    · intro h
      refine ⟨⟨_, h, by simp⟩, ?_⟩
      rcases hn.listed _ h with he | he <;> rw [hst] at he <;> cases he
      rfl
    · rintro ⟨⟨c, hc, hid⟩, rfl⟩
      have hid := of_decide_eq_true hid
      rcases hn.listed c hc with he | he
      · rw [hid, hst] at he
        cases he
      · rw [hid, hst] at he
        rwa [← hid, Stage.leaving.inj he]
  by_cases h : id ∈ terminals s.clients
  · rw [if_pos (hmem.mp h)]
    exact List.count_eq_one_of_mem hnd h
  · rw [if_neg (mt hmem.mpr h)]
    exact List.count_eq_zero.mpr h

theorem terminals_filter_ne : (terminals (l.filter (·.id ≠ id))).count j =
    if j = id then 0 else (terminals l).count j := by
  have hsplit := count_terminals_split l j (fun h => decide (h.id ≠ id))
  split
  · rename_i hj
    rw [List.count_eq_zero, mem_terminals]
    exact fun h => by simpa [hj] using (List.mem_filter.mp h).2
  · rename_i hj
    have hnone : (terminals (l.filter fun h => !decide (h.id ≠ id))).count j = 0 := by
      rw [List.count_eq_zero, mem_terminals]
      exact fun h => hj (by simpa using (List.mem_filter.mp h).2)
    omega

theorem count_terminals_singleton :
    (terminals [⟨id, role⟩]).count j = if j = id ∧ role = .terminal then 1 else 0 := by
  cases role with
  | terminal =>
    simp only [terminals, List.filter_cons, decide_true, if_true, List.filter_nil, List.map_cons,
      List.map_nil, List.count_singleton, and_true, beq_iff_eq]
    exact if_congr eq_comm rfl rfl
  | control => simp [terminals]

/-- **What a step does to the counts.** -/
theorem Counted.balance_step (hc : Counted m) {pre post : List Op}
    (hrun : run op i m.shared = some (m'.shared, cont)) (hold : m.pending = pre ++ op :: post)
    (hnew : m'.pending = pre ++ (cont ++ post)) (hok : op.afterAttached m.shared i = true) (j : ℕ) :
    total m' (.attached j) = total m' (.detached j) +
      (terminals m'.shared.clients).count j + (terminals m'.shared.taken).count j := by
  have hatt := total_step (k := .attached j) (.inl rfl) hrun hold hnew hok
  have hdet := total_step (k := .detached j) (.inr rfl) hrun hold hnew hok
  have hbal := hc.balance j
  cases lists_of_run hrun with
  | @register id role hst hcl ht hcont =>
    have hsum : (cont.map (Op.owes (.attached j))).sum =
        if j = id ∧ role = .terminal then 1 else 0 := by
      rw [hcont]
      cases role with
      | terminal => simp [Op.owes, eq_comm]
      | control => simp [Op.owes]
    have hsum' : (cont.map (Op.owes (.detached j))).sum = 0 := by
      refine sum_owes_eq_zero ?_
      rw [hcont]
      split <;> simp
    rw [hcl, ht, terminals_append, List.count_append, count_terminals_singleton]
    omega
  | @leave id role hst hcl ht hcont =>
    have hsum : (cont.map (Op.owes (.attached j))).sum = 0 := by
      refine sum_owes_eq_zero ?_
      rw [hcont]
      split <;> simp
    have hsum' : (cont.map (Op.owes (.detached j))).sum =
        if j = id then (terminals m.shared.clients).count id else 0 := by
      rw [hcont, count_leaving hc.numbered hst]
      split <;> simp [Op.owes, eq_comm]
    rw [hcl, ht, terminals_filter_ne]
    split at hsum' <;> rename_i hj
    · rw [if_pos hj]
      rw [hj] at hbal hatt hdet hsum hsum' ⊢
      omega
    · rw [if_neg hj]
      omega
  | @drop bytes room hs hcont =>
    have hsum : (cont.map (Op.owes (.attached j))).sum = 0 := by
      refine sum_owes_eq_zero ?_
      rw [hcont]
      simp
    have hsum' : (cont.map (Op.owes (.detached j))).sum =
        (m.shared.tooSlow bytes room).count j := by
      rw [hcont]
      exact sum_owes_dropped
    have hsplit := count_terminals_split m.shared.clients j
      (m.shared.keepsOutput (chunks bytes) room)
    rw [tooSlow_eq] at hsum'
    rw [hs]
    change total m' (.attached j) = total m' (.detached j) +
      (terminals (m.shared.clients.filter (m.shared.keepsOutput (chunks bytes) room))).count j +
        (terminals m.shared.taken).count j
    omega
  | take hcl ht hcont =>
    have hsum : (cont.map (Op.owes (.attached j))).sum = 0 := sum_owes_eq_zero (by simp [hcont])
    have hsum' : (cont.map (Op.owes (.detached j))).sum = 0 := sum_owes_eq_zero (by simp [hcont])
    have hnil : (terminals []).count j = 0 := rfl
    rw [hcl, ht, terminals_append, List.count_append, hnil]
    omega
  | tell hs hcont =>
    have ht : m'.shared.taken = m.shared.taken := by rw [hs]; rfl
    have hsum : (cont.map (Op.owes (.attached j))).sum = 0 := by rw [hcont]; rfl
    have hsum' : (cont.map (Op.owes (.detached j))).sum = 0 := by rw [hcont]; rfl
    rw [ht, hs, terminals_fanOutEvent]
    omega
  | other hcl ht hcont =>
    have hsum := sum_owes_eq_zero (hcont j).1
    have hsum' := sum_owes_eq_zero (hcont j).2
    rw [hcl, ht]
    omega

/-- That a terminal attached is owed by the step that registers it. -/
theorem owed_attached (h : run op i s = some (s', cont)) :
    (cont.map (Op.owes (.attached j))).sum = 0 ∨
      (s.stage j = .registering .terminal ∧ ⟨j, .terminal⟩ ∈ s'.clients ∧
        (cont.map (Op.owes (.attached j))).sum = 1) := by
  cases lists_of_run h with
  | @register id role hst hcl ht hcont =>
    by_cases hj : id = j ∧ role = .terminal
    · obtain ⟨rfl, rfl⟩ := hj
      refine .inr ⟨hst, by simp [hcl], ?_⟩
      rw [hcont]
      simp [Op.owes]
    · refine .inl (sum_owes_eq_zero ?_)
      rw [hcont]
      split <;> simp_all [eq_comm]
  | leave hst hcl ht hcont =>
    refine .inl (sum_owes_eq_zero ?_)
    rw [hcont]
    split <;> simp
  | drop hs hcont =>
    refine .inl (sum_owes_eq_zero ?_)
    rw [hcont]
    simp
  | take _ _ hcont | tell _ hcont => exact .inl (sum_owes_eq_zero (by simp [hcont]))
  | other _ _ hcont => exact .inl (sum_owes_eq_zero (hcont j).1)

/-- **A step keeps the counts.** -/
theorem Counted.step (hc : Counted m) (hok : AfterAttached m turn) (h : step m turn = some m') :
    Counted m' := by
  obtain ⟨op, cont, pre, post, hnext, hrun, hold, hnew⟩ := Threads.step_pending h
  have hop := hok op hnext
  have hatt (j : ℕ) := total_step (k := .attached j) (.inl rfl) hrun hold hnew hop
  have hnumbered := hc.numbered.run hrun
  refine ⟨hnumbered, fun j => hc.balance_step hrun hold hnew hop j, fun j => ?_, fun j he => ?_⟩
  · have honce := hc.once j
    rw [hatt j]
    rcases owed_attached (j := j) hrun with hzero | ⟨hst, -, hone⟩
    · omega
    · have hnone := hc.early j (by rw [hst]; rfl)
      omega
  · have hnone := hc.early j (early_of_run hc.numbered hrun he)
    rw [hatt j]
    rcases owed_attached (j := j) hrun with hzero | ⟨-, hmem, -⟩
    · omega
    · exact absurd hmem (hnumbered.not_mem he)

/-- The number of a terminal's first lines, those owed included, does not
fall. -/
theorem total_attached_le (hok : AfterAttached m turn) (h : Supervisor.step m turn = some m') :
    total m (.attached j) ≤ total m' (.attached j) := by
  obtain ⟨op, cont, pre, post, hnext, hrun, hold, hnew⟩ := Threads.step_pending h
  rw [total_step (k := .attached j) (.inl rfl) hrun hold hnew (hok op hnext)]
  exact Nat.le_add_right ..

end Supervisor
end Willie
