import Willie.Supervisor.Steps

/-!
# Supervisor — what a client's thread does to its own client

A client's thread changes nothing of another client but the list they are
both on, and there only its own entry. An id is on the list only once its
thread has registered it.
-/

namespace Willie
namespace Supervisor

variable {s s' : Shared} {id j line : ℕ} {role : Role} {cont : List Op} {op : Op} {i : In}
  {frames : List Bytes} {bytes : Bytes} {room : List (ℕ × ℕ)}

/-- The thread has not come to register its client. -/
def Stage.early : Stage → Bool
  | .unborn | .snapshot .. | .replay .. | .registering _ => true
  | _ => false

/-- **What a client's thread may change**: of the clients, its own. -/
structure Own (id : ℕ) (s s' : Shared) : Prop where
  rest : s' = { s with
    stage := s'.stage, queue := s'.queue, joined := s'.joined, since := s'.since
    clients := s'.clients, shut := s'.shut, slow := s'.slow, left := s'.left }
  stage : ∀ j, j ≠ id → s'.stage j = s.stage j
  queue : ∀ j, j ≠ id → s'.queue j = s.queue j
  joined : ∀ j, j ≠ id → s'.joined j = s.joined j
  since : ∀ j, j ≠ id → s'.since j = s.since j
  clients : ∀ h : Handle, h.id ≠ id → (h ∈ s'.clients ↔ h ∈ s.clients)
  slow : ∀ j, j ≠ id → (j ∈ s'.slow ↔ j ∈ s.slow)
  left : ∀ j, j ≠ id → (j ∈ s'.left ↔ j ∈ s.left)

theorem send_queue_ne (hj : j ≠ id) {msgs : List Msg} : (s.send id msgs).queue j = s.queue j := by
  rw [queue_send, if_neg fun h => hj h.1, List.append_nil]

theorem ClientStep.own {st : Stage} (h : ClientStep s id st i s' cont) : Own id s s' := by
  cases h with
  | register =>
    refine ⟨rfl, fun j hj => ?_, fun _ _ => rfl, fun _ _ => rfl, fun j hj => ?_, fun c hc => ?_,
      fun _ _ => .rfl, fun _ _ => .rfl⟩
    · simp [hj]
    · simp [hj]
    · refine ⟨fun hm => (List.mem_append.mp hm).resolve_right fun he => hc ?_,
        List.mem_append_left _⟩
      rw [List.mem_singleton.mp he]
  | sent | dropped | shut | status =>
    refine ⟨rfl, ?_, fun j hj => send_queue_ne hj, fun _ _ => rfl, fun _ _ => rfl,
      fun _ _ => .rfl, ?_, fun _ _ => .rfl⟩
    all_goals
      intro j hj
      simp [hj]
  | _ =>
    refine ⟨rfl, ?_, fun _ _ => rfl, ?_, fun _ _ => rfl, ?_, fun _ _ => .rfl, ?_⟩
    all_goals
      intro j hj
      simp [hj]

/-! ## The main thread, seen by the clients -/

/-- What the main thread leaves of the clients: it takes some off the list,
and their stages are their own. -/
structure Aside (s s' : Shared) : Prop where
  stage : s'.stage = s.stage
  nextId : s'.nextId = s.nextId
  joined : s'.joined = s.joined
  since : s'.since = s.since
  gone : s'.gone = s.gone
  left : s'.left = s.left
  clients : s'.clients.Sublist s.clients
  taken : ∀ h ∈ s'.taken, h ∈ s.taken ∨ h ∈ s.clients

theorem MainStep.aside {main : Main} (h : MainStep s main i s' cont) : Aside s s' := by
  cases h with
  | fanOut => exact ⟨rfl, rfl, rfl, rfl, rfl, rfl, List.filter_sublist, fun _ => .inl⟩
  | take => exact ⟨rfl, rfl, rfl, rfl, rfl, rfl, List.nil_sublist _, fun _ => List.mem_append.mp⟩
  | _ => exact ⟨rfl, rfl, rfl, rfl, rfl, rfl, .refl _, fun _ => .inl⟩

/-- Only the main thread goes on with what it does, and takes the list. -/
theorem main_of_run (h : run op i s = some (s', cont)) (hop : op ≠ .main) :
    s'.main = s.main ∧ s'.taken = s.taken := by
  cases does_of_run h with
  | main h => exact absurd rfl hop
  | client h =>
    have hrest := h.own.rest
    exact ⟨by rw [hrest], by rw [hrest]⟩
  | unstarted hs | started hs | fanOut hs | world hs =>
    rw [hs]
    exact ⟨rfl, rfl⟩
  | quiet hs =>
    rw [hs]
    exact ⟨rfl, rfl⟩

/-! ## The list -/

/-- **Who is on the list**: a client whose thread serves it, or is about to
take it off, and each once. -/
structure Numbered (s : Shared) : Prop where
  unborn : ∀ id, s.nextId < id → s.stage id = .unborn
  listed : ∀ h ∈ s.clients, s.stage h.id = .serving h.role ∨ s.stage h.id = .leaving h.role
  nodup : s.clients.Nodup
  taken : ∀ h ∈ s.taken, (s.stage h.id).early = false

theorem Numbered.not_early (hn : Numbered s) {h : Handle} (hh : h ∈ s.clients) :
    (s.stage h.id).early = false := by
  rcases hn.listed h hh with hst | hst <;> rw [hst] <;> rfl

theorem Numbered.not_mem (hn : Numbered s) (h : (s.stage id).early = true) :
    ⟨id, role⟩ ∉ s.clients := fun hmem => by
  have := hn.not_early hmem
  rw [h] at this
  cases this

theorem Numbered.aside (hn : Numbered s) (ha : Aside s s') : Numbered s' where
  unborn id hid := by
    rw [ha.nextId] at hid
    rw [ha.stage]
    exact hn.unborn id hid
  listed h hh := by
    rw [ha.stage]
    exact hn.listed h (ha.clients.subset hh)
  nodup := hn.nodup.sublist ha.clients
  taken h hh := by
    rw [ha.stage]
    exact (ha.taken h hh).elim (hn.taken h) hn.not_early

/-- A thread changes the stage of its own client only, and puts it on the
list, or takes it off, where its stage says so. -/
theorem Numbered.own (hn : Numbered s) (ho : Own id s s') (hid : s.stage id ≠ .unborn)
    (hl : ∀ h ∈ s'.clients, h.id = id →
      s'.stage id = .serving h.role ∨ s'.stage id = .leaving h.role)
    (hnd : s'.clients.Nodup) (he : (s.stage id).early = false → (s'.stage id).early = false) :
    Numbered s' where
  unborn j hj := by
    have hnext : s'.nextId = s.nextId := by rw [ho.rest]
    rw [hnext] at hj
    have hne : j ≠ id := fun he => hid (he ▸ hn.unborn j hj)
    rw [ho.stage j hne]
    exact hn.unborn j hj
  listed h hh := by
    by_cases hne : h.id = id
    · rw [hne]
      exact hl h hh hne
    · rw [ho.stage _ hne]
      exact hn.listed h ((ho.clients h hne).mp hh)
  nodup := hnd
  taken h hh := by
    have htaken : s'.taken = s.taken := by rw [ho.rest]
    rw [htaken] at hh
    by_cases hne : h.id = id
    · rw [hne]
      exact he (hne ▸ hn.taken h hh)
    · rw [ho.stage _ hne]
      exact hn.taken h hh

theorem Numbered.client (hn : Numbered s) (h : ClientStep s id (s.stage id) i s' cont) :
    Numbered s' := by
  have ho := h.own
  have hid : s.stage id ≠ .unborn := fun hst => by
    rw [hst] at h
    cases h
  -- a handle of the client's own that is on the list says what its stage is
  have hself (c : Handle) (hc : c ∈ s.clients) (hcid : c.id = id) :
      s.stage id = .serving c.role ∨ s.stage id = .leaving c.role := hcid ▸ hn.listed c hc
  have hnd := hn.nodup
  generalize hst : s.stage id = st at h hself
  cases h with
  | register =>
    refine hn.own ho hid (fun c hc hcid => ?_) ?_ fun he => by rw [hst] at he; cases he
    · rcases List.mem_append.mp hc with hc | hc
      · rcases hself c hc hcid with he | he <;> cases he
      · rw [List.mem_singleton.mp hc]
        exact .inl (Function.update_self ..)
    · have hnew (role : Role) : ⟨id, role⟩ ∉ s.clients := hn.not_mem (by rw [hst]; rfl)
      refine List.nodup_append.mpr ⟨hnd, List.nodup_singleton _, fun a ha b hb hab => ?_⟩
      rw [hab, List.mem_singleton.mp hb] at ha
      exact hnew _ ha
  | idle | resize | stop | status =>
    exact hn.own ho hid (fun c hc hcid => hst ▸ hself c hc hcid) hnd fun he => he
  | unread | detach | hangup =>
    refine hn.own ho hid (fun c hc hcid => .inr ?_) hnd fun _ => ?_
    · rcases hself c hc hcid with he | he
      · rw [← Stage.serving.inj he]
        exact Function.update_self ..
      · cases he
    · simp [Stage.early]
  | leave =>
    refine hn.own ho hid (fun c hc hcid => ?_) (hnd.sublist List.filter_sublist) fun _ => ?_
    · simp [hcid] at hc
    · simp [Stage.early]
  | shut =>
    refine hn.own ho hid (fun c hc hcid => ?_) hnd fun _ => ?_
    · rcases hself c hc hcid with he | he <;> cases he
    · simp [Stage.early]
  | _ =>
    exact hn.own ho hid (fun c hc hcid => by rcases hself c hc hcid with he | he <;> cases he) hnd
      fun he => by rw [hst] at he; cases he

/-- **Every operation keeps the list.** -/
theorem Numbered.run (hn : Numbered s) (h : run op i s = some (s', cont)) : Numbered s' := by
  cases does_of_run h with
  | main h => exact hn.aside h.aside
  | client h => exact hn.client h
  | unstarted hs =>
    rw [hs]
    exact ⟨fun id hid => hn.unborn id (Nat.lt_of_succ_lt hid), hn.listed, hn.nodup, hn.taken⟩
  | @started role rows cols hs =>
    have hborn := hn.unborn (s.nextId + 1) (Nat.lt_succ_self _)
    have hne (c : Handle) (hc : c ∈ s.clients ++ s.taken) : c.id ≠ s.nextId + 1 := fun he => by
      rcases List.mem_append.mp hc with hc | hc
      · have hearly := hn.not_early hc
        rw [he, hborn] at hearly
        cases hearly
      · have hearly := hn.taken c hc
        rw [he, hborn] at hearly
        cases hearly
    rw [hs]
    refine ⟨fun id hid => ?_, fun c hc => ?_, hn.nodup, fun c hc => ?_⟩
    · have hid' : s.nextId + 1 < id := hid
      dsimp only
      rw [Function.update_of_ne (Nat.ne_of_gt hid')]
      exact hn.unborn id (Nat.lt_of_succ_lt hid')
    · dsimp only
      rw [Function.update_of_ne (hne c (List.mem_append_left _ hc))]
      exact hn.listed c hc
    · dsimp only
      rw [Function.update_of_ne (hne c (List.mem_append_right _ hc))]
      exact hn.taken c hc
  | fanOut hs =>
    rw [hs]
    exact ⟨hn.unborn, fun c hc => hn.listed c (List.mem_of_mem_filter hc),
      hn.nodup.sublist List.filter_sublist, hn.taken⟩
  | world hs =>
    rw [hs]
    exact ⟨hn.unborn, hn.listed, hn.nodup, hn.taken⟩
  | quiet hs =>
    rw [hs]
    exact ⟨hn.unborn, hn.listed, hn.nodup, hn.taken⟩

theorem numbered_start {at_ : String} {pid n : ℕ} {mechanisms unavailable : List String} :
    Numbered (start at_ pid mechanisms unavailable n).shared :=
  ⟨fun _ _ => rfl, fun _ h => (List.not_mem_nil h).elim, List.nodup_nil,
    fun _ h => (List.not_mem_nil h).elim⟩

theorem pending_start {at_ : String} {pid n : ℕ} {mechanisms unavailable : List String}
    (h : op ∈ (start at_ pid mechanisms unavailable n).pending) :
    op = .main ∨ op = .filter ∨ op = .signals ∨ op = .world ∨ op = .hello := by
  simp [start, Threads.State.pending] at h
  rcases h with rfl | rfl | rfl | rfl | ⟨-, rfl⟩ <;> simp

/-- No work is under way at the start. -/
theorem load_start {at_ : String} {pid n : ℕ} {mechanisms unavailable : List String} {f : Op → ℕ}
    (hmain : f .main = 0) (hfilter : f .filter = 0) (hsignals : f .signals = 0)
    (hworld : f .world = 0) (hhello : f .hello = 0) :
    (start at_ pid mechanisms unavailable n).load f = 0 := by
  refine Threads.load_eq_zero fun op hop => ?_
  rcases pending_start hop with rfl | rfl | rfl | rfl | rfl <;> assumption

/-! ## Who comes onto the list -/

/-- A client is on the list after its thread's step if it was, or the step
registered it. -/
theorem ClientStep.listed {st : Stage} (h : ClientStep s id st i s' cont)
    (hmem : ⟨id, role⟩ ∈ s'.clients) :
    ⟨id, role⟩ ∈ s.clients ∨ (st = .registering role ∧ i = .go ∧
      s'.queue = s.queue ∧ s'.joined = s.joined ∧ s'.since id = s.log.length) := by
  cases h with
  | register =>
    rcases List.mem_append.mp hmem with hm | hm
    · exact .inl hm
    · obtain ⟨-, rfl⟩ := Handle.mk.inj (List.mem_singleton.mp hm)
      exact .inr ⟨rfl, rfl, rfl, rfl, Function.update_self ..⟩
  | leave => exact .inl (List.mem_of_mem_filter hmem)
  | _ => exact .inl hmem

/-- A thread past the list leaves its client's marks. -/
theorem ClientStep.marks {st : Stage} (h : ClientStep s id st i s' cont) (hst : st.early = false) :
    s'.joined = s.joined ∧ s'.since = s.since := by
  cases h with
  | snapshot | register => cases hst
  | _ => exact ⟨rfl, rfl⟩

/-- A thread past the list does not come back to it. -/
theorem ClientStep.early (h : ClientStep s id (s.stage id) i s' cont)
    (he : (s.stage id).early = false) : (s'.stage id).early = false := by
  generalize hst : s.stage id = st at h he
  cases h with
  | idle | resize | stop | status => exact hst ▸ rfl
  | unread | detach | hangup | leave | shut => simp [Stage.early]
  | _ => cases he

theorem early_of_run (hn : Numbered s) (h : run op i s = some (s', cont))
    (he : (s'.stage j).early = true) : (s.stage j).early = true := by
  cases does_of_run h with
  | main h => rwa [h.aside.stage] at he
  | @client id i h =>
    by_cases hj : j = id
    · subst hj
      by_contra hne
      rw [h.early (Bool.eq_false_of_not_eq_true hne)] at he
      cases he
    · rwa [h.own.stage j hj] at he
  | started hs =>
    by_cases hj : j = s.nextId + 1
    · rw [hj, hn.unborn _ (Nat.lt_succ_self _)]
      rfl
    · rw [hs] at he
      dsimp only at he
      rwa [Function.update_of_ne hj] at he
  | unstarted hs | fanOut hs | world hs => rwa [hs] at he
  | quiet hs => rwa [hs] at he

/-- A client on the list was on it, with its mark, or is registered now. -/
theorem listed_of_run (hn : Numbered s) (h : run op i s = some (s', cont))
    (hmem : ⟨j, role⟩ ∈ s'.clients) :
    (⟨j, role⟩ ∈ s.clients ∧ s'.since j = s.since j) ∨
      (op = .client j ∧ i = .go ∧ s.stage j = .registering role ∧
        s'.since j = s.log.length) := by
  cases does_of_run h with
  | main h =>
    have ha := h.aside
    exact .inl ⟨ha.clients.subset hmem, by rw [ha.since]⟩
  | @client id i h =>
    by_cases hj : j = id
    · subst hj
      rcases h.listed hmem with hm | ⟨hst, hi, -, -, hsince⟩
      · exact .inl ⟨hm, by rw [(h.marks (hn.not_early hm)).2]⟩
      · exact .inr ⟨rfl, hi, hst, hsince⟩
    · have ho := h.own
      exact .inl ⟨(ho.clients _ hj).mp hmem, ho.since j hj⟩
  | fanOut hs =>
    rw [hs] at hmem ⊢
    exact .inl ⟨List.mem_of_mem_filter hmem, rfl⟩
  | unstarted hs | started hs | world hs =>
    rw [hs] at hmem ⊢
    exact .inl ⟨hmem, rfl⟩
  | quiet hs =>
    rw [hs] at hmem ⊢
    exact .inl ⟨hmem, rfl⟩

end Supervisor
end Willie
