import Mathlib.Data.List.Infix
import Willie.Supervisor.Clients

/-!
# Supervisor — what becomes of a client

A client is on its way to the list, or on it, or `finish` has taken it and is
still to tell it; else it left, or was dropped, or its connection broke, or
`finish` handed it a last frame that says why, which its writer writes before
its socket is shut down.
-/

namespace Willie
namespace Supervisor

variable {s s' : Shared} {id j : ℕ} {role : Role} {cont : List Op} {op : Op} {i : In}
  {q q' : List Msg} {c : Closed} {excused excused' : List ℕ}

/-! ## What is written -/

def Msg.isClosed : Msg → Bool
  | .closed _ => true
  | _ => false

/-- The last frame that is written says that it is closed. -/
def told (q : List Msg) : Bool := (written q).getLast?.any Msg.isClosed

theorem exists_of_told (h : told q = true) :
    ∃ data c, written q = data ++ [.closed c] ∧ data.any Msg.isClose = false := by
  obtain ⟨msg, hlast, hmsg⟩ := (Option.any_eq_true ..).mp h
  obtain ⟨data, hdata⟩ := List.getLast?_eq_some_iff.mp hlast
  cases msg with
  | closed c => exact ⟨data, c, hdata, Absorb.upTo_snoc hdata⟩
  | _ => cases hmsg

theorem any_isClose_of_told (h : told q = true) : q.any Msg.isClose = true := by
  obtain ⟨data, c, hwritten, -⟩ := exists_of_told h
  rw [← Absorb.any_upTo]
  change (written q).any Msg.isClose = true
  rw [hwritten]
  simp [Msg.isClose]

/-- What is handed after a last frame is not written. -/
theorem written_of_told (h : told q = true) (hq : q <+: q') : written q' = written q := by
  obtain ⟨more, rfl⟩ := hq
  exact Absorb.upTo_append_of_any (any_isClose_of_told h)

theorem told_mono (h : told q = true) (hq : q <+: q') : told q' = true := by
  rwa [told, written_of_told h hq]

theorem told_append_closed (h : q.any Msg.isClose = false) : told (q ++ [.closed c]) = true := by
  rw [told, written, Absorb.upTo_append_of_none h]
  have hlast : Absorb.upTo Msg.isClose [.closed c] = [.closed c] := rfl
  rw [hlast, List.getLast?_concat]
  rfl

/-! ## What only grows -/

/-- What nothing takes back: who was dropped, who left, whose connection
broke, whom `finish` took, what a client was handed, and what its socket has
taken. -/
structure Grows (s s' : Shared) : Prop where
  slow : s.slow ⊆ s'.slow
  left : s.left ⊆ s'.left
  gone : s.gone ⊆ s'.gone
  taken : s.taken ⊆ s'.taken
  queue : ∀ j, s.queue j <+: s'.queue j
  sent : ∀ j, s.sent j ≤ s'.sent j

theorem queue_le_send {msgs : List Msg} : s.queue j <+: (s.send id msgs).queue j := by
  rw [queue_send]
  exact List.prefix_append ..

theorem MainStep.grows {main : Main} (h : MainStep s main i s' cont) : Grows s s' := by
  cases h with
  | fanOut =>
    refine ⟨List.subset_append_left .., fun _ h => h, fun _ h => h, fun _ h => h, fun j => ?_,
      fun _ => le_rfl⟩
    dsimp only [Shared.fanOutOutput]
    split
    · rw [List.append_assoc]
      exact List.prefix_append ..
    · exact List.prefix_rfl
  | close =>
    exact ⟨fun _ h => h, fun _ h => h, fun _ h => h, fun _ h => h, fun j => queue_le_send,
      fun _ => le_rfl⟩
  | take =>
    exact ⟨fun _ h => h, fun _ h => h, fun _ h => h, List.subset_append_left ..,
      fun j => List.prefix_rfl, fun _ => le_rfl⟩
  | _ =>
    exact ⟨fun _ h => h, fun _ h => h, fun _ h => h, fun _ h => h, fun j => List.prefix_rfl,
      fun _ => le_rfl⟩

theorem ClientStep.grows {st : Stage} (h : ClientStep s id st i s' cont) : Grows s s' := by
  cases h with
  | sent | dropped | status | shut =>
    exact ⟨by simp, fun _ h => h, fun _ h => h, fun _ h => h, fun j => queue_le_send,
      fun _ => le_rfl⟩
  | _ =>
    exact ⟨fun _ h => h, by simp, fun _ h => h, fun _ h => h, fun j => List.prefix_rfl,
      fun _ => le_rfl⟩

theorem grows_of_run (h : run op i s = some (s', cont)) : Grows s s' := by
  cases does_of_run h with
  | main h => exact h.grows
  | client h => exact h.grows
  | unstarted hs | started hs =>
    rw [hs]
    exact ⟨fun _ h => h, fun _ h => h, fun _ h => h, fun _ h => h, fun _ => List.prefix_rfl,
      fun _ => le_rfl⟩
  | fanOut hs =>
    rw [hs]
    exact ⟨List.subset_append_left .., fun _ h => h, fun _ h => h, fun _ h => h,
      fun _ => List.prefix_append .., fun _ => le_rfl⟩
  | world hs =>
    rw [hs]
    exact ⟨fun _ h => h, fun _ h => h, List.subset_cons_self .., fun _ h => h,
      fun _ => List.prefix_rfl, fun _ => le_rfl⟩
  | quiet hs hsent =>
    refine ⟨?_, ?_, ?_, ?_, ?_, hsent⟩
    all_goals rw [hs]
    · exact fun _ h => h
    · exact fun _ h => h
    · exact fun _ h => h
    · exact fun _ h => h
    · exact fun _ => List.prefix_rfl

/-- Once all is written to a client that is told, nothing more is. -/
theorem Grows.unwritten (hg : Grows s s') (ht : told (s.queue id) = true)
    (h : s.unwritten id = []) : s'.unwritten id = [] := by
  rw [Shared.unwritten, List.drop_eq_nil_iff] at h ⊢
  rw [written_of_told ht (hg.queue id)]
  exact h.trans (hg.sent id)

/-! ## What becomes of a client -/

/-- The clients `finish` has taken and is still to tell. -/
def Main.closing : Main → List ℕ
  | .close ids _ => ids
  | _ => []

/-- The sockets are shut down, or about to be. -/
def Main.drained : Main → Bool
  | .shutDown .. | .done _ => true
  | _ => false

/-- `finish` waits for the clients to drain. -/
def Main.drains : Main → Bool
  | .drain _ => true
  | _ => false

/-- The client is on its way to the list, or its thread serves it and it is on
the list, or is still to be told. -/
def Waits (s : Shared) (id : ℕ) : Prop :=
  (s.stage id).early = true ∨
    ∃ role, s.stage id = .serving role ∧ (⟨id, role⟩ ∈ s.clients ∨ id ∈ s.main.closing)

/-- The client was taken by `finish`. -/
def Taken (s : Shared) (id : ℕ) : Prop := ∃ h ∈ s.taken, h.id = id

/-- All was written to the client, or its connection broke, or it left. -/
def Served (s : Shared) (id : ℕ) : Prop := s.unwritten id = [] ∨ id ∈ s.gone ∨ id ∈ s.left

/-- **What becomes of a client**: it waits, and was handed no last frame; or
it need not be told, or `finish` told it, and once the clients are drained it
was written that. -/
inductive Fate (excused : List ℕ) (s : Shared) (id : ℕ) : Prop
  | waits (hw : Waits s id) (hq : (s.queue id).any Msg.isClose = false)
  | excused (h : id ∈ excused)
  | left (h : id ∈ s.left)
  | gone (h : id ∈ s.gone)
  | told (h : told (s.queue id) = true) (ht : Taken s id)
    (hwritten : s.main.drained = true → s.unwritten id = [])

/-- A client that does not wait is done with. -/
theorem Fate.keep (hf : Fate excused s id) (hg : Grows s s') (he : excused ⊆ excused')
    (hd : s'.main.drained = true → s.main.drained = true ∨ (Taken s id → Served s id))
    (hw : Waits s id → (s.queue id).any Msg.isClose = false → Fate excused' s' id) :
    Fate excused' s' id := by
  cases hf with
  | waits h hq => exact hw h hq
  | excused h => exact .excused (he h)
  | left h => exact .left (hg.left h)
  | gone h => exact .gone (hg.gone h)
  | told h ht hwritten =>
    have ht' : Taken s' id := ht.imp fun c hc => ⟨hg.taken hc.1, hc.2⟩
    by_cases hdrained : s'.main.drained = true
    · -- the drain is over, so the last frame is written
      rcases hd hdrained with hwas | hserved
      · exact .told (told_mono h (hg.queue id)) ht' fun _ => hg.unwritten h (hwritten hwas)
      · rcases hserved ht with hnone | hgone | hleft
        · exact .told (told_mono h (hg.queue id)) ht' fun _ => hg.unwritten h hnone
        · exact .gone (hg.gone hgone)
        · exact .left (hg.left hleft)
    · exact .told (told_mono h (hg.queue id)) ht' fun hd => absurd hd hdrained

/-- It waits on, if nothing of it changes but what it was handed. -/
theorem Waits.frame (hw : Waits s id) (hst : s'.stage id = s.stage id)
    (hc : ∀ role, ⟨id, role⟩ ∈ s.clients → ⟨id, role⟩ ∈ s'.clients ∨ id ∈ s'.main.closing)
    (hm : id ∈ s.main.closing → id ∈ s'.main.closing) : Waits s' id := by
  unfold Waits
  rw [hst]
  refine hw.imp_right fun ⟨role, hrole, hin⟩ => ⟨role, hrole, ?_⟩
  rcases hin with hin | hin
  · exact hc role hin
  · exact .inr (hm hin)

theorem any_isClose_output {frames : List Bytes} :
    (frames.map Msg.output).any Msg.isClose = false := by
  simp [Msg.isClose]

/-- A broadcast hands a waiting terminal its output, or drops it. -/
theorem Fate.broadcast {bytes : Bytes} {room : List (ℕ × ℕ)}
    (hm : s.main = .fanOut bytes) (hw : Waits s id)
    (hq : (s.queue id).any Msg.isClose = false)
    (hdrop : ∀ h ∈ s.clients, s.keepsOutput (chunks bytes) room h = false → h.id ∈ excused) :
    Fate excused (s.fanOutOutput bytes room) id := by
  have hclosing : s.main.closing = [] := by rw [hm]; rfl
  by_cases hin : ⟨id, .terminal⟩ ∈ s.clients ∧ id ∉ s.gone
  · by_cases hfits : (chunks bytes).length ≤ s.roomFor (chunks bytes) room id
    · refine .waits (hw.frame rfl (fun role hc => ?_) fun h => ?_) ?_
      · refine .inl (List.mem_filter.mpr ⟨hc, ?_⟩)
        simp [Shared.keepsOutput, hfits]
      · rw [hclosing] at h
        cases h
      · dsimp only [Shared.fanOutOutput]
        rw [if_pos hin, if_pos hfits, List.append_nil, List.any_append, hq, any_isClose_output]
        rfl
    · exact .excused (hdrop _ hin.1 (by simpa [Shared.keepsOutput] using hfits))
  · by_cases hgone : id ∈ s.gone
    · exact .gone hgone
    · refine .waits (hw.frame rfl (fun role hc => ?_) fun h => ?_) ?_
      · cases role with
        | terminal => exact absurd ⟨hc, hgone⟩ hin
        | control => exact .inl (List.mem_filter.mpr ⟨hc, rfl⟩)
      · rw [hclosing] at h
        cases h
      · dsimp only [Shared.fanOutOutput]
        rwa [if_neg hin]

theorem Fate.main (hf : Fate excused s id) (he : excused ⊆ excused')
    (hclosing : ∀ j ∈ s.main.closing, Taken s j)
    (hbroad : ∀ bytes room, s.main = .fanOut bytes → i = .room room → ∀ h ∈ s.clients,
      s.keepsOutput (chunks bytes) room h = false → h.id ∈ excused')
    (hserved : s.main.drains = true → i = .outcome false → ∀ h ∈ s.taken, Served s h.id)
    (h : MainStep s s.main i s' cont) : Fate excused' s' id := by
  have hdrained : s'.main.drained = true → s.main.drained = true ∨ (Taken s id → Served s id) := by
    intro hd
    generalize s.main = main at h hserved
    cases h with
    | read =>
      dsimp only at hd
      split at hd <;> cases hd
    | @drained c early hend =>
      refine .inr ?_
      rintro ⟨c, hc, rfl⟩
      cases early with
      | true => exact .inl (hend rfl c hc)
      | false => exact hserved rfl rfl c hc
    | shutDown | finished => exact .inl rfl
    | _ => cases hd
  refine hf.keep h.grows he hdrained fun hw hq => ?_
  have hframe (hst : s'.stage = s.stage) (hqueue : s'.queue = s.queue)
      (hc : ∀ role, ⟨id, role⟩ ∈ s.clients → ⟨id, role⟩ ∈ s'.clients ∨ id ∈ s'.main.closing)
      (hm : id ∈ s.main.closing → id ∈ s'.main.closing) : Fate excused' s' id :=
    .waits (hw.frame (by rw [hst]) hc hm) (by rw [hqueue]; exact hq)
  generalize hmain : s.main = main at h hframe
  cases h with
  | @fanOut bytes room => exact .broadcast hmain hw hq (hbroad bytes room hmain rfl)
  | take =>
    exact hframe rfl rfl (fun role hc => .inr (List.mem_map.mpr ⟨_, hc, rfl⟩)) fun h => (nomatch h)
  | @close told ids c =>
    by_cases hgone : id ∈ s.gone
    · exact .gone hgone
    by_cases hid : id = told
    · have htaken : Taken s id := hclosing id (by rw [hmain, hid]; exact List.mem_cons_self ..)
      refine .told ?_ htaken fun h => (nomatch h)
      dsimp only
      rw [queue_send, if_pos ⟨hid, hid ▸ hgone⟩]
      exact told_append_closed hq
    · refine .waits (hw.frame rfl (fun role hc => .inl hc) fun hin => ?_) ?_
      · rw [hmain] at hin
        exact (List.mem_cons.mp hin).resolve_left hid
      · dsimp only
        rwa [send_queue_ne hid]
  | _ => exact hframe rfl rfl (fun role hc => .inl hc) fun h => (nomatch h)

/-- The client may leave its loop because its input could not be written: it
is not on the list, nor still to be told, or its connection broke. -/
def Unheard (s : Shared) (id : ℕ) : Prop :=
  id ∈ s.gone ∨ (∀ role, ⟨id, role⟩ ∉ s.clients) ∧ id ∉ s.main.closing

theorem Fate.client (hf : Fate excused s id) (he : excused ⊆ excused')
    (hok : ∀ role, s.stage id = .serving role → i = .frame (.input false) → Unheard s id)
    (hslow : i = .outcome false → id ∈ excused' ∨ id ∈ s.gone)
    (h : ClientStep s id (s.stage id) i s' cont) : Fate excused' s' id := by
  have hmain : s'.main = s.main := by rw [h.own.rest]
  refine hf.keep h.grows he (fun hd => .inl (hmain ▸ hd)) fun hw hq => ?_
  generalize hst : s.stage id = st at h
  cases h with
  | snapshot | replayed => exact .waits (.inl (by simp [Stage.early])) hq
  | sent hgone =>
    refine .waits (.inl (by simp [Stage.early])) ?_
    dsimp only
    rw [queue_send, if_pos ⟨rfl, hgone⟩, List.any_append, hq]
    rfl
  | @dropped _ _ _ _ ok hdrop =>
    by_cases hgone : id ∈ s.gone
    · exact .gone hgone
    · have hok : ok = false := by simpa [hgone] using hdrop
      exact .excused ((hslow (by rw [hok])).resolve_right hgone)
  | @register role => exact .waits (.inr ⟨role, by simp, .inl (by simp)⟩) hq
  | idle | resize | stop => exact .waits hw hq
  | @unread role =>
    rcases hok role hst rfl with hgone | ⟨hlist, hclosing⟩
    · exact .gone hgone
    · rcases hw with he | ⟨role', -, hin | hin⟩
      · rw [hst] at he
        cases he
      · exact absurd hin (hlist role')
      · exact absurd hin hclosing
  | status =>
    refine .waits hw ?_
    rw [queue_send, List.any_append, hq]
    split <;> rfl
  | detach | hangup => exact .left (List.mem_cons_self ..)
  | leave | shut => rcases hw with hw | ⟨_, hw, -⟩ <;> rw [hst] at hw <;> cases hw

/-- A thread does nothing to another's client. -/
theorem Fate.own (hf : Fate excused s j) (he : excused ⊆ excused') (ho : Own id s s')
    (hg : Grows s s') (hj : j ≠ id) : Fate excused' s' j := by
  have hmain : s'.main = s.main := by rw [ho.rest]
  refine hf.keep hg he (fun hd => .inl (hmain ▸ hd)) fun hw hq =>
    .waits (hw.frame (ho.stage j hj) (fun role hc => ?_) ?_) ?_
  · exact .inl ((ho.clients _ hj).mpr hc)
  · rw [hmain]
    exact fun h => h
  · rwa [ho.queue j hj]

/-- A fan-out drops control clients that do not keep up. -/
theorem Fate.fanOut {ev : Sessions.SessionEvent} {refused : List ℕ} (hw : Waits s id)
    (hq : (s.queue id).any Msg.isClose = false)
    (hdrop : ∀ h ∈ s.clients, s.keepsEvent refused h = false → h.id ∈ excused ∨ h.id ∈ s.gone) :
    Fate excused (s.fanOutEvent ev refused) id := by
  by_cases hin : ∃ role, ⟨id, role⟩ ∈ s.clients ∧ s.keepsEvent refused ⟨id, role⟩ = false
  · obtain ⟨role, hmem, hkeeps⟩ := hin
    rcases hdrop _ hmem hkeeps with h | h
    · exact .excused h
    · exact .gone h
  · refine .waits (hw.frame rfl (fun role hc => .inl ?_) fun h => h) ?_
    · refine List.mem_filter.mpr ⟨hc, ?_⟩
      exact eq_true_of_ne_false fun hkeeps => hin ⟨role, hc, hkeeps⟩
    · dsimp only [Shared.fanOutEvent]
      rw [List.any_append, hq]
      split <;> rfl

/-- **A step keeps every client's fate**: who is dropped by it is excused,
who leaves it unasked is not to be told, and the drain ends when all that were
taken are served. -/
theorem Fate.run (hf : Fate excused s j) (he : excused ⊆ excused')
    (hclosing : ∀ j ∈ s.main.closing, Taken s j)
    (hok : ∀ id role, op = .client id → s.stage id = .serving role →
      i = .frame (.input false) → Unheard s id)
    (hslow : ∀ id, op = .client id → i = .outcome false → id ∈ excused' ∨ id ∈ s.gone)
    (hdrop : ∀ line ev refused, op = .fanOut line ev → i = .refused refused → ∀ h ∈ s.clients,
      s.keepsEvent refused h = false → h.id ∈ excused' ∨ h.id ∈ s.gone)
    (hbroad : ∀ bytes room, op = .main → s.main = .fanOut bytes → i = .room room →
      ∀ h ∈ s.clients, s.keepsOutput (chunks bytes) room h = false → h.id ∈ excused')
    (hserved : op = .main → s.main.drains = true → i = .outcome false →
      ∀ h ∈ s.taken, Served s h.id)
    (h : run op i s = some (s', cont)) : Fate excused' s' j := by
  have hg := grows_of_run h
  have hmain (hop : op ≠ .main) (hd : s'.main.drained = true) :
      s.main.drained = true ∨ (Taken s j → Served s j) := .inl ((main_of_run h hop).1 ▸ hd)
  cases does_of_run h with
  | main h =>
    exact hf.main he hclosing (fun bytes room => hbroad bytes room rfl) (hserved rfl) h
  | @client id i h =>
    by_cases hj : j = id
    · subst hj
      exact hf.client he (fun role => hok j role rfl) (hslow j rfl) h
    · exact hf.own he h.own hg hj
  | unstarted hs | world hs =>
    refine hf.keep hg he (hmain (by simp)) fun hw hq => ?_
    rw [hs]
    exact .waits hw hq
  | @started role rows cols hs =>
    refine hf.keep hg he (hmain (by simp)) fun hw hq => ?_
    rw [hs]
    refine .waits ?_ hq
    by_cases hj : j = s.nextId + 1
    · refine .inl ?_
      rw [hj]
      cases role <;> simp [Stage.early]
    · exact hw.frame (Function.update_of_ne hj ..) (fun role hc => .inl hc) fun h => h
  | @fanOut line ev refused hs =>
    refine hf.keep hg he (hmain (by simp)) fun hw hq => ?_
    rw [hs]
    exact .fanOut hw hq (hdrop line ev refused rfl rfl)
  | quiet hs =>
    refine hf.keep hg he (fun hd => ?_) fun hw hq => ?_
    · rw [hs] at hd
      exact .inl hd
    · rw [hs]
      exact .waits hw hq

end Supervisor
end Willie
