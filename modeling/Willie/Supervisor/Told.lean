import Willie.Supervisor.Fates

/-!
# Supervisor — every client is told the end

`finish` takes the list and hands everyone on it a last frame; it waits a
while for their writers, and shuts their sockets down. Who is not on the list
then was dropped, or need not be told. A client that is on its way to the list
when it is taken, or leaves it unasked, is told nothing, and one that does not
read in time is not told.
-/

namespace Willie
namespace Supervisor

variable {s s' : Shared} {id j : ℕ} {cont : List Op} {op : Op} {i : In} {c : Closed}
  {m m' mid : State} {turn : ℕ × In} {excused excused' : List ℕ}

/-! ## Once the list is taken -/

/-- The thread is bringing its client to the list. -/
def Stage.attaching : Stage → Bool
  | .snapshot .. | .replay .. | .registering _ => true
  | _ => false

/-- A client said hello before the exit, and has no id yet. -/
def Op.admits : Op → Bool
  | .welcome .. => true
  | _ => false

/-- The exit's phase is set. -/
def Main.exiting : Main → Bool
  | .logExited .. | .readCause .. | .take _ | .close .. | .unlink _ => true
  | .drain _ | .shutDown .. | .done _ => true
  | _ => false

/-- The list is taken. -/
def Main.took : Main → Bool
  | .close .. | .unlink _ | .drain _ | .shutDown .. | .done _ => true
  | _ => false

theorem Main.exiting_of_took {main : Main} (h : main.took = true) : main.exiting = true := by
  cases main with
  | close | unlink | drain | shutDown | done => rfl
  | _ => cases h

theorem Stage.early_of_attaching {st : Stage} (h : st.attaching = true) : st.early = true := by
  cases st with
  | snapshot | replay | registering => rfl
  | _ => cases h

/-- Nobody is on the way to the list. -/
def Nobody (m : State) : Prop :=
  (∀ op ∈ m.pending, op.admits = false) ∧ ∀ id, (m.shared.stage id).attaching = false

/-- **Once the list is taken** it is empty and nobody comes onto it; and
whoever is still to be told was on it. -/
structure Gathered (m : State) : Prop where
  exited : m.shared.main.exiting = true → m.shared.phase = .exited
  clients : m.shared.main.took = true → m.shared.clients = []
  nobody : m.shared.main.took = true → Nobody m
  closing : ∀ id ∈ m.shared.main.closing, Taken m.shared id

/-- Nothing follows the exit. -/
theorem exited_of_run (h : run op i s = some (s', cont)) (hx : s.phase = .exited) :
    s'.phase = .exited := by
  cases step_of_run h with
  | main h =>
    generalize s.main = main at h
    cases h with
    | setExited => rfl
    | _ => exact hx
  | client h =>
    rw [h.own.rest]
    exact hx
  | requestStop hrunning =>
    rw [hx] at hrunning
    cases hrunning
  | _ => exact hx

theorem MainStep.exited (hx : s.main.exiting = true → s.phase = .exited)
    (h : MainStep s s.main i s' cont) (he : s'.main.exiting = true) : s'.phase = .exited := by
  generalize s.main = main at h hx
  cases h with
  | read =>
    dsimp only at he
    split at he <;> cases he
  | setExited => rfl
  | hungUp | push | fanOut | teardown | flush => cases he
  | _ => exact hx rfl

/-- The list is taken once. -/
theorem MainStep.took (h : MainStep s s.main i s' cont) (ht : s'.main.took = true) :
    (∃ c, s.main = .take c) ∧ s'.clients = [] ∨ s.main.took = true ∧ s'.clients = s.clients := by
  generalize s.main = main at h
  cases h with
  | read =>
    dsimp only at ht
    split at ht <;> cases ht
  | @take c => exact .inl ⟨⟨c, rfl⟩, rfl⟩
  | close | closed | unlink | drain | drained | shutDown | finished => exact .inr ⟨rfl, rfl⟩
  | _ => cases ht

/-- Whom it is to tell it took from the list. -/
theorem MainStep.closing (hc : ∀ id ∈ s.main.closing, Taken s id)
    (h : MainStep s s.main i s' cont) : ∀ id ∈ s'.main.closing, Taken s' id := by
  generalize s.main = main at h hc
  intro id hid
  cases h with
  | read =>
    dsimp only at hid
    split at hid <;> cases hid
  | take =>
    obtain ⟨c, hmem, rfl⟩ := List.mem_map.mp hid
    exact ⟨c, List.mem_append_right _ hmem, rfl⟩
  | close => exact hc id (List.mem_cons_of_mem _ hid)
  | _ => cases hid

/-- No hello is accepted after the exit. -/
theorem admits_of_run (h : run op i s = some (s', cont)) (hx : s.phase = .exited) :
    ∀ o ∈ cont, o.admits = false := by
  intro o ho
  cases step_of_run h with
  | main h =>
    generalize s.main = main at h
    cases h <;> grind [Op.admits]
  | client h =>
    generalize s.stage _ = st at h
    cases h <;> grind [Op.admits]
  | hello =>
    rw [if_pos hx] at ho
    cases ho
  | _ => grind [Op.admits]

/-- Nobody sets out for the list but by being admitted. -/
theorem attaching_of_run (h : run op i s = some (s', cont)) (ho : op.admits = false)
    (he : (s'.stage j).attaching = true) : (s.stage j).attaching = true := by
  cases does_of_run h with
  | main h => rwa [h.aside.stage] at he
  | @client id i h =>
    by_cases hj : j = id
    · subst hj
      by_contra hnot
      have hearly : (s.stage j).early = false := by
        cases hst : s.stage j with
        | unborn =>
          rw [hst] at h
          cases h
        | snapshot | replay | registering =>
          rw [hst] at hnot
          exact absurd rfl hnot
        | _ => rfl
      have hpast := h.early hearly
      rw [Stage.early_of_attaching he] at hpast
      cases hpast
    · rwa [h.own.stage j hj] at he
  | unstarted | started => cases ho
  | fanOut hs | world hs => rwa [hs] at he
  | quiet hs => rwa [hs] at he

theorem Gathered.step (hg : Gathered m) (hn : Numbered m.shared)
    (hok : ∀ c, m.next turn.1 = some .main → m.shared.main = .take c → Nobody m)
    (h : step m turn = some m') : Gathered m' := by
  obtain ⟨op, cont, pre, post, hnext, hrun, hold, hnew⟩ := Threads.step_pending h
  have hexited : m'.shared.main.exiting = true → m'.shared.phase = .exited := by
    intro he
    by_cases hmain : op = .main
    · subst hmain
      exact (mainStep_of_runMain hrun).exited hg.exited he
    · rw [(main_of_run hrun hmain).1] at he
      exact exited_of_run hrun (hg.exited he)
  -- the list was taken before, or is now
  have hnobody : m'.shared.main.took = true → Nobody m ∧ m.shared.phase = .exited ∧
      (m'.shared.clients = [] ∨ m.shared.clients = []) := by
    intro ht
    by_cases hmain : op = .main
    · subst hmain
      obtain ⟨⟨c, hc⟩, hclients⟩ | ⟨ht', hclients⟩ := (mainStep_of_runMain hrun).took ht
      · exact ⟨hok c hnext hc, hg.exited (by rw [hc]; rfl), .inl hclients⟩
      · exact ⟨hg.nobody ht', hg.exited (Main.exiting_of_took ht'), .inr (hg.clients ht')⟩
    · rw [(main_of_run hrun hmain).1] at ht
      exact ⟨hg.nobody ht, hg.exited (Main.exiting_of_took ht), .inr (hg.clients ht)⟩
  refine ⟨hexited, fun ht => ?_, fun ht => ?_, ?_⟩
  · obtain ⟨⟨-, hstages⟩, -, hclients | hclients⟩ := hnobody ht
    · exact hclients
    · refine List.eq_nil_iff_forall_not_mem.mpr fun c hc => ?_
      rcases listed_of_run hn hrun hc with ⟨hc, -⟩ | ⟨-, -, hst, -⟩
      · rw [hclients] at hc
        cases hc
      · have hnot := hstages c.id
        rw [hst] at hnot
        cases hnot
  · obtain ⟨⟨hops, hstages⟩, hphase, -⟩ := hnobody ht
    refine ⟨Threads.forall_pending hold hnew hops (fun _ ho => ho) (admits_of_run hrun hphase),
      fun j => ?_⟩
    refine eq_false_of_ne_true fun he => ?_
    have hwas := attaching_of_run hrun (hops op (Threads.next_mem hnext)) he
    rw [hstages j] at hwas
    cases hwas
  · by_cases hmain : op = .main
    · subst hmain
      exact (mainStep_of_runMain hrun).closing hg.closing
    · obtain ⟨hsame, htaken⟩ := main_of_run hrun hmain
      rw [hsame]
      exact fun id hid => (hg.closing id hid).imp fun c hc => ⟨htaken ▸ hc.1, hc.2⟩

/-! ## Every run -/

/-- `finish` has begun. -/
def Main.finishing : Main → Bool
  | .pump | .push _ | .fanOut _ | .teardown .. => false
  | _ => true

/-- `finish` takes the list next. -/
def Main.takes : Main → Bool
  | .take _ => true
  | _ => false

/-- `Nobody`, of the ids there are. -/
def nobody (m : State) : Bool :=
  m.pending.all (fun op => !op.admits) &&
    (List.range (m.shared.nextId + 1)).all fun id => !(m.shared.stage id).attaching

/-- `Served`, of a client. -/
def Shared.serves (s : Shared) (id : ℕ) : Bool :=
  s.unwritten id = [] || id ∈ s.gone || id ∈ s.left

/-- The list is taken when nobody is on the way to it, and the drain's grace is
not over before all that were on it are served; no client that is on it, or
still to be told, leaves because its input could not be written; and while
`finish` runs no client is dropped. -/
def Op.tells (m : State) : Op → In → Bool
  | .main, i => (!m.shared.main.takes || nobody m) &&
      (!m.shared.main.drains || i != .outcome false ||
        m.shared.taken.all fun h => m.shared.serves h.id)
  | .client id, .frame (.input false) => id ∈ m.shared.gone ||
      !(m.shared.clients.any (·.id = id) || id ∈ m.shared.main.closing)
  | .client id, .outcome ok => ok || !m.shared.main.finishing || id ∈ m.shared.gone
  | .fanOut _ _, .refused ids => !m.shared.main.finishing ||
      m.shared.clients.all fun h => m.shared.keepsEvent ids h || h.id ∈ m.shared.gone
  | _, _ => true

def Tells (m : State) (turn : ℕ × In) : Prop :=
  ∀ op ∈ m.next turn.1, op.tells m turn.2 = true

instance (m : State) (turn : ℕ × In) : Decidable (Tells m turn) :=
  inferInstanceAs (Decidable (∀ op ∈ m.next turn.1, _))

theorem nobody_of_tells (hn : Numbered m.shared) (hok : Tells m turn)
    (hnext : m.next turn.1 = some .main) (hm : m.shared.main = .take c) : Nobody m := by
  have hall := (Bool.and_eq_true_iff.mp (hok .main hnext)).1
  rw [hm] at hall
  obtain ⟨hops, hstages⟩ := Bool.and_eq_true_iff.mp hall
  refine ⟨fun op hop => ?_, fun id => ?_⟩
  · simpa using List.all_eq_true.mp hops op hop
  · by_cases hid : id < m.shared.nextId + 1
    · simpa using List.all_eq_true.mp hstages id (List.mem_range.mpr hid)
    · rw [hn.unborn id (by omega)]
      rfl

theorem unheard_of_tells (hok : Tells m turn) (hnext : m.next turn.1 = some (.client id))
    (hi : turn.2 = .frame (.input false)) : Unheard m.shared id := by
  have htells := hok _ hnext
  rw [hi, Op.tells, Bool.or_eq_true_iff] at htells
  rcases htells with hgone | hoff
  · exact .inl (of_decide_eq_true hgone)
  · simp only [Bool.not_eq_true', Bool.or_eq_false_iff, List.any_eq_false,
      decide_eq_false_iff_not, decide_eq_true_eq] at hoff
    exact .inr ⟨fun role hc => hoff.1 _ hc rfl, hoff.2⟩

theorem served_of_tells (hok : Tells m turn) (hnext : m.next turn.1 = some .main)
    (hd : m.shared.main.drains = true) (hi : turn.2 = .outcome false) :
    ∀ h ∈ m.shared.taken, Served m.shared h.id := by
  have htells := (Bool.and_eq_true_iff.mp (hok .main hnext)).2
  rw [hi, hd] at htells
  intro h hmem
  have hserves := List.all_eq_true.mp htells h hmem
  simpa [Shared.serves, Served, or_assoc] using hserves

theorem finishing_of_run (h : run op i s = some (s', cont)) (hf : s.main.finishing = true) :
    s'.main.finishing = true := by
  by_cases hmain : op = .main
  · subst hmain
    have h := mainStep_of_runMain h
    generalize s.main = main at h hf
    cases h with
    | read | hungUp | push | fanOut | teardown => cases hf
    | _ => rfl
  · rwa [(main_of_run h hmain).1]

theorem Main.closing_of_drained {main : Main} (h : main.drained = true) : main.closing = [] := by
  cases main with
  | shutDown | done => rfl
  | _ => cases h

/-- A client whose replay does not fit is dropped. -/
theorem slow_of_dropped (h : run (.client id) (.outcome false) s = some (s', cont)) :
    id ∈ s'.slow := by
  have h := clientStep_of_runClient h
  generalize s.stage id = st at h
  cases h with
  | dropped => exact List.mem_cons_self ..

/-- What holds of the clients in every state, `finish` begun or not. -/
structure Telling (excused : List ℕ) (m : State) : Prop where
  numbered : Numbered m.shared
  gathered : Gathered m
  fate : ∀ j, Fate excused m.shared j

theorem Telling.step (ht : Telling excused m) (he : excused ⊆ excused') (hok : Tells m turn)
    (hslow : ∀ id, m.next turn.1 = some (.client id) → turn.2 = .outcome false →
      id ∈ excused' ∨ id ∈ m.shared.gone)
    (hdrop : ∀ line ev refused, m.next turn.1 = some (.fanOut line ev) → turn.2 = .refused refused →
      ∀ h ∈ m.shared.clients, m.shared.keepsEvent refused h = false →
        h.id ∈ excused' ∨ h.id ∈ m.shared.gone)
    (hbroad : ∀ bytes room, m.next turn.1 = some .main → m.shared.main = .fanOut bytes →
      turn.2 = .room room → ∀ h ∈ m.shared.clients,
        m.shared.keepsOutput (chunks bytes) room h = false → h.id ∈ excused')
    (h : step m turn = some m') : Telling excused' m' := by
  refine ⟨?_, ht.gathered.step ht.numbered (fun c => nobody_of_tells ht.numbered hok) h, ?_⟩
  all_goals
    obtain ⟨op, cont, -, -, hnext, hrun, -, -⟩ := Threads.step_pending h
  · exact ht.numbered.run hrun
  · refine fun j => (ht.fate j).run he ht.gathered.closing (fun id role ho _ => ?_)
      (fun id ho => ?_) (fun line ev refused ho => ?_) (fun bytes room ho => ?_) (fun ho => ?_) hrun
    · exact unheard_of_tells hok (ho ▸ hnext)
    · exact hslow id (ho ▸ hnext)
    · exact hdrop line ev refused (ho ▸ hnext)
    · exact hbroad bytes room (ho ▸ hnext)
    · exact served_of_tells hok (ho ▸ hnext)

theorem telling_start {at_ : String} {pid n : ℕ} {mechanisms unavailable : List String} :
    Telling [] (start at_ pid mechanisms unavailable n) :=
  ⟨numbered_start, ⟨fun h => (nomatch h), fun h => (nomatch h), fun h => (nomatch h),
    fun _ h => (nomatch h)⟩, fun _ => .waits (.inl rfl) rfl⟩

/-- Before `finish`, whoever is dropped is dropped as too slow. -/
theorem telling_before {at_ : String} {pid n : ℕ} {mechanisms unavailable : List String}
    {turns : List (ℕ × In)}
    (hrun : Runs.exec step (start at_ pid mechanisms unavailable n) turns = some m)
    (hok : Runs.Guarded step Tells (start at_ pid mechanisms unavailable n) turns) :
    Telling m.shared.slow m := by
  refine Runs.exec_invariant (I := fun m => Telling m.shared.slow m) hrun hok telling_start
    fun m turn m' ht ho h => ?_
  obtain ⟨op, cont, -, -, hnext, hrun, -, -⟩ := Threads.step_pending h
  have hsame {o : Op} (hop : m.next turn.1 = some o) : op = o :=
    Option.some.inj (hnext.symm.trans hop)
  refine ht.step (grows_of_run hrun).slow ho (fun id hop hi => .inl ?_)
    (fun line ev refused hop hi c hc hkeeps => .inl ?_)
    (fun bytes room hop hm hi c hc hkeeps => ?_) h
  · rw [hsame hop, hi] at hrun
    exact slow_of_dropped hrun
  · rw [hsame hop, hi] at hrun
    obtain ⟨hs, -⟩ := Prod.mk.inj (Option.some.inj hrun)
    rw [← hs]
    refine List.mem_append_right _ (List.mem_map.mpr ⟨c, List.mem_filter.mpr ⟨hc, ?_⟩, rfl⟩)
    rw [hkeeps]
    rfl
  · rw [hsame hop, hi] at hrun
    have h := mainStep_of_runMain hrun
    rw [hm] at h
    generalize m'.shared = s' at h ⊢
    cases h
    refine List.mem_append_right _ (List.mem_map.mpr ⟨c, List.mem_filter.mpr ⟨hc, ?_⟩, rfl⟩)
    rw [hkeeps]
    rfl

/-- While `finish` runs nobody is. -/
theorem telling_after {turns : List (ℕ × In)} (ht : Telling excused mid)
    (hf : mid.shared.main.finishing = true) (hrun : Runs.exec step mid turns = some m)
    (hok : Runs.Guarded step Tells mid turns) : Telling excused m := by
  refine (Runs.exec_invariant
    (I := fun m => m.shared.main.finishing = true ∧ Telling excused m) hrun hok ⟨hf, ht⟩
    fun m turn m' ⟨hf, ht⟩ ho h => ?_).2
  obtain ⟨op, cont, -, -, hnext, hrun, -, -⟩ := Threads.step_pending h
  refine ⟨finishing_of_run hrun hf, ?_⟩
  refine ht.step (fun _ h => h) ho (fun id hop hi => .inr ?_)
    (fun line ev refused hop hi c hc hkeeps => .inr ?_)
    (fun bytes room hop hm hi => ?_) h
  · have htells := ho _ hop
    rw [hi, Op.tells, hf] at htells
    exact of_decide_eq_true htells
  · have htells := ho _ hop
    rw [hi, Op.tells, hf] at htells
    have hall := List.all_eq_true.mp htells c hc
    rw [hkeeps] at hall
    exact of_decide_eq_true hall
  · rw [hm] at hf
    cases hf

/-- What the client's socket has taken. -/
def Shared.wrote (s : Shared) (id : ℕ) : List Msg := (written (s.queue id)).take (s.sent id)

/-- **Every client is told the end**, in a run where the list is taken when
nobody is on the way to it, no client leaves it because its input could not be
written, none is dropped while `finish` runs, and the clients are drained
within the grace: once the list is taken it is empty, and once the drain is
over, whoever was not dropped before `finish`, and did not leave, was sent one
`CLOSED`, and it last. -/
theorem told_the_end {at_ : String} {pid n : ℕ} {mechanisms unavailable : List String}
    {before after : List (ℕ × In)} {code signal : Option Int}
    (hbefore : Runs.exec step (start at_ pid mechanisms unavailable n) before = some mid)
    (hfinish : mid.shared.main = .flush code signal)
    (hafter : Runs.exec step mid after = some m)
    (hok : Runs.Guarded step Tells (start at_ pid mechanisms unavailable n) (before ++ after))
    (htook : m.shared.main.took = true) :
    m.shared.clients = [] ∧ (m.shared.main.drained = true →
      ∀ id, m.shared.stage id ≠ .unborn → id ∉ mid.shared.slow → id ∉ m.shared.left →
        id ∉ m.shared.gone →
        ∃ data c, m.shared.wrote id = data ++ [.closed c] ∧ data.any Msg.isClose = false) := by
  obtain ⟨hpre, hpost⟩ := (Runs.guarded_append hbefore).mp hok
  have ht := telling_after (telling_before hbefore hpre) (by rw [hfinish]; rfl) hafter hpost
  have hclients := ht.gathered.clients htook
  refine ⟨hclients, fun hdrained id hborn hslow hleft hgone => ?_⟩
  cases ht.fate id with
  | waits hw hq =>
    rcases hw with he | ⟨role, -, hin | hin⟩
    · have hnot := (ht.gathered.nobody htook).2 id
      cases hst : m.shared.stage id with
      | unborn => exact absurd hst hborn
      | snapshot | replay | registering =>
        rw [hst] at hnot
        cases hnot
      | _ =>
        rw [hst] at he
        cases he
    · rw [hclients] at hin
      cases hin
    · rw [Main.closing_of_drained hdrained] at hin
      cases hin
  | excused h => exact absurd h hslow
  | left h => exact absurd h hleft
  | gone h => exact absurd h hgone
  | told h _ hwritten =>
    have hall : m.shared.wrote id = written (m.shared.queue id) :=
      List.take_of_length_le (List.drop_eq_nil_iff.mp (hwritten hdrained))
    rw [hall]
    exact exists_of_told h

/-- A control client and a terminal are registered; the output ends. -/
def overs : List (ℕ × In) :=
  [(4, .greeting .control 0 0), (4, .outcome true), (4, .go),
    (5, .greeting .terminal 24 80), (5, .outcome true), (5, .go), (5, .go), (5, .go),
    (5, .outcome true), (5, .wrote "2" true), (5, .refused []), (5, .go), (5, .wrote "3" true),
    (5, .refused []), (3, .takes 1), (0, .over (some 0) none), (0, .go)]

/-- The session ends; the clients are told, and their sockets take what they
were handed while `finish` waits. -/
def finishes : List (ℕ × In) :=
  [(0, .now 0), (0, .go), (0, .wrote "4" true), (0, .refused []), (0, .go), (0, .go), (0, .go),
    (0, .go), (0, .go), (0, .go), (3, .takes 2), (0, .outcome true), (3, .takes 1), (3, .takes 1),
    (3, .takes 1), (0, .outcome true), (0, .go), (0, .go), (0, .go)]

theorem told_the_end_client : ∃ mid m, Runs.exec step (opened 2) overs = some mid ∧
    Runs.exec step mid finishes = some m ∧ m.shared.main.drained = true ∧
    m.shared.clients = [] ∧ (m.shared.main.drained = true →
      ∀ id, m.shared.stage id ≠ .unborn → id ∉ mid.shared.slow → id ∉ m.shared.left →
        id ∉ m.shared.gone →
        ∃ data c, m.shared.wrote id = data ++ [.closed c] ∧ data.any Msg.isClose = false) := by
  have hmid : (Runs.exec step (opened 2) overs).any (fun mid =>
      mid.shared.main = .flush (some 0) none &&
        (Runs.exec step mid finishes).any fun m => m.shared.main.drained && m.shared.main.took) =
      true := by
    decide
  obtain ⟨mid, hbefore, hview⟩ := (Option.any_eq_true ..).mp hmid
  obtain ⟨hfinish, hend⟩ := Bool.and_eq_true_iff.mp hview
  obtain ⟨m, hafter, hends⟩ := (Option.any_eq_true ..).mp hend
  obtain ⟨hdrained, htook⟩ := Bool.and_eq_true_iff.mp hends
  exact ⟨mid, m, hbefore, hafter, hdrained,
    told_the_end hbefore (of_decide_eq_true hfinish) hafter (by decide) htook⟩

/-- A client says hello before the exit, and is registered after the list is
taken. -/
def lateToTheList : List (ℕ × In) :=
  [(4, .greeting .control 0 0), (0, .over (some 0) none), (0, .go), (0, .now 0), (0, .go),
    (0, .wrote "2" true), (0, .refused []), (0, .go), (0, .go), (4, .outcome true), (4, .go),
    (0, .go), (0, .go), (0, .outcome true), (0, .go)]

/-- It is told nothing, and stays on the list. -/
theorem never_told : ∃ m, Runs.exec step (opened 1) lateToTheList = some m ∧
    m.shared.main = .done ⟨.exited, some 0, none⟩ ∧ m.shared.clients = [⟨1, .control⟩] ∧
    m.shared.stage 1 = .serving .control ∧ m.shared.queue 1 = [] ∧ m.shared.slow = [] ∧
    m.shared.left = [] ∧ m.shared.gone = [] := by
  have hend : (Runs.exec step (opened 1) lateToTheList).any (fun m =>
      m.shared.main = .done ⟨.exited, some 0, none⟩ && m.shared.clients = [⟨1, .control⟩] &&
        m.shared.stage 1 = .serving .control && m.shared.queue 1 = [] && m.shared.slow = [] &&
        m.shared.left = [] && m.shared.gone = []) = true := by
    decide
  obtain ⟨m, hm, hview⟩ := (Option.any_eq_true ..).mp hend
  simp only [Bool.and_eq_true, decide_eq_true_eq, and_assoc] at hview
  exact ⟨m, hm, hview⟩

end Supervisor
end Willie
