import Mathlib.Algebra.GroupWithZero.Nat
import Mathlib.Data.Nat.Notation
import Willie.Common.Runs

/-!
# Threads over a shared state

A thread is what it has still to do: a list of operations, each of them
atomic. An operation that is run with an input changes the shared state, and
may leave its thread more to do before the rest. Which thread runs next, and
what its operation reads from outside, is the run's to say.

All that is said of a step is in `step_pending`: one operation of what is
pending is replaced by what it leaves.
-/

namespace Threads

variable {σ Op In : Type}

structure State (σ Op : Type) where
  shared : σ
  threads : List (List Op)

/-- All that is still to be done. -/
def State.pending (m : State σ Op) : List Op := m.threads.flatten

/-- What a thread does next. -/
def State.next (m : State σ Op) (i : Nat) : Option Op := (m.threads[i]?).bind List.head?

/-- **A turn**: a thread runs its next operation with an input. -/
def step (run : Op → In → σ → Option (σ × List Op)) (m : State σ Op) (turn : Nat × In) :
    Option (State σ Op) :=
  match m.threads[turn.1]? with
  | some (op :: rest) =>
    (run op turn.2 m.shared).map fun r => ⟨r.1, m.threads.set turn.1 (r.2 ++ rest)⟩
  | _ => none

/-- What a weight gives to all that is to be done. -/
def State.load (f : Op → ℕ) (m : State σ Op) : ℕ := (m.pending.map f).sum

variable {run : Op → In → σ → Option (σ × List Op)} {m m' : State σ Op} {turn : Nat × In}
  {f : Op → ℕ} {P P' : Op → Prop}

theorem flatten_set {ts : List (List Op)} {i : Nat} {t u : List Op} (h : ts[i]? = some t) :
    ∃ pre post, ts.flatten = pre ++ t ++ post ∧ (ts.set i u).flatten = pre ++ u ++ post := by
  induction ts generalizing i with
  | nil => cases h
  | cons t₁ ts ih =>
    cases i with
    | zero =>
      obtain rfl := Option.some.inj h
      exact ⟨[], ts.flatten, rfl, rfl⟩
    | succ i =>
      obtain ⟨pre, post, hold, hnew⟩ := ih (i := i) h
      exact ⟨t₁ ++ pre, post, by simp [hold], by simp [hnew]⟩

/-- **What a step does** to what is pending. -/
theorem step_pending (h : step run m turn = some m') :
    ∃ op cont pre post, m.next turn.1 = some op ∧
      run op turn.2 m.shared = some (m'.shared, cont) ∧
      m.pending = pre ++ op :: post ∧ m'.pending = pre ++ (cont ++ post) := by
  unfold step at h
  split at h
  · rename_i op rest hthread
    obtain ⟨r, hrun, rfl⟩ := Option.map_eq_some_iff.mp h
    obtain ⟨pre, post, hold, hnew⟩ := flatten_set (u := r.2 ++ rest) hthread
    exact ⟨op, r.2, pre, rest ++ post, by simp [State.next, hthread], hrun,
      by simp [State.pending, hold], by simp [State.pending, hnew]⟩
  · cases h

/-- **What a step does** to the threads. -/
theorem step_threads (h : step run m turn = some m') :
    ∃ op cont rest, m.threads[turn.1]? = some (op :: rest) ∧ m.next turn.1 = some op ∧
      run op turn.2 m.shared = some (m'.shared, cont) ∧
      m'.threads = m.threads.set turn.1 (cont ++ rest) := by
  unfold step at h
  split at h
  · rename_i op rest hthread
    obtain ⟨r, hrun, rfl⟩ := Option.map_eq_some_iff.mp h
    exact ⟨op, r.2, rest, hthread, by simp [State.next, hthread], hrun, rfl⟩
  · cases h

/-- A thread whose next operation can be run takes its turn. -/
theorem step_of_next {i : Nat} {input : In} {op : Op} {s : σ} {cont : List Op}
    (h : m.next i = some op) (hrun : run op input m.shared = some (s, cont)) :
    ∃ m', step run m (i, input) = some m' ∧ m'.shared = s := by
  obtain ⟨t, ht, hop⟩ := Option.bind_eq_some_iff.mp h
  cases t with
  | nil => cases hop
  | cons op' rest =>
    obtain rfl := Option.some.inj hop
    exact ⟨⟨s, m.threads.set i (cont ++ rest)⟩, by simp [step, ht, hrun], rfl⟩

/-- What holds of all that is pending holds on, if the step keeps it of what
is left and it holds of what the operation leaves. -/
theorem forall_pending {op : Op} {cont pre post : List Op} (hold : m.pending = pre ++ op :: post)
    (hnew : m'.pending = pre ++ (cont ++ post)) (h : ∀ o ∈ m.pending, P o)
    (keep : ∀ o, P o → P' o) (hcont : ∀ o ∈ cont, P' o) : ∀ o ∈ m'.pending, P' o := by
  rw [hold] at h
  rw [hnew]
  intro o ho
  simp only [List.mem_append, List.mem_cons] at h ho
  rcases ho with ho | ho | ho
  · exact keep o (h o (.inl ho))
  · exact hcont o ho
  · exact keep o (h o (.inr (.inr ho)))

/-- What is pending is pending still, unless it is what was run. -/
theorem mem_pending_of_ne {op o : Op} {cont pre post : List Op}
    (hold : m.pending = pre ++ op :: post) (hnew : m'.pending = pre ++ (cont ++ post))
    (h : o ∈ m.pending) (hne : o ≠ op) : o ∈ m'.pending := by
  rw [hold] at h
  rw [hnew]
  rcases List.mem_append.mp h with h | h
  · exact List.mem_append_left _ h
  · exact List.mem_append_right _ (List.mem_append_right _ (List.mem_of_ne_of_mem hne h))

theorem mem_pending_of_cont {o : Op} {cont pre post : List Op}
    (hnew : m'.pending = pre ++ (cont ++ post)) (h : o ∈ cont) : o ∈ m'.pending := by
  rw [hnew]
  exact List.mem_append_right _ (List.mem_append_left _ h)

theorem load_step {op : Op} {cont pre post : List Op} (hold : m.pending = pre ++ op :: post)
    (hnew : m'.pending = pre ++ (cont ++ post)) :
    m'.load f + f op = m.load f + (cont.map f).sum := by
  simp only [State.load, hold, hnew, List.map_append, List.map_cons, List.sum_append,
    List.sum_cons]
  omega

theorem le_sum {op : Op} {ops : List Op} (h : op ∈ ops) : f op ≤ (ops.map f).sum := by
  obtain ⟨pre, post, rfl⟩ := List.append_of_mem h
  simp only [List.map_append, List.map_cons, List.sum_append, List.sum_cons]
  omega

theorem le_load {op : Op} (h : op ∈ m.pending) : f op ≤ m.load f := le_sum h

theorem sum_eq_zero {ops : List Op} (h : ∀ op ∈ ops, f op = 0) : (ops.map f).sum = 0 := by
  rw [List.sum_eq_zero_iff_forall_eq_nat, List.forall_mem_map]
  exact h

theorem load_eq_zero (h : ∀ op ∈ m.pending, f op = 0) : m.load f = 0 := sum_eq_zero h

/-- A thread that did not take its turn is as it was. -/
theorem mem_set {ts : List (List Op)} {i : Nat} {t u : List Op} (ht : t ∈ ts)
    (hne : ts[i]? ≠ some t) : t ∈ ts.set i u := by
  obtain ⟨k, hk⟩ := List.mem_iff_getElem?.mp ht
  have hki : k ≠ i := fun he => hne (he ▸ hk)
  refine List.mem_iff_getElem?.mpr ⟨k, ?_⟩
  rw [List.getElem?_set_ne (Ne.symm hki), hk]

/-- Where at most one operation weighs anything and a thread is to do it next,
no other thread has one that does. -/
theorem next_of_load_le_one {i : Nat} {op o : Op} {t : List Op} (hle : m.load f ≤ 1)
    (hnext : m.next i = some op) (hop : 0 < f op) (ht : t ∈ m.threads) (ho : o ∈ t)
    (hf : 0 < f o) : t.head? = some op := by
  obtain ⟨t', ht', hhead⟩ := Option.bind_eq_some_iff.mp hnext
  by_cases he : t = t'
  · rw [he]
    exact hhead
  · obtain ⟨pre, post, hold, hnew⟩ := flatten_set (u := []) ht'
    have hother : t ∈ m.threads.set i [] :=
      mem_set ht fun h => he (Option.some.inj (ht'.symm.trans h)).symm
    have hmem : o ∈ pre ++ post := by
      have hflat := List.mem_flatten.mpr ⟨t, hother, ho⟩
      rw [hnew] at hflat
      simpa using hflat
    have hmem' : op ∈ t' := List.mem_of_mem_head? hhead
    have hrest := le_sum (f := f) hmem
    have hthis := le_sum (f := f) hmem'
    simp only [State.load, State.pending, hold, List.map_append, List.sum_append] at hle hrest
    omega

theorem next_mem {i : Nat} {op : Op} (h : m.next i = some op) : op ∈ m.pending := by
  obtain ⟨t, ht, hop⟩ := Option.bind_eq_some_iff.mp h
  exact List.mem_flatten.mpr ⟨t, List.mem_of_getElem? ht, List.mem_of_mem_head? hop⟩

end Threads
