import Mathlib.Data.List.Induction

/-!
# Runs of a machine, step by step

A machine is a partial function from a state and an action to the next
state: what it answers nothing to cannot happen there. A run is a list of
actions. Each step may leave labels, and a condition may be asked of every
step; what holds at the start and is kept by every step that meets the
condition holds at the end of every run whose steps all meet it.
-/

namespace Runs

variable {σ α ι : Type} (step : σ → α → Option σ) (ok : σ → α → Prop) (label : σ → α → List ι)

/-- Where a list of actions leads. -/
def exec : σ → List α → Option σ
  | s, [] => some s
  | s, a :: as => (step s a).bind fun s' => exec s' as

/-- Every step of the run meets the condition. -/
def Guarded : σ → List α → Prop
  | _, [] => True
  | s, a :: as => ok s a ∧ ∀ s', step s a = some s' → Guarded s' as

/-- A property of the state holds at the start and after every step. -/
def Always (P : σ → Prop) : σ → List α → Prop
  | s, [] => P s
  | s, a :: as => P s ∧ ∀ s', step s a = some s' → Always P s' as

/-- The labels the steps of a run leave. -/
def trace : σ → List α → List ι
  | _, [] => []
  | s, a :: as =>
    label s a ++ match step s a with
      | some s' => trace s' as
      | none => []

variable {step ok label} {s s' m : σ} {as bs : List α} {a : α}

theorem exec_append : exec step s (as ++ bs) = (exec step s as).bind fun m => exec step m bs := by
  induction as generalizing s with
  | nil => rfl
  | cons a as ih =>
    simp only [List.cons_append, exec]
    cases step s a with
    | none => rfl
    | some s₁ => exact ih

theorem exec_snoc :
    exec step s (as ++ [a]) = some s' ↔ ∃ m, exec step s as = some m ∧ step m a = some s' := by
  rw [exec_append, Option.bind_eq_some_iff]
  simp [exec]

/-- A run is guarded step by step. -/
theorem Guarded.cons (hok : ok s a) (hstep : step s a = some m) (h : Guarded step ok m as) :
    Guarded step ok s (a :: as) :=
  ⟨hok, fun s' hs => by
    obtain rfl : m = s' := Option.some.inj (hstep.symm.trans hs)
    exact h⟩

theorem Guarded.imp {ok' : σ → α → Prop} (h : Guarded step ok s as)
    (himp : ∀ s a, ok s a → ok' s a) : Guarded step ok' s as := by
  induction as generalizing s with
  | nil => trivial
  | cons a as ih => exact ⟨himp s a h.1, fun s' hs => ih (h.2 s' hs)⟩

theorem Guarded.and {ok' : σ → α → Prop} (h : Guarded step ok s as)
    (h' : Guarded step ok' s as) : Guarded step (fun s a => ok s a ∧ ok' s a) s as := by
  induction as generalizing s with
  | nil => trivial
  | cons a as ih => exact ⟨⟨h.1, h'.1⟩, fun s' hs => ih (h.2 s' hs) (h'.2 s' hs)⟩

theorem Always.imp {P Q : σ → Prop} (h : Always step P s as) (himp : ∀ s, P s → Q s) :
    Always step Q s as := by
  induction as generalizing s with
  | nil => exact himp s h
  | cons a as ih => exact ⟨himp s h.1, fun s' hs => ih (h.2 s' hs)⟩

/-- A run that is not guarded has a step that does not meet the condition. -/
theorem exists_of_not_guarded (hrun : exec step s as = some s') (h : ¬ Guarded step ok s as) :
    ∃ pre a post m m', exec step s pre = some m ∧ ¬ ok m a ∧ step m a = some m' ∧
      exec step m' post = some s' := by
  induction as generalizing s with
  | nil => exact absurd trivial h
  | cons a as ih =>
    obtain ⟨m, hstep, hrest⟩ := Option.bind_eq_some_iff.mp hrun
    by_cases hok : ok s a
    · obtain ⟨pre, b, post, m₁, m₂, hpre, hb, hs, hpost⟩ :=
        ih hrest fun hg => h (Guarded.cons hok hstep hg)
      exact ⟨a :: pre, b, post, m₁, m₂, by simp [exec, hstep, hpre], hb, hs, hpost⟩
    · exact ⟨[], a, as, s, m, rfl, hok, hstep, hrest⟩

instance Guarded.decidable [∀ s a, Decidable (ok s a)] :
    ∀ (s : σ) (as : List α), Decidable (Guarded step ok s as)
  | _, [] => .isTrue trivial
  | s, a :: as =>
    match h : step s a with
    | none => decidable_of_iff (ok s a) (by simp [Guarded, h])
    | some s' =>
      have := Guarded.decidable s' as
      decidable_of_iff (ok s a ∧ Guarded step ok s' as) (by simp [Guarded, h])

theorem guarded_of_forall (h : ∀ s a, ok s a) : Guarded step ok s as := by
  induction as generalizing s with
  | nil => trivial
  | cons a as ih => exact ⟨h s a, fun _ _ => ih⟩

theorem guarded_append (h : exec step s as = some m) :
    Guarded step ok s (as ++ bs) ↔ Guarded step ok s as ∧ Guarded step ok m bs := by
  induction as generalizing s with
  | nil =>
    obtain rfl : s = m := by simpa [exec] using h
    simp [Guarded]
  | cons a as ih =>
    obtain ⟨s₁, hs, h⟩ := Option.bind_eq_some_iff.mp h
    simp [Guarded, hs, ih h, and_assoc]

theorem trace_append (h : exec step s as = some m) :
    trace step label s (as ++ bs) = trace step label s as ++ trace step label m bs := by
  induction as generalizing s with
  | nil =>
    obtain rfl : s = m := by simpa [exec] using h
    rfl
  | cons a as ih =>
    obtain ⟨s₁, hs, h⟩ := Option.bind_eq_some_iff.mp h
    simp [trace, hs, ih h]

theorem trace_snoc (h : exec step s as = some m) :
    trace step label s (as ++ [a]) = trace step label s as ++ label m a := by
  rw [trace_append h]
  cases hm : step m a <;> simp [trace, hm]

/-- **The run rule.** What holds of the empty run and is kept by each step
that meets the condition holds of every run whose steps all meet it. -/
theorem exec_induction {I : List α → σ → Prop} (hrun : exec step s as = some s')
    (hok : Guarded step ok s as) (start : I [] s)
    (next : ∀ as m a s', exec step s as = some m → I as m → ok m a → step m a = some s' →
      I (as ++ [a]) s') : I as s' := by
  induction as using List.reverseRecOn generalizing s' with
  | nil =>
    obtain rfl : s = s' := by simpa [exec] using hrun
    exact start
  | append_singleton as a ih =>
    obtain ⟨m, hm, hstep⟩ := exec_snoc.mp hrun
    obtain ⟨hpre, hlast⟩ := (guarded_append hm).mp hok
    exact next as m a s' hm (ih hm hpre) hlast.1 hstep

/-- The rule for steps that meet no condition. -/
theorem run_induction {I : List α → σ → Prop} (hrun : exec step s as = some s') (start : I [] s)
    (next : ∀ as m a s', exec step s as = some m → I as m → step m a = some s' →
      I (as ++ [a]) s') : I as s' := by
  have hany : Guarded step (fun _ _ => True) s as := guarded_of_forall fun _ _ => trivial
  exact exec_induction hrun hany start fun as m a s' hm h _ => next as m a s' hm h

/-- **The exact condition.** Where a property of the state survives a step
exactly if the step meets the condition, it holds all along a run exactly if
every step of the run does. `B` is what every step keeps. -/
theorem always_iff_guarded {B P : σ → Prop} (hB : B s) (hP : P s)
    (keep : ∀ s a s', B s → step s a = some s' → B s')
    (exact : ∀ s a, B s → P s → (ok s a ↔ ∀ s', step s a = some s' → P s')) :
    Always step P s as ↔ Guarded step ok s as := by
  induction as generalizing s with
  | nil => exact iff_of_true hP trivial
  | cons a as ih =>
    have first {t : σ} {bs : List α} (h : Always step P t bs) : P t := by
      cases bs with
      | nil => exact h
      | cons => exact h.1
    constructor
    · rintro ⟨-, h⟩
      have hok := (exact s a hB hP).mpr fun s' hs => first (h s' hs)
      exact ⟨hok, fun s' hs => (ih (keep s a s' hB hs) (first (h s' hs))).mp (h s' hs)⟩
    · rintro ⟨hok, h⟩
      have next := (exact s a hB hP).mp hok
      exact ⟨hP, fun s' hs => (ih (keep s a s' hB hs) (next s' hs)).mpr (h s' hs)⟩

/-- The same for a property of the state alone. -/
theorem exec_invariant {I : σ → Prop} (hrun : exec step s as = some s')
    (hok : Guarded step ok s as) (start : I s)
    (next : ∀ m a s', I m → ok m a → step m a = some s' → I s') : I s' :=
  exec_induction (I := fun _ => I) hrun hok start fun _ m a s' _ => next m a s'

/-- What follows from what every step keeps holds all along. -/
theorem always_of_keeps {I P : σ → Prop} (start : I s)
    (next : ∀ m a s', I m → step m a = some s' → I s') (holds : ∀ m, I m → P m) :
    Always step P s as := by
  induction as generalizing s with
  | nil => exact holds s start
  | cons a as ih => exact ⟨holds s start, fun s' hs => ih (next s a s' start hs)⟩

/-- What is left by steps from states with the invariant is left all along. -/
theorem trace_induction {I : σ → Prop} {Q : ι → Prop} (hrun : exec step s as = some s')
    (start : I s) (next : ∀ m a s', I m → step m a = some s' → I s')
    (left : ∀ m a s', I m → step m a = some s' → ∀ l ∈ label m a, Q l) :
    ∀ l ∈ trace step label s as, Q l := by
  induction as generalizing s with
  | nil => simp [trace]
  | cons a as ih =>
    obtain ⟨m, hstep, hrest⟩ := Option.bind_eq_some_iff.mp hrun
    intro l hl
    simp only [trace, hstep, List.mem_append] at hl
    rcases hl with hl | hl
    · exact left s a m start hstep l hl
    · exact ih hrest (next s a m start hstep) l hl

/-- What every step keeps holds at the end. -/
theorem exec_keeps {I : σ → Prop} (hrun : exec step s as = some s') (start : I s)
    (next : ∀ m a s', I m → step m a = some s' → I s') : I s' :=
  run_induction (I := fun _ => I) hrun start fun _ m a s' _ => next m a s'

end Runs
