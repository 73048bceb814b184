import Mathlib.Data.List.Basic
import Mathlib.Order.Defs.Unbundled

/-!
# Programs that leave a trace

A program here runs on a machine it changes, may fail, and leaves a trace
of what it did on the outside. What the machine answers is the machine's
own affair: nothing is assumed of it, so what is proved of a program holds
on every machine.

A run that succeeds is taken apart along the program by `ends_bind` and
the rules of the primitives; a loop over a list by `forM_event`, every
event of the loop is one of a turn's, and `forM_turn`, every element had
its turn. Of a run that may fail anywhere `Stays` says how far it can have
gone.
-/

/-- A program on machines `σ`, failing with `ε`, leaving events `ι`. -/
def Traced (σ ι ε α : Type) : Type := σ → List ι × Except ε α × σ

namespace Traced

variable {σ ι ε α β : Type}

/-- Runs a program, then what it says comes next, unless it failed. -/
def chain (m : Traced σ ι ε α) (f : α → Traced σ ι ε β) : Traced σ ι ε β := fun s =>
  match m s with
  | (t, .ok a, s') => (t ++ (f a s').1, (f a s').2)
  | (t, .error e, s') => (t, .error e, s')

instance : Monad (Traced σ ι ε) where
  pure a := fun s => ([], .ok a, s)
  bind := chain

instance : MonadExceptOf ε (Traced σ ι ε) where
  throw e := fun s => ([], .error e, s)
  tryCatch m h := fun s =>
    match m s with
    | (t, .ok a, s') => (t, .ok a, s')
    | (t, .error e, s') => (t ++ (h e s').1, (h e s').2)

/-- Leaves one event. -/
def tell (i : ι) : Traced σ ι ε Unit := fun s => ([i], .ok (), s)

/-- Asks the machine something. -/
def ask (f : σ → α) : Traced σ ι ε α := fun s => ([], .ok (f s), s)

/-- Has the machine do something; its answer may be a failure. -/
def act (f : σ → Except ε α × σ) : Traced σ ι ε α := fun s => ([], (f s).1, (f s).2)

/-- A result worked out elsewhere. -/
def settle (r : Except ε α) : Traced σ ι ε α := fun s => ([], r, s)

/-- Run from `s`, the program succeeds with `a` on the machine `s'` and has
left `t`. -/
def Ends (m : Traced σ ι ε α) (s : σ) (t : List ι) (a : α) (s' : σ) : Prop := m s = (t, .ok a, s')

theorem Ends.of_ok {m : Traced σ ι ε α} {s : σ} {a : α} (h : (m s).2.1 = .ok a) :
    m.Ends s (m s).1 a (m s).2.2 := by
  simp [Ends, ← h]

/-! ## Results -/

@[simp] theorem ok_bind {a : α} {f : α → Except ε β} : (Except.ok a >>= f) = f a := rfl

@[simp] theorem error_bind {e : ε} {f : α → Except ε β} :
    (Except.error e >>= f) = .error e := rfl

theorem bind_eq_ok {x : Except ε α} {f : α → Except ε β} {b : β} :
    (x >>= f) = .ok b ↔ ∃ a, x = .ok a ∧ f a = .ok b := by
  cases x <;> simp [Bind.bind, Except.bind]

@[simp] theorem pure_eq_ok {a b : α} : (pure a : Except ε α) = .ok b ↔ a = b := by
  simp [pure, Except.pure]

@[simp] theorem map_eq_ok {x : Except ε α} {f : α → β} {b : β} :
    x.map f = .ok b ↔ ∃ a, x = .ok a ∧ f a = b := by
  cases x <;> simp [Except.map]

@[simp] theorem mapError_eq_ok {ε' : Type} {x : Except ε α} {f : ε → ε'} {a : α} :
    x.mapError f = .ok a ↔ x = .ok a := by
  cases x <;> simp [Except.mapError]

/-! ## The primitives -/

variable {m : Traced σ ι ε α} {f : α → Traced σ ι ε β} {s s' : σ} {t : List ι} {a b : α}

@[simp] theorem ends_pure : (pure a : Traced σ ι ε α).Ends s t b s' ↔ [] = t ∧ a = b ∧ s = s' := by
  simp [Ends, pure]

@[simp] theorem ends_throw {e : ε} : (throw e : Traced σ ι ε α).Ends s t b s' ↔ False := by
  simp [Ends, throw, throwThe, MonadExceptOf.throw]

@[simp] theorem ends_tell {i : ι} {u : Unit} :
    (tell i : Traced σ ι ε Unit).Ends s t u s' ↔ [i] = t ∧ s = s' := by
  simp [Ends, tell]

@[simp] theorem ends_ask {g : σ → α} :
    (ask g : Traced σ ι ε α).Ends s t b s' ↔ [] = t ∧ g s = b ∧ s = s' := by
  simp [Ends, ask]

@[simp] theorem ends_act {g : σ → Except ε α × σ} :
    (act g : Traced σ ι ε α).Ends s t b s' ↔ [] = t ∧ g s = (.ok b, s') := by
  simp [Ends, act, Prod.ext_iff]

@[simp] theorem ends_settle {r : Except ε α} :
    (settle r : Traced σ ι ε α).Ends s t b s' ↔ [] = t ∧ r = .ok b ∧ s = s' := by
  simp [Ends, settle]

theorem bind_ok (h : m.Ends s t a s') :
    (m >>= f) s = (t ++ (f a s').1, (f a s').2) := by
  simp only [Ends] at h
  simp [Bind.bind, chain, h]

theorem bind_error {e : ε} (h : m s = (t, .error e, s')) : (m >>= f) s = (t, .error e, s') := by
  simp [Bind.bind, chain, h]

theorem pure_bind : (pure a >>= f : Traced σ ι ε β) = f a := by
  funext s
  simp [Bind.bind, Pure.pure, chain]

theorem bind_assoc {γ : Type} {k : β → Traced σ ι ε γ} :
    (m >>= f) >>= k = m >>= fun a => f a >>= k := by
  funext s
  simp only [Bind.bind, chain]
  cases m s with
  | mk t rs =>
    obtain ⟨_ | a, s₁⟩ := rs
    · rfl
    · cases hf : f a s₁ with
      | mk t' rs' =>
        obtain ⟨_ | b, s₂⟩ := rs' <;> simp [hf]

/-- **A sequence succeeds when both its parts do**, the second from where
the first left off, and its trace is theirs. -/
@[simp] theorem ends_bind {b : β} :
    (m >>= f).Ends s t b s' ↔
      ∃ a s₁ t₁ t₂, m.Ends s t₁ a s₁ ∧ (f a).Ends s₁ t₂ b s' ∧ t₁ ++ t₂ = t := by
  simp only [Ends, Bind.bind, chain]
  constructor
  · intro h
    split at h
    · rename_i t₁ a s₁ hm
      refine ⟨a, s₁, t₁, (f a s₁).1, hm, ?_, ?_⟩
      · simp_all [Prod.ext_iff]
      · simp_all [Prod.ext_iff]
    · simp at h
  · rintro ⟨a, s₁, t₁, t₂, hm, hf, rfl⟩
    simp [hm, hf]

/-- A sequence of runs that succeed. -/
theorem Ends.bind {b : β} {s₁ : σ} {t' : List ι} (hm : m.Ends s t a s₁)
    (hf : (f a).Ends s₁ t' b s') : (m >>= f).Ends s (t ++ t') b s' :=
  ends_bind.mpr ⟨a, s₁, t, t', hm, hf, rfl⟩

@[simp] theorem ends_map {g : α → β} {b : β} :
    (g <$> m).Ends s t b s' ↔ ∃ a, m.Ends s t a s' ∧ g a = b := by
  simp only [Functor.map]
  change (m >>= fun a => pure (g a)).Ends s t b s' ↔ _
  rw [ends_bind]
  constructor
  · rintro ⟨a, s₁, t₁, t₂, hm, hp, rfl⟩
    obtain ⟨rfl, rfl, rfl⟩ := ends_pure.mp hp
    exact ⟨a, by simpa using hm, rfl⟩
  · rintro ⟨a, hm, rfl⟩
    exact ⟨a, s', t, [], hm, ends_pure.mpr ⟨rfl, rfl, rfl⟩, by simp⟩

/-! ## Loops -/

variable {g : α → Traced σ ι ε PUnit} {xs : List α} {u : PUnit}

theorem ends_forM_cons {x : α} :
    (forM (x :: xs) g).Ends s t u s' ↔
      ∃ s₁ t₁ t₂, (g x).Ends s t₁ u s₁ ∧ (forM xs g).Ends s₁ t₂ u s' ∧ t₁ ++ t₂ = t := by
  rw [List.forM_cons, ends_bind]
  exact ⟨fun ⟨_, h⟩ => h, fun h => ⟨u, h⟩⟩

/-- What a loop leaves, one of its turns left, with the rest of that turn. -/
theorem forM_event {i : ι} (h : (forM xs g).Ends s t u s') (hi : i ∈ t) :
    ∃ x ∈ xs, ∃ s₁ t₁ s₂, (g x).Ends s₁ t₁ u s₂ ∧ i ∈ t₁ ∧ t₁ ⊆ t := by
  induction xs generalizing s t with
  | nil => simp_all
  | cons x xs ih =>
    obtain ⟨s₁, t₁, t₂, hx, hxs, rfl⟩ := ends_forM_cons.mp h
    rcases List.mem_append.mp hi with hi | hi
    · exact ⟨x, by simp, s, t₁, s₁, hx, hi, List.subset_append_left _ _⟩
    · obtain ⟨y, hy, s₂, t₃, s₃, h, hi, hsub⟩ := ih hxs hi
      refine ⟨y, by simp [hy], s₂, t₃, s₃, h, hi, ?_⟩
      exact List.Subset.trans hsub (List.subset_append_right _ _)

/-- In a loop that succeeds every element has had its turn. -/
theorem forM_turn {x : α} (h : (forM xs g).Ends s t u s') (hx : x ∈ xs) :
    ∃ s₁ t₁ s₂, (g x).Ends s₁ t₁ u s₂ ∧ t₁ ⊆ t := by
  induction xs generalizing s t with
  | nil => simp at hx
  | cons y xs ih =>
    obtain ⟨s₁, t₁, t₂, hy, hxs, rfl⟩ := ends_forM_cons.mp h
    rcases List.mem_cons.mp hx with rfl | hx
    · exact ⟨s, t₁, s₁, hy, List.subset_append_left _ _⟩
    · obtain ⟨s₂, t₃, s₃, h, hsub⟩ := ih hxs hx
      exact ⟨s₂, t₃, s₃, h, List.Subset.trans hsub (List.subset_append_right _ _)⟩

/-- What every turn keeps, a loop that succeeds keeps. -/
theorem forM_keeps {I : σ → Prop} (h : (forM xs g).Ends s t u s')
    (turn : ∀ x ∈ xs, ∀ s t s', (g x).Ends s t u s' → I s → I s') (hs : I s) : I s' := by
  induction xs generalizing s t with
  | nil =>
    obtain ⟨-, -, rfl⟩ := ends_pure.mp h
    exact hs
  | cons x xs ih =>
    obtain ⟨s₁, t₁, t₂, hx, hxs, rfl⟩ := ends_forM_cons.mp h
    exact ih hxs (fun y hy => turn y (List.mem_cons_of_mem _ hy)) (turn x (by simp) _ _ _ hx hs)

/-- What one element's turn brings about and every turn keeps, a loop over it
that succeeds ends with. -/
theorem forM_attains {I Q : σ → Prop} {x : α} (h : (forM xs g).Ends s t u s') (hx : x ∈ xs)
    (turn : ∀ y ∈ xs, ∀ s t s', (g y).Ends s t u s' → I s → I s')
    (hit : ∀ s t s', (g x).Ends s t u s' → I s → Q s')
    (keep : ∀ y ∈ xs, ∀ s t s', (g y).Ends s t u s' → I s → Q s → Q s') (hs : I s) : Q s' := by
  induction xs generalizing s t with
  | nil => simp at hx
  | cons y xs ih =>
    obtain ⟨s₁, t₁, t₂, hy, hxs, rfl⟩ := ends_forM_cons.mp h
    have hs₁ : I s₁ := turn y (by simp) _ _ _ hy hs
    have turn' : ∀ z ∈ xs, ∀ s t s', (g z).Ends s t u s' → I s → I s' := fun z hz =>
      turn z (List.mem_cons_of_mem _ hz)
    have keep' : ∀ z ∈ xs, ∀ s t s', (g z).Ends s t u s' → I s → Q s → Q s' := fun z hz =>
      keep z (List.mem_cons_of_mem _ hz)
    rcases List.mem_cons.mp hx with rfl | hx
    · -- from here on the loop only has to keep what this turn brought
      refine (forM_keeps (I := fun s => I s ∧ Q s) hxs ?_ ⟨hs₁, hit _ _ _ hy hs⟩).2
      exact fun z hz s t s' hz' hI => ⟨turn' z hz _ _ _ hz' hI.1, keep' z hz _ _ _ hz' hI.1 hI.2⟩
    · exact ih hxs hx turn' keep' hs₁

/-! ## Whatever comes of it -/

/-- **However the program ends**, it has taken the machine along `R` and left
only events that are `P`. -/
def Stays (R : σ → σ → Prop) (P : ι → Prop) (m : Traced σ ι ε α) : Prop :=
  ∀ s, R s (m s).2.2 ∧ ∀ i ∈ (m s).1, P i

section Stays

variable {R R' : σ → σ → Prop} {P P' : ι → Prop}

theorem Stays.of_run {r : Except ε α} (h : m.Stays R P) (hrun : m s = (t, r, s')) :
    R s s' ∧ ∀ i ∈ t, P i := by
  simpa [hrun] using h s

theorem stays_act {f : σ → Except ε α × σ} (h : ∀ s, R s (f s).2) :
    (act f : Traced σ ι ε α).Stays R P :=
  fun s => ⟨h s, by simp [act]⟩

variable [IsPreorder σ R]

theorem stays_pure {a : α} : (pure a : Traced σ ι ε α).Stays R P :=
  fun s => ⟨refl s, by simp [pure]⟩

theorem stays_throw {e : ε} : (throw e : Traced σ ι ε α).Stays R P :=
  fun s => ⟨refl s, by simp [throw, throwThe, MonadExceptOf.throw]⟩

theorem stays_tell {i : ι} (h : P i) : (tell i : Traced σ ι ε Unit).Stays R P :=
  fun s => ⟨refl s, by simp [tell, h]⟩

theorem stays_ask {f : σ → α} : (ask f : Traced σ ι ε α).Stays R P :=
  fun s => ⟨refl s, by simp [ask]⟩

theorem stays_settle {r : Except ε α} : (settle r : Traced σ ι ε α).Stays R P :=
  fun s => ⟨refl s, by simp [settle]⟩

theorem stays_bind (hm : m.Stays R P) (hf : ∀ a, (f a).Stays R P) : (m >>= f).Stays R P := by
  intro s
  obtain ⟨hR, hP⟩ := hm s
  simp only [Bind.bind, chain]
  rcases h : m s with ⟨t, r, s₁⟩
  simp only [h] at hR hP
  cases r with
  | ok a =>
    refine ⟨IsTrans.trans _ _ _ hR (hf a s₁).1, fun i hi => ?_⟩
    exact (List.mem_append.mp hi).elim (hP i) ((hf a s₁).2 i)
  | error e => exact ⟨hR, hP⟩

theorem stays_forM (h : ∀ x ∈ xs, (g x).Stays R P) : (forM xs g).Stays R P := by
  induction xs with
  | nil => exact stays_pure
  | cons x xs ih =>
    rw [List.forM_cons]
    exact stays_bind (h x (by simp)) fun _ => ih fun y hy => h y (List.mem_cons_of_mem _ hy)

end Stays

/-! ## Where it goes, and what it leaves on the way -/

/-- However the program ends, the machine it began on, what it left and the
machine it ended on are related. -/
def Goes (R : σ → List ι → σ → Prop) (m : Traced σ ι ε α) : Prop := ∀ s, R s (m s).1 (m s).2.2

/-- Run from `s`, the program fails with `e`. -/
def Refuses (m : Traced σ ι ε α) (s : σ) (e : ε) : Prop := (m s).2.1 = .error e

/-- Where the program fails they are related. -/
def Fails (R : σ → List ι → σ → Prop) (m : Traced σ ι ε α) : Prop :=
  ∀ s e, m.Refuses s e → R s (m s).1 (m s).2.2

/-- A relation that holds of a sequence if it holds of the parts. -/
structure Chains (R : σ → List ι → σ → Prop) : Prop where
  still : ∀ s, R s [] s
  next : ∀ {s t s₁ t' s₂}, R s t s₁ → R s₁ t' s₂ → R s (t ++ t') s₂

section Goes

variable {R : σ → List ι → σ → Prop}

theorem Goes.mono {R' : σ → List ι → σ → Prop} (h : m.Goes R)
    (hR : ∀ s t s', R s t s' → R' s t s') : m.Goes R' :=
  fun s => hR _ _ _ (h s)

theorem Goes.of_ends (h : m.Goes R) (hm : m.Ends s t a s') : R s t s' := by
  have hs := h s
  rwa [hm] at hs

theorem Fails.of_run {e : ε} (h : m.Fails R) (hm : m s = (t, .error e, s')) : R s t s' := by
  have hs := h s e (by rw [Refuses, hm])
  rwa [hm] at hs

theorem goes_act {f : σ → Except ε α × σ} (h : ∀ s, R s [] (f s).2) :
    (act f : Traced σ ι ε α).Goes R := h

theorem goes_tell {i : ι} (h : ∀ s, R s [i] s) : (tell i : Traced σ ι ε Unit).Goes R := h

theorem goes_pure (hR : Chains R) {a : α} : (pure a : Traced σ ι ε α).Goes R := hR.still

theorem goes_throw (hR : Chains R) {e : ε} : (throw e : Traced σ ι ε α).Goes R := hR.still

theorem goes_ask (hR : Chains R) {f : σ → α} : (ask f : Traced σ ι ε α).Goes R := hR.still

theorem goes_bind (hR : Chains R) (hm : m.Goes R) (hf : ∀ a, (f a).Goes R) :
    (m >>= f).Goes R := by
  intro s
  have hs := hm s
  simp only [Bind.bind, chain]
  rcases h : m s with ⟨t, r, s₁⟩
  simp only [h] at hs
  cases r with
  | ok a => exact hR.next hs (hf a s₁)
  | error e => exact hs

/-- A failure of a sequence is one of its second part after the first, or one
of the first. -/
theorem fails_bind (hR : Chains R) (hm : m.Goes R) (hf : ∀ a, (f a).Fails R) :
    (m >>= f).Fails R := by
  intro s e he
  have hs := hm s
  simp only [Refuses, Bind.bind, chain] at he ⊢
  rcases h : m s with ⟨t, r, s₁⟩
  simp only [h] at hs he ⊢
  cases r with
  | ok a => exact hR.next hs (hf a s₁ e he)
  | error e => exact hs

end Goes

/-! ## How it fails -/

section Refuses

variable {e e' : ε}

@[simp] theorem refuses_pure : (pure a : Traced σ ι ε α).Refuses s e ↔ False := by
  simp [Refuses, pure]

@[simp] theorem refuses_throw : (throw e' : Traced σ ι ε α).Refuses s e ↔ e' = e := by
  simp [Refuses, throw, throwThe, MonadExceptOf.throw]

@[simp] theorem refuses_tell {i : ι} : (tell i : Traced σ ι ε Unit).Refuses s e ↔ False := by
  simp [Refuses, tell]

@[simp] theorem refuses_ask {g : σ → α} : (ask g : Traced σ ι ε α).Refuses s e ↔ False := by
  simp [Refuses, ask]

@[simp] theorem refuses_act {g : σ → Except ε α × σ} :
    (act g : Traced σ ι ε α).Refuses s e ↔ (g s).1 = .error e := Iff.rfl

/-- What does not fail succeeds. -/
theorem exists_ends (h : ∀ e, ¬ m.Refuses s e) : ∃ t a s', m.Ends s t a s' := by
  rcases hm : m s with ⟨t, e | a, s'⟩
  · exact absurd (by rw [Refuses, hm]) (h e)
  · exact ⟨t, a, s', hm⟩

/-- **A sequence fails where its first part does, or its second after it.** -/
@[simp] theorem refuses_bind :
    (m >>= f).Refuses s e ↔
      m.Refuses s e ∨ ∃ a s₁ t₁, m.Ends s t₁ a s₁ ∧ (f a).Refuses s₁ e := by
  simp only [Refuses, Ends, Bind.bind, chain]
  rcases hm : m s with ⟨t, _ | a, s₁⟩
  · simp
  · simp only [reduceCtorEq, false_or]
    constructor
    · exact fun h => ⟨a, s₁, t, rfl, h⟩
    · rintro ⟨b, s₂, t₂, heq, h⟩
      obtain ⟨-, hrest⟩ := Prod.mk.inj heq
      obtain ⟨hb, rfl⟩ := Prod.mk.inj hrest
      obtain rfl := Except.ok.inj hb
      exact h

end Refuses

/-! ## Programs that succeed -/

/-- From every machine the program succeeds, with a result of which `Q`
holds. -/
def Yields (Q : α → Prop) (m : Traced σ ι ε α) : Prop := ∀ s, ∃ t a s', m.Ends s t a s' ∧ Q a

section Yields

variable {m : Traced σ ι ε α} {f : α → Traced σ ι ε β} {P : α → Prop} {Q : β → Prop}

theorem yields_pure {a : α} (h : P a) : (pure a : Traced σ ι ε α).Yields P :=
  fun s => ⟨[], a, s, rfl, h⟩

theorem yields_tell {i : ι} : (tell i : Traced σ ι ε Unit).Yields fun _ => True :=
  fun s => ⟨[i], (), s, rfl, trivial⟩

theorem yields_ask {f : σ → α} (h : ∀ s, P (f s)) : (ask f : Traced σ ι ε α).Yields P :=
  fun s => ⟨[], f s, s, rfl, h s⟩

theorem yields_act {f : σ → Except ε α × σ} (h : ∀ s, ∃ a, (f s).1 = .ok a ∧ P a) :
    (act f : Traced σ ι ε α).Yields P := by
  intro s
  obtain ⟨a, ha, hP⟩ := h s
  exact ⟨[], a, (f s).2, by simp [Ends, act, ha], hP⟩

theorem yields_settle {a : α} (h : P a) : (settle (.ok a) : Traced σ ι ε α).Yields P :=
  fun s => ⟨[], a, s, rfl, h⟩

theorem yields_bind (hm : m.Yields P) (hf : ∀ a, P a → (f a).Yields Q) : (m >>= f).Yields Q := by
  intro s
  obtain ⟨t, a, s₁, hends, hP⟩ := hm s
  obtain ⟨t', b, s₂, hends', hQ⟩ := hf a hP s₁
  exact ⟨t ++ t', b, s₂, hends.bind hends', hQ⟩

theorem yields_forM {xs : List α} {g : α → Traced σ ι ε PUnit}
    (h : ∀ x ∈ xs, (g x).Yields fun _ => True) : (forM xs g).Yields fun _ => True := by
  induction xs with
  | nil => exact yields_pure trivial
  | cons x xs ih =>
    rw [List.forM_cons]
    exact yields_bind (h x (by simp)) fun _ _ => ih fun y hy => h y (by simp [hy])

end Yields

end Traced
