import Mathlib.Data.List.Dedup
import Mathlib.Logic.Function.Basic
import Mathlib.Logic.Relation

/-!
# Histories

A history is a graph of commits, each made from the ones before it. One
commit is an ancestor of another if a chain of parents leads back to it; the
chains are finite, so the ancestors of a commit can be listed (`ancestry`)
and what one commit has that another has not can be counted (`beyond`).

A repository names some commits by its branches. Where each branch only
moves forward, no commit that could be reached is lost (`Forward.holds`).
-/

/-- Commits and what each was made from; its rank is larger than theirs. -/
structure Dag (κ : Type) where
  parents : κ → List κ
  rank : κ → ℕ
  older : ∀ c, ∀ p ∈ parents c, rank p < rank c

namespace Dag

variable {κ : Type} {D : Dag κ} {a c x h : κ} {n : ℕ}

/-- A chain of parents leads from `c` back to `a`. -/
def Ancestor (D : Dag κ) (a c : κ) : Prop :=
  Relation.ReflTransGen (fun p c => p ∈ D.parents c) a c

theorem Ancestor.refl : D.Ancestor c c := Relation.ReflTransGen.refl

theorem Ancestor.trans (hax : D.Ancestor a x) (hxc : D.Ancestor x c) : D.Ancestor a c :=
  Relation.ReflTransGen.trans hax hxc

theorem Ancestor.parent (ha : D.Ancestor a x) (hx : x ∈ D.parents c) : D.Ancestor a c :=
  Relation.ReflTransGen.tail ha hx

/-! ## Listing the ancestors -/

/-- What chains of at most `n` parents lead back to. -/
def walk (D : Dag κ) : ℕ → κ → List κ
  | 0, c => [c]
  | n + 1, c => c :: (D.parents c).flatMap (D.walk n)

def ancestry (D : Dag κ) (c : κ) : List κ := D.walk (D.rank c) c

theorem ancestor_of_mem_walk (hmem : a ∈ D.walk n c) : D.Ancestor a c := by
  induction n generalizing c with
  | zero =>
    obtain rfl := List.mem_singleton.mp hmem
    exact .refl
  | succ n ih =>
    rcases List.mem_cons.mp hmem with rfl | hmem
    · exact .refl
    · obtain ⟨p, hp, ha⟩ := List.mem_flatMap.mp hmem
      exact (ih ha).parent hp

theorem self_mem_walk : c ∈ D.walk n c := by
  cases n <;> simp [walk]

theorem mem_walk (ha : D.Ancestor a c) (hn : D.rank c ≤ n) : a ∈ D.walk n c := by
  induction ha generalizing n with
  | refl => exact self_mem_walk
  | tail _ hp ih =>
    have hlt := D.older _ _ hp
    obtain ⟨n, rfl⟩ : ∃ k, n = k + 1 := ⟨n - 1, by omega⟩
    exact List.mem_cons_of_mem _ (List.mem_flatMap.mpr ⟨_, hp, ih (by omega)⟩)

@[simp] theorem mem_ancestry : a ∈ D.ancestry c ↔ D.Ancestor a c :=
  ⟨ancestor_of_mem_walk, fun ha => mem_walk ha (Nat.le_refl _)⟩

variable [DecidableEq κ]

instance : DecidableRel D.Ancestor := fun _ _ => decidable_of_iff _ mem_ancestry

/-- The commits `x` has and `h` has not. -/
def beyond (D : Dag κ) (x h : κ) : List κ := ((D.ancestry x).filter (· ∉ D.ancestry h)).dedup

theorem mem_beyond : c ∈ D.beyond x h ↔ D.Ancestor c x ∧ ¬ D.Ancestor c h := by
  simp [beyond]

/-- **One has nothing the other has not** if it is an ancestor of it. -/
theorem length_beyond_eq_zero : (D.beyond x h).length = 0 ↔ D.Ancestor x h := by
  rw [List.length_eq_zero_iff, List.eq_nil_iff_forall_not_mem]
  simp only [mem_beyond, not_and, not_not]
  exact ⟨fun hall => hall x .refl, fun hx c hc => hc.trans hx⟩

/-! ## Branches -/

section Branches

variable {ι : Type} {tips tips' tips'' : ι → Option κ} {i : ι}

/-- Every branch is still there, and has moved forward if at all. -/
def Forward (D : Dag κ) (tips tips' : ι → Option κ) : Prop :=
  ∀ i c, tips i = some c → ∃ c', tips' i = some c' ∧ D.Ancestor c c'

/-- Some branch leads back to the commit. -/
def Holds (D : Dag κ) (tips : ι → Option κ) (c : κ) : Prop :=
  ∃ i tip, tips i = some tip ∧ D.Ancestor c tip

omit [DecidableEq κ] in
theorem Forward.refl : D.Forward tips tips := fun _ c hc => ⟨c, hc, .refl⟩

omit [DecidableEq κ] in
theorem Forward.trans (hf : D.Forward tips tips') (hf' : D.Forward tips' tips'') :
    D.Forward tips tips'' := by
  intro i c hc
  obtain ⟨c', hc', hle⟩ := hf i c hc
  obtain ⟨c'', hc'', hle'⟩ := hf' i c' hc'
  exact ⟨c'', hc'', hle.trans hle'⟩

omit [DecidableEq κ] in
/-- **Nothing is lost** where branches only move forward. -/
theorem Forward.holds (hf : D.Forward tips tips') (hc : D.Holds tips c) : D.Holds tips' c := by
  obtain ⟨i, tip, htip, hle⟩ := hc
  obtain ⟨tip', htip', hle'⟩ := hf i tip htip
  exact ⟨i, tip', htip', hle.trans hle'⟩

omit [DecidableEq κ] in
theorem forward_update [DecidableEq ι] (htip : ∀ tip, tips i = some tip → D.Ancestor tip c) :
    D.Forward tips (Function.update tips i (some c)) := by
  intro j d hd
  by_cases hj : j = i
  · subst hj
    exact ⟨c, Function.update_self .., htip d hd⟩
  · exact ⟨d, by rw [Function.update_of_ne hj, hd], .refl⟩

end Branches

end Dag
