import Mathlib.Data.List.Induction

/-!
# Folds that come to an end

A fold over a log whose state may be done, and stays as it is from then on.
Where exactly the marked entries make it done, the fold reads the log as far
as its first marked entry; what an unfinished state passes on, entry by
entry, holds of what was read and of the state it led to.
-/

namespace Absorb

variable {α σ : Type} {p : α → Bool} {step : σ → α → σ} {done : σ → Bool}
variable {s : σ} {a : α} {as bs : List α}

/-- The list as far as its first marked entry. -/
def upTo (p : α → Bool) : List α → List α
  | [] => []
  | a :: as => if p a then [a] else a :: upTo p as

theorem upTo_of_none (h : as.any p = false) : upTo p as = as := by
  induction as with
  | nil => rfl
  | cons a as ih =>
    simp only [List.any_cons, Bool.or_eq_false_iff] at h
    rw [upTo, h.1, if_neg Bool.false_ne_true, ih h.2]

theorem upTo_append_of_any (h : as.any p = true) : upTo p (as ++ bs) = upTo p as := by
  induction as with
  | nil => simp at h
  | cons a as ih =>
    simp only [List.cons_append, upTo]
    split
    · rfl
    · rename_i ha
      rw [ih (by simpa [ha] using h)]

theorem upTo_append_of_none (h : as.any p = false) : upTo p (as ++ bs) = as ++ upTo p bs := by
  induction as with
  | nil => rfl
  | cons a as ih =>
    simp only [List.any_cons, Bool.or_eq_false_iff] at h
    simp only [List.cons_append, upTo, h.1, ih h.2, if_neg Bool.false_ne_true]

theorem any_upTo : (upTo p as).any p = as.any p := by
  induction as with
  | nil => rfl
  | cons a as ih =>
    rw [upTo]
    split
    · rename_i ha
      simp [ha]
    · rw [List.any_cons, List.any_cons, ih]

/-- Only its last entry may be marked. -/
theorem upTo_snoc (h : upTo p as = bs ++ [a]) : bs.any p = false := by
  induction as generalizing bs with
  | nil => simp [upTo] at h
  | cons a' as ih =>
    rw [upTo] at h
    cases bs with
    | nil => rfl
    | cons b bs =>
      split at h
      · simp at h
      · rename_i hb
        obtain ⟨rfl, hrest⟩ := List.cons.inj h
        rw [List.any_cons, ih hrest, Bool.or_false]
        exact eq_false_of_ne_true hb

/-- A done state stays as it is, and exactly a marked entry makes one done. -/
structure Absorbs (step : σ → α → σ) (done : σ → Bool) (p : α → Bool) : Prop where
  stays : ∀ s a, done s = true → step s a = s
  ends : ∀ s a, done s = false → done (step s a) = p a

namespace Absorbs

variable (h : Absorbs step done p)
include h

theorem foldl_done (hs : done s = true) : as.foldl step s = s := by
  induction as with
  | nil => rfl
  | cons a as ih => rw [List.foldl_cons, h.stays s a hs, ih]

/-- The fold is done exactly after a marked entry. -/
theorem done_foldl (hs : done s = false) : done (as.foldl step s) = as.any p := by
  induction as generalizing s with
  | nil => exact hs
  | cons a as ih =>
    rw [List.foldl_cons, List.any_cons, ← h.ends s a hs]
    cases hd : done (step s a) with
    | true => rw [h.foldl_done hd, hd, Bool.true_or]
    | false => rw [ih hd, Bool.false_or]

/-- **Only what comes up to the first marked entry is read.** -/
theorem foldl_upTo (hs : done s = false) : (upTo p as).foldl step s = as.foldl step s := by
  induction as generalizing s with
  | nil => rfl
  | cons a as ih =>
    rw [upTo]
    split
    · rename_i ha
      have hd : done (step s a) = true := (h.ends s a hs).trans ha
      rw [List.foldl_cons, List.foldl_cons, List.foldl_nil, h.foldl_done hd]
    · rename_i ha
      have hd : done (step s a) = false := by simpa [ha] using h.ends s a hs
      rw [List.foldl_cons, List.foldl_cons, ih hd]

/-- **The fold rule.** What holds before the log and is passed on by every
entry an unfinished state reads holds of what was read and where it led. -/
theorem foldl_induction {P : List α → σ → Prop} (hs : done s = false) (start : P [] s)
    (next : ∀ as s a, done s = false → P as s → P (as ++ [a]) (step s a)) :
    P (upTo p as) (as.foldl step s) := by
  induction as using List.reverseRecOn with
  | nil => exact start
  | append_singleton as a ih =>
    rw [List.foldl_append, List.foldl_cons, List.foldl_nil]
    have hdone : done (as.foldl step s) = as.any p := h.done_foldl hs
    cases hany : as.any p with
    | true =>
      rw [h.stays _ a (hdone.trans hany), upTo_append_of_any hany]
      exact ih
    | false =>
      rw [upTo_of_none hany] at ih
      have hlast : upTo p (as ++ [a]) = as ++ [a] := by
        rw [upTo_append_of_none hany, upTo, upTo, ite_self]
      rw [hlast]
      exact next as _ a (hdone.trans hany) ih

end Absorbs

end Absorb
