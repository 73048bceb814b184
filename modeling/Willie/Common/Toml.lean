import Mathlib.Data.List.Basic

/-!
# Tables by their keys

A table holds its values under texts, in the texts' order. What it holds
after an insertion or a removal is told key by key.
-/

namespace Toml

/-- A table of values. -/
abbrev Table (V : Type) := List (String × V)

namespace Table

variable {V : Type} {t u : Table V} {key k : String} {v : V}

/-- The value under a key. -/
def get? : Table V → String → Option V
  | [], _ => none
  | (k, v) :: t, key => if k = key then some v else get? t key

/-- Takes a key out. -/
def erase (t : Table V) (key : String) : Table V := t.filter (·.1 ≠ key)

/-- Puts a value under a key, where the key belongs. -/
def insert (t : Table V) (key : String) (v : V) : Table V :=
  (t.erase key).takeWhile (·.1 < key) ++ (key, v) :: (t.erase key).dropWhile (·.1 < key)

/-- Two tables hold the same. -/
def Same (t u : Table V) : Prop := ∀ key, t.get? key = u.get? key

@[simp] theorem get?_nil : get? ([] : Table V) key = none := rfl

theorem get?_append : (t ++ u).get? key = (t.get? key).or (u.get? key) := by
  induction t with
  | nil => rfl
  | cons e t ih =>
    obtain ⟨k, w⟩ := e
    by_cases h : k = key
    · simp [get?, h]
    · simp only [List.cons_append, get?, if_neg h, ih]

@[simp] theorem get?_erase : (t.erase key).get? k = if k = key then none else t.get? k := by
  induction t with
  | nil => simp [erase]
  | cons e t ih =>
    obtain ⟨k', w⟩ := e
    unfold erase at ih ⊢
    by_cases h : k' = key
    · rw [List.filter_cons_of_neg (by simpa using h), ih]
      split_ifs with hk
      · rfl
      · simp only [get?, if_neg (show k' ≠ k from fun heq => hk (heq ▸ h))]
    · rw [List.filter_cons_of_pos (by simpa using h)]
      by_cases hk : k' = k
      · simp [get?, hk, show k ≠ key from hk ▸ h]
      · simp only [get?, if_neg hk, ih]

@[simp] theorem get?_insert : (t.insert key v).get? k = if k = key then some v else t.get? k := by
  have hsplit : (t.erase key).takeWhile (·.1 < key) ++ (t.erase key).dropWhile (·.1 < key) =
      t.erase key := List.takeWhile_append_dropWhile
  have hrest := congrArg (get? · k) hsplit
  simp only [get?_append, get?_erase] at hrest
  rw [insert, get?_append]
  split_ifs at hrest ⊢ with hk
  · rw [hk] at hrest ⊢
    rw [(Option.or_eq_none_iff.mp hrest).1, Option.none_or, get?, if_pos rfl]
  · rw [get?, if_neg (Ne.symm hk), hrest]

/-- What was put under a key is gone with it. -/
theorem erase_insert : (t.insert key v).erase key = t.erase key := by
  have hgone : ((key, v) :: (t.erase key).dropWhile (·.1 < key)).filter (·.1 ≠ key) =
      ((t.erase key).dropWhile (·.1 < key)).filter (·.1 ≠ key) :=
    List.filter_cons_of_neg (by simp)
  rw [insert, erase, List.filter_append, hgone, ← List.filter_append,
    List.takeWhile_append_dropWhile]
  simp [erase]

theorem erase_comm : (t.erase key).erase k = (t.erase k).erase key := by
  rw [erase, erase, erase, erase, List.filter_filter, List.filter_filter]
  exact List.filter_congr fun e _ => Bool.and_comm ..

/-- A key that is taken out and put back as it was. -/
theorem same_insert_erase (h : t.get? key = some v) : ((t.erase key).insert key v).Same t := by
  intro k
  rw [get?_insert, get?_erase]
  split_ifs with hk
  · rw [hk, h]
  · rfl

/-- A key that is not there need not be taken out. -/
theorem same_erase (h : t.get? key = none) : (t.erase key).Same t := by
  intro k
  rw [get?_erase]
  split_ifs with hk
  · rw [hk, h]
  · rfl

end Table

end Toml
