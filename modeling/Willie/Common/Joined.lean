import Mathlib.Data.List.Infix

/-!
# Lists joined by a separator

Lists that do not have the separator can be told apart again once they are
joined (`joined_inj`), what stands before a separator is a joining of the
first ones (`joined_split`), and one joining, with a separator behind it,
leads another exactly if its lists are the first ones of the other's
(`joined_sep_prefix`).
-/

namespace Joined

variable {α : Type} [BEq α] [LawfulBEq α] {x : α} {ls ms : List (List α)} {l rest : List α}

/-- The lists, with a separator between any two. -/
abbrev joined (x : α) (ls : List (List α)) : List α := [x].intercalate ls

omit [BEq α] [LawfulBEq α] in
theorem joined_append (hls : ls ≠ []) (hms : ms ≠ []) :
    joined x (ls ++ ms) = joined x ls ++ x :: joined x ms := by
  induction ls with
  | nil => exact absurd rfl hls
  | cons l ls ih =>
    cases ls with
    | nil =>
      obtain ⟨m, ms, rfl⟩ := List.exists_cons_of_ne_nil hms
      rw [List.singleton_append, joined, List.intercalate_cons_cons, joined,
        List.intercalate_singleton, List.append_assoc, List.singleton_append]
    | cons l' ls =>
      have hrest := ih (List.cons_ne_nil _ _)
      simp only [joined, List.cons_append, List.intercalate_cons_cons, List.append_assoc]
        at hrest ⊢
      rw [hrest]

theorem joined_inj (hls : ls ≠ []) (hms : ms ≠ []) (hl : ∀ l ∈ ls, x ∉ l) (hm : ∀ m ∈ ms, x ∉ m)
    (h : joined x ls = joined x ms) : ls = ms := by
  have hsplit := congrArg (List.splitOn x) h
  rwa [joined, joined, List.splitOn_intercalate x hl hls, List.splitOn_intercalate x hm hms]
    at hsplit

/-- **What stands before a separator** is a joining of the first lists. -/
theorem joined_split {u v : List α} (hls : ls ≠ []) (hl : ∀ l ∈ ls, x ∉ l)
    (h : joined x ls = u ++ x :: v) :
    ∃ front rest, ls = front ++ rest ∧ rest ≠ [] ∧ joined x front = u := by
  have hsplit := congrArg (List.splitOn x) h
  rw [joined, List.splitOn_intercalate x hl hls, List.splitOn_append_cons_self] at hsplit
  exact ⟨u.splitOn x, v.splitOn x, hsplit, List.splitOn_ne_nil x v, List.intercalate_splitOn x⟩

/-- **What one joining leads** begins with its lists, and goes on. -/
theorem joined_sep_prefix (hls : ls ≠ []) (hms : ms ≠ []) (hl : ∀ l ∈ ls, x ∉ l)
    (hm : ∀ m ∈ ms, x ∉ m) :
    joined x ls ++ [x] <+: joined x ms ↔ ∃ rest, rest ≠ [] ∧ ms = ls ++ rest := by
  constructor
  · rintro ⟨rest, hrest⟩
    have hsplit := congrArg (List.splitOn x) hrest
    rw [List.append_assoc, List.singleton_append, List.splitOn_append_cons_self,
      List.splitOn_intercalate x hl hls, List.splitOn_intercalate x hm hms] at hsplit
    exact ⟨rest.splitOn x, List.splitOn_ne_nil x rest, hsplit.symm⟩
  · rintro ⟨rest, hne, rfl⟩
    rw [joined_append hls hne]
    exact ⟨joined x rest, by simp⟩

end Joined
