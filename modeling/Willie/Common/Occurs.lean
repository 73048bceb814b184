import Mathlib.Data.List.Infix
import Mathlib.Data.Nat.Find

/-!
# Where a text first holds another

The place a pattern first occurs at does not depend on what stands behind it
(`FirstAt.replace`), and a symbol the pattern does not have is a wall no
occurrence crosses (`infix_wall`). So a text put together from parts around
such walls holds the pattern first where one of its parts does.
-/

namespace Occurs

variable {α : Type} {pat s a b c : List α} {x : α} {i j n : Nat}

/-- The pattern stands here, and nowhere before. -/
structure FirstAt (pat s : List α) (i : Nat) : Prop where
  here : pat <+: s.drop i
  first : ∀ j < i, ¬ pat <+: s.drop j

theorem FirstAt.unique (h : FirstAt pat s i) (h' : FirstAt pat s j) : i = j := by
  rcases Nat.lt_trichotomy i j with hlt | heq | hlt
  · exact absurd h.here (h'.first i hlt)
  · exact heq
  · exact absurd h'.here (h.first j hlt)

theorem infix_of_prefix_drop (h : pat <+: s.drop i) : pat <:+: s :=
  h.isInfix.trans (List.drop_suffix i s).isInfix

theorem FirstAt.isInfix (h : FirstAt pat s i) : pat <:+: s := infix_of_prefix_drop h.here

/-- The text around the place. -/
theorem FirstAt.split (h : FirstAt pat s i) (hne : pat ≠ []) :
    ∃ a b, s = a ++ pat ++ b ∧ a.length = i := by
  obtain ⟨b, hb⟩ := h.here
  have hle : i ≤ s.length := by
    by_contra hgt
    rw [List.drop_of_length_le (by omega)] at hb
    exact hne (List.append_eq_nil_iff.mp hb).1
  refine ⟨s.take i, b, ?_, List.length_take_of_le hle⟩
  rw [List.append_assoc, hb, List.take_append_drop]

/-- What occurs occurs first somewhere. -/
theorem exists_firstAt (h : pat <:+: s) : ∃ i, FirstAt pat s i := by
  classical
  obtain ⟨u, v, rfl⟩ := h
  have hex : ∃ i, pat <+: (u ++ pat ++ v).drop i :=
    ⟨u.length, by rw [List.append_assoc, List.drop_left]; exact List.prefix_append _ _⟩
  exact ⟨Nat.find hex, Nat.find_spec hex, fun j hj => Nat.find_min hex hj⟩

/-- **The first place does not see what follows it.** -/
theorem FirstAt.replace (h : FirstAt pat (a ++ pat ++ b) a.length) (c : List α) :
    FirstAt pat (a ++ pat ++ c) a.length := by
  refine ⟨?_, fun j hj hat => h.first j hj ?_⟩
  · rw [List.append_assoc, List.drop_left]
    exact List.prefix_append _ _
  · -- an occurrence before the place lies within what both texts begin with
    have hdrop (d : List α) : (a ++ pat ++ d).drop j = (a ++ pat).drop j ++ d :=
      List.drop_append_of_le_length (by rw [List.length_append]; omega)
    rw [hdrop] at hat ⊢
    have hlen : pat.length ≤ ((a ++ pat).drop j).length := by
      rw [List.length_drop, List.length_append]
      omega
    exact (List.prefix_of_prefix_length_le hat (List.prefix_append _ _) hlen).trans
      (List.prefix_append _ _)

/-- No occurrence crosses a symbol the pattern does not have. -/
theorem prefix_wall (hx : x ∉ pat) : pat <+: a ++ x :: b ↔ pat <+: a := by
  refine ⟨fun h => ?_, fun h => h.trans (List.prefix_append _ _)⟩
  have hwall : a ++ [x] <+: a ++ x :: b :=
    (List.prefix_append_right_inj a).mpr (List.cons_prefix_cons.mpr ⟨rfl, List.nil_prefix⟩)
  rcases List.prefix_or_prefix_of_prefix h hwall with h | h
  · rcases List.prefix_concat_iff.mp h with rfl | h
    · exact absurd (by simp) hx
    · exact h
  · exact absurd (h.subset (by simp)) hx

theorem infix_wall (hx : x ∉ pat) : pat <:+: a ++ x :: b ↔ pat <:+: a ∨ pat <:+: b := by
  constructor
  · intro h
    induction a with
    | nil =>
      rcases List.infix_cons_iff.mp h with h | h
      · exact .inl ((prefix_wall (a := []) hx).mp h).isInfix
      · exact .inr h
    | cons y a ih =>
      rcases List.infix_cons_iff.mp h with h | h
      · exact .inl ((prefix_wall (a := y :: a) hx).mp h).isInfix
      · rcases ih h with h | h
        · exact .inl (List.infix_cons h)
        · exact .inr h
  · rintro (h | h)
    · exact h.trans (List.prefix_append _ _).isInfix
    · exact h.trans ⟨a ++ [x], [], by simp⟩

theorem infix_replicate (hne : pat ≠ []) (hx : x ∉ pat) : ¬ pat <:+: List.replicate n x := by
  intro h
  obtain ⟨y, rest, rfl⟩ := List.exists_cons_of_ne_nil hne
  have hy := List.eq_of_mem_replicate (h.subset List.mem_cons_self)
  exact hx (hy ▸ List.mem_cons_self)

/-- Walls at both ends change nothing. -/
theorem infix_padded {m : Nat} (hne : pat ≠ []) (hx : x ∉ pat) :
    pat <:+: List.replicate m x ++ a ++ List.replicate n x ↔ pat <:+: a := by
  have hleft : pat <:+: List.replicate m x ++ a ↔ pat <:+: a := by
    induction m with
    | zero => rfl
    | succ m ih =>
      rw [List.replicate_succ, List.cons_append]
      have hwall := infix_wall (a := []) (b := List.replicate m x ++ a) hx
      rw [List.nil_append] at hwall
      rw [hwall, ih, List.infix_nil, or_iff_right hne]
  cases n with
  | zero => simpa using hleft
  | succ n => rw [List.replicate_succ, infix_wall hx, hleft, or_iff_left (infix_replicate hne hx)]

/-- **Behind a wall**, and not before it: the pattern is found where it was
put. -/
theorem firstAt_wall (hx : x ∉ pat) (ha : ¬ pat <:+: a) :
    FirstAt pat (a ++ x :: (pat ++ b)) (a.length + 1) := by
  constructor
  · have hdrop : (a ++ x :: (pat ++ b)).drop (a.length + 1) = pat ++ b := by
      rw [← List.drop_drop, List.drop_left]
      rfl
    rw [hdrop]
    exact List.prefix_append _ _
  · intro j hj hat
    rw [List.drop_append_of_le_length (by omega)] at hat
    exact ha (infix_of_prefix_drop ((prefix_wall hx).mp hat))

end Occurs
