import Mathlib.Data.Nat.Notation
import Mathlib.Data.List.Infix

/-!
# The last word of a stream, found in pieces

A reader knows the words a text may start with, none longer than a bound and
none with another inside it (`Reader`). The last word of a stream decides
(`last`). A scan that takes whole words finds it (`last_of_read`), and so does
one that sees the stream in pieces and looks again only at as much of what it
has seen as an unfinished word can need (`last_rescan`): a word seen again is
later than every word that is not.
-/

namespace Rescan

/-- What a text may start with: the length and the meaning of the word. -/
structure Reader (α β : Type) where
  read : List α → Option (ℕ × β)
  longest : ℕ
  bounds {s n x} : read s = some (n, x) → 0 < n ∧ n ≤ longest ∧ n ≤ s.length
  /-- What follows a word does not count. -/
  extend {s n x} (t : List α) : read s = some (n, x) → read (s ++ t) = some (n, x)
  /-- A word is read off its own symbols. -/
  cut {s t n x} : read (s ++ t) = some (n, x) → n ≤ s.length → read s = some (n, x)
  /-- No word starts inside another. -/
  apart {s n x i} : read s = some (n, x) → 0 < i → i < n → read (s.drop i) = none

namespace Reader

variable {α β : Type} {R : Reader α β} {s t : List α} {b : α} {n i : ℕ} {x : β}

/-- The meaning of the last word of a text. -/
def last (R : Reader α β) : List α → Option β
  | [] => none
  | b :: s => (last R s).or ((R.read (b :: s)).map Prod.snd)

theorem last_cons : R.last (b :: s) = (R.last s).or ((R.read (b :: s)).map Prod.snd) := rfl

theorem read_nil : R.read [] = none := by
  rw [Option.eq_none_iff_forall_ne_some]
  rintro ⟨n, x⟩ h
  obtain ⟨hpos, -, hlen⟩ := R.bounds h
  exact absurd hlen (Nat.not_le_of_lt hpos)

/-- A text that is long enough shows the word it starts with. -/
theorem read_append (h : R.longest ≤ s.length) : R.read (s ++ t) = R.read s := by
  cases hs : R.read s with
  | some word => exact R.extend t hs
  | none =>
    rw [Option.eq_none_iff_forall_ne_some]
    rintro ⟨n, x⟩ happ
    obtain ⟨-, hle, -⟩ := R.bounds happ
    rw [R.cut happ (by omega)] at hs
    contradiction

/-! ## Which word is the last -/

theorem last_eq_none (h : ∀ i, R.read (s.drop i) = none) : R.last s = none := by
  induction s with
  | nil => rfl
  | cons b s ih =>
    have hrest : R.last s = none := ih fun i => h (i + 1)
    have hhere : R.read (b :: s) = none := h 0
    rw [last_cons, hrest, hhere]
    rfl

/-- **The word no other starts after** is the last. -/
theorem last_eq_some (h : R.read (s.drop i) = some (n, x))
    (hlast : ∀ j, i < j → R.read (s.drop j) = none) : R.last s = some x := by
  induction i generalizing s with
  | zero =>
    cases s with
    | nil => rw [List.drop_nil, read_nil] at h; contradiction
    | cons b s =>
      have hrest : R.last s = none := last_eq_none fun j => hlast (j + 1) (by omega)
      rw [List.drop_zero] at h
      rw [last_cons, hrest, h]
      rfl
  | succ i ih =>
    cases s with
    | nil => rw [List.drop_nil, read_nil] at h; contradiction
    | cons b s =>
      have hrest : R.last s = some x := ih h fun j hj => hlast (j + 1) (by omega)
      rw [last_cons, hrest]
      rfl

/-- Symbols no word starts at do not matter. -/
theorem last_drop (h : ∀ i < n, R.read (s.drop i) = none) : R.last (s.drop n) = R.last s := by
  induction n generalizing s with
  | zero => rfl
  | succ n ih =>
    cases s with
    | nil => rfl
    | cons b s =>
      have hhere : R.read (b :: s) = none := h 0 (by omega)
      have hrest : R.last (s.drop n) = R.last s := ih fun i hi => h (i + 1) (by omega)
      rw [List.drop_succ_cons, hrest, last_cons, hhere]
      simp

/-- **A scan takes whole words**: the last word is the last one behind it, or
it itself. -/
theorem last_of_read (h : R.read s = some (n, x)) :
    R.last s = (R.last (s.drop n)).or (some x) := by
  obtain ⟨hpos, -, hlen⟩ := R.bounds h
  cases s with
  | nil => rw [read_nil] at h; contradiction
  | cons b s =>
    obtain ⟨m, rfl⟩ : ∃ m, n = m + 1 := ⟨n - 1, by omega⟩
    have hinside : R.last (s.drop m) = R.last s := by
      refine last_drop fun i hi => ?_
      have hapart : R.read ((b :: s).drop (i + 1)) = none := R.apart h (by omega) (by omega)
      exact hapart
    rw [last_cons, h, List.drop_succ_cons, hinside]
    rfl

/-! ## In pieces -/

/-- A word is still there when more has come. -/
theorem last_append_eq_none (h : R.last (s ++ t) = none) : R.last s = none := by
  induction s with
  | nil => rfl
  | cons b s ih =>
    rw [List.cons_append, last_cons, Option.or_eq_none_iff] at h
    obtain ⟨hrest, hhere⟩ := h
    have hread : R.read (b :: s) = none := by
      rw [Option.eq_none_iff_forall_ne_some]
      rintro ⟨n, x⟩ hs
      have happ := R.extend t hs
      rw [List.cons_append] at happ
      rw [happ] at hhere
      contradiction
    rw [last_cons, ih hrest, hread]
    rfl

/-- **Looking again at the end of what was seen** finds the last word of all:
`u` is not looked at again, `s` is. -/
theorem last_rescan (u : List α) (h : u ≠ [] → R.longest ≤ s.length + 1) :
    R.last (u ++ s ++ t) = (R.last (s ++ t)).or (R.last (u ++ s)) := by
  induction u with
  | nil =>
    cases hlast : R.last (s ++ t) with
    | some x => simpa using hlast
    | none => simpa [hlast] using (last_append_eq_none hlast).symm
  | cons b u ih =>
    have hlong := h (List.cons_ne_nil b u)
    have hread : R.read (b :: (u ++ s) ++ t) = R.read (b :: (u ++ s)) := by
      refine read_append ?_
      rw [List.length_cons, List.length_append]
      omega
    have hrest := ih fun _ => hlong
    rw [List.cons_append, List.cons_append, last_cons, hrest, last_cons, ← List.cons_append, hread,
      Option.or_assoc]

end Reader

end Rescan
