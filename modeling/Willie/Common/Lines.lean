import Mathlib.Data.List.Chain

/-!
# Lines of a text that several writers append to

A list is woven from two others when it has the elements of both, each in
its own order. A text splits into lines at its line feeds; a carriage return
before one belongs to the line's end, and what follows the last is a line if
there is anything there.
-/

namespace Lines

variable {α : Type}

/-- A list woven from two others. -/
inductive Woven : List α → List α → List α → Prop
  | nil : Woven [] [] []
  | left {a : α} {as bs cs : List α} : Woven as bs cs → Woven (a :: as) bs (a :: cs)
  | right {b : α} {as bs cs : List α} : Woven as bs cs → Woven as (b :: bs) (b :: cs)

theorem Woven.length {as bs cs : List α} (h : Woven as bs cs) :
    cs.length = as.length + bs.length := by
  induction h with
  | nil => rfl
  | left _ ih => simp only [List.length_cons]; omega
  | right _ ih => simp only [List.length_cons]; omega

/-- What keeps some of the elements keeps those of both. -/
theorem Woven.filterMap {β : Type} (f : α → Option β) {as bs cs : List α} (h : Woven as bs cs) :
    Woven (as.filterMap f) (bs.filterMap f) (cs.filterMap f) := by
  induction h with
  | nil => exact .nil
  | @left a as bs cs _ ih =>
    cases ha : f a with
    | none => simpa [ha] using ih
    | some b => simpa [ha] using ih.left
  | @right a as bs cs _ ih =>
    cases ha : f a with
    | none => simpa [ha] using ih
    | some b => simpa [ha] using ih.right

theorem woven_nil_right {as cs : List α} (h : Woven as [] cs) : cs = as := by
  induction as generalizing cs with
  | nil =>
    cases h with
    | nil => rfl
  | cons a as ih =>
    cases h with
    | left h => rw [ih h]

theorem woven_nil_left {bs cs : List α} (h : Woven [] bs cs) : cs = bs := by
  induction bs generalizing cs with
  | nil =>
    cases h with
    | nil => rfl
  | cons b bs ih =>
    cases h with
    | right h => rw [ih h]

/-! ## Lines -/

/-- The text cut after each of its line feeds. -/
def splitInclusive : List Char → List (List Char)
  | [] => []
  | c :: cs =>
    if c = '\n' then [c] :: splitInclusive cs
    else
      match splitInclusive cs with
      | [] => [[c]]
      | l :: ls => (c :: l) :: ls

/-- A line without its end. -/
def stripEnd (l : List Char) : List Char :=
  if l.getLast? = some '\n' then
    let l := l.dropLast
    if l.getLast? = some '\r' then l.dropLast else l
  else l

/-- The lines of a text. -/
def lines (text : List Char) : List (List Char) := (splitInclusive text).map stripEnd

variable {l text : List Char}

theorem splitInclusive_line (h : '\n' ∉ l) :
    splitInclusive (l ++ '\n' :: text) = (l ++ ['\n']) :: splitInclusive text := by
  induction l with
  | nil => simp [splitInclusive]
  | cons c l ih =>
    obtain ⟨hc, hl⟩ := List.ne_and_not_mem_of_not_mem_cons h
    simp [splitInclusive, ih hl, Ne.symm hc]

theorem splitInclusive_rest (h : '\n' ∉ l) (hne : l ≠ []) : splitInclusive l = [l] := by
  induction l with
  | nil => exact absurd rfl hne
  | cons c l ih =>
    obtain ⟨hc, hl⟩ := List.ne_and_not_mem_of_not_mem_cons h
    cases l with
    | nil => simp [splitInclusive, Ne.symm hc]
    | cons d l =>
      have hrest := ih hl (List.cons_ne_nil d l)
      rw [splitInclusive, if_neg (Ne.symm hc), hrest]

/-- A line that ends with a line feed, and the text after it. -/
theorem lines_line (h : '\n' ∉ l) (hr : l.getLast? ≠ some '\r') :
    lines (l ++ '\n' :: text) = l :: lines text := by
  simp [lines, splitInclusive_line h, stripEnd, hr]

theorem splitInclusive_ne_nil (h : text ≠ []) : splitInclusive text ≠ [] := by
  cases text with
  | nil => exact absurd rfl h
  | cons c text =>
    rw [splitInclusive]
    split_ifs
    · exact List.cons_ne_nil _ _
    · split <;> exact List.cons_ne_nil _ _

theorem splitInclusive_append :
    splitInclusive (l ++ '\n' :: text) = splitInclusive (l ++ ['\n']) ++ splitInclusive text := by
  induction l with
  | nil => rfl
  | cons c l ih =>
    simp only [List.cons_append, splitInclusive, ih]
    by_cases hc : c = '\n'
    · simp [hc]
    · simp only [if_neg hc]
      cases hfirst : splitInclusive (l ++ ['\n']) with
      | nil => exact absurd hfirst (splitInclusive_ne_nil (by simp))
      | cons line rest => rfl

/-- **Whole lines**, whatever they hold, are read apart from what follows. -/
theorem lines_append : lines (l ++ '\n' :: text) = lines (l ++ ['\n']) ++ lines text := by
  rw [lines, splitInclusive_append, List.map_append]
  rfl

/-- A last line without a line feed. -/
theorem lines_rest (h : '\n' ∉ l) (hne : l ≠ []) : lines l = [l] := by
  have hlast : l.getLast? ≠ some '\n' := fun hl => h (List.mem_of_getLast? hl)
  simp [lines, splitInclusive_rest h hne, stripEnd, hlast]

end Lines
