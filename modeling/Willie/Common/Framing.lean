import Mathlib.Data.List.Infix

/-!
# Items on a stream that is cut anywhere

A code writes items one after the other, each in so many symbols that a
reader knows where it ends. The reader holds a buffer: what arrives is put
behind it, and an item is taken from its front once all of it is there. Two
laws make this work, and are all that is used of a code: an item is read from
the front of whatever follows it, and nothing is read from a part of one.

However the stream is cut and whenever the reader asks, what it has taken is
the first items and what it holds is the rest of what arrived
(`run_stream`); nothing is left to take exactly when the next item is not all
there (`decode_eq_none_iff`).
-/

namespace Framing

/-- A way to write items so that they can be told apart on a stream. -/
structure Code (α β : Type) where
  /-- The items that can be written. -/
  Fits : α → Prop
  encode : α → List β
  /-- The item at the front, and what follows it. -/
  decode : List β → Option (α × List β)
  decode_nil : decode [] = none
  whole : ∀ a rest, Fits a → decode (encode a ++ rest) = some (a, rest)
  short : ∀ a part rest, Fits a → part ++ rest = encode a → rest ≠ [] → decode part = none

/-- What is done to a reader. -/
inductive Op (β : Type) where
  | push (bytes : List β)
  | pop
  deriving DecidableEq, Repr

variable {α β : Type} (C : Code α β)

/-- All that was put in. -/
def pushed : List (Op β) → List β
  | [] => []
  | .push bytes :: ops => bytes ++ pushed ops
  | .pop :: ops => pushed ops

/-- The items taken, and what is held at the end. -/
def run : List β → List (Op β) → List α × List β
  | held, [] => ([], held)
  | held, .push bytes :: ops => run (held ++ bytes) ops
  | held, .pop :: ops =>
    match C.decode held with
    | some (a, rest) => ((a :: (run rest ops).1), (run rest ops).2)
    | none => run held ops

/-- The symbols of some items. -/
def stream (items : List α) : List β := items.flatMap C.encode

variable {C} {items : List α} {held late : List β} {ops ops' : List (Op β)} {a : α}

@[simp] theorem stream_nil : stream C [] = [] := rfl

@[simp] theorem stream_cons : stream C (a :: items) = C.encode a ++ stream C items := rfl

theorem stream_append {items' : List α} :
    stream C (items ++ items') = stream C items ++ stream C items' := List.flatMap_append

@[simp] theorem pushed_append : pushed (ops ++ ops') = pushed ops ++ pushed ops' := by
  induction ops with
  | nil => rfl
  | cons op ops ih =>
    cases op with
    | push bytes => simp [pushed, ih]
    | pop => exact ih

theorem run_pop_some {rest : List β} (h : C.decode held = some (a, rest)) :
    run C held (.pop :: ops) = (a :: (run C rest ops).1, (run C rest ops).2) := by
  simp only [run, h]

theorem run_pop_none (h : C.decode held = none) : run C held (.pop :: ops) = run C held ops := by
  simp only [run, h]

theorem run_append : run C held (ops ++ ops') =
    ((run C held ops).1 ++ (run C (run C held ops).2 ops').1,
      (run C (run C held ops).2 ops').2) := by
  induction ops generalizing held with
  | nil => rfl
  | cons op ops ih =>
    cases op with
    | push bytes => exact ih
    | pop =>
      simp only [List.cons_append, run]
      cases C.decode held with
      | none => exact ih
      | some r => simp [ih]

/-- A buffer that holds the beginning of a stream has the first item at its
front, or not all of it. -/
theorem decode_stream (ha : C.Fits a) (h : held ++ late = stream C (a :: items)) :
    (∃ rest, held = C.encode a ++ rest ∧ rest ++ late = stream C items ∧
      C.decode held = some (a, rest)) ∨
    (∃ lacking, held ++ lacking = C.encode a ∧ lacking ≠ [] ∧ C.decode held = none) := by
  rw [stream_cons] at h
  rcases List.append_eq_append_iff.mp h with ⟨lacking, henc, hlate⟩ | ⟨rest, hheld, hstream⟩
  · rcases eq_or_ne lacking [] with rfl | hne
    · -- the buffer ends where the item does
      rw [List.append_nil] at henc
      rw [List.nil_append] at hlate
      refine .inl ⟨[], by simp [henc], by simp [hlate], ?_⟩
      have := C.whole a [] ha
      rwa [List.append_nil, henc] at this
    · exact .inr ⟨lacking, henc.symm, hne, C.short a held lacking ha henc.symm hne⟩
  · exact .inl ⟨rest, hheld, hstream.symm, hheld ▸ C.whole a rest ha⟩

/-- **The reader's run.** Whatever arrived is the beginning of the items'
stream: the reader has taken the first of them and holds the rest of what
arrived. -/
theorem run_stream (hfits : ∀ a ∈ items, C.Fits a)
    (h : held ++ pushed ops ++ late = stream C items) :
    ∃ taken left, items = taken ++ left ∧ (run C held ops).1 = taken ∧
      stream C taken ++ (run C held ops).2 = held ++ pushed ops := by
  induction ops generalizing held items with
  | nil => exact ⟨[], items, rfl, rfl, by simp [run, pushed]⟩
  | cons op ops ih =>
    cases op with
    | push bytes =>
      obtain ⟨taken, left, hitems, htaken, hrest⟩ :=
        ih hfits (show (held ++ bytes) ++ pushed ops ++ late = _ by simpa [pushed] using h)
      exact ⟨taken, left, hitems, htaken, by simpa [run, pushed] using hrest⟩
    | pop =>
      simp only [pushed] at h ⊢
      cases items with
      | nil =>
        -- an empty stream leaves the buffer empty
        have hheld : held = [] := by simp_all [stream]
        rw [run_pop_none (hheld ▸ C.decode_nil)]
        exact ih hfits h
      | cons a items =>
        have hcut : held ++ (pushed ops ++ late) = stream C (a :: items) := by
          rw [← List.append_assoc, h]
        rcases decode_stream (hfits a List.mem_cons_self) hcut with
          ⟨rest, hheld, hlate, hdecode⟩ | ⟨lacking, -, -, hdecode⟩
        · obtain ⟨taken, left, hitems, htaken, hrest⟩ :=
            ih (fun b hb => hfits b (List.mem_cons_of_mem a hb))
              (show rest ++ pushed ops ++ late = _ by rw [List.append_assoc, hlate])
          refine ⟨a :: taken, left, by rw [hitems]; rfl, by rw [run_pop_some hdecode, htaken], ?_⟩
          rw [run_pop_some hdecode, stream_cons, List.append_assoc, hrest, hheld,
            List.append_assoc]
        · rw [run_pop_none hdecode]
          exact ih hfits h

/-- **When nothing is left to take**: the buffer does not hold all of the
next item. -/
theorem decode_eq_none_iff (hfits : ∀ a ∈ items, C.Fits a) (h : held ++ late = stream C items) :
    C.decode held = none ↔ ∀ a ∈ items.head?, ¬ C.encode a <+: held := by
  cases items with
  | nil =>
    have hheld : held = [] := by simp_all [stream]
    simp [hheld, C.decode_nil]
  | cons a items =>
    simp only [List.head?_cons, Option.mem_some_iff, forall_eq']
    rcases decode_stream (hfits a List.mem_cons_self) h with
      ⟨rest, hheld, -, hdecode⟩ | ⟨lacking, henc, hne, hdecode⟩
    · simp [hdecode, hheld.symm ▸ List.prefix_append _ _]
    · refine iff_of_true hdecode fun hle => hne ?_
      have := hle.length_le
      rw [← henc, List.length_append] at this
      exact List.length_eq_zero_iff.mp (by omega)

/-- A stream from which nothing can be taken is empty. -/
theorem eq_nil_of_decode (hfits : ∀ a ∈ items, C.Fits a) (h : C.decode (stream C items) = none) :
    items = [] := by
  cases items with
  | nil => rfl
  | cons a items =>
    rw [stream_cons, C.whole a _ (hfits a List.mem_cons_self)] at h
    cases h

/-- A reader that has all of a stream takes an item each time it asks. -/
theorem run_pops {n : Nat} (hfits : ∀ a ∈ items, C.Fits a) :
    run C (stream C items) (List.replicate n .pop) =
      (items.take n, stream C (items.drop n)) := by
  induction n generalizing items with
  | zero => rfl
  | succ n ih =>
    cases items with
    | nil =>
      have := ih hfits
      simpa [List.replicate_succ, run, C.decode_nil] using this
    | cons a items =>
      have hrest := ih fun b hb => hfits b (List.mem_cons_of_mem a hb)
      simp [List.replicate_succ, run, C.whole a _ (hfits a List.mem_cons_self), hrest]

/-- **Every item, in order**: once the whole stream has arrived, as many
more questions as there are items not taken yet take them all. -/
theorem run_complete {n : Nat} (hfits : ∀ a ∈ items, C.Fits a) (h : pushed ops = stream C items)
    (hn : items.length ≤ (run C [] ops).1.length + n) :
    run C [] (ops ++ List.replicate n .pop) = (items, []) := by
  obtain ⟨taken, left, hitems, htaken, hrest⟩ :=
    run_stream hfits (show [] ++ pushed ops ++ [] = stream C items by simpa using h)
  have hheld : (run C [] ops).2 = stream C left := by
    rw [List.nil_append, h, hitems, stream_append] at hrest
    exact List.append_cancel_left hrest
  have hleft : ∀ a ∈ left, C.Fits a := fun a ha => hfits a (by simp [hitems, ha])
  have hlen : left.length ≤ n := by
    rw [htaken, hitems, List.length_append] at hn
    omega
  rw [run_append, htaken, hheld, run_pops hleft, List.take_of_length_le hlen,
    List.drop_of_length_le hlen, ← hitems]
  rfl

end Framing
