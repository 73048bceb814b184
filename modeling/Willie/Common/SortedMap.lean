import Mathlib.Data.List.Basic
import Mathlib.Data.List.Induction
import Mathlib.Order.Lattice

/-!
# Maps kept in the order of their keys

A map as the list of its entries, in the strict order of their keys, so that
no key has two. It is read by key and walked in order; putting an entry in
leaves every other as it was, and changing all values at once changes no key.
-/

/-- A finite map, its entries in the order of their keys. -/
structure SortedMap (κ α : Type) [LinearOrder κ] where
  entries : List (κ × α)
  sorted : (entries.map Prod.fst).Pairwise (· < ·)

namespace SortedMap

variable {κ α : Type} [LinearOrder κ] {k k' : κ} {a a' : α} {m : SortedMap κ α}
variable {l : List (κ × α)}

/-- Puts an entry in its place, over the one of its key if there is one. -/
def put (k : κ) (a : α) : List (κ × α) → List (κ × α)
  | [] => [(k, a)]
  | e :: rest =>
    if k < e.1 then (k, a) :: e :: rest
    else if k = e.1 then (k, a) :: rest
    else e :: put k a rest

theorem mem_keys_put : k' ∈ (put k a l).map Prod.fst ↔ k' = k ∨ k' ∈ l.map Prod.fst := by
  induction l with
  | nil => simp [put]
  | cons e rest ih =>
    rw [put]
    split
    · simp
    · split
      · rename_i h
        simp [h]
      · simp only [List.map_cons, List.mem_cons, ih]
        exact or_left_comm

theorem put_sorted (h : (l.map Prod.fst).Pairwise (· < ·)) :
    ((put k a l).map Prod.fst).Pairwise (· < ·) := by
  induction l with
  | nil => exact List.pairwise_singleton _ _
  | cons e rest ih =>
    obtain ⟨hfirst, hrest⟩ := List.pairwise_cons.mp h
    rw [put]
    split
    · rename_i hlt
      refine List.pairwise_cons.mpr ⟨fun x hx => ?_, h⟩
      rcases List.mem_cons.mp hx with rfl | hx
      · exact hlt
      · exact hlt.trans (hfirst x hx)
    · rename_i hnlt
      split
      · rename_i heq
        exact List.pairwise_cons.mpr ⟨fun x hx => heq ▸ hfirst x hx, hrest⟩
      · rename_i hne
        refine List.pairwise_cons.mpr ⟨fun x hx => ?_, ih hrest⟩
        rcases mem_keys_put.mp hx with rfl | hx
        · exact lt_of_le_of_ne (not_lt.mp hnlt) (Ne.symm hne)
        · exact hfirst x hx

/-- The map with nothing in it. -/
def empty : SortedMap κ α := ⟨[], List.Pairwise.nil⟩

def insert (m : SortedMap κ α) (k : κ) (a : α) : SortedMap κ α :=
  ⟨put k a m.entries, put_sorted m.sorted⟩

/-- The map without a key. -/
def erase (m : SortedMap κ α) (k : κ) : SortedMap κ α where
  entries := m.entries.filter fun e => e.1 ≠ k
  sorted := m.sorted.sublist (List.filter_sublist.map Prod.fst)

/-- The value under a key. -/
def get (m : SortedMap κ α) (k : κ) : Option α := m.entries.lookup k

/-- Changes every value. -/
def mapVal (f : α → α) (m : SortedMap κ α) : SortedMap κ α where
  entries := m.entries.map fun e => (e.1, f e.2)
  sorted := by simpa [Function.comp_def] using m.sorted

theorem nodup (m : SortedMap κ α) : (m.entries.map Prod.fst).Nodup :=
  m.sorted.imp fun h => h.ne

theorem lookup_cons {e : κ × α} :
    (e :: l).lookup k = if k = e.1 then some e.2 else l.lookup k := by
  obtain ⟨k₁, a₁⟩ := e
  by_cases h : k = k₁
  · simp [h]
  · rw [List.lookup_cons, beq_eq_false_iff_ne.mpr h, if_neg h]

theorem lookup_put :
    (put k a l).lookup k' = if k' = k then some a else l.lookup k' := by
  induction l with
  | nil => rw [put, lookup_cons]
  | cons e rest ih =>
    rw [put]
    split
    · rw [lookup_cons]
    · split
      · rename_i heq
        rw [lookup_cons, lookup_cons, ← heq]
        split <;> rfl
      · rename_i hne
        rw [lookup_cons, lookup_cons, ih]
        by_cases h : k' = e.1
        · rw [if_pos h, if_pos h, if_neg fun hk => hne (hk.symm.trans h)]
        · rw [if_neg h, if_neg h]

@[simp] theorem get_insert_self : (m.insert k a).get k = some a :=
  lookup_put.trans (if_pos rfl)

theorem get_insert_ne (h : k' ≠ k) : (m.insert k a).get k' = m.get k' :=
  lookup_put.trans (if_neg h)

theorem lookup_mapVal {f : α → α} :
    (l.map fun e => (e.1, f e.2)).lookup k = (l.lookup k).map f := by
  induction l with
  | nil => rfl
  | cons e rest ih =>
    rw [List.map_cons, lookup_cons, lookup_cons, ih]
    split <;> rfl

@[simp] theorem get_mapVal {f : α → α} : (m.mapVal f).get k = (m.get k).map f := lookup_mapVal

theorem lookup_erase :
    (l.filter fun e => e.1 ≠ k).lookup k' = if k' = k then none else l.lookup k' := by
  induction l with
  | nil => simp
  | cons e rest ih =>
    rw [lookup_cons]
    by_cases hk : e.1 = k
    · rw [List.filter_cons_of_neg (by simp [hk]), ih, hk]
      split <;> rfl
    · rw [List.filter_cons_of_pos (by simp [hk]), lookup_cons, ih]
      by_cases h : k' = e.1
      · rw [if_pos h, if_neg fun he => hk (h.symm.trans he), if_pos h]
      · rw [if_neg h, if_neg h]

theorem get_erase : (m.erase k).get k' = if k' = k then none else m.get k' := lookup_erase

theorem get_insert : (m.insert k a).get k' = if k' = k then some a else m.get k' := lookup_put

/-- What is walked past is what is under the key. -/
theorem mem_entries : (k, a) ∈ m.entries ↔ m.get k = some a := by
  obtain ⟨l, hl⟩ := m
  simp only [get]
  induction l with
  | nil => simp
  | cons e rest ih =>
    obtain ⟨hfirst, hrest⟩ := List.pairwise_cons.mp hl
    rw [lookup_cons, List.mem_cons, ih hrest]
    by_cases h : k = e.1
    · have hnot : rest.lookup k ≠ some a := fun hl =>
        (hfirst k (List.mem_map.mpr ⟨_, (ih hrest).mpr hl, rfl⟩)).ne h.symm
      rw [if_pos h, or_iff_left hnot, Prod.ext_iff, Option.some_inj]
      exact ⟨fun he => he.2.symm, fun he => ⟨h, he.symm⟩⟩
    · rw [if_neg h, or_iff_right fun he => h (congrArg Prod.fst he)]

/-- A key has one entry at most. -/
theorem entries_filter :
    (m.entries.filter fun e => e.1 = k) = (m.get k).toList.map fun a => (k, a) := by
  obtain ⟨l, hl⟩ := m
  simp only [get]
  induction l with
  | nil => rfl
  | cons e rest ih =>
    obtain ⟨hfirst, hrest⟩ := List.pairwise_cons.mp hl
    rw [lookup_cons]
    by_cases h : k = e.1
    · have hnone : (rest.filter fun e => e.1 = k) = [] := by
        rw [List.filter_eq_nil_iff]
        intro x hx hxk
        have hlt : e.1 < x.1 := hfirst x.1 (List.mem_map_of_mem hx)
        exact hlt.ne (h.symm.trans (of_decide_eq_true hxk).symm)
      rw [List.filter_cons_of_pos (by simp [h]), hnone, if_pos h]
      simp [h]
    · rw [List.filter_cons_of_neg (by simp [Ne.symm h]), if_neg h]
      exact ih hrest

/-- **What was put under a key last** is what is there. -/
theorem get_foldl_insert (es : List (κ × α)) :
    (es.foldl (fun m e => m.insert e.1 e.2) empty).get k =
      ((es.filter (·.1 = k)).getLast?).map (·.2) := by
  induction es using List.reverseRecOn with
  | nil => rfl
  | append_singleton es e ih =>
    rw [List.foldl_append, List.foldl_cons, List.foldl_nil, get_insert, List.filter_append]
    by_cases h : k = e.1
    · rw [if_pos h, List.filter_cons_of_pos (by simp [h])]
      simp
    · rw [if_neg h, ih, List.filter_cons_of_neg (by simpa using Ne.symm h)]
      simp

end SortedMap
