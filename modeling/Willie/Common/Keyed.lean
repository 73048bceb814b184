import Mathlib.Data.List.Nodup
import Mathlib.Order.Nat
import Willie.Common.SortedMap

/-!
# Rows with an id, in a table and in a list

The same rows are held twice: by their owner in a table sorted by id, and by
a reader in a list, in the order they came. A row put in the table takes the
place of the one of its id; the reader replaces it where it stands, or adds
it at the end. Read by id, the two agree, and an id stays that of one row.
-/

/-- Rows that have an id. -/
class HasId (α : Type) where
  idOf : α → Nat

export HasId (idOf)

/-- The owner's rows, each under its own id. -/
structure Table (α : Type) [HasId α] extends SortedMap Nat α where
  keyed : ∀ k x, toSortedMap.get k = some x → idOf x = k

namespace Table

variable {α : Type} [HasId α] {t : Table α} {x y : α} {k k' : Nat} {xs : List α}

def empty : Table α := ⟨.empty, fun _ _ h => by cases h⟩

/-- The row of an id. -/
def row (t : Table α) (k : Nat) : Option α := t.toSortedMap.get k

/-- Puts a row in, under its id. -/
def upsert (t : Table α) (x : α) : Table α where
  toSortedMap := t.toSortedMap.insert (idOf x) x
  keyed k y h := by
    rw [SortedMap.get_insert] at h
    split at h
    · rename_i hk
      obtain rfl := Option.some.inj h
      exact hk.symm
    · exact t.keyed k y h

def remove (t : Table α) (k : Nat) : Table α where
  toSortedMap := t.toSortedMap.erase k
  keyed k' y h := by
    rw [SortedMap.get_erase] at h
    split at h
    · cases h
    · exact t.keyed k' y h

/-- The rows, in the order of their ids. -/
def values (t : Table α) : List α := t.entries.map Prod.snd

theorem row_upsert : (t.upsert x).row k = if k = idOf x then some x else t.row k :=
  SortedMap.get_insert

theorem row_remove : (t.remove k).row k' = if k' = k then none else t.row k' :=
  SortedMap.get_erase

/-! ## A reader's list -/

/-- The row of an id in a list. -/
def byId (xs : List α) (k : Nat) : Option α := xs.find? fun x => idOf x = k

/-- Replaces the row of the same id where it stands, or adds the row. -/
def upsertRow (xs : List α) (x : α) : List α :=
  match xs.findIdx? fun y => idOf y = idOf x with
  | none => xs ++ [x]
  | some i => xs.set i x

def removeRow (xs : List α) (k : Nat) : List α := xs.filter fun x => idOf x ≠ k

theorem byId_cons : byId (x :: xs) k = if idOf x = k then some x else byId xs k := by
  rw [byId, List.find?_cons]
  by_cases h : idOf x = k <;> simp [h, byId]

theorem upsertRow_cons :
    upsertRow (y :: xs) x = if idOf y = idOf x then x :: xs else y :: upsertRow xs x := by
  unfold upsertRow
  rw [List.findIdx?_cons]
  by_cases h : idOf y = idOf x
  · simp [h]
  · cases xs.findIdx? fun y => idOf y = idOf x <;> simp [h]

theorem byId_upsertRow :
    byId (upsertRow xs x) k = if k = idOf x then some x else byId xs k := by
  induction xs with
  | nil =>
    rw [show upsertRow [] x = [x] from rfl, byId_cons]
    exact if_congr eq_comm rfl rfl
  | cons y xs ih =>
    rw [upsertRow_cons]
    by_cases hy : idOf y = idOf x
    · rw [if_pos hy, byId_cons, byId_cons, hy]
      by_cases hk : k = idOf x
      · rw [if_pos hk, if_pos hk.symm]
      · rw [if_neg hk, if_neg (Ne.symm hk), if_neg (Ne.symm hk)]
    · rw [if_neg hy, byId_cons, byId_cons, ih]
      by_cases hk : k = idOf x
      · rw [if_pos hk, if_pos hk, if_neg fun he => hy (he.trans hk)]
      · rw [if_neg hk, if_neg hk]

theorem byId_removeRow : byId (removeRow xs k) k' = if k' = k then none else byId xs k' := by
  induction xs with
  | nil => simp [byId, removeRow]
  | cons y xs ih =>
    rw [removeRow, byId_cons]
    by_cases hy : idOf y = k
    · rw [List.filter_cons_of_neg (by simp [hy])]
      refine ih.trans ?_
      by_cases hk : k' = k
      · rw [if_pos hk, if_pos hk]
      · rw [if_neg hk, if_neg hk, if_neg fun he => hk (he.symm.trans hy)]
    · rw [List.filter_cons_of_pos (by simp [hy]), byId_cons]
      by_cases hk : idOf y = k'
      · rw [if_pos hk, if_pos hk, if_neg fun he => hy (hk.trans he)]
      · rw [if_neg hk, if_neg hk]
        exact ih

/-- **Read by id, the list of a table's rows is the table.** -/
theorem byId_values : byId t.values k = t.row k := by
  have hkeyed : ∀ e ∈ t.entries, idOf e.2 = e.1 := fun e he =>
    t.keyed e.1 e.2 (SortedMap.mem_entries.mp he)
  unfold values row SortedMap.get
  generalize t.entries = l at hkeyed ⊢
  induction l with
  | nil => rfl
  | cons e rest ih =>
    have he : idOf e.2 = e.1 := hkeyed e List.mem_cons_self
    rw [List.map_cons, byId_cons, SortedMap.lookup_cons, he,
      ih fun e' he' => hkeyed e' (List.mem_cons_of_mem e he')]
    exact if_congr eq_comm rfl rfl

/-! ## One row for each id -/

theorem ids_upsertRow :
    (upsertRow xs x).map idOf =
      if idOf x ∈ xs.map idOf then xs.map idOf else xs.map idOf ++ [idOf x] := by
  induction xs with
  | nil => rfl
  | cons y xs ih =>
    rw [upsertRow_cons]
    by_cases hy : idOf y = idOf x
    · rw [if_pos hy, if_pos (by simp [hy]), List.map_cons, List.map_cons, hy]
    · rw [if_neg hy, List.map_cons, ih, List.map_cons]
      by_cases hx : idOf x ∈ xs.map idOf
      · rw [if_pos hx, if_pos (List.mem_cons_of_mem _ hx)]
      · have hnot : idOf x ∉ idOf y :: xs.map idOf := fun h =>
          (List.mem_cons.mp h).elim (fun he => hy he.symm) hx
        rw [if_neg hx, if_neg hnot, List.cons_append]

theorem nodup_upsertRow (h : (xs.map idOf).Nodup) : ((upsertRow xs x).map idOf).Nodup := by
  rw [ids_upsertRow]
  split
  · exact h
  · rename_i hx
    exact List.Nodup.append h (List.nodup_singleton _) (by simpa using hx)

theorem nodup_removeRow (h : (xs.map idOf).Nodup) : ((removeRow xs k).map idOf).Nodup :=
  h.sublist (List.filter_sublist.map idOf)

theorem nodup_values : (t.values.map idOf).Nodup := by
  have hids : t.values.map idOf = t.entries.map Prod.fst := by
    rw [values, List.map_map]
    exact List.map_congr_left fun e he => t.keyed e.1 e.2 (SortedMap.mem_entries.mp he)
  rw [hids]
  exact t.toSortedMap.nodup

end Table
