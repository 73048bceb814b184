import Mathlib.Data.List.Basic

/-!
# JSON values with insertion-ordered objects

An object is the list of its entries in the order they were inserted, no
key twice. The operations are those of an insertion-ordered map: a lookup,
an insertion that replaces in place or appends, a removal that fills the
gap with the last entry.
-/

namespace Json

/-- A JSON value. A number is kept as its text. -/
inductive Value where
  | null
  | bool (b : Bool)
  | number (text : String)
  | string (s : String)
  | array (vs : List Value)
  | object (entries : List (String × Value))

/-- An object's entries. -/
abbrev Map := List (String × Value)

namespace Map

/-- The value under a key. -/
def get? : Map → String → Option Value
  | [], _ => none
  | (k, v) :: m, key => if k = key then some v else get? m key

/-- Replaces the value under a key where it stands, or appends it. -/
def insert : Map → String → Value → Map
  | [], key, value => [(key, value)]
  | (k, v) :: m, key, value =>
    if k = key then (k, value) :: m else (k, v) :: insert m key value

/-- Takes a key out; the last entry moves into its place. -/
def remove : Map → String → Map
  | [], _ => []
  | (k, v) :: m, key =>
    if k = key then
      match m.getLast? with
      | none => []
      | some e => e :: m.dropLast
    else (k, v) :: remove m key

/-- No key stands twice. -/
def Unique (m : Map) : Prop := (m.map Prod.fst).Nodup

variable {m : Map} {k key : String} {v value : Value}

@[simp] theorem get?_nil : get? [] key = none := rfl

@[simp] theorem get?_cons :
    get? ((k, v) :: m) key = if k = key then some v else get? m key := rfl

/-- A key without an entry has no value. -/
theorem get?_eq_none : get? m key = none ↔ key ∉ m.map Prod.fst := by
  induction m with
  | nil => simp
  | cons e m ih =>
    obtain ⟨k, v⟩ := e
    simp only [get?_cons, List.map_cons, List.mem_cons, not_or]
    by_cases h : k = key
    · simp [h]
    · simp [h, ih, Ne.symm h]

@[simp] theorem get?_insert (m : Map) :
    get? (insert m key value) k = if k = key then some value else get? m k := by
  induction m with
  | nil => simp [insert, eq_comm]
  | cons e m ih =>
    obtain ⟨k', v⟩ := e
    by_cases h : k' = key
    · by_cases hk : k = key <;> simp_all [insert, eq_comm]
    · by_cases hk : k = key <;> simp_all [insert]

theorem mem_of_get? {m : Map} (h : get? m key = some v) : (key, v) ∈ m := by
  induction m with
  | nil => cases h
  | cons e m ih =>
    obtain ⟨k, w⟩ := e
    rw [get?_cons] at h
    split at h
    · rename_i hk
      obtain rfl := Option.some.inj h
      exact hk ▸ List.mem_cons_self
    · exact List.mem_cons_of_mem _ (ih h)

theorem get?_of_mem {m : Map} (hu : Unique m) (h : (key, v) ∈ m) : get? m key = some v := by
  induction m with
  | nil => cases h
  | cons e m ih =>
    obtain ⟨k, w⟩ := e
    obtain ⟨hk, hm⟩ := List.nodup_cons.mp hu
    rcases List.mem_cons.mp h with heq | h
    · obtain ⟨rfl, rfl⟩ := Prod.mk.inj heq
      exact if_pos rfl
    · have hne : k ≠ key := by
        rintro rfl
        exact hk (List.mem_map.mpr ⟨_, h, rfl⟩)
      rw [get?_cons, if_neg hne, ih hm h]

/-- Insertion keeps the keys where they stand; a new one comes last. -/
theorem keys_insert (m : Map) : (insert m key value).map Prod.fst =
    if key ∈ m.map Prod.fst then m.map Prod.fst else m.map Prod.fst ++ [key] := by
  induction m with
  | nil => rfl
  | cons e m ih =>
    obtain ⟨k, v⟩ := e
    by_cases h : k = key
    · simp [insert, h]
    · simp only [insert, if_neg h, List.map_cons, ih, List.mem_cons, Ne.symm h, false_or]
      split <;> rfl

/-- Objects with the same keys in the same order and the same values are the
same. -/
theorem ext {m m' : Map} (hu : Unique m) (hkeys : m.map Prod.fst = m'.map Prod.fst)
    (hget : ∀ k, get? m k = get? m' k) : m = m' := by
  induction m generalizing m' with
  | nil => exact (List.map_eq_nil_iff.mp hkeys.symm).symm
  | cons e m ih =>
    cases m' with
    | nil => cases hkeys
    | cons e' m' =>
      obtain ⟨k, v⟩ := e
      obtain ⟨k', v'⟩ := e'
      obtain ⟨rfl, hrest⟩ := List.cons.inj hkeys
      obtain ⟨hk, hm⟩ := List.nodup_cons.mp hu
      have hv : v = v' := by simpa using hget k
      have htail : m = m' := by
        refine ih hm hrest fun key => ?_
        by_cases heq : k = key
        · subst heq
          rw [get?_eq_none.mpr hk, get?_eq_none.mpr (by rwa [← show m.map Prod.fst = _ from hrest])]
        · simpa [heq] using hget key
      rw [hv, htail]

theorem mem_keys_insert (m : Map) :
    k ∈ (insert m key value).map Prod.fst ↔ k = key ∨ k ∈ m.map Prod.fst := by
  rw [← not_iff_not, ← get?_eq_none, get?_insert, not_or, ← get?_eq_none]
  by_cases h : k = key <;> simp [h]

theorem Unique.insert (h : Unique m) : Unique (insert m key value) := by
  induction m with
  | nil => simp [Unique, Map.insert]
  | cons e m ih =>
    obtain ⟨k, v⟩ := e
    obtain ⟨hk, hm⟩ := List.nodup_cons.mp h
    by_cases hkey : k = key
    · simpa [Map.insert, hkey, Unique] using h
    · simp only [Map.insert, hkey, if_false]
      refine List.nodup_cons.mpr ⟨?_, ih hm⟩
      show k ∉ (Map.insert m key value).map Prod.fst
      rw [mem_keys_insert]
      exact fun h => h.elim hkey hk

/-- What a removal leaves is what stood beside the key. -/
theorem remove_perm (h : Unique m) : (remove m key).Perm (m.filter (·.1 ≠ key)) := by
  induction m with
  | nil => simp [remove]
  | cons e m ih =>
    obtain ⟨k, v⟩ := e
    obtain ⟨hk, hm⟩ := List.nodup_cons.mp h
    by_cases hkey : k = key
    · subst hkey
      have hall : m.filter (·.1 ≠ k) = m := by
        refine List.filter_eq_self.mpr fun e he => ?_
        simp only [decide_eq_true_eq]
        rintro rfl
        exact hk (List.mem_map.mpr ⟨e, he, rfl⟩)
      rw [List.filter_cons_of_neg (by simp), hall]
      rcases List.eq_nil_or_concat m with rfl | ⟨m', e, rfl⟩
      · simp [remove]
      · simpa [remove] using (List.perm_append_singleton e m').symm
    · rw [List.filter_cons_of_pos (by simpa using hkey)]
      simpa [remove, hkey] using ih hm

/-- Under unique keys a lookup does not see the order of the entries. -/
theorem get?_perm {m' : Map} (h : m.Perm m') (hu : Unique m) : get? m key = get? m' key := by
  induction h with
  | nil => rfl
  | cons e _ ih =>
    obtain ⟨k, v⟩ := e
    simp [ih (List.nodup_cons.mp hu).2]
  | swap e e' m =>
    obtain ⟨k, v⟩ := e
    obtain ⟨k', v'⟩ := e'
    have hne : k' ≠ k := by
      have := (List.nodup_cons.mp hu).1
      simp_all
    by_cases h : k = key <;> by_cases h' : k' = key <;> simp_all
  | trans h₁ _ ih₁ ih₂ =>
    exact (ih₁ hu).trans (ih₂ ((h₁.map _).nodup_iff.mp hu))

theorem get?_filter_ne (m : Map) :
    get? (m.filter (·.1 ≠ key)) k = if k = key then none else get? m k := by
  induction m with
  | nil => simp
  | cons e m ih =>
    obtain ⟨k', v⟩ := e
    by_cases h : k' = key <;> by_cases hk : k = key <;> simp_all
    grind

theorem Unique.remove (h : Unique m) : Unique (remove m key) :=
  ((remove_perm h).map _).nodup_iff.mpr (h.sublist (List.filter_sublist.map _))

theorem get?_remove (h : Unique m) :
    get? (remove m key) k = if k = key then none else get? m k := by
  rw [get?_perm (remove_perm h) h.remove, get?_filter_ne]

end Map

/-- The value of an object's field; nothing else has fields. -/
def Value.get? : Value → String → Option Value
  | .object m, key => Map.get? m key
  | _, _ => none

/-- The text of a string value. -/
def Value.asStr? : Value → Option String
  | .string s => some s
  | _ => none

mutual

/-- No object in the value has a key twice. -/
def Value.WellFormed : Value → Prop
  | .array vs => allWellFormed vs
  | .object m => Map.Unique m ∧ entriesWellFormed m
  | _ => True

def allWellFormed : List Value → Prop
  | [] => True
  | v :: vs => v.WellFormed ∧ allWellFormed vs

def entriesWellFormed : List (String × Value) → Prop
  | [] => True
  | (_, v) :: m => v.WellFormed ∧ entriesWellFormed m

end

mutual

/-- Every number in the value is one of some. -/
def Value.NumbersIn (P : String → Prop) : Value → Prop
  | .number text => P text
  | .array vs => allNumbersIn P vs
  | .object m => entriesNumbersIn P m
  | _ => True

def allNumbersIn (P : String → Prop) : List Value → Prop
  | [] => True
  | v :: vs => v.NumbersIn P ∧ allNumbersIn P vs

def entriesNumbersIn (P : String → Prop) : List (String × Value) → Prop
  | [] => True
  | (_, v) :: m => v.NumbersIn P ∧ entriesNumbersIn P m

end

/-- The value at the end of a path of keys. -/
def Value.at? : Value → List String → Option Value
  | v, [] => some v
  | v, key :: path => (v.get? key).bind (·.at? path)

theorem sizeOf_get? {m : Map} {key : String} {v : Value} (h : Map.get? m key = some v) :
    sizeOf v < sizeOf (Value.object m) := by
  have hmem := List.sizeOf_lt_of_mem (Map.mem_of_get? h)
  simp only [Prod.mk.sizeOf_spec] at hmem
  simp only [Value.object.sizeOf_spec]
  omega

/-- Induction over the objects of a value; what is not an object is reached
as it stands. -/
theorem Value.slots_induction {P : Value → Prop} (scalar : ∀ v, (∀ m, v ≠ .object m) → P v)
    (object : ∀ m, (∀ key v, Map.get? m key = some v → P v) → P (.object m)) (v : Value) :
    P v := by
  induction h : sizeOf v using Nat.strongRecOn generalizing v with
  | _ n ih =>
    by_cases hobj : ∃ m, v = .object m
    · obtain ⟨m, rfl⟩ := hobj
      exact object m fun key w hw => ih (sizeOf w) (h ▸ sizeOf_get? hw) w rfl
    · exact scalar v fun m hm => hobj ⟨m, hm⟩

theorem entriesWellFormed_iff {m : Map} :
    entriesWellFormed m ↔ ∀ e ∈ m, e.2.WellFormed := by
  induction m with
  | nil => simp [entriesWellFormed]
  | cons e m ih => simp [entriesWellFormed, ih]

/-- An object is well formed when its keys are unique and its values are. -/
theorem wellFormed_object {m : Map} : (Value.object m).WellFormed ↔
    Map.Unique m ∧ ∀ key v, Map.get? m key = some v → v.WellFormed := by
  simp only [Value.WellFormed, entriesWellFormed_iff]
  refine and_congr_right fun hu => ⟨fun h key v hv => h (key, v) (Map.mem_of_get? hv), ?_⟩
  exact fun h e he => h e.1 e.2 (Map.get?_of_mem hu he)

theorem entriesNumbersIn_iff {P : String → Prop} {m : Map} :
    entriesNumbersIn P m ↔ ∀ e ∈ m, e.2.NumbersIn P := by
  induction m with
  | nil => simp [entriesNumbersIn]
  | cons e m ih => simp [entriesNumbersIn, ih]

theorem numbersIn_object {P : String → Prop} {m : Map} (hu : Map.Unique m) :
    (Value.object m).NumbersIn P ↔ ∀ key v, Map.get? m key = some v → v.NumbersIn P := by
  simp only [Value.NumbersIn, entriesNumbersIn_iff]
  refine ⟨fun h key v hv => h (key, v) (Map.mem_of_get? hv), fun h e he => ?_⟩
  exact h e.1 e.2 (Map.get?_of_mem hu he)

end Json
