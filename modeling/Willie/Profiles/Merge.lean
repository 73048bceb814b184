import Mathlib.Data.List.Nodup
import Willie.Profiles.Apply

/-!
# Profiles — merging one JSON value onto another

A merge is decided key by key: what stands under a key afterwards depends on
what either side has there (`mergeSlot`), at the top and along every path.
The keys of the target keep their places and the fragment's new ones follow.
From this: merging a fragment again changes nothing, and neither does merging
two fragments in turn again, whatever they make of each other.
-/

namespace Willie
namespace Profiles

open Json

/-- What a merge leaves under a key. -/
def mergeSlot : Option Value → Option Value → Option Value
  | t, none => t
  | none, some f => some f
  | some t, some f => some (deepMerge t f)

/-- An object's entries; nothing else has any. -/
def entries : Value → Map
  | .object m => m
  | _ => []

/-- Does a fragment have a say at a path? What is not an object speaks for
all that is below it. -/
def mentions : Value → List String → Bool
  | _, [] => true
  | .object m, key :: path =>
    match Map.get? m key with
    | some v => mentions v path
    | none => false
  | _, _ :: _ => true

variable {t f s m v x : Value} {tm fm sm mm m' : Map} {k : String} {o : Option Value}
  {path : List String}

@[simp] theorem entries_object : entries (.object m') = m' := rfl

theorem get?_eq : v.get? k = Map.get? (entries v) k := by
  cases v <;> rfl

theorem deepMerge_scalar (h : ∀ m, f ≠ .object m) : deepMerge t f = f := by
  cases f with
  | object m => exact absurd rfl (h m)
  | _ => simp [deepMerge]

/-! ## Key by key -/

theorem mergeEntries_cons {value : Value} {rest : Map} :
    mergeEntries tm ((k, value) :: rest) =
      mergeEntries
        (Map.insert tm k ((mergeSlot (Map.get? tm k) (some value)).getD value)) rest := by
  rw [mergeEntries]
  cases Map.get? tm k <;> rfl

/-- **What stands under a key after a merge.** -/
theorem get?_mergeEntries (hu : Map.Unique fm) :
    Map.get? (mergeEntries tm fm) k = mergeSlot (Map.get? tm k) (Map.get? fm k) := by
  induction fm generalizing tm with
  | nil => simp [mergeEntries, mergeSlot]
  | cons e fm ih =>
    obtain ⟨key, value⟩ := e
    obtain ⟨hkey, hrest⟩ := List.nodup_cons.mp hu
    rw [mergeEntries_cons, ih hrest, Map.get?_insert, Map.get?_cons]
    by_cases hk : k = key
    · subst hk
      rw [Map.get?_eq_none.mpr hkey, if_pos rfl, if_pos rfl]
      cases Map.get? tm k <;> rfl
    · rw [if_neg hk, if_neg (Ne.symm hk)]

/-- **The order of the keys**: the target's, then the fragment's new ones. -/
theorem keys_mergeEntries (hu : Map.Unique fm) : (mergeEntries tm fm).map Prod.fst =
    tm.map Prod.fst ++ (fm.map Prod.fst).filter (· ∉ tm.map Prod.fst) := by
  induction fm generalizing tm with
  | nil => simp [mergeEntries]
  | cons e fm ih =>
    obtain ⟨key, value⟩ := e
    obtain ⟨hkey, hrest⟩ := List.nodup_cons.mp hu
    rw [mergeEntries_cons, ih hrest, Map.keys_insert, List.map_cons]
    by_cases hmem : key ∈ tm.map Prod.fst
    · rw [if_pos hmem, List.filter_cons_of_neg (by simpa using hmem)]
    · rw [if_neg hmem, List.filter_cons_of_pos (by simpa using hmem), List.append_assoc]
      have hsame : (fm.map Prod.fst).filter (· ∉ tm.map Prod.fst ++ [key]) =
          (fm.map Prod.fst).filter (· ∉ tm.map Prod.fst) := by
        refine List.filter_congr fun other hother => ?_
        have hne : other ≠ key := by
          rintro rfl
          exact hkey hother
        simp [hne]
      rw [hsame]
      rfl

theorem keys_mergeEntries_of_subset (hu : Map.Unique fm)
    (h : fm.map Prod.fst ⊆ tm.map Prod.fst) :
    (mergeEntries tm fm).map Prod.fst = tm.map Prod.fst := by
  rw [keys_mergeEntries hu, List.filter_eq_nil_iff.mpr fun key hkey => by simpa using h hkey,
    List.append_nil]

theorem mem_keys_mergeEntries (hu : Map.Unique fm) : k ∈ (mergeEntries tm fm).map Prod.fst ↔
    k ∈ tm.map Prod.fst ∨ k ∈ fm.map Prod.fst := by
  rw [keys_mergeEntries hu, List.mem_append, List.mem_filter]
  by_cases h : k ∈ tm.map Prod.fst <;> simp [h]

theorem unique_mergeEntries (ht : Map.Unique tm) (hu : Map.Unique fm) :
    Map.Unique (mergeEntries tm fm) := by
  rw [Map.Unique, keys_mergeEntries hu]
  refine List.Nodup.append ht (hu.filter _) fun key hkey hnew => ?_
  simpa [hkey] using (List.mem_filter.mp hnew).2

theorem mergeEntries_nil (hu : Map.Unique fm) : mergeEntries [] fm = fm := by
  refine Map.ext (unique_mergeEntries List.nodup_nil hu) ?_ fun key => ?_
  · simp [keys_mergeEntries hu]
  · rw [get?_mergeEntries hu, Map.get?_nil]
    cases Map.get? fm key <;> rfl

/-- An object is merged onto the entries of whatever is there. -/
theorem deepMerge_object (hu : Map.Unique fm) :
    deepMerge t (.object fm) = .object (mergeEntries (entries t) fm) := by
  cases t with
  | object tm => simp [deepMerge, entries]
  | _ => simp [deepMerge, entries, mergeEntries_nil hu]

theorem unique_entries (h : v.WellFormed) : Map.Unique (entries v) := by
  cases v with
  | object m => exact (wellFormed_object.mp h).1
  | _ => exact List.nodup_nil

theorem wellFormed_get? (h : v.WellFormed) {w : Value} (hw : Map.get? (entries v) k = some w) :
    w.WellFormed := by
  cases v with
  | object m => exact (wellFormed_object.mp h).2 k w hw
  | _ => cases hw

theorem numbersIn_get? {P : String → Prop} (h : v.WellFormed) (hn : v.NumbersIn P) {w : Value}
    (hw : Map.get? (entries v) k = some w) : w.NumbersIn P := by
  cases v with
  | object m => exact (numbersIn_object (unique_entries h)).mp hn k w hw
  | _ => cases hw

theorem wellFormed_at? (h : f.WellFormed) (hv : f.at? path = some v) : v.WellFormed := by
  induction path generalizing f with
  | nil => exact Option.some.inj hv ▸ h
  | cons key path ih =>
    obtain ⟨w, hw, hrest⟩ := Option.bind_eq_some_iff.mp hv
    exact ih (wellFormed_get? h (get?_eq ▸ hw)) hrest

/-- A merge of well-formed values is well formed. -/
theorem wellFormed_deepMerge (ht : t.WellFormed) (hf : f.WellFormed) :
    (deepMerge t f).WellFormed := by
  induction f using Value.slots_induction generalizing t with
  | scalar f hscalar => rwa [deepMerge_scalar hscalar]
  | object fm ih =>
    obtain ⟨hu, hvalues⟩ := wellFormed_object.mp hf
    rw [deepMerge_object hu, wellFormed_object]
    refine ⟨unique_mergeEntries (unique_entries ht) hu, fun key w hw => ?_⟩
    rw [get?_mergeEntries hu] at hw
    rcases hslot : Map.get? (entries t) key with - | tv <;>
      rcases hfrag : Map.get? fm key with - | fv <;> rw [hslot, hfrag] at hw
    · cases hw
    · obtain rfl := Option.some.inj hw
      exact hvalues key _ hfrag
    · obtain rfl := Option.some.inj hw
      exact wellFormed_get? ht hslot
    · obtain rfl := Option.some.inj hw
      exact ih key fv hfrag (wellFormed_get? ht hslot) (hvalues key fv hfrag)

/-- A merge has no numbers but those of its two sides. -/
theorem numbersIn_deepMerge {P : String → Prop} (ht : t.WellFormed) (hf : f.WellFormed)
    (hnt : t.NumbersIn P) (hnf : f.NumbersIn P) : (deepMerge t f).NumbersIn P := by
  induction f using Value.slots_induction generalizing t with
  | scalar f hscalar => rwa [deepMerge_scalar hscalar]
  | object fm ih =>
    obtain ⟨hu, hvalues⟩ := wellFormed_object.mp hf
    have hfrags := (numbersIn_object hu).mp hnf
    rw [deepMerge_object hu, numbersIn_object (unique_mergeEntries (unique_entries ht) hu)]
    intro key w hw
    rw [get?_mergeEntries hu] at hw
    rcases hslot : Map.get? (entries t) key with - | tv <;>
      rcases hfrag : Map.get? fm key with - | fv <;> rw [hslot, hfrag] at hw
    · cases hw
    · obtain rfl := Option.some.inj hw
      exact hfrags key _ hfrag
    · obtain rfl := Option.some.inj hw
      exact numbersIn_get? ht hnt hslot
    · obtain rfl := Option.some.inj hw
      exact ih key fv hfrag (wellFormed_get? ht hslot) (hvalues key fv hfrag)
        (numbersIn_get? ht hnt hslot) (hfrags key fv hfrag)

/-! ## Along a path -/

/-- **What stands at a path the fragment reaches.** -/
theorem at?_deepMerge (hf : f.WellFormed) (h : f.at? path = some v) :
    (deepMerge t f).at? path = mergeSlot (t.at? path) (some v) := by
  induction path generalizing t f with
  | nil =>
    obtain rfl := Option.some.inj h
    rfl
  | cons key path ih =>
    obtain ⟨fv, hfv, hrest⟩ := Option.bind_eq_some_iff.mp h
    cases f with
    | object fm =>
      obtain ⟨hu, hvalues⟩ := wellFormed_object.mp hf
      have hfv : Map.get? fm key = some fv := hfv
      have hwf := hvalues key fv hfv
      rw [deepMerge_object hu, Value.at?, Value.at?, get?_eq, get?_eq, entries_object,
        get?_mergeEntries hu, hfv]
      cases Map.get? (entries t) key with
      | none => exact hrest
      | some tv => exact ih hwf hrest
    | _ => cases hfv

theorem at?_of_not_mentions (h : mentions f path = false) : f.at? path = none := by
  induction path generalizing f with
  | nil => simp [mentions] at h
  | cons key path ih =>
    cases f with
    | object fm =>
      rw [Value.at?, get?_eq, entries_object]
      rcases hfv : Map.get? fm key with - | fv
      · rfl
      · exact ih (by simpa [mentions, hfv] using h)
    | _ => simp [mentions] at h

/-- **A path the fragment does not mention keeps what it had.** -/
theorem at?_unmentioned (hf : f.WellFormed) (h : mentions f path = false) :
    (deepMerge t f).at? path = t.at? path := by
  induction path generalizing t f with
  | nil => simp [mentions] at h
  | cons key path ih =>
    cases f with
    | object fm =>
      obtain ⟨hu, hvalues⟩ := wellFormed_object.mp hf
      rw [deepMerge_object hu, Value.at?, Value.at?, get?_eq, get?_eq, entries_object,
        get?_mergeEntries hu]
      rcases hfv : Map.get? fm key with - | fv
      · rfl
      · have hbelow : mentions fv path = false := by simpa [mentions, hfv] using h
        cases Map.get? (entries t) key with
        | none => exact at?_of_not_mentions hbelow
        | some tv => exact ih (hvalues key fv hfv) hbelow
    | _ => simp [mentions] at h

/-! ## Merging again -/

/-- A value merged onto itself is itself. -/
theorem deepMerge_self (hf : f.WellFormed) : deepMerge f f = f := by
  induction f using Value.slots_induction with
  | scalar f hscalar => exact deepMerge_scalar hscalar
  | object fm ih =>
    obtain ⟨hu, hvalues⟩ := wellFormed_object.mp hf
    rw [deepMerge_object hu, entries_object]
    congr 1
    refine Map.ext (unique_mergeEntries hu hu)
      (keys_mergeEntries_of_subset hu (List.Subset.refl _)) fun key => ?_
    rw [get?_mergeEntries hu]
    rcases hfv : Map.get? fm key with - | fv
    · rfl
    · exact congrArg some (ih key fv hfv (hvalues key fv hfv))

/-- **Merging a fragment twice is merging it once.** -/
theorem deepMerge_twice (hx : x.WellFormed) (hf : f.WellFormed) :
    deepMerge (deepMerge x f) f = deepMerge x f := by
  induction f using Value.slots_induction generalizing x with
  | scalar f hscalar => rw [deepMerge_scalar hscalar, deepMerge_scalar hscalar]
  | object fm ih =>
    obtain ⟨hu, hvalues⟩ := wellFormed_object.mp hf
    have hmerged := unique_mergeEntries (unique_entries hx) hu
    rw [deepMerge_object hu, deepMerge_object hu, entries_object]
    congr 1
    refine Map.ext (unique_mergeEntries hmerged hu)
      (keys_mergeEntries_of_subset hu fun key hkey => ?_) fun key => ?_
    · exact (mem_keys_mergeEntries hu).mpr (.inr hkey)
    · simp only [get?_mergeEntries hu]
      rcases hfv : Map.get? fm key with - | fv
      · rfl
      · rcases hxv : Map.get? (entries x) key with - | xv
        · exact congrArg some (deepMerge_self (hvalues key fv hfv))
        · exact congrArg some (ih key fv hfv (wellFormed_get? hx hxv) (hvalues key fv hfv))

/-- **Two fragments in turn settle.** Merged in turn again, they change
nothing, whatever either puts in the other's place. -/
theorem deepMerge_settles (hx : x.WellFormed) (hs : s.WellFormed) (hm : m.WellFormed) :
    deepMerge (deepMerge (deepMerge (deepMerge x s) m) s) m = deepMerge (deepMerge x s) m := by
  induction s using Value.slots_induction generalizing x m with
  | scalar s hscalar => rw [deepMerge_scalar hscalar, deepMerge_scalar hscalar]
  | object sm ih =>
    by_cases hobj : ∀ mm, m ≠ .object mm
    · rw [deepMerge_scalar hobj, deepMerge_scalar hobj]
    · obtain ⟨mm, rfl⟩ : ∃ mm, m = .object mm := by simpa using hobj
      obtain ⟨hsu, hsv⟩ := wellFormed_object.mp hs
      obtain ⟨hmu, hmv⟩ := wellFormed_object.mp hm
      simp only [deepMerge_object hsu, deepMerge_object hmu, entries_object]
      congr 1
      have hone := unique_mergeEntries (unique_entries hx) hsu
      have htwo := unique_mergeEntries hone hmu
      have hthree := unique_mergeEntries htwo hsu
      -- all keys are there after the first round
      have hkeys : (mergeEntries (mergeEntries (mergeEntries (mergeEntries (entries x) sm) mm) sm)
          mm).map Prod.fst = (mergeEntries (mergeEntries (entries x) sm) mm).map Prod.fst := by
        rw [keys_mergeEntries_of_subset hmu, keys_mergeEntries_of_subset hsu]
        · intro key hkey
          simp [mem_keys_mergeEntries, hsu, hmu, hkey]
        · intro key hkey
          simp [mem_keys_mergeEntries, hsu, hmu, hkey]
      refine Map.ext (unique_mergeEntries hthree hmu) hkeys fun key => ?_
      simp only [get?_mergeEntries hsu, get?_mergeEntries hmu]
      rcases hxv : Map.get? (entries x) key with - | xv <;>
        rcases hsk : Map.get? sm key with - | sv <;> rcases hmk : Map.get? mm key with - | mv <;>
        simp only [mergeSlot]
      · rw [deepMerge_self (hmv key mv hmk)]
      · rw [deepMerge_self (hsv key sv hsk)]
      · have := ih key sv hsk (hsv key sv hsk) (hsv key sv hsk) (hmv key mv hmk)
        rw [deepMerge_self (hsv key sv hsk)] at this
        rw [this]
      · rw [deepMerge_twice (wellFormed_get? hx hxv) (hmv key mv hmk)]
      · rw [deepMerge_twice (wellFormed_get? hx hxv) (hsv key sv hsk)]
      · rw [ih key sv hsk (wellFormed_get? hx hxv) (hsv key sv hsk) (hmv key mv hmk)]

end Profiles
end Willie
