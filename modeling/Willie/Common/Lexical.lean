import Willie.Common.Paths

/-!
# Paths by their names

A path read without climbing: the names between its slashes, those that go
nowhere left out and `..` a name like any other. Two paths are compared by
their names; `spelled` writes names in the one normal form, from the root,
and comparing normal forms as text is comparing names
(`spelled_prefix`).
-/

namespace Paths

variable {p q : Path} {ns ms : List Segment}

/-! ## Names -/

/-- The names of a path, `..` among them. -/
def names (p : Path) : List Segment := (segments p).filter fun s => !idle s

/-- `p` is `q` or lies above it. -/
def Covers (p q : Path) : Prop := names p <+: names q

instance : Decidable (Covers p q) := inferInstanceAs (Decidable (names p <+: names q))

/-- Names as they stand in a path. -/
def Clean (ns : List Segment) : Prop := ∀ s ∈ ns, '/' ∉ s ∧ s ≠ [] ∧ s ≠ ['.']

instance : Decidable (Clean ns) := inferInstanceAs (Decidable (∀ s ∈ ns, _))

theorem Covers.refl (p : Path) : Covers p p := List.prefix_rfl

theorem notMem_of_mem_splitOn {c : Char} {cs s : List Char} (h : s ∈ cs.splitOn c) : c ∉ s := by
  induction cs generalizing s with
  | nil =>
    obtain rfl := by simpa using h
    simp
  | cons d cs ih =>
    rw [List.splitOn_cons_eq_if_modifyHead] at h
    split at h
    · rcases List.mem_cons.mp h with rfl | h
      · simp
      · exact ih h
    · rename_i hd
      cases hcs : cs.splitOn c with
      | nil => exact absurd hcs (List.splitOn_ne_nil c cs)
      | cons t ts =>
        rw [hcs, List.modifyHead_cons] at h
        rcases List.mem_cons.mp h with rfl | h
        · have ht := ih (hcs ▸ List.mem_cons_self ..)
          exact List.not_mem_cons_of_ne_of_not_mem (fun he => hd (by simp [he])) ht
        · exact ih (hcs ▸ List.mem_cons_of_mem _ h)

theorem names_clean (p : Path) : Clean (names p) := by
  intro s hs
  obtain ⟨hmem, hidle⟩ := List.mem_filter.mp hs
  refine ⟨notMem_of_mem_splitOn hmem, ?_⟩
  simpa [idle] using hidle

theorem Clean.filter (h : Clean ns) : ns.filter (fun s => !idle s) = ns := by
  refine List.filter_eq_self.mpr fun s hs => ?_
  obtain ⟨-, hne, hdot⟩ := h s hs
  simp [idle, hne, hdot]

theorem Clean.append (h : Clean ns) (h' : Clean ms) : Clean (ns ++ ms) :=
  List.forall_mem_append.mpr ⟨h, h'⟩

/-- The names of a path and of what follows a slash. -/
theorem names_append_slash (p q : Path) : names (p ++ "/" ++ q) = names p ++ names q := by
  simp [names, segments, List.splitOn_append_cons_self]

/-! ## The normal form -/

/-- Names written from the root. -/
def spelled (ns : List Segment) : Path :=
  if ns = [] then "/" else String.ofList (ns.flatMap ('/' :: ·))

theorem segments_flatMap (hn : ∀ s ∈ ns, '/' ∉ s) (s : Segment) (hs : '/' ∉ s) :
    (s ++ ns.flatMap ('/' :: ·)).splitOn '/' = s :: ns := by
  induction ns generalizing s with
  | nil => simpa using List.splitOn_eq_singleton hs
  | cons n ns ih =>
    obtain ⟨hslash, hrest⟩ := List.forall_mem_cons.mp hn
    rw [List.flatMap_cons, List.cons_append, List.splitOn_append_cons_self, ih hrest n hslash,
      List.splitOn_eq_singleton hs, List.singleton_append]

theorem names_spelled (h : Clean ns) : names (spelled ns) = ns := by
  by_cases hns : ns = []
  · subst hns
    decide
  · have hseg : segments (spelled ns) = [] :: ns := by
      have := segments_flatMap (fun s hs => (h s hs).1) [] (by simp)
      simpa [segments, spelled, hns] using this
    rw [names, hseg, List.filter_cons_of_neg (by simp [idle]), h.filter]

theorem spelled_inj (hn : Clean ns) (hm : Clean ms) (h : spelled ns = spelled ms) : ns = ms := by
  rw [← names_spelled hn, h, names_spelled hm]

/-- What more names add to a normal form. -/
theorem spelled_append (hns : ns ≠ []) (ms : List Segment) :
    spelled (ns ++ ms) = spelled ns ++ String.ofList (ms.flatMap ('/' :: ·)) := by
  simp [spelled, hns, String.ofList_append]

theorem spelled_snoc (hns : ns ≠ []) (s : Segment) :
    spelled (ns ++ [s]) = spelled ns ++ "/" ++ String.ofList s := by
  rw [spelled_append hns, String.append_assoc]
  congr 1
  apply String.toList_injective
  simp

/-- **Normal forms compare as text as their names do**: one is the other, or
goes on with a slash after it. -/
theorem spelled_prefix (hn : Clean ns) (hm : Clean ms) (hns : ns ≠ []) :
    (spelled ms = spelled ns ∨ ∃ rest, spelled ms = spelled ns ++ rest ∧ isAbsolute rest = true) ↔
      ns <+: ms := by
  constructor
  · rintro (h | ⟨rest, h, habs⟩)
    · rw [spelled_inj hm hn h]
    · obtain ⟨cs, hcs⟩ : ∃ cs, rest = "/" ++ String.ofList cs := by
        cases hr : rest.toList with
        | nil => simp [isAbsolute, hr] at habs
        | cons c cs =>
          obtain rfl : c = '/' := by simpa [isAbsolute, hr] using habs
          exact ⟨cs, String.toList_injective (by simp [hr])⟩
      refine ⟨names (String.ofList cs), ?_⟩
      rw [← names_spelled hm, h, hcs, ← String.append_assoc, names_append_slash, names_spelled hn]
  · rintro ⟨rest, rfl⟩
    rw [spelled_append hns]
    cases rest with
    | nil => simp
    | cons s rest => exact .inr ⟨_, rfl, by simp [isAbsolute]⟩

end Paths
