import Mathlib.Data.Finset.Card
import Mathlib.Data.List.Chain
import Mathlib.Order.Interval.Finset.Nat
import Willie.Projects.Names

/-!
# Projects — a slug is safe and fresh

A slug is a run of lower-case letters and digits with single dashes between
them. The search for a free suffix tries different slugs one after the other,
so it ends before it has tried one more than there are taken
(`slugFor_safe`).
-/

namespace Willie
namespace Projects

open Paths

/-- **A safe slug**: letters, digits and single dashes, none of them at an
end. -/
structure IsSlug (s : List Char) : Prop where
  nonempty : s ≠ []
  chars : ∀ c ∈ s, c.isLower = true ∨ c.isDigit = true ∨ c = '-'
  head : s.head? ≠ some '-'
  last : s.getLast? ≠ some '-'
  single : s.IsChain fun a b => a = '-' → b ≠ '-'

variable {s t : List Char} {base slug folder : String} {taken : List String} {fuel n k : ℕ}
variable {acc : List Char × Bool}

/-! ## The cleaning loop -/

/-- What the loop keeps: no dash comes first or behind another, and the flag
tells whether one is last. -/
structure Cleaned (acc : List Char × Bool) : Prop where
  chars : ∀ c ∈ acc.1, c.isLower = true ∨ c.isDigit = true ∨ c = '-'
  head : acc.1.head? ≠ some '-'
  single : acc.1.IsChain fun a b => a = '-' → b ≠ '-'
  flag : acc.2 = true ↔ acc.1.getLast? = some '-'

theorem toLower_alphanum {c : Char} (h : c.isAlphanum = true) :
    (c.toLower.isLower = true ∨ c.toLower.isDigit = true) ∧ c.toLower ≠ '-' := by
  have h65 : 'A'.val.toNat = 65 := rfl
  have h90 : 'Z'.val.toNat = 90 := rfl
  have hsame (hnot : ¬ (65 ≤ c.val.toNat ∧ c.val.toNat ≤ 90)) : c.toLower = c := by
    unfold Char.toLower
    rw [dif_neg]
    simpa only [ge_iff_le, UInt32.le_iff_toNat_le, h65, h90] using hnot
  have hclass : c.toLower.isLower = true ∨ c.toLower.isDigit = true := by
    unfold Char.isAlphanum Char.isAlpha at h
    simp only [Bool.or_eq_true] at h
    rcases h with (hupper | hlower) | hdigit
    · left
      unfold Char.isUpper at hupper
      simp only [decide_eq_true_eq, ge_iff_le, UInt32.le_iff_toNat_le] at hupper
      have hlow : c.toLower.val = c.val + 32 := by
        unfold Char.toLower
        rw [dif_pos (by simpa [UInt32.le_iff_toNat_le] using hupper)]
        rfl
      have h97 : 'a'.val.toNat = 97 := rfl
      have h122 : 'z'.val.toNat = 122 := rfl
      have h32 : (32 : UInt32).toNat = 32 := rfl
      unfold Char.isLower
      simp only [hlow, Bool.and_eq_true, decide_eq_true_eq, ge_iff_le, UInt32.le_iff_toNat_le,
        UInt32.toNat_add]
      omega
    · left
      have hrange := hlower
      unfold Char.isLower at hrange
      simp only [Bool.and_eq_true, decide_eq_true_eq, ge_iff_le,
        UInt32.le_iff_toNat_le] at hrange
      have h97 : 'a'.val.toNat = 97 := rfl
      rwa [hsame (by omega)]
    · right
      have hrange := hdigit
      simp only [Char.isDigit, Bool.and_eq_true, decide_eq_true_eq, ge_iff_le,
        UInt32.le_iff_toNat_le] at hrange
      have h57 : '9'.val.toNat = 57 := rfl
      rwa [hsame (by omega)]
  refine ⟨hclass, fun hdash => ?_⟩
  rw [hdash] at hclass
  exact absurd hclass (by decide)

theorem Cleaned.push {c : Char} (h : Cleaned acc) (hc : c.isLower = true ∨ c.isDigit = true)
    (hdash : c ≠ '-') : Cleaned (acc.1 ++ [c], false) where
  chars d hd := by
    rcases List.mem_append.mp hd with hd | hd
    · exact h.chars d hd
    · rw [List.mem_singleton.mp hd]
      exact hc.imp_right .inl
  head := by
    cases hacc : acc.1 with
    | nil => simpa using hdash
    | cons d ds =>
      have hhead := h.head
      rw [hacc] at hhead
      simpa using hhead
  single := h.single.append (List.isChain_singleton c) fun _ _ d hd => by
    obtain rfl := Option.some.inj hd
    exact fun _ => hdash
  flag := by simpa using hdash

theorem Cleaned.dash (h : Cleaned acc) (hne : acc.1 ≠ []) (hflag : acc.2 = false) :
    Cleaned (acc.1 ++ ['-'], true) where
  chars d hd := by
    rcases List.mem_append.mp hd with hd | hd
    · exact h.chars d hd
    · exact .inr (.inr (List.mem_singleton.mp hd))
  head := by
    rw [List.head?_append_of_ne_nil _ hne]
    exact h.head
  single := h.single.append (List.isChain_singleton '-') fun c hc _ _ hdash => by
    rw [hdash] at hc
    rw [h.flag.mpr hc] at hflag
    cases hflag
  flag := by simp

theorem Cleaned.step (h : Cleaned acc) (ch : Char) : Cleaned (kebabStep acc ch) := by
  unfold kebabStep
  simp only
  split_ifs with halnum hdash
  · exact h.push (toLower_alphanum halnum).1 (toLower_alphanum halnum).2
  · exact h.dash hdash.1 hdash.2
  · exact h

theorem Cleaned.fold (h : Cleaned acc) (cs : List Char) : Cleaned (cs.foldl kebabStep acc) := by
  induction cs generalizing acc with
  | nil => exact h
  | cons c cs ih => exact ih (h.step c)

/-- **What is left once the ends are trimmed** is a slug, if anything is. -/
theorem Cleaned.trimDashes (h : Cleaned acc) (hne : trimDashes acc.1 ≠ []) :
    IsSlug (trimDashes acc.1) := by
  have hfront : acc.1.dropWhile (· = '-') = acc.1 := by
    cases hacc : acc.1 with
    | nil => rfl
    | cons c cs =>
      have hhead := h.head
      rw [hacc] at hhead
      exact List.dropWhile_cons_of_neg (by simpa using hhead)
  have htrim : Projects.trimDashes acc.1 = (acc.1.reverse.dropWhile (· = '-')).reverse := by
    rw [Projects.trimDashes, hfront]
  obtain ⟨rest, hrest⟩ : ∃ rest, acc.1 = Projects.trimDashes acc.1 ++ rest := by
    refine ⟨(acc.1.reverse.takeWhile (· = '-')).reverse, ?_⟩
    rw [htrim, ← List.reverse_append, List.takeWhile_append_dropWhile, List.reverse_reverse]
  have hhead := h.head
  have hsingle := h.single
  rw [hrest] at hhead hsingle
  refine ⟨hne, fun c hc => h.chars c ?_, ?_, ?_, hsingle.left_of_append⟩
  · rw [hrest]
    exact List.mem_append_left _ hc
  · rwa [List.head?_append_of_ne_nil _ hne] at hhead
  · rw [htrim, List.getLast?_reverse]
    intro hdash
    have hnot := List.head?_dropWhile_not (· = '-') acc.1.reverse
    rw [hdash] at hnot
    simp at hnot

theorem isSlug_slugBase (folder : String) : IsSlug (slugBase folder).toList := by
  unfold slugBase
  simp only
  split_ifs with hempty
  · exact ⟨by decide, by simp, by decide, by decide, by decide⟩
  · have hcleaned : Cleaned (folder.toList.foldl kebabStep ([], false)) :=
      Cleaned.fold ⟨by simp, by simp, .nil, by simp⟩ _
    have hlist : (kebabAscii folder).toList =
        trimDashes (folder.toList.foldl kebabStep ([], false)).1 := by
      rw [kebabAscii, String.toList_ofList]
    rw [hlist]
    refine hcleaned.trimDashes fun hnil => hempty ?_
    rw [← hlist] at hnil
    exact String.toList_inj.mp hnil

/-! ## Suffixes -/

/-- A candidate of the search. -/
def candidate (base : String) (n : ℕ) : String := base ++ "-" ++ toString n

theorem candidate_injective (base : String) : Function.Injective (candidate base) := by
  intro m n h
  have htexts := congrArg String.toList h
  have hdigits : Nat.toDigits 10 m = Nat.toDigits 10 n := by
    simpa [candidate, Nat.toString_eq_ofList_toDigits] using htexts
  have hvalue := congrArg (Nat.ofDigitChars 10 · 0) hdigits
  simpa [Nat.ofDigitChars_toDigits] using hvalue

theorem isChain_of_no_dash (h : ∀ c ∈ s, c ≠ '-') : s.IsChain fun a b => a = '-' → b ≠ '-' := by
  induction s with
  | nil => exact .nil
  | cons c s ih =>
    refine List.isChain_cons.mpr ⟨fun d hd _ => ?_, ih fun d hd => h d (List.mem_cons_of_mem _ hd)⟩
    exact h d (List.mem_cons_of_mem _ (List.mem_of_mem_head? hd))

theorem isSlug_candidate (h : IsSlug base.toList) : IsSlug (candidate base n).toList := by
  have hdigits : ∀ c ∈ Nat.toDigits 10 n, c.isDigit = true := fun c hc =>
    Nat.isDigit_of_mem_toDigits (by decide) (by decide) hc
  have hne : Nat.toDigits 10 n ≠ [] := Nat.toDigits_ne_nil
  have hnodash : ∀ c ∈ Nat.toDigits 10 n, c ≠ '-' := by
    rintro c hc rfl
    exact absurd (hdigits _ hc) (by decide)
  have hlist : (candidate base n).toList = base.toList ++ '-' :: Nat.toDigits 10 n := by
    simp [candidate]
  have hchain : (Nat.toDigits 10 n).IsChain fun a b => a = '-' → b ≠ '-' :=
    isChain_of_no_dash hnodash
  rw [hlist]
  refine ⟨by simp, fun c hc => ?_, ?_, ?_, ?_⟩
  · rcases List.mem_append.mp hc with hc | hc
    · exact h.chars c hc
    · rcases List.mem_cons.mp hc with rfl | hc
      · exact .inr (.inr rfl)
      · exact .inr (.inl (hdigits c hc))
  · rw [List.head?_append_of_ne_nil _ h.nonempty]
    exact h.head
  · rw [List.getLast?_append_of_ne_nil _ (List.cons_ne_nil _ _), List.getLast?_cons_of_ne_nil hne]
    exact fun hdash => hnodash _ (List.mem_of_getLast? hdash) rfl
  · refine h.single.append (List.isChain_cons.mpr ⟨fun c hc _ => ?_, hchain⟩)
      fun c hc d hd hdash => ?_
    · exact hnodash c (List.mem_of_mem_head? hc)
    · rw [hdash] at hc
      exact absurd hc h.last

/-- **Fewer are taken than are tried**, so one is free. -/
theorem exists_free (base : String) (k : ℕ) (h : taken.length < n) :
    ∃ i < n, candidate base (k + i) ∉ taken := by
  by_contra hall
  push Not at hall
  have hsub : (Finset.range n).image (fun i => candidate base (k + i)) ⊆ taken.toFinset := by
    intro slug hslug
    obtain ⟨i, hi, rfl⟩ := Finset.mem_image.mp hslug
    exact List.mem_toFinset.mpr (hall i (Finset.mem_range.mp hi))
  have hinj : Function.Injective fun i => candidate base (k + i) := fun i j hij =>
    Nat.add_left_cancel (candidate_injective base hij)
  have hcard := Finset.card_le_card hsub
  rw [Finset.card_image_of_injective _ hinj, Finset.card_range] at hcard
  have hlength := taken.toFinset_card_le
  omega

/-- The search ends at the first free suffix, if it gets there before the
numbers run out. -/
theorem slugLoop_eq (hfree : candidate base (n + k) ∉ taken)
    (htaken : ∀ i < k, candidate base (n + i) ∈ taken) (hlast : n + k < 2 ^ 32) (hfuel : k < fuel) :
    slugLoop base taken fuel n = some (candidate base (n + k)) := by
  induction k generalizing n fuel with
  | zero =>
    obtain ⟨fuel, rfl⟩ : ∃ m, fuel = m + 1 := ⟨fuel - 1, by omega⟩
    rw [slugLoop]
    exact if_neg hfree
  | succ k ih =>
    obtain ⟨fuel, rfl⟩ : ∃ m, fuel = m + 1 := ⟨fuel - 1, by omega⟩
    have hfirst : candidate base n ∈ taken := htaken 0 (by omega)
    have hnext : n + 1 + k = n + (k + 1) := by omega
    rw [slugLoop]
    refine (if_pos hfirst).trans ?_
    rw [Nat.mod_eq_of_lt (by omega), ih (by rwa [hnext]) (fun i hi => ?_) (by omega) (by omega),
      hnext]
    rw [Nat.add_assoc, Nat.add_comm 1 i]
    exact htaken (i + 1) (by omega)

theorem IsSlug.plain (h : IsSlug s) : Plain s := by
  have hmem : ∀ c ∈ s, c ≠ '/' ∧ c ≠ '.' := by
    intro c hc
    constructor
    · rintro rfl
      exact absurd (h.chars _ hc) (by decide)
    · rintro rfl
      exact absurd (h.chars _ hc) (by decide)
  refine ⟨fun hslash => (hmem _ hslash).1 rfl, h.nonempty, ?_, ?_⟩
  · rintro rfl
    exact (hmem '.' (by simp)).2 rfl
  · rintro rfl
    exact (hmem '.' (by simp)).2 rfl

/-- A directory of a slug's name lies right below its root. -/
theorem IsSlug.place_join (h : IsSlug slug.toList) (root : Path) :
    place (join root slug) = (place root).down [slug.toList] := by
  rw [Paths.place_join h.plain.relative, Place.walk_plain _ h.plain]

/-- **A slug is a safe, fresh directory name**: the search ends before its
number overflows, with a slug that is not taken, and a directory of that name
lies right below the root. -/
theorem slugFor_safe (folder : String) (taken : List String) (h : taken.length < 2 ^ 32 - 2) :
    ∃ slug, slugFor folder taken = some slug ∧ slug ∉ taken ∧ IsSlug slug.toList ∧
      (slug = slugBase folder ∨ ∃ n, 2 ≤ n ∧ n < 2 ^ 32 ∧ slug = candidate (slugBase folder) n ∧
        ∀ m, 2 ≤ m → m < n → candidate (slugBase folder) m ∈ taken) ∧
      ∀ root, place (join root slug) = (place root).down [slug.toList] := by
  have hbase : IsSlug (slugBase folder).toList := isSlug_slugBase folder
  by_cases htaken : slugBase folder ∈ taken
  · obtain ⟨i, hi, hfree⟩ := exists_free (slugBase folder) 2 h
    -- the first suffix that is free
    classical
    have hex : ∃ i, candidate (slugBase folder) (2 + i) ∉ taken := ⟨i, hfree⟩
    have hle : Nat.find hex ≤ i := Nat.find_min' hex hfree
    have hbefore : ∀ j < Nat.find hex, candidate (slugBase folder) (2 + j) ∈ taken :=
      fun j hj => not_not.mp (Nat.find_min hex hj)
    have hslug := isSlug_candidate (n := 2 + Nat.find hex) hbase
    refine ⟨candidate (slugBase folder) (2 + Nat.find hex), ?_, Nat.find_spec hex, hslug,
      .inr ⟨_, by omega, by omega, rfl, fun m hm hlt => ?_⟩, hslug.place_join⟩
    · unfold slugFor
      rw [if_pos htaken]
      exact slugLoop_eq (Nat.find_spec hex) hbefore (by omega) (by omega)
    · have hj := hbefore (m - 2) (by omega)
      rwa [Nat.add_sub_cancel' hm] at hj
  · refine ⟨slugBase folder, ?_, htaken, hbase, .inl rfl, hbase.place_join⟩
    unfold slugFor
    exact if_neg htaken

/-- A name with an accent, whose slug is taken. -/
theorem slugFor_safe_taken : slugFor "café_app" ["cafe-app"] = some "cafe-app-2" ∧
    IsSlug "cafe-app-2".toList ∧
    place (join "/home/willie/projects" "cafe-app-2") =
      (place "/home/willie/projects").down ["cafe-app-2".toList] := by
  have hslug : slugFor "café_app" ["cafe-app"] = some "cafe-app-2" := by decide
  obtain ⟨slug, heq, -, hsafe, -, hplace⟩ := slugFor_safe "café_app" ["cafe-app"] (by decide)
  obtain rfl := Option.some.inj (hslug.symm.trans heq)
  exact ⟨hslug, hsafe, hplace _⟩

end Projects
end Willie
