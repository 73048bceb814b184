import Mathlib.Algebra.Group.Nat.Defs
import Willie.Common.Paths
import Willie.Projects.Model

/-!
# Projects — names and keys

What a project is called and known by: the slug its directory gets, fresh
among those taken, and the key that tells one Windows checkout from
another.
-/

namespace Willie
namespace Projects

open Paths

/-! ## Slugs -/

/-- Best-effort fold of common Latin accents. -/
def foldAscii (ch : Char) : Char :=
  if ch ∈ "áàâãäÁÀÂÃÄ".toList then 'a'
  else if ch ∈ "éèêëÉÈÊË".toList then 'e'
  else if ch ∈ "íìîïÍÌÎÏ".toList then 'i'
  else if ch ∈ "óòôõöÓÒÔÕÖ".toList then 'o'
  else if ch ∈ "úùûüÚÙÛÜ".toList then 'u'
  else if ch ∈ "çÇ".toList then 'c'
  else if ch ∈ "ñÑ".toList then 'n'
  else ch

/-- One character of a folder name: kept in lower case, or a dash for a run
of others. -/
def kebabStep (acc : List Char × Bool) (ch : Char) : List Char × Bool :=
  let mapped := foldAscii ch
  if mapped.isAlphanum then (acc.1 ++ [mapped.toLower], false)
  else if acc.1 ≠ [] ∧ acc.2 = false then (acc.1 ++ ['-'], true)
  else acc

/-- A text without the dashes at its ends. -/
def trimDashes (s : List Char) : List Char :=
  ((s.dropWhile (· = '-')).reverse.dropWhile (· = '-')).reverse

def kebabAscii (s : String) : String :=
  String.ofList (trimDashes (s.toList.foldl kebabStep ([], false)).1)

/-- The search for a free suffix, over the values of a `u32`. Once round
them all it would never end. -/
def slugLoop (base : String) (taken : List String) : Nat → Nat → Option String
  | 0, _ => none
  | fuel + 1, n =>
    let candidate := base ++ "-" ++ toString n
    if candidate ∈ taken then slugLoop base taken fuel ((n + 1) % 2 ^ 32) else some candidate

/-- What a slug starts from; a name that folds to nothing has one too. -/
def slugBase (folderName : String) : String :=
  let base := kebabAscii folderName
  if base = "" then "project" else base

/-- The slug of a folder name, by a numeric suffix where it is taken. -/
def slugFor (folderName : String) (taken : List String) : Option String :=
  let base := slugBase folderName
  if base ∈ taken then slugLoop base taken (2 ^ 32) 2 else some base

/-! ## Sources -/

/-- Both separators of a Windows path. -/
def isSeparator (c : Char) : Bool := c = '\\' ∨ c = '/'

/-- The last component of a Windows path. -/
def folderName (windowsPath : String) : String :=
  let trimmed := (windowsPath.toList.reverse.dropWhile isSeparator).reverse
  String.ofList (trimmed.reverse.takeWhile fun c => !isSeparator c).reverse

/-- The identity of a Windows checkout. Lower-casing is the text library's. -/
def sourceKey (toLowercase : String → String) (windowsPath : String) : String :=
  let slashes := windowsPath.toList.map fun c => if c = '\\' then '/' else c
  toLowercase (String.ofList (slashes.reverse.dropWhile (· = '/')).reverse)

/-- The mount a drive letter is exposed at. -/
def windowsToDrvfs (path : String) : Option String :=
  match path.toList with
  | drive :: ':' :: sep :: rest =>
    if drive.isAlpha ∧ isSeparator sep then
      some ("/mnt/" ++ String.ofList [drive.toLower] ++
        String.ofList ((sep :: rest).map fun c => if c = '\\' then '/' else c))
    else none
  | _ => none

/-- The Linux path git uses for a registered source. -/
def sourceToLinux (source : String) : Option String :=
  match source.toList with
  | c :: ':' :: _ => if c.toNat < 128 then windowsToDrvfs source else none
  | '/' :: _ => some source
  | _ => none

/-! ## A slug is fresh and relative -/

theorem slugLoop_spec {base : String} {taken : List String} {fuel n : Nat} {slug : String}
    (h : slugLoop base taken fuel n = some slug) :
    slug ∉ taken ∧ ∃ rest, slug = base ++ rest := by
  induction fuel generalizing n with
  | zero => simp [slugLoop] at h
  | succ fuel ih =>
    simp only [slugLoop] at h
    split at h
    · exact ih h
    · rename_i hfree
      obtain rfl := Option.some.inj h
      exact ⟨hfree, "-" ++ toString n, by rw [String.append_assoc]⟩

theorem toLower_ne_slash {c : Char} (h : c.isAlphanum = true) : c.toLower ≠ '/' := by
  intro hc
  unfold Char.toLower at hc
  split at hc
  · rename_i hu
    have hv := congrArg Char.val hc
    simp only [UInt32.le_iff_toNat_le] at hu
    have : (c.val + 32).toNat = 47 := by
      simpa using congrArg UInt32.toNat hv
    grind
  · subst hc
    simp at h

/-- No slash gets into a slug. -/
theorem kebab_no_slash (s : String) : '/' ∉ (kebabAscii s).toList := by
  have fold : ∀ (cs : List Char) (acc : List Char × Bool), '/' ∉ acc.1 →
      '/' ∉ (cs.foldl kebabStep acc).1 := by
    intro cs
    induction cs with
    | nil => exact fun _ h => h
    | cons c cs ih =>
      refine fun acc h => ih _ ?_
      unfold kebabStep
      simp only
      split
      · rename_i halnum
        simp [h, (toLower_ne_slash halnum).symm]
      · split <;> simp [h]
  intro hmem
  simp only [kebabAscii, String.toList_ofList, trimDashes, List.mem_reverse] at hmem
  have h := (List.dropWhile_sublist _).mem hmem
  exact fold s.toList ([], false) (by simp)
    ((List.dropWhile_sublist _).mem (List.mem_reverse.mp h))

theorem isAbsolute_append {a b : String} (ha : a ≠ "") : isAbsolute (a ++ b) = isAbsolute a := by
  have hne : a.toList ≠ [] := fun h => ha (String.toList_inj.mp h)
  simp [isAbsolute, List.head?_append_of_ne_nil _ hne]

theorem isAbsolute_of_no_slash {s : String} (h : '/' ∉ s.toList) : isAbsolute s = false := by
  unfold isAbsolute
  cases hs : s.toList with
  | nil => rfl
  | cons c cs =>
    simp only [hs, List.mem_cons, not_or] at h
    simpa using Ne.symm h.1

theorem slugBase_ne_empty (folder : String) : slugBase folder ≠ "" := by
  unfold slugBase
  simp only
  split
  · simp
  · assumption

theorem slugBase_relative (folder : String) : isAbsolute (slugBase folder) = false := by
  unfold slugBase
  simp only
  split
  · decide
  · exact isAbsolute_of_no_slash (kebab_no_slash folder)

/-- **A slug is fresh, and a relative path.** -/
theorem slugFor_spec {folder slug : String} {taken : List String}
    (h : slugFor folder taken = some slug) : slug ∉ taken ∧ isAbsolute slug = false := by
  simp only [slugFor] at h
  split at h
  · obtain ⟨hfree, rest, rfl⟩ := slugLoop_spec h
    exact ⟨hfree, by rw [isAbsolute_append (slugBase_ne_empty folder), slugBase_relative]⟩
  · rename_i hfree
    obtain rfl := Option.some.inj h
    exact ⟨hfree, slugBase_relative folder⟩

end Projects
end Willie
