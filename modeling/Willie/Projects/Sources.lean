import Mathlib.Data.List.TakeWhile
import Willie.Common.Joined
import Willie.Common.Lexical
import Willie.Projects.Distinct

/-!
# Projects — when two spellings have one key

Two sources are spellings of one folder if they have the same names between
their separators, whatever their case. The key drops the separators at the
end and no others, and keeps every `.`: it is one for both spellings exactly
if they have these at the same places (`sourceKey_eq_iff`).
-/

namespace Willie
namespace Projects

open Paths
open Joined (joined)

/-- **What lower-casing does** to a path's parts: a slash parts the letters it
looks at, and no letter becomes a slash, a dot or nothing. -/
structure LowerCases (lower : String → String) : Prop where
  slash : ∀ a b, lower (a ++ "/" ++ b) = lower a ++ "/" ++ lower b
  no_slash : ∀ a, '/' ∉ a.toList → '/' ∉ (lower a).toList
  empty : ∀ a, lower a = "" ↔ a = ""
  dot : ∀ a, lower a = "." ↔ a = "."

/-- A source with one kind of separator. -/
def slashed (source : String) : String :=
  String.ofList (source.toList.map fun c => if c = '\\' then '/' else c)

def lowered (lower : String → String) (s : Segment) : Segment := (lower (String.ofList s)).toList

/-- **Two sources denote one folder**: both start at a root or neither does, and
without repeated separators, `.` components and separators at the end they
have the same names, but for their case. -/
def SameFolder (lower : String → String) (s t : String) : Prop :=
  isAbsolute (slashed s) = isAbsolute (slashed t) ∧
    (names (slashed s)).map (lowered lower) = (names (slashed t)).map (lowered lower)

/-- A source without the separators at its end. -/
def trimmedSource (source : String) : List Char :=
  ((slashed source).toList.reverse.dropWhile (· = '/')).reverse

/-- What stands at each place of a source between its separators: a name, or
one of the components that go nowhere. -/
def spacing (source : String) : List (Option Segment) :=
  ((trimmedSource source).splitOn '/').map fun s => if idle s then some s else none

variable {lower : String → String} {s t source : String} {ns ms : List Segment} {cs : List Char}
variable {n : ℕ}

/-! ## The key, part by part -/

theorem idle_lowered (h : LowerCases lower) (s : Segment) : idle (lowered lower s) = idle s := by
  have hempty : lowered lower s = [] ↔ s = [] := by
    have hs := h.empty (String.ofList s)
    rw [← String.toList_inj, ← String.toList_inj] at hs
    simpa [lowered] using hs
  have hdot : lowered lower s = ['.'] ↔ s = ['.'] := by
    have hs := h.dot (String.ofList s)
    rw [← String.toList_inj, ← String.toList_inj] at hs
    simpa [lowered] using hs
  simp only [idle, hempty, hdot]

theorem lowered_of_idle (h : LowerCases lower) {s : Segment} (hs : idle s = true) :
    lowered lower s = s := by
  rcases (by simpa [idle] using hs : s = [] ∨ s = ['.']) with rfl | rfl
  · have hempty := (h.empty (String.ofList [])).mpr rfl
    rw [lowered, hempty]
    rfl
  · have hdot := (h.dot (String.ofList ['.'])).mpr rfl
    rw [lowered, hdot]
    rfl

/-- What is joined by slashes is lowered part by part. -/
theorem lower_joined (h : LowerCases lower) (hne : ns ≠ []) :
    (lower (String.ofList (joined '/' ns))).toList = joined '/' (ns.map (lowered lower)) := by
  induction ns with
  | nil => exact absurd rfl hne
  | cons s ns ih =>
    cases ns with
    | nil => simp [joined, lowered]
    | cons s' ns =>
      have hrest := ih (List.cons_ne_nil _ _)
      have htext : String.ofList (joined '/' (s :: s' :: ns)) =
          String.ofList s ++ "/" ++ String.ofList (joined '/' (s' :: ns)) := by
        rw [← String.toList_inj]
        simp [joined, List.intercalate_cons_cons]
      rw [htext, h.slash, String.toList_append, String.toList_append, hrest]
      simp [joined, lowered, List.intercalate_cons_cons]

theorem sourceKey_eq (h : LowerCases lower) : (sourceKey lower source).toList =
    joined '/' (((trimmedSource source).splitOn '/').map (lowered lower)) := by
  rw [← lower_joined h (List.splitOn_ne_nil _ _), joined, List.intercalate_splitOn]
  simp [sourceKey, trimmedSource, slashed]

theorem names_append_slashes :
    (((cs ++ List.replicate n '/').splitOn '/').filter fun s => !idle s) =
      (cs.splitOn '/').filter fun s => !idle s := by
  induction n with
  | zero => simp
  | succ n ih =>
    rw [List.replicate_succ', ← List.append_assoc, List.splitOn_append_cons_self,
      List.filter_append, ih]
    simp [idle]

/-- The separators at the end go nowhere. -/
theorem names_slashed : names (slashed source) =
    ((trimmedSource source).splitOn '/').filter fun s => !idle s := by
  have hsplit : (slashed source).toList = trimmedSource source ++
      List.replicate ((slashed source).toList.reverse.takeWhile (· = '/')).length '/' := by
    have hall : ((slashed source).toList.reverse.takeWhile (· = '/')).reverse =
        List.replicate ((slashed source).toList.reverse.takeWhile (· = '/')).length '/' := by
      refine List.eq_replicate_iff.mpr ⟨List.length_reverse, fun c hc => ?_⟩
      have hslash := List.mem_takeWhile_imp (List.mem_reverse.mp hc)
      simpa using hslash
    rw [← hall, trimmedSource, ← List.reverse_append, List.takeWhile_append_dropWhile,
      List.reverse_reverse]
  rw [names, segments, hsplit, names_append_slashes]

/-- Lists with the same parts that go nowhere, at the same places, and the same
names between them are the same. -/
theorem map_lowered_eq
    (hspacing : ns.map (fun s => if idle s then some s else none) =
      ms.map fun s => if idle s then some s else none)
    (hnames : (ns.filter fun s => !idle s).map (lowered lower) =
      (ms.filter fun s => !idle s).map (lowered lower)) :
    ns.map (lowered lower) = ms.map (lowered lower) := by
  induction ns generalizing ms with
  | nil =>
    rw [List.map_nil, eq_comm, List.map_eq_nil_iff] at hspacing
    rw [hspacing]
  | cons s ns ih =>
    cases ms with
    | nil => cases hspacing
    | cons t ms =>
      obtain ⟨hfirst, hrest⟩ := List.cons.inj hspacing
      by_cases hs : idle s = true
      · have ht : idle t = true ∧ s = t := by
          simp only [if_pos hs] at hfirst
          split_ifs at hfirst with ht
          exact ⟨ht, Option.some.inj hfirst⟩
        rw [List.filter_cons_of_neg (by simp [hs]), List.filter_cons_of_neg (by simp [ht.1])]
          at hnames
        rw [List.map_cons, List.map_cons, ih hrest hnames, ht.2]
      · have ht : ¬ idle t = true := by
          simp only [if_neg hs] at hfirst
          split_ifs at hfirst with ht
          exact ht
        rw [List.filter_cons_of_pos (by simp [hs]), List.filter_cons_of_pos (by simp [ht]),
          List.map_cons, List.map_cons] at hnames
        obtain ⟨hname, hnames⟩ := List.cons.inj hnames
        rw [List.map_cons, List.map_cons, ih hrest hnames, hname]

/-- Lists whose parts are the same but for their case have the same parts that
go nowhere, at the same places. -/
theorem map_idle_eq (h : LowerCases lower)
    (hlower : ns.map (lowered lower) = ms.map (lowered lower)) :
    ns.map (fun s => if idle s then some s else none) =
      ms.map fun s => if idle s then some s else none := by
  have hpart : ∀ s, (if idle s then some s else none) =
      if idle (lowered lower s) then some (lowered lower s) else none := by
    intro s
    rw [idle_lowered h]
    by_cases hs : idle s = true
    · rw [if_pos hs, if_pos hs, lowered_of_idle h hs]
    · rw [if_neg hs, if_neg hs]
  have hmap := congrArg (List.map fun s => if idle s then some s else none) hlower
  rw [List.map_map, List.map_map] at hmap
  simpa only [Function.comp_def, ← hpart] using hmap

/-- One folder, one key: the spellings have their repeated separators and their
`.` components at the same places. -/
theorem key_eq_iff (h : LowerCases lower) (hsame : SameFolder lower s t) :
    sourceKey lower s = sourceKey lower t ↔ spacing s = spacing t := by
  have hslash : ∀ source : String,
      ∀ s ∈ ((trimmedSource source).splitOn '/').map (lowered lower), '/' ∉ s := by
    intro source s hs
    obtain ⟨s', hs', rfl⟩ := List.mem_map.mp hs
    exact h.no_slash _ (by simpa using notMem_of_mem_splitOn hs')
  have hne : ∀ source : String, ((trimmedSource source).splitOn '/').map (lowered lower) ≠ [] := by
    intro source
    simp [List.splitOn_ne_nil]
  constructor
  · intro hkey
    rw [← String.toList_inj, sourceKey_eq h, sourceKey_eq h] at hkey
    exact map_idle_eq h (Joined.joined_inj (hne s) (hne t) (hslash s) (hslash t) hkey)
  · intro hspacing
    have hnames := hsame.2
    rw [names_slashed, names_slashed] at hnames
    rw [← String.toList_inj, sourceKey_eq h, sourceKey_eq h, map_lowered_eq hspacing hnames]

/-- **Two spellings of one folder have one key** exactly if they have their
repeated separators and their `.` components at the same places; and of the
spellings of one folder, `add` refuses a further one exactly if it has them
where a registered one has them. -/
theorem sourceKey_eq_iff (cfg : Config) (h : LowerCases cfg.toLowercase)
    (ht : (sourceToLinux t).isSome = true) :
    (∀ s, SameFolder cfg.toLowercase s t →
      (sourceKey cfg.toLowercase s = sourceKey cfg.toLowercase t ↔ spacing s = spacing t)) ∧
    ∀ (m : ProjectMap) id now name git branch,
      git.isRepo = true → git.hasCommits = true → git.branch = .ok branch →
      (∀ p ∈ values m, SameFolder cfg.toLowercase p.source t) →
      (addRecord cfg m id now ⟨t, name⟩ git = some (.error (projectExistsErr t)) ↔
        ∃ p ∈ values m, spacing p.source = spacing t) := by
  refine ⟨fun s hsame => key_eq_iff h hsame, ?_⟩
  intro m id now name git branch hrepo hcommits hbranch hsame
  have hkeys : (∃ p ∈ values m, cfg.key p = sourceKey cfg.toLowercase t) ↔
      ∃ p ∈ values m, spacing p.source = spacing t := by
    refine exists_congr fun p => and_congr_right fun hp => ?_
    exact key_eq_iff h (hsame p hp)
  rw [← hkeys]
  have hsome : ¬ (sourceToLinux t).isNone = true := by
    rw [Option.isNone_iff_eq_none]
    exact Option.isSome_iff_ne_none.mp ht
  simp only [addRecord, hrepo, hcommits, hbranch, hsome, Bool.not_true, Bool.false_eq_true,
    if_false]
  constructor
  · intro hrefused
    by_contra hnone
    rw [if_neg hnone, Option.map_eq_some_iff] at hrefused
    obtain ⟨slug, -, hslug⟩ := hrefused
    -- what is refused behind the check for the key has another code
    split_ifs at hslug
    have hcode := congrArg OpError.code (Except.error.inj hslug)
    simp [workspaceExistsErr, projectExistsErr] at hcode
  · intro hkey
    rw [if_pos hkey]

/-! ## Spellings of one checkout -/

theorem toLower_eq_iff {c d : Char} (hd : d.toNat < 65) : c.toLower = d ↔ c = d := by
  unfold Char.toLower
  split
  · rename_i hupper
    simp only [UInt32.le_iff_toNat_le] at hupper
    have hlow : 65 ≤ c.toNat := hupper.1
    have hhigh : c.toNat ≤ 90 := hupper.2
    have hval : (c.val + 32).toNat = c.toNat + 32 := by
      rw [UInt32.toNat_add]
      show (c.toNat + 32) % 2 ^ 32 = c.toNat + 32
      omega
    constructor
    · intro heq
      have hnat : (c.val + 32).toNat = d.toNat := congrArg Char.toNat heq
      omega
    · rintro rfl
      omega
  · rfl

theorem lowerCases_ascii : LowerCases asciiConfig.toLowercase where
  slash a b := by
    rw [← String.toList_inj]
    simp [asciiConfig]
  no_slash a ha := by
    intro hmem
    obtain ⟨c, hc, hlower⟩ := List.mem_map.mp (by simpa [asciiConfig] using hmem)
    exact ha ((toLower_eq_iff (by decide)).mp hlower ▸ hc)
  empty a := by
    rw [← String.toList_inj, ← String.toList_inj]
    show (String.ofList (a.toList.map Char.toLower)).toList = [] ↔ a.toList = []
    rw [String.toList_ofList, List.map_eq_nil_iff]
  dot a := by
    rw [← String.toList_inj, ← String.toList_inj]
    show (String.ofList (a.toList.map Char.toLower)).toList = ['.'] ↔ a.toList = ['.']
    rw [String.toList_ofList, List.map_eq_singleton_iff]
    constructor
    · rintro ⟨c, hc, hlower⟩
      rw [hc, (toLower_eq_iff (by decide)).mp hlower]
    · intro ha
      exact ⟨'.', ha, by decide⟩

/-- A checkout, as the folder picker spells it. -/
def picked : Project where
  id := 0
  name := "work"
  slug := "work"
  source := "C:\\Work"
  workspace := "/root/workspaces/work"
  branch := "main"
  state := .ready
  sourcePresent := true
  createdAt := "t"
  sandbox := {}
  sandboxProblem := none

def pickedOnly : ProjectMap := (∅ : ProjectMap).insert 0 picked

/-- The same checkout under another case and with other separators. -/
theorem sourceKey_eq_typed :
    sourceKey asciiConfig.toLowercase "C:\\Work" = sourceKey asciiConfig.toLowercase "c:/work/" ∧
    addRecord asciiConfig pickedOnly 1 "t" ⟨"c:/work/", none⟩ ⟨true, true, .ok "main", false⟩ =
      some (.error (projectExistsErr "c:/work/")) := by
  have hboth := sourceKey_eq_iff asciiConfig lowerCases_ascii
    (t := "c:/work/") (by decide)
  have hsame : SameFolder asciiConfig.toLowercase "C:\\Work" "c:/work/" := by
    unfold SameFolder
    decide
  have hspacing : spacing "C:\\Work" = spacing "c:/work/" := by decide
  refine ⟨(hboth.1 _ hsame).mpr hspacing, ?_⟩
  refine (hboth.2 pickedOnly 1 "t" none _ "main" rfl rfl rfl ?_).mpr ⟨picked, ?_, hspacing⟩
  · intro p hp
    obtain rfl : p = picked := by simpa [values, pickedOnly] using hp
    exact hsame
  · simp [values, pickedOnly]

/-- **One checkout, registered twice**: with a `.` component, or with a
separator twice, a spelling has a key of its own, and is added. -/
theorem spelled_twice :
    SameFolder asciiConfig.toLowercase "C:\\Work" "C:\\.\\Work" ∧
    SameFolder asciiConfig.toLowercase "C:\\Work" "C:\\\\Work" ∧
    sourceKey asciiConfig.toLowercase "C:\\Work" ≠
      sourceKey asciiConfig.toLowercase "C:\\.\\Work" ∧
    sourceKey asciiConfig.toLowercase "C:\\Work" ≠
      sourceKey asciiConfig.toLowercase "C:\\\\Work" ∧
    addRecord asciiConfig pickedOnly 1 "t" ⟨"C:\\.\\Work", none⟩ ⟨true, true, .ok "main", false⟩ =
      some (.ok { picked with
        id := 1, name := "Work", slug := "work-2", source := "C:\\.\\Work"
        workspace := "/root/workspaces/work-2", state := .preparing }) := by
  unfold SameFolder
  decide

end Projects
end Willie
