import Mathlib.Data.List.TakeWhile
import Willie.Common.Occurs
import Willie.Common.Traced
import Willie.Profiles.Apply

/-!
# Profiles — a managed block in a person's prose

Merging Markdown replaces the block between the markers, or appends one, and
leaves the prose around it. The block is found again by its markers, so a
second merge finds what the first one wrote unless the fragment holds the
closing marker itself: then the block seems to end inside the fragment, and
each merge leaves another tail of it behind.
-/

namespace Willie
namespace Profiles

open Paths Occurs Traced

variable {pat s before inner after : List Char} {target fragment r : String} {i : ℕ}

/-! ## What is searched for -/

theorem find_eq_some_iff : find pat s = some i ↔ FirstAt pat s i := by
  induction s generalizing i with
  | nil =>
    by_cases hpat : pat = []
    · rw [find, if_pos hpat]
      have hzero : FirstAt pat [] 0 := ⟨by simp [hpat], by simp⟩
      exact ⟨fun h => Option.some.inj h ▸ hzero, fun h => congrArg some (hzero.unique h)⟩
    · rw [find, if_neg hpat]
      refine iff_of_false (by simp) fun h => hpat ?_
      simpa using h.here
  | cons c s ih =>
    by_cases hhere : pat.isPrefixOf (c :: s) = true
    · rw [find, if_pos hhere]
      have hzero : FirstAt pat (c :: s) 0 := ⟨List.isPrefixOf_iff_prefix.mp hhere, by simp⟩
      exact ⟨fun h => Option.some.inj h ▸ hzero, fun h => congrArg some (hzero.unique h)⟩
    · rw [find, if_neg hhere, Option.map_eq_some_iff]
      have hnot : ¬ pat <+: c :: s := fun h => hhere (List.isPrefixOf_iff_prefix.mpr h)
      constructor
      · rintro ⟨j, hj, rfl⟩
        have hat := ih.mp hj
        refine ⟨hat.here, fun k hk => ?_⟩
        cases k with
        | zero => exact hnot
        | succ k => exact hat.first k (by omega)
      · intro h
        cases i with
        | zero => exact absurd h.here hnot
        | succ i => exact ⟨i, ih.mpr ⟨h.here, fun k hk => h.first (k + 1) (by omega)⟩, rfl⟩

theorem find_eq_none_iff : find pat s = none ↔ ¬ pat <:+: s := by
  rw [Option.eq_none_iff_forall_ne_some]
  constructor
  · intro h hin
    obtain ⟨i, hi⟩ := exists_firstAt hin
    exact h i (find_eq_some_iff.mpr hi)
  · intro h i hi
    exact h (find_eq_some_iff.mp hi).isInfix

/-- Trimming takes line feeds off the ends, nothing else. -/
theorem trimNewlines_spec (s : List Char) :
    ∃ m n, s = List.replicate m '\n' ++ trimNewlines s ++ List.replicate n '\n' := by
  have feeds (l : List Char) : l.takeWhile (· = '\n') =
      List.replicate (l.takeWhile (· = '\n')).length '\n' := by
    refine List.eq_replicate_iff.mpr ⟨rfl, fun c hc => ?_⟩
    simpa using List.mem_takeWhile_imp hc
  have hfront := List.takeWhile_append_dropWhile (p := (· = '\n')) (l := s)
  have hback := List.takeWhile_append_dropWhile (p := (· = '\n'))
    (l := (s.dropWhile (· = '\n')).reverse)
  refine ⟨(s.takeWhile (· = '\n')).length,
    ((s.dropWhile (· = '\n')).reverse.takeWhile (· = '\n')).length, ?_⟩
  have hrest : s.dropWhile (· = '\n') = trimNewlines s ++
      ((s.dropWhile (· = '\n')).reverse.takeWhile (· = '\n')).reverse := by
    rw [trimNewlines, ← List.reverse_append, hback, List.reverse_reverse]
  rw [feeds (s.dropWhile (· = '\n')).reverse, List.reverse_replicate] at hrest
  rw [List.append_assoc, ← hrest, ← feeds s, hfront]

/-! ## The block -/

theorem newline_notMem_begin : '\n' ∉ markerBegin.toList := by decide

theorem newline_notMem_end : '\n' ∉ markerEnd.toList := by decide

theorem end_ne_nil : markerEnd.toList ≠ [] := by decide

/-- What stands in a block between its markers. -/
def blockInner (fragment : String) : List Char := '\n' :: trimNewlines fragment.toList ++ ['\n']

def blockChars (fragment : String) : List Char :=
  markerBegin.toList ++ blockInner fragment ++ markerEnd.toList

theorem toList_markerBlock : (markerBlock fragment).toList = blockChars fragment := by
  simp [markerBlock, blockChars, blockInner]

/-- **The managed block of a target**: from the first opening marker to the
first closing one after it. -/
structure Managed (target before inner after : List Char) : Prop where
  spelled : target = before ++ markerBegin.toList ++ (inner ++ markerEnd.toList ++ after)
  opens : FirstAt markerBegin.toList target before.length
  closes : FirstAt markerEnd.toList (inner ++ markerEnd.toList ++ after) inner.length

theorem Managed.drop (h : Managed target.toList before inner after) :
    target.toList.drop (before.length + markerBegin.length) =
      inner ++ markerEnd.toList ++ after := by
  rw [h.spelled, ← List.drop_drop, List.append_assoc, List.drop_left]
  exact List.drop_left' String.length_toList

theorem Managed.span (h : Managed target.toList before inner after) :
    markerSpan target = .ok (some (before.length,
      before.length + markerBegin.length + inner.length + markerEnd.length)) := by
  simp only [markerSpan, find_eq_some_iff.mpr h.opens, h.drop, find_eq_some_iff.mpr h.closes]

/-- A span that is found is a managed block's. -/
theorem managed_of_span {span : ℕ × ℕ} (h : markerSpan target = .ok (some span)) :
    ∃ before inner after, Managed target.toList before inner after := by
  unfold markerSpan at h
  split at h
  · cases h
  · rename_i start hstart
    have hopens := find_eq_some_iff.mp hstart
    obtain ⟨before, rest, hspelled, hbefore⟩ := hopens.split (by decide)
    have hdrop : target.toList.drop (start + markerBegin.length) = rest := by
      rw [hspelled, ← hbefore]
      exact List.drop_left' (by rw [List.length_append, String.length_toList])
    dsimp only at h
    split at h
    · cases h
    · rename_i e he
      have hcloses := find_eq_some_iff.mp he
      rw [hdrop] at hcloses
      obtain ⟨inner, after, hrest, hinner⟩ := hcloses.split end_ne_nil
      exact ⟨before, inner, after, by rw [hspelled, hrest], hbefore ▸ hopens,
        hrest ▸ hinner ▸ hcloses⟩

theorem no_span_iff : markerSpan target = .ok none ↔ ¬ markerBegin.toList <:+: target.toList := by
  rw [← find_eq_none_iff]
  unfold markerSpan
  split
  · simp_all
  · dsimp only
    split <;> simp_all

/-- A managed block is replaced where it stands. -/
theorem Managed.merge (h : Managed target.toList before inner after) :
    mergeMarkdown target fragment =
      .ok (String.ofList (before ++ blockChars fragment ++ after)) := by
  have hstop : target.toList.drop
      (before.length + markerBegin.length + inner.length + markerEnd.length) = after := by
    rw [Nat.add_assoc _ inner.length, ← List.drop_drop, h.drop]
    exact List.drop_left' (by rw [List.length_append, String.length_toList])
  have hstart : target.toList.take before.length = before := by
    rw [h.spelled, List.append_assoc, List.take_left]
  simp only [mergeMarkdown, h.span, hstop, hstart, ok_bind]
  congr 1
  apply String.toList_inj.mp
  simp [toList_markerBlock]

/-- Without an opening marker a block is appended. -/
theorem merge_unmanaged (h : ¬ markerBegin.toList <:+: target.toList) :
    mergeMarkdown target fragment = .ok (appendBlock target (markerBlock fragment)) := by
  simp only [mergeMarkdown, no_span_iff.mpr h, ok_bind]
  rfl

theorem toList_appendBlock {block : String} : ∃ sep : List Char,
    (appendBlock target block).toList = target.toList ++ sep ++ block.toList ++ ['\n'] ∧
      (∀ c ∈ sep, c = '\n') ∧ (sep = [] → target = "") := by
  unfold appendBlock
  split
  · rename_i hempty
    exact ⟨[], by simp [hempty], by simp, fun _ => hempty⟩
  · dsimp only
    split
    · exact ⟨['\n'], by simp, by simp, by simp⟩
    · exact ⟨['\n', '\n'], by simp, by simp, by simp⟩

/-- What merging keeps: the target around its block, or all of it before a
block of its own. -/
inductive Kept (target fragment r : String) : Prop
  | replaced {before inner after : List Char} (managed : Managed target.toList before inner after)
      (result : r.toList = before ++ blockChars fragment ++ after)
  | appended {sep : List Char} (unmanaged : ¬ markerBegin.toList <:+: target.toList)
      (result : r.toList = target.toList ++ sep ++ blockChars fragment ++ ['\n'])
      (feeds : ∀ c ∈ sep, c = '\n') (parted : sep = [] → target = "")

/-- **The prose is kept.** -/
theorem merge_kept (h : mergeMarkdown target fragment = .ok r) : Kept target fragment r := by
  rcases hspan : markerSpan target with e | (_ | span)
  · simp only [mergeMarkdown, hspan, error_bind] at h
    cases h
  · have hnot := no_span_iff.mp hspan
    rw [merge_unmanaged hnot] at h
    obtain rfl := Except.ok.inj h
    obtain ⟨sep, htext, hfeeds, hparted⟩ :=
      @toList_appendBlock target (markerBlock fragment)
    rw [toList_markerBlock] at htext
    exact .appended hnot htext hfeeds hparted
  · obtain ⟨before, inner, after, hm⟩ := managed_of_span hspan
    rw [hm.merge] at h
    obtain rfl := Except.ok.inj h
    exact .replaced hm (by simp)

/-! ## Merging again -/

/-- A fragment holds the closing marker where its block's inside does. -/
theorem end_infix_blockInner :
    markerEnd.toList <:+: blockInner fragment ↔ markerEnd.toList <:+: fragment.toList := by
  obtain ⟨m, n, hpadded⟩ := trimNewlines_spec fragment.toList
  have hinner : blockInner fragment =
      List.replicate 1 '\n' ++ trimNewlines fragment.toList ++ List.replicate 1 '\n' := by
    simp [blockInner]
  rw [hinner, infix_padded end_ne_nil newline_notMem_end]
  conv_rhs => rw [hpadded, infix_padded end_ne_nil newline_notMem_end]

/-- **What a second merge finds.** Where the result's first block is the one
just written, merging again gives the same exactly if the fragment does not
close the block itself. -/
theorem merge_again (hr : r.toList = before ++ blockChars fragment ++ after)
    (hopens : FirstAt markerBegin.toList r.toList before.length) :
    mergeMarkdown r fragment = .ok r ↔ ¬ markerEnd.toList <:+: fragment.toList := by
  have hspelled : r.toList = before ++ markerBegin.toList ++
      (blockInner fragment ++ markerEnd.toList ++ after) := by
    rw [hr, blockChars]
    simp
  rw [← end_infix_blockInner]
  constructor
  · -- the block seems to end inside the fragment, whose tail is kept as prose
    intro hmerge hin
    obtain ⟨u, v, huv⟩ := hin
    obtain ⟨e, hcloses⟩ := exists_firstAt
      (List.infix_append (blockInner fragment) markerEnd.toList after)
    have hle : e ≤ u.length := by
      by_contra hgt
      refine hcloses.first u.length (by omega) ?_
      rw [← huv, List.append_assoc u, List.append_assoc, List.append_assoc, List.drop_left,
        List.append_assoc]
      exact List.prefix_append _ _
    obtain ⟨inner, tail, hsplit, hinner⟩ := hcloses.split end_ne_nil
    have hm : Managed r.toList before inner tail :=
      ⟨by rw [hspelled, hsplit], hopens, hsplit ▸ hinner ▸ hcloses⟩
    rw [hm.merge] at hmerge
    have hsame := congrArg (List.length ∘ String.toList) (Except.ok.inj hmerge)
    have hinside := congrArg List.length huv
    have hboth := congrArg List.length hsplit
    have hpos := List.length_pos_iff.mpr end_ne_nil
    simp only [Function.comp_apply, String.toList_ofList, hr, List.length_append] at hsame
    simp only [List.length_append] at hinside hboth
    omega
  · intro hnot
    have hwall : blockInner fragment ++ markerEnd.toList ++ after =
        ('\n' :: trimNewlines fragment.toList) ++ '\n' :: (markerEnd.toList ++ after) := by
      simp [blockInner]
    have hcloses : FirstAt markerEnd.toList
        (blockInner fragment ++ markerEnd.toList ++ after) (blockInner fragment).length := by
      have hlen : (blockInner fragment).length =
          ('\n' :: trimNewlines fragment.toList).length + 1 := by
        simp [blockInner]
      rw [hwall, hlen]
      exact firstAt_wall newline_notMem_end fun h =>
        hnot (h.trans (List.prefix_append _ _).isInfix)
    have hm : Managed r.toList before (blockInner fragment) after := ⟨hspelled, hopens, hcloses⟩
    rw [hm.merge, ← hr, String.ofList_toList]

/-- The block just written is the first. -/
theorem Kept.opens (h : Kept target fragment r) :
    ∃ before after, r.toList = before ++ blockChars fragment ++ after ∧
      FirstAt markerBegin.toList r.toList before.length := by
  cases h with
  | replaced managed result =>
    rename_i before inner after
    refine ⟨before, after, result, ?_⟩
    have hopens := managed.opens
    rw [managed.spelled] at hopens
    have := hopens.replace (blockInner fragment ++ markerEnd.toList ++ after)
    rw [result, blockChars]
    simpa using this
  | appended unmanaged result feeds parted =>
    rename_i sep
    refine ⟨target.toList ++ sep, ['\n'], result, ?_⟩
    rcases List.eq_nil_or_concat sep with rfl | ⟨front, c, rfl⟩
    · rw [result, parted rfl]
      exact ⟨⟨blockInner fragment ++ markerEnd.toList ++ ['\n'], by simp [blockChars]⟩,
        fun j hj => absurd hj (by simp)⟩
    · -- only line feeds stand between the target and the block
      obtain rfl := feeds c (by simp)
      have hfront : front = List.replicate front.length '\n' :=
        List.eq_replicate_iff.mpr ⟨rfl, fun c hc => feeds c (by simp [hc])⟩
      have hnot : ¬ markerBegin.toList <:+: target.toList ++ front := by
        have hpadded := infix_padded (a := target.toList) (m := 0) (n := front.length)
          (by decide) newline_notMem_begin
        rw [← hfront] at hpadded
        simpa using fun h => unmanaged (hpadded.mp (by simpa using h))
      have hat := firstAt_wall (b := blockInner fragment ++ markerEnd.toList ++ ['\n'])
        newline_notMem_begin hnot
      rw [result, blockChars]
      simpa [Nat.add_assoc] using hat

/-- **A merge keeps the prose, and converges unless the fragment closes its
own block.** -/
theorem merge_converges_iff (h : mergeMarkdown target fragment = .ok r) :
    Kept target fragment r ∧
      (mergeMarkdown r fragment = .ok r ↔ ¬ markerEnd.toList <:+: fragment.toList) := by
  have hkept := merge_kept h
  obtain ⟨before, after, hr, hopens⟩ := hkept.opens
  exact ⟨hkept, merge_again hr hopens⟩

theorem merge_converges_notes :
    mergeMarkdown "# Notes\n\n<!-- willie:begin -->\nnew\n<!-- willie:end -->\n" "new" =
      .ok "# Notes\n\n<!-- willie:begin -->\nnew\n<!-- willie:end -->\n" :=
  (@merge_converges_iff "# Notes\n" "new" _ (by decide)).2.mpr (by decide)

/-- A fragment that quotes the closing marker: the second merge leaves the
quotation's tail behind the block. -/
theorem merge_diverges :
    mergeMarkdown "" "Ends at <!-- willie:end -->." =
      .ok "<!-- willie:begin -->\nEnds at <!-- willie:end -->.\n<!-- willie:end -->\n" ∧
    mergeMarkdown "<!-- willie:begin -->\nEnds at <!-- willie:end -->.\n<!-- willie:end -->\n"
        "Ends at <!-- willie:end -->." ≠
      .ok "<!-- willie:begin -->\nEnds at <!-- willie:end -->.\n<!-- willie:end -->\n" := by
  constructor <;> decide

end Profiles
end Willie
