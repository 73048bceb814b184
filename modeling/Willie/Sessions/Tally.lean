import Mathlib.Data.List.Chain
import Mathlib.Data.Prod.Lex
import Mathlib.Data.String.Basic
import Willie.Common.SortedMap
import Willie.Sessions.Fold

/-!
# Sessions — the tally of what the sandbox refuses

A program that probes one denied call in a loop must not flood the log. The
first refusal of a thing is reported at once; later ones accumulate in its
row and are reported as one count when the window has passed since the row
last reported, or when the tally is flushed.

What is reported of a thing and what its row still holds are together what
was recorded of it (`record_conserves`, `flush_conserves`), so the rows the
reports fold into hold it all after a flush. Instants are numbers; a
duration since a later instant is zero.
-/

namespace Willie
namespace Sessions

/-- What has accumulated since the row last reported, and when that was. -/
structure Row where
  pending : Nat
  reportedAt : Nat
  deriving DecidableEq, Repr

/-- What is to be reported of one thing. -/
structure Report where
  cls : String
  name : String
  count : Nat
  deriving DecidableEq, Repr

/-- The coalescing tally: one row per (class, name). -/
structure Tally where
  window : Nat
  rows : SortedMap (String ×ₗ String) Row

def Tally.new (window : Nat) : Tally := ⟨window, .empty⟩

/-- **Record one refusal.** Something is to be reported now on the first of
its row and on a repeat once the window has passed; else it is folded in. -/
def Tally.record (t : Tally) (now : Nat) (cls name : String) : Tally × Option Report :=
  match t.rows.get (toLex (cls, name)) with
  | none =>
    ({ t with rows := t.rows.insert (toLex (cls, name)) ⟨0, now⟩ }, some ⟨cls, name, 1⟩)
  | some row =>
    if now - row.reportedAt < t.window then
      ({ t with rows := t.rows.insert (toLex (cls, name)) ⟨row.pending + 1, row.reportedAt⟩ }, none)
    else
      ({ t with rows := t.rows.insert (toLex (cls, name)) ⟨0, now⟩ },
       some ⟨cls, name, row.pending + 1⟩)

/-- What is still folded in a row, as its report. -/
def stillFolded (e : (String ×ₗ String) × Row) : Option Report :=
  if 0 < e.2.pending then some ⟨(ofLex e.1).1, (ofLex e.1).2, e.2.pending⟩ else none

/-- **Everything still folded**, one report a row in the order of the rows,
whose windows restart now. -/
def Tally.flush (t : Tally) (now : Nat) : Tally × List Report :=
  ({ t with rows := t.rows.mapVal fun row => if 0 < row.pending then ⟨0, now⟩ else row },
   t.rows.entries.filterMap stillFolded)

variable {t : Tally} {now : Nat} {cls name c n : String} {rs : List Report}

/-- What a row still holds. -/
def Tally.held (t : Tally) (cls name : String) : Nat :=
  match t.rows.get (toLex (cls, name)) with
  | none => 0
  | some row => row.pending

def Report.key (r : Report) : String × String := (r.cls, r.name)

/-- How much reports say of one thing. -/
def reported (cls name : String) (rs : List Report) : Nat :=
  ((rs.filter fun r => r.key = (cls, name)).map Report.count).sum

theorem reported_append {rs' : List Report} :
    reported cls name (rs ++ rs') = reported cls name rs + reported cls name rs' := by
  simp [reported]

theorem reported_single {count : Nat} :
    reported cls name [⟨c, n, count⟩] = if (c, n) = (cls, name) then count else 0 := by
  have hkey : (Report.mk c n count).key = (c, n) := rfl
  unfold reported
  by_cases h : (c, n) = (cls, name) <;> simp only [List.filter_cons, hkey, h] <;> simp

@[simp] theorem record_window : (t.record now cls name).1.window = t.window := by
  unfold Tally.record
  split
  · rfl
  · split <;> rfl

/-- Recording a thing leaves the rows of the others. -/
theorem get_record_ne (h : (c, n) ≠ (cls, name)) :
    (t.record now c n).1.rows.get (toLex (cls, name)) = t.rows.get (toLex (cls, name)) := by
  have hne : toLex (cls, name) ≠ toLex (c, n) := fun he => h (toLex.injective he).symm
  unfold Tally.record
  split
  · exact SortedMap.get_insert_ne hne
  · split <;> exact SortedMap.get_insert_ne hne

/-- What is reported is about what was recorded. -/
theorem key_of_record {r : Report} (h : (t.record now cls name).2 = some r) :
    r.key = (cls, name) := by
  unfold Tally.record at h
  split at h
  · obtain rfl := Option.some.inj h
    rfl
  · split at h
    · cases h
    · obtain rfl := Option.some.inj h
      rfl

/-- **A refusal recorded is reported or held.** -/
theorem record_conserves (t : Tally) (now : Nat) (c n cls name : String) :
    reported cls name (t.record now c n).2.toList + (t.record now c n).1.held cls name =
      t.held cls name + if (c, n) = (cls, name) then 1 else 0 := by
  by_cases h : (c, n) = (cls, name)
  · obtain ⟨rfl, rfl⟩ := Prod.mk.inj h
    unfold Tally.record
    cases hrow : t.rows.get (toLex (c, n)) with
    | none => simp [Tally.held, hrow, reported_single]
    | some row =>
      by_cases hin : now - row.reportedAt < t.window
      · simp [Tally.held, hrow, hin, reported]
      · simp [Tally.held, hrow, hin, reported_single]
  · have hheld : (t.record now c n).1.held cls name = t.held cls name := by
      simp only [Tally.held, get_record_ne h]
    have hnone : reported cls name (t.record now c n).2.toList = 0 := by
      cases hr : (t.record now c n).2 with
      | none => rfl
      | some r =>
        obtain ⟨c', n', count⟩ := r
        have hkey : (c', n') = (c, n) := key_of_record hr
        rw [Option.toList_some, reported_single, if_neg (hkey ▸ h)]
    rw [hheld, hnone, if_neg h, Nat.zero_add, Nat.add_zero]

theorem flush_held (t : Tally) (now : Nat) (cls name : String) :
    (t.flush now).1.held cls name = 0 := by
  simp only [Tally.held, Tally.flush, SortedMap.get_mapVal]
  cases t.rows.get (toLex (cls, name)) with
  | none => rfl
  | some row =>
    simp only [Option.map_some]
    split
    · rfl
    · rename_i h
      exact Nat.eq_zero_of_not_pos h

theorem reported_filterMap {l : List ((String ×ₗ String) × Row)} :
    reported cls name (l.filterMap stillFolded) =
      ((l.filter fun e => e.1 = toLex (cls, name)).map fun e => e.2.pending).sum := by
  induction l with
  | nil => rfl
  | cons e rest ih =>
    have hkey : e.1 = toLex (cls, name) ↔ ((ofLex e.1).1, (ofLex e.1).2) = (cls, name) := Iff.rfl
    by_cases hp : 0 < e.2.pending
    · have hdue : stillFolded e = some ⟨(ofLex e.1).1, (ofLex e.1).2, e.2.pending⟩ := if_pos hp
      rw [List.filterMap_cons_some hdue, ← List.singleton_append, reported_append,
        reported_single, ih]
      by_cases h : e.1 = toLex (cls, name)
      · rw [if_pos (hkey.mp h), List.filter_cons_of_pos (by simp [h])]
        rfl
      · rw [if_neg (mt hkey.mpr h), List.filter_cons_of_neg (by simp [h]), Nat.zero_add]
    · have hzero : e.2.pending = 0 := Nat.eq_zero_of_not_pos hp
      have hdue : stillFolded e = none := if_neg hp
      rw [List.filterMap_cons_none hdue, ih]
      by_cases h : e.1 = toLex (cls, name)
      · rw [List.filter_cons_of_pos (by simp [h]), List.map_cons, List.sum_cons, hzero,
          Nat.zero_add]
      · rw [List.filter_cons_of_neg (by simp [h])]

/-- **A flush reports what every row holds.** -/
theorem flush_conserves (t : Tally) (now : Nat) (cls name : String) :
    reported cls name (t.flush now).2 = t.held cls name := by
  rw [Tally.flush, reported_filterMap, SortedMap.entries_filter, Tally.held]
  cases t.rows.get (toLex (cls, name)) with
  | none => rfl
  | some row => simp

/-! ## A run of calls -/

/-- One call of `record`, and when. -/
structure Call where
  now : Nat
  cls : String
  name : String
  deriving DecidableEq, Repr

def Call.key (c : Call) : String × String := (c.cls, c.name)

/-- What a run of calls reports, each with its instant, and the tally after it. -/
def Tally.recordAll : Tally → List Call → Tally × List (Nat × Report)
  | t, [] => (t, [])
  | t, c :: cs =>
    let (t', due) := t.record c.now c.cls c.name
    let (last, later) := t'.recordAll cs
    (last, due.toList.map (c.now, ·) ++ later)

/-- The reports of a run of calls and of the flush that ends it. -/
def reportsOf (window : Nat) (calls : List Call) (close : Nat) : List Report :=
  let (t, asked) := (Tally.new window).recordAll calls
  asked.map Prod.snd ++ (t.flush close).2

variable {calls : List Call}

/-- **A run reports or holds every refusal it records.** -/
theorem recordAll_conserves (t : Tally) (calls : List Call) (cls name : String) :
    reported cls name ((t.recordAll calls).2.map Prod.snd) +
        (t.recordAll calls).1.held cls name =
      t.held cls name + calls.countP (·.key = (cls, name)) := by
  induction calls generalizing t with
  | nil => simp [Tally.recordAll, reported]
  | cons c calls ih =>
    have hone := record_conserves t c.now c.cls c.name cls name
    have hrest := ih (t.record c.now c.cls c.name).1
    have hdue : ((t.record c.now c.cls c.name).2.toList.map (c.now, ·)).map Prod.snd =
        (t.record c.now c.cls c.name).2.toList := by
      simp [Function.comp_def]
    have hkey : (c.key = (cls, name)) = ((c.cls, c.name) = (cls, name)) := rfl
    simp only [Tally.recordAll, List.map_append, hdue, reported_append, List.countP_cons,
      decide_eq_true_eq, hkey]
    omega

/-- Every refusal recorded is reported by the end. -/
theorem reportsOf_conserves (window close : Nat) (calls : List Call) (cls name : String) :
    reported cls name (reportsOf window calls close) = calls.countP (·.key = (cls, name)) := by
  have h := recordAll_conserves (Tally.new window) calls cls name
  have hnew : (Tally.new window).held cls name = 0 := rfl
  rw [reportsOf, reported_append, flush_conserves, h, hnew, Nat.zero_add]

/-! ## What the reports fold into -/

/-- The events reports are logged as, each dated somehow. -/
def denials (ats : Nat → String) (rs : List Report) : List SessionEvent :=
  rs.mapIdx fun i r => ⟨ats i, .sandboxDenied r.cls r.name r.count⟩

variable {ats : Nat → String} {spec : SessionSpec} {window close : Nat}

theorem denials_toEnd : toEnd (denials ats rs) = denials ats rs := by
  apply Absorb.upTo_of_none
  rw [List.any_eq_false]
  intro ev hev
  obtain ⟨i, -, rfl⟩ := List.mem_mapIdx.mp hev
  simp [SessionEventKind.isEnd]

theorem refusals_denials :
    (refusals cls name (denials ats rs)).map Prod.snd =
      (rs.filter fun r => r.key = (cls, name)).map Report.count := by
  induction rs generalizing ats with
  | nil => rfl
  | cons r rs ih =>
    have ih := @ih fun i => ats (i + 1)
    rw [denials, List.mapIdx_cons, refusals]
    by_cases h : r.key = (cls, name)
    · have hr : SessionEvent.refusal cls name ⟨ats 0, .sandboxDenied r.cls r.name r.count⟩ =
          some (ats 0, r.count) := if_pos h
      rw [List.filterMap_cons_some hr, List.filter_cons_of_pos (by simp [h]), List.map_cons,
        List.map_cons]
      exact congrArg _ ih
    · have hr : SessionEvent.refusal cls name ⟨ats 0, .sandboxDenied r.cls r.name r.count⟩ =
          none := if_neg h
      rw [List.filterMap_cons_none hr, List.filter_cons_of_neg (by simp [h])]
      exact ih

/-- The rows of a log that holds nothing but reports. -/
theorem row_denials {d : Denied} (hd : d ∈ (fromLog spec (denials ats rs)).sandbox.denied) :
    d.count = reported d.cls d.name rs := by
  have h := (row_of_mem hd).1
  rwa [denials_toEnd, refusals_denials] at h

theorem exists_row_denials :
    (∃ d ∈ (fromLog spec (denials ats rs)).sandbox.denied, d.key = (cls, name)) ↔
      ∃ r ∈ rs, r.key = (cls, name) := by
  rw [exists_row_iff, denials_toEnd, ← not_iff_not, not_not,
    ← List.map_eq_nil_iff (f := Prod.snd), refusals_denials, List.map_eq_nil_iff,
    List.filter_eq_nil_iff]
  simp

theorem record_pos {r : Report} (h : (t.record now cls name).2 = some r) : 0 < r.count := by
  unfold Tally.record at h
  split at h
  · obtain rfl := Option.some.inj h
    exact Nat.one_pos
  · split at h
    · cases h
    · obtain rfl := Option.some.inj h
      exact Nat.succ_pos _

theorem flush_pos {r : Report} (h : r ∈ (t.flush now).2) : 0 < r.count := by
  obtain ⟨e, -, he⟩ := List.mem_filterMap.mp h
  obtain ⟨hpos, he⟩ := Option.ite_none_right_eq_some.mp he
  obtain rfl := Option.some.inj he
  exact hpos

theorem recordAll_pos {r : Nat × Report} (h : r ∈ (t.recordAll calls).2) : 0 < r.2.count := by
  induction calls generalizing t with
  | nil => simp [Tally.recordAll] at h
  | cons c calls ih =>
    rcases List.mem_append.mp h with h | h
    · obtain ⟨due, hdue, rfl⟩ := List.mem_map.mp h
      exact record_pos (Option.mem_toList.mp hdue)
    · exact ih h

/-- Nothing is reported that was not recorded. -/
theorem exists_report_iff :
    (∃ r ∈ reportsOf window calls close, r.key = (cls, name)) ↔
      ∃ c ∈ calls, c.key = (cls, name) := by
  have hsum := reportsOf_conserves window close calls cls name
  have hcalls : (∃ c ∈ calls, c.key = (cls, name)) ↔ 0 < reported cls name
      (reportsOf window calls close) := by
    rw [hsum, List.countP_pos_iff]
    simp
  rw [hcalls]
  constructor
  · rintro ⟨r, hr, hkey⟩
    have hpos : 0 < r.count := by
      rcases List.mem_append.mp hr with hr | hr
      · obtain ⟨r', hr', rfl⟩ := List.mem_map.mp hr
        exact recordAll_pos hr'
      · exact flush_pos hr
    obtain ⟨before, after, hsplit⟩ := List.append_of_mem hr
    have hone : reported cls name [r] = r.count := by simp [reported, hkey]
    rw [hsplit, ← List.singleton_append, reported_append, reported_append, hone]
    omega
  · intro hpos
    by_contra hnone
    have hempty : (reportsOf window calls close).filter (fun r => r.key = (cls, name)) = [] := by
      rw [List.filter_eq_nil_iff]
      exact fun r hr hkey => hnone ⟨r, hr, of_decide_eq_true hkey⟩
    rw [reported, hempty] at hpos
    exact Nat.lt_irrefl 0 hpos

/-! ## How often a row reports -/

/-- The instants at which a run of calls reports one thing. -/
def instants (cls name : String) (rs : List (Nat × Report)) : List Nat :=
  (rs.filter fun r => r.2.key = (cls, name)).map Prod.fst

/-- When the row of one thing last reported. -/
def Tally.lastOf (t : Tally) (cls name : String) : Option Nat :=
  (t.rows.get (toLex (cls, name))).map Row.reportedAt

/-- A row reports again only once the window has passed. -/
theorem record_spaced (t : Tally) (now : Nat) (cls name : String) :
    (∃ r, (t.record now cls name).2 = some r ∧
        (t.record now cls name).1.lastOf cls name = some now ∧
        ∀ last ∈ t.lastOf cls name, t.window ≤ now - last) ∨
      ((t.record now cls name).2 = none ∧
        (t.record now cls name).1.lastOf cls name = t.lastOf cls name) := by
  unfold Tally.record Tally.lastOf
  cases hrow : t.rows.get (toLex (cls, name)) with
  | none => exact .inl ⟨_, rfl, by simp, by simp⟩
  | some row =>
    by_cases hin : now - row.reportedAt < t.window
    · exact .inr (by simp [hin])
    · exact .inl ⟨⟨cls, name, row.pending + 1⟩, by simp [hin], by simp [hin], by
        simpa using Nat.le_of_not_lt hin⟩

/-- **Between two reports of one row the window passes**, and before the first
since the row last reported. -/
theorem recordAll_spaced :
    ((t.lastOf cls name).toList ++ instants cls name (t.recordAll calls).2).IsChain
      fun a b => t.window ≤ b - a := by
  induction calls generalizing t with
  | nil => cases t.lastOf cls name <;> simp [Tally.recordAll, instants]
  | cons c calls ih =>
    have ih := ih (t := (t.record c.now c.cls c.name).1)
    rw [record_window] at ih
    simp only [Tally.recordAll, instants, List.filter_append, List.map_append]
    by_cases hkey : (c.cls, c.name) = (cls, name)
    · obtain ⟨rfl, rfl⟩ := Prod.mk.inj hkey
      rcases record_spaced t c.now c.cls c.name with ⟨r, hr, hlast, hspace⟩ | ⟨hr, hlast⟩
      · have hrkey : r.key = (c.cls, c.name) := key_of_record hr
        rw [hlast] at ih
        rw [hr]
        cases hbefore : t.lastOf c.cls c.name with
        | none => simpa [hrkey, instants] using ih
        | some last =>
          have hfirst : t.window ≤ c.now - last := hspace last hbefore
          simpa [hrkey, instants] using ⟨hfirst, by simpa [instants] using ih⟩
      · rw [hlast] at ih
        simpa [hr, instants] using ih
    · have hlast : (t.record c.now c.cls c.name).1.lastOf cls name = t.lastOf cls name := by
        simp only [Tally.lastOf, get_record_ne hkey]
      have hnone : ((t.record c.now c.cls c.name).2.toList.map (c.now, ·)).filter
          (fun r => r.2.key = (cls, name)) = [] := by
        rw [List.filter_eq_nil_iff]
        intro r hr hrkey
        obtain ⟨due, hdue, rfl⟩ := List.mem_map.mp hr
        have hk : due.key = (c.cls, c.name) := key_of_record (Option.mem_toList.mp hdue)
        exact hkey (hk.symm.trans (of_decide_eq_true hrkey))
      rw [hlast] at ih
      rw [hnone, List.map_nil, List.nil_append]
      exact ih

/-- Instants a window apart between two others are no more than the windows
that fit. -/
theorem length_of_spaced {window : Nat} (first last : Nat) (hwindow : 0 < window)
    {l : List Nat} (hspaced : l.IsChain fun a b => window ≤ b - a)
    (hl : ∀ a ∈ l, first ≤ a ∧ a ≤ last) :
    l.length ≤ (last - first) / window + 1 := by
  have hmul : l.length * window ≤ last - first + window := by
    induction l generalizing first with
    | nil => simp
    | cons a l ih =>
      obtain ⟨ha, halast⟩ := hl a List.mem_cons_self
      cases l with
      | nil => simp
      | cons b l =>
        obtain ⟨hab, hrest⟩ := List.isChain_cons_cons.mp hspaced
        have hblast : b ≤ last := (hl b (by simp)).2
        -- the rest lies after `b`, which is a window past `a`
        have hafter : ∀ x ∈ b :: l, b ≤ x := by
          have hlt : (b :: l).IsChain (· < ·) := hrest.imp fun x y h => by omega
          intro x hx
          rcases List.mem_cons.mp hx with rfl | hx
          · exact Nat.le_refl x
          · exact Nat.le_of_lt (hlt.rel_cons hx)
        have hmul := ih _ hrest fun x hx => ⟨hafter x hx, (hl x (List.mem_cons_of_mem a hx)).2⟩
        rw [List.length_cons, Nat.succ_mul]
        omega
  calc l.length = l.length * window / window := (Nat.mul_div_cancel _ hwindow).symm
    _ ≤ (last - first + window) / window := Nat.div_le_div_right hmul
    _ = (last - first) / window + 1 := Nat.add_div_right _ hwindow

/-- A list whose every element is of one of the keys, none of which has more
than so many. -/
theorem length_le_of_keys {α κ : Type} [DecidableEq κ] (key : α → κ) {keys : List κ} {xs : List α}
    {most : Nat} (hmem : ∀ x ∈ xs, key x ∈ keys)
    (hmost : ∀ k, (xs.filter fun x => key x = k).length ≤ most) :
    xs.length ≤ keys.length * most := by
  induction keys generalizing xs with
  | nil =>
    have hnil : xs = [] := List.eq_nil_iff_forall_not_mem.mpr fun x hx => by simpa using hmem x hx
    simp [hnil]
  | cons k keys ih =>
    have hrest := @ih (xs.filter fun x => key x ≠ k)
      (fun x hx => by
        obtain ⟨hx, hne⟩ := List.mem_filter.mp hx
        exact (List.mem_cons.mp (hmem x hx)).resolve_left (by simpa using hne))
      (fun k' => by
        rw [List.filter_filter, ← List.countP_eq_length_filter]
        refine Nat.le_trans (List.countP_mono_left fun x _ h => ?_)
          (List.countP_eq_length_filter ▸ hmost k')
        exact (Bool.and_eq_true_iff.mp h).1)
    have hk := hmost k
    have hsplit := List.length_eq_countP_add_countP (fun x => decide (key x = k)) (l := xs)
    simp only [List.countP_eq_length_filter, decide_not, decide_eq_true_eq] at hsplit hrest hk
    rw [List.length_cons, Nat.succ_mul]
    omega

theorem recordAll_within {first last : Nat} (h : ∀ c ∈ calls, first ≤ c.now ∧ c.now ≤ last)
    {r : Nat × Report} (hr : r ∈ (t.recordAll calls).2) : first ≤ r.1 ∧ r.1 ≤ last := by
  induction calls generalizing t with
  | nil => simp [Tally.recordAll] at hr
  | cons c calls ih =>
    rcases List.mem_append.mp hr with hr | hr
    · obtain ⟨due, -, rfl⟩ := List.mem_map.mp hr
      exact h c List.mem_cons_self
    · exact ih (fun c' hc' => h c' (List.mem_cons_of_mem c hc')) hr

/-- **Coalescing conserves refusals**: for every run of calls ended by a
flush, the reports fold into one row for each thing recorded, which counts
how often it was; a row's reports, the flush aside, are a window apart, so
there are no more of them than rows times the windows that passed. -/
theorem reportsOf_coalesce (window : Nat) (calls : List Call) (close : Nat) (spec : SessionSpec)
    (ats : Nat → String) :
    ((fromLog spec (denials ats (reportsOf window calls close))).sandbox.denied.map
        Denied.key).Nodup ∧
      (∀ cls name,
        (∃ d ∈ (fromLog spec (denials ats (reportsOf window calls close))).sandbox.denied,
          d.key = (cls, name)) ↔ ∃ c ∈ calls, c.key = (cls, name)) ∧
      (∀ d ∈ (fromLog spec (denials ats (reportsOf window calls close))).sandbox.denied,
        d.count = calls.countP (·.key = d.key)) ∧
      (∀ cls name, (instants cls name ((Tally.new window).recordAll calls).2).IsChain
        fun a b => window ≤ b - a) ∧
      ∀ first last, 0 < window → (∀ c ∈ calls, first ≤ c.now ∧ c.now ≤ last) →
        ((Tally.new window).recordAll calls).2.length ≤
          (fromLog spec (denials ats (reportsOf window calls close))).sandbox.denied.length *
            ((last - first) / window + 1) := by
  have hspaced (cls name : String) :
      (instants cls name ((Tally.new window).recordAll calls).2).IsChain
        fun a b => window ≤ b - a :=
    recordAll_spaced (t := Tally.new window)
  refine ⟨fromLog_shaped.rows, fun cls name => ?_, fun d hd => ?_, hspaced, ?_⟩
  · exact exists_row_denials.trans exists_report_iff
  · exact (row_denials hd).trans (reportsOf_conserves ..)
  · intro first last hwindow hcalls
    rw [← List.length_map (f := Denied.key)]
    refine length_le_of_keys (fun r : Nat × Report => r.2.key) (fun r hr => ?_) fun k => ?_
    · have hmem : r.2 ∈ reportsOf window calls close :=
        List.mem_append_left _ (List.mem_map.mpr ⟨r, hr, rfl⟩)
      obtain ⟨d, hd, hkey⟩ : ∃ d ∈ (fromLog spec
          (denials ats (reportsOf window calls close))).sandbox.denied, d.key = r.2.key :=
        exists_row_denials.mpr ⟨r.2, hmem, rfl⟩
      exact List.mem_map.mpr ⟨d, hd, hkey⟩
    · have hlen := length_of_spaced first last hwindow (hspaced k.1 k.2)
        fun a ha => by
          obtain ⟨r, hr, rfl⟩ := List.mem_map.mp ha
          exact recordAll_within hcalls (List.mem_filter.mp hr).1
      rwa [instants, List.length_map] at hlen

end Sessions
end Willie
