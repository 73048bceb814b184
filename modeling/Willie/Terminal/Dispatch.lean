import Willie.Terminal.Reread

/-!
# The terminal filter — one byte, dispatch by dispatch

`step` of the source calls itself where a state hands its byte on. Here one
call is one `dispatch`, which says what it pushes and whether the byte is
handed on, and `stepWithin` runs a bounded number of them. Every dispatch
keeps the filter well-formed, and three are enough for any byte
(`feedChunks_wellFormed`).
-/

namespace Willie

namespace Terminal

/-- The most bytes the identify buffer holds. -/
def State.cap : State → ℕ
  | .csi => csiCap
  | .oscId | .dcsId => oscIdCap
  | _ => 0

/-- What a sequence that is being identified was opened with. -/
def State.introducers : State → List (List UInt8)
  | .csi => [[0x1b, 0x5b], [0xc2, 0x9b]]
  | .oscId => [[0x1b, 0x5d], [0xc2, 0x9d]]
  | .dcsId => [[0x1b, 0x50], [0xc2, 0x90]]
  | _ => [[]]

/-- `csi_decision` with its slice: none if the introducer it cuts off is not
there. -/
def csiDecisionSliced (held : List UInt8) (finalByte : UInt8) : Option (Option Drop) :=
  if finalByte = 0x74 ∧ held.length < 2 then none else some (csiDecision held finalByte)

/-- What one call of `step` does: the bytes and names it pushes itself, and
whether it ends by calling `step` again. -/
structure Dispatched where
  fed : Fed
  again : Bool
  deriving DecidableEq, Repr

namespace VtFilter

/-- **The filter's state is well-formed**: the buffer is within its state's
cap, starts with an introducer of the sequence it is to identify, and is
frozen exactly at the cap; the number fits a `u32`. -/
structure WellFormed (f : VtFilter) : Prop where
  bounded : f.buf.length ≤ f.state.cap
  introduced : ∃ intro ∈ f.state.introducers, intro <+: f.buf
  frozen : Identifying f.state → (f.frozen = true ↔ f.buf.length = f.state.cap)
  number : f.oscNum ≤ u32Max

/-- The byte is done with. -/
def done (f : VtFilter) (out : List UInt8) (dropped : List Drop) : Option Dispatched :=
  some ⟨⟨f, out, dropped⟩, false⟩

/-- The byte is handed to the state that `f` is in. -/
def handOn (f : VtFilter) (out : List UInt8) (dropped : List Drop) : Option Dispatched :=
  some ⟨⟨f, out, dropped⟩, true⟩

/-- One call of `step`, up to the call it may end with; none if it panics. -/
def dispatch (f : VtFilter) (b : UInt8) : Option Dispatched :=
  match f.state with
  | .ground =>
    if b = 0x1b then { f with state := .esc }.done [] []
    else if b = 0xc2 then { f with state := .utf8C2 }.done [] []
    else f.done [b] []
  | .utf8C2 =>
    if b = 0x9b then (f.openSeq [0xc2, 0x9b] .csi).done [] []
    else if b = 0x9d then (f.openSeq [0xc2, 0x9d] .oscId).done [] []
    else if b = 0x90 then (f.openSeq [0xc2, 0x90] .dcsId).done [] []
    else if isContinuation b then { f with state := .ground }.done [0xc2, b] []
    else { f with state := .ground }.handOn [0xc2] []
  | .esc =>
    if b = 0x5b then (f.openSeq [0x1b, 0x5b] .csi).done [] []
    else if b = 0x5d then (f.openSeq [0x1b, 0x5d] .oscId).done [] []
    else if b = 0x50 then (f.openSeq [0x1b, 0x50] .dcsId).done [] []
    else { f with state := .ground }.handOn [0x1b] []
  | .csi =>
    if isFinal b then
      (csiDecisionSliced f.buf b).bind fun
        | some name => f.closeCsi.done [] [name]
        | none => if f.csiOver then f.closeCsi.done [] [] else f.closeCsi.done (f.buf ++ [b]) []
    else if isParam b then
      if f.csiOver then f.done [] []
      else { f with
        buf := f.buf ++ [b]
        csiOver := decide (csiCap ≤ f.buf.length + 1) }.done [] []
    else if isC0 b then f.done [b] []
    else if b = 0x7f then f.done [] []
    else f.closeCsi.handOn (if f.csiOver then [] else f.buf) []
  | .oscId =>
    if isDigit b then
      let g := { f with
        oscSeen := true
        oscNum := saturatingAdd (saturatingMul f.oscNum 10) (digitValue b) }
      if f.oscOver then g.done [] []
      else { g with
        buf := f.buf ++ [b]
        oscOver := decide (oscIdCap ≤ f.buf.length + 1) }.done [] []
    else if oscSkips b then f.done [] []
    else
      let terminator : Bool := b == 0x07 || b == 0x1b || b == 0xc2
      match oscDecision f.oscSeen f.oscNum with
      | some name =>
        if terminator then (f.enterStr true true).handOn [] [name]
        else (f.enterStr true true).done [] [name]
      | none =>
        if f.oscOver then
          if terminator then (f.enterStr true true).handOn [] []
          else (f.enterStr true true).done [] []
        else (f.enterStr false true).handOn f.buf []
  | .dcsId =>
    if isParam b then
      if f.dcsOver then f.done [] []
      else { f with
        buf := f.buf ++ [b]
        dcsOver := decide (oscIdCap ≤ f.buf.length + 1) }.done [] []
    else if isFinal b then
      if f.dcsDrops b then (f.enterStr true false).done [] [.queryEcho]
      else (f.enterStr false false).done (f.buf ++ [b]) []
    else if dcsSkips b then f.done [] []
    else if f.dcsOver then (f.enterStr true false).handOn [] [.queryEcho]
    else (f.enterStr false false).handOn f.buf []
  | .str =>
    if b = 0x07 ∧ f.strBel then
      { f with state := .ground }.done (if f.strDrop then [] else [0x07]) []
    else if b = 0x1b then { f with state := .strEsc }.done [] []
    else if b = 0xc2 then { f with state := .strC2 }.done [] []
    else f.done (if f.strDrop then [] else [b]) []
  | .strEsc =>
    if b = 0x5c then { f with state := .ground }.done (if f.strDrop then [] else [0x1b, 0x5c]) []
    else { f with state := .esc }.handOn [] []
  | .strC2 =>
    if b = 0x9c then { f with state := .ground }.done (if f.strDrop then [] else [0xc2, 0x9c]) []
    else if isContinuation b then
      { f with state := .str }.done (if f.strDrop then [] else [0xc2, b]) []
    else { f with state := .str }.handOn (if f.strDrop then [] else [0xc2]) []

/-- `step` with a bounded number of calls; none if they are not enough, or one
panics. -/
def stepWithin : ℕ → VtFilter → UInt8 → Option Fed
  | 0, _, _ => none
  | n + 1, f, b =>
    (f.dispatch b).bind fun call =>
      if call.again then
        (call.fed.filter.stepWithin n b).map (Fed.after call.fed.out call.fed.dropped)
      else some call.fed

variable {f : VtFilter} {b : UInt8} {n : ℕ} {call : Dispatched} {r : Fed}

/-! ## What a dispatch preserves -/

theorem WellFormed.buf_nil (h : WellFormed f) (hs : ¬ Identifying f.state) : f.buf = [] := by
  have hcap : f.state.cap = 0 := by
    cases hstate : f.state <;> first | rfl | simp [hstate, Identifying] at hs
  have hbounded := h.bounded
  rw [hcap] at hbounded
  exact List.length_eq_zero_iff.mp (Nat.le_zero.mp hbounded)

theorem wellFormed_empty (hs : ¬ Identifying f.state) (hbuf : f.buf = [])
    (hnum : f.oscNum ≤ u32Max) : WellFormed f where
  bounded := by simp [hbuf]
  introduced := by
    refine ⟨[], ?_, List.nil_prefix⟩
    cases hstate : f.state <;>
      first | exact List.mem_singleton.mpr rfl | simp [hstate, Identifying] at hs
  frozen := fun hid => absurd hid hs
  number := hnum

theorem wellFormed_open {intro : List UInt8} {s : State} (hs : Identifying s)
    (hi : intro ∈ s.introducers) : WellFormed (f.openSeq intro s) where
  bounded := by
    show intro.length ≤ s.cap
    rcases hs with rfl | rfl | rfl <;>
      simp [State.introducers] at hi <;> rcases hi with rfl | rfl <;> decide
  introduced := ⟨intro, hi, List.prefix_rfl⟩
  frozen := by
    intro
    rcases hs with rfl | rfl | rfl <;>
      simp [State.introducers] at hi <;> rcases hi with rfl | rfl <;>
        simp [openSeq, VtFilter.frozen, State.cap, csiCap, oscIdCap]
  number := Nat.zero_le _

/-- A byte kept beside the held ones freezes the buffer once it is full. -/
theorem WellFormed.push {f' : VtFilter} (h : WellFormed f) (hs : Identifying f.state)
    (hopen : f.frozen = false) (hstate : f'.state = f.state) (hbuf : f'.buf = f.buf ++ [b])
    (hfrozen : f'.frozen = decide (f.state.cap ≤ f.buf.length + 1)) (hnum : f'.oscNum ≤ u32Max) :
    WellFormed f' := by
  have hlt : f.buf.length < f.state.cap := by
    have hne : f.buf.length ≠ f.state.cap := fun heq => by
      simp [(h.frozen hs).mpr heq] at hopen
    exact lt_of_le_of_ne h.bounded hne
  obtain ⟨intro, hintro, hprefix⟩ := h.introduced
  refine ⟨?_, ⟨intro, hstate ▸ hintro, ?_⟩, fun _ => ?_, hnum⟩
  · rw [hstate, hbuf, List.length_append, List.length_singleton]
    omega
  · rw [hbuf]
    exact hprefix.trans (List.prefix_append _ _)
  · rw [hfrozen, hstate, hbuf, List.length_append, List.length_singleton, decide_eq_true_iff]
    omega

/-- Outside the buffer and the flags nothing matters. -/
theorem WellFormed.congr {f' : VtFilter} (h : WellFormed f) (hstate : f'.state = f.state)
    (hbuf : f'.buf = f.buf) (hfrozen : f'.frozen = f.frozen) (hnum : f'.oscNum ≤ u32Max) :
    WellFormed f' where
  bounded := by rw [hstate, hbuf]; exact h.bounded
  introduced := by rw [hstate, hbuf]; exact h.introduced
  frozen := by rw [hstate, hbuf, hfrozen]; exact h.frozen
  number := hnum

theorem saturatingAdd_le (a c : ℕ) : saturatingAdd a c ≤ u32Max := Nat.min_le_right _ _

theorem WellFormed.closeCsi (h : WellFormed f) : WellFormed f.closeCsi :=
  wellFormed_empty (by simp [VtFilter.closeCsi, Identifying]) rfl h.number

theorem WellFormed.enterStr (h : WellFormed f) (drop bel : Bool) :
    WellFormed (f.enterStr drop bel) :=
  wellFormed_empty (by simp [VtFilter.enterStr, Identifying]) rfl h.number

/-- From a state that holds nothing to another. -/
theorem WellFormed.goes (h : WellFormed f) {s : State} (hs : ¬ Identifying f.state)
    (hs' : ¬ Identifying s) : WellFormed { f with state := s } :=
  wellFormed_empty hs' (h.buf_nil hs) h.number

/-- **Every dispatch keeps the filter well-formed**, also where it hands the
byte on. -/
theorem WellFormed.dispatch (h : WellFormed f) (hd : f.dispatch b = some call) :
    WellFormed call.fed.filter := by
  unfold VtFilter.dispatch done handOn at hd
  cases hs : f.state with
  | ground =>
    have hid : ¬ Identifying f.state := by simp [hs, Identifying]
    simp only [hs] at hd
    split_ifs at hd <;> obtain rfl := Option.some.inj hd
    · exact h.goes hid (by simp [Identifying])
    · exact h.goes hid (by simp [Identifying])
    · exact h
  | utf8C2 =>
    have hid : ¬ Identifying f.state := by simp [hs, Identifying]
    simp only [hs] at hd
    split_ifs at hd <;> obtain rfl := Option.some.inj hd
    · exact wellFormed_open (by simp [Identifying]) (by decide)
    · exact wellFormed_open (by simp [Identifying]) (by decide)
    · exact wellFormed_open (by simp [Identifying]) (by decide)
    · exact h.goes hid (by simp [Identifying])
    · exact h.goes hid (by simp [Identifying])
  | esc =>
    have hid : ¬ Identifying f.state := by simp [hs, Identifying]
    simp only [hs] at hd
    split_ifs at hd <;> obtain rfl := Option.some.inj hd
    · exact wellFormed_open (by simp [Identifying]) (by decide)
    · exact wellFormed_open (by simp [Identifying]) (by decide)
    · exact wellFormed_open (by simp [Identifying]) (by decide)
    · exact h.goes hid (by simp [Identifying])
  | csi =>
    have hid : Identifying f.state := by simp [hs, Identifying]
    simp only [hs] at hd
    split at hd
    · -- a final byte closes the sequence, whatever is made of it
      obtain ⟨decision, -, hd⟩ := Option.bind_eq_some_iff.mp hd
      cases decision with
      | some name =>
        obtain rfl := Option.some.inj hd
        exact h.closeCsi
      | none =>
        simp only at hd
        split_ifs at hd <;> obtain rfl := Option.some.inj hd <;> exact h.closeCsi
    · split at hd
      · split at hd <;> obtain rfl := Option.some.inj hd
        · exact h
        · rename_i hover
          exact h.push hid (by simpa [VtFilter.frozen, hs] using hover) hs.symm rfl
            (by simp [VtFilter.frozen, hs, State.cap]) h.number
      · split_ifs at hd <;> obtain rfl := Option.some.inj hd <;>
          first | exact h | exact h.closeCsi
  | oscId =>
    have hid : Identifying f.state := by simp [hs, Identifying]
    simp only [hs] at hd
    split at hd
    · split at hd <;> obtain rfl := Option.some.inj hd
      · exact h.congr hs.symm rfl (by simp [VtFilter.frozen, hs]) (saturatingAdd_le _ _)
      · rename_i hover
        exact h.push hid (by simpa [VtFilter.frozen, hs] using hover) hs.symm rfl
          (by simp [VtFilter.frozen, hs, State.cap]) (saturatingAdd_le _ _)
    · split at hd
      · obtain rfl := Option.some.inj hd
        exact h
      · -- every way out of the number enters the string
        cases hdecision : oscDecision f.oscSeen f.oscNum with
        | some name =>
          simp only [hdecision] at hd
          split_ifs at hd <;> obtain rfl := Option.some.inj hd <;> exact h.enterStr _ _
        | none =>
          simp only [hdecision] at hd
          split_ifs at hd <;> obtain rfl := Option.some.inj hd <;> exact h.enterStr _ _
  | dcsId =>
    have hid : Identifying f.state := by simp [hs, Identifying]
    simp only [hs] at hd
    split at hd
    · split at hd <;> obtain rfl := Option.some.inj hd
      · exact h
      · rename_i hover
        exact h.push hid (by simpa [VtFilter.frozen, hs] using hover) hs.symm rfl
          (by simp [VtFilter.frozen, hs, State.cap]) h.number
    · split_ifs at hd <;> obtain rfl := Option.some.inj hd <;>
        first | exact h | exact h.enterStr _ _
  | str =>
    have hid : ¬ Identifying f.state := by simp [hs, Identifying]
    simp only [hs] at hd
    split_ifs at hd <;> obtain rfl := Option.some.inj hd <;>
      first | exact h | exact h.goes hid (by simp [Identifying])
  | strEsc =>
    have hid : ¬ Identifying f.state := by simp [hs, Identifying]
    simp only [hs] at hd
    split_ifs at hd <;> obtain rfl := Option.some.inj hd <;>
      exact h.goes hid (by simp [Identifying])
  | strC2 =>
    have hid : ¬ Identifying f.state := by simp [hs, Identifying]
    simp only [hs] at hd
    split_ifs at hd <;> obtain rfl := Option.some.inj hd <;>
      exact h.goes hid (by simp [Identifying])

/-! ## How many dispatches a byte takes -/

theorem stepWithin_done {g : VtFilter} {out : List UInt8} {dropped : List Drop}
    (h : f.dispatch b = g.done out dropped) : f.stepWithin (n + 1) b = some ⟨g, out, dropped⟩ := by
  rw [stepWithin, h]
  rfl

theorem stepWithin_handOn {g : VtFilter} {out : List UInt8} {dropped : List Drop}
    (h : f.dispatch b = g.handOn out dropped) :
    f.stepWithin (n + 1) b = (g.stepWithin n b).map (Fed.after out dropped) := by
  rw [stepWithin, h]
  rfl

/-- The buffer of a CSI has the introducer that is cut off it. -/
theorem WellFormed.csiDecisionSliced_eq (h : WellFormed f) (hs : f.state = .csi) :
    csiDecisionSliced f.buf b = some (csiDecision f.buf b) := by
  obtain ⟨intro, hintro, hprefix⟩ := h.introduced
  have hlen : intro.length = 2 := by
    rw [hs] at hintro
    simp [State.introducers] at hintro
    rcases hintro with rfl | rfl <;> rfl
  have hle := hprefix.length_le
  exact if_neg fun hshort => by omega

theorem stepWithin_ground (hs : f.state = .ground) :
    f.stepWithin (n + 1) b = some (f.stepGround b) := by
  have hself : { f with state := .ground } = f := by rw [← hs]
  unfold stepGround
  split_ifs with hesc hc2
  · exact stepWithin_done (by simp [VtFilter.dispatch, hs, hesc])
  · exact stepWithin_done (by simp [VtFilter.dispatch, hs, hc2])
  · rw [hself]
    exact stepWithin_done (by simp [VtFilter.dispatch, hs, hesc, hc2])

theorem stepWithin_str (hs : f.state = .str) :
    f.stepWithin (n + 1) b = some (f.stepStr b) := by
  have hself : { f with state := .str } = f := by rw [← hs]
  unfold stepStr
  split_ifs with hbel hdrop hesc hc2 hdrop
  · exact stepWithin_done (by simp [VtFilter.dispatch, hs, hbel, hdrop])
  · exact stepWithin_done (by simp [VtFilter.dispatch, hs, hbel, hdrop])
  · exact stepWithin_done (by simp [VtFilter.dispatch, hs, hesc])
  · exact stepWithin_done (by simp [VtFilter.dispatch, hs, hc2])
  · rw [hself]
    exact stepWithin_done (by simp [VtFilter.dispatch, hs, hbel, hesc, hc2, hdrop])
  · rw [hself]
    exact stepWithin_done (by simp [VtFilter.dispatch, hs, hbel, hesc, hc2, hdrop])

/-- A byte that is handed on to ground takes one dispatch more. -/
theorem stepWithin_to_ground {g : VtFilter} {out : List UInt8} {dropped : List Drop}
    (h : f.dispatch b = g.handOn out dropped) (hg : g.state = .ground) :
    f.stepWithin (n + 2) b = some ((g.stepGround b).after out dropped) := by
  rw [stepWithin_handOn h, stepWithin_ground hg]
  rfl

theorem stepWithin_to_str {g : VtFilter} {out : List UInt8} {dropped : List Drop}
    (h : f.dispatch b = g.handOn out dropped) (hg : g.state = .str) :
    f.stepWithin (n + 2) b = some ((g.stepStr b).after out dropped) := by
  rw [stepWithin_handOn h, stepWithin_str hg]
  rfl

theorem stepWithin_esc (hs : f.state = .esc) :
    f.stepWithin (n + 2) b = some (f.stepEsc b) := by
  unfold stepEsc
  split_ifs with hcsi hosc hdcs
  · exact stepWithin_done (by simp [VtFilter.dispatch, hs, hcsi])
  · exact stepWithin_done (by simp [VtFilter.dispatch, hs, hosc])
  · exact stepWithin_done (by simp [VtFilter.dispatch, hs, hdcs])
  · have hhand : f.dispatch b = { f with state := .ground }.handOn [0x1b] [] := by
      simp [VtFilter.dispatch, hs, hcsi, hosc, hdcs]
    rw [stepWithin_to_ground hhand rfl]
    rfl

theorem stepWithin_utf8C2 (hs : f.state = .utf8C2) :
    f.stepWithin (n + 2) b = some (f.stepUtf8C2 b) := by
  unfold stepUtf8C2
  split_ifs with hcsi hosc hdcs hchar
  · exact stepWithin_done (by simp [VtFilter.dispatch, hs, hcsi])
  · exact stepWithin_done (by simp [VtFilter.dispatch, hs, hosc])
  · exact stepWithin_done (by simp [VtFilter.dispatch, hs, hdcs])
  · exact stepWithin_done (by simp [VtFilter.dispatch, hs, hcsi, hosc, hdcs, hchar])
  · have hhand : f.dispatch b = { f with state := .ground }.handOn [0xc2] [] := by
      simp [VtFilter.dispatch, hs, hcsi, hosc, hdcs, hchar]
    rw [stepWithin_to_ground hhand rfl]
    rfl

theorem stepWithin_csi (h : WellFormed f) (hs : f.state = .csi) :
    f.stepWithin (n + 2) b = some (f.stepCsi b) := by
  have hdecided := h.csiDecisionSliced_eq (b := b) hs
  rcases csi_classes b with hfinal | hparam | hc0 | rfl | ⟨hfinal, hparam, hc0, hdel⟩
  · cases hdecision : csiDecision f.buf b <;> cases hover : f.csiOver <;>
      simp [stepWithin, VtFilter.dispatch, done, stepCsi, hs, hfinal, hdecided, hdecision, hover]
  · have hfinal : isFinal b = false := by grind [isParam, isFinal]
    cases hover : f.csiOver <;>
      simp [stepWithin, VtFilter.dispatch, done, stepCsi, hs, hfinal, hparam, hover]
  · have hfinal : isFinal b = false := by grind [isC0, isFinal]
    have hparam : isParam b = false := by grind [isC0, isParam]
    rw [stepCsi_c0 hc0]
    exact stepWithin_done (by simp [VtFilter.dispatch, hs, hfinal, hparam, hc0])
  · rw [stepCsi_del]
    exact stepWithin_done (by simp [VtFilter.dispatch, hs, isFinal, isParam, isC0])
  · have hhand : f.dispatch b = f.closeCsi.handOn (if f.csiOver then [] else f.buf) [] := by
      simp [VtFilter.dispatch, hs, hfinal, hparam, hc0, hdel]
    rw [stepWithin_to_ground hhand rfl, stepCsi_cancel hfinal hparam hc0 hdel]

theorem stepWithin_oscId (hs : f.state = .oscId) :
    f.stepWithin (n + 2) b = some (f.stepOscId b) := by
  rcases osc_classes b with hdigit | hskip | ⟨hdigit, hskip⟩
  · cases hover : f.oscOver <;>
      simp [stepWithin, VtFilter.dispatch, done, stepOscId, hs, hdigit, hover]
  · have hdigit : isDigit b = false := by grind [oscSkips, isC0, isDigit]
    rw [stepOscId_skip hskip]
    exact stepWithin_done (by simp [VtFilter.dispatch, hs, hdigit, hskip])
  · -- a byte the dropped string swallows is not handed on
    have hdispatch : f.dispatch b =
        match oscDecision f.oscSeen f.oscNum with
        | some name =>
          if b == 0x07 || b == 0x1b || b == 0xc2 then (f.enterStr true true).handOn [] [name]
          else (f.enterStr true true).done [] [name]
        | none =>
          if f.oscOver then
            if b == 0x07 || b == 0x1b || b == 0xc2 then (f.enterStr true true).handOn [] []
            else (f.enterStr true true).done [] []
          else (f.enterStr false true).handOn f.buf [] := by
      simp only [VtFilter.dispatch, hs, hdigit, hskip, Bool.false_eq_true, if_false]
    rw [stepOscId, if_neg (by simp [hdigit]), if_neg (by simp [hskip])]
    cases hdecision : oscDecision f.oscSeen f.oscNum with
    | some name =>
      simp only [hdecision] at hdispatch ⊢
      split at hdispatch
      · rw [stepWithin_to_str hdispatch rfl, if_pos ‹_›]
      · rw [stepWithin_done hdispatch, if_neg ‹_›]
    | none =>
      simp only [hdecision] at hdispatch ⊢
      split at hdispatch
      · rw [if_pos ‹_›]
        split at hdispatch
        · rw [stepWithin_to_str hdispatch rfl, if_pos ‹_›]
          rfl
        · rw [stepWithin_done hdispatch, if_neg ‹_›]
      · rw [stepWithin_to_str hdispatch rfl, if_neg ‹_›]

theorem stepWithin_dcsId (hs : f.state = .dcsId) :
    f.stepWithin (n + 2) b = some (f.stepDcsId b) := by
  unfold stepDcsId
  split_ifs with hparam hover hfinal hdrops hskip hover
  · exact stepWithin_done (by simp [VtFilter.dispatch, hs, hparam, hover])
  · exact stepWithin_done (by simp [VtFilter.dispatch, hs, hparam, hover])
  · exact stepWithin_done (by simp [VtFilter.dispatch, hs, hparam, hfinal, hdrops])
  · exact stepWithin_done (by simp [VtFilter.dispatch, hs, hparam, hfinal, hdrops])
  · exact stepWithin_done (by simp [VtFilter.dispatch, hs, hparam, hfinal, hskip])
  · have hhand : f.dispatch b = (f.enterStr true false).handOn [] [.queryEcho] := by
      simp [VtFilter.dispatch, hs, hparam, hfinal, hskip, hover]
    exact stepWithin_to_str hhand rfl
  · have hhand : f.dispatch b = (f.enterStr false false).handOn f.buf [] := by
      simp [VtFilter.dispatch, hs, hparam, hfinal, hskip, hover]
    exact stepWithin_to_str hhand rfl

theorem stepWithin_strC2 (hs : f.state = .strC2) :
    f.stepWithin (n + 2) b = some (f.stepStrC2 b) := by
  cases hchar : isContinuation b with
  | true =>
    rw [stepStrC2_char hchar]
    -- the terminator is a continuation byte as well
    by_cases hst : b = 0x9c
    · exact stepWithin_done (by simp [VtFilter.dispatch, hs, hst])
    · exact stepWithin_done (by simp [VtFilter.dispatch, hs, hst, hchar])
  | false =>
    have hst : b ≠ 0x9c := by grind [isContinuation]
    have hhand : f.dispatch b =
        { f with state := .str }.handOn (if f.strDrop then [] else [0xc2]) [] := by
      simp [VtFilter.dispatch, hs, hst, hchar]
    rw [stepWithin_to_str hhand rfl, stepStrC2_other hchar]

/-- The longest way: `ESC` in a string, then a byte that opens no sequence. -/
theorem stepWithin_strEsc (hs : f.state = .strEsc) :
    f.stepWithin (n + 3) b = some (f.stepStrEsc b) := by
  unfold stepStrEsc
  split_ifs with hst hdrop
  · exact stepWithin_done (by simp [VtFilter.dispatch, hs, hst, hdrop])
  · exact stepWithin_done (by simp [VtFilter.dispatch, hs, hst, hdrop])
  · have hhand : f.dispatch b = { f with state := .esc }.handOn [] [] := by
      simp [VtFilter.dispatch, hs, hst]
    rw [stepWithin_handOn hhand, stepWithin_esc rfl]
    rfl

/-- **Three dispatches are enough** for any byte, none of which panics. -/
theorem stepWithin_eq (h : WellFormed f) (b : UInt8) : f.stepWithin 3 b = some (f.step b) := by
  unfold step
  cases hs : f.state with
  | ground => exact stepWithin_ground hs
  | utf8C2 => exact stepWithin_utf8C2 hs
  | esc => exact stepWithin_esc hs
  | csi => exact stepWithin_csi h hs
  | oscId => exact stepWithin_oscId hs
  | dcsId => exact stepWithin_dcsId hs
  | str => exact stepWithin_str hs
  | strEsc => exact stepWithin_strEsc hs
  | strC2 => exact stepWithin_strC2 hs

/-! ## Runs -/

theorem stepWithin_wellFormed (h : WellFormed f) (hr : f.stepWithin n b = some r) :
    WellFormed r.filter := by
  induction n generalizing f r with
  | zero => cases hr
  | succ n ih =>
    -- also the state that the byte is handed on in is well-formed
    obtain ⟨call, hcall, hr⟩ := Option.bind_eq_some_iff.mp hr
    have hkept : WellFormed call.fed.filter := h.dispatch hcall
    split at hr
    · obtain ⟨r', hr', rfl⟩ := Option.map_eq_some_iff.mp hr
      show WellFormed r'.filter
      exact ih hkept hr'
    · obtain rfl := Option.some.inj hr
      exact hkept

theorem WellFormed.step (h : WellFormed f) (b : UInt8) : WellFormed (f.step b).filter :=
  stepWithin_wellFormed h (stepWithin_eq h b)

theorem WellFormed.feed (h : WellFormed f) (input : List UInt8) :
    WellFormed (f.feed input).filter := by
  induction input generalizing f with
  | nil => exact h
  | cons b input ih => exact ih (h.step b)

theorem wellFormed_new : WellFormed new :=
  wellFormed_empty (by simp [new, Identifying]) rfl (Nat.zero_le _)

/-- **The filter's state is always well-formed**, whatever it was fed in
whatever chunks: and so the next byte, whichever it is, takes three dispatches
at most, and no slice is out of range. -/
theorem feedChunks_wellFormed (chunks : List (List UInt8)) :
    WellFormed (new.feedChunks chunks).filter ∧
    ∀ b, (new.feedChunks chunks).filter.stepWithin 3 b =
      some ((new.feedChunks chunks).filter.step b) := by
  have hkept : WellFormed (new.feedChunks chunks).filter := by
    rw [feedChunks_eq]
    exact wellFormed_new.feed _
  exact ⟨hkept, stepWithin_eq hkept⟩

end VtFilter

end Terminal

end Willie
