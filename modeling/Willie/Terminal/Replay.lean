import Mathlib.Data.List.Induction
import Willie.Terminal.Reread
/-!
# The replay ring

`Ring` of `screen.rs` keeps the tail of the session's output and replays
it to a terminal that attaches late. The terminal starts in ground
wherever the ring cut. A sequence it identifies was identified by a
reader of the whole stream too, unless its introducer was a `C2`
character of a string there (`replay_quiet_iff`).
-/

namespace Willie

namespace Terminal

/-- `Ring`: the tail of the session's output. -/
structure Ring where
  buf : List UInt8
  cap : ℕ
  deriving DecidableEq, Repr

namespace Ring

/-- `Ring::new`. -/
def new (cap : ℕ) : Ring := ⟨[], cap⟩

/-- `Ring::push`. -/
def push (r : Ring) (bytes : List UInt8) : Ring :=
  let buf := r.buf ++ bytes
  let excess := buf.length - r.cap
  { r with buf := if 0 < excess then buf.drop excess else buf }

/-- `Ring::snapshot`. -/
def snapshot (r : Ring) : List UInt8 := r.buf

/-- A push keeps the last `cap` bytes. -/
theorem push_buf (r : Ring) (bytes : List UInt8) :
    (r.push bytes).buf = (r.buf ++ bytes).drop ((r.buf ++ bytes).length - r.cap) := by
  unfold push
  by_cases h : 0 < (r.buf ++ bytes).length - r.cap
  · simp only [h, if_true]
  · simp only [h, if_false]
    rw [Nat.eq_zero_of_not_pos h, List.drop_zero]

@[simp] theorem push_cap (r : Ring) (bytes : List UInt8) : (r.push bytes).cap = r.cap := rfl

/-- **What a ring holds.** After any pushes it is the last `cap` bytes of
all that was pushed. -/
theorem snapshot_foldl_push (cap : ℕ) (chunks : List (List UInt8)) :
    (chunks.foldl push (new cap)).snapshot =
      chunks.flatten.drop (chunks.flatten.length - cap) := by
  suffices h : ∀ (r : Ring) (u : List UInt8), r.buf = u.drop (u.length - r.cap) →
      (chunks.foldl push r).buf =
        (u ++ chunks.flatten).drop ((u ++ chunks.flatten).length - r.cap) by
    simpa [new, snapshot] using h (new cap) [] (by simp [new])
  induction chunks with
  | nil => intro r u h; simpa using h
  | cons chunk chunks ih =>
    intro r u h
    have hpush : (r.push chunk).buf =
        (u ++ chunk).drop ((u ++ chunk).length - (r.push chunk).cap) := by
      rw [push_buf, h, push_cap, ← List.drop_append_of_le_length (Nat.sub_le _ _), List.drop_drop]
      congr 1
      simp only [List.length_drop, List.length_append]
      omega
    simpa [List.append_assoc] using ih (r.push chunk) (u ++ chunk) hpush

end Ring

/-! ## The sequences a C2 spells

What a reader in ground makes of the bytes after a `C2`, read off the
bytes alone: whether they open a sequence that is recorded when it is
decided. -/

/-- A CSI that is recorded: `held` is its introducer and the parameters
kept so far. -/
def spellsCsi (held : List UInt8) : List UInt8 → Bool
  | [] => false
  | b :: bytes =>
    if isFinal b then (csiDecision held b).isSome
    else if isParam b then spellsCsi (if held.length < csiCap then held ++ [b] else held) bytes
    else if isC0 b || b == 0x7f then spellsCsi held bytes
    else false

/-- An OSC that is recorded, `num` being its number so far. -/
def spellsOsc (seen : Bool) (num : ℕ) : List UInt8 → Bool
  | [] => false
  | b :: bytes =>
    if isDigit b then spellsOsc true (saturatingAdd (saturatingMul num 10) (digitValue b)) bytes
    else if oscSkips b then spellsOsc seen num bytes
    else (oscDecision seen num).isSome

/-- A DCS that is recorded: an echo query, or a window over its cap. -/
def spellsDcs (held : List UInt8) : List UInt8 → Bool
  | [] => false
  | b :: bytes =>
    if isParam b then spellsDcs (if held.length < oscIdCap then held ++ [b] else held) bytes
    else if isFinal b then
      oscIdCap ≤ held.length ||
        (b == 0x71 && (held.getLast? == some 0x24 || held.getLast? == some 0x2b))
    else if dcsSkips b then spellsDcs held bytes
    else oscIdCap ≤ held.length

/-- After a `C2`, the bytes spell a sequence that is recorded. -/
def spells : List UInt8 → Bool
  | [] => false
  | b :: bytes =>
    if b = 0x9b then spellsCsi [0xc2, 0x9b] bytes
    else if b = 0x9d then spellsOsc false 0 bytes
    else if b = 0x90 then spellsDcs [0xc2, 0x90] bytes
    else false

namespace VtFilter

variable {f g : VtFilter} {b : UInt8} {bytes : List UInt8}

/-- The caps and their flags agree. -/
def Capped (f : VtFilter) : Prop :=
  (f.state = .csi → f.csiOver = decide (csiCap ≤ f.buf.length)) ∧
    (f.state = .dcsId → f.dcsOver = decide (oscIdCap ≤ f.buf.length))

/-- The sequence under identification goes on to be recorded. -/
def spellsOn (f : VtFilter) (bytes : List UInt8) : Bool :=
  match f.state with
  | .csi => spellsCsi f.buf bytes
  | .oscId => spellsOsc f.oscSeen f.oscNum bytes
  | .dcsId => spellsDcs f.buf bytes
  | _ => false

theorem stepGround_not_identifying : ¬ Identifying (f.stepGround b).filter.state := by
  unfold stepGround
  split_ifs <;> simp [Identifying]

theorem stepStr_not_identifying : ¬ Identifying (f.stepStr b).filter.state := by
  unfold stepStr
  split_ifs <;> simp [Identifying]

theorem spellsOn_of_not_identifying (bytes : List UInt8) (h : ¬ Identifying f.state) :
    f.spellsOn bytes = false := by
  simp only [Identifying, not_or] at h
  rcases hs : f.state with _ | _ | _ | _ | _ | _ | _ | _ | _ <;> simp_all [spellsOn]

theorem not_isEmpty_toList {α : Type} (o : Option α) : (!o.toList.isEmpty) = o.isSome := by
  cases o <;> rfl

theorem spellsOn_csi (hs : f.state = .csi) (hover : f.csiOver = decide (csiCap ≤ f.buf.length)) :
    f.spellsOn (b :: bytes) = ((f.decides b).isSome || (f.stepCsi b).filter.spellsOn bytes) := by
  simp only [spellsOn, decides, hs, spellsCsi]
  rcases csi_classes b with hb | hb | hb | rfl | ⟨hf, hp, hc, hd⟩
  · simp [stepCsi_final hb, hb, closeCsi]
  · have hf : isFinal b = false := by grind [isParam, isFinal]
    simp only [stepCsi_param hb, hf, hb, pushCsi, hover]
    by_cases hlen : csiCap ≤ f.buf.length
    · simp [hlen, hs, Nat.not_lt.mpr hlen]
    · simp [hlen, hs, Nat.lt_of_not_le hlen]
  · have hf : isFinal b = false := by grind [isC0, isFinal]
    have hp : isParam b = false := by grind [isC0, isParam]
    simp [stepCsi_c0 hb, hb, hf, hp, hs]
  · simp [stepCsi_del, isFinal, isParam, hs]
  · have hno := spellsOn_of_not_identifying bytes
      (stepGround_not_identifying (f := f.closeCsi) (b := b))
    simp only [spellsOn] at hno
    simp [stepCsi_cancel hf hp hc hd, hf, hp, hc, hd, hno]

theorem spellsOn_osc (hs : f.state = .oscId) :
    f.spellsOn (b :: bytes) = ((f.decides b).isSome || (f.stepOscId b).filter.spellsOn bytes) := by
  simp only [spellsOn, decides, hs, spellsOsc]
  rcases osc_classes b with hb | hb | ⟨hd, hk⟩
  · simp [stepOscId_digit hb, hb, pushOsc, hs]
  · have hd : isDigit b = false := by grind [oscSkips, isC0, isDigit]
    simp [stepOscId_skip hb, hd, hb, hs]
  · have hno := spellsOn_of_not_identifying bytes
      (stepStr_not_identifying (f := f.enterStr f.oscDrops true) (b := b))
    simp only [spellsOn] at hno
    simp [stepOscId_exit hd hk, hd, hk, hno]

theorem spellsOn_dcs (hs : f.state = .dcsId)
    (hover : f.dcsOver = decide (oscIdCap ≤ f.buf.length)) :
    f.spellsOn (b :: bytes) = ((f.decides b).isSome || (f.stepDcsId b).filter.spellsOn bytes) := by
  simp only [spellsOn, decides, hs, spellsDcs]
  rcases dcs_classes b with hb | hb | hb | ⟨hp, hf, hk⟩
  · simp only [stepDcsId_param hb, hb, pushDcs, hover]
    by_cases hlen : oscIdCap ≤ f.buf.length
    · simp [hlen, hs, Nat.not_lt.mpr hlen]
    · simp [hlen, hs, Nat.lt_of_not_le hlen]
  · have hp : isParam b = false := by grind [isParam, isFinal]
    rw [stepDcsId_final hb]
    simp only [hp, hb, enterStr, dcsDrops, hover]
    split_ifs <;> simp_all
  · have hp : isParam b = false := by grind [dcsSkips, isC0, isParam]
    have hf : isFinal b = false := by grind [dcsSkips, isC0, isFinal]
    simp [stepDcsId_skip hb, hp, hf, hb, hs]
  · have hno := spellsOn_of_not_identifying bytes
      (stepStr_not_identifying (f := f.enterStr f.dcsOver false) (b := b))
    simp only [spellsOn] at hno
    by_cases hlen : oscIdCap ≤ f.buf.length <;>
      simp_all [stepDcsId_exit hp hf hk]

/-- **One byte of a spelled sequence**: it is recorded by this byte, or
goes on. -/
theorem spellsOn_cons (hs : Identifying f.state) (hcap : Capped f) :
    f.spellsOn (b :: bytes) =
      (!(f.step b).dropped.isEmpty || (f.step b).filter.spellsOn bytes) := by
  rw [step_dropped, not_isEmpty_toList]
  rcases hs with hs | hs | hs <;> simp only [step, hs]
  · exact spellsOn_csi hs (hcap.1 hs)
  · exact spellsOn_osc hs
  · exact spellsOn_dcs hs (hcap.2 hs)

/-! ## Where a sequence is opened -/

/-- A sequence not under identification before a byte is opened by it. -/
theorem opened (hno : ¬ Identifying f.state) (h : Identifying (f.step b).filter.state) :
    ((f.state = .esc ∨ f.state = .strEsc) ∧ (b = 0x5b ∨ b = 0x5d ∨ b = 0x50)) ∨
      (f.state = .utf8C2 ∧ (b = 0x9b ∨ b = 0x9d ∨ b = 0x90)) := by
  have hesc : ∀ g : VtFilter, Identifying (g.stepEsc b).filter.state →
      b = 0x5b ∨ b = 0x5d ∨ b = 0x50 := by
    intro g hg
    by_contra hb
    rw [stepEsc_other hb] at hg
    exact stepGround_not_identifying hg
  rcases hs : f.state with _ | _ | _ | _ | _ | _ | _ | _ | _ <;> simp only [step, hs] at h
  case ground => exact absurd h stepGround_not_identifying
  case str => exact absurd h stepStr_not_identifying
  case esc => exact Or.inl ⟨Or.inl rfl, hesc f h⟩
  case utf8C2 =>
    refine Or.inr ⟨rfl, ?_⟩
    by_contra hb
    by_cases hc : isContinuation b
    · simp [stepUtf8C2_char hb hc, Identifying] at h
    · rw [stepUtf8C2_other (by simpa using hc)] at h
      exact stepGround_not_identifying h
  case strEsc =>
    refine Or.inl ⟨Or.inr rfl, ?_⟩
    by_cases hst : b = 0x5c
    · simp [hst, stepStrEsc, Identifying] at h
    · rw [stepStrEsc_other hst] at h
      exact hesc _ h
  case strC2 =>
    by_cases hc : isContinuation b
    · rw [stepStrC2_char hc] at h
      by_cases hb : b = 0x9c <;> simp [hb, Identifying] at h
    · rw [stepStrC2_other (by simpa using hc)] at h
      exact absurd h stepStr_not_identifying
  all_goals exact absurd (by simp [Identifying, hs]) hno

/-- An opened sequence is empty. -/
theorem capped_openSeq (a c : UInt8) (s : State) : Capped (f.openSeq [a, c] s) := by
  simp [Capped, openSeq, csiCap, oscIdCap]

theorem capped_of_not_identifying (h : ¬ Identifying f.state) : Capped f := by
  simp only [Identifying, not_or] at h
  exact ⟨fun hs => absurd hs h.1, fun hs => absurd hs h.2.2⟩

/-- The sequence under identification after a byte is the one before it,
grown by the byte at most. -/
theorem identifying_stays (hs : Identifying f.state) (h : Identifying (f.step b).filter.state) :
    (f.step b).filter = f ∨ (f.state = .csi ∧ (f.step b).filter = f.pushCsi b ∧ isParam b) ∨
      (f.state = .oscId ∧ (f.step b).filter = f.pushOsc b ∧ isDigit b) ∨
      (f.state = .dcsId ∧ (f.step b).filter = f.pushDcs b ∧ isParam b) := by
  rcases hs with hs | hs | hs <;> simp only [step, hs] at h ⊢
  · rcases csi_classes b with hb | hb | hb | rfl | ⟨hf, hp, hc, hd⟩
    · simp [stepCsi_final hb, closeCsi, Identifying] at h
    · exact Or.inr (Or.inl ⟨trivial, by rw [stepCsi_param hb], hb⟩)
    · exact Or.inl (by rw [stepCsi_c0 hb])
    · exact Or.inl (by rw [stepCsi_del])
    · rw [stepCsi_cancel hf hp hc hd] at h
      exact absurd h stepGround_not_identifying
  · rcases osc_classes b with hb | hb | ⟨hd, hk⟩
    · exact Or.inr (Or.inr (Or.inl ⟨trivial, by rw [stepOscId_digit hb], hb⟩))
    · exact Or.inl (by rw [stepOscId_skip hb])
    · rw [stepOscId_exit hd hk] at h
      exact absurd h stepStr_not_identifying
  · rcases dcs_classes b with hb | hb | hb | ⟨hp, hf, hk⟩
    · exact Or.inr (Or.inr (Or.inr ⟨trivial, by rw [stepDcsId_param hb], hb⟩))
    · simp [stepDcsId_final hb, enterStr, Identifying] at h
    · exact Or.inl (by rw [stepDcsId_skip hb])
    · rw [stepDcsId_exit hp hf hk] at h
      exact absurd h stepStr_not_identifying

/-- What the byte after an `ESC` opens. -/
theorem esc_step_opens (hb : b = 0x5b ∨ b = 0x5d ∨ b = 0x50) :
    ∃ s, Identifying s ∧ ∀ g : VtFilter, g.state = .esc ∨ g.state = .strEsc →
      (g.step b).filter = g.openSeq [0x1b, b] s := by
  obtain ⟨s, hs, hopen⟩ := esc_opens hb
  refine ⟨s, hs, fun g hg => ?_⟩
  rcases hg with hg | hg <;> simp only [step, hg]
  · rw [(hopen g).1]
  · rw [(hopen g).2]

/-- What the byte after a `C2` opens. -/
theorem c2_step_opens (hb : b = 0x9b ∨ b = 0x9d ∨ b = 0x90) :
    ∃ s, Identifying s ∧ (∀ g : VtFilter, g.state = .utf8C2 →
      (g.step b).filter = g.openSeq [0xc2, b] s) ∧
      ∀ (g : VtFilter) (bytes : List UInt8),
        (g.openSeq [0xc2, b] s).spellsOn bytes = spells (b :: bytes) := by
  rcases hb with rfl | rfl | rfl
  · exact ⟨.csi, Or.inl rfl, fun g hg => by simp [step, hg, stepUtf8C2], fun g bytes => rfl⟩
  · exact ⟨.oscId, Or.inr (Or.inl rfl), fun g hg => by simp [step, hg, stepUtf8C2],
      fun g bytes => rfl⟩
  · exact ⟨.dcsId, Or.inr (Or.inr rfl), fun g hg => by simp [step, hg, stepUtf8C2],
      fun g bytes => rfl⟩

/-- **The caps and their flags stay in agreement.** -/
theorem step_capped (h : Capped f) : Capped (f.step b).filter := by
  by_cases hid : Identifying (f.step b).filter.state
  · by_cases hs : Identifying f.state
    · rcases identifying_stays hs hid with heq | ⟨hs, heq, -⟩ | ⟨hs, heq, -⟩ | ⟨hs, heq, -⟩ <;>
        rw [heq]
      · exact h
      · have hover := h.1 hs
        unfold pushCsi
        split_ifs
        · exact h
        · simp [Capped, hs]
      · simp [Capped, pushOsc, hs]
      · have hover := h.2 hs
        unfold pushDcs
        split_ifs
        · exact h
        · simp [Capped, hs]
    · rcases opened hs hid with ⟨hs, hb⟩ | ⟨hs, hb⟩
      · obtain ⟨s, -, hopen⟩ := esc_step_opens hb
        exact hopen f hs ▸ capped_openSeq _ _ _
      · obtain ⟨s, -, hopen, -⟩ := c2_step_opens hb
        exact hopen f hs ▸ capped_openSeq _ _ _
  · exact capped_of_not_identifying hid

/-- A spelled sequence is recorded. -/
theorem dropped_of_spellsOn (hcap : Capped f) (h : f.spellsOn bytes = true) :
    (f.feed bytes).dropped ≠ [] := by
  induction bytes generalizing f with
  | nil =>
    rcases hs : f.state with _ | _ | _ | _ | _ | _ | _ | _ | _ <;>
      simp [spellsOn, hs, spellsCsi, spellsOsc, spellsDcs] at h
  | cons b bytes ih =>
    have hs : Identifying f.state := by
      by_contra hno
      simp [spellsOn_of_not_identifying _ hno] at h
    rw [spellsOn_cons hs hcap, Bool.or_eq_true_iff] at h
    rw [feed_cons, Fed.after_dropped]
    rcases h with h | h
    · simp_all
    · simp [ih (step_capped hcap) h]

/-! ## The last byte tells where a reader is -/

/-- After an `ESC` every reader looks ahead. -/
theorem step_esc_state (f : VtFilter) :
    (f.step 0x1b).filter.state = .esc ∨ (f.step 0x1b).filter.state = .strEsc := by
  rcases hs : f.state with _ | _ | _ | _ | _ | _ | _ | _ | _ <;> simp only [step, hs]
  case oscId => simp [stepOscId_exit, isDigit, oscSkips, isC0, stepStr_filter]
  case dcsId => simp [stepDcsId_exit, isParam, isFinal, dcsSkips, isC0, stepStr_filter]
  all_goals
    simp [stepGround, stepUtf8C2, stepEsc, stepCsi, stepStr, stepStrEsc, stepStrC2, isFinal,
      isParam, isC0, isContinuation]

/-- After a `C2` every reader looks ahead. -/
theorem step_c2_state (f : VtFilter) :
    (f.step 0xc2).filter.state = .utf8C2 ∨ (f.step 0xc2).filter.state = .strC2 := by
  rcases hs : f.state with _ | _ | _ | _ | _ | _ | _ | _ | _ <;> simp only [step, hs]
  case oscId => simp [stepOscId_exit, isDigit, oscSkips, isC0, stepStr_filter]
  case dcsId => simp [stepDcsId_exit, isParam, isFinal, dcsSkips, isC0, stepStr_filter]
  all_goals
    simp [stepGround, stepUtf8C2, stepEsc, stepCsi, stepStr, stepStrEsc, stepStrC2, isFinal,
      isParam, isC0, isContinuation]

/-- The states a look-ahead is pending in. -/
def LooksAhead (s : State) : Prop := s = .esc ∨ s = .strEsc ∨ s = .utf8C2 ∨ s = .strC2

theorem stepGround_plain_state (he : b ≠ 0x1b) (hc : b ≠ 0xc2) :
    ¬ LooksAhead (f.stepGround b).filter.state := by
  simp [stepGround, he, hc, LooksAhead]

theorem stepStr_plain_state (he : b ≠ 0x1b) (hc : b ≠ 0xc2) :
    ¬ LooksAhead (f.stepStr b).filter.state := by
  rw [stepStr_filter]
  simp only [he, hc, if_false]
  split_ifs <;> simp [LooksAhead]

theorem stepEsc_plain_state (he : b ≠ 0x1b) (hc : b ≠ 0xc2) :
    ¬ LooksAhead (f.stepEsc b).filter.state := by
  unfold stepEsc
  split_ifs
  case neg => exact stepGround_plain_state he hc
  all_goals simp [LooksAhead, openSeq]

theorem not_looksAhead_of_identifying (h : Identifying f.state) : ¬ LooksAhead f.state := by
  rcases h with h | h | h <;> simp [LooksAhead, h]

/-- After any other byte no reader looks ahead. -/
theorem step_plain_state (he : b ≠ 0x1b) (hc : b ≠ 0xc2) :
    ¬ LooksAhead (f.step b).filter.state := by
  by_cases hid : Identifying (f.step b).filter.state
  · exact not_looksAhead_of_identifying hid
  rcases hs : f.state with _ | _ | _ | _ | _ | _ | _ | _ | _ <;> simp only [step, hs] at hid ⊢
  case ground => exact stepGround_plain_state he hc
  case str => exact stepStr_plain_state he hc
  case utf8C2 =>
    unfold stepUtf8C2
    split_ifs
    case neg => exact stepGround_plain_state he hc
    all_goals simp [LooksAhead, openSeq]
  case esc => exact stepEsc_plain_state he hc
  case csi =>
    rcases csi_classes b with hb | hb | hb | rfl | ⟨hf, hp, hc', hd⟩
    · simp [stepCsi_final hb, closeCsi, LooksAhead]
    · refine absurd (Or.inl ?_) hid
      rw [stepCsi_param hb, pushCsi]
      split_ifs <;> simp [hs]
    · simp [stepCsi_c0 hb, LooksAhead, hs]
    · simp [stepCsi_del, LooksAhead, hs]
    · rw [stepCsi_cancel hf hp hc' hd]
      exact stepGround_plain_state he hc
  case oscId =>
    rcases osc_classes b with hb | hb | ⟨hd, hk⟩
    · simp [stepOscId_digit hb, pushOsc, hs, LooksAhead]
    · simp [stepOscId_skip hb, hs, LooksAhead]
    · rw [stepOscId_exit hd hk]
      exact stepStr_plain_state he hc
  case dcsId =>
    rcases dcs_classes b with hb | hb | hb | ⟨hp, hf, hk⟩
    · refine absurd (Or.inr (Or.inr ?_)) hid
      rw [stepDcsId_param hb, pushDcs]
      split_ifs <;> simp [hs]
    · simp [stepDcsId_final hb, enterStr, LooksAhead]
    · simp [stepDcsId_skip hb, hs, LooksAhead]
    · rw [stepDcsId_exit hp hf hk]
      exact stepStr_plain_state he hc
  case strEsc =>
    by_cases hb : b = 0x5c
    · simp [hb, stepStrEsc, LooksAhead]
    · rw [stepStrEsc_other hb]
      exact stepEsc_plain_state he hc
  case strC2 =>
    by_cases hcont : isContinuation b
    · rw [stepStrC2_char hcont]
      by_cases hb : b = 0x9c <;> simp [hb, LooksAhead]
    · rw [stepStrC2_other (by simpa using hcont)]
      exact stepStr_plain_state he hc

/-! ## A late reader -/

theorem SameIdent.dropped_eq (h : SameIdent f g) : (g.step b).dropped = (f.step b).dropped := by
  rw [step_dropped, step_dropped, h]
  rfl

/-- Two readers of one sequence go on alike. -/
theorem SameIdent.step (h : SameIdent f g) (hs : Identifying f.state)
    (hid : Identifying (g.step b).filter.state) :
    SameIdent (f.step b).filter (g.step b).filter := by
  have hgs : g.state = f.state := h.state_eq
  rcases hs with hs | hs | hs <;> rw [hs] at hgs <;>
    simp only [VtFilter.step, hs, hgs] at hid ⊢ <;> rw [SameIdent] at h ⊢
  · rcases csi_classes b with hb | hb | hb | rfl | ⟨hf, hp, hc, hd⟩
    · simp [stepCsi_final hb, closeCsi, Identifying] at hid
    · rw [stepCsi_param hb, stepCsi_param hb, h]
      cases ho : f.csiOver <;> simp [pushCsi, ho]
    · rw [stepCsi_c0 hb, stepCsi_c0 hb]
      exact h
    · rw [stepCsi_del, stepCsi_del]
      exact h
    · rw [stepCsi_cancel hf hp hc hd] at hid
      exact absurd hid stepGround_not_identifying
  · rcases osc_classes b with hb | hb | ⟨hd, hk⟩
    · rw [stepOscId_digit hb, stepOscId_digit hb, h]
      rfl
    · rw [stepOscId_skip hb, stepOscId_skip hb]
      exact h
    · rw [stepOscId_exit hd hk] at hid
      exact absurd hid stepStr_not_identifying
  · rcases dcs_classes b with hb | hb | hb | ⟨hp, hf, hk⟩
    · rw [stepDcsId_param hb, stepDcsId_param hb, h]
      cases ho : f.dcsOver <;> simp [pushDcs, ho]
    · simp [stepDcsId_final hb, enterStr, Identifying] at hid
    · rw [stepDcsId_skip hb, stepDcsId_skip hb]
      exact h
    · rw [stepDcsId_exit hp hf hk] at hid
      exact absurd hid stepStr_not_identifying

/-- The late reader `g`, with `rest` still to read, against the reader
`f` of the whole stream: it looks ahead where `f` does, and the sequence
it identifies is `f`'s or comes to nothing. -/
structure Shadows (f g : VtFilter) (rest : List UInt8) : Prop where
  capped : Capped g
  esc : g.state = .esc ∨ g.state = .strEsc → f.state = .esc ∨ f.state = .strEsc
  c2 : g.state = .utf8C2 → f.state = .utf8C2 ∨ f.state = .strC2
  ident : Identifying g.state → SameIdent f g ∨ g.spellsOn rest = false

/-- What the two readers look ahead on is the same byte. -/
theorem shadows_looking (f g : VtFilter) (b : UInt8) :
    ((g.step b).filter.state = .esc ∨ (g.step b).filter.state = .strEsc →
      (f.step b).filter.state = .esc ∨ (f.step b).filter.state = .strEsc) ∧
      ((g.step b).filter.state = .utf8C2 →
        (f.step b).filter.state = .utf8C2 ∨ (f.step b).filter.state = .strC2) := by
  by_cases he : b = 0x1b
  · subst he
    refine ⟨fun _ => step_esc_state f, fun h => ?_⟩
    rcases step_esc_state g with h' | h' <;> simp [h'] at h
  by_cases hc : b = 0xc2
  · subst hc
    refine ⟨fun h => ?_, fun _ => step_c2_state f⟩
    rcases step_c2_state g with h' | h' <;> simp [h'] at h
  · have hplain := step_plain_state (f := g) he hc
    simp only [LooksAhead, not_or] at hplain
    exact ⟨fun h => by simp [hplain] at h, fun h => by simp [hplain] at h⟩

/-- **One byte of the replay.** -/
theorem Shadows.step {rest : List UInt8} (h : Shadows f g (b :: rest))
    (hquiet : (f.step b).dropped = []) (hspell : f.state = .strC2 → spells (b :: rest) = false) :
    (g.step b).dropped = [] ∧ Shadows (f.step b).filter (g.step b).filter rest := by
  have hlook := shadows_looking f g b
  have hcap := step_capped (b := b) h.capped
  by_cases hs : Identifying g.state
  · rcases h.ident hs with hsame | hno
    · refine ⟨hsame.dropped_eq.trans hquiet, hcap, hlook.1, hlook.2, fun hid => Or.inl ?_⟩
      exact hsame.step (hsame.state_eq ▸ hs) hid
    · rw [spellsOn_cons hs h.capped, Bool.or_eq_false_iff] at hno
      exact ⟨by simpa using hno.1, hcap, hlook.1, hlook.2, fun _ => Or.inr hno.2⟩
  · have hdecide : g.decides b = none := by
      simp only [Identifying, not_or] at hs
      rcases hg : g.state with _ | _ | _ | _ | _ | _ | _ | _ | _ <;> simp_all [decides]
    refine ⟨by rw [step_dropped, hdecide]; rfl, hcap, hlook.1, hlook.2, fun hid => ?_⟩
    rcases opened hs hid with ⟨hg, hb⟩ | ⟨hg, hb⟩
    · obtain ⟨s, -, hopen⟩ := esc_step_opens hb
      rw [hopen f (h.esc hg), hopen g hg]
      exact Or.inl (sameIdent_open f g _ s)
    · obtain ⟨s, -, hopen, hspells⟩ := c2_step_opens hb
      rw [hopen g hg]
      rcases h.c2 hg with hf | hf
      · rw [hopen f hf]
        exact Or.inl (sameIdent_open f g _ s)
      · exact Or.inr ((hspells g rest).trans (hspell hf))

/-- The late reader records nothing where the whole stream's reader does
not and never stands at a `C2` of a string that spells a sequence. -/
theorem Shadows.feed {rest : List UInt8} (h : Shadows f g rest)
    (hquiet : (f.feed rest).dropped = [])
    (hspell : ∀ q, (f.feed (rest.take q)).filter.state = .strC2 → spells (rest.drop q) = false) :
    (g.feed rest).dropped = [] := by
  induction rest generalizing f g with
  | nil => rfl
  | cons b rest ih =>
    rw [feed_cons, Fed.after_dropped, List.append_eq_nil_iff] at hquiet ⊢
    obtain ⟨hdrop, hnext⟩ := h.step hquiet.1 (hspell 0)
    exact ⟨hdrop, ih hnext hquiet.2 fun q hq => hspell (q + 1) hq⟩

/-- A late reader starts in ground. -/
theorem shadows_new (f : VtFilter) (rest : List UInt8) : Shadows f new rest := by
  refine ⟨capped_of_not_identifying ?_, ?_, ?_, ?_⟩ <;> simp [new, Identifying]

/-- The byte before a pending `C2` of a string is that `C2`. -/
theorem last_of_strC2 {u : List UInt8} (h : (new.feed u).filter.state = .strC2) :
    ∃ v, u = v ++ [0xc2] := by
  induction u using List.reverseRecOn with
  | nil => simp [new] at h
  | append_singleton v b _ =>
    rw [feed_snoc, Fed.after_filter] at h
    by_cases hc : b = 0xc2
    · exact ⟨v, by rw [hc]⟩
    by_cases he : b = 0x1b
    · subst he
      rcases step_esc_state (new.feed v).filter with h' | h' <;> simp [h'] at h
    · exact absurd (Or.inr (Or.inr (Or.inr h))) (step_plain_state he hc)

/-- From ground, a `C2` and bytes that spell a recorded sequence are
recorded. -/
theorem dropped_of_spells (h : spells bytes = true) :
    (new.feed (0xc2 :: bytes)).dropped ≠ [] := by
  cases bytes with
  | nil => simp [spells] at h
  | cons b bytes =>
    have hb : b = 0x9b ∨ b = 0x9d ∨ b = 0x90 := by
      by_contra hno
      simp only [not_or] at hno
      simp [spells, hno] at h
    obtain ⟨s, -, hopen, hspells⟩ := c2_step_opens hb
    have hstep := hopen (new.step 0xc2).filter rfl
    have hrec := dropped_of_spellsOn (capped_openSeq (f := (new.step 0xc2).filter) 0xc2 b s)
      ((hspells _ bytes).trans h)
    rw [feed_cons, feed_cons, Fed.after_dropped, Fed.after_dropped, hstep]
    simp [hrec]

/-- **A cut replay.** Of a stream read without a drop, every tail a ring
can hold is read without a drop from ground exactly when no `C2` inside a
string of it is followed by bytes that spell a recorded sequence. -/
theorem replay_quiet_iff (stream : List UInt8) (hquiet : (new.feed stream).dropped = []) :
    (∀ (cap : ℕ) (chunks : List (List UInt8)), chunks.flatten = stream →
        (new.feed (chunks.foldl Ring.push (Ring.new cap)).snapshot).dropped = []) ↔
      ∀ q, (new.feed (stream.take q)).filter.state = .strC2 → spells (stream.drop q) = false := by
  refine ⟨fun h q hq => ?_, fun h cap chunks hflat => ?_⟩
  · by_contra hspell
    obtain ⟨v, hv⟩ := last_of_strC2 hq
    have hsplit : stream = v ++ 0xc2 :: stream.drop q := by
      calc stream = stream.take q ++ stream.drop q := (List.take_append_drop q stream).symm
        _ = v ++ 0xc2 :: stream.drop q := by rw [hv]; simp
    have htail : stream.drop (stream.length - ((stream.drop q).length + 1)) =
        0xc2 :: stream.drop q := by
      have hlen : stream.length - ((stream.drop q).length + 1) = v.length := by
        have h := congrArg List.length hsplit
        rw [List.length_append, List.length_cons] at h
        omega
      rw [hlen]
      conv_lhs => rw [hsplit]
      exact List.drop_left
    have hcut := h ((stream.drop q).length + 1) [stream] (by simp)
    rw [Ring.snapshot_foldl_push, List.flatten_singleton, htail] at hcut
    exact dropped_of_spells (by simpa using hspell) hcut
  · rw [Ring.snapshot_foldl_push, hflat]
    generalize stream.length - cap = k
    rw [← List.take_append_drop k stream, feed_append, Fed.after_dropped,
      List.append_eq_nil_iff] at hquiet
    refine (shadows_new (new.feed (stream.take k)).filter _).feed hquiet.2 fun q hq => ?_
    rw [List.drop_drop]
    refine h (k + q) ?_
    rw [List.take_add, feed_append, Fed.after_filter]
    exact hq

/-- A hyperlink whose text holds a two-byte character: `C2 A9` spells
nothing, wherever the ring cuts. -/
theorem replay_quiet_iff_hyperlink :
    (∀ (cap : ℕ) (chunks : List (List UInt8)),
        chunks.flatten = [0x1b, 0x5d, 0x38, 0x3b, 0x3b, 0xc2, 0xa9, 0x07] →
        (new.feed (chunks.foldl Ring.push (Ring.new cap)).snapshot).dropped = []) ↔
      ∀ q, (new.feed ([0x1b, 0x5d, 0x38, 0x3b, 0x3b, 0xc2, 0xa9, 0x07].take q)).filter.state =
          .strC2 → spells ([0x1b, 0x5d, 0x38, 0x3b, 0x3b, 0xc2, 0xa9, 0x07].drop q) = false :=
  replay_quiet_iff _ (by decide)

/-- A hyperlink whose text holds `C2 9D 52 ;`, cut at the `C2`: the late
terminal reads a clipboard write. -/
theorem replay_acts :
    ¬ ∀ stream : List UInt8, (new.feed stream).dropped = [] →
      ∀ (cap : ℕ) (chunks : List (List UInt8)), chunks.flatten = stream →
        (new.feed (chunks.foldl Ring.push (Ring.new cap)).snapshot).dropped = [] := by
  intro h
  have hbad := h [0x1b, 0x5d, 0x38, 0x3b, 0x3b, 0xc2, 0x9d, 0x35, 0x32, 0x3b, 0x78, 0x07]
    (by decide) 7 [[0x1b, 0x5d, 0x38, 0x3b, 0x3b, 0xc2, 0x9d, 0x35, 0x32, 0x3b, 0x78, 0x07]] rfl
  exact absurd hbad (by decide)

end VtFilter

end Terminal

end Willie
