import Willie.Terminal.Emulator
/-!
# CAN and SUB

The filter against the emulator's tokeniser. The emulator leaves a
sequence on CAN and SUB where the filter stays in it, so the two are
related (`Tracks`) and not equal: while the filter identifies a sequence
the emulator identifies the same one or reads a string BEL does not end,
and while the filter streams a string the emulator is in that string or
the terminal has been sent everything the emulator has read. Every step
keeps the relation (`step_tracks`).
-/

namespace Willie

namespace Terminal

namespace Emulator

variable {t : Emulator} {b : UInt8} {n : ℕ}

/-! ## Where the emulator is between bytes -/

/-- No byte is looked ahead on. -/
def inText : Emulator → Bool
  | .ground | .csi _ _ | .oscId _ _ | .dcsId _ _ | .str _ => true
  | _ => false

/-- In text, and not in anything BEL ends. -/
def calm : Emulator → Bool
  | .ground | .csi _ _ | .dcsId _ _ => true
  | .str bel => !bel
  | _ => false

/-- The last byte was an `ESC`. -/
def afterEsc : Emulator → Bool
  | .esc | .strEsc _ => true
  | _ => false

/-- The last byte was a `C2`. -/
def afterC2 : Emulator → Bool
  | .utf8C2 | .strC2 _ => true
  | _ => false

/-- The place of the sequence under identification. -/
def start : Emulator → Option ℕ
  | .csi s _ | .oscId s _ | .dcsId s _ => some s
  | _ => none

/-- Only a sequence under identification is acted on. -/
theorem step_acts_none {x : UInt8 × ℕ} (h : t.start = none) : (t.step x).2 = none := by
  by_cases hab : aborts x.1
  · simp [step, hab]
  · cases t <;> simp_all [start, step]

theorem step_aborts (h : aborts b) : t.step (b, n) = (.ground, none) := by simp [step, h]

theorem ofStr_plain {bel : Bool} (he : b ≠ 0x1b) (hc : b ≠ 0xc2) :
    ofStr bel b = if b = 0x07 ∧ bel then .ground else .str bel := by
  simp [ofStr, he, hc]

theorem ofGround_plain (he : b ≠ 0x1b) (hc : b ≠ 0xc2) : ofGround b = .ground := by
  simp [ofGround, he, hc]

theorem calm_inText (h : t.calm) : t.inText := by cases t <;> simp_all [calm, inText]

theorem step_esc (h : t.inText) : (t.step (0x1b, n)).1.afterEsc := by
  cases t <;>
    simp_all [inText, step, aborts, ofGround, isFinal, isParam, isC0, isDigit, oscSkips, dcsSkips,
      ofStr, afterEsc]

theorem step_c2 (h : t.inText) : (t.step (0xc2, n)).1.afterC2 := by
  cases t <;>
    simp_all [inText, step, aborts, ofGround, isFinal, isParam, isC0, isDigit, oscSkips, dcsSkips,
      ofStr, afterC2]

theorem step_c2_calm (h : t.calm) :
    (t.step (0xc2, n)).1 = .utf8C2 ∨ (t.step (0xc2, n)).1 = .strC2 false := by
  cases t <;>
    simp_all [calm, step, aborts, ofGround, isFinal, isParam, isC0, dcsSkips, ofStr]

theorem step_bel (h : t.inText) : (t.step (0x07, n)).1.calm := by
  cases t <;>
    simp_all [inText, step, aborts, ofGround, isFinal, isParam, isC0, isDigit, oscSkips, dcsSkips,
      ofStr, calm]
  split_ifs <;> simp_all

theorem step_plain (h : t.inText) (he : b ≠ 0x1b) (hc : b ≠ 0xc2) : (t.step (b, n)).1.inText := by
  cases t <;> simp_all only [inText, step, ofGround_plain he hc, ofStr_plain he hc]
  all_goals split_ifs <;> simp_all

theorem step_plain_calm (h : t.calm) (he : b ≠ 0x1b) (hc : b ≠ 0xc2) :
    (t.step (b, n)).1.calm := by
  cases t <;> simp_all only [calm, step, ofGround_plain he hc, ofStr_plain he hc]
  all_goals split_ifs <;> simp_all

/-- A byte that is not taken for a character after `C2` is read as the
text before the `C2` would read it. -/
theorem step_of_afterC2 (h : t.afterC2) (hcont : isContinuation b = false) :
    ∃ t₀ : Emulator, t₀.inText ∧ (t.step (b, n)).1 = (t₀.step (b, n)).1 ∧
      (t = .utf8C2 ∨ t = .strC2 false → t₀.calm) ∧ ∀ bel, t = .strC2 bel → t₀ = .str bel := by
  have h90 : b ≠ 0x90 ∧ b ≠ 0x9b ∧ b ≠ 0x9c ∧ b ≠ 0x9d := by grind [isContinuation]
  cases t <;> simp only [afterC2, Bool.false_eq_true] at h
  case utf8C2 => exact ⟨.ground, rfl, by simp [step, ofC2, h90, hcont], by simp [calm], by simp⟩
  case strC2 bel => exact ⟨.str bel, rfl, by simp [step, h90, hcont], by simp [calm], by simp⟩

/-- The step on `C2` opens nothing, so its place does not matter. -/
theorem step_c2_place (t : Emulator) (n m : ℕ) : t.step (0xc2, n) = t.step (0xc2, m) := by
  cases t <;> simp [step, ofEsc, ofC2]

/-- A character after `C2`. -/
theorem step_afterC2_char (h : t.afterC2) (hcont : isContinuation b) :
    ((t.step (b, n)).1.inText ∧ (b = 0x9c → (t.step (b, n)).1 = .ground)) ∧
      (t = .utf8C2 ∨ t = .strC2 false →
        ¬ (b = 0x9b ∨ b = 0x9d ∨ b = 0x90) → (t.step (b, n)).1.calm) ∧
      ∀ bel, t = .strC2 bel → b ≠ 0x9c → (t.step (b, n)).1 = .str bel := by
  have hab : aborts b = false := by grind [isContinuation, aborts]
  cases t <;> simp only [afterC2, Bool.false_eq_true] at h
  case utf8C2 =>
    simp only [step, hab, ofC2, hcont]
    split_ifs <;> simp_all [inText, calm]
  case strC2 bel =>
    simp only [step, hab, hcont]
    split_ifs <;> simp_all [inText, calm]

/-- After an `ESC` that opens nothing and ends nothing, the byte is read
from ground. -/
theorem step_of_afterEsc (h : t.afterEsc) (hopen : ¬ (b = 0x5b ∨ b = 0x5d ∨ b = 0x50)) :
    (t.step (b, n)).1 = (ground.step (b, n)).1 := by
  simp only [not_or] at hopen
  cases t <;> simp only [afterEsc, Bool.false_eq_true] at h <;> by_cases hb : b = 0x5c <;>
    simp [step, ofEsc, ofGround, hopen, hb]

end Emulator

namespace VtFilter

variable {f : VtFilter} {t tout : Emulator} {b : UInt8} {n : ℕ} {held : List (UInt8 × ℕ)}
  {digits : List UInt8}

/-! ## The filter and the emulator in step -/

/-- The filter and the emulator identify the same sequence: what the
emulator has read of it, the filter holds, or its buffer is frozen. -/
def InSync (f : VtFilter) : Emulator → Prop
  | .csi _ params =>
    f.state = .csi ∧ (f.csiOver = false → ∃ a c, f.buf = a :: c :: params)
  | .oscId _ digits =>
    f.state = .oscId ∧ f.oscSeen = decide (digits ≠ []) ∧
      f.oscNum = min (digitsValue digits) u32Max
  | .dcsId _ params =>
    f.state = .dcsId ∧ (f.dcsOver = false → ∃ a c, f.buf = a :: c :: params)
  | _ => False

/-- Inside a string the filter reads: the emulator is in a string that
BEL ends only if it ends the filter's, or it has been sent all it has
read. -/
def Streamed (f : VtFilter) (t tout : Emulator) : Prop :=
  f.strDrop = false → (∃ bel, t = .str bel ∧ (bel → f.strBel)) ∨ tout = t

/-- The relation between the filter, the emulator reading the input and
the emulator reading the output. -/
def Tracks (f : VtFilter) (t tout : Emulator) : Prop :=
  match f.state with
  | .ground => t.calm
  | .utf8C2 => t = .utf8C2 ∨ t = .strC2 false
  | .esc | .strEsc => t.afterEsc
  | .csi | .oscId | .dcsId => InSync f t ∨ t = .str false
  | .str => t.inText ∧ Streamed f t tout
  | .strC2 =>
    t.afterC2 ∧
      (f.strDrop = false →
        (∃ bel, t = .strC2 bel ∧ (bel → f.strBel)) ∨ ∀ n, t = (tout.step (0xc2, n)).1)

/-- A byte the filter reads from ground. -/
theorem stepGround_tracks (h : t.calm) :
    Tracks (f.stepGround b).filter (t.step (b, n)).1 tout := by
  unfold stepGround
  split_ifs with he hc
  · simpa [Tracks, he] using Emulator.step_esc (Emulator.calm_inText h)
  · simpa [Tracks, hc] using Emulator.step_c2_calm h
  · simpa [Tracks] using Emulator.step_plain_calm h he hc

/-- The places the bytes of a string step are forwarded from. -/
def strSent (f : VtFilter) (x : UInt8 × ℕ) : List (UInt8 × ℕ) :=
  meeting [] x (.forward, strFate f.strDrop x.1) .forward

/-- A byte the filter reads inside a string. -/
theorem stepStr_tracks (h : t.inText)
    (hs : f.strDrop = false →
      (∃ bel, t = .str bel ∧ (bel → f.strBel)) ∨ (tout.step (b, n)).1 = (t.step (b, n)).1) :
    Tracks (f.stepStr b).filter (t.step (b, n)).1 (tout.run (f.strSent (b, n))) := by
  rw [stepStr_filter]
  split_ifs with h7 he hc
  · obtain ⟨rfl, -⟩ := h7
    exact Emulator.step_bel h
  · subst he
    exact Emulator.step_esc h
  · subst hc
    refine ⟨Emulator.step_c2 h, fun hd => (hs hd).imp ?_ ?_⟩
    · rintro ⟨bel, rfl, hbel⟩
      exact ⟨bel, by simp [Emulator.step, Emulator.aborts, Emulator.ofStr], hbel⟩
    · intro hout m
      simpa [strSent, meeting, strFate, Emulator.run, hout] using
        congrArg Prod.fst (Emulator.step_c2_place tout n m)
  · refine ⟨Emulator.step_plain h he hc, fun hd => ?_⟩
    have hsent : tout.run (f.strSent (b, n)) = (tout.step (b, n)).1 := by
      simp [strSent, meeting, strFate, he, hc, dropFate, show f.strDrop = false from hd,
        Emulator.run]
    rw [hsent]
    rcases hs hd with ⟨bel, rfl, hbel⟩ | hout
    · by_cases hab : Emulator.aborts b
      · exact Or.inr (by simp [Emulator.step_aborts hab])
      · have hnot : ¬ (b = 0x07 ∧ bel) := fun hb => h7 ⟨hb.1, hbel hb.2⟩
        refine Or.inl ⟨bel, ?_, hbel⟩
        simp [Emulator.step, hab, Emulator.ofStr_plain he hc, hnot]
    · exact Or.inr hout

/-- The ledger's held bytes are the filter's. -/
def Holds (f : VtFilter) (held : List (UInt8 × ℕ)) : Prop := held.map Prod.fst = f.held

/-- The placed bytes a step forwards. -/
def sends (f : VtFilter) (held : List (UInt8 × ℕ)) (x : UInt8 × ℕ) : List (UInt8 × ℕ) :=
  meeting held x (f.fate x.1) .forward

theorem InSync.openSeq_csi {a c : UInt8} : InSync (f.openSeq [a, c] .csi) (.csi n []) :=
  ⟨rfl, fun _ => ⟨a, c, rfl⟩⟩

theorem InSync.openSeq_oscId {a c : UInt8} : InSync (f.openSeq [a, c] .oscId) (.oscId n []) :=
  ⟨rfl, rfl, rfl⟩

theorem InSync.openSeq_dcsId {a c : UInt8} : InSync (f.openSeq [a, c] .dcsId) (.dcsId n []) :=
  ⟨rfl, fun _ => ⟨a, c, rfl⟩⟩

/-- An introducer the emulator and the filter both take after `ESC`. -/
theorem stepEsc_opens (ht : t.afterEsc) (h : b = 0x5b ∨ b = 0x5d ∨ b = 0x50) :
    Identifying (f.stepEsc b).filter.state ∧ InSync (f.stepEsc b).filter (t.step (b, n)).1 ∧
      (t.step (b, n)).1.start = some n := by
  have hstep : (t.step (b, n)).1 = Emulator.ofEsc n b := by
    cases t <;> simp only [Emulator.afterEsc, Bool.false_eq_true] at ht <;>
      rcases h with rfl | rfl | rfl <;> simp [Emulator.step, Emulator.aborts]
  rw [hstep]
  rcases h with rfl | rfl | rfl
  · exact ⟨Or.inl rfl, InSync.openSeq_csi, rfl⟩
  · exact ⟨Or.inr (Or.inl rfl), InSync.openSeq_oscId, rfl⟩
  · exact ⟨Or.inr (Or.inr rfl), InSync.openSeq_dcsId, rfl⟩

/-- An introducer the emulator and the filter both take after `C2`. -/
theorem stepUtf8C2_opens (h : b = 0x9b ∨ b = 0x9d ∨ b = 0x90) :
    Identifying (f.stepUtf8C2 b).filter.state ∧
      InSync (f.stepUtf8C2 b).filter (Emulator.utf8C2.step (b, n)).1 ∧
      (Emulator.utf8C2.step (b, n)).1.start = some n := by
  rcases h with rfl | rfl | rfl
  · exact ⟨Or.inl rfl, InSync.openSeq_csi, rfl⟩
  · exact ⟨Or.inr (Or.inl rfl), InSync.openSeq_oscId, rfl⟩
  · exact ⟨Or.inr (Or.inr rfl), InSync.openSeq_dcsId, rfl⟩

/-- What tracking means while a sequence is identified. -/
theorem tracks_identifying (hs : Identifying f.state) :
    Tracks f t tout ↔ InSync f t ∨ t = .str false := by
  rcases hs with hs | hs | hs <;> simp [Tracks, hs]

/-- The bytes a sequence is made of introduce and abort nothing. -/
theorem sequence_byte (h : isFinal b ∨ isParam b ∨ isC0 b ∨ b = 0x7f) :
    Emulator.aborts b = false ∧ b ≠ 0x1b ∧ b ≠ 0xc2 := by
  rcases h with h | h | h | rfl
  · grind [isFinal, Emulator.aborts]
  · grind [isParam, Emulator.aborts]
  · grind [isC0, Emulator.aborts]
  · decide

theorem param_of_digit (h : isDigit b) : isParam b := by grind [isDigit, isParam]

theorem sequence_of_oscSkips (h : oscSkips b) : isC0 b ∨ b = 0x7f := by grind [oscSkips]

theorem sequence_of_dcsSkips (h : dcsSkips b) : isC0 b ∨ b = 0x7f := by grind [dcsSkips]

/-- A string BEL does not end goes on under any byte of a CSI or an
identify window. -/
theorem str_step_kept (h : isFinal b ∨ isParam b ∨ isC0 b ∨ b = 0x7f) :
    (Emulator.str false).step (b, n) = (.str false, none) := by
  obtain ⟨hab, he, hc⟩ := sequence_byte h
  simp [Emulator.step, hab, Emulator.ofStr_plain he hc]

theorem ground_step_start : (Emulator.ground.step (b, n)).1.start = none := by
  simp only [Emulator.step, Emulator.ofGround]
  split_ifs <;> rfl

theorem str_step_start {bel : Bool} : ((Emulator.str bel).step (b, n)).1.start = none := by
  simp only [Emulator.step, Emulator.ofStr]
  split_ifs <;> rfl

/-- What a step on which both leave the sequence does: the emulator acts
on it only if the filter withholds it, and the two stay related. -/
structure Leaves (f : VtFilter) (t : Emulator) (b : UInt8) (n : ℕ) : Prop where
  start : (t.step (b, n)).1.start = none
  acts : (t.step (b, n)).2 ≠ none → (f.fate b).1 = .withhold
  tracks : ∀ (held : List (UInt8 × ℕ)) (tout : Emulator),
    Tracks (f.step b).filter (t.step (b, n)).1 (tout.run (f.sends held (b, n)))

/-- What a step on which both stay in the sequence does. -/
structure Stays (f : VtFilter) (t : Emulator) (b : UInt8) (n : ℕ) : Prop where
  state : Identifying (f.step b).filter.state
  sync : InSync (f.step b).filter (t.step (b, n)).1
  keeps : (f.fate b).1 = .keep
  acts : (t.step (b, n)).2 = none

/-- The decision on a CSI does not look at its introducer. -/
theorem csiDecision_introducer (a c : UInt8) (params : List UInt8) (b : UInt8) :
    csiDecision (a :: c :: params) b = csiDecision (0x1b :: 0x5b :: params) b := rfl

theorem InSync.step_csi (hs : f.state = .csi) (h : InSync f t) :
    Stays f t b n ∨ Leaves f t b n := by
  cases t <;> simp only [InSync, hs, reduceCtorEq, false_and, true_and] at h
  case csi s ps =>
  have hstep : f.step b = f.stepCsi b := by simp [step, hs]
  rcases csi_classes b with hb | hb | hb | hb | ⟨hf, hp, hc, hd⟩
  · right
    obtain ⟨hab, -, -⟩ := sequence_byte (Or.inl hb)
    have ht : (Emulator.csi s ps).step (b, n) =
        (.ground, if csiActs ps b then some s else none) := by
      simp [Emulator.step, hab, hb]
    refine ⟨by simp [ht, Emulator.start], fun hacts => ?_, fun _ _ => ?_⟩
    · have hdrops : f.csiDrops b := by
        cases ho : f.csiOver
        · obtain ⟨a, c, hbuf⟩ := h ho
          have hact : csiActs ps b := by simpa [ht] using hacts
          rw [csiDrops, hbuf, csiDecision_introducer]
          exact Bool.or_eq_true_iff.mpr (Or.inl hact)
        · simp [csiDrops, ho]
      simp [fate, hs, hb, hdrops, dropFate]
    · rw [hstep, stepCsi_final hb, ht]
      simp [Tracks, closeCsi, Emulator.calm]
  · left
    have hf : isFinal b = false := by grind [isParam, isFinal]
    have hab := (sequence_byte (Or.inr (Or.inl hb))).1
    have ht : (Emulator.csi s ps).step (b, n) = (.csi s (ps ++ [b]), none) := by
      simp [Emulator.step, hab, hb, hf]
    have hst : (f.pushCsi b).state = .csi := by unfold pushCsi; split_ifs <;> simp [hs]
    refine ⟨?_, ?_, by simp [fate, hs, hb, hf], by simp [ht]⟩ <;> rw [hstep, stepCsi_param hb]
    · exact Or.inl hst
    · refine ht ▸ ⟨hst, fun ho => ?_⟩
      cases hov : f.csiOver <;> simp only [pushCsi, hov] at ho ⊢
      · obtain ⟨a, c, hbuf⟩ := h hov
        exact ⟨a, c, by simp [hbuf]⟩
      · simp [hov] at ho
  · left
    have hf : isFinal b = false := by grind [isC0, isFinal]
    have hp : isParam b = false := by grind [isC0, isParam]
    have hab := (sequence_byte (Or.inr (Or.inr (Or.inl hb)))).1
    have ht : (Emulator.csi s ps).step (b, n) = (.csi s ps, none) := by
      simp [Emulator.step, hab, hb, hf, hp]
    refine ⟨?_, ?_, by simp [fate, hs, hb, hf, hp], by simp [ht]⟩ <;> rw [hstep, stepCsi_c0 hb]
    · exact Or.inl hs
    · exact ht ▸ ⟨hs, h⟩
  · left
    subst hb
    have ht : (Emulator.csi s ps).step (0x7f, n) = (.csi s ps, none) := by
      simp [Emulator.step, Emulator.aborts, isFinal, isParam]
    refine ⟨?_, ?_, by simp [fate, hs, isFinal, isParam, isC0], by simp [ht]⟩ <;>
      rw [hstep, stepCsi_del]
    · exact Or.inl hs
    · exact ht ▸ ⟨hs, h⟩
  · right
    have ht : (Emulator.csi s ps).step (b, n) = Emulator.ground.step (b, n) := by
      simp [Emulator.step, hf, hp, hc, hd]
    refine ⟨?_, ?_, fun _ _ => ?_⟩
    · rw [ht]
      exact ground_step_start
    · rw [ht, Emulator.step_acts_none rfl]
      exact fun h => absurd rfl h
    · rw [hstep, stepCsi_cancel hf hp hc hd, ht]
      exact stepGround_tracks rfl

/-- The fates of an OSC whose number has ended are those of the string. -/
theorem sends_osc_exit (hs : f.state = .oscId) (hd : isDigit b = false) (hk : oscSkips b = false) :
    f.sends held (b, n) =
      (if f.oscDrops then [] else held) ++ (f.enterStr f.oscDrops true).strSent (b, n) := by
  cases ho : f.oscDrops <;>
    simp [sends, strSent, fate, hs, hd, hk, meeting, dropFate, enterStr, ho] <;> rfl

/-- The fates of a DCS window broken off are those of the string. -/
theorem sends_dcs_exit (hs : f.state = .dcsId) (hp : isParam b = false) (hf : isFinal b = false)
    (hk : dcsSkips b = false) :
    f.sends held (b, n) =
      (if f.dcsOver then [] else held) ++ (f.enterStr f.dcsOver false).strSent (b, n) := by
  cases ho : f.dcsOver <;>
    simp [sends, strSent, fate, hs, hp, hf, hk, meeting, dropFate, enterStr, ho]

/-- The emulator's number, capped as the filter's is. -/
theorem digitsValue_snoc (digits : List UInt8) (b : UInt8) :
    digitsValue (digits ++ [b]) = digitsValue digits * 10 + digitValue b := by
  simp [digitsValue]

theorem saturating_digit (v d : ℕ) :
    saturatingAdd (saturatingMul (min v u32Max) 10) d = min (v * 10 + d) u32Max := by
  simp only [saturatingAdd, saturatingMul, u32Max]
  omega

/-- Capping the number does not change what it selects. -/
theorem oscDecision_capped (seen : Bool) (v : ℕ) :
    oscDecision seen (min v u32Max) = oscDecision seen v := by
  cases seen
  · rfl
  · by_cases h : v ≤ u32Max
    · rw [Nat.min_eq_left h]
    · rw [Nat.min_eq_right (by omega)]
      simp only [u32Max] at h ⊢
      simp [oscDecision, show ¬ v = 52 by omega, show ¬ v ≤ 2 by omega]

theorem InSync.oscActs (h : InSync f (.oscId n digits)) : oscActs digits = true → f.oscDrops := by
  intro hact
  obtain ⟨-, hseen, hnum⟩ := h
  rw [oscDrops, hseen, hnum, oscDecision_capped]
  exact Bool.or_eq_true_iff.mpr (Or.inl hact)

theorem InSync.step_oscId (hs : f.state = .oscId) (h : InSync f t) :
    Stays f t b n ∨ Leaves f t b n := by
  cases t <;> simp only [InSync, hs, reduceCtorEq, false_and] at h
  case oscId s ds =>
  have hsync : InSync f (.oscId s ds) := ⟨hs, h.2⟩
  have hstep : f.step b = f.stepOscId b := by simp [step, hs]
  rcases osc_classes b with hb | hb | ⟨hd, hk⟩
  · left
    have hab := (sequence_byte (Or.inr (Or.inl (param_of_digit hb)))).1
    have ht : (Emulator.oscId s ds).step (b, n) = (.oscId s (ds ++ [b]), none) := by
      simp [Emulator.step, hab, hb]
    refine ⟨?_, ?_, by simp [fate, hs, hb], by simp [ht]⟩ <;> rw [hstep, stepOscId_digit hb]
    · exact Or.inr (Or.inl hs)
    · rw [ht]
      refine ⟨hs, by simp [pushOsc], ?_⟩
      rw [digitsValue_snoc, ← saturating_digit]
      simp [pushOsc, h.2.2]
  · left
    have hd : isDigit b = false := by grind [oscSkips, isC0, isDigit]
    have hab := (sequence_byte (Or.inr (Or.inr (sequence_of_oscSkips hb)))).1
    have ht : (Emulator.oscId s ds).step (b, n) = (.oscId s ds, none) := by
      simp [Emulator.step, hab, hb, hd]
    refine ⟨?_, ?_, by simp [fate, hs, hb, hd], by simp [ht]⟩ <;> rw [hstep, stepOscId_skip hb]
    · exact Or.inr (Or.inl hs)
    · exact ht ▸ hsync
  · right
    have ht : ((Emulator.oscId s ds).step (b, n)).1 = ((Emulator.str true).step (b, n)).1 := by
      simp only [Emulator.step, hd, hk, Bool.false_eq_true, if_false]
      split_ifs <;> rfl
    refine ⟨?_, fun hacts => ?_, fun held tout => ?_⟩
    · rw [ht]
      exact str_step_start
    · have hact : Terminal.oscActs ds := by
        by_contra hno
        simp only [Emulator.step, hd, hk, hno, Bool.false_eq_true, if_false] at hacts
        split_ifs at hacts <;> exact hacts rfl
      simp [fate, hs, hd, hk, hsync.oscActs hact, dropFate]
    · rw [hstep, stepOscId_exit hd hk, ht, sends_osc_exit hs hd hk, Emulator.run_append]
      exact stepStr_tracks rfl fun _ => Or.inl ⟨true, rfl, fun _ => rfl⟩

theorem InSync.dcsActs {params : List UInt8} (h : InSync f (.dcsId n params)) :
    dcsActs params b = true → f.dcsDrops b := by
  intro hact
  cases ho : f.dcsOver
  · obtain ⟨a, c, hbuf⟩ := h.2 ho
    simp only [Terminal.dcsActs, Bool.and_eq_true] at hact
    have hlast : f.buf.getLast? = params.getLast? := by
      cases hps : params with
      | nil => simp [hps] at hact
      | cons => simp [hbuf, hps, List.getLast?_cons_cons]
    rw [dcsDrops, hlast]
    simp [hact.1, hact.2]
  · simp [dcsDrops, ho]

theorem InSync.step_dcsId (hs : f.state = .dcsId) (h : InSync f t) :
    Stays f t b n ∨ Leaves f t b n := by
  cases t <;> simp only [InSync, hs, reduceCtorEq, false_and] at h
  case dcsId s ps =>
  have hsync : InSync f (.dcsId s ps) := ⟨hs, h.2⟩
  have hstep : f.step b = f.stepDcsId b := by simp [step, hs]
  rcases dcs_classes b with hb | hb | hb | ⟨hp, hf, hk⟩
  · left
    have hab := (sequence_byte (Or.inr (Or.inl hb))).1
    have ht : (Emulator.dcsId s ps).step (b, n) = (.dcsId s (ps ++ [b]), none) := by
      simp [Emulator.step, hab, hb]
    have hst : (f.pushDcs b).state = .dcsId := by unfold pushDcs; split_ifs <;> simp [hs]
    refine ⟨?_, ?_, by simp [fate, hs, hb], by simp [ht]⟩ <;> rw [hstep, stepDcsId_param hb]
    · exact Or.inr (Or.inr hst)
    · refine ht ▸ ⟨hst, fun ho => ?_⟩
      cases hov : f.dcsOver <;> simp only [pushDcs, hov] at ho ⊢
      · obtain ⟨a, c, hbuf⟩ := h.2 hov
        exact ⟨a, c, by simp [hbuf]⟩
      · simp [hov] at ho
  · right
    have hp : isParam b = false := by grind [isParam, isFinal]
    have hab := (sequence_byte (Or.inl hb)).1
    have ht : (Emulator.dcsId s ps).step (b, n) =
        (.str false, if Terminal.dcsActs ps b then some s else none) := by
      simp [Emulator.step, hab, hb, hp]
    refine ⟨by simp [ht, Emulator.start], fun hacts => ?_, fun _ _ => ?_⟩
    · have hact : Terminal.dcsActs ps b := by simpa [ht] using hacts
      simp [fate, hs, hb, hp, hsync.dcsActs hact, dropFate]
    · rw [hstep, stepDcsId_final hb, ht]
      exact ⟨rfl, fun _ => Or.inl ⟨false, rfl, by simp⟩⟩
  · left
    have hp : isParam b = false := by grind [dcsSkips, isC0, isParam]
    have hf : isFinal b = false := by grind [dcsSkips, isC0, isFinal]
    have hab := (sequence_byte (Or.inr (Or.inr (sequence_of_dcsSkips hb)))).1
    have ht : (Emulator.dcsId s ps).step (b, n) = (.dcsId s ps, none) := by
      simp [Emulator.step, hab, hb, hp, hf]
    refine ⟨?_, ?_, by simp [fate, hs, hb, hp, hf], by simp [ht]⟩ <;> rw [hstep, stepDcsId_skip hb]
    · exact Or.inr (Or.inr hs)
    · exact ht ▸ hsync
  · right
    have ht : (Emulator.dcsId s ps).step (b, n) = (Emulator.str false).step (b, n) := by
      simp [Emulator.step, hp, hf, hk]
    refine ⟨?_, ?_, fun held tout => ?_⟩
    · rw [ht]
      exact str_step_start
    · rw [ht, Emulator.step_acts_none rfl]
      exact fun h => absurd rfl h
    · rw [hstep, stepDcsId_exit hp hf hk, ht, sends_dcs_exit hs hp hf hk, Emulator.run_append]
      exact stepStr_tracks rfl fun _ => Or.inl ⟨false, rfl, by simp⟩

/-- **While the filter identifies what the emulator does**, a byte keeps
both in the sequence or takes both out of it. -/
theorem InSync.step (h : InSync f t) : Stays f t b n ∨ Leaves f t b n := by
  have hs : Identifying f.state := by
    cases t <;> simp only [InSync] at h <;> simp [Identifying, h.1]
  rcases hs with hs | hs | hs
  · exact h.step_csi hs
  · exact h.step_oscId hs
  · exact h.step_dcsId hs

/-- The filter identifies a sequence of the emulator's string. -/
theorem str_tracks (hs : Identifying f.state) :
    Tracks (f.step b).filter ((Emulator.str false).step (b, n)).1
      (tout.run (f.sends held (b, n))) := by
  have hstay : ∀ g : VtFilter, Identifying g.state → (isFinal b ∨ isParam b ∨ isC0 b ∨ b = 0x7f) →
      Tracks g ((Emulator.str false).step (b, n)).1 (tout.run (f.sends held (b, n))) := by
    intro g hg hb
    rw [str_step_kept hb]
    exact (tracks_identifying hg).mpr (Or.inr rfl)
  have hstay_self := hstay f hs
  rcases hs with hs | hs | hs <;> simp only [step, hs]
  · rcases csi_classes b with hb | hb | hb | rfl | ⟨hf, hp, hc, hd⟩
    · rw [stepCsi_final hb, str_step_kept (Or.inl hb)]
      simp [Tracks, closeCsi, Emulator.calm]
    · rw [stepCsi_param hb]
      refine hstay _ (Or.inl ?_) (Or.inr (Or.inl hb))
      unfold pushCsi
      split_ifs <;> simp [hs]
    · rw [stepCsi_c0 hb]
      exact hstay_self (Or.inr (Or.inr (Or.inl hb)))
    · rw [stepCsi_del]
      exact hstay_self (by simp)
    · rw [stepCsi_cancel hf hp hc hd]
      exact stepGround_tracks rfl
  · rcases osc_classes b with hb | hb | ⟨hd, hk⟩
    · rw [stepOscId_digit hb]
      exact hstay _ (Or.inr (Or.inl hs)) (Or.inr (Or.inl (param_of_digit hb)))
    · rw [stepOscId_skip hb]
      exact hstay_self (Or.inr (Or.inr (sequence_of_oscSkips hb)))
    · rw [stepOscId_exit hd hk, sends_osc_exit hs hd hk, Emulator.run_append]
      exact stepStr_tracks rfl fun _ => Or.inl ⟨false, rfl, by simp⟩
  · rcases dcs_classes b with hb | hb | hb | ⟨hp, hf, hk⟩
    · rw [stepDcsId_param hb]
      refine hstay _ (Or.inr (Or.inr ?_)) (Or.inr (Or.inl hb))
      unfold pushDcs
      split_ifs <;> simp [hs]
    · rw [stepDcsId_final hb, str_step_kept (Or.inl hb)]
      exact ⟨rfl, fun _ => Or.inl ⟨false, rfl, by simp⟩⟩
    · rw [stepDcsId_skip hb]
      exact hstay_self (Or.inr (Or.inr (sequence_of_dcsSkips hb)))
    · rw [stepDcsId_exit hp hf hk, sends_dcs_exit hs hp hf hk, Emulator.run_append]
      exact stepStr_tracks rfl fun _ => Or.inl ⟨false, rfl, by simp⟩

theorem stepUtf8C2_tracks (h : t = .utf8C2 ∨ t = .strC2 false) :
    Tracks (f.stepUtf8C2 b).filter (t.step (b, n)).1 tout := by
  have hafter : t.afterC2 := by rcases h with rfl | rfl <;> rfl
  by_cases hopen : b = 0x9b ∨ b = 0x9d ∨ b = 0x90
  · obtain ⟨hstate, hsync, -⟩ := stepUtf8C2_opens (f := f) (n := n) hopen
    refine (tracks_identifying hstate).mpr ?_
    rcases h with rfl | rfl
    · exact Or.inl hsync
    · refine Or.inr ((Emulator.step_afterC2_char hafter ?_).2.2 false rfl ?_) <;>
        grind [isContinuation]
  by_cases hcont : isContinuation b
  · rw [stepUtf8C2_char hopen hcont]
    exact (Emulator.step_afterC2_char hafter hcont).2.1 h hopen
  · have hcont' : isContinuation b = false := by simpa using hcont
    obtain ⟨t₀, -, hstep, hcalm, -⟩ := Emulator.step_of_afterC2 (n := n) hafter hcont'
    rw [stepUtf8C2_other hcont', hstep]
    exact stepGround_tracks (hcalm h)

theorem stepEsc_tracks (h : t.afterEsc) : Tracks (f.stepEsc b).filter (t.step (b, n)).1 tout := by
  by_cases hopen : b = 0x5b ∨ b = 0x5d ∨ b = 0x50
  · obtain ⟨hstate, hsync, -⟩ := stepEsc_opens (f := f) (n := n) h hopen
    exact (tracks_identifying hstate).mpr (Or.inl hsync)
  · rw [stepEsc_other hopen, Emulator.step_of_afterEsc h hopen]
    exact stepGround_tracks rfl

theorem stepStrEsc_tracks (h : t.afterEsc) :
    Tracks (f.stepStrEsc b).filter (t.step (b, n)).1 tout := by
  by_cases hb : b = 0x5c
  · subst hb
    rw [Emulator.step_of_afterEsc h (by decide)]
    exact (rfl : Emulator.calm .ground = true)
  · rw [stepStrEsc_other hb]
    exact stepEsc_tracks h

theorem sends_strC2 (hs : f.state = .strC2) :
    f.sends held (b, n) =
      (if f.strDrop then [] else held) ++ { f with state := .str }.strSent (b, n) := by
  cases hd : f.strDrop <;> simp [sends, strSent, fate, hs, meeting, dropFate, hd]

theorem stepStrC2_tracks (hs : f.state = .strC2) (hheld : Holds f held) (h : Tracks f t tout) :
    Tracks (f.stepStrC2 b).filter (t.step (b, n)).1 (tout.run (f.sends held (b, n))) := by
  simp only [Tracks, hs] at h
  obtain ⟨hafter, hstream⟩ := h
  obtain ⟨i, rfl⟩ : ∃ i, held = [(0xc2, i)] := by
    simp only [Holds, VtFilter.held, hs] at hheld
    obtain ⟨x, rfl, hx⟩ := List.map_eq_singleton_iff.mp hheld
    exact ⟨x.2, by simp [← hx]⟩
  by_cases hcont : isContinuation b
  · obtain ⟨⟨htext, hst⟩, -, hstr⟩ := Emulator.step_afterC2_char (n := n) hafter hcont
    rw [stepStrC2_char hcont]
    by_cases hb : b = 0x9c
    · simp only [hb, if_true]
      exact congrArg Emulator.calm (hb ▸ hst hb)
    · simp only [hb, if_false]
      refine ⟨htext, fun hd => (hstream hd).imp ?_ ?_⟩
      · rintro ⟨bel, rfl, hbel⟩
        exact ⟨bel, hstr bel rfl hb, hbel⟩
      · intro hout
        have hplain : b ≠ 0x1b ∧ b ≠ 0xc2 := by grind [isContinuation]
        have hd' : f.strDrop = false := hd
        have hsent : f.sends [(0xc2, i)] (b, n) = [(0xc2, i), (b, n)] := by
          simp [sends, fate, hs, meeting, strFate, dropFate, hplain, hd']
        rw [hsent, hout i]
        rfl
  · have hcont' : isContinuation b = false := by simpa using hcont
    obtain ⟨t₀, htext, hstep, -, hstr⟩ := Emulator.step_of_afterC2 (n := n) hafter hcont'
    rw [stepStrC2_other hcont', sends_strC2 hs, Emulator.run_append, hstep]
    refine stepStr_tracks htext fun hd => (hstream hd).imp ?_ ?_
    · rintro ⟨bel, rfl, hbel⟩
      exact ⟨bel, hstr bel rfl, hbel⟩
    · intro hout
      have hd' : f.strDrop = false := hd
      rw [← hstep, hd', hout i]
      rfl

/-- **One step keeps the filter and the two emulators related.** -/
theorem step_tracks (hheld : Holds f held) (h : Tracks f t tout) :
    Tracks (f.step b).filter (t.step (b, n)).1 (tout.run (f.sends held (b, n))) := by
  by_cases hid : Identifying f.state
  · rcases (tracks_identifying hid).mp h with hsync | rfl
    · rcases hsync.step (b := b) (n := n) with hstay | hleave
      · exact (tracks_identifying hstay.state).mpr (Or.inl hstay.sync)
      · exact hleave.tracks held tout
    · exact str_tracks hid
  rcases hs : f.state with _ | _ | _ | _ | _ | _ | _ | _ | _ <;> simp only [step, hs]
  case ground => exact stepGround_tracks (by simpa [Tracks, hs] using h)
  case utf8C2 => exact stepUtf8C2_tracks (by simpa [Tracks, hs] using h)
  case esc => exact stepEsc_tracks (by simpa [Tracks, hs] using h)
  case str =>
    simp only [Tracks, hs] at h
    obtain rfl : held = [] := by simpa [Holds, VtFilter.held, hs] using hheld
    have hsent : f.sends [] (b, n) = f.strSent (b, n) := by simp [sends, strSent, fate, hs, meeting]
    rw [hsent]
    refine stepStr_tracks h.1 fun hd => (h.2 hd).imp_right fun hout => ?_
    rw [hout]
  case strEsc => exact stepStrEsc_tracks (by simpa [Tracks, hs] using h)
  case strC2 => exact stepStrC2_tracks hs hheld h
  all_goals exact absurd (by simp [Identifying, hs]) hid

end VtFilter

end Terminal

end Willie
