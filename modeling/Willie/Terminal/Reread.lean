import Mathlib.Data.List.Induction
import Mathlib.Data.List.Infix
import Willie.Terminal.Steps
/-!
# Re-reading the output

What a second filter makes of the bytes the first one forwards. The
reader `g` follows the filter `f` (`Follows`): where `f` is in ground so
is `g`, where `f` streams a string `g` streams the same one, and where
`f` still holds a sequence `g` stands where it will take that sequence
in as `f` did. The filter breaks this in one way only, by withholding a
sequence after bytes that left the reader inside another one. `insideAt`
says when that is so, and a run that never withholds there is re-read
without a drop (`reread_quiet`).
-/

namespace Willie

namespace Terminal

namespace VtFilter

variable {f g : VtFilter} {u v bytes : List UInt8} {b : UInt8} {P Q : VtFilter → Prop}

/-! ## Reading without recording -/

/-- Reading `bytes` records nothing, and `P` holds of the state they
lead to. -/
def Quietly (g : VtFilter) (bytes : List UInt8) (P : VtFilter → Prop) : Prop :=
  (g.feed bytes).dropped = [] ∧ P (g.feed bytes).filter

@[simp] theorem quietly_nil : Quietly g [] P ↔ P g := by simp [Quietly]

@[simp] theorem quietly_singleton :
    Quietly g [b] P ↔ (g.step b).dropped = [] ∧ P (g.step b).filter := by
  simp [Quietly]

theorem quietly_append : Quietly g (u ++ v) P ↔ Quietly g u fun g' => Quietly g' v P := by
  simp only [Quietly, feed_append, Fed.after_dropped, Fed.after_filter, List.append_eq_nil_iff]
  tauto

theorem quietly_cons : Quietly g (b :: v) P ↔ Quietly g [b] fun g' => Quietly g' v P := by
  rw [← List.singleton_append, quietly_append]

theorem Quietly.mono (h : Quietly g bytes P) (hPQ : ∀ g', P g' → Q g') : Quietly g bytes Q :=
  ⟨h.1, hPQ _ h.2⟩

/-- Reading on from where a quiet read led. -/
theorem Quietly.then (h : Quietly g u P) (hP : ∀ g', P g' → Quietly g' v Q) :
    Quietly g (u ++ v) Q :=
  quietly_append.mpr (h.mono hP)

/-! ## Where an introducer is taken in -/

/-- States in which `C2` is looked ahead on as an introducer, and not as a
character of a string. -/
def TakesC2 (g : VtFilter) : Prop :=
  g.state = .ground ∨ g.state = .utf8C2 ∨ g.state = .esc ∨ g.state = .csi ∨ g.state = .strEsc

/-- Ending the identification here records nothing and drops nothing. -/
def Passing (g : VtFilter) : Prop :=
  (g.state = .oscId → g.oscDrops = false) ∧ (g.state = .dcsId → g.dcsOver = false)

theorem oscDrops_eq_false :
    f.oscDrops = false ↔ oscDecision f.oscSeen f.oscNum = none ∧ f.oscOver = false := by
  simp [oscDrops]

theorem TakesC2.passing (h : TakesC2 g) : Passing g := by
  rcases h with h | h | h | h | h <;> simp [Passing, h]

theorem takesC2_of_ground (h : g.state = .ground) : TakesC2 g := Or.inl h

theorem TakesC2.reads_esc (h : TakesC2 g) : Quietly g [0x1b] (·.state = .esc) := by
  rcases h with h | h | h | h | h <;>
    simp [step, h, stepGround, stepUtf8C2, stepEsc, stepCsi, stepStrEsc, isContinuation, isFinal,
      isParam, isC0]

theorem TakesC2.reads_c2 (h : TakesC2 g) : Quietly g [0xc2] (·.state = .utf8C2) := by
  rcases h with h | h | h | h | h <;>
    simp [step, h, stepGround, stepUtf8C2, stepEsc, stepCsi, stepStrEsc, isContinuation, isFinal,
      isParam, isC0]

/-- An `ESC` leaves every sequence. -/
theorem Passing.reads_esc (h : Passing g) :
    Quietly g [0x1b] fun g' => g'.state = .esc ∨ g'.state = .strEsc := by
  by_cases ht : TakesC2 g
  · exact ht.reads_esc.mono fun _ => Or.inl
  rcases hs : g.state with _ | _ | _ | _ | _ | _ | _ | _ | _
  case oscId =>
    have hd := oscDrops_eq_false.mp (h.1 hs)
    simp [step, hs, stepOscId, isDigit, oscSkips, isC0, hd, stepStr]
  case dcsId =>
    simp [step, hs, stepDcsId, isParam, isFinal, dcsSkips, isC0, h.2 hs, stepStr]
  case str => simp [step, hs, stepStr]
  case strC2 => simp [step, hs, stepStrC2, isContinuation, stepStr]
  all_goals exact absurd (by simp [TakesC2, hs]) ht

/-- A byte that introduces nothing leaves ground in ground. -/
theorem stepGround_plain (he : b ≠ 0x1b) (hc : b ≠ 0xc2) :
    g.stepGround b = ⟨{ g with state := .ground }, [b], []⟩ := by
  rw [stepGround, if_neg he, if_neg hc]

/-- What a reader keeps when the filter forwards a C0 control out of a
CSI: the CSI still held will be taken in as before. -/
theorem Passing.reads_c0 (h : Passing g) (hb : isC0 b) :
    Quietly g [b] fun g' =>
      Passing g' ∧ (TakesC2 g → TakesC2 g') ∧ (g.state = .ground → g'.state = .ground) := by
  have he : b ≠ 0x1b := by grind [isC0]
  have hc : b ≠ 0xc2 := by grind [isC0]
  have hcont : isContinuation b = false := by grind [isC0, isContinuation]
  have hopen : ¬ (b = 0x5b ∨ b = 0x5d ∨ b = 0x50) := by grind [isC0]
  have hst : b ≠ 0x5c := by grind [isC0]
  rw [quietly_singleton]
  rcases hs : g.state with _ | _ | _ | _ | _ | _ | _ | _ | _ <;> simp only [step, hs]
  case ground => simp [stepGround_plain he hc, Passing, TakesC2]
  case utf8C2 => simp [stepUtf8C2_other hcont, stepGround_plain he hc, Passing, TakesC2]
  case esc => simp [stepEsc_other hopen, stepGround_plain he hc, Passing, TakesC2]
  case csi => simp [stepCsi_c0 hb, Passing, TakesC2, hs]
  case oscId =>
    have hd : isDigit b = false := by grind [isC0, isDigit]
    by_cases h7 : b = 0x07
    · have hno := h.1 hs
      rw [stepOscId_exit hd (by simp [h7, oscSkips]), hno, (oscDrops_eq_false.mp hno).1]
      simp [stepStr, h7, enterStr, Passing, TakesC2]
    · have hskip : oscSkips b := by simp [oscSkips, hb, h7]
      simpa [stepOscId_skip hskip, hs, TakesC2] using h
  case dcsId =>
    have hskip : dcsSkips b := by simp [dcsSkips, hb]
    simpa [stepDcsId_skip hskip, hs, TakesC2] using h
  case str =>
    unfold stepStr
    split_ifs <;> simp [Passing, TakesC2, hs]
  case strEsc =>
    simp [stepStrEsc_other hst, stepEsc_other hopen, stepGround_plain he hc, Passing, TakesC2]
  case strC2 =>
    rw [stepStrC2_other hcont]
    simp only [stepStr, he, hc, if_false]
    split_ifs <;> simp [Passing, TakesC2, hs]

/-! ## Taking a held sequence in -/

/-- The reader has identified what the filter has: they differ at most in
the string they last read. -/
def SameIdent (f g : VtFilter) : Prop :=
  g = { f with strDrop := g.strDrop, strBel := g.strBel }

/-- The reader stands where the held bytes open the sequence they opened
for the filter. -/
def Receptive (buf : List UInt8) (g : VtFilter) : Prop :=
  Passing g ∧ (buf.head? = some 0xc2 → TakesC2 g)

/-- The bytes held identify the sequence: whoever takes them in ends up
where the filter is. -/
def Identified (f : VtFilter) : Prop :=
  f.buf ≠ [] ∧ ∀ g, Receptive f.buf g → Quietly g f.buf (SameIdent f)

/-- The buffer of the sequence being identified is frozen. -/
def frozen (f : VtFilter) : Bool :=
  match f.state with
  | .csi => f.csiOver
  | .oscId => f.oscOver
  | .dcsId => f.dcsOver
  | _ => false

/-- The byte after `ESC` opens a sequence, the same for every filter. -/
theorem esc_opens (h : b = 0x5b ∨ b = 0x5d ∨ b = 0x50) :
    ∃ s, Identifying s ∧ ∀ f : VtFilter,
      f.stepEsc b = ⟨f.openSeq [0x1b, b] s, [], []⟩ ∧
        f.stepStrEsc b = ⟨f.openSeq [0x1b, b] s, [], []⟩ := by
  rcases h with rfl | rfl | rfl
  · exact ⟨.csi, by simp [Identifying], fun f => by simp [stepEsc, stepStrEsc, openSeq]⟩
  · exact ⟨.oscId, by simp [Identifying], fun f => by simp [stepEsc, stepStrEsc, openSeq]⟩
  · exact ⟨.dcsId, by simp [Identifying], fun f => by simp [stepEsc, stepStrEsc, openSeq]⟩

/-- The byte after `C2` opens a sequence, the same for every filter. -/
theorem c2_opens (h : b = 0x9b ∨ b = 0x9d ∨ b = 0x90) :
    ∃ s, Identifying s ∧ ∀ f : VtFilter,
      f.stepUtf8C2 b = ⟨f.openSeq [0xc2, b] s, [], []⟩ := by
  rcases h with rfl | rfl | rfl
  · exact ⟨.csi, by simp [Identifying], fun f => by simp [stepUtf8C2]⟩
  · exact ⟨.oscId, by simp [Identifying], fun f => by simp [stepUtf8C2]⟩
  · exact ⟨.dcsId, by simp [Identifying], fun f => by simp [stepUtf8C2]⟩

theorem sameIdent_open (f g : VtFilter) (buf : List UInt8) (s : State) :
    SameIdent (f.openSeq buf s) (g.openSeq buf s) := rfl

theorem identified_esc {s : State}
    (hopen : ∀ g : VtFilter, g.stepEsc b = ⟨g.openSeq [0x1b, b] s, [], []⟩ ∧
      g.stepStrEsc b = ⟨g.openSeq [0x1b, b] s, [], []⟩) :
    Identified (f.openSeq [0x1b, b] s) := by
  refine ⟨by simp [openSeq], fun g hg => ?_⟩
  refine quietly_cons.mpr (hg.1.reads_esc.mono fun g' hg' => ?_)
  rcases hg' with hs | hs <;>
    simpa [step, hs, (hopen g').1, (hopen g').2] using sameIdent_open f g' _ s

theorem identified_c2 {s : State}
    (hopen : ∀ g : VtFilter, g.stepUtf8C2 b = ⟨g.openSeq [0xc2, b] s, [], []⟩) :
    Identified (f.openSeq [0xc2, b] s) := by
  refine ⟨by simp [openSeq], fun g hg => ?_⟩
  refine quietly_cons.mpr ((hg.2 rfl).reads_c2.mono fun g' hs => ?_)
  simpa [step, hs, hopen g'] using sameIdent_open f g' _ s

/-- A byte kept with the held ones is identified with them. -/
theorem Identified.push {f' : VtFilter} (h : Identified f) (hb : f'.buf = f.buf ++ [b])
    (hstep : ∀ g, SameIdent f g → (g.step b).dropped = [] ∧ SameIdent f' (g.step b).filter) :
    Identified f' := by
  refine ⟨by simp [hb], fun g hg => ?_⟩
  have hhead : (f.buf ++ [b]).head? = f.buf.head? := by
    cases hf : f.buf with
    | nil => exact absurd hf h.1
    | cons => rfl
  rw [hb] at hg ⊢
  refine (h.2 g ⟨hg.1, fun hc => hg.2 (hhead ▸ hc)⟩).then fun g' hg' => ?_
  exact quietly_singleton.mpr (hstep g' hg')

theorem Identified.pushCsi (h : Identified f) (hs : f.state = .csi) (ho : f.csiOver = false)
    (hb : isParam b) : Identified (f.pushCsi b) := by
  refine h.push (b := b) (by simp [VtFilter.pushCsi, ho]) fun g hg => ?_
  have hgs : g.state = .csi := by rw [hg]; exact hs
  rw [step, hgs]
  simp only [stepCsi_param hb]
  rw [SameIdent] at hg ⊢
  rw [hg]
  simp [VtFilter.pushCsi, ho]

theorem Identified.pushOsc (h : Identified f) (hs : f.state = .oscId) (ho : f.oscOver = false)
    (hb : isDigit b) : Identified (f.pushOsc b) := by
  refine h.push (b := b) (by simp [VtFilter.pushOsc, ho]) fun g hg => ?_
  have hgs : g.state = .oscId := by rw [hg]; exact hs
  rw [step, hgs]
  simp only [stepOscId_digit hb]
  rw [SameIdent] at hg ⊢
  rw [hg]
  simp [VtFilter.pushOsc, ho]

theorem Identified.pushDcs (h : Identified f) (hs : f.state = .dcsId) (ho : f.dcsOver = false)
    (hb : isParam b) : Identified (f.pushDcs b) := by
  refine h.push (b := b) (by simp [VtFilter.pushDcs, ho]) fun g hg => ?_
  have hgs : g.state = .dcsId := by rw [hg]; exact hs
  rw [step, hgs]
  simp only [stepDcsId_param hb]
  rw [SameIdent] at hg ⊢
  rw [hg]
  simp [VtFilter.pushDcs, ho]

/-! ## Following the filter -/

/-- The reader stands where the string the filter is about to end, or
that an `ESC` or `C2` is pending in, ends for it too. -/
def EndsAlike (f g : VtFilter) : Prop :=
  Passing g ∧
    (((g.state = .str ∨ g.state = .strC2) ∧ g.strBel = f.strBel) ∨
      (g.state = .oscId ∧ f.strBel = true) ∨ (g.state = .dcsId ∧ f.strBel = false))

theorem EndsAlike.reads_esc (h : EndsAlike f g) : Quietly g [0x1b] (·.state = .strEsc) := by
  rw [quietly_singleton]
  obtain ⟨⟨hosc, hdcs⟩, ⟨hs | hs, -⟩ | ⟨hs, -⟩ | ⟨hs, -⟩⟩ := h <;> simp only [step, hs]
  · simp [stepStr]
  · simp [stepStrC2_other, isContinuation, stepStr]
  · rw [stepOscId_exit (by decide) (by decide), hosc hs,
      (oscDrops_eq_false.mp (hosc hs)).1]
    simp [stepStr]
  · rw [stepDcsId_exit (by decide) (by decide) (by decide), hdcs hs]
    simp [stepStr]

theorem EndsAlike.reads_c2 (h : EndsAlike f g) :
    Quietly g [0xc2] fun g' => g'.state = .strC2 ∧ g'.strBel = f.strBel := by
  rw [quietly_singleton]
  obtain ⟨⟨hosc, hdcs⟩, ⟨hs | hs, hbel⟩ | ⟨hs, hbel⟩ | ⟨hs, hbel⟩⟩ := h <;> simp only [step, hs]
  · simp [stepStr, hbel]
  · simp [stepStrC2_other, isContinuation, stepStr, hbel]
  · rw [stepOscId_exit (by decide) (by decide), hosc hs,
      (oscDrops_eq_false.mp (hosc hs)).1]
    simp [stepStr, enterStr, hbel]
  · rw [stepDcsId_exit (by decide) (by decide) (by decide), hdcs hs]
    simp [stepStr, enterStr, hbel]

/-- Whether the sequence the filter reads next to `b` was introduced
inside another one that went out: the bytes forwarded so far leave the
reader in the middle of something. -/
def insideAfter (f : VtFilter) (inside : Bool) (b : UInt8) : Bool :=
  if (f.fate b).1 = .forward then decide (f.state ≠ .ground) else inside

/-- **The reader follows the filter.** -/
def Follows (f : VtFilter) (inside : Bool) (g : VtFilter) : Prop :=
  match f.state with
  | .ground => g.state = .ground
  | .utf8C2 | .esc => TakesC2 g ∧ (inside = false → g.state = .ground)
  | .csi | .oscId | .dcsId =>
    Receptive f.buf g ∧ (f.frozen = false → Identified f) ∧ (inside = false → g.state = .ground)
  | .str =>
    if f.strDrop then g.state = .ground
    else inside = true ∧ g.state = .str ∧ g.strBel = f.strBel
  | .strEsc | .strC2 =>
    if f.strDrop then g.state = .ground else inside = true ∧ EndsAlike f g

/-! ## One step of the filter -/

variable {inside : Bool}

/-- A ground step with the reader in ground. -/
theorem stepGround_follows (hg : g.state = .ground) :
    Quietly g (f.stepGround b).out (Follows (f.stepGround b).filter inside) := by
  by_cases he : b = 0x1b
  · simp [he, stepGround, Follows, TakesC2, hg]
  by_cases hc : b = 0xc2
  · simp [hc, stepGround, Follows, TakesC2, hg]
  · rw [stepGround_plain he hc]
    simp [step, hg, stepGround_plain he hc, Follows]

/-- A ground step with the reader in the middle of what the byte breaks
off, or still looking ahead. -/
theorem stepGround_follows_inside (ht : TakesC2 g)
    (hplain : b ≠ 0x1b → b ≠ 0xc2 → Quietly g [b] (·.state = .ground)) :
    Quietly g (f.stepGround b).out (Follows (f.stepGround b).filter true) := by
  by_cases he : b = 0x1b
  · simp [he, stepGround, Follows, ht]
  by_cases hc : b = 0xc2
  · simp [hc, stepGround, Follows, ht]
  · rw [stepGround_plain he hc]
    simpa [Follows] using hplain he hc

/-- A byte of a forwarded string. -/
theorem stepStr_follows (hd : f.strDrop = false) (hg : g.state = .str)
    (hbel : g.strBel = f.strBel) :
    Quietly g (f.stepStr b).out (Follows (f.stepStr b).filter true) := by
  have hgstep : g.step b = g.stepStr b := by simp [step, hg]
  simp only [stepStr, hd, Bool.false_eq_true, if_false]
  split_ifs with h7 he hc
  · obtain ⟨rfl, hbelf⟩ := h7
    simp [hgstep, stepStr, hbel, hbelf, Follows]
  · simp [Follows, EndsAlike, Passing, hg, hbel]
  · simp [Follows, EndsAlike, Passing, hg, hbel]
  · rw [quietly_singleton, hgstep, stepStr, hbel, if_neg h7, if_neg he, if_neg hc]
    simp [Follows]

/-- A byte of a dropped string. -/
theorem stepStr_follows_dropped (hd : f.strDrop = true) (hg : g.state = .ground) :
    Quietly g (f.stepStr b).out (Follows (f.stepStr b).filter inside) := by
  unfold stepStr
  split_ifs <;> simp [Follows, hd, hg]

/-- The byte after an `ESC` the reader has not seen yet. -/
theorem stepEsc_follows (ht : TakesC2 g) (hout : inside = false → g.state = .ground) :
    Quietly g (f.stepEsc b).out
      (Follows (f.stepEsc b).filter (if (escFate b).1 = .forward then true else inside)) := by
  by_cases h : b = 0x5b ∨ b = 0x5d ∨ b = 0x50
  · obtain ⟨s, hs, hopen⟩ := esc_opens h
    rw [(hopen f).1, escFate, if_pos h]
    have hid : Identified (f.openSeq [0x1b, b] s) := identified_esc hopen
    rcases hs with rfl | rfl | rfl <;>
      simpa [Follows, openSeq, Receptive, ht.passing] using ⟨fun _ => hid, hout⟩
  · rw [stepEsc_other h, escFate, if_neg h]
    refine ht.reads_esc.then fun g' hg' => ?_
    refine stepGround_follows_inside (by simp [TakesC2, hg']) fun he hc => ?_
    simp [step, hg', stepEsc_other h, stepGround_plain he hc]

/-- The byte after a `C2` the reader has not seen yet. -/
theorem stepUtf8C2_follows (ht : TakesC2 g) (hout : inside = false → g.state = .ground) :
    Quietly g (f.stepUtf8C2 b).out
      (Follows (f.stepUtf8C2 b).filter
        (if b = 0x9b ∨ b = 0x9d ∨ b = 0x90 then inside else true)) := by
  by_cases h : b = 0x9b ∨ b = 0x9d ∨ b = 0x90
  · obtain ⟨s, hs, hopen⟩ := c2_opens h
    rw [hopen f, if_pos h]
    have hid : Identified (f.openSeq [0xc2, b] s) := identified_c2 hopen
    rcases hs with rfl | rfl | rfl <;>
      simpa [Follows, openSeq, Receptive, ht, ht.passing] using ⟨fun _ => hid, hout⟩
  rw [if_neg h]
  by_cases hc : isContinuation b
  · rw [stepUtf8C2_char h hc]
    refine quietly_cons.mpr (ht.reads_c2.mono fun g' hg' => ?_)
    simp [step, hg', stepUtf8C2_char h hc, Follows]
  · have hcont : isContinuation b = false := by simpa using hc
    rw [stepUtf8C2_other hcont]
    refine ht.reads_c2.then fun g' hg' => ?_
    refine stepGround_follows_inside (by simp [TakesC2, hg']) fun he hc2 => ?_
    simp [step, hg', stepUtf8C2_other hcont, stepGround_plain he hc2]

/-- What following means while a sequence is identified. -/
theorem follows_identifying (hs : Identifying f.state) :
    Follows f inside g ↔
      Receptive f.buf g ∧ (f.frozen = false → Identified f) ∧
        (inside = false → g.state = .ground) := by
  rcases hs with hs | hs | hs <;> simp [Follows, hs]

theorem Receptive.push {buf : List UInt8} (h : Receptive buf g) (hne : buf ≠ []) (b : UInt8) :
    Receptive (buf ++ [b]) g := by
  refine ⟨h.1, fun hh => h.2 ?_⟩
  cases buf with
  | nil => exact absurd rfl hne
  | cons => exact hh

theorem SameIdent.state_eq (h : SameIdent f g) : g.state = f.state := by rw [h]

theorem SameIdent.buf_eq (h : SameIdent f g) : g.buf = f.buf := by rw [h]

theorem stepCsi_follows (hs : f.state = .csi) (h : Follows f inside g)
    (hw : (f.fate b).1 = .withhold → inside = false) :
    Quietly g (f.stepCsi b).out (Follows (f.stepCsi b).filter (insideAfter f inside b)) := by
  have hfrozen : f.frozen = f.csiOver := by simp [frozen, hs]
  have hsame := h
  rw [follows_identifying (Or.inl hs), hfrozen] at h
  obtain ⟨hrec, hid, hout⟩ := h
  simp only [insideAfter, fate, hs] at hw ⊢
  rcases csi_classes b with hb | hb | hb | rfl | ⟨hf, hp, hc, hd⟩
  · rw [stepCsi_final hb]
    cases hdrop : f.csiDrops b
    · have hno : csiDecision f.buf b = none ∧ f.csiOver = false := by simpa [csiDrops] using hdrop
      refine ((hid hno.2).2 g hrec).then fun g' hg' => ?_
      have hgs : g'.state = .csi := hg'.state_eq.trans hs
      simp [step, hgs, stepCsi_final hb, hg'.buf_eq, hno, Follows, closeCsi]
    · have hin : g.state = .ground := hout (hw (by simp [hb, hdrop, dropFate]))
      simp [Follows, closeCsi, hin]
  · have hf : isFinal b = false := by grind [isParam, isFinal]
    rw [stepCsi_param hb]
    cases ho : f.csiOver
    · have hpush := (hid ho).pushCsi hs ho hb
      have hrec' := hrec.push (hid ho).1 b
      simp only [hf, hb, quietly_nil]
      rw [follows_identifying (by simp [pushCsi, ho, hs, Identifying])]
      exact ⟨by simpa [pushCsi, ho] using hrec', fun _ => hpush, hout⟩
    · simpa [pushCsi, ho, hf, hb] using hsame
  · have hf : isFinal b = false := by grind [isC0, isFinal]
    have hp : isParam b = false := by grind [isC0, isParam]
    rw [stepCsi_c0 hb]
    refine (hrec.1.reads_c0 hb).mono fun g' hg' => ?_
    obtain ⟨hpass, htakes, hground⟩ := hg'
    simp only [hf, hp, hb]
    rw [follows_identifying (Or.inl hs), hfrozen]
    exact ⟨⟨hpass, fun hh => htakes (hrec.2 hh)⟩, hid, fun hi => hground (hout hi)⟩
  · rw [stepCsi_del]
    simpa [isFinal, isParam, isC0] using hsame
  · rw [stepCsi_cancel hf hp hc hd]
    cases ho : f.csiOver
    · refine ((hid ho).2 g hrec).then fun g' hg' => ?_
      have hgs : g'.state = .csi := hg'.state_eq.trans hs
      simp only [hf, hp, hc, hd, dropFate]
      refine stepGround_follows_inside (by simp [TakesC2, hgs]) fun he hc2 => ?_
      simp [step, hgs, stepCsi_cancel hf hp hc hd, stepGround_plain he hc2]
    · have hin : g.state = .ground := hout (hw (by simp [hf, hp, hc, hd, ho, dropFate]))
      simpa using stepGround_follows hin

/-- The byte that ends an identify window with a forwarded string: the
reader, still identifying, takes it as `f` takes it inside the string. -/
theorem stepStr_follows_ended (hd : f.strDrop = false) (hends : EndsAlike f g)
    (hplain : b ≠ 0x1b → b ≠ 0xc2 →
      Quietly g [b] fun g' =>
        if b = 0x07 ∧ f.strBel then g'.state = .ground
        else g'.state = .str ∧ g'.strBel = f.strBel) :
    Quietly g (f.stepStr b).out (Follows (f.stepStr b).filter true) := by
  simp only [stepStr, hd, Bool.false_eq_true, if_false]
  split_ifs with h7 he hc
  · obtain ⟨rfl, hbel⟩ := h7
    simpa [hbel, Follows] using hplain (by decide) (by decide)
  · simpa [Follows, EndsAlike] using hends
  · simpa [Follows, EndsAlike] using hends
  · simpa [Follows, h7] using hplain he hc

theorem stepStr_plain (he : b ≠ 0x1b) (hc : b ≠ 0xc2) :
    if b = 0x07 ∧ g.strBel then (g.stepStr b).filter.state = .ground
    else (g.stepStr b).filter.state = .str ∧ (g.stepStr b).filter.strBel = g.strBel := by
  unfold stepStr
  split_ifs <;> simp

theorem stepOscId_follows (hs : f.state = .oscId) (h : Follows f inside g)
    (hw : (f.fate b).1 = .withhold → inside = false) :
    Quietly g (f.stepOscId b).out (Follows (f.stepOscId b).filter (insideAfter f inside b)) := by
  have hfrozen : f.frozen = f.oscOver := by simp [frozen, hs]
  have hsame := h
  have hident : Identifying f.state := Or.inr (Or.inl hs)
  rw [follows_identifying hident, hfrozen] at h
  obtain ⟨hrec, hid, hout⟩ := h
  simp only [insideAfter, fate, hs] at hw ⊢
  rcases osc_classes b with hb | hb | ⟨hd, hk⟩
  · rw [stepOscId_digit hb]
    simp only [hb, quietly_nil]
    rw [follows_identifying (by simp [pushOsc, hs, Identifying])]
    cases ho : f.oscOver
    · have hpush := (hid ho).pushOsc hs ho hb
      have hrec' := hrec.push (hid ho).1 b
      exact ⟨by simpa [pushOsc, ho] using hrec', fun _ => hpush, hout⟩
    · exact ⟨by simpa [pushOsc, ho] using hrec, by simp [frozen, pushOsc, hs, ho], hout⟩
  · have hd : isDigit b = false := by grind [oscSkips, isC0, isDigit]
    rw [stepOscId_skip hb]
    simpa [hd, hb] using hsame
  · rw [stepOscId_exit hd hk]
    cases hdrop : f.oscDrops
    · obtain ⟨hdec, ho⟩ := oscDrops_eq_false.mp hdrop
      refine ((hid ho).2 g hrec).then fun g' hg' => ?_
      have hgs : g'.state = .oscId := hg'.state_eq.trans hs
      have hgdrop : g'.oscDrops = false := by rw [hg']; exact hdrop
      have hstr := stepStr_follows_ended (b := b) (f := f.enterStr false true) (g := g') rfl
        ⟨⟨fun _ => hgdrop, by simp [hgs]⟩, Or.inr (Or.inl ⟨hgs, rfl⟩)⟩ fun he hc => by
          have hplain := stepStr_plain (g := g'.enterStr false true) he hc
          rw [quietly_singleton, step, hgs]
          simp only [stepOscId_exit hd hk, hgdrop, (oscDrops_eq_false.mp hgdrop).1]
          exact ⟨by simp, hplain⟩
      simpa [hd, hk, dropFate] using hstr
    · have hin : g.state = .ground := hout (hw (by simp [hd, hk, hdrop, dropFate]))
      simpa using stepStr_follows_dropped (by simp [enterStr]) hin

theorem stepDcsId_follows (hs : f.state = .dcsId) (h : Follows f inside g)
    (hw : (f.fate b).1 = .withhold → inside = false) :
    Quietly g (f.stepDcsId b).out (Follows (f.stepDcsId b).filter (insideAfter f inside b)) := by
  have hfrozen : f.frozen = f.dcsOver := by simp [frozen, hs]
  have hsame := h
  have hident : Identifying f.state := Or.inr (Or.inr hs)
  rw [follows_identifying hident, hfrozen] at h
  obtain ⟨hrec, hid, hout⟩ := h
  simp only [insideAfter, fate, hs] at hw ⊢
  rcases dcs_classes b with hb | hb | hb | ⟨hp, hf, hk⟩
  · rw [stepDcsId_param hb]
    cases ho : f.dcsOver
    · have hpush := (hid ho).pushDcs hs ho hb
      have hrec' := hrec.push (hid ho).1 b
      simp only [hb, quietly_nil]
      rw [follows_identifying (by simp [pushDcs, ho, hs, Identifying])]
      exact ⟨by simpa [pushDcs, ho] using hrec', fun _ => hpush, hout⟩
    · simpa [pushDcs, ho, hb] using hsame
  · have hp : isParam b = false := by grind [isParam, isFinal]
    rw [stepDcsId_final hb]
    cases hdrop : f.dcsDrops b
    · have ho : f.dcsOver = false := by simp_all [dcsDrops]
      refine ((hid ho).2 g hrec).then fun g' hg' => ?_
      have hgs : g'.state = .dcsId := hg'.state_eq.trans hs
      have hgdrop : g'.dcsDrops b = false := by rw [hg']; exact hdrop
      simp [step, hgs, stepDcsId_final hb, hgdrop, hp, hb, dropFate, Follows, enterStr]
    · have hin : g.state = .ground := hout (hw (by simp [hp, hb, hdrop, dropFate]))
      simp [Follows, enterStr, hin]
  · have hp : isParam b = false := by grind [dcsSkips, isC0, isParam]
    have hf : isFinal b = false := by grind [dcsSkips, isC0, isFinal]
    rw [stepDcsId_skip hb]
    simpa [hp, hf, hb] using hsame
  · rw [stepDcsId_exit hp hf hk]
    cases ho : f.dcsOver
    · refine ((hid ho).2 g hrec).then fun g' hg' => ?_
      have hgs : g'.state = .dcsId := hg'.state_eq.trans hs
      have hgo : g'.dcsOver = false := by rw [hg']; exact ho
      have hstr := stepStr_follows_ended (b := b) (f := f.enterStr false false) (g := g') rfl
        ⟨⟨by simp [hgs], fun _ => hgo⟩, Or.inr (Or.inr ⟨hgs, rfl⟩)⟩ fun he hc => by
          have hplain := stepStr_plain (g := g'.enterStr false false) he hc
          rw [quietly_singleton, step, hgs]
          simp only [stepDcsId_exit hp hf hk, hgo]
          exact ⟨by simp, hplain⟩
      simpa [hp, hf, hk, dropFate] using hstr
    · have hin : g.state = .ground := hout (hw (by simp [hp, hf, hk, ho, dropFate]))
      simpa using stepStr_follows_dropped (by simp [enterStr]) hin

theorem stepStrEsc_follows (hs : f.state = .strEsc) (h : Follows f inside g) :
    Quietly g (f.stepStrEsc b).out (Follows (f.stepStrEsc b).filter (insideAfter f inside b)) := by
  simp only [Follows, hs] at h
  simp only [insideAfter, fate, hs]
  cases hd : f.strDrop
  case true =>
    simp only [hd, if_true] at h
    by_cases hst : b = 0x5c
    · simp [hst, stepStrEsc, hd, Follows, h]
    · rw [stepStrEsc_other hst, if_neg hst]
      simpa using stepEsc_follows (f := { f with state := .esc }) (takesC2_of_ground h)
        fun _ => h
  case false =>
    simp only [hd, Bool.false_eq_true, if_false] at h
    obtain ⟨hin, hends⟩ := h
    by_cases hst : b = 0x5c
    · simp only [hst, stepStrEsc, hd, dropFate]
      refine quietly_cons.mpr (hends.reads_esc.mono fun g' hg' => ?_)
      simp [step, hg', stepStrEsc, Follows]
    by_cases hopen : b = 0x5b ∨ b = 0x5d ∨ b = 0x50
    · obtain ⟨s, hs', hopens⟩ := esc_opens hopen
      have hid : Identified (f.openSeq [0x1b, b] s) := identified_esc hopens
      rw [(hopens f).2, if_neg hst, escFate, if_pos hopen]
      rw [quietly_nil, follows_identifying (by simpa [openSeq] using hs')]
      exact ⟨⟨hends.1, by simp [openSeq]⟩, fun _ => hid, by simp [hin]⟩
    · rw [stepStrEsc_other hst, stepEsc_other hopen, if_neg hst, escFate, if_neg hopen]
      refine hends.reads_esc.then fun g' hg' => ?_
      refine stepGround_follows_inside (by simp [TakesC2, hg']) fun he hc => ?_
      simp [step, hg', stepStrEsc_other hst, stepEsc_other hopen, stepGround_plain he hc]

theorem stepStrC2_follows (hs : f.state = .strC2) (h : Follows f inside g) :
    Quietly g (f.stepStrC2 b).out (Follows (f.stepStrC2 b).filter (insideAfter f inside b)) := by
  simp only [Follows, hs] at h
  simp only [insideAfter, fate, hs]
  by_cases hcont : isContinuation b
  · rw [stepStrC2_char hcont]
    cases hd : f.strDrop
    · simp only [hd, Bool.false_eq_true, if_false] at h
      refine quietly_cons.mpr (h.2.reads_c2.mono fun g' hg' => ?_)
      obtain ⟨hg', hbel⟩ := hg'
      rw [quietly_singleton, step, hg']
      simp only [stepStrC2_char hcont]
      by_cases hst : b = 0x9c <;> simp [hst, Follows, dropFate, hbel]
    · simp only [hd, if_true] at h
      by_cases hst : b = 0x9c <;> simp [hst, Follows, h]
  · have hcont' : isContinuation b = false := by simpa using hcont
    rw [stepStrC2_other hcont']
    cases hd : f.strDrop
    · simp only [hd, Bool.false_eq_true, if_false] at h
      refine h.2.reads_c2.then fun g' hg' => ?_
      obtain ⟨hg', hbel⟩ := hg'
      have hstr := stepStr_follows_ended (b := b) (f := { f with state := .str }) (g := g') hd
        ⟨by simp [Passing, hg'], Or.inl ⟨Or.inr hg', hbel⟩⟩ fun he hc => by
          have hplain := stepStr_plain (g := { g' with state := .str }) he hc
          rw [quietly_singleton, step, hg']
          simp only [stepStrC2_other hcont']
          exact ⟨by simp, hbel ▸ hplain⟩
      simpa [hd, dropFate] using hstr
    · simp only [hd, if_true] at h
      simpa [hd] using stepStr_follows_dropped (f := { f with state := .str }) hd h

/-- **One step is followed.** Reading what a step forwards, the reader
records nothing and follows the filter on, provided the step withholds
nothing that was introduced inside something else. -/
theorem step_follows (h : Follows f inside g) (hw : (f.fate b).1 = .withhold → inside = false) :
    Quietly g (f.step b).out (Follows (f.step b).filter (insideAfter f inside b)) := by
  rcases hs : f.state with _ | _ | _ | _ | _ | _ | _ | _ | _ <;> simp only [step, hs]
  case ground => exact stepGround_follows (by simpa [Follows, hs] using h)
  case utf8C2 =>
    simp only [Follows, hs] at h
    have hstep := stepUtf8C2_follows (f := f) (b := b) h.1 h.2
    simp only [insideAfter, fate, hs]
    split_ifs at hstep ⊢ <;> simp_all
  case esc =>
    simp only [Follows, hs] at h
    simpa [insideAfter, fate, hs] using stepEsc_follows h.1 h.2
  case csi => exact stepCsi_follows hs h hw
  case oscId => exact stepOscId_follows hs h hw
  case dcsId => exact stepDcsId_follows hs h hw
  case str =>
    cases hd : f.strDrop
    · simp only [Follows, hs, hd] at h
      simpa [insideAfter, fate, hs, hd, dropFate] using stepStr_follows hd h.2.1 h.2.2
    · simp only [Follows, hs, hd] at h
      exact stepStr_follows_dropped hd h
  case strEsc => exact stepStrEsc_follows hs h
  case strC2 => exact stepStrC2_follows hs h

/-! ## A session -/

/-- The filter, and whether it is inside something that went out, after
the bytes read so far. -/
def watch : List UInt8 → VtFilter × Bool :=
  List.foldl (fun s b => ((s.1.step b).filter, insideAfter s.1 s.2 b)) (new, false)

@[simp] theorem watch_snoc (u : List UInt8) (b : UInt8) :
    watch (u ++ [b]) =
      (((watch u).1.step b).filter, insideAfter (watch u).1 (watch u).2 b) := by
  simp [watch]

/-- Watching does not change what the filter does. -/
theorem watch_fst (u : List UInt8) : (watch u).1 = (new.feed u).filter := by
  induction u using List.reverseRecOn with
  | nil => rfl
  | append_singleton u b ih => rw [watch_snoc, feed_snoc, ih, Fed.after_filter]

/-- The step on the last of the bytes read withholds a sequence that was
introduced inside another one. -/
def tears (u : List UInt8) (b : UInt8) : Bool :=
  (watch u).2 && ((watch u).1.fate b).1 == .withhold

/-- **A reader of the output follows the filter through a whole run.** -/
theorem feed_follows {input : List UInt8}
    (h : ∀ u b, u ++ [b] <+: input → tears u b = false) :
    Quietly new (new.feed input).out (Follows (watch input).1 (watch input).2) := by
  induction input using List.reverseRecOn with
  | nil => simp [Follows, watch, new]
  | append_singleton u b ih =>
    have hrun := ih fun v c hv => h v c (hv.trans (List.prefix_append u [b]))
    have hb : ((watch u).1.fate b).1 = .withhold → (watch u).2 = false := by
      intro hf
      simpa [tears, hf] using h u b (List.prefix_refl _)
    rw [feed_snoc, Fed.after_out, watch_snoc, ← watch_fst]
    exact hrun.then fun g hg => step_follows hg hb

/-- **Refused sequences leave no acting one behind.** The output of a
session that withholds no sequence from the middle of another one is read
again without a drop. -/
theorem reread_quiet (chunks : List (List UInt8))
    (h : ∀ u b, u ++ [b] <+: chunks.flatten → tears u b = false) :
    (new.feedChunks [(new.feedChunks chunks).out]).dropped = [] := by
  rw [feedChunks_eq, feedChunks_eq, List.flatten_singleton]
  exact (feed_follows h).1

/-- A clipboard write refused between two letters. -/
theorem reread_quiet_clipboard :
    (new.feedChunks
      [(new.feedChunks [[0x41, 0x1b, 0x5d, 0x35], [0x32, 0x3b, 0x78, 0x07, 0x42]]).out]).dropped
        = [] := by
  have h : ∀ u ∈ [0x41, 0x1b, 0x5d, 0x35, 0x32, 0x3b, 0x78, 0x07, 0x42].inits,
      u = [] ∨ tears u.dropLast (u.getLastD 0) = false := by decide
  refine reread_quiet _ fun u b hu => ?_
  simpa using h (u ++ [b]) ((List.mem_inits _ _).mpr hu)

/-- An `ESC` goes out ahead of the refused sequence that broke it off,
and the terminal reads it with the bytes that follow. -/
theorem reread_acts :
    ¬ ∀ chunks : List (List UInt8),
      (new.feedChunks [(new.feedChunks chunks).out]).dropped = [] := by
  intro h
  have hbad := h [[0x1b, 0x1b, 0x5d, 0x35, 0x32, 0x3b, 0x78, 0x07,
    0x5d, 0x35, 0x32, 0x3b, 0x79, 0x07]]
  exact absurd hbad (by decide)

end VtFilter

end Terminal

end Willie
