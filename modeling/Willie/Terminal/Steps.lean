import Willie.Terminal.Filter
/-!
# What one byte does

`step` read as a disposition: every byte the filter holds back, and the
byte it is given, is kept, forwarded or withheld (`fate`), and the output
of the step and what is held after it are read off the two fates
(`step_out`, `step_held`). The laws of the terminal filter are stated
over these, so that none of them has to unfold the nine states again.
-/

namespace Willie

namespace Terminal

namespace Fed

@[simp] theorem after_filter (o : List UInt8) (d : List Drop) (r : Fed) :
    (r.after o d).filter = r.filter := rfl

@[simp] theorem after_out (o : List UInt8) (d : List Drop) (r : Fed) :
    (r.after o d).out = o ++ r.out := rfl

@[simp] theorem after_dropped (o : List UInt8) (d : List Drop) (r : Fed) :
    (r.after o d).dropped = d ++ r.dropped := rfl

end Fed

namespace VtFilter

/-! ## Feeding -/

@[simp] theorem feed_nil (f : VtFilter) : f.feed [] = ⟨f, [], []⟩ := rfl

theorem feed_cons (f : VtFilter) (b : UInt8) (input : List UInt8) :
    f.feed (b :: input) =
      ((f.step b).filter.feed input).after (f.step b).out (f.step b).dropped := rfl

/-- One byte fed is one step. -/
@[simp] theorem feed_singleton (f : VtFilter) (b : UInt8) : f.feed [b] = f.step b := by
  simp [feed_cons, Fed.after]

/-- Feeding two inputs is feeding their concatenation. -/
theorem feed_append (f : VtFilter) (u v : List UInt8) :
    f.feed (u ++ v) = ((f.feed u).filter.feed v).after (f.feed u).out (f.feed u).dropped := by
  induction u generalizing f with
  | nil => simp [Fed.after]
  | cons b u ih => simp [feed_cons, ih, Fed.after]

/-- The last byte fed is a step from the state the bytes before it left. -/
theorem feed_snoc (f : VtFilter) (u : List UInt8) (b : UInt8) :
    f.feed (u ++ [b]) =
      ((f.feed u).filter.step b).after (f.feed u).out (f.feed u).dropped := by
  rw [feed_append, feed_singleton]

/-- **The filter does not see the chunking.** -/
theorem feedChunks_eq (f : VtFilter) (chunks : List (List UInt8)) :
    f.feedChunks chunks = f.feed chunks.flatten := by
  induction chunks generalizing f with
  | nil => rfl
  | cons chunk chunks ih => simp [feedChunks, ih, feed_append]

/-! ## One equation for each state and byte class

A dropped sequence and a forwarded one go through the same hand-over: the
string state entered swallows the byte in one case and streams it in the
other, so each exit of an identify window is one equation. -/

/-- The states that identify a sequence. -/
def Identifying (s : State) : Prop := s = .csi ∨ s = .oscId ∨ s = .dcsId

/-- Where a byte read inside a string leads. -/
theorem stepStr_filter (f : VtFilter) (b : UInt8) :
    (f.stepStr b).filter =
      { f with
        state :=
          if b = 0x07 ∧ f.strBel then .ground
          else if b = 0x1b then .strEsc
          else if b = 0xc2 then .strC2
          else .str } := by
  unfold stepStr
  split_ifs <;> rfl

/-- Whether the CSI ending in `b` is dropped. -/
def csiDrops (f : VtFilter) (b : UInt8) : Bool := (csiDecision f.buf b).isSome || f.csiOver

/-- Whether the OSC whose number has just ended is dropped. -/
def oscDrops (f : VtFilter) : Bool := (oscDecision f.oscSeen f.oscNum).isSome || f.oscOver

/-- A parameter byte of a CSI, kept unless the buffer is frozen. -/
def pushCsi (f : VtFilter) (b : UInt8) : VtFilter :=
  if f.csiOver then f
  else { f with buf := f.buf ++ [b], csiOver := decide (csiCap ≤ f.buf.length + 1) }

/-- A digit of an OSC number: it always counts, and is kept unless the
buffer is frozen. -/
def pushOsc (f : VtFilter) (b : UInt8) : VtFilter :=
  { f with
    oscSeen := true
    oscNum := saturatingAdd (saturatingMul f.oscNum 10) (digitValue b)
    buf := if f.oscOver then f.buf else f.buf ++ [b]
    oscOver := f.oscOver || decide (oscIdCap ≤ f.buf.length + 1) }

/-- A parameter byte of a DCS, kept unless the buffer is frozen. -/
def pushDcs (f : VtFilter) (b : UInt8) : VtFilter :=
  if f.dcsOver then f
  else { f with buf := f.buf ++ [b], dcsOver := decide (oscIdCap ≤ f.buf.length + 1) }

theorem stepEsc_other {f : VtFilter} {b : UInt8} (h : ¬ (b = 0x5b ∨ b = 0x5d ∨ b = 0x50)) :
    f.stepEsc b = (f.stepGround b).after [0x1b] [] := by
  simp only [not_or] at h
  rw [stepEsc, if_neg h.1, if_neg h.2.1, if_neg h.2.2]

theorem stepUtf8C2_char {f : VtFilter} {b : UInt8} (h : ¬ (b = 0x9b ∨ b = 0x9d ∨ b = 0x90))
    (hc : isContinuation b) : f.stepUtf8C2 b = ⟨{ f with state := .ground }, [0xc2, b], []⟩ := by
  simp only [not_or] at h
  rw [stepUtf8C2, if_neg h.1, if_neg h.2.1, if_neg h.2.2, if_pos hc]

theorem stepUtf8C2_other {f : VtFilter} {b : UInt8} (hc : isContinuation b = false) :
    f.stepUtf8C2 b = (f.stepGround b).after [0xc2] [] := by
  have h : b ≠ 0x9b ∧ b ≠ 0x9d ∧ b ≠ 0x90 := by grind [isContinuation]
  rw [stepUtf8C2, if_neg h.1, if_neg h.2.1, if_neg h.2.2, if_neg (by simp [hc])]

theorem stepCsi_final {f : VtFilter} {b : UInt8} (h : isFinal b) :
    f.stepCsi b =
      ⟨f.closeCsi, if f.csiDrops b then [] else f.buf ++ [b], (csiDecision f.buf b).toList⟩ := by
  rw [stepCsi, if_pos h, csiDrops]
  cases csiDecision f.buf b <;> cases f.csiOver <;> simp

theorem stepCsi_param {f : VtFilter} {b : UInt8} (h : isParam b) :
    f.stepCsi b = ⟨f.pushCsi b, [], []⟩ := by
  have hf : isFinal b = false := by grind [isParam, isFinal]
  rw [stepCsi, if_neg (by simp [hf]), if_pos h, pushCsi]
  cases f.csiOver <;> simp

theorem stepCsi_c0 {f : VtFilter} {b : UInt8} (h : isC0 b) : f.stepCsi b = ⟨f, [b], []⟩ := by
  have hf : isFinal b = false := by grind [isC0, isFinal]
  have hp : isParam b = false := by grind [isC0, isParam]
  rw [stepCsi, if_neg (by simp [hf]), if_neg (by simp [hp]), if_pos h]

theorem stepCsi_del {f : VtFilter} : f.stepCsi 0x7f = ⟨f, [], []⟩ := by
  simp [stepCsi, isFinal, isParam, isC0]

theorem stepCsi_cancel {f : VtFilter} {b : UInt8} (hf : isFinal b = false)
    (hp : isParam b = false) (hc : isC0 b = false) (hd : b ≠ 0x7f) :
    f.stepCsi b = (f.closeCsi.stepGround b).after (if f.csiOver then [] else f.buf) [] := by
  rw [stepCsi, if_neg (by simp [hf]), if_neg (by simp [hp]), if_neg (by simp [hc]), if_neg hd]

theorem stepOscId_digit {f : VtFilter} {b : UInt8} (h : isDigit b) :
    f.stepOscId b = ⟨f.pushOsc b, [], []⟩ := by
  rw [stepOscId, if_pos h, pushOsc]
  cases f.oscOver <;> simp

theorem stepOscId_skip {f : VtFilter} {b : UInt8} (h : oscSkips b) :
    f.stepOscId b = ⟨f, [], []⟩ := by
  have hd : isDigit b = false := by grind [oscSkips, isC0, isDigit]
  rw [stepOscId, if_neg (by simp [hd]), if_pos h]

/-- The byte that ends an OSC number is the first byte of the string. -/
theorem stepOscId_exit {f : VtFilter} {b : UInt8} (hd : isDigit b = false)
    (hs : oscSkips b = false) :
    f.stepOscId b =
      ((f.enterStr f.oscDrops true).stepStr b).after (if f.oscDrops then [] else f.buf)
        (oscDecision f.oscSeen f.oscNum).toList := by
  have key : ∀ t : Bool, t = (b == 0x07 || b == 0x1b || b == 0xc2) → t = false →
      (f.enterStr true true).stepStr b = ⟨f.enterStr true true, [], []⟩ := by
    intro t ht hf
    rw [hf, eq_comm, Bool.or_eq_false_iff, Bool.or_eq_false_iff] at ht
    obtain ⟨⟨h7, he⟩, hc⟩ := ht
    simp only [beq_eq_false_iff_ne, ne_eq] at h7 he hc
    simp [stepStr, h7, he, hc, enterStr]
  rw [stepOscId, if_neg (by simp [hd]), if_neg (by simp [hs]), oscDrops]
  generalize ht : (b == 0x07 || b == 0x1b || b == 0xc2) = t
  cases oscDecision f.oscSeen f.oscNum <;> cases f.oscOver <;> cases t <;>
    simp [Fed.after, key _ ht.symm]

theorem stepDcsId_param {f : VtFilter} {b : UInt8} (h : isParam b) :
    f.stepDcsId b = ⟨f.pushDcs b, [], []⟩ := by
  rw [stepDcsId, if_pos h, pushDcs]
  cases f.dcsOver <;> simp

theorem stepDcsId_final {f : VtFilter} {b : UInt8} (h : isFinal b) :
    f.stepDcsId b =
      ⟨f.enterStr (f.dcsDrops b) false, if f.dcsDrops b then [] else f.buf ++ [b],
        if f.dcsDrops b then [.queryEcho] else []⟩ := by
  have hp : isParam b = false := by grind [isParam, isFinal]
  rw [stepDcsId, if_neg (by simp [hp]), if_pos h]
  cases f.dcsDrops b <;> simp

theorem stepDcsId_skip {f : VtFilter} {b : UInt8} (h : dcsSkips b) :
    f.stepDcsId b = ⟨f, [], []⟩ := by
  have hp : isParam b = false := by grind [dcsSkips, isC0, isParam]
  have hf : isFinal b = false := by grind [dcsSkips, isC0, isFinal]
  rw [stepDcsId, if_neg (by simp [hp]), if_neg (by simp [hf]), if_pos h]

/-- The byte that breaks off a DCS window is the first byte of the
string. -/
theorem stepDcsId_exit {f : VtFilter} {b : UInt8} (hp : isParam b = false)
    (hf : isFinal b = false) (hs : dcsSkips b = false) :
    f.stepDcsId b =
      ((f.enterStr f.dcsOver false).stepStr b).after (if f.dcsOver then [] else f.buf)
        (if f.dcsOver then [.queryEcho] else []) := by
  rw [stepDcsId, if_neg (by simp [hp]), if_neg (by simp [hf]), if_neg (by simp [hs])]
  cases f.dcsOver <;> simp

theorem stepStrEsc_other {f : VtFilter} {b : UInt8} (h : b ≠ 0x5c) :
    f.stepStrEsc b = { f with state := .esc }.stepEsc b := by
  rw [stepStrEsc, if_neg h]

/-- A continuation byte after `C2` inside a string, ST included. -/
theorem stepStrC2_char {f : VtFilter} {b : UInt8} (h : isContinuation b) :
    f.stepStrC2 b =
      ⟨{ f with state := if b = 0x9c then .ground else .str },
        if f.strDrop then [] else [0xc2, b], []⟩ := by
  unfold stepStrC2
  split_ifs <;> simp_all

theorem stepStrC2_other {f : VtFilter} {b : UInt8} (h : isContinuation b = false) :
    f.stepStrC2 b =
      ({ f with state := .str }.stepStr b).after (if f.strDrop then [] else [0xc2]) [] := by
  have h9 : b ≠ 0x9c := by grind [isContinuation]
  rw [stepStrC2, if_neg h9, if_neg (by simp [h])]

/-- The classes a CSI tells apart. -/
theorem csi_classes (b : UInt8) :
    isFinal b ∨ isParam b ∨ isC0 b ∨ b = 0x7f ∨
      (isFinal b = false ∧ isParam b = false ∧ isC0 b = false ∧ b ≠ 0x7f) := by
  cases isFinal b <;> cases isParam b <;> cases isC0 b <;> simp [em]

/-- The classes an OSC number tells apart. -/
theorem osc_classes (b : UInt8) :
    isDigit b ∨ oscSkips b ∨ (isDigit b = false ∧ oscSkips b = false) := by
  cases isDigit b <;> cases oscSkips b <;> simp

/-- The classes a DCS window tells apart. -/
theorem dcs_classes (b : UInt8) :
    isParam b ∨ isFinal b ∨ dcsSkips b ∨
      (isParam b = false ∧ isFinal b = false ∧ dcsSkips b = false) := by
  cases isParam b <;> cases isFinal b <;> cases dcsSkips b <;> simp

/-! ## What a step does with the bytes -/

/-- What happens to a byte in a step. -/
inductive Fate
  /-- Still held after the step. -/
  | keep
  /-- Pushed to the output. -/
  | forward
  /-- Discarded: it never reaches the output. -/
  | withhold
  deriving DecidableEq, Repr

/-- The bytes the filter has read and not yet disposed of: the buffer of
a sequence being identified, or the pending `ESC` or `C2`. -/
def held (f : VtFilter) : List UInt8 :=
  match f.state with
  | .ground | .str => []
  | .utf8C2 | .strC2 => [0xc2]
  | .esc | .strEsc => [0x1b]
  | .csi | .oscId | .dcsId => f.buf

/-- A byte read from ground: `ESC` and `C2` are looked ahead on. -/
def groundFate (b : UInt8) : Fate := if b = 0x1b ∨ b = 0xc2 then .keep else .forward

/-- A byte discarded or forwarded with the string it is part of. -/
def dropFate (drop : Bool) : Fate := if drop then .withhold else .forward

/-- A byte read inside a string. -/
def strFate (drop : Bool) (b : UInt8) : Fate :=
  if b = 0x1b ∨ b = 0xc2 then .keep else dropFate drop

/-- A byte read after an `ESC`. -/
def escFate (b : UInt8) : Fate × Fate :=
  if b = 0x5b ∨ b = 0x5d ∨ b = 0x50 then (.keep, .keep) else (.forward, groundFate b)

/-- The fates of the held bytes and of the byte read. -/
def fate (f : VtFilter) (b : UInt8) : Fate × Fate :=
  match f.state with
  | .ground => (.forward, groundFate b)
  | .utf8C2 =>
    if b = 0x9b ∨ b = 0x9d ∨ b = 0x90 then (.keep, .keep) else (.forward, groundFate b)
  | .esc => escFate b
  | .csi =>
    if isFinal b then (dropFate (f.csiDrops b), dropFate (f.csiDrops b))
    else if isParam b then (.keep, if f.csiOver then .withhold else .keep)
    else if isC0 b then (.keep, .forward)
    else if b = 0x7f then (.keep, .withhold)
    else (dropFate f.csiOver, groundFate b)
  | .oscId =>
    if isDigit b then (.keep, if f.oscOver then .withhold else .keep)
    else if oscSkips b then (.keep, .withhold)
    else (dropFate f.oscDrops, strFate f.oscDrops b)
  | .dcsId =>
    if isParam b then (.keep, if f.dcsOver then .withhold else .keep)
    else if isFinal b then (dropFate (f.dcsDrops b), dropFate (f.dcsDrops b))
    else if dcsSkips b then (.keep, .withhold)
    else (dropFate f.dcsOver, strFate f.dcsOver b)
  | .str => (dropFate f.strDrop, strFate f.strDrop b)
  | .strEsc =>
    if b = 0x5c then (dropFate f.strDrop, dropFate f.strDrop) else escFate b
  | .strC2 => (dropFate f.strDrop, strFate f.strDrop b)

/-- Those among `held` and `x` that meet the fate `k`, in order. -/
def meeting {α : Type} (held : List α) (x : α) (fates : Fate × Fate) (k : Fate) : List α :=
  (if fates.1 = k then held else []) ++ (if fates.2 = k then [x] else [])

theorem map_meeting {α β : Type} (h : α → β) (held : List α) (x : α) (fates : Fate × Fate)
    (k : Fate) : (meeting held x fates k).map h = meeting (held.map h) (h x) fates k := by
  unfold meeting
  split_ifs <;> simp

theorem mem_of_mem_meeting {α : Type} {held : List α} {x y : α} {fates : Fate × Fate} {k : Fate}
    (h : y ∈ meeting held x fates k) : y ∈ held ∨ y = x := by
  unfold meeting at h
  split_ifs at h <;> simp_all

/-- A step meets its fates: what it forwards and what it holds after it
are the bytes the fates say. -/
def Meets (r : Fed) (held : List UInt8) (b : UInt8) (fates : Fate × Fate) : Prop :=
  r.out = meeting held b fates .forward ∧ r.filter.held = meeting held b fates .keep

theorem stepGround_meets (f : VtFilter) (b : UInt8) :
    Meets (f.stepGround b) [] b (.forward, groundFate b) := by
  unfold stepGround
  split_ifs <;> simp_all [Meets, meeting, groundFate, VtFilter.held]

theorem stepStr_meets (f : VtFilter) (b : UInt8) :
    Meets (f.stepStr b) [] b (.forward, strFate f.strDrop b) := by
  unfold stepStr
  split_ifs <;> simp_all [Meets, meeting, strFate, dropFate, VtFilter.held]

/-- Handing a byte on after disposing of the held ones. -/
theorem Meets.after {r : Fed} {b : UInt8} {fb : Fate} {held : List UInt8} {drop : Bool}
    (h : Meets r [] b (.forward, fb)) (d : List Drop) :
    Meets (r.after (if drop then [] else held) d) held b (dropFate drop, fb) := by
  obtain ⟨ho, hk⟩ := h
  refine ⟨?_, ?_⟩
  · rw [Fed.after_out, ho]
    cases drop <;> simp [meeting, dropFate]
  · rw [Fed.after_filter, hk]
    cases drop <;> simp [meeting, dropFate]

/-- Handing a byte on after forwarding the held ones. -/
theorem Meets.after_forward {r : Fed} {b : UInt8} {fb : Fate}
    (h : Meets r [] b (.forward, fb)) (held : List UInt8) (d : List Drop) :
    Meets (r.after held d) held b (.forward, fb) := by
  simpa [dropFate] using @Meets.after r b fb held false h d

/-- With nothing held, the fate of the held bytes is idle. -/
theorem Meets.of_nil {r : Fed} {b : UInt8} {fa fa' fb : Fate} (h : Meets r [] b (fa, fb)) :
    Meets r [] b (fa', fb) := by
  simpa [Meets, meeting] using h

theorem stepEsc_meets (f : VtFilter) (b : UInt8) :
    Meets (f.stepEsc b) [0x1b] b (escFate b) := by
  by_cases h : b = 0x5b ∨ b = 0x5d ∨ b = 0x50
  · rcases h with rfl | rfl | rfl <;>
      simp [stepEsc, escFate, Meets, meeting, VtFilter.held, openSeq]
  · rw [escFate, if_neg h, stepEsc_other h]
    exact (stepGround_meets f b).after_forward [0x1b] []

theorem stepUtf8C2_meets (f : VtFilter) (b : UInt8) :
    Meets (f.stepUtf8C2 b) [0xc2] b
      (if b = 0x9b ∨ b = 0x9d ∨ b = 0x90 then (.keep, .keep) else (.forward, groundFate b)) := by
  by_cases h : b = 0x9b ∨ b = 0x9d ∨ b = 0x90
  · rcases h with rfl | rfl | rfl <;>
      simp [stepUtf8C2, Meets, meeting, VtFilter.held, openSeq]
  rw [if_neg h]
  by_cases hc : isContinuation b
  · have hb : groundFate b = .forward := by grind [groundFate, isContinuation]
    simp [stepUtf8C2_char h hc, Meets, meeting, VtFilter.held, hb]
  · rw [stepUtf8C2_other (by simpa using hc)]
    exact (stepGround_meets f b).after_forward [0xc2] []

theorem stepCsi_meets {f : VtFilter} (hs : f.state = .csi) (b : UInt8) :
    Meets (f.stepCsi b) f.held b (f.fate b) := by
  have hheld : f.held = f.buf := by simp [VtFilter.held, hs]
  simp only [hheld, fate, hs]
  split_ifs with hf hp ho hc hd
  · rw [stepCsi_final hf]
    cases f.csiDrops b <;> simp [Meets, meeting, dropFate, VtFilter.held, closeCsi]
  · simp [stepCsi_param hp, pushCsi, ho, Meets, meeting, hheld]
  · simp [stepCsi_param hp, pushCsi, ho, Meets, meeting, VtFilter.held, hs]
  · simp [stepCsi_c0 hc, Meets, meeting, hheld]
  · simp [hd, stepCsi_del, Meets, meeting, hheld]
  · rw [stepCsi_cancel (by simpa using hf) (by simpa using hp) (by simpa using hc) hd]
    exact (stepGround_meets f.closeCsi b).after []

theorem stepOscId_meets {f : VtFilter} (hs : f.state = .oscId) (b : UInt8) :
    Meets (f.stepOscId b) f.held b (f.fate b) := by
  have hheld : f.held = f.buf := by simp [VtFilter.held, hs]
  simp only [hheld, fate, hs]
  split_ifs with hd ho hk
  · simp [stepOscId_digit hd, pushOsc, ho, Meets, meeting, VtFilter.held, hs]
  · simp [stepOscId_digit hd, pushOsc, ho, Meets, meeting, VtFilter.held, hs]
  · simp [stepOscId_skip hk, Meets, meeting, hheld]
  · rw [stepOscId_exit (by simpa using hd) (by simpa using hk)]
    exact (stepStr_meets (f.enterStr f.oscDrops true) b).after _

theorem stepDcsId_meets {f : VtFilter} (hs : f.state = .dcsId) (b : UInt8) :
    Meets (f.stepDcsId b) f.held b (f.fate b) := by
  have hheld : f.held = f.buf := by simp [VtFilter.held, hs]
  simp only [hheld, fate, hs]
  split_ifs with hp ho hf hk
  · simp [stepDcsId_param hp, pushDcs, ho, Meets, meeting, hheld]
  · simp [stepDcsId_param hp, pushDcs, ho, Meets, meeting, VtFilter.held, hs]
  · rw [stepDcsId_final hf]
    cases f.dcsDrops b <;> simp [Meets, meeting, dropFate, VtFilter.held, enterStr]
  · simp [stepDcsId_skip hk, Meets, meeting, hheld]
  · rw [stepDcsId_exit (by simpa using hp) (by simpa using hf) (by simpa using hk)]
    exact (stepStr_meets (f.enterStr f.dcsOver false) b).after _

theorem stepStrEsc_meets (f : VtFilter) (b : UInt8) :
    Meets (f.stepStrEsc b) [0x1b] b
      (if b = 0x5c then (dropFate f.strDrop, dropFate f.strDrop) else escFate b) := by
  by_cases h : b = 0x5c
  · subst h
    cases hd : f.strDrop <;> simp [stepStrEsc, Meets, meeting, dropFate, VtFilter.held, hd]
  · rw [if_neg h, stepStrEsc_other h]
    exact stepEsc_meets { f with state := .esc } b

theorem stepStrC2_meets (f : VtFilter) (b : UInt8) :
    Meets (f.stepStrC2 b) [0xc2] b (dropFate f.strDrop, strFate f.strDrop b) := by
  by_cases hc : isContinuation b
  · have hb : strFate f.strDrop b = dropFate f.strDrop := by grind [strFate, isContinuation]
    rw [stepStrC2_char hc, hb]
    cases f.strDrop <;> split_ifs <;> simp_all [Meets, meeting, dropFate, VtFilter.held]
  · rw [stepStrC2_other (by simpa using hc)]
    exact (stepStr_meets { f with state := .str } b).after []

/-- **The fates are what a step does.** -/
theorem step_meets (f : VtFilter) (b : UInt8) : Meets (f.step b) f.held b (f.fate b) := by
  rcases hs : f.state with _ | _ | _ | _ | _ | _ | _ | _ | _ <;> simp only [step, hs]
  case csi => exact stepCsi_meets hs b
  case oscId => exact stepOscId_meets hs b
  case dcsId => exact stepDcsId_meets hs b
  all_goals simp only [VtFilter.held, fate, hs]
  · exact stepGround_meets f b
  · exact stepUtf8C2_meets f b
  · exact stepEsc_meets f b
  · exact (stepStr_meets f b).of_nil
  · exact stepStrEsc_meets f b
  · exact stepStrC2_meets f b

/-- What a step forwards. -/
theorem step_out (f : VtFilter) (b : UInt8) :
    (f.step b).out = meeting f.held b (f.fate b) .forward := (step_meets f b).1

/-- What is held after a step. -/
theorem step_held (f : VtFilter) (b : UInt8) :
    (f.step b).filter.held = meeting f.held b (f.fate b) .keep := (step_meets f b).2

/-! ## What a step records -/

/-- The name a step records. -/
def decides (f : VtFilter) (b : UInt8) : Option Drop :=
  match f.state with
  | .csi => if isFinal b then csiDecision f.buf b else none
  | .oscId => if isDigit b || oscSkips b then none else oscDecision f.oscSeen f.oscNum
  | .dcsId =>
    if isParam b then none
    else if isFinal b then (if f.dcsDrops b then some .queryEcho else none)
    else if dcsSkips b then none
    else if f.dcsOver then some .queryEcho
    else none
  | _ => none

@[simp] theorem stepGround_dropped (f : VtFilter) (b : UInt8) : (f.stepGround b).dropped = [] := by
  unfold stepGround; split_ifs <;> rfl

@[simp] theorem stepStr_dropped (f : VtFilter) (b : UInt8) : (f.stepStr b).dropped = [] := by
  unfold stepStr; split_ifs <;> rfl

@[simp] theorem stepEsc_dropped (f : VtFilter) (b : UInt8) : (f.stepEsc b).dropped = [] := by
  unfold stepEsc; split_ifs <;> simp

@[simp] theorem stepUtf8C2_dropped (f : VtFilter) (b : UInt8) :
    (f.stepUtf8C2 b).dropped = [] := by
  unfold stepUtf8C2; split_ifs <;> simp

@[simp] theorem stepStrEsc_dropped (f : VtFilter) (b : UInt8) : (f.stepStrEsc b).dropped = [] := by
  unfold stepStrEsc; split_ifs <;> simp

@[simp] theorem stepStrC2_dropped (f : VtFilter) (b : UInt8) : (f.stepStrC2 b).dropped = [] := by
  unfold stepStrC2; split_ifs <;> simp

/-- **A step records what it decides**, and nothing in the states that
identify nothing. -/
theorem step_dropped (f : VtFilter) (b : UInt8) : (f.step b).dropped = (f.decides b).toList := by
  rcases hs : f.state with _ | _ | _ | _ | _ | _ | _ | _ | _ <;> simp only [step, decides, hs]
  case csi =>
    rcases csi_classes b with h | h | h | rfl | ⟨hf, hp, hc, hd⟩
    · rw [stepCsi_final h, if_pos h]
    · rw [stepCsi_param h, if_neg (by grind [isParam, isFinal])]; rfl
    · rw [stepCsi_c0 h, if_neg (by grind [isC0, isFinal])]; rfl
    · rw [stepCsi_del, if_neg (by decide)]; rfl
    · simp [stepCsi_cancel hf hp hc hd, hf]
  case oscId =>
    rcases osc_classes b with h | h | ⟨hd, hk⟩
    · simp [stepOscId_digit h, h]
    · simp [stepOscId_skip h, h]
    · simp [stepOscId_exit hd hk, hd, hk]
  case dcsId =>
    rcases dcs_classes b with h | h | h | ⟨hp, hf, hk⟩
    · simp [stepDcsId_param h, h]
    · have hp : isParam b = false := by grind [isParam, isFinal]
      cases hd : f.dcsDrops b <;> simp [stepDcsId_final h, h, hp, hd]
    · have hp : isParam b = false := by grind [dcsSkips, isC0, isParam]
      have hf : isFinal b = false := by grind [dcsSkips, isC0, isFinal]
      simp [stepDcsId_skip h, h, hp, hf]
    · cases ho : f.dcsOver <;> simp [stepDcsId_exit hp hf hk, hp, hf, hk, ho]
  all_goals simp

end VtFilter

end Terminal

end Willie
