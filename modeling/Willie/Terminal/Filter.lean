import Mathlib.Data.Nat.Notation
import Mathlib.Data.List.TakeWhile
/-!
# The terminal filter

`VtFilter` of `willie-sess`, the byte automaton between the harness's
output and the terminals. Each state of the automaton is one function
here, and a byte a state hands on is processed by the function of the
state it is handed to. The hand-overs go one way (`strEsc` to `esc`,
`esc`, `utf8C2` and `csi` to `ground`, `oscId`, `dcsId` and `strC2` to
`str`), so no function is recursive.
-/

namespace Willie

namespace Terminal

/-- `u32::MAX`. -/
def u32Max : ℕ := 4294967295

/-- `OSC_ID_CAP`: bytes buffered while identifying an OSC or DCS type. -/
def oscIdCap : ℕ := 16

/-- `CSI_CAP`: bytes buffered for a CSI before its final byte. -/
def csiCap : ℕ := 256

/-- Where the automaton is between bytes. -/
inductive State
  | ground
  | utf8C2
  | esc
  | csi
  | oscId
  | dcsId
  | str
  | strEsc
  | strC2
  deriving DecidableEq, Repr

/-- The classes a dropped sequence is recorded under. -/
inductive Drop
  | clipboard
  | title
  | window
  | queryEcho
  deriving DecidableEq, Repr

/-- The class as the log writes it. -/
def Drop.name : Drop → String
  | .clipboard => "clipboard"
  | .title => "title"
  | .window => "window"
  | .queryEcho => "query_echo"

/-- The log's names tell the classes apart. -/
theorem Drop.name_injective : Function.Injective Drop.name := by
  intro a b h
  cases a <;> cases b <;> first | rfl | exact absurd h (by decide)

/-- The filter between two bytes: `buf` holds the introducer and the
bytes of the sequence being identified. -/
structure VtFilter where
  state : State
  buf : List UInt8
  csiOver : Bool
  oscNum : ℕ
  oscSeen : Bool
  oscOver : Bool
  dcsOver : Bool
  strDrop : Bool
  strBel : Bool
  deriving DecidableEq, Repr

/-- What processing some bytes yields: the filter after them, the bytes
pushed to `out` and the names pushed to `dropped`. -/
structure Fed where
  filter : VtFilter
  out : List UInt8
  dropped : List Drop
  deriving DecidableEq, Repr

/-- `out.extend_from_slice` before the byte is handed on: `bytes` come
first. -/
def Fed.after (bytes : List UInt8) (dropped : List Drop) (r : Fed) : Fed :=
  ⟨r.filter, bytes ++ r.out, dropped ++ r.dropped⟩

/-! ## The decisions -/

/-- `is_ascii_digit`. -/
def isDigit (b : UInt8) : Bool := 0x30 ≤ b && b ≤ 0x39

/-- The value of one decimal digit. -/
def digitValue (b : UInt8) : ℕ := b.toNat - 0x30

/-- A decimal number as the emulator reads it. -/
def digitsValue (digits : List UInt8) : ℕ :=
  digits.foldl (fun n b => n * 10 + digitValue b) 0

/-- `str::parse::<u32>` on a run of digits: an empty run and an overflow
have no value. -/
def parseU32 (digits : List UInt8) : Option ℕ :=
  if digits = [] then none
  else if digitsValue digits ≤ u32Max then some (digitsValue digits) else none

/-- `u32::saturating_mul`. -/
def saturatingMul (a b : ℕ) : ℕ := min (a * b) u32Max

/-- `u32::saturating_add`. -/
def saturatingAdd (a b : ℕ) : ℕ := min (a + b) u32Max

/-- `csi_decision`: whether a CSI ending in `finalByte` acts on the host.
`held` is the introducer and the parameter bytes. -/
def csiDecision (held : List UInt8) (finalByte : UInt8) : Option Drop :=
  if finalByte ≠ 0x74 then none
  else
    let content := held.drop 2
    if content.head? = some 0x3e then some .title
    else
      let rest := content.dropWhile fun c => c == 0x3f || c == 0x3c || c == 0x3d
      match parseU32 (rest.takeWhile isDigit) with
      | some n => if n ∈ [11, 13, 14, 16, 18, 19] then none else some .window
      | none => some .window

/-- `osc_decision`: whether an OSC whose number resolved to `num` acts on
the host. No digit at all reads as selector 0. -/
def oscDecision (seen : Bool) (num : ℕ) : Option Drop :=
  let num := if seen then num else 0
  if num = 52 then some .clipboard
  else if num ≤ 2 then some .title
  else none

/-! ## The byte classes of the match arms -/

/-- A final byte, `0x40..=0x7e`. -/
def isFinal (b : UInt8) : Bool := 0x40 ≤ b && b ≤ 0x7e

/-- A parameter or intermediate byte, `0x20..=0x3f`. -/
def isParam (b : UInt8) : Bool := 0x20 ≤ b && b ≤ 0x3f

/-- A C0 control the emulator executes or ignores inside a sequence:
every one but CAN, SUB and ESC. -/
def isC0 (b : UInt8) : Bool := b ≤ 0x17 || b == 0x19 || (0x1c ≤ b && b ≤ 0x1f)

/-- A byte the OSC number skips: a C0 that is not BEL, or DEL. -/
def oscSkips (b : UInt8) : Bool := (isC0 b && b != 0x07) || b == 0x7f

/-- A byte the DCS window skips: a C0, BEL included, or DEL. -/
def dcsSkips (b : UInt8) : Bool := isC0 b || b == 0x7f

/-- A UTF-8 continuation byte, `0x80..=0xbf`. -/
def isContinuation (b : UInt8) : Bool := 0x80 ≤ b && b ≤ 0xbf

namespace VtFilter

/-- `VtFilter::new`. -/
def new : VtFilter :=
  { state := .ground, buf := [], csiOver := false, oscNum := 0, oscSeen := false,
    oscOver := false, dcsOver := false, strDrop := false, strBel := false }

/-- `VtFilter::enter_str`: enter the streaming string state, discarding
the identify buffer. -/
def enterStr (f : VtFilter) (drop bel : Bool) : VtFilter :=
  { f with state := .str, strDrop := drop, strBel := bel, buf := [] }

/-- `VtFilter::open`: begin accumulating a sequence. -/
def openSeq (f : VtFilter) (introducer : List UInt8) (state : State) : VtFilter :=
  { f with
    buf := introducer, csiOver := false, oscNum := 0, oscSeen := false,
    oscOver := false, dcsOver := false, state := state }

/-! ## One byte, state by state -/

/-- `step` in `Ground`. -/
def stepGround (f : VtFilter) (b : UInt8) : Fed :=
  if b = 0x1b then ⟨{ f with state := .esc }, [], []⟩
  else if b = 0xc2 then ⟨{ f with state := .utf8C2 }, [], []⟩
  else ⟨{ f with state := .ground }, [b], []⟩

/-- `step` in `Utf8C2`. -/
def stepUtf8C2 (f : VtFilter) (b : UInt8) : Fed :=
  if b = 0x9b then ⟨f.openSeq [0xc2, 0x9b] .csi, [], []⟩
  else if b = 0x9d then ⟨f.openSeq [0xc2, 0x9d] .oscId, [], []⟩
  else if b = 0x90 then ⟨f.openSeq [0xc2, 0x90] .dcsId, [], []⟩
  else if isContinuation b then ⟨{ f with state := .ground }, [0xc2, b], []⟩
  else (f.stepGround b).after [0xc2] []

/-- `step` in `Esc`. -/
def stepEsc (f : VtFilter) (b : UInt8) : Fed :=
  if b = 0x5b then ⟨f.openSeq [0x1b, 0x5b] .csi, [], []⟩
  else if b = 0x5d then ⟨f.openSeq [0x1b, 0x5d] .oscId, [], []⟩
  else if b = 0x50 then ⟨f.openSeq [0x1b, 0x50] .dcsId, [], []⟩
  else (f.stepGround b).after [0x1b] []

/-- The CSI is over, dispatched or cancelled: the buffer is cleared. -/
def closeCsi (f : VtFilter) : VtFilter :=
  { f with buf := [], csiOver := false, state := .ground }

/-- `step` in `Csi`. -/
def stepCsi (f : VtFilter) (b : UInt8) : Fed :=
  if isFinal b then
    match csiDecision f.buf b with
    | some name => ⟨f.closeCsi, [], [name]⟩
    | none => if f.csiOver then ⟨f.closeCsi, [], []⟩ else ⟨f.closeCsi, f.buf ++ [b], []⟩
  else if isParam b then
    if f.csiOver then ⟨f, [], []⟩
    else
      ⟨{ f with buf := f.buf ++ [b], csiOver := decide (csiCap ≤ f.buf.length + 1) }, [], []⟩
  else if isC0 b then ⟨f, [b], []⟩
  else if b = 0x7f then ⟨f, [], []⟩
  else (f.closeCsi.stepGround b).after (if f.csiOver then [] else f.buf) []

/-- `step` in `Str`. -/
def stepStr (f : VtFilter) (b : UInt8) : Fed :=
  if b = 0x07 ∧ f.strBel then
    ⟨{ f with state := .ground }, if f.strDrop then [] else [0x07], []⟩
  else if b = 0x1b then ⟨{ f with state := .strEsc }, [], []⟩
  else if b = 0xc2 then ⟨{ f with state := .strC2 }, [], []⟩
  else ⟨{ f with state := .str }, if f.strDrop then [] else [b], []⟩

/-- `step` in `OscId`. -/
def stepOscId (f : VtFilter) (b : UInt8) : Fed :=
  if isDigit b then
    let g := { f with
      oscSeen := true,
      oscNum := saturatingAdd (saturatingMul f.oscNum 10) (digitValue b) }
    if f.oscOver then ⟨g, [], []⟩
    else
      ⟨{ g with buf := f.buf ++ [b], oscOver := decide (oscIdCap ≤ f.buf.length + 1) }, [], []⟩
  else if oscSkips b then ⟨f, [], []⟩
  else
    let terminator : Bool := b == 0x07 || b == 0x1b || b == 0xc2
    match oscDecision f.oscSeen f.oscNum with
    | some name =>
      if terminator then ((f.enterStr true true).stepStr b).after [] [name]
      else ⟨f.enterStr true true, [], [name]⟩
    | none =>
      if f.oscOver then
        if terminator then (f.enterStr true true).stepStr b
        else ⟨f.enterStr true true, [], []⟩
      else ((f.enterStr false true).stepStr b).after f.buf []

/-- Whether the DCS identify window ending in the final byte `b` is
dropped: it ran over the cap, or it is `$ q` or `+ q`. -/
def dcsDrops (f : VtFilter) (b : UInt8) : Bool :=
  f.dcsOver || (b == 0x71 && (f.buf.getLast? == some 0x24 || f.buf.getLast? == some 0x2b))

/-- `step` in `DcsId`. -/
def stepDcsId (f : VtFilter) (b : UInt8) : Fed :=
  if isParam b then
    if f.dcsOver then ⟨f, [], []⟩
    else
      ⟨{ f with buf := f.buf ++ [b], dcsOver := decide (oscIdCap ≤ f.buf.length + 1) }, [], []⟩
  else if isFinal b then
    if f.dcsDrops b then ⟨f.enterStr true false, [], [.queryEcho]⟩
    else ⟨f.enterStr false false, f.buf ++ [b], []⟩
  else if dcsSkips b then ⟨f, [], []⟩
  else if f.dcsOver then ((f.enterStr true false).stepStr b).after [] [.queryEcho]
  else ((f.enterStr false false).stepStr b).after f.buf []

/-- `step` in `StrEsc`. -/
def stepStrEsc (f : VtFilter) (b : UInt8) : Fed :=
  if b = 0x5c then
    ⟨{ f with state := .ground }, if f.strDrop then [] else [0x1b, 0x5c], []⟩
  else { f with state := .esc }.stepEsc b

/-- `step` in `StrC2`. -/
def stepStrC2 (f : VtFilter) (b : UInt8) : Fed :=
  if b = 0x9c then
    ⟨{ f with state := .ground }, if f.strDrop then [] else [0xc2, 0x9c], []⟩
  else if isContinuation b then
    ⟨{ f with state := .str }, if f.strDrop then [] else [0xc2, b], []⟩
  else ({ f with state := .str }.stepStr b).after (if f.strDrop then [] else [0xc2]) []

/-- `VtFilter::step`: one byte through the automaton. -/
def step (f : VtFilter) (b : UInt8) : Fed :=
  match f.state with
  | .ground => f.stepGround b
  | .utf8C2 => f.stepUtf8C2 b
  | .esc => f.stepEsc b
  | .csi => f.stepCsi b
  | .oscId => f.stepOscId b
  | .dcsId => f.stepDcsId b
  | .str => f.stepStr b
  | .strEsc => f.stepStrEsc b
  | .strC2 => f.stepStrC2 b

/-- `VtFilter::feed`: one input chunk. -/
def feed (f : VtFilter) : List UInt8 → Fed
  | [] => ⟨f, [], []⟩
  | b :: input => ((f.step b).filter.feed input).after (f.step b).out (f.step b).dropped

/-- The chunks of a session, fed one after the other. -/
def feedChunks (f : VtFilter) : List (List UInt8) → Fed
  | [] => ⟨f, [], []⟩
  | chunk :: chunks =>
    ((f.feed chunk).filter.feedChunks chunks).after (f.feed chunk).out (f.feed chunk).dropped

end VtFilter

end Terminal

end Willie
