import Mathlib.Data.List.Induction
import Willie.Terminal.Steps
/-!
# The emulator's tokeniser

The tokeniser the filter's comments attribute to the terminal: the
filter's own, with no caps and with CAN and SUB aborting whatever
sequence is in progress. A sequence is named by the place in the input of
the byte that opened it, and the filter's output is read with those
places kept (`sent`), so that a sequence of the output can be told to be
one of the input.
-/

namespace Willie

namespace Terminal

/-- The emulator between bytes. A sequence under identification carries
the place it opened at and what it has read of it, and a string whether
BEL ends it. -/
inductive Emulator
  | ground
  | utf8C2
  | esc
  | csi (start : ℕ) (params : List UInt8)
  | oscId (start : ℕ) (digits : List UInt8)
  | dcsId (start : ℕ) (params : List UInt8)
  | str (bel : Bool)
  | strEsc (bel : Bool)
  | strC2 (bel : Bool)
  deriving DecidableEq, Repr

/-- Whether a CSI with these parameters acts on the host. -/
def csiActs (params : List UInt8) (finalByte : UInt8) : Bool :=
  (csiDecision (0x1b :: 0x5b :: params) finalByte).isSome

/-- Whether an OSC with this selector acts on the host. -/
def oscActs (digits : List UInt8) : Bool :=
  (oscDecision (digits ≠ []) (digitsValue digits)).isSome

/-- Whether a DCS with these parameters is an echo query. -/
def dcsActs (params : List UInt8) (finalByte : UInt8) : Bool :=
  finalByte == 0x71 && (params.getLast? == some 0x24 || params.getLast? == some 0x2b)

namespace Emulator

/-- CAN and SUB, which abort a sequence. -/
def aborts (b : UInt8) : Bool := b == 0x18 || b == 0x1a

/-- A byte read in ground. -/
def ofGround (b : UInt8) : Emulator :=
  if b = 0x1b then .esc else if b = 0xc2 then .utf8C2 else .ground

/-- The byte at `i` read after `ESC`. -/
def ofEsc (i : ℕ) (b : UInt8) : Emulator :=
  if b = 0x5b then .csi i []
  else if b = 0x5d then .oscId i []
  else if b = 0x50 then .dcsId i []
  else ofGround b

/-- The byte at `i` read after `C2`. -/
def ofC2 (i : ℕ) (b : UInt8) : Emulator :=
  if b = 0x9b then .csi i []
  else if b = 0x9d then .oscId i []
  else if b = 0x90 then .dcsId i []
  else if isContinuation b then .ground
  else ofGround b

/-- A byte read inside a string. -/
def ofStr (bel : Bool) (b : UInt8) : Emulator :=
  if b = 0x07 ∧ bel then .ground
  else if b = 0x1b then .strEsc bel
  else if b = 0xc2 then .strC2 bel
  else .str bel

/-- The byte `x.1` at the place `x.2`, and the place of the acting
sequence it completes. -/
def step (t : Emulator) (x : UInt8 × ℕ) : Emulator × Option ℕ :=
  if aborts x.1 then (.ground, none)
  else
    match t with
    | .ground => (ofGround x.1, none)
    | .utf8C2 => (ofC2 x.2 x.1, none)
    | .esc => (ofEsc x.2 x.1, none)
    | .csi start params =>
      if isFinal x.1 then (.ground, if csiActs params x.1 then some start else none)
      else if isParam x.1 then (.csi start (params ++ [x.1]), none)
      else if isC0 x.1 || x.1 == 0x7f then (.csi start params, none)
      else (ofGround x.1, none)
    | .oscId start digits =>
      if isDigit x.1 then (.oscId start (digits ++ [x.1]), none)
      else if oscSkips x.1 then (.oscId start digits, none)
      else (ofStr true x.1, if oscActs digits then some start else none)
    | .dcsId start params =>
      if isParam x.1 then (.dcsId start (params ++ [x.1]), none)
      else if isFinal x.1 then (.str false, if dcsActs params x.1 then some start else none)
      else if dcsSkips x.1 then (.dcsId start params, none)
      else (ofStr false x.1, none)
    | .str bel => (ofStr bel x.1, none)
    | .strEsc _ => (if x.1 = 0x5c then .ground else ofEsc x.2 x.1, none)
    | .strC2 bel =>
      (if x.1 = 0x9c then .ground
        else if isContinuation x.1 then .str bel
        else ofStr bel x.1, none)

/-- The emulator after some placed bytes. -/
def run (t : Emulator) : List (UInt8 × ℕ) → Emulator :=
  List.foldl (fun t x => (t.step x).1) t

theorem run_append (t : Emulator) (u v : List (UInt8 × ℕ)) :
    t.run (u ++ v) = (t.run u).run v := List.foldl_append

/-- The places of the acting sequences among some placed bytes. -/
def acts (t : Emulator) : List (UInt8 × ℕ) → List ℕ
  | [] => []
  | x :: input => (t.step x).2.toList ++ (t.step x).1.acts input

/-- The place of the OSC whose number, as far as it was read, selects an
acting command: the emulator acts on it once it ends. -/
def pending : Emulator → Option ℕ
  | .oscId start digits => if oscActs digits then some start else none
  | _ => none

/-- The acting sequences of the placed bytes: those recognised, and the
one whose selector stands. -/
def actsOn (input : List (UInt8 × ℕ)) : List ℕ :=
  ground.acts input ++ (ground.run input).pending.toList

theorem acts_append (t : Emulator) (u v : List (UInt8 × ℕ)) :
    t.acts (u ++ v) = t.acts u ++ (t.run u).acts v := by
  induction u generalizing t with
  | nil => rfl
  | cons x u ih => simp [acts, ih, run]

@[simp] theorem acts_singleton (t : Emulator) (x : UInt8 × ℕ) :
    t.acts [x] = (t.step x).2.toList := by simp [acts]

end Emulator

namespace VtFilter

/-- What the filter has done with the input: its state, the bytes it
holds and the ones it has forwarded, each with its place in the input. -/
structure Ledger where
  filter : VtFilter
  held : List (UInt8 × ℕ)
  sent : List (UInt8 × ℕ)
  deriving DecidableEq, Repr

/-- The next byte entered in the ledger. -/
def Ledger.enter (l : Ledger) (x : UInt8 × ℕ) : Ledger :=
  { filter := (l.filter.step x.1).filter
    held := meeting l.held x (l.filter.fate x.1) .keep
    sent := l.sent ++ meeting l.held x (l.filter.fate x.1) .forward }

/-- The ledger of an input. -/
def ledger (input : List UInt8) : Ledger := input.zipIdx.foldl Ledger.enter ⟨new, [], []⟩

/-- The ledger of one byte more. -/
@[simp] theorem ledger_snoc (u : List UInt8) (b : UInt8) :
    ledger (u ++ [b]) = (ledger u).enter (b, u.length) := by
  simp [ledger, List.zipIdx_append]

/-- **The ledger is the filter's.** What it enters as forwarded and as
held is what the filter forwards and holds. -/
theorem ledger_feed (input : List UInt8) :
    (ledger input).filter = (new.feed input).filter ∧
      (ledger input).held.map Prod.fst = (new.feed input).filter.held ∧
      (ledger input).sent.map Prod.fst = (new.feed input).out := by
  induction input using List.reverseRecOn with
  | nil => exact ⟨rfl, rfl, rfl⟩
  | append_singleton u b ih =>
    obtain ⟨hf, hheld, hsent⟩ := ih
    rw [ledger_snoc, feed_snoc, Ledger.enter, hf]
    refine ⟨rfl, ?_, ?_⟩
    · rw [map_meeting, hheld, Fed.after_filter, step_held]
    · rw [List.map_append, map_meeting, hheld, hsent, Fed.after_out, step_out]

end VtFilter

end Terminal

end Willie
