import Mathlib.Algebra.Group.Nat.Defs
import Willie.Wire.Frames

/-!
# Wire — the host dialect

What the desktop app sends `willie attach --host` on its stdin: an input
frame is a tag, a 32-bit length and so many bytes, a resize frame a tag and
the two sizes. The engine encodes, the attach process decodes.
-/

namespace Willie
namespace Wire

open Framing
open Supervisor (Bytes maxPayload)

namespace Hostterm

def tagInput : UInt8 := 0x69
def tagResize : UInt8 := 0x72

inductive HostFrame where
  | input (bytes : Bytes)
  | resize (rows cols : UInt16)
  deriving DecidableEq, Repr

/-- A tag that is not part of the dialect. -/
structure UnknownTag where
  tag : UInt8
  deriving DecidableEq, Repr

/-- `u32::try_from`. -/
def u32TryFrom (n : ℕ) : Option ℕ := if n < 2 ^ 32 then some n else none

def encodeInput (bytes : Bytes) : Bytes :=
  let len := (u32TryFrom bytes.length).getD (2 ^ 32 - 1)
  tagInput :: toBeBytes 4 len ++ bytes

def encodeResize (rows cols : UInt16) : Bytes :=
  tagResize :: toBeBytes 2 rows.toNat ++ toBeBytes 2 cols.toNat

/-- The first frame and how many bytes it takes; nothing while it is not all
there. -/
def decodeFrame : Bytes → Except UnknownTag (Option (HostFrame × ℕ))
  | [] => .ok none
  | tag :: rest =>
    if tag = tagInput then
      if rest.length < 4 then .ok none
      else
        let len := fromBeBytes (rest.take 4)
        let body := rest.drop 4
        if body.length < len then .ok none
        else .ok (some (.input (body.take len), 5 + len))
    else if tag = tagResize then
      if rest.length < 4 then .ok none
      else
        let rows := UInt16.ofNat (fromBeBytes (rest.take 2))
        let cols := UInt16.ofNat (fromBeBytes ((rest.drop 2).take 2))
        .ok (some (.resize rows cols, 5))
    else .error ⟨tag⟩

/-! ## The dialect's code -/

/-- The frames whose length can be written. -/
def HostFrame.Fits : HostFrame → Prop
  | .input bytes => bytes.length < 2 ^ 32
  | .resize _ _ => True

def HostFrame.encode : HostFrame → Bytes
  | .input bytes => encodeInput bytes
  | .resize rows cols => encodeResize rows cols

/-- What one decoding takes from the front of a buffer. -/
def split (buf : Bytes) : Option (HostFrame × Bytes) :=
  match decodeFrame buf with
  | .ok (some (frame, used)) => some (frame, buf.drop used)
  | _ => none

variable {bytes rest part : Bytes} {rows cols : UInt16} {f : HostFrame}

theorem encodeInput_eq (h : bytes.length < 2 ^ 32) :
    encodeInput bytes = tagInput :: toBeBytes 4 bytes.length ++ bytes := by
  rw [encodeInput, u32TryFrom, if_pos h]
  rfl

theorem decodeFrame_input (h : bytes.length < 2 ^ 32) :
    decodeFrame (encodeInput bytes ++ rest) = .ok (some (.input bytes, 5 + bytes.length)) := by
  have hlen : fromBeBytes (toBeBytes 4 bytes.length) = bytes.length := fromBeBytes_toBeBytes h
  rw [encodeInput_eq h, List.cons_append, List.cons_append, List.append_assoc]
  simp only [decodeFrame, if_true]
  rw [if_neg (by simp), List.take_left' length_toBeBytes, List.drop_left' length_toBeBytes, hlen,
    if_neg (by simp), List.take_left]

theorem decodeFrame_resize :
    decodeFrame (encodeResize rows cols ++ rest) = .ok (some (.resize rows cols, 5)) := by
  have back (v : UInt16) : UInt16.ofNat (fromBeBytes (toBeBytes 2 v.toNat)) = v := by
    rw [fromBeBytes_toBeBytes v.toNat_lt]
    exact UInt16.ofNat_toNat
  have hne : tagResize ≠ tagInput := by decide
  rw [encodeResize, List.cons_append, List.cons_append, List.append_assoc]
  simp only [decodeFrame, if_neg hne, if_true]
  rw [if_neg (by simp; omega), List.take_left' length_toBeBytes, List.drop_left' length_toBeBytes,
    List.take_left' length_toBeBytes, back, back]

/-- A whole frame at the front is decoded, and what it takes is its own. -/
theorem decodeFrame_encode (h : f.Fits) :
    decodeFrame (f.encode ++ rest) = .ok (some (f, f.encode.length)) := by
  cases f with
  | input bytes =>
    have hlen : (encodeInput bytes).length = 5 + bytes.length := by
      rw [encodeInput_eq h, List.length_append, List.length_cons, length_toBeBytes]
    rw [HostFrame.encode, decodeFrame_input h, hlen]
  | resize rows cols =>
    rw [HostFrame.encode, decodeFrame_resize]
    simp [encodeResize]

/-- **A frame is read from the front** of whatever follows it. -/
theorem split_encode (h : f.Fits) : split (f.encode ++ rest) = some (f, rest) := by
  simp only [split, decodeFrame_encode h, List.drop_left]

/-- A part of a frame is waited for, never refused. -/
theorem decodeFrame_part (h : f.Fits) (hpart : part ++ rest = f.encode) (hne : rest ≠ []) :
    decodeFrame part = .ok none := by
  have hpos : 0 < rest.length := List.length_pos_iff.mpr hne
  cases part with
  | nil => rfl
  | cons tag part =>
    cases f with
    | input bytes =>
      rw [HostFrame.encode, encodeInput_eq h, List.cons_append, List.cons_append] at hpart
      obtain ⟨rfl, htail⟩ := List.cons.inj hpart
      have hlen := congrArg List.length htail
      rw [List.length_append, List.length_append, length_toBeBytes] at hlen
      by_cases hshort : part.length < 4
      · simp [decodeFrame, hshort]
      · -- the length is all there, and says how much is missing
        have hcount : fromBeBytes (part.take 4) = bytes.length := by
          have htake : part.take 4 = (part ++ rest).take 4 := by
            rw [List.take_append_of_le_length (by omega)]
          rw [htake, htail, List.take_left' length_toBeBytes]
          exact fromBeBytes_toBeBytes h
        have hbody : (part.drop 4).length < bytes.length := by
          rw [List.length_drop]
          omega
        simp only [decodeFrame, if_true, if_neg hshort, hcount, if_pos hbody]
    | resize rows cols =>
      rw [HostFrame.encode, encodeResize, List.cons_append, List.cons_append] at hpart
      obtain ⟨rfl, htail⟩ := List.cons.inj hpart
      have hlen := congrArg List.length htail
      rw [List.length_append, List.length_append, length_toBeBytes, length_toBeBytes] at hlen
      have hne : tagResize ≠ tagInput := by decide
      simp only [decodeFrame, if_neg hne, if_true]
      rw [if_pos (by omega)]

/-- Host frames and their decoding are a code. -/
def hostCode : Code HostFrame UInt8 where
  Fits := HostFrame.Fits
  encode := HostFrame.encode
  decode := split
  decode_nil := rfl
  whole _ _ h := split_encode h
  short _ _ _ h hpart hne := by simp only [split, decodeFrame_part h hpart hne]

end Hostterm
end Wire
end Willie
