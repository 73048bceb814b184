import Mathlib.Data.Nat.Notation
import Mathlib.Data.List.Basic

/-!
# Supervisor — what a late client needs to see

The tail of the session's output, and whether the program is on the
alternate screen, where a replay would only flash stale bytes. What a frame
can carry is limited, so output is cut into as many as it needs.
-/

namespace Willie
namespace Supervisor

abbrev Bytes := List UInt8

/-- Output kept for a late terminal. -/
def ringBytes : ℕ := 256 * 1024

/-- The last bytes of a text. -/
def lastBytes (cap : ℕ) (bytes : Bytes) : Bytes := bytes.drop (bytes.length - cap)

/-- `Ring::push`: what does not fit is drained from the front. -/
def pushRing (ring bytes : Bytes) : Bytes := lastBytes ringBytes (ring ++ bytes)

/-! ## The alternate screen -/

/-- If the bytes begin with a switch, its length and whether it turns the
alternate screen on. -/
def switchAt (bytes : Bytes) : Option (ℕ × Bool) :=
  List.findSome? (fun code : Bytes =>
    match bytes.dropPrefix? (0x1b :: 0x5b :: 0x3f :: code) with
    | some (0x68 :: _) => some (3 + code.length + 1, true)
    | some (0x6c :: _) => some (3 + code.length + 1, false)
    | _ => none)
    [[0x31, 0x30, 0x34, 0x39], [0x31, 0x30, 0x34, 0x37], [0x34, 0x37]]

structure AltScreen where
  active : Bool := false
  /-- A switch may straddle two reads. -/
  tail : Bytes := []
  deriving DecidableEq, Repr

/-- One less than the longest switch. -/
def tailBytes : ℕ := 7

/-- What the switches among the bytes leave; the first argument bounds the
number of them looked at. -/
def switches : ℕ → Bytes → Bool → Bool
  | 0, _, active => active
  | fuel + 1, bytes, active =>
    match bytes, switchAt bytes with
    | [], _ => active
    | bytes, some (len, on) => switches fuel (bytes.drop len) on
    | _ :: rest, none => switches fuel rest active

def AltScreen.feed (alt : AltScreen) (bytes : Bytes) : AltScreen :=
  let buf := alt.tail ++ bytes
  { active := switches buf.length buf alt.active, tail := lastBytes tailBytes buf }

example : (({} : AltScreen).feed [0x68, 0x1b, 0x5b, 0x3f, 0x31, 0x30]).active = false ∧
    ((({} : AltScreen).feed [0x68, 0x1b, 0x5b, 0x3f, 0x31, 0x30]).feed [0x34, 0x39, 0x68]).active =
      true := by decide

/-! ## Frames -/

/-- The largest payload a frame can carry. -/
def maxPayload : ℕ := 65535

/-- `wire::chunks`: the payloads of as many frames as the bytes need. -/
def chunks (bytes : Bytes) : List Bytes :=
  if bytes = [] then [[]]
  else (List.range ((bytes.length + maxPayload - 1) / maxPayload)).map fun i =>
    (bytes.drop (i * maxPayload)).take maxPayload

variable {bytes ring out : Bytes} {cap n : ℕ}

theorem flatten_pieces (n k : ℕ) :
    ((List.range k).map fun i => (bytes.drop (i * n)).take n).flatten = bytes.take (k * n) := by
  induction k with
  | zero => simp
  | succ k ih =>
    rw [List.range_succ, List.map_append, List.flatten_append, ih, Nat.succ_mul, List.take_add]
    simp

/-- The frames carry the bytes. -/
theorem chunks_flatten : (chunks bytes).flatten = bytes := by
  unfold chunks
  split
  · rename_i h
    rw [h]
    rfl
  · have hle : bytes.length ≤ (bytes.length + maxPayload - 1) / maxPayload * maxPayload := by
      unfold maxPayload
      omega
    rw [flatten_pieces, List.take_of_length_le hle]

theorem lastBytes_append :
    lastBytes cap (lastBytes cap out ++ bytes) = lastBytes cap (out ++ bytes) := by
  unfold lastBytes
  rw [← List.drop_append_of_le_length (by omega), List.drop_drop]
  congr 1
  simp only [List.length_append, List.length_drop]
  omega

/-- **The ring holds the end of what was pushed.** -/
theorem pushRing_lastBytes : pushRing (lastBytes ringBytes out) bytes =
    lastBytes ringBytes (out ++ bytes) := lastBytes_append

end Supervisor
end Willie
