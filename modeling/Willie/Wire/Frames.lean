import Mathlib.Algebra.Group.Nat.Defs
import Willie.Common.Bpf
import Willie.Common.Framing
import Willie.Supervisor.Screen

/-!
# Wire — the frames between a supervisor and its clients

A frame is a type byte, a 16-bit length and so many bytes. What does not fit
one frame is cut into several, and the receiving end puts frames together
again from a stream that is cut anywhere.
-/

namespace Willie
namespace Wire

open Framing
open Supervisor (Bytes maxPayload)

/-! ## Numbers, the high byte first -/

/-- `to_be_bytes` of an integer of so many bytes. -/
def toBeBytes (width v : ℕ) : Bytes := (Bpf.leBytes width v).reverse

/-- `from_be_bytes`. -/
def fromBeBytes (bytes : Bytes) : ℕ := Bpf.leValue bytes.reverse

variable {width v : ℕ}

@[simp] theorem length_toBeBytes : (toBeBytes width v).length = width := by
  simp [toBeBytes]

theorem fromBeBytes_toBeBytes (h : v < 256 ^ width) : fromBeBytes (toBeBytes width v) = v := by
  rw [fromBeBytes, toBeBytes, List.reverse_reverse, Bpf.leValue_leBytes, Nat.mod_eq_of_lt h]

/-! ## Frames -/

/-- Client → supervisor: bytes for the PTY, as typed. -/
def input : UInt8 := 0

/-- Client → supervisor: a new window size. -/
def resize : UInt8 := 1

/-- Client → supervisor: leave, keep the session running. -/
def detach : UInt8 := 2

/-- Client → supervisor: the first frame. -/
def hello : UInt8 := 3

/-- One type byte and a 16-bit length. -/
def header : ℕ := 3

structure Frame where
  kind : UInt8
  payload : Bytes
  deriving DecidableEq, Repr

/-- `u16::try_from`. -/
def u16TryFrom (n : ℕ) : Option ℕ := if n ≤ 65535 then some n else none

/-- One frame; what is beyond the largest payload is cut off. -/
def encode (kind : UInt8) (payload : Bytes) : Bytes :=
  let payload := payload.take (min payload.length maxPayload)
  let len := (u16TryFrom payload.length).getD 65535
  kind :: toBeBytes 2 len ++ payload

def encodeResize (rows cols : UInt16) : Bytes :=
  encode resize (toBeBytes 2 rows.toNat ++ toBeBytes 2 cols.toNat)

/-- Nothing unless it is four bytes. -/
def decodeResize (payload : Bytes) : Option (UInt16 × UInt16) :=
  if payload.length ≠ 4 then none
  else some (UInt16.ofNat (fromBeBytes (payload.take 2)),
    UInt16.ofNat (fromBeBytes (payload.drop 2)))

/-- `slice::chunks` at the largest payload. -/
def pieces (bytes : Bytes) : List Bytes :=
  (List.range ((bytes.length + maxPayload - 1) / maxPayload)).map fun i =>
    (bytes.drop (i * maxPayload)).take maxPayload

/-- As many frames as the 16-bit length needs. -/
def chunks (kind : UInt8) (bytes : Bytes) : List Bytes :=
  if bytes = [] then [encode kind []] else (pieces bytes).map (encode kind)

/-! ## The decoder -/

structure Decoder where
  buf : Bytes := []
  deriving DecidableEq, Repr

def Decoder.push (d : Decoder) (bytes : Bytes) : Decoder := { d with buf := d.buf ++ bytes }

/-- The next frame, if the buffer holds all of it. -/
def Decoder.pop (d : Decoder) : Option Frame × Decoder :=
  if d.buf.length < header then (none, d)
  else
    let kind := d.buf.headD 0
    let len := fromBeBytes ((d.buf.drop 1).take 2)
    if d.buf.length < header + len then (none, d)
    else (some ⟨kind, (d.buf.drop header).take len⟩, { d with buf := d.buf.drop (header + len) })

/-- What is held back for the rest of a frame. -/
def Decoder.pending (d : Decoder) : ℕ := d.buf.length

/-- The frames popped over pushes and pops in some order, and the decoder they
leave. -/
def Decoder.run : Decoder → List (Op UInt8) → List Frame × Decoder
  | d, [] => ([], d)
  | d, .push bytes :: ops => (d.push bytes).run ops
  | d, .pop :: ops =>
    match d.pop with
    | (some frame, d) => ((frame :: (d.run ops).1), (d.run ops).2)
    | (none, d) => d.run ops

/-! ## What an encoding is -/

variable {kind : UInt8} {payload bytes : Bytes} {f : Frame}

/-- A payload that fits is written whole. -/
theorem encode_eq (h : payload.length ≤ maxPayload) :
    encode kind payload = kind :: toBeBytes 2 payload.length ++ payload := by
  have hlen : payload.length ≤ 65535 := h
  simp [encode, u16TryFrom, h, hlen]

@[simp] theorem length_encode (h : payload.length ≤ maxPayload) :
    (encode kind payload).length = header + payload.length := by
  rw [encode_eq h]
  simp only [List.length_append, List.length_cons, length_toBeBytes]
  rfl

/-- What does not fit is written as what does. -/
theorem encode_take : encode kind payload = encode kind (payload.take maxPayload) := by
  by_cases h : payload.length ≤ maxPayload
  · rw [List.take_of_length_le h]
  · have hle : maxPayload ≤ payload.length := by omega
    simp [encode, Nat.min_eq_left hle, Nat.min_eq_right hle]

theorem decodeResize_encoded {rows cols : UInt16} :
    decodeResize (toBeBytes 2 rows.toNat ++ toBeBytes 2 cols.toNat) = some (rows, cols) := by
  have back (v : UInt16) : UInt16.ofNat (fromBeBytes (toBeBytes 2 v.toNat)) = v := by
    rw [fromBeBytes_toBeBytes v.toNat_lt]
    exact UInt16.ofNat_toNat
  rw [decodeResize, if_neg (by simp), List.take_left' length_toBeBytes,
    List.drop_left' length_toBeBytes, back, back]

/-! ## Pieces -/

theorem flatten_pieces : (pieces bytes).flatten = bytes := by
  have hle : bytes.length ≤ (bytes.length + maxPayload - 1) / maxPayload * maxPayload := by
    unfold maxPayload
    omega
  rw [pieces, Supervisor.flatten_pieces, List.take_of_length_le hle]

theorem length_piece {piece : Bytes} (h : piece ∈ pieces bytes) : piece.length ≤ maxPayload := by
  obtain ⟨i, -, rfl⟩ := List.mem_map.mp h
  exact List.length_take_le _ _

/-- The frames of some bytes are their pieces', or one without a payload. -/
theorem chunks_eq : chunks kind bytes = (Supervisor.chunks bytes).map (encode kind) := by
  unfold chunks Supervisor.chunks
  split <;> rfl

/-! ## The decoder's code -/

theorem header_encode {rest : Bytes} (h : payload.length ≤ maxPayload) :
    fromBeBytes (((encode kind payload ++ rest).drop 1).take 2) = payload.length := by
  have hlt : payload.length < 256 ^ 2 := by
    unfold maxPayload at h
    omega
  rw [encode_eq h, List.cons_append, List.cons_append, List.drop_succ_cons, List.drop_zero,
    List.append_assoc, List.take_left' length_toBeBytes, fromBeBytes_toBeBytes hlt]

/-- **A whole frame at the front is popped**, and nothing of what follows. -/
theorem pop_encode {rest : Bytes} (h : payload.length ≤ maxPayload) :
    ({ buf := encode kind payload ++ rest } : Decoder).pop =
      (some ⟨kind, payload⟩, { buf := rest }) := by
  have hlen : (encode kind payload ++ rest).length = header + payload.length + rest.length := by
    rw [List.length_append, length_encode h]
  have hdrop : (encode kind payload ++ rest).drop header = payload ++ rest := by
    rw [encode_eq h, List.append_assoc]
    exact List.drop_left' (by simp [header])
  have hkind : (encode kind payload ++ rest).headD 0 = kind := by
    rw [encode_eq h]
    rfl
  simp only [Decoder.pop, header_encode h, hlen, hkind, hdrop]
  have hrest : (encode kind payload ++ rest).drop (header + payload.length) = rest := by
    rw [← List.drop_drop, hdrop, List.drop_left]
  rw [if_neg (by omega), if_neg (by omega), List.take_left, hrest]

/-- **A part of a frame is not popped.** -/
theorem pop_short {part rest : Bytes} (h : payload.length ≤ maxPayload)
    (hpart : part ++ rest = encode kind payload) (hne : rest ≠ []) :
    ({ buf := part } : Decoder).pop = (none, { buf := part }) := by
  have hlen : part.length + rest.length = header + payload.length := by
    rw [← List.length_append, hpart, length_encode h]
  have hpos : 0 < rest.length := List.length_pos_iff.mpr hne
  unfold Decoder.pop
  by_cases hshort : part.length < header
  · simp only [if_pos hshort]
  · -- the length is all there, and says how much is missing
    have hheader : (part.drop 1).take 2 = ((part ++ rest).drop 1).take 2 := by
      unfold header at hshort
      rw [List.drop_append_of_le_length (by omega), List.take_append_of_le_length]
      rw [List.length_drop]
      omega
    have hcount : fromBeBytes ((part.drop 1).take 2) = payload.length := by
      rw [hheader, hpart]
      have hwhole := @header_encode kind payload [] h
      rwa [List.append_nil] at hwhole
    simp only [if_neg hshort, hcount]
    rw [if_pos (by omega)]

/-- Frames and their decoder are a code. -/
def frameCode : Code Frame UInt8 where
  Fits f := f.payload.length ≤ maxPayload
  encode f := encode f.kind f.payload
  decode buf := (({ buf } : Decoder).pop.1).map fun f => (f, ({ buf } : Decoder).pop.2.buf)
  decode_nil := rfl
  whole _ _ h := by simp [pop_encode h]
  short _ _ _ h hpart hne := by simp [pop_short h hpart hne]

theorem decode_eq {buf : Bytes} : frameCode.decode buf =
    (({ buf } : Decoder).pop.1).map fun f => (f, ({ buf } : Decoder).pop.2.buf) := rfl

/-- What is not popped stays. -/
theorem pop_none {d : Decoder} (h : d.pop.1 = none) : d.pop.2 = d := by
  unfold Decoder.pop at h ⊢
  grind

/-- The decoder is the code's reader. -/
theorem run_eq {d : Decoder} {ops : List (Op UInt8)} :
    d.run ops = ((Framing.run frameCode d.buf ops).1, ⟨(Framing.run frameCode d.buf ops).2⟩) := by
  induction ops generalizing d with
  | nil => rfl
  | cons op ops ih =>
    cases op with
    | push bytes => exact ih
    | pop =>
      simp only [Decoder.run]
      rcases hpop : d.pop with ⟨o, d'⟩
      cases o with
      | none =>
        obtain rfl : d' = d := by simpa [hpop] using pop_none (d := d) (by simp [hpop])
        rw [run_pop_none (by simp [decode_eq, hpop]), ← ih]
      | some f =>
        have hdecode : frameCode.decode d.buf = some (f, d'.buf) := by simp [decode_eq, hpop]
        simp only [run_pop_some hdecode, ih]

/-! ## What is framed arrives -/

/-- The bytes of some frames. -/
theorem stream_eq {frames : List Frame} :
    stream frameCode frames = (frames.map fun f => encode f.kind f.payload).flatten :=
  List.flatMap_def

/-- The frames of some bytes, before they are written. -/
def framesOf (kind : UInt8) (bytes : Bytes) : List Frame :=
  (Supervisor.chunks bytes).map (Frame.mk kind)

theorem framesOf_fits : ∀ f ∈ framesOf kind bytes, frameCode.Fits f := by
  intro f hf
  obtain ⟨piece, hpiece, rfl⟩ := List.mem_map.mp hf
  show piece.length ≤ maxPayload
  unfold Supervisor.chunks at hpiece
  split at hpiece
  · obtain rfl := List.mem_singleton.mp hpiece
    exact Nat.zero_le _
  · exact length_piece hpiece

theorem stream_framesOf : stream frameCode (framesOf kind bytes) = (chunks kind bytes).flatten := by
  rw [stream_eq, framesOf, chunks_eq, List.map_map]
  rfl

theorem payloads_framesOf : ((framesOf kind bytes).map (·.payload)).flatten = bytes := by
  rw [framesOf, List.map_map]
  show ((Supervisor.chunks bytes).map id).flatten = bytes
  rw [List.map_id, Supervisor.chunks_flatten]

variable {frames : List Frame} {ops : List (Op UInt8)} {late : Bytes} {n : ℕ}

/-- Once all bytes of some frames have arrived, popping on pops them all. -/
theorem run_all (hfits : ∀ f ∈ frames, f.payload.length ≤ maxPayload)
    (h : pushed ops = stream frameCode frames)
    (hn : frames.length ≤ (({} : Decoder).run ops).1.length + n) :
    ({} : Decoder).run (ops ++ List.replicate n .pop) = (frames, {}) := by
  rw [run_eq] at hn ⊢
  rw [run_complete hfits h hn]

/-- **Frames survive any chunking.** However the encodings of some frames are
split into pushes, and whenever frames are popped in between: those popped
are the first of them, what is pending is the rest of what arrived, a pop
finds nothing only while the next frame is not all there, and once everything
has arrived all of them are popped. The frames some bytes are cut into carry
just these bytes. -/
theorem frames_reassembled :
    (∀ (frames : List Frame), (∀ f ∈ frames, f.payload.length ≤ maxPayload) →
      ∀ (ops : List (Op UInt8)) (late : Bytes),
        pushed ops ++ late = (frames.map fun f => encode f.kind f.payload).flatten →
        ∃ left, frames = (({} : Decoder).run ops).1 ++ left ∧
          ((({} : Decoder).run ops).1.map fun f => encode f.kind f.payload).flatten ++
            (({} : Decoder).run ops).2.buf = pushed ops ∧
          (({} : Decoder).run ops).2.pending =
            (pushed ops).length -
              ((({} : Decoder).run ops).1.map fun f => encode f.kind f.payload).flatten.length ∧
          ((({} : Decoder).run ops).2.pop.1 = none ↔
            ∀ f ∈ left.head?, ¬ encode f.kind f.payload <+: (({} : Decoder).run ops).2.buf) ∧
          (late = [] → ∀ n, left.length ≤ n →
            ({} : Decoder).run (ops ++ List.replicate n .pop) = (frames, {}))) ∧
    ∀ (kind : UInt8) (bytes : Bytes) (ops : List (Op UInt8)) (n : ℕ),
      pushed ops = (chunks kind bytes).flatten → (chunks kind bytes).length ≤ n →
        let r := ({} : Decoder).run (ops ++ List.replicate n .pop)
        (∀ f ∈ r.1, f.kind = kind) ∧ (r.1.map (·.payload)).flatten = bytes ∧ r.2.pending = 0 := by
  constructor
  · intro frames hfits ops late hsplit
    rw [← stream_eq] at hsplit
    obtain ⟨taken, left, hframes, htaken, hrest⟩ :=
      run_stream hfits
        (show [] ++ pushed ops ++ late = stream frameCode frames by simpa using hsplit)
    have hpopped : (({} : Decoder).run ops).1 = taken := by rw [run_eq, ← htaken]
    have hbuf : (({} : Decoder).run ops).2.buf = (Framing.run frameCode [] ops).2 := by rw [run_eq]
    simp only [← stream_eq, hpopped]
    rw [← hbuf, List.nil_append] at hrest
    have hleft : ∀ f ∈ left, frameCode.Fits f := fun f hf => hfits f (by simp [hframes, hf])
    have hlate : (({} : Decoder).run ops).2.buf ++ late = stream frameCode left := by
      rw [← hrest, hframes, stream_append, List.append_assoc] at hsplit
      exact List.append_cancel_left hsplit
    refine ⟨left, hframes, hrest, ?_, ?_, ?_⟩
    · rw [← hrest, List.length_append, Nat.add_sub_cancel_left]
      rfl
    · have hnone := decode_eq_none_iff hleft hlate
      rwa [decode_eq, Option.map_eq_none_iff] at hnone
    · rintro rfl n hn
      refine run_all hfits (by simpa using hsplit) ?_
      rw [hpopped, hframes, List.length_append]
      omega
  · intro kind bytes ops n hpushed hn
    have hlen : (framesOf kind bytes).length = (chunks kind bytes).length := by
      simp [framesOf, chunks_eq]
    have hrun : ({} : Decoder).run (ops ++ List.replicate n .pop) = (framesOf kind bytes, {}) :=
      run_all framesOf_fits (hpushed.trans stream_framesOf.symm) (by omega)
    simp only [hrun, payloads_framesOf]
    refine ⟨fun f hf => ?_, trivial, rfl⟩
    obtain ⟨piece, -, rfl⟩ := List.mem_map.mp hf
    rfl

/-- Two frames, cut inside a header and popped too early. -/
theorem frames_reassembled_split :
    let frames : List Frame := [⟨input, [0x6c, 0x73]⟩, ⟨detach, []⟩]
    let ops : List (Op UInt8) :=
      [.push [0, 0], .pop, .push [2, 0x6c, 0x73, 2], .pop, .pop, .push [0, 0]]
    (({} : Decoder).run ops).1 = [⟨input, [0x6c, 0x73]⟩] ∧
      ({} : Decoder).run (ops ++ [.pop]) = (frames, {}) ∧
      ((({} : Decoder).run [.push [16, 0, 1, 7], .pop]).1.map (·.payload)).flatten = [7] := by
  intro frames ops
  obtain ⟨left, hframes, -, -, -, hall⟩ :=
    frames_reassembled.1 frames (by decide) ops [] (by decide)
  have hone : (({} : Decoder).run ops).1 = [⟨input, [0x6c, 0x73]⟩] := by decide
  rw [hone] at hframes
  obtain rfl : left = [⟨detach, []⟩] := by simpa [frames] using hframes.symm
  exact ⟨hone, hall rfl 1 (by decide),
    (frames_reassembled.2 16 [7] [.push [16, 0, 1, 7]] 1 (by decide) (by decide)).2.1⟩

end Wire
end Willie
