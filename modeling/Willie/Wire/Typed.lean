import Willie.Wire.Hostterm

/-!
# Wire — from the window to the PTY

What is typed in the app's window crosses two processes: the engine writes
host frames to the attach process's stdin, which reads them in chunks and
writes wire frames to the supervisor's socket, where they are cut again. A
script says what was typed and resized, byte by byte, and in which order.
-/

namespace Willie
namespace Wire

open Framing Hostterm
open Supervisor (Bytes maxPayload)

/-! ## The engine -/

def inputFrame (bytes : Bytes) : Bytes := encodeInput bytes
def resizeFrame (rows cols : UInt16) : Bytes := Hostterm.encodeResize rows cols

/-- `Bridge::write_frame`, on what is in the child's stdin. -/
def writeFrame (stdin frame : Bytes) : Bytes := stdin ++ frame

/-- What the window does to its terminal. -/
inductive Call where
  | input (data : Bytes)
  | resize (rows cols : UInt16)
  deriving DecidableEq, Repr

def Call.run (stdin : Bytes) : Call → Bytes
  | .input data => writeFrame stdin (inputFrame data)
  | .resize rows cols => writeFrame stdin (resizeFrame rows cols)

/-- What some calls put on the child's stdin. -/
def stdinOf (calls : List Call) : Bytes := calls.foldl Call.run []

/-! ## The attach process -/

/-- What reading stdin answers; nothing read is the end. -/
inductive Read where
  | ok (chunk : Bytes)
  | interrupted
  | failed
  deriving DecidableEq, Repr

/-- `write_all_fd`. The socket takes `room` bytes in all before it fails, or
never fails. -/
def writeAll (room : Option ℕ) (sent bytes : Bytes) : Bytes × Bool :=
  match room with
  | none => (sent ++ bytes, true)
  | some n =>
    if sent.length + bytes.length ≤ n then (sent ++ bytes, true)
    else (sent ++ bytes.take (n - sent.length), false)

/-- Writes one after the other, until one fails. -/
def writeParts (room : Option ℕ) : List Bytes → Bytes → Bytes × Bool
  | [], sent => (sent, true)
  | part :: parts, sent =>
    match writeAll room sent part with
    | (sent, true) => writeParts room parts sent
    | (sent, false) => (sent, false)

/-- What a host frame is forwarded as. -/
def forward (room : Option ℕ) (sent : Bytes) : HostFrame → Bytes × Bool
  | .input bytes => writeParts room ((pieces bytes).map (encode input)) sent
  | .resize rows cols => writeParts room [Wire.encodeResize rows cols] sent

/-- What was read and not decoded, and what the socket took. -/
structure Attach where
  buf : Bytes := []
  sent : Bytes := []
  deriving DecidableEq, Repr

/-- Decodes and forwards until a frame is not all there; the exit code when
the process ends here. Each turn takes a byte off the buffer, so its length
bounds the turns. -/
def decodeLoop (room : Option ℕ) : ℕ → Attach → Attach × Option UInt8
  | 0, s => (s, none)
  | fuel + 1, s =>
    match decodeFrame s.buf with
    | .ok (some (frame, used)) =>
      match forward room s.sent frame with
      | (sent, true) => decodeLoop room fuel ⟨s.buf.drop used, sent⟩
      | (sent, false) => (⟨s.buf.drop used, sent⟩, some 1)
    | .ok none => (s, none)
    | .error _ => (s, some 1)

/-- `host_input_loop` on what its reads answer; no exit code while it waits
for the next one. -/
def hostInputLoop (room : Option ℕ) : List Read → Attach → Attach × Option UInt8
  | [], s => (s, none)
  | .ok [] :: _, s => ({ s with sent := (writeAll room s.sent (encode detach [])).1 }, some 0)
  | .ok chunk :: reads, s =>
    let buf := s.buf ++ chunk
    match decodeLoop room (buf.length + 1) { s with buf } with
    | (s, none) => hostInputLoop room reads s
    | (s, some code) => (s, some code)
  | .interrupted :: reads, s => hostInputLoop room reads s
  | .failed :: _, s => (s, some 1)

/-- The bytes the reads brought. -/
def arrived : List Read → Bytes
  | [] => []
  | .ok chunk :: reads => chunk ++ arrived reads
  | .interrupted :: reads => arrived reads
  | .failed :: reads => arrived reads

/-- No read fails, and only the last finds the end. -/
def ReadsAll : List Read → Prop
  | [] => True
  | .ok [] :: reads => reads = []
  | .ok (_ :: _) :: reads => ReadsAll reads
  | .interrupted :: reads => ReadsAll reads
  | .failed :: _ => False

/-! ## The supervisor -/

/-- What a terminal's frames do to the PTY, until it leaves. -/
def served : List Frame → List Call
  | [] => []
  | frame :: frames =>
    if frame.kind = input then .input frame.payload :: served frames
    else if frame.kind = resize then
      match decodeResize frame.payload with
      | some (rows, cols) => .resize rows cols :: served frames
      | none => served frames
    else if frame.kind = detach then []
    else served frames

/-- What was typed and resized, a byte at a time. -/
def script (calls : List Call) : List (UInt8 ⊕ UInt16 × UInt16) :=
  calls.flatMap fun
    | .input data => data.map .inl
    | .resize rows cols => [.inr (rows, cols)]

/-! ## Forwarding -/

variable {room : Option ℕ} {sent bytes late : Bytes} {parts : List Bytes} {items : List HostFrame}
  {s : Attach} {reads : List Read} {frames frames' : List Frame} {fuel : ℕ}

theorem writeAll_sent : (writeAll room sent bytes).1 <+: sent ++ bytes := by
  cases room with
  | none => exact List.prefix_rfl
  | some n =>
    simp only [writeAll]
    split
    · exact List.prefix_rfl
    · exact (List.prefix_append_right_inj sent).mpr (List.take_prefix _ _)

theorem writeAll_ok (h : (writeAll room sent bytes).2 = true) :
    (writeAll room sent bytes).1 = sent ++ bytes := by
  cases room with
  | none => rfl
  | some n =>
    simp only [writeAll] at h ⊢
    split <;> simp_all

/-- What is written is the beginning of what was to be, and all of it unless
a write failed. -/
theorem writeParts_sent : (writeParts room parts sent).1 <+: sent ++ parts.flatten ∧
    ((writeParts room parts sent).2 = true →
      (writeParts room parts sent).1 = sent ++ parts.flatten) ∧
    (room = none → (writeParts room parts sent).2 = true) := by
  induction parts generalizing sent with
  | nil => simp [writeParts]
  | cons part parts ih =>
    have hsent : (writeAll room sent part).1 <+: sent ++ part := writeAll_sent
    have hok : (writeAll room sent part).2 = true → (writeAll room sent part).1 = sent ++ part :=
      writeAll_ok
    rcases hw : writeAll room sent part with ⟨sent', ok⟩
    simp only [hw] at hsent hok
    cases ok with
    | true =>
      obtain rfl := hok rfl
      simp only [writeParts, hw, List.flatten_cons, ← List.append_assoc]
      exact ih
    | false =>
      simp only [writeParts, hw, List.flatten_cons, ← List.append_assoc]
      refine ⟨hsent.trans (List.prefix_append _ _), fun h => (nomatch h), ?_⟩
      rintro rfl
      cases hw

/-- The wire frames of a host frame. -/
def relay : HostFrame → List Frame
  | .input bytes => (pieces bytes).map (Frame.mk input)
  | .resize rows cols => [⟨resize, toBeBytes 2 rows.toNat ++ toBeBytes 2 cols.toNat⟩]

/-- The frame that leaves. -/
def bye : Frame := ⟨detach, []⟩

theorem relay_fits {f : HostFrame} : ∀ g ∈ relay f, frameCode.Fits g := by
  intro g hg
  cases f with
  | input bytes =>
    obtain ⟨piece, hpiece, rfl⟩ := List.mem_map.mp hg
    exact length_piece hpiece
  | resize rows cols =>
    obtain rfl := List.mem_singleton.mp hg
    show (toBeBytes 2 rows.toNat ++ toBeBytes 2 cols.toNat).length ≤ maxPayload
    simp [maxPayload]

theorem forward_eq {f : HostFrame} :
    forward room sent f = writeParts room ((relay f).map frameCode.encode) sent := by
  cases f with
  | input bytes =>
    rw [forward, relay, List.map_map]
    rfl
  | resize rows cols => rfl

/-- **What one frame puts on the socket.** -/
theorem forward_sent {f : HostFrame} :
    (forward room sent f).1 <+: sent ++ stream frameCode (relay f) ∧
    ((forward room sent f).2 = true →
      (forward room sent f).1 = sent ++ stream frameCode (relay f)) ∧
    (room = none → (forward room sent f).2 = true) := by
  rw [forward_eq, stream, List.flatMap_def]
  exact writeParts_sent

/-! ## The attach process's loop -/

/-- What the attach process makes of the frames on its stdin. -/
def relayed (items : List HostFrame) : List Frame := items.flatMap relay

@[simp] theorem relayed_cons {f : HostFrame} :
    relayed (f :: items) = relay f ++ relayed items := rfl

theorem relayed_append {items' : List HostFrame} :
    relayed (items ++ items') = relayed items ++ relayed items' := List.flatMap_append

/-- How a chunk's turn ends: it has taken whole frames off the buffer and
forwarded them in order, all there are if it had the turns; or the socket
failed under one of them. -/
inductive Turn (room : Option ℕ) (fuel : ℕ) (items : List HostFrame) (s : Attach) :
    Attach × Option UInt8 → Prop
  | waits {taken left : List HostFrame} {buf : Bytes} (hitems : items = taken ++ left)
      (hbuf : stream hostCode taken ++ buf = s.buf)
      (hend : s.buf.length < fuel → hostCode.decode buf = none) :
      Turn room fuel items s (⟨buf, s.sent ++ stream frameCode (relayed taken)⟩, none)
  | fails {s' : Attach} {code : UInt8} (hroom : room ≠ none)
      (hsent : s'.sent <+: s.sent ++ stream frameCode (relayed items)) :
      Turn room fuel items s (s', some code)

theorem Turn.idle (h : s.buf.length < fuel → hostCode.decode s.buf = none) :
    Turn room fuel items s (s, none) := by
  have hwaits : Turn room fuel items s (⟨s.buf, s.sent ++ stream frameCode (relayed [])⟩, none) :=
    .waits rfl rfl h
  simpa [relayed] using hwaits

theorem encode_pos {f : HostFrame} : 0 < (hostCode.encode f).length := by
  cases f <;> exact Nat.succ_pos _

theorem decodeLoop_turn (room : Option ℕ) (fuel : ℕ) (hfits : ∀ f ∈ items, f.Fits)
    (h : s.buf ++ late = stream hostCode items) :
    Turn room fuel items s (decodeLoop room fuel s) := by
  induction fuel generalizing s items with
  | zero => exact .idle fun hlt => absurd hlt (Nat.not_lt_zero _)
  | succ fuel ih =>
    have idle (hnone : decodeFrame s.buf = .ok none) :
        Turn room (fuel + 1) items s (decodeLoop room (fuel + 1) s) := by
      have hidle : Turn room (fuel + 1) items s (s, none) :=
        .idle fun _ => by simp [hostCode, split, hnone]
      simpa [decodeLoop, hnone] using hidle
    cases items with
    | nil =>
      have hbuf : s.buf = [] := by simp_all
      exact idle (by rw [hbuf]; rfl)
    | cons f items =>
      have hf := hfits f List.mem_cons_self
      rcases decode_stream (C := hostCode) hf h with
        ⟨rest, hbuf, hlate, -⟩ | ⟨lacking, henc, hne, -⟩
      · have hdecode : decodeFrame s.buf = .ok (some (f, f.encode.length)) := by
          rw [hbuf]
          exact decodeFrame_encode hf
        have hdrop : s.buf.drop f.encode.length = rest := by
          rw [hbuf]
          exact List.drop_left
        obtain ⟨hsent, hok, hnever⟩ := @forward_sent room s.sent f
        rcases hfw : forward room s.sent f with ⟨sent', ok⟩
        simp only [hfw] at hsent hok hnever
        cases ok with
        | false =>
          have hfails : decodeLoop room (fuel + 1) s = (⟨rest, sent'⟩, some 1) := by
            simp only [decodeLoop, hdecode, hfw, hdrop]
          rw [hfails]
          refine .fails (fun hroom => (nomatch hnever hroom)) ?_
          rw [relayed_cons, stream_append, ← List.append_assoc]
          exact hsent.trans (List.prefix_append _ _)
        | true =>
          obtain rfl := hok rfl
          have hloop : decodeLoop room (fuel + 1) s =
              decodeLoop room fuel ⟨rest, s.sent ++ stream frameCode (relay f)⟩ := by
            simp only [decodeLoop, hdecode, hfw, hdrop]
          have hlen : s.buf.length = (hostCode.encode f).length + rest.length := by
            rw [hbuf, List.length_append]
          have hpos := encode_pos (f := f)
          have hturn := ih (s := ⟨rest, s.sent ++ stream frameCode (relay f)⟩)
            (fun g hg => hfits g (List.mem_cons_of_mem f hg)) hlate
          rw [hloop]
          generalize decodeLoop room fuel _ = r at hturn
          cases hturn with
          | waits hitems hrest hend =>
            rw [List.append_assoc, ← stream_append, ← relayed_cons]
            refine .waits (by rw [hitems]; rfl) ?_ fun hlt => hend ?_
            · rw [stream_cons, List.append_assoc, hrest, hbuf]
            · show rest.length < fuel
              omega
          | fails hroom hsent =>
            rw [List.append_assoc, ← stream_append, ← relayed_cons] at hsent
            exact .fails hroom hsent
      · exact idle (decodeFrame_part hf henc hne)

/-- **What reaches the socket** is the beginning of the first frames'
forwarding, a goodbye behind them. -/
theorem hostInputLoop_sent (room : Option ℕ) (hfits : ∀ f ∈ items, f.Fits)
    (h : s.buf ++ arrived reads ++ late = stream hostCode items) :
    ∃ taken left, items = taken ++ left ∧
      (hostInputLoop room reads s).1.sent <+:
        s.sent ++ stream frameCode (relayed taken ++ [bye]) := by
  induction reads generalizing s items with
  | nil => exact ⟨[], items, rfl, List.prefix_append _ _⟩
  | cons r reads ih =>
    cases r with
    | interrupted => exact ih hfits h
    | failed => exact ⟨[], items, rfl, List.prefix_append _ _⟩
    | ok chunk =>
      cases chunk with
      | nil => exact ⟨[], items, rfl, writeAll_sent⟩
      | cons b chunk =>
        have hbuf : (s.buf ++ b :: chunk) ++ (arrived reads ++ late) = stream hostCode items := by
          simpa [arrived] using h
        have hturn := decodeLoop_turn room ((s.buf ++ b :: chunk).length + 1)
          (s := { s with buf := s.buf ++ b :: chunk }) hfits hbuf
        simp only [hostInputLoop]
        generalize decodeLoop room _ _ = r at hturn
        cases hturn with
        | waits hitems hrest hend =>
          rename_i taken left buf
          dsimp only at hrest ⊢
          have hleft : buf ++ arrived reads ++ late = stream hostCode left := by
            rw [← hrest, hitems, stream_append, List.append_assoc] at hbuf
            rw [List.append_assoc]
            exact List.append_cancel_left hbuf
          obtain ⟨more, left', hmore, hsent⟩ :=
            ih (s := ⟨buf, s.sent ++ stream frameCode (relayed taken)⟩)
              (fun f hf => hfits f (by simp [hitems, hf])) hleft
          refine ⟨taken ++ more, left', by rw [hitems, hmore, List.append_assoc], ?_⟩
          rw [relayed_append, List.append_assoc, stream_append, ← List.append_assoc s.sent]
          exact hsent
        | fails _ hsent =>
          refine ⟨items, [], by simp, hsent.trans ?_⟩
          rw [stream_append, ← List.append_assoc]
          exact List.prefix_append _ _

/-- **Nothing is lost on the way**: where all of stdin is read and the socket
takes it, every frame is forwarded. -/
theorem hostInputLoop_all (hfits : ∀ f ∈ items, f.Fits)
    (h : s.buf ++ arrived reads = stream hostCode items) (hreads : ReadsAll reads)
    (hidle : hostCode.decode s.buf = none) :
    ∃ last, (last = [] ∨ last = [bye]) ∧ (hostInputLoop none reads s).1.sent =
      s.sent ++ stream frameCode (relayed items ++ last) := by
  have spent (h : s.buf = stream hostCode items) : items = [] :=
    eq_nil_of_decode hfits (h ▸ hidle)
  induction reads generalizing s items with
  | nil =>
    obtain rfl := spent (by simpa [arrived] using h)
    exact ⟨[], .inl rfl, (List.append_nil _).symm⟩
  | cons r reads ih =>
    cases r with
    | interrupted => exact ih hfits h hreads hidle spent
    | failed => cases hreads
    | ok chunk =>
      cases chunk with
      | nil =>
        obtain rfl : reads = [] := hreads
        obtain rfl := spent (by simpa [arrived] using h)
        exact ⟨[bye], .inr rfl, by simp [hostInputLoop, writeAll, relayed, bye, frameCode]⟩
      | cons b chunk =>
        have hbuf : (s.buf ++ b :: chunk) ++ arrived reads = stream hostCode items := by
          simpa [arrived] using h
        have hturn := decodeLoop_turn none ((s.buf ++ b :: chunk).length + 1)
          (s := { s with buf := s.buf ++ b :: chunk }) hfits hbuf
        simp only [hostInputLoop]
        generalize decodeLoop none _ _ = r at hturn
        cases hturn with
        | waits hitems hrest hend =>
          rename_i taken left buf
          dsimp only at hrest hend ⊢
          have hfits' : ∀ f ∈ left, f.Fits := fun f hf => hfits f (by simp [hitems, hf])
          have hleft : buf ++ arrived reads = stream hostCode left := by
            rw [← hrest, hitems, stream_append, List.append_assoc] at hbuf
            exact List.append_cancel_left hbuf
          have hdone := hend (Nat.lt_succ_self _)
          obtain ⟨last, hlast, hsent⟩ :=
            ih (s := ⟨buf, s.sent ++ stream frameCode (relayed taken)⟩) hfits' hleft hreads hdone
              fun hall => eq_nil_of_decode hfits' (by rw [← hall]; exact hdone)
          refine ⟨last, hlast, ?_⟩
          rw [hsent, hitems, relayed_append, List.append_assoc, List.append_assoc,
            ← stream_append]
        | fails hroom => exact absurd rfl hroom

/-! ## What the supervisor makes of it -/

theorem served_mono (h : frames <+: frames') : served frames <+: served frames' := by
  induction frames generalizing frames' with
  | nil => exact List.nil_prefix
  | cons f frames ih =>
    obtain ⟨rest, rfl⟩ := h
    have hrest := ih (List.prefix_append frames rest)
    simp only [List.cons_append, served]
    split
    · exact List.cons_prefix_cons.mpr ⟨rfl, hrest⟩
    · split
      · cases decodeResize f.payload with
        | none => exact hrest
        | some size => exact List.cons_prefix_cons.mpr ⟨rfl, hrest⟩
      · split
        · exact List.prefix_rfl
        · exact hrest

theorem script_mono {calls calls' : List Call} (h : calls <+: calls') :
    script calls <+: script calls' := by
  obtain ⟨rest, rfl⟩ := h
  rw [script, script, List.flatMap_append]
  exact List.prefix_append _ _

@[simp] theorem script_cons {c : Call} {calls : List Call} :
    script (c :: calls) = script [c] ++ script calls := by
  simp [script]

/-- A call, as the host frame it is written as. -/
def Call.host : Call → HostFrame
  | .input data => .input data
  | .resize rows cols => .resize rows cols

theorem stdinOf_eq {calls : List Call} :
    stdinOf calls = stream hostCode (calls.map Call.host) := by
  have step (calls : List Call) (stdin : Bytes) :
      calls.foldl Call.run stdin = stdin ++ stream hostCode (calls.map Call.host) := by
    induction calls generalizing stdin with
    | nil => simp
    | cons c calls ih =>
      rw [List.foldl_cons, ih, List.map_cons, stream_cons, ← List.append_assoc]
      cases c <;> rfl
  exact step calls []

/-- **One call's frames do what the call asked**, whatever comes behind. -/
theorem script_relay {c : Call} :
    script (served (relay c.host ++ frames)) = script [c] ++ script (served frames) := by
  cases c with
  | input data =>
    have each (parts : List Bytes) :
        script (served (parts.map (Frame.mk input) ++ frames)) =
          script [.input parts.flatten] ++ script (served frames) := by
      induction parts with
      | nil => simp [script]
      | cons part parts ih =>
        rw [List.map_cons, List.cons_append, served, if_pos rfl, script_cons, ih]
        simp [script]
    rw [Call.host, relay, each, flatten_pieces]
  | resize rows cols =>
    have hne : resize ≠ input := by decide
    simp only [Call.host, relay, List.singleton_append, served, if_neg hne, if_true,
      decodeResize_encoded]
    exact script_cons

theorem script_relayed {calls : List Call} :
    script (served (relayed (calls.map Call.host) ++ frames)) =
      script calls ++ script (served frames) := by
  induction calls with
  | nil => rfl
  | cons c calls ih =>
    rw [List.map_cons, relayed_cons, List.append_assoc, script_relay, ih, @script_cons c calls,
      List.append_assoc]

/-! ## End to end -/

variable {calls : List Call} {hi : Bytes} {ops : List (Op UInt8)} {n : ℕ}

/-- The frames the supervisor is sent: the hello, what is forwarded, and the
goodbye where stdin ended. -/
def socketFrames (hi : Bytes) (items : List HostFrame) (last : List Frame) : List Frame :=
  ⟨hello, hi.take maxPayload⟩ :: (relayed items ++ last)

theorem socketFrames_fits {last : List Frame} (hlast : last <+: [bye]) :
    ∀ f ∈ socketFrames hi items last, frameCode.Fits f := by
  intro f hf
  simp only [socketFrames, List.mem_cons, List.mem_append] at hf
  rcases hf with rfl | hf | hf
  · exact List.length_take_le _ _
  · obtain ⟨item, -, hf⟩ := List.mem_flatMap.mp hf
    exact relay_fits f hf
  · obtain rfl := List.mem_singleton.mp (hlast.subset hf)
    exact Nat.zero_le _

theorem stream_socketFrames {last : List Frame} :
    stream frameCode (socketFrames hi items last) =
      encode hello hi ++ stream frameCode (relayed items ++ last) := by
  rw [socketFrames, stream_cons, @encode_take hello hi]
  rfl

/-- **Typed bytes reach the PTY intact.** However stdin and the socket are
cut, wherever they end or fail: what the supervisor does to the PTY is the
beginning of what was typed and resized, in that order. It is all of it once
stdin is read, the socket has taken and brought everything, and the decoder
has nothing left. -/
theorem typed_reaches_pty (calls : List Call)
    (hcalls : ∀ data, .input data ∈ calls → data.length < 2 ^ 32)
    (room : Option ℕ) (reads : List Read) (unread : Bytes)
    (hreads : arrived reads ++ unread = stdinOf calls)
    (hi : Bytes) (ops : List (Op UInt8)) (unsent : Bytes)
    (hops : pushed ops ++ unsent = encode hello hi ++ (hostInputLoop room reads {}).1.sent) :
    script (served (({} : Decoder).run ops).1.tail) <+: script calls ∧
    (room = none → ReadsAll reads → unread = [] → unsent = [] →
      (({} : Decoder).run ops).2.pop.1 = none →
      script (served (({} : Decoder).run ops).1.tail) = script calls) := by
  have hfits : ∀ f ∈ calls.map Call.host, f.Fits := by
    intro f hf
    obtain ⟨c, hc, rfl⟩ := List.mem_map.mp hf
    cases c with
    | input data => exact hcalls data hc
    | resize => trivial
  rw [stdinOf_eq] at hreads
  constructor
  · obtain ⟨taken, left, hitems, rest, hsent⟩ :=
      hostInputLoop_sent (s := {}) room hfits
        (show [] ++ arrived reads ++ unread = _ by simpa using hreads)
    have hstream : ([] : Bytes) ++ pushed ops ++ (unsent ++ rest) =
        stream frameCode (socketFrames hi taken [bye]) := by
      rw [stream_socketFrames, List.nil_append, ← List.append_assoc, hops, List.append_assoc, hsent,
        List.nil_append]
    obtain ⟨popped, later, hframes, hpopped, -⟩ :=
      run_stream (socketFrames_fits List.prefix_rfl) hstream
    have htail : popped.tail <+: relayed taken ++ [bye] := by
      cases popped with
      | nil => exact List.nil_prefix
      | cons f popped =>
        obtain ⟨-, hrest⟩ := List.cons.inj hframes
        exact hrest ▸ List.prefix_append _ _
    obtain ⟨calls', more, rfl, rfl, -⟩ := List.map_eq_append_iff.mp hitems
    rw [run_eq]
    show script (served (Framing.run frameCode [] ops).1.tail) <+: _
    rw [hpopped]
    refine (script_mono (served_mono htail)).trans ?_
    rw [script_relayed]
    have hbye : script (served [bye]) = [] := rfl
    rw [hbye, List.append_nil]
    exact script_mono (List.prefix_append _ _)
  · rintro rfl hall rfl rfl hpop
    obtain ⟨last, hlast, hsent⟩ :=
      hostInputLoop_all (s := {}) hfits (by simpa using hreads) hall rfl
    have hle : last <+: [bye] := by
      rcases hlast with rfl | rfl
      · exact List.nil_prefix
      · exact List.prefix_rfl
    have hstream : pushed ops = stream frameCode (socketFrames hi (calls.map Call.host) last) := by
      rw [stream_socketFrames, ← List.append_nil (pushed ops), hops, hsent]
      rfl
    obtain ⟨popped, later, hframes, hpopped, hheld⟩ :=
      run_stream (socketFrames_fits hle)
        (show [] ++ pushed ops ++ [] = stream frameCode _ by simpa using hstream)
    have hlater : (Framing.run frameCode [] ops).2 = stream frameCode later := by
      rw [List.nil_append, hstream, hframes, stream_append] at hheld
      exact List.append_cancel_left hheld
    have hnone : frameCode.decode (stream frameCode later) = none := by
      rw [run_eq] at hpop
      rw [← hlater, decode_eq, Option.map_eq_none_iff]
      exact hpop
    obtain rfl : later = [] :=
      eq_nil_of_decode (fun f hf => socketFrames_fits hle f
        (hframes ▸ List.mem_append_right popped hf)) hnone
    rw [List.append_nil] at hframes
    rw [run_eq]
    show script (served (Framing.run frameCode [] ops).1.tail) = _
    rw [hpopped, ← hframes, socketFrames, List.tail_cons, script_relayed]
    rcases hlast with rfl | rfl <;> exact List.append_nil _

/-- A line, a resize in its middle: stdin cut inside a header, the socket
after its first byte. -/
theorem typed_reaches_pty_line :
    let calls : List Call := [.input [0x6c], .resize 30 100, .input [0x73, 0x0d]]
    let ops : List (Op UInt8) :=
      [.push [3], .pop, .push [0, 0, 0, 0, 1, 0x6c, 1, 0, 4], .pop, .pop,
        .push [0, 30, 0, 100, 0, 0, 2, 0x73, 0x0d, 2, 0, 0], .pop, .pop, .pop]
    script (served (({} : Decoder).run ops).1.tail) = script calls := by
  intro calls ops
  let reads : List Read :=
    [.ok [0x69, 0, 0], .interrupted, .ok [0, 1, 0x6c, 0x72, 0, 30, 0],
      .ok [100, 0x69, 0, 0, 0, 2, 0x73, 0x0d], .ok []]
  refine (typed_reaches_pty calls ?_ none reads [] (by decide) [] ops [] (by decide)).2 rfl
    rfl rfl rfl (by decide)
  intro data hdata
  have hlen : ∀ c ∈ calls, ∀ data, c = .input data → data.length < 3 := by
    intro c hc data heq
    simp only [calls, List.mem_cons, List.not_mem_nil, or_false] at hc
    rcases hc with rfl | rfl | rfl <;> cases heq <;> decide
  exact (hlen _ hdata data rfl).trans (by decide)

end Wire
end Willie
