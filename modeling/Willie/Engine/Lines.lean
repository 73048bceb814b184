import Mathlib.Data.List.DropRight
import Willie.Common.Utf16
import Willie.Common.Utf8

/-!
# Engine — the peer's lines

The bytes the peer writes are cut behind each line feed, and each piece is
read in the encoding its own bytes look like. A line in UTF-16 leaves half of
its line feed to the next piece, where it is dropped. Two things do not come
out as they were written: behind a last line feed in UTF-16 the half is a line
of its own, and one character beyond ASCII is too short to look like UTF-16
(`readLines_iff`).
-/

namespace Willie
namespace Engine

/-! ## One line -/

/-- Every second byte, from the second on. -/
def highBytes : List UInt8 → List UInt8
  | _ :: b :: bytes => b :: highBytes bytes
  | _ => []

def looksUtf16 (bytes : List UInt8) : Bool :=
  [0xff, 0xfe].isPrefixOf bytes ||
    (4 ≤ bytes.length && bytes.length / 4 < (highBytes bytes).count 0)

/-- Decodes console output that may be UTF-16 or UTF-8. -/
def decodeWslOutput (bytes : List UInt8) : List Char :=
  if looksUtf16 bytes then
    (Utf16.decodeLossy (Utf16.units bytes)).dropWhile (· = '\ufeff')
  else Utf8.decodeLossy bytes

def isEnd (c : Char) : Bool := c = '\n' || c = '\r' || c = '\x00'

/-- `trim_matches` of what ends a line. -/
def trimEnds (text : List Char) : List Char := (text.rdropWhile isEnd).dropWhile isEnd

/-- What is sent for one piece: without the zeros at its head, which are the
rest of the line feed before it. -/
def lineOf (buf : List UInt8) : List Char := trimEnds (decodeWslOutput (buf.dropWhile (· = 0)))

/-- What is sent for some bytes, the buffer being what was read of the line
they go on with. -/
def readFrom (buf : List UInt8) : List UInt8 → List (List Char)
  | [] => if buf = [] then [] else [lineOf buf]
  | b :: bytes =>
    if b = 0x0a then lineOf (buf ++ [b]) :: readFrom [] bytes else readFrom (buf ++ [b]) bytes

/-- The lines that are sent until the end of the input. -/
def readLines (bytes : List UInt8) : List (List Char) := readFrom [] bytes

/-! ## What is written -/

/-- How a line is written: in UTF-16 with a byte order mark, or without one. -/
inductive Encoding
  | utf8
  | utf16 (bom : Bool)
  deriving DecidableEq

def Encoding.wide : Encoding → Bool
  | .utf8 => false
  | .utf16 _ => true

/-- The byte of a line feed that is behind the one it is cut at. -/
def Encoding.half : Encoding → List UInt8
  | .utf8 => []
  | .utf16 _ => [0]

/-- A line as it is written; in UTF-16 it is Latin. -/
structure Line where
  text : List Char
  encoding : Encoding
  nul : '\x00' ∉ text
  newline : '\n' ∉ text
  latin : encoding.wide = true → ∀ c ∈ text, c.toNat < 0x100

/-- The bytes of a line without its line feed. -/
def Line.body (l : Line) : List UInt8 :=
  match l.encoding with
  | .utf8 => Utf8.encode l.text
  | .utf16 false => Utf16.bytesLE (Utf16.encode l.text)
  | .utf16 true => 0xff :: 0xfe :: Utf16.bytesLE (Utf16.encode l.text)

def Line.bytes (l : Line) : List UInt8 := l.body ++ 0x0a :: l.encoding.half

/-- One character beyond ASCII in UTF-16, without a byte order mark. -/
def Line.isShort (l : Line) : Bool :=
  l.encoding = .utf16 false && l.text.length = 1 && l.text.any (0x80 ≤ ·.toNat)

/-- Lines one after the other, and a last one that has no line feed. -/
structure Stream where
  lines : List Line
  last : Option Line := none

def Stream.all (w : Stream) : List Line := w.lines ++ w.last.toList

def Stream.bytes (w : Stream) : List UInt8 :=
  w.lines.flatMap Line.bytes ++ w.last.elim [] Line.body

/-- The texts that were written, each with its ends trimmed. -/
def Stream.texts (w : Stream) : List (List Char) := w.all.map fun l => trimEnds l.text

/-- The last line has no bytes at all. -/
def Stream.unseen (w : Stream) : Bool := w.last.any (·.body = [])

/-- Nothing is behind the last line feed, and that is in UTF-16. -/
def Stream.loose (w : Stream) : Bool :=
  w.last.all (·.body = []) && w.lines.getLast?.any (·.encoding.wide)

variable {l : Line} {w : Stream} {bytes rest buf pad tail : List UInt8} {text : List Char}
  {c : Char}

/-! ## The ends of a line -/

/-- What a line is trimmed of leaves no trace behind it. -/
theorem trimEnds_snoc (h : isEnd c = true) : trimEnds (text ++ [c]) = trimEnds text := by
  rw [trimEnds, List.rdropWhile_concat_pos _ _ _ h, trimEnds]

theorem trimEnds_singleton (h : isEnd c = false) : trimEnds [c] = [c] := by
  have hkept : [c].rdropWhile isEnd = [c] :=
    List.rdropWhile_concat_neg isEnd [] c (by simp [h])
  rw [trimEnds, hkept, List.dropWhile_cons_of_neg (by simp [h])]

/-! ## Zeros -/

theorem mem_of_mem_highBytes {b : UInt8} (h : b ∈ highBytes bytes) : b ∈ bytes := by
  fun_induction highBytes bytes with
  | case1 a d bytes ih =>
    rcases List.mem_cons.mp h with rfl | h
    · simp
    · exact List.mem_cons_of_mem _ (List.mem_cons_of_mem _ (ih h))
  | case2 bytes hshort => cases h

/-- A byte too many is no second one. -/
theorem highBytes_snoc {b : UInt8} (h : bytes.length % 2 = 0) :
    highBytes (bytes ++ [b]) = highBytes bytes := by
  fun_induction highBytes bytes with
  | case1 a d bytes ih =>
    simp only [List.length_cons] at h
    rw [List.cons_append, List.cons_append, highBytes, ih (by omega)]
  | case2 bytes hshort =>
    rcases bytes with _ | ⟨a, _ | ⟨d, bytes⟩⟩
    · rfl
    · simp at h
    · exact (hshort a d bytes rfl).elim

/-- The bytes in UTF-16 of a text of the first 2 ^ 8 characters. -/
def latinBytes (text : List Char) : List UInt8 := text.flatMap fun c => [UInt8.ofNat c.toNat, 0]

theorem latinBytes_cons :
    latinBytes (c :: text) = UInt8.ofNat c.toNat :: 0 :: latinBytes text := rfl

theorem length_latinBytes : (latinBytes text).length = 2 * text.length := by
  induction text with
  | nil => rfl
  | cons c text ih =>
    simp only [latinBytes_cons, List.length_cons, ih]
    omega

/-- Half of their bytes are zeros. -/
theorem count_latinBytes : (highBytes (latinBytes text)).count 0 = text.length := by
  induction text with
  | nil => rfl
  | cons c text ih => rw [latinBytes_cons, highBytes, List.count_cons_self, ih, List.length_cons]

/-- Different characters have different bytes. -/
theorem ofNat_ne {d : Char} (h : c ≠ d) (hc : c.toNat < 0x100) (hd : d.toNat < 0x100) :
    UInt8.ofNat c.toNat ≠ UInt8.ofNat d.toNat := by
  intro heq
  have hbyte := congrArg UInt8.toNat heq
  rw [UInt8.toNat_ofNat', UInt8.toNat_ofNat', Nat.mod_eq_of_lt hc, Nat.mod_eq_of_lt hd] at hbyte
  exact h (Char.toNat_inj.mp hbyte)

/-- A piece that does not start with a zero is read as it is. -/
theorem lineOf_of_head (h : bytes.head? ≠ some 0) :
    lineOf bytes = trimEnds (decodeWslOutput bytes) := by
  cases bytes with
  | nil => rfl
  | cons b bytes =>
    have hb : b ≠ 0 := fun hb => h (by rw [hb]; rfl)
    rw [lineOf, List.dropWhile_cons_of_neg (by simpa using hb)]

/-- Zeros before a piece are not read. -/
theorem lineOf_pad (h : ∀ b ∈ pad, b = 0) : lineOf (pad ++ bytes) = lineOf bytes := by
  rw [lineOf, List.dropWhile_append_of_pos (by simpa using h), lineOf]

/-! ## A line in UTF-8 -/

theorem looksUtf16_encode (h : '\x00' ∉ text) : looksUtf16 (Utf8.encode text) = false := by
  have hzero : 0 ∉ Utf8.encode text := Utf8.notMem_encode (by decide) rfl h
  have hmark : 0xff ∉ Utf8.encode text := by
    intro hmem
    exact absurd (Utf8.lt_of_mem_encode hmem) (by decide)
  have hcount : (highBytes (Utf8.encode text)).count 0 = 0 :=
    List.count_eq_zero_of_not_mem fun hmem => hzero (mem_of_mem_highBytes hmem)
  have hbom : [0xff, 0xfe].isPrefixOf (Utf8.encode text) = false := by
    rw [Bool.eq_false_iff]
    intro hprefix
    obtain ⟨rest, hrest⟩ := List.isPrefixOf_iff_prefix.mp hprefix
    exact hmark (hrest ▸ List.mem_cons_self)
  simp [looksUtf16, hbom, hcount]

theorem lineOf_encode (h : '\x00' ∉ text) : lineOf (Utf8.encode text) = trimEnds text := by
  have hzero : 0 ∉ Utf8.encode text := Utf8.notMem_encode (by decide) rfl h
  rw [lineOf_of_head fun hhead => hzero (List.mem_of_head? hhead), decodeWslOutput,
    looksUtf16_encode h, if_neg Bool.false_ne_true, Utf8.decodeLossy_encode]

/-! ## A line in UTF-16 -/

/-- A piece ends with its line, or with the first byte of a line feed. -/
def Cut (tail : List UInt8) : Prop := tail = [] ∨ tail = [0x0a]

theorem Cut.length_lt (h : Cut tail) : tail.length < 2 := by
  rcases h with rfl | rfl <;> decide

theorem lineOf_wide (h : looksUtf16 (Utf16.bytesLE (Utf16.encode text) ++ tail) = true)
    (hhead : (Utf16.bytesLE (Utf16.encode text) ++ tail).head? ≠ some 0) (ht : Cut tail) :
    lineOf (Utf16.bytesLE (Utf16.encode text) ++ tail) =
      trimEnds (text.dropWhile (· = '\ufeff')) := by
  rw [lineOf_of_head hhead, decodeWslOutput, if_pos h, Utf16.decodeLossy_units ht.length_lt]

/-- No Latin text starts with a byte order mark. -/
theorem dropWhile_mark (h : ∀ c ∈ text, c.toNat < 0x100) :
    text.dropWhile (· = '\ufeff') = text := by
  cases text with
  | nil => rfl
  | cons c text =>
    have hc : c.toNat < 0x100 := h c List.mem_cons_self
    have hmark : c ≠ '\ufeff' := by
      rintro rfl
      exact absurd hc (by decide)
    exact List.dropWhile_cons_of_neg (by simpa using hmark)

/-- **A byte order mark** is enough. -/
theorem lineOf_marked (hlatin : ∀ c ∈ text, c.toNat < 0x100) (ht : Cut tail) :
    lineOf (0xff :: 0xfe :: Utf16.bytesLE (Utf16.encode text) ++ tail) = trimEnds text := by
  have hbytes : 0xff :: 0xfe :: Utf16.bytesLE (Utf16.encode text) ++ tail =
      Utf16.bytesLE (Utf16.encode ('\ufeff' :: text)) ++ tail := rfl
  have hhead : (Utf16.bytesLE (Utf16.encode ('\ufeff' :: text)) ++ tail).head? ≠ some 0 :=
    fun h => absurd (Option.some.inj h) (by decide)
  rw [hbytes, lineOf_wide rfl hhead ht, List.dropWhile_cons_of_pos rfl,
    dropWhile_mark hlatin]

/-- **Two characters** are enough. -/
theorem lineOf_latin (hnul : '\x00' ∉ text) (hlatin : ∀ c ∈ text, c.toNat < 0x100)
    (hlong : 2 ≤ text.length) (ht : Cut tail) :
    lineOf (Utf16.bytesLE (Utf16.encode text) ++ tail) = trimEnds text := by
  have hbytes : Utf16.bytesLE (Utf16.encode text) = latinBytes text :=
    Utf16.bytesLE_encode_latin hlatin
  have hhigh : highBytes (latinBytes text ++ tail) = highBytes (latinBytes text) := by
    rcases ht with rfl | rfl
    · rw [List.append_nil]
    · exact highBytes_snoc (by rw [length_latinBytes]; omega)
  have hlen : (latinBytes text ++ tail).length = 2 * text.length + tail.length := by
    rw [List.length_append, length_latinBytes]
  have htail := ht.length_lt
  have hlooks : looksUtf16 (latinBytes text ++ tail) = true := by
    -- the zeros are half of the bytes, and a quarter is asked for
    simp only [looksUtf16, hhigh, count_latinBytes, hlen, Bool.or_eq_true, Bool.and_eq_true,
      decide_eq_true_eq]
    omega
  have hhead : (latinBytes text ++ tail).head? ≠ some 0 := by
    cases text with
    | nil => simp at hlong
    | cons c text =>
      have hne : UInt8.ofNat c.toNat ≠ 0 := ofNat_ne (d := '\x00')
        (fun h => hnul (h ▸ List.mem_cons_self)) (hlatin c List.mem_cons_self) (by decide)
      simpa [latinBytes_cons] using hne
  rw [← hbytes] at hlooks hhead
  rw [lineOf_wide hlooks hhead ht, dropWhile_mark hlatin]

/-- **One character** is read as UTF-8, which it is if it is ASCII. -/
theorem lineOf_single (hnul : c ≠ '\x00') (hlatin : c.toNat < 0x100) (ht : Cut tail) :
    lineOf (UInt8.ofNat c.toNat :: 0 :: tail) =
      if 0x80 ≤ c.toNat then ['\ufffd'] else trimEnds [c] := by
  have hhead : (UInt8.ofNat c.toNat :: 0 :: tail).head? ≠ some 0 := by
    have hne : UInt8.ofNat c.toNat ≠ 0 := ofNat_ne hnul hlatin (by decide)
    simpa using hne
  have hlooks : looksUtf16 (UInt8.ofNat c.toNat :: 0 :: tail) = false := by
    rcases ht with rfl | rfl <;> simp [looksUtf16, List.isPrefixOf]
  have hdecode : Utf8.decodeLossy ([UInt8.ofNat c.toNat] ++ 0 :: tail) =
      Utf8.decodeLossy [UInt8.ofNat c.toNat] ++ '\x00' :: Utf8.decodeLossy tail :=
    Utf8.decodeLossy_append_cons (by decide) rfl
  -- the second byte is a character of its own, and trimmed
  have htrim (text : List Char) :
      trimEnds (text ++ '\x00' :: Utf8.decodeLossy tail) = trimEnds text := by
    rcases ht with rfl | rfl
    · exact trimEnds_snoc rfl
    · have hfeed : Utf8.decodeLossy (Utf8.encode ['\n']) = ['\n'] := Utf8.decodeLossy_encode
      change Utf8.decodeLossy [0x0a] = ['\n'] at hfeed
      rw [hfeed, List.append_cons, trimEnds_snoc rfl, trimEnds_snoc rfl]
  rw [lineOf_of_head hhead, decodeWslOutput, hlooks, if_neg Bool.false_ne_true]
  show trimEnds (Utf8.decodeLossy ([UInt8.ofNat c.toNat] ++ 0 :: tail)) = _
  rw [hdecode, htrim]
  split_ifs with hhigh
  · have hb : 0x80 ≤ UInt8.ofNat c.toNat := by
      rw [UInt8.le_iff_toNat_le, UInt8.toNat_ofNat', Nat.mod_eq_of_lt hlatin]
      exact hhigh
    rw [Utf8.decodeLossy_singleton hb, trimEnds_singleton rfl]
  · have hb : [UInt8.ofNat c.toNat] = Utf8.encode [c] := by
      have hlow : c.val.toNat ≤ 0x7f := Nat.le_of_lt_succ (Nat.not_le.mp hhigh)
      rw [Utf8.encode_cons, Utf8.encode_nil, List.append_nil, String.utf8EncodeChar, if_pos hlow]
      rfl
    rw [hb, Utf8.decodeLossy_encode]

/-! ## One line and the next -/

/-- What is sent for a line. -/
def Line.read (l : Line) : List Char := if l.isShort then ['\ufffd'] else trimEnds l.text

theorem Line.newline_notMem_body : 0x0a ∉ l.body := by
  have hlatin (hwide : l.encoding.wide = true) :
      0x0a ∉ Utf16.bytesLE (Utf16.encode l.text) := by
    rw [Utf16.bytesLE_encode_latin (l.latin hwide)]
    intro hmem
    obtain ⟨c, hc, hb⟩ := List.mem_flatMap.mp hmem
    rcases List.mem_pair.mp hb with hb | hb
    · exact ofNat_ne (d := '\n') (fun h => l.newline (h ▸ hc)) (l.latin hwide c hc) (by decide)
        hb.symm
    · exact absurd hb (by decide)
  unfold Line.body
  cases henc : l.encoding with
  | utf8 => exact Utf8.notMem_encode (by decide) rfl l.newline
  | utf16 bom =>
    have hwide := hlatin (by rw [henc]; rfl)
    cases bom with
    | false => exact hwide
    | true =>
      rw [List.mem_cons, List.mem_cons]
      exact not_or.mpr ⟨by decide, not_or.mpr ⟨by decide, hwide⟩⟩

/-- **One line** is read as it was written, if it is not too short. -/
theorem Line.lineOf_body (ht : Cut tail) : lineOf (l.body ++ tail) = l.read := by
  unfold Line.body Line.read
  cases henc : l.encoding with
  | utf8 =>
    have hshort : l.isShort = false := by simp [Line.isShort, henc]
    rw [hshort, if_neg Bool.false_ne_true]
    rcases ht with rfl | rfl
    · rw [List.append_nil]
      exact lineOf_encode l.nul
    · have hnul : '\x00' ∉ l.text ++ ['\n'] := by simp [l.nul]
      have hfeed : Utf8.encode l.text ++ [0x0a] = Utf8.encode (l.text ++ ['\n']) := by
        rw [Utf8.encode_append]
        rfl
      show lineOf (Utf8.encode l.text ++ [0x0a]) = _
      rw [hfeed, lineOf_encode hnul, trimEnds_snoc rfl]
  | utf16 bom =>
    have hlatin := l.latin (by rw [henc]; rfl)
    cases bom with
    | true =>
      have hshort : l.isShort = false := by simp [Line.isShort, henc]
      rw [hshort, if_neg Bool.false_ne_true]
      exact lineOf_marked hlatin ht
    | false =>
      have hnul := l.nul
      have hshort : l.isShort = (l.text.length = 1 && l.text.any (0x80 ≤ ·.toNat)) := by
        simp [Line.isShort, henc]
      rw [hshort]
      show lineOf (Utf16.bytesLE (Utf16.encode l.text) ++ tail) = _
      -- no character, one, or more
      generalize l.text = text at hnul hlatin
      rcases text with _ | ⟨c, _ | ⟨d, text⟩⟩
      · rcases ht with rfl | rfl <;> decide
      · have hc : c.toNat < 0x100 := hlatin c List.mem_cons_self
        rw [Utf16.bytesLE_encode_latin hlatin]
        refine (lineOf_single (fun h => hnul (h ▸ List.mem_cons_self)) hc ht).trans ?_
        simp
      · rw [lineOf_latin hnul hlatin (by simp) ht]
        simp

/-- A line, the buffer before it, and what is behind it. -/
theorem readFrom_line (h : 0x0a ∉ bytes) :
    readFrom buf (bytes ++ 0x0a :: rest) = lineOf (buf ++ bytes ++ [0x0a]) :: readFrom [] rest := by
  induction bytes generalizing buf with
  | nil => rw [List.nil_append, readFrom, if_pos rfl, List.append_nil]
  | cons b bytes ih =>
    -- the buffer is what was read of the line so far
    obtain ⟨hb, hbytes⟩ := List.ne_and_not_mem_of_not_mem_cons h
    rw [List.cons_append, readFrom, if_neg (Ne.symm hb), ih hbytes, List.append_assoc buf,
      List.singleton_append]

/-- What is behind the last line feed. -/
theorem readFrom_rest (h : 0x0a ∉ bytes) :
    readFrom buf bytes = if buf ++ bytes = [] then [] else [lineOf (buf ++ bytes)] := by
  induction bytes generalizing buf with
  | nil => rw [List.append_nil, readFrom]
  | cons b bytes ih =>
    obtain ⟨hb, hbytes⟩ := List.ne_and_not_mem_of_not_mem_cons h
    rw [readFrom, if_neg (Ne.symm hb), ih hbytes, List.append_assoc, List.singleton_append]

theorem Encoding.half_zero {e : Encoding} : ∀ b ∈ e.half, b = 0 := by
  cases e with
  | utf8 => simp [Encoding.half]
  | utf16 bom => simp [Encoding.half]

/-- **Whole lines** are read one by one, whatever half of a line feed is before
them, and leave half of one to what is behind them. -/
theorem readFrom_lines {ls : List Line} (hpad : ∀ b ∈ pad, b = 0) :
    readFrom [] (pad ++ (ls.flatMap Line.bytes ++ rest)) =
      ls.map Line.read ++
        readFrom [] ((ls.getLast?.elim pad fun l => l.encoding.half) ++ rest) := by
  induction ls generalizing pad with
  | nil => rfl
  | cons l ls ih =>
    -- the half that this line leaves is what is before the next one
    have hbytes : pad ++ ((l :: ls).flatMap Line.bytes ++ rest) =
        (pad ++ l.body) ++ 0x0a :: (l.encoding.half ++ (ls.flatMap Line.bytes ++ rest)) := by
      simp [Line.bytes]
    have hbody : 0x0a ∉ pad ++ l.body := by
      rw [List.mem_append]
      rintro (h | h)
      · exact absurd (hpad _ h) (by decide)
      · exact l.newline_notMem_body h
    have hlast : ((l :: ls).getLast?.elim pad fun l => l.encoding.half) =
        ls.getLast?.elim l.encoding.half fun l => l.encoding.half := by
      rw [List.getLast?_cons]
      cases ls.getLast? <;> rfl
    rw [hbytes, readFrom_line hbody, List.nil_append, List.append_assoc, lineOf_pad hpad,
      l.lineOf_body (.inr rfl), ih Encoding.half_zero, hlast]
    rfl

/-! ## Short lines, and lines of no bytes -/

/-- A line that is too short is not read as it was written. -/
theorem Line.short (h : l.isShort = true) : ∃ c ≠ '\ufffd', trimEnds l.text = [c] := by
  simp only [Line.isShort, Bool.and_eq_true, decide_eq_true_eq] at h
  obtain ⟨⟨henc, hlen⟩, hhigh⟩ := h
  obtain ⟨c, hc⟩ := List.length_eq_one_iff.mp hlen
  have hlatin : c.toNat < 0x100 := l.latin (by rw [henc]; rfl) c (hc ▸ List.mem_cons_self)
  rw [hc, List.any_cons, List.any_nil, Bool.or_false, decide_eq_true_eq] at hhigh
  refine ⟨c, ?_, ?_⟩
  · rintro rfl
    exact absurd hlatin (by decide)
  · rw [hc]
    refine trimEnds_singleton (Bool.eq_false_iff.mpr fun hend => ?_)
    simp only [isEnd, Bool.or_eq_true, decide_eq_true_eq] at hend
    rcases hend with (rfl | rfl) | rfl <;> exact absurd hhigh (by decide)

/-- **A line is read as it was written** if and only if it is not too short. -/
theorem Line.read_eq_iff : l.read = trimEnds l.text ↔ l.isShort = false := by
  unfold Line.read
  cases hshort : l.isShort with
  | true =>
    obtain ⟨c, hne, htext⟩ := l.short hshort
    rw [if_pos rfl, htext]
    simpa using hne.symm
  | false => simp

theorem Line.text_of_body (h : l.body = []) : l.text = [] := by
  unfold Line.body at h
  cases henc : l.encoding with
  | utf8 =>
    rw [henc] at h
    exact Utf8.encode_eq_nil.mp h
  | utf16 bom =>
    rw [henc] at h
    cases bom with
    | false =>
      have hbytes : latinBytes l.text = [] :=
        (Utf16.bytesLE_encode_latin (l.latin (by rw [henc]; rfl))).symm.trans h
      have hlen : 2 * l.text.length = 0 := by rw [← length_latinBytes, hbytes, List.length_nil]
      exact List.length_eq_zero_iff.mp (by omega)
    | true => cases h

/-- A line of no bytes is no short one. -/
theorem Line.read_of_body (h : l.body = []) : l.isShort = false ∧ l.read = [] := by
  have htext := l.text_of_body h
  have hshort : l.isShort = false := by simp [Line.isShort, htext]
  refine ⟨hshort, ?_⟩
  rw [l.read_eq_iff.mpr hshort, htext]
  rfl

/-- The same lines that say something are sent if none is too short. -/
theorem filter_read_eq_iff {ls : List Line} :
    (ls.map Line.read).filter (· ≠ []) = (ls.map fun l => trimEnds l.text).filter (· ≠ []) ↔
      ∀ l ∈ ls, l.isShort = false := by
  induction ls with
  | nil => simp
  | cons l ls ih =>
    rw [List.forall_mem_cons, ← ih, List.map_cons, List.map_cons]
    cases hshort : l.isShort with
    | true =>
      obtain ⟨c, hne, htext⟩ := l.short hshort
      have hread : l.read = ['\ufffd'] := if_pos hshort
      simp [hread, htext, hne.symm]
    | false =>
      rw [l.read_eq_iff.mpr hshort, List.filter_cons, List.filter_cons]
      split_ifs <;> simp

/-! ## Every stream -/

/-- What is sent behind the last line feed. -/
def Stream.ending (w : Stream) : List (List Char) :=
  if w.loose then [[]] else (w.last.filter (·.body ≠ [])).toList.map Line.read

/-- Half of a line feed, and the last line. -/
theorem readFrom_last (wide : Bool) (last : Option Line) :
    readFrom [] ((if wide then [0] else []) ++ last.elim [] Line.body) =
      if last.all (·.body = []) && wide then [[]]
      else (last.filter (·.body ≠ [])).toList.map Line.read := by
  have hpad : ∀ b ∈ (if wide then [0] else [] : List UInt8), b = 0 := by cases wide <;> simp
  have hempty : readFrom [] ((if wide then [0] else []) ++ []) = if wide then [[]] else [] := by
    cases wide <;> decide
  cases last with
  | none =>
    refine hempty.trans ?_
    cases wide <;> rfl
  | some l =>
    by_cases hbody : l.body = []
    · simpa [hbody, Option.filter] using hempty
    · have hfeed : 0x0a ∉ (if wide then [0] else []) ++ l.body := by
        rw [List.mem_append]
        rintro (h | h)
        · exact absurd (hpad _ h) (by decide)
        · exact l.newline_notMem_body h
      have hread : lineOf l.body = l.read := by
        have hwhole : lineOf (l.body ++ []) = l.read := l.lineOf_body (.inl rfl)
        rwa [List.append_nil] at hwhole
      rw [Option.elim_some, readFrom_rest hfeed, List.nil_append, lineOf_pad hpad, hread,
        if_neg (by simp [hbody])]
      simp [hbody, Option.filter]

/-- **What is sent** of a stream, line by line. -/
theorem readLines_eq : readLines w.bytes = w.lines.map Line.read ++ w.ending := by
  have hlines : readFrom [] ([] ++ w.bytes) = _ := readFrom_lines (by simp)
  have hhalf : (w.lines.getLast?.elim [] fun l => l.encoding.half) =
      if w.lines.getLast?.any (·.encoding.wide) then [0] else [] := by
    cases w.lines.getLast? with
    | none => rfl
    | some l => cases henc : l.encoding <;> simp [henc, Encoding.half, Encoding.wide]
  rw [hhalf, readFrom_last, List.nil_append] at hlines
  exact hlines

/-- What is sent behind the last line feed is the last line, if that is not too
short, and has bytes or half of a line feed before it. -/
theorem ending_eq_iff : (w.ending = w.last.toList.map fun l => trimEnds l.text) ↔
    w.loose = w.unseen ∧ ∀ l ∈ w.last.toList, l.isShort = false := by
  unfold Stream.ending Stream.loose Stream.unseen
  cases w.last with
  | none => cases w.lines.getLast?.any (·.encoding.wide) <;> simp
  | some l =>
    by_cases hbody : l.body = []
    · have hread := l.read_of_body hbody
      have htext : trimEnds l.text = [] := l.read_eq_iff.mpr hread.1 ▸ hread.2
      cases w.lines.getLast?.any (·.encoding.wide) <;> simp [hbody, htext, hread.1]
    · simp [hbody, l.read_eq_iff, Option.filter]

theorem filter_ending : w.ending.filter (· ≠ []) =
    (w.last.toList.map Line.read).filter (· ≠ []) := by
  unfold Stream.ending Stream.loose
  cases w.last with
  | none => split_ifs <;> simp
  | some l =>
    by_cases hbody : l.body = []
    · have hread := (l.read_of_body hbody).2
      split_ifs <;> simp [hbody, hread, Option.filter]
    · simp [hbody, Option.filter]

/-- **The lines that are sent** are the texts that were written, if and only if
no line is too short, and nothing is behind a last line feed in UTF-16 but a
line of no bytes; those that are not empty are the texts' if and only if no
line is too short. -/
theorem readLines_iff (w : Stream) :
    (readLines w.bytes = w.texts ↔ w.loose = w.unseen ∧ ∀ l ∈ w.all, l.isShort = false) ∧
      ((readLines w.bytes).filter (· ≠ []) = w.texts.filter (· ≠ []) ↔
        ∀ l ∈ w.all, l.isShort = false) := by
  rw [readLines_eq, Stream.texts, Stream.all, List.map_append]
  constructor
  · have hparts : w.lines.map Line.read ++ w.ending =
        (w.lines.map fun l => trimEnds l.text) ++ w.last.toList.map (fun l => trimEnds l.text) ↔
        w.lines.map Line.read = w.lines.map (fun l => trimEnds l.text) ∧
          w.ending = w.last.toList.map fun l => trimEnds l.text :=
      ⟨fun h => List.append_inj h (by simp), fun h => by rw [h.1, h.2]⟩
    rw [hparts, ending_eq_iff, List.map_inj_left, List.forall_mem_append]
    simp only [Line.read_eq_iff]
    exact and_left_comm
  · rw [List.filter_append, filter_ending, ← List.filter_append, ← List.map_append,
      ← List.map_append, filter_read_eq_iff]

/-- One line in UTF-16 and its line feed. -/
def endedLine : Stream :=
  { lines := [⟨['x', '\r'], .utf16 false, by simp, by simp, by simp⟩] }

/-- One letter in UTF-16, as the only line. -/
def letterLine : Stream :=
  { lines := [], last := some ⟨['é'], .utf16 false, by simp, by simp, by simp⟩ }

/-- **Lines that were not written**: an empty one behind a last line feed, and a
replacement character for a letter. -/
theorem lines_misread :
    readLines endedLine.bytes = [['x'], []] ∧ endedLine.texts = [['x']] ∧
      readLines letterLine.bytes = [['\ufffd']] ∧ letterLine.texts = [['é']] ∧
      ¬ ∀ w : Stream, readLines w.bytes = w.texts := by
  have hended : readLines endedLine.bytes = [['x'], []] := by
    rw [readLines_eq]
    decide
  have hletter : readLines letterLine.bytes = [['\ufffd']] := by
    rw [readLines_eq]
    decide
  refine ⟨hended, by decide, hletter, by decide, fun h => ?_⟩
  have hextra := h endedLine
  rw [hended] at hextra
  exact absurd hextra (by decide)

end Engine
end Willie
