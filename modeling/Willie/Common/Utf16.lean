import Mathlib.Data.Nat.Notation
import Mathlib.Data.List.Basic

/-!
# Texts in UTF-16

A text's units are its characters', two of them for a character beyond the
first 2 ^ 16, and a unit is two bytes, the low one first. Half a pair is read
as a replacement character, and half a unit is not read at all. A text is read
back from its own units, and these from their own bytes.
-/

namespace Utf16

variable {text : List Char} {c : Char} {u : ℕ} {us : List ℕ} {tail : List UInt8}

/-! ## Units -/

/-- A unit that is half a pair. -/
def isSurrogate (u : ℕ) : Bool := 0xd800 ≤ u && u ≤ 0xdfff

/-- The units of a character. -/
def encodeChar (c : Char) : List ℕ :=
  if c.toNat < 0x10000 then [c.toNat]
  else [0xd800 + (c.toNat - 0x10000) / 0x400, 0xdc00 + (c.toNat - 0x10000) % 0x400]

/-- The units of a text. -/
def encode (text : List Char) : List ℕ := text.flatMap encodeChar

/-- `String::from_utf16_lossy`. -/
def decodeLossy : List ℕ → List Char
  | [] => []
  | [u] => [if isSurrogate u then '\ufffd' else Char.ofNat u]
  | u :: v :: us =>
    if !isSurrogate u then Char.ofNat u :: decodeLossy (v :: us)
    else if u < 0xdc00 ∧ 0xdc00 ≤ v ∧ v ≤ 0xdfff then
      Char.ofNat (0x10000 + (u - 0xd800) * 0x400 + (v - 0xdc00)) :: decodeLossy us
    -- the second unit may be a character of its own
    else '\ufffd' :: decodeLossy (v :: us)

theorem decodeLossy_cons (h : isSurrogate u = false) :
    decodeLossy (u :: us) = Char.ofNat u :: decodeLossy us := by
  cases us with
  | nil => simp [decodeLossy, h]
  | cons v us => simp [decodeLossy, h]

theorem not_isSurrogate (c : Char) : isSurrogate c.toNat = false := by
  have hvalid : c.toNat < 0xd800 ∨ 0xdfff < c.toNat ∧ c.toNat < 0x110000 := c.valid
  simp only [isSurrogate, Bool.and_eq_false_iff, decide_eq_false_iff_not]
  omega

/-- **A character** is read as itself, whatever follows it. -/
theorem decodeLossy_append : decodeLossy (encodeChar c ++ us) = c :: decodeLossy us := by
  have hvalid : c.toNat < 0xd800 ∨ 0xdfff < c.toNat ∧ c.toNat < 0x110000 := c.valid
  unfold encodeChar
  split_ifs with hlow
  · rw [List.singleton_append, decodeLossy_cons (not_isSurrogate c), Char.ofNat_toNat]
  · -- the two halves, and the number they make
    have hhalf : isSurrogate (0xd800 + (c.toNat - 0x10000) / 0x400) = true := by
      simp only [isSurrogate, Bool.and_eq_true, decide_eq_true_eq]
      omega
    have hpair : 0xd800 + (c.toNat - 0x10000) / 0x400 < 0xdc00 ∧
        0xdc00 ≤ 0xdc00 + (c.toNat - 0x10000) % 0x400 ∧
        0xdc00 + (c.toNat - 0x10000) % 0x400 ≤ 0xdfff := by omega
    have hnumber : 0x10000 + (0xd800 + (c.toNat - 0x10000) / 0x400 - 0xd800) * 0x400 +
        (0xdc00 + (c.toNat - 0x10000) % 0x400 - 0xdc00) = c.toNat := by omega
    rw [List.cons_append, List.singleton_append, decodeLossy, hhalf, Bool.not_true,
      if_neg Bool.false_ne_true, if_pos hpair, hnumber, Char.ofNat_toNat]

/-- **A text is read back** from its units. -/
theorem decodeLossy_encode : decodeLossy (encode text) = text := by
  induction text with
  | nil => rfl
  | cons c text ih =>
    rw [encode, List.flatMap_cons, decodeLossy_append]
    exact congrArg (c :: ·) ih

theorem lt_of_mem_encode (h : u ∈ encode text) : u < 0x10000 := by
  obtain ⟨c, -, hu⟩ := List.mem_flatMap.mp h
  have hvalid : c.toNat < 0xd800 ∨ 0xdfff < c.toNat ∧ c.toNat < 0x110000 := c.valid
  unfold encodeChar at hu
  split_ifs at hu with hlow
  · rw [List.mem_singleton.mp hu]
    exact hlow
  · rcases List.mem_pair.mp hu with h | h <;> omega

/-! ## Bytes -/

/-- The bytes of some units, low ones first. -/
def bytesLE (us : List ℕ) : List UInt8 :=
  us.flatMap fun u => [UInt8.ofNat u, UInt8.ofNat (u / 0x100)]

/-- The units of some bytes; half a unit is left out. -/
def units : List UInt8 → List ℕ
  | a :: b :: bytes => (a.toNat + 0x100 * b.toNat) :: units bytes
  | _ => []

theorem units_short (h : tail.length < 2) : units tail = [] := by
  match tail, h with
  | [], _ => rfl
  | [_], _ => rfl

/-- **Units are read back** from their bytes, whatever follows these. -/
theorem units_bytesLE_append (h : ∀ u ∈ us, u < 0x10000) :
    units (bytesLE us ++ tail) = us ++ units tail := by
  induction us with
  | nil => rfl
  | cons u us ih =>
    have hu : u < 0x10000 := h u List.mem_cons_self
    have hunit : (UInt8.ofNat u).toNat + 0x100 * (UInt8.ofNat (u / 0x100)).toNat = u := by
      rw [UInt8.toNat_ofNat', UInt8.toNat_ofNat']
      omega
    have hrest := ih fun v hv => h v (List.mem_cons_of_mem _ hv)
    rw [bytesLE, List.flatMap_cons, List.append_assoc]
    show _ :: units (bytesLE us ++ tail) = _
    rw [hunit, hrest, List.cons_append]

/-- **A text is read back** from its bytes, and from these with a byte too
many. -/
theorem decodeLossy_units (h : tail.length < 2) :
    decodeLossy (units (bytesLE (encode text) ++ tail)) = text := by
  rw [units_bytesLE_append fun u hu => lt_of_mem_encode hu, units_short h, List.append_nil,
    decodeLossy_encode]

/-! ## The first characters -/

/-- The bytes of a text of the first 2 ^ 8 characters: each with a zero. -/
theorem bytesLE_encode_latin (h : ∀ c ∈ text, c.toNat < 0x100) :
    bytesLE (encode text) = text.flatMap fun c => [UInt8.ofNat c.toNat, 0] := by
  induction text with
  | nil => rfl
  | cons c text ih =>
    have hc : c.toNat < 0x100 := h c List.mem_cons_self
    have hrest := ih fun d hd => h d (List.mem_cons_of_mem _ hd)
    have hunits : encodeChar c = [c.toNat] := if_pos (by omega)
    have hhigh : c.toNat / 0x100 = 0 := by omega
    rw [encode, List.flatMap_cons, hunits, bytesLE, List.flatMap_append, List.flatMap_singleton,
      hhigh, List.flatMap_cons, ← hrest]
    rfl

end Utf16
