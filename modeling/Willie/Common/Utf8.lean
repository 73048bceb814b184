import Mathlib.Data.Nat.Notation
import Mathlib.Data.List.Infix

/-!
# Texts and their bytes

A text is its characters, and its bytes are theirs in UTF-8. Bytes are read
back exactly (`decode`), which fails on anything that is no text, or with a
replacement character for what is none (`decodeLossy`). Either returns a text
from its own bytes.
-/

namespace Utf8

variable {bytes rest : List UInt8} {text text' : List Char} {c : Char} {fuel : ℕ}

/-- The bytes of a text. -/
def encode (text : List Char) : List UInt8 := text.flatMap String.utf8EncodeChar

@[simp] theorem encode_nil : encode [] = [] := rfl

@[simp] theorem encode_cons : encode (c :: text) = String.utf8EncodeChar c ++ encode text := rfl

@[simp] theorem encode_append : encode (text ++ text') = encode text ++ encode text' :=
  List.flatMap_append ..

/-- The character the bytes start with. -/
def first (bytes : List UInt8) : Option Char := bytes.toByteArray.utf8DecodeChar? 0

theorem first_append : first (String.utf8EncodeChar c ++ rest) = some c := by
  unfold first
  rw [List.toByteArray_append]
  exact ByteArray.utf8DecodeChar?_utf8EncodeChar_append

/-- **The bytes start with a character** if and only if they start with its
bytes. -/
theorem first_eq_some : first bytes = some c ↔ ∃ rest, bytes = String.utf8EncodeChar c ++ rest := by
  constructor
  · intro h
    obtain ⟨l, hl⟩ := ByteArray.exists_of_utf8DecodeChar?_eq_some h
    refine ⟨l.data.toList, ?_⟩
    have hdata := congrArg (fun bytes => bytes.data.toList) hl
    simpa using hdata
  · rintro ⟨rest, rfl⟩
    exact first_append

/-! ## Reading bytes -/

/-- A byte that goes on with a character. -/
def isContinuation (b : UInt8) : Bool := 0x80 ≤ b && b ≤ 0xbf

/-- `b` may come second in a character that starts with `a`. -/
def mayFollow (a b : UInt8) : Bool :=
  if a = 0xe0 then 0xa0 ≤ b && b ≤ 0xbf
  else if a = 0xed then 0x80 ≤ b && b ≤ 0x9f
  else if a = 0xf0 then 0x90 ≤ b && b ≤ 0xbf
  else if a = 0xf4 then 0x80 ≤ b && b ≤ 0x8f
  else isContinuation b

/-- How many bytes a replacement character stands for where no character
starts: as many as could have begun one, and at least one. -/
def replaced : List UInt8 → ℕ
  | a :: b :: rest =>
    if 0xe0 ≤ a ∧ a ≤ 0xf4 ∧ mayFollow a b then
      if 0xf0 ≤ a ∧ rest.head?.any isContinuation then 3 else 2
    else 1
  | _ => 1

/-- The characters of at most so many bytes. -/
def lossyUpTo : ℕ → List UInt8 → List Char
  | _, [] => []
  | 0, _ :: _ => []
  | fuel + 1, b :: bytes =>
    match first (b :: bytes) with
    | some c => c :: lossyUpTo fuel ((b :: bytes).drop c.utf8Size)
    | none => '\ufffd' :: lossyUpTo fuel ((b :: bytes).drop (replaced (b :: bytes)))

/-- `String::from_utf8_lossy`. -/
def decodeLossy (bytes : List UInt8) : List Char := lossyUpTo bytes.length bytes

/-- `String::from_utf8`: bytes that are a text's are that text. -/
def decode (bytes : List UInt8) : Option (List Char) :=
  if encode (decodeLossy bytes) = bytes then some (decodeLossy bytes) else none

theorem replaced_pos (bytes : List UInt8) : 0 < replaced bytes := by
  unfold replaced
  split
  · split_ifs <;> decide
  · decide

/-- Every step reads a byte, so no more than there are bytes are needed. -/
theorem lossyUpTo_eq {fuel' : ℕ} (h : bytes.length ≤ fuel) (h' : bytes.length ≤ fuel') :
    lossyUpTo fuel bytes = lossyUpTo fuel' bytes := by
  induction fuel generalizing bytes fuel' with
  | zero =>
    rw [List.length_eq_zero_iff.mp (Nat.le_zero.mp h)]
    cases fuel' <;> rfl
  | succ fuel ih =>
    cases bytes with
    | nil => cases fuel' <;> rfl
    | cons b bytes =>
      obtain ⟨fuel', rfl⟩ : ∃ k, fuel' = k + 1 := ⟨fuel' - 1, by simp at h'; omega⟩
      have hdrop (n : ℕ) (hn : 0 < n) : ((b :: bytes).drop n).length ≤ bytes.length := by
        rw [List.length_drop, List.length_cons]
        omega
      simp only [List.length_cons, Nat.add_le_add_iff_right] at h h'
      rw [lossyUpTo, lossyUpTo]
      cases first (b :: bytes) with
      | some c =>
        have hlen := hdrop _ c.utf8Size_pos
        exact congrArg (c :: ·) (ih (by omega) (by omega))
      | none =>
        have hlen := hdrop _ (replaced_pos (b :: bytes))
        exact congrArg ('\ufffd' :: ·) (ih (by omega) (by omega))

/-- **A character** is read as itself, whatever follows it. -/
@[simp] theorem decodeLossy_append :
    decodeLossy (String.utf8EncodeChar c ++ rest) = c :: decodeLossy rest := by
  have hfirst : first (String.utf8EncodeChar c ++ rest) = some c := first_append
  have hdrop : (String.utf8EncodeChar c ++ rest).drop c.utf8Size = rest := by
    rw [← String.length_utf8EncodeChar, List.drop_left]
  have hpos : 0 < (String.utf8EncodeChar c).length := by
    rw [String.length_utf8EncodeChar]
    exact c.utf8Size_pos
  obtain ⟨b, tail, hcons⟩ := List.exists_cons_of_length_pos hpos
  have hlen : (b :: (tail ++ rest)).length = (tail ++ rest).length + 1 := List.length_cons
  rw [hcons, List.cons_append] at hfirst hdrop ⊢
  rw [decodeLossy, hlen, lossyUpTo, hfirst]
  refine congrArg (c :: ·) ?_
  rw [hdrop]
  exact lossyUpTo_eq (by rw [List.length_append]; omega) (Nat.le_refl _)

/-- **What is no character** costs one replacement character. -/
theorem decodeLossy_of_first (hne : bytes ≠ []) (h : first bytes = none) :
    decodeLossy bytes = '\ufffd' :: decodeLossy (bytes.drop (replaced bytes)) := by
  cases bytes with
  | nil => exact absurd rfl hne
  | cons b bytes =>
    have hlen : ((b :: bytes).drop (replaced (b :: bytes))).length ≤ bytes.length := by
      have hpos := replaced_pos (b :: bytes)
      rw [List.length_drop, List.length_cons]
      omega
    rw [decodeLossy, List.length_cons, lossyUpTo, h]
    exact congrArg ('\ufffd' :: ·) (lossyUpTo_eq hlen (Nat.le_refl _))

@[simp] theorem decodeLossy_nil : decodeLossy [] = [] := rfl

@[simp] theorem decodeLossy_encode_append :
    decodeLossy (encode text ++ rest) = text ++ decodeLossy rest := by
  induction text with
  | nil => rfl
  | cons c text ih => rw [encode_cons, List.append_assoc, decodeLossy_append, ih, List.cons_append]

/-- **A text is read back** from its bytes. -/
@[simp] theorem decodeLossy_encode : decodeLossy (encode text) = text := by
  have h : decodeLossy (encode text ++ []) = text ++ decodeLossy [] := decodeLossy_encode_append
  rwa [List.append_nil, decodeLossy_nil, List.append_nil] at h

theorem decode_eq_some : decode bytes = some text ↔ bytes = encode text := by
  unfold decode
  constructor
  · intro h
    split_ifs at h with henc
    rw [← Option.some.inj h, henc]
  · rintro rfl
    rw [decodeLossy_encode, if_pos rfl]

@[simp] theorem decode_encode : decode (encode text) = some text := decode_eq_some.mpr rfl

/-- **What is read without a replacement** was a text. -/
theorem encode_decodeLossy (h : '\ufffd' ∉ decodeLossy bytes) :
    encode (decodeLossy bytes) = bytes := by
  induction hn : bytes.length using Nat.strong_induction_on generalizing bytes with
  | _ n ih =>
    cases hc : first bytes with
    | some c =>
      obtain ⟨rest, rfl⟩ := first_eq_some.mp hc
      have hpos : 0 < (String.utf8EncodeChar c).length := by
        rw [String.length_utf8EncodeChar]
        exact c.utf8Size_pos
      rw [decodeLossy_append] at h ⊢
      rw [encode_cons, ih rest.length (by rw [← hn, List.length_append]; omega)
        (fun hmem => h (List.mem_cons_of_mem _ hmem)) rfl]
    | none =>
      by_cases hne : bytes = []
      · rw [hne]
        rfl
      · -- the first byte was replaced
        rw [decodeLossy_of_first hne hc] at h
        exact absurd List.mem_cons_self h

/-- Bytes of seven bits stand for themselves. -/
theorem encode_decodeLossy_of_lt (h : ∀ b ∈ encode (decodeLossy bytes), b < 0x80) :
    encode (decodeLossy bytes) = bytes := by
  refine encode_decodeLossy fun hmem => ?_
  have hbyte : (0xef : UInt8) ∈ encode (decodeLossy bytes) :=
    List.mem_flatMap.mpr ⟨_, hmem, by decide⟩
  exact absurd (h _ hbyte) (by decide)

theorem encode_injective : Function.Injective encode := by
  intro text text' h
  have hread := congrArg decodeLossy h
  rwa [decodeLossy_encode, decodeLossy_encode] at hread

@[simp] theorem encode_eq_nil : encode text = [] ↔ text = [] := encode_injective.eq_iff' rfl

theorem decode_encode_append :
    decode (encode text ++ rest) = (decode rest).map (text ++ ·) := by
  ext whole
  rw [decode_eq_some, Option.map_eq_some_iff]
  constructor
  · intro h
    refine ⟨decodeLossy rest, ?_, ?_⟩
    · have hwhole := congrArg decodeLossy h
      rw [decodeLossy_encode_append, decodeLossy_encode] at hwhole
      rw [← hwhole, encode_append, List.append_cancel_left_eq] at h
      exact decode_eq_some.mpr h
    · have hwhole := congrArg decodeLossy h
      rwa [decodeLossy_encode_append, decodeLossy_encode] at hwhole
  · rintro ⟨tail, htail, rfl⟩
    rw [decode_eq_some.mp htail, encode_append]

/-- The bytes of a text lead another's exactly if the text does. -/
theorem prefix_of_encode_prefix (h : encode text <+: encode text') : text <+: text' := by
  obtain ⟨rest, hrest⟩ := h
  have hwhole := congrArg decodeLossy hrest
  rw [decodeLossy_encode_append, decodeLossy_encode] at hwhole
  exact ⟨_, hwhole⟩

/-! ## Cut inside a character -/

/-- A character goes on with bytes that are no character of their own. -/
theorem continues_of_mem {b : UInt8} (h : b ∈ (String.utf8EncodeChar c).tail) : 0x80 ≤ b := by
  have hbyte (n : ℕ) : 0x80 ≤ UInt8.ofNat (n % 0x40 + 0x80) := by
    rw [UInt8.le_iff_toNat_le, UInt8.toNat_ofNat']
    show 128 ≤ (n % 0x40 + 0x80) % 2 ^ 8
    omega
  unfold String.utf8EncodeChar at h
  simp only at h
  split_ifs at h
  · simp at h
  · simp only [List.tail_cons, List.mem_cons, List.not_mem_nil, or_false] at h
    exact h ▸ hbyte _
  · simp only [List.tail_cons, List.mem_cons, List.not_mem_nil, or_false] at h
    rcases h with rfl | rfl <;> exact hbyte _
  · simp only [List.tail_cons, List.mem_cons, List.not_mem_nil, or_false] at h
    rcases h with rfl | rfl | rfl <;> exact hbyte _

/-- A byte of seven bits is a character of its own. -/
theorem char_of_mem {b : UInt8} (hb : b < 0x80) (h : b ∈ String.utf8EncodeChar c) :
    String.utf8EncodeChar c = [b] := by
  have hlow (n : ℕ) (k : UInt8) (hk : 0xc0 ≤ k) (hn : k.toNat + n < 256) :
      b ≠ UInt8.ofNat (n + k.toNat) := by
    rintro rfl
    rw [UInt8.lt_iff_toNat_lt, UInt8.toNat_ofNat'] at hb
    rw [UInt8.le_iff_toNat_le] at hk
    have hk' : (192 : ℕ) ≤ k.toNat := hk
    have hb' : (n + k.toNat) % 2 ^ 8 < 128 := hb
    omega
  have htail : b ∉ (String.utf8EncodeChar c).tail := fun hmem =>
    absurd (continues_of_mem hmem) (UInt8.not_le.mpr hb)
  unfold String.utf8EncodeChar at h htail ⊢
  simp only at h htail ⊢
  split_ifs at h htail ⊢
  · rw [List.mem_singleton] at h
    rw [h]
  · rcases List.mem_cons.mp h with heq | hmem
    · exact absurd heq (hlow (c.val.toNat / 64 % 32) 0xc0 (by decide) (by
        show 192 + _ < 256; omega))
    · exact absurd hmem htail
  · rcases List.mem_cons.mp h with heq | hmem
    · exact absurd heq (hlow (c.val.toNat / 4096 % 16) 0xe0 (by decide) (by
        show 224 + _ < 256; omega))
    · exact absurd hmem htail
  · rcases List.mem_cons.mp h with heq | hmem
    · exact absurd heq (hlow (c.val.toNat / 262144 % 8) 0xf0 (by decide) (by
        show 240 + _ < 256; omega))
    · exact absurd hmem htail

/-- A text has no such byte but its own characters'. -/
theorem notMem_encode {b : UInt8} (hb : b < 0x80) (hc : String.utf8EncodeChar c = [b])
    (h : c ∉ text) : b ∉ encode text := by
  intro hmem
  obtain ⟨d, hd, hmem⟩ := List.mem_flatMap.mp hmem
  have hsame : encode [d] = encode [c] := by
    simp only [encode_cons, encode_nil, List.append_nil]
    rw [char_of_mem hb hmem, hc]
  exact h (List.head_eq_of_cons_eq (encode_injective hsame) ▸ hd)

/-- No byte of a text has its first five bits set. -/
theorem lt_of_mem_encode {b : UInt8} (h : b ∈ encode text) : b < 0xf8 := by
  obtain ⟨c, -, h⟩ := List.mem_flatMap.mp h
  have hbyte (n : ℕ) (hn : n < 0xf8) : UInt8.ofNat n < 0xf8 := by
    rw [UInt8.lt_iff_toNat_lt, UInt8.toNat_ofNat']
    show n % 2 ^ 8 < 248
    omega
  unfold String.utf8EncodeChar at h
  simp only at h
  split_ifs at h with hone htwo hthree
  · rw [List.mem_singleton.mp h]
    exact hbyte _ (by omega)
  all_goals
    simp only [List.mem_cons, List.not_mem_nil, or_false] at h
    rcases h with rfl | rfl | rfl | rfl
  all_goals exact hbyte _ (by omega)

/-- A byte that is a whole character has seven bits. -/
theorem lt_of_encodeChar_eq {b : UInt8} (h : String.utf8EncodeChar c = [b]) : b < 0x80 := by
  unfold String.utf8EncodeChar at h
  simp only at h
  split_ifs at h with hone
  · obtain rfl := List.head_eq_of_cons_eq h
    rw [UInt8.lt_iff_toNat_lt, UInt8.toNat_ofNat']
    show c.val.toNat % 2 ^ 8 < 128
    omega
  all_goals simp at h

/-- What is no character of its own is replaced. -/
theorem decodeLossy_singleton {b : UInt8} (hb : 0x80 ≤ b) : decodeLossy [b] = ['\ufffd'] := by
  have hfirst : first [b] = none := by
    cases hf : first [b] with
    | none => rfl
    | some d =>
      obtain ⟨rest, hrest⟩ := first_eq_some.mp hf
      have hlen := congrArg List.length hrest
      rw [List.length_append, String.length_utf8EncodeChar, List.length_singleton] at hlen
      have hpos := d.utf8Size_pos
      obtain rfl : rest = [] := List.length_eq_zero_iff.mp (by omega)
      rw [List.append_nil] at hrest
      exact absurd (lt_of_encodeChar_eq hrest.symm) (UInt8.not_lt.mpr hb)
  rw [decodeLossy_of_first (List.cons_ne_nil b []) hfirst]
  rfl

/-- **A text splits** at a byte of seven bits. -/
theorem encode_eq_append_cons {b : UInt8} {pre : List UInt8} (hb : b < 0x80)
    (hc : String.utf8EncodeChar c = [b]) (h : encode text = pre ++ b :: rest) :
    ∃ before after, text = before ++ c :: after ∧ pre = encode before ∧ rest = encode after := by
  induction text generalizing pre with
  | nil => simp at h
  | cons d text ih =>
    rw [encode_cons] at h
    rcases List.append_eq_append_iff.mp h with ⟨pre', rfl, htext⟩ | ⟨mid, hd, htext⟩
    · obtain ⟨before, after, rfl, rfl, rfl⟩ := ih htext
      exact ⟨d :: before, after, rfl, rfl, rfl⟩
    · cases mid with
      | nil =>
        -- the byte starts what follows the character
        rw [List.append_nil] at hd
        have hhead : encode text = [] ++ b :: rest := htext.symm
        obtain ⟨before, after, rfl, hnil, rfl⟩ := ih hhead
        rw [← hd]
        refine ⟨d :: before, after, rfl, ?_, rfl⟩
        rw [encode_cons, ← hnil, List.append_nil]
      | cons b' mid =>
        obtain ⟨rfl, hrest⟩ := List.cons.inj htext
        have hone := char_of_mem hb (c := d) (by rw [hd]; simp)
        rw [hone] at hd
        have hpre : pre = [] := by
          cases pre with
          | nil => rfl
          | cons p pre =>
            have hlen := congrArg List.length hd
            simp only [List.length_append, List.length_cons, List.length_nil] at hlen
            omega
        subst hpre
        obtain ⟨-, rfl⟩ := List.cons.inj hd
        have hdc : encode [d] = encode [c] := by simp [hone, hc]
        obtain ⟨rfl, -⟩ := List.cons.inj (encode_injective hdc)
        exact ⟨[], text, rfl, rfl, hrest⟩

/-- **What follows a byte of seven bits** is read on its own. -/
theorem decode_append_cons {b : UInt8} {pre : List UInt8} (hb : b < 0x80)
    (hc : String.utf8EncodeChar c = [b]) :
    decode (pre ++ b :: rest) =
      (decode pre).bind fun before => (decode rest).map fun after => before ++ c :: after := by
  ext whole
  rw [decode_eq_some, Option.bind_eq_some_iff]
  constructor
  · intro h
    obtain ⟨before, after, rfl, rfl, rfl⟩ := encode_eq_append_cons hb hc h.symm
    exact ⟨before, decode_encode, by rw [decode_encode]; rfl⟩
  · rintro ⟨before, hbefore, h⟩
    obtain ⟨after, hafter, rfl⟩ := Option.map_eq_some_iff.mp h
    rw [decode_eq_some.mp hbefore, decode_eq_some.mp hafter, encode_append, encode_cons, hc]
    rfl

/-- No character starts where one of seven bits cuts the bytes short. -/
theorem first_append_cons {b : UInt8} {pre : List UInt8} (hb : b < 0x80) (hne : pre ≠ [])
    (h : first pre = none) : first (pre ++ b :: rest) = none := by
  rw [Option.eq_none_iff_forall_ne_some]
  intro c hc
  obtain ⟨tail, htail⟩ := first_eq_some.mp hc
  rcases List.append_eq_append_iff.mp htail with ⟨mid, hmid, -⟩ | ⟨mid, hmid, -⟩
  · -- the character goes past the cut, or ends there
    cases mid with
    | nil =>
      rw [List.append_nil] at hmid
      rw [first_eq_some.mpr ⟨[], by rw [List.append_nil, hmid]⟩] at h
      cases h
    | cons b' mid =>
      obtain ⟨p, pre, rfl⟩ := List.exists_cons_of_ne_nil hne
      have hcut : b' = b := by
        rw [hmid, List.append_assoc, List.append_cancel_left_eq, List.cons_append] at htail
        exact (List.cons.inj htail).1.symm
      have hmem : b ∈ (String.utf8EncodeChar c).tail := by
        rw [hmid, hcut, List.cons_append, List.tail_cons]
        simp
      exact absurd (continues_of_mem hmem) (UInt8.not_le.mpr hb)
  · rw [first_eq_some.mpr ⟨mid, hmid⟩] at h
    cases h

theorem le_of_mayFollow {a b : UInt8} (h : mayFollow a b = true) : 0x80 ≤ b := by
  have hcont (h : isContinuation b = true) : 0x80 ≤ b := by
    simp only [isContinuation, Bool.and_eq_true, decide_eq_true_eq] at h
    exact h.1
  unfold mayFollow at h
  split_ifs at h
  · simp only [Bool.and_eq_true, decide_eq_true_eq] at h
    exact UInt8.le_trans (by decide) h.1
  · simp only [Bool.and_eq_true, decide_eq_true_eq] at h
    exact h.1
  · simp only [Bool.and_eq_true, decide_eq_true_eq] at h
    exact UInt8.le_trans (by decide) h.1
  · simp only [Bool.and_eq_true, decide_eq_true_eq] at h
    exact h.1
  · exact hcont h

/-- What is replaced ends before a byte of seven bits. -/
theorem replaced_append_cons {b : UInt8} {pre : List UInt8} (rest : List UInt8) (hb : b < 0x80)
    (hne : pre ≠ []) :
    replaced (pre ++ b :: rest) = replaced pre ∧ replaced pre ≤ pre.length := by
  have hnot {a : UInt8} : mayFollow a b = false := by
    rw [← Bool.not_eq_true]
    exact fun h => absurd (le_of_mayFollow h) (UInt8.not_le.mpr hb)
  have hcont : isContinuation b = false := by
    have hlow : ¬ (0x80 : UInt8) ≤ b := UInt8.not_le.mpr hb
    simp [isContinuation, hlow]
  match pre, hne with
  | [p], _ =>
    simp only [List.cons_append, List.nil_append, replaced, hnot]
    simp
  | [p, q], _ =>
    simp only [List.cons_append, List.nil_append, replaced, List.head?_cons, Option.any_some,
      hcont, List.head?_nil, Option.any_none, List.length_cons, List.length_nil,
      Bool.false_eq_true, and_false, if_false]
    split_ifs <;> simp
  | p :: q :: r :: pre, _ =>
    refine ⟨rfl, ?_⟩
    have hthree : replaced (p :: q :: r :: pre) ≤ 3 := by
      simp only [replaced]
      split_ifs <;> decide
    simp only [List.length_cons]
    omega

/-- **A byte of seven bits** is read as itself, between what is before it and
what is behind it. -/
theorem decodeLossy_append_cons {b : UInt8} {pre : List UInt8} (hb : b < 0x80)
    (hc : String.utf8EncodeChar c = [b]) :
    decodeLossy (pre ++ b :: rest) = decodeLossy pre ++ c :: decodeLossy rest := by
  induction hn : pre.length using Nat.strong_induction_on generalizing pre with
  | _ n ih =>
    by_cases hne : pre = []
    · have happend : decodeLossy (String.utf8EncodeChar c ++ rest) = c :: decodeLossy rest :=
        decodeLossy_append
      rw [hc] at happend
      rw [hne]
      exact happend
    · cases hfirst : first pre with
      | some d =>
        obtain ⟨tail, rfl⟩ := first_eq_some.mp hfirst
        have hpos : 0 < (String.utf8EncodeChar d).length := by
          rw [String.length_utf8EncodeChar]
          exact d.utf8Size_pos
        rw [List.append_assoc, decodeLossy_append, decodeLossy_append,
          ih tail.length (by rw [← hn, List.length_append]; omega) rfl]
        rfl
      | none =>
        obtain ⟨hreplaced, hle⟩ := replaced_append_cons rest hb hne
        have hpos := replaced_pos pre
        rw [decodeLossy_of_first (by simp) (first_append_cons hb hne hfirst), hreplaced,
          List.drop_append_of_le_length hle, decodeLossy_of_first hne hfirst,
          ih _ (by rw [← hn, List.length_drop]; omega) rfl]
        rfl

/-- **A character cut short** is no text, and none with a text behind it that
starts with a character of one byte. -/
theorem decode_char_cut {cut tail : List UInt8} (hcut : cut ++ tail = String.utf8EncodeChar c)
    (hne : cut ≠ []) (htail : tail ≠ []) (hnext : ∀ b ∈ bytes.head?, b < 0x80) :
    decode (cut ++ bytes) = none := by
  rw [Option.eq_none_iff_forall_ne_some]
  intro whole hwhole
  rw [decode_eq_some] at hwhole
  cases whole with
  | nil => exact hne (List.append_eq_nil_iff.mp hwhole).1
  | cons d whole =>
    rw [encode_cons] at hwhole
    rcases List.append_eq_append_iff.mp hwhole with ⟨more, hd, hbytes⟩ | ⟨more, hd, -⟩
    · -- the character read goes on into what follows, which starts another
      cases more with
      | nil =>
        have hsame : first (String.utf8EncodeChar d ++ tail) = some c := by
          rw [hd, List.append_nil, hcut]
          exact first_eq_some.mpr ⟨[], (List.append_nil _).symm⟩
        rw [first_append] at hsame
        obtain rfl := Option.some.inj hsame
        rw [hd, List.append_nil] at hcut
        exact htail (List.append_right_eq_self.mp hcut)
      | cons b more =>
        have hb : b < 0x80 := hnext b (by rw [hbytes]; rfl)
        have hmem : b ∈ (String.utf8EncodeChar d).tail := by
          rw [hd, List.tail_append_of_ne_nil hne]
          exact List.mem_append_right _ List.mem_cons_self
        exact absurd (continues_of_mem hmem) (UInt8.not_le.mpr hb)
    · -- the character read is shorter than the one that was cut
      have hsame : first (String.utf8EncodeChar d ++ (more ++ tail)) = some c := by
        rw [← List.append_assoc, ← hd, hcut]
        exact first_eq_some.mpr ⟨[], (List.append_nil _).symm⟩
      rw [first_append] at hsame
      obtain rfl := Option.some.inj hsame
      rw [hd, List.append_assoc] at hcut
      have hnil := List.append_right_eq_self.mp hcut
      exact htail (List.append_eq_nil_iff.mp hnil).2

/-- **A text cut inside a character** makes no text of what is written behind
it. -/
theorem decode_cut {cut : List UInt8} (hcut : cut <+: encode text) (hnone : decode cut = none)
    (hnext : ∀ b ∈ bytes.head?, b < 0x80) : decode (cut ++ bytes) = none := by
  induction text generalizing cut with
  | nil =>
    rw [encode_nil, List.prefix_nil] at hcut
    rw [hcut] at hnone
    contradiction
  | cons c text ih =>
    obtain ⟨rest, hrest⟩ := hcut
    rw [encode_cons] at hrest
    rcases List.append_eq_append_iff.mp hrest with ⟨tail, hchar, -⟩ | ⟨cut', rfl, hcut'⟩
    · have hne : cut ≠ [] := by
        rintro rfl
        contradiction
      by_cases htail : tail = []
      · -- the whole character
        rw [htail, List.append_nil] at hchar
        have hdecode : decode (encode [c]) = some [c] := decode_encode
        rw [encode_cons, encode_nil, List.append_nil, hchar, hnone] at hdecode
        contradiction
      · exact decode_char_cut hchar.symm hne htail hnext
    · have hchar : String.utf8EncodeChar c = encode [c] := by simp
      rw [hchar] at hnone ⊢
      rw [decode_encode_append, Option.map_eq_none_iff] at hnone
      rw [List.append_assoc, decode_encode_append, ih ⟨rest, hcut'.symm⟩ hnone]
      rfl

end Utf8
