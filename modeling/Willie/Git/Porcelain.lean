import Willie.Common.Joined
import Willie.Common.Utf8

/-!
# Git — the status as it is printed

A change is a path of the work tree with the two letters of its status, and,
if the file was moved or copied there, with the path it came from. `git status
--porcelain=v1` prints a line for each. A path is printed as it is, unless it
has a blank, a quote, a backslash, a control character or a byte that is not
ASCII: then it is printed as a C string between quotes.
-/

namespace Willie
namespace Git

/-- What an entry of a directory is called: bytes, and no slash among them. -/
structure Name where
  bytes : List UInt8
  nonempty : bytes ≠ []
  slash : 0x2f ∉ bytes
  deriving DecidableEq

/-- The names of a path, with slashes between them. -/
def joinedNames (ns : List Name) : List UInt8 := Joined.joined 0x2f (ns.map (·.bytes))

/-- A path of the work tree, from its root. -/
structure WorkPath where
  names : List Name
  nonempty : names ≠ []
  deriving DecidableEq

def WorkPath.bytes (path : WorkPath) : List UInt8 := joinedNames path.names

/-! ## Changes -/

/-- A letter of a tracked path's status: the index, or the work tree, against
what is before it. -/
inductive Letter where
  | unmodified
  | modified
  | typeChanged
  | added
  | deleted
  | renamed
  | copied
  | unmerged
  deriving DecidableEq, Repr

def Letter.char : Letter → Char
  | .unmodified => ' '
  | .modified => 'M'
  | .typeChanged => 'T'
  | .added => 'A'
  | .deleted => 'D'
  | .renamed => 'R'
  | .copied => 'C'
  | .unmerged => 'U'

/-- The letters of a path that came from another. -/
def Letter.moves : Letter → Bool
  | .renamed | .copied => true
  | _ => false

/-- A changed path with its status. -/
inductive Change where
  | untracked (path : WorkPath)
  | changed (x y : Letter) (path : WorkPath) (differs : x ≠ .unmodified ∨ y ≠ .unmodified)
      (stays : x.moves = false ∧ y.moves = false)
  | moved (x y : Letter) (orig path : WorkPath) (moves : x.moves = true ∨ y.moves = true)

def Change.path : Change → WorkPath
  | .untracked path | .changed _ _ path .. | .moved _ _ _ path _ => path

/-- The first of two letters that says something. -/
def firstLetter (x y : Letter) : Char := if x = .unmodified then y.char else x.char

/-- What a path's status comes to: untracked, renamed, or the first letter that
says something. -/
def Change.letter : Change → Char
  | .untracked _ => '?'
  | .changed x y .. => firstLetter x y
  | .moved x y .. => if x = .renamed ∨ y = .renamed then 'R' else firstLetter x y

/-! ## Printing -/

/-- A byte that a path is printed with as it is. -/
def plainByte (b : UInt8) : Bool := 0x20 < b && b < 0x7f && b ≠ 0x22 && b ≠ 0x5c

def octal (n : ℕ) : Char := Char.ofNat (0x30 + n % 8)

/-- A byte in a C string. -/
def cEscape (b : UInt8) : List Char :=
  if b = 0x22 ∨ b = 0x5c then ['\\', Char.ofUInt8 b]
  else if 0x20 ≤ b ∧ b < 0x7f then [Char.ofUInt8 b]
  else if b = 0x07 then "\\a".toList
  else if b = 0x08 then "\\b".toList
  else if b = 0x09 then "\\t".toList
  else if b = 0x0a then "\\n".toList
  else if b = 0x0b then "\\v".toList
  else if b = 0x0c then "\\f".toList
  else if b = 0x0d then "\\r".toList
  else ['\\', octal (b.toNat / 64), octal (b.toNat / 8), octal b.toNat]

/-- A path as it is printed. -/
def quotePath (path : List UInt8) : List Char :=
  if path.all plainByte then path.map Char.ofUInt8 else '"' :: path.flatMap cEscape ++ ['"']

def arrow : List Char := " -> ".toList

/-- What stands on a line behind the letters. -/
def Change.told : Change → List Char
  | .untracked path | .changed _ _ path .. => quotePath path.bytes
  | .moved _ _ orig path _ => quotePath orig.bytes ++ arrow ++ quotePath path.bytes

def Change.xy : Change → List Char
  | .untracked _ => ['?', '?']
  | .changed x y .. | .moved x y .. => [x.char, y.char]

def Change.line (change : Change) : List Char := change.xy ++ ' ' :: change.told

/-- The status of a work tree. -/
def printStatus (changes : List Change) : List Char :=
  changes.flatMap fun change => change.line ++ ['\n']

variable {b : UInt8} {c : Char} {path : List UInt8} {change : Change} {changes : List Change}

/-! ## What a line does not have -/

theorem toNat_ofUInt8 : (Char.ofUInt8 b).toNat = b.toNat := rfl

/-- A byte of seven bits is the character it is printed as. -/
theorem encode_ofUInt8 (h : b < 0x7f) : String.utf8EncodeChar (Char.ofUInt8 b) = [b] := by
  have hlt : b.toNat < 127 := UInt8.lt_iff_toNat_lt.mp h
  have hval : (Char.ofUInt8 b).val.toNat = b.toNat := rfl
  unfold String.utf8EncodeChar
  simp only [hval]
  rw [if_pos (by omega)]
  simp

theorem octal_toNat (n : ℕ) : 0x30 ≤ (octal n).toNat ∧ (octal n).toNat < 0x38 := by
  have h : ∀ k < 8, 0x30 ≤ (Char.ofNat (0x30 + k)).toNat ∧
      (Char.ofNat (0x30 + k)).toNat < 0x38 := by decide
  exact h (n % 8) (Nat.mod_lt _ (by decide))

/-- A path is printed without control characters. -/
theorem toNat_of_mem_cEscape (h : c ∈ cEscape b) : 0x20 ≤ c.toNat := by
  unfold cEscape at h
  split_ifs at h with hquote hprint
  · rcases List.mem_pair.mp h with rfl | rfl
    · decide
    · rcases hquote with rfl | rfl <;> decide
  · rw [List.mem_singleton.mp h, toNat_ofUInt8]
    exact UInt8.le_iff_toNat_le.mp hprint.1
  all_goals
    first
    | rcases List.mem_pair.mp h with rfl | rfl <;> decide
    | skip
  -- what is left is the three octal digits
  simp only [List.mem_cons, List.not_mem_nil, or_false] at h
  rcases h with rfl | rfl | rfl | rfl
  · decide
  · exact (by decide : 0x20 ≤ 0x30).trans (octal_toNat _).1
  · exact (by decide : 0x20 ≤ 0x30).trans (octal_toNat _).1
  · exact (by decide : 0x20 ≤ 0x30).trans (octal_toNat _).1

theorem toNat_of_mem_quotePath (h : c ∈ quotePath path) : 0x20 ≤ c.toNat := by
  unfold quotePath at h
  split_ifs at h with hplain
  · obtain ⟨b, hb, rfl⟩ := List.mem_map.mp h
    have hbyte := List.all_eq_true.mp hplain b hb
    simp only [plainByte, Bool.and_eq_true, decide_eq_true_eq] at hbyte
    have hlt : 0x20 < b.toNat := UInt8.lt_iff_toNat_lt.mp hbyte.1.1.1
    rw [toNat_ofUInt8]
    omega
  · rcases List.mem_append.mp h with h | h
    · rcases List.mem_cons.mp h with rfl | h
      · decide
      · obtain ⟨b, -, hb⟩ := List.mem_flatMap.mp h
        exact toNat_of_mem_cEscape hb
    · rw [List.mem_singleton.mp h]
      decide

theorem toNat_of_mem_line (h : c ∈ change.line) : 0x20 ≤ c.toNat := by
  have hletter (l : Letter) : 0x20 ≤ l.char.toNat := by cases l <;> decide
  have harrow : ∀ c ∈ arrow, 0x20 ≤ c.toNat := by simp [arrow]
  rcases List.mem_append.mp h with h | h
  · cases change with
    | untracked path =>
      rcases List.mem_pair.mp h with rfl | rfl <;> decide
    | changed x y _ _ _ | moved x y _ _ _ =>
      rcases List.mem_pair.mp h with rfl | rfl <;> exact hletter _
  · rcases List.mem_cons.mp h with rfl | h
    · decide
    · cases change with
      | untracked path | changed x y path _ _ => exact toNat_of_mem_quotePath h
      | moved x y orig path _ =>
        rcases List.mem_append.mp h with h | h
        · rcases List.mem_append.mp h with h | h
          · exact toNat_of_mem_quotePath h
          · exact harrow c h
        · exact toNat_of_mem_quotePath h

/-- A path that is printed as it is, is its own bytes. -/
theorem encode_quotePath (h : path.all plainByte = true) : Utf8.encode (quotePath path) = path := by
  rw [quotePath, if_pos h, Utf8.encode, List.flatMap_map]
  have hbyte : ∀ b ∈ path, String.utf8EncodeChar (Char.ofUInt8 b) = [b] := by
    intro b hb
    have hplain := List.all_eq_true.mp h b hb
    simp only [plainByte, Bool.and_eq_true, decide_eq_true_eq] at hplain
    exact encode_ofUInt8 hplain.1.1.2
  rw [List.flatMap_congr hbyte]
  simp

end Git
end Willie
