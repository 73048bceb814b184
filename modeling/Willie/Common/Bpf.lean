import Mathlib.Algebra.Group.Nat.Defs
import Mathlib.Data.Nat.Notation
/-!
# Classic BPF

The classic BPF machine, as far as programs of word loads, forward
comparisons, masks and returns need it: an accumulator, a program counter
and jumps that only go forward. `run` steps the counter as the kernel
does; `exec` follows the program as a list, dropping what a jump skips,
and is what proofs execute. The two agree, and a program of `n`
instructions is done within `n` steps (`run_eq_exec`).
-/

namespace Bpf

/-- One instruction: the code, the two jump offsets, the constant. An
offset counts from the instruction after the jump. -/
structure Insn where
  code : UInt16
  jt : UInt8
  jf : UInt8
  k : UInt32
  deriving DecidableEq, Repr

/-- `BPF_LD | BPF_W | BPF_ABS`. -/
def ldWAbs : UInt16 := 0x20

/-- `BPF_JMP | BPF_JEQ | BPF_K`. -/
def jeqK : UInt16 := 0x15

/-- `BPF_JMP | BPF_JGE | BPF_K`. -/
def jgeK : UInt16 := 0x35

/-- `BPF_ALU | BPF_AND | BPF_K`. -/
def andK : UInt16 := 0x54

/-- `BPF_RET | BPF_K`. -/
def retK : UInt16 := 0x06

/-- What one instruction does: go on past `skip` instructions, return, or
stop on a load outside the data or an unknown code. -/
inductive Outcome
  | go (skip : ℕ) (acc : UInt32)
  | ret (k : UInt32)
  | fault
  deriving DecidableEq, Repr

variable (load : UInt32 → Option UInt32)

/-- One instruction executed. -/
def Insn.exec (insn : Insn) (acc : UInt32) : Outcome :=
  if insn.code = ldWAbs then
    match load insn.k with
    | some word => .go 0 word
    | none => .fault
  else if insn.code = jeqK then .go (if acc = insn.k then insn.jt else insn.jf).toNat acc
  else if insn.code = jgeK then .go (if insn.k ≤ acc then insn.jt else insn.jf).toNat acc
  else if insn.code = andK then .go 0 (acc &&& insn.k)
  else if insn.code = retK then .ret insn.k
  else .fault

/-- The machine at `pc` for at most `fuel` steps: the value returned, or
`none` if it faulted, ran off the end or ran out of fuel. -/
def run (prog : List Insn) : ℕ → ℕ → UInt32 → Option UInt32
  | 0, _, _ => none
  | fuel + 1, pc, acc =>
    match prog[pc]? with
    | none => none
    | some insn =>
      match insn.exec load acc with
      | .go skip acc => run prog fuel (pc + 1 + skip) acc
      | .ret k => some k
      | .fault => none

/-- The program as a list, its first `skip` instructions jumped over. -/
def exec : List Insn → ℕ → UInt32 → Option UInt32
  | [], _, _ => none
  | _ :: rest, skip + 1, acc => exec rest skip acc
  | insn :: rest, 0, acc =>
    match insn.exec load acc with
    | .go skip acc => exec rest skip acc
    | .ret k => some k
    | .fault => none

/-! ## The list and the counter -/

theorem exec_drop (prog : List Insn) (skip : ℕ) (acc : UInt32) :
    exec load prog skip acc = exec load (prog.drop skip) 0 acc := by
  induction prog generalizing skip with
  | nil => simp [exec]
  | cons insn rest ih =>
    cases skip with
    | zero => rfl
    | succ skip => exact ih skip

/-- Skipping a block lands after it. -/
theorem exec_append (block tail : List Insn) (skip : ℕ) (acc : UInt32) :
    exec load (block ++ tail) (block.length + skip) acc = exec load tail skip acc := by
  rw [exec_drop, exec_drop load tail, ← List.drop_drop, List.drop_left]

/-- **A program is done within its length.** With fuel for the
instructions left, the machine at `pc` returns what the list from there
does: no path runs out of fuel. -/
theorem run_eq_exec (prog : List Insn) {fuel pc : ℕ} (acc : UInt32)
    (h : prog.length ≤ pc + fuel) : run load prog fuel pc acc = exec load prog pc acc := by
  induction fuel generalizing pc acc with
  | zero => rw [run, exec_drop, List.drop_eq_nil_of_le (by omega), exec]
  | succ fuel ih =>
    rw [exec_drop, run]
    by_cases hpc : pc < prog.length
    · rw [List.getElem?_eq_getElem hpc, List.drop_eq_getElem_cons hpc, exec]
      dsimp only
      cases (prog[pc]).exec load acc with
      | go skip acc' =>
        dsimp only
        rw [ih acc' (by omega), exec_drop, exec_drop load (prog.drop (pc + 1)), List.drop_drop]
      | ret k => rfl
      | fault => rfl
    · rw [List.getElem?_eq_none (by omega), List.drop_eq_nil_of_le (by omega), exec]

/-! ## Executing one instruction -/

variable {load} {rest tail : List Insn} {acc k word : UInt32} {jt jf : UInt8}

theorem exec_ld (h : load k = some word) :
    exec load (⟨ldWAbs, jt, jf, k⟩ :: rest) 0 acc = exec load rest 0 word := by
  simp [exec, Insn.exec, h]

theorem exec_jeq :
    exec load (⟨jeqK, jt, jf, k⟩ :: rest) 0 acc =
      exec load rest (if acc = k then jt else jf).toNat acc := by
  simp [exec, Insn.exec, jeqK, ldWAbs]

theorem exec_jge :
    exec load (⟨jgeK, jt, jf, k⟩ :: rest) 0 acc =
      exec load rest (if k ≤ acc then jt else jf).toNat acc := by
  simp [exec, Insn.exec, jgeK, jeqK, ldWAbs]

theorem exec_and :
    exec load (⟨andK, jt, jf, k⟩ :: rest) 0 acc = exec load rest 0 (acc &&& k) := by
  simp [exec, Insn.exec, andK, jgeK, jeqK, ldWAbs]

theorem exec_ret : exec load (⟨retK, jt, jf, k⟩ :: rest) 0 acc = some k := by
  simp [exec, Insn.exec, retK, andK, jgeK, jeqK, ldWAbs]

/-! ## A table of comparisons -/

/-- One comparison for each key, a hit jumping `past` instructions beyond
the table. -/
def jumpTable (past : ℕ) : List UInt32 → List Insn
  | [] => []
  | key :: keys => ⟨jeqK, UInt8.ofNat (keys.length + past), 0, key⟩ :: jumpTable past keys

@[simp] theorem length_jumpTable (past : ℕ) (keys : List UInt32) :
    (jumpTable past keys).length = keys.length := by
  induction keys with
  | nil => rfl
  | cons key keys ih => simp [jumpTable, ih]

/-- **A table decides membership.** -/
theorem exec_jumpTable {past : ℕ} {keys : List UInt32} (h : keys.length + past ≤ 256) :
    exec load (jumpTable past keys ++ tail) 0 acc =
      exec load tail (if acc ∈ keys then past else 0) acc := by
  induction keys with
  | nil => simp [jumpTable]
  | cons key keys ih =>
    rw [List.length_cons] at h
    rw [jumpTable, List.cons_append, exec_jeq]
    by_cases hkey : acc = key
    · have hoff :
          (UInt8.ofNat (keys.length + past)).toNat = (jumpTable past keys).length + past := by
        rw [UInt8.toNat_ofNat', length_jumpTable, Nat.mod_eq_of_lt (by omega)]
      rw [if_pos hkey, hoff, exec_append, if_pos (by simp [hkey])]
    · rw [if_neg hkey, UInt8.toNat_zero, ih (by omega)]
      simp [hkey]

/-! ## Little-endian data -/

/-- `v` in `n` bytes, the low byte first. -/
def leBytes : ℕ → ℕ → List UInt8
  | 0, _ => []
  | n + 1, v => UInt8.ofNat v :: leBytes n (v / 256)

/-- The value of bytes, the low byte first. -/
def leValue : List UInt8 → ℕ
  | [] => 0
  | b :: bytes => b.toNat + 256 * leValue bytes

@[simp] theorem length_leBytes (n v : ℕ) : (leBytes n v).length = n := by
  induction n generalizing v with
  | zero => rfl
  | succ n ih => simp [leBytes, ih]

/-- Writing and reading back keeps what fits. -/
theorem leValue_leBytes (n v : ℕ) : leValue (leBytes n v) = v % 256 ^ n := by
  induction n generalizing v with
  | zero => simp [leBytes, leValue, Nat.mod_one]
  | succ n ih =>
    calc leValue (leBytes (n + 1) v) = v % 256 + 256 * (v / 256 % 256 ^ n) := by
          rw [leBytes, leValue, ih, UInt8.toNat_ofNat']
      _ = v % (256 * 256 ^ n) := Nat.mod_mul.symm
      _ = v % 256 ^ (n + 1) := by rw [Nat.mul_comm, ← Nat.pow_succ]

/-- The first bytes of a value are the value in fewer bytes. -/
theorem take_leBytes {m n : ℕ} (h : m ≤ n) (v : ℕ) : (leBytes n v).take m = leBytes m v := by
  induction m generalizing n v with
  | zero => simp [leBytes]
  | succ m ih =>
    obtain ⟨n, rfl⟩ : ∃ n', n = n' + 1 := ⟨n - 1, by omega⟩
    rw [leBytes, leBytes, List.take_succ_cons, ih (by omega)]

/-- A word load from the data: `none` outside it. -/
def loadWord (data : List UInt8) (k : UInt32) : Option UInt32 :=
  if k.toNat + 4 ≤ data.length then
    some (UInt32.ofNat (leValue ((data.drop k.toNat).take 4)))
  else none

/-- A load at the start of a field of at least a word reads its low
word. -/
theorem loadWord_field {before after : List UInt8} {k : UInt32} {n v : ℕ} (hn : 4 ≤ n)
    (hk : k.toNat = before.length) :
    loadWord (before ++ (leBytes n v ++ after)) k = some (UInt32.ofNat v) := by
  have hlen : k.toNat + 4 ≤ (before ++ (leBytes n v ++ after)).length := by
    simp only [List.length_append, length_leBytes]
    omega
  rw [loadWord, if_pos hlen, hk, List.drop_left, List.take_append_of_le_length (by simpa using hn),
    take_leBytes hn, leValue_leBytes]
  congr 1
  apply UInt32.toNat_inj.mp
  rw [UInt32.toNat_ofNat', UInt32.toNat_ofNat']
  omega

end Bpf
