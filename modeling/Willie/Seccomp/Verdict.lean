import Mathlib.Tactic.Ring
import Willie.Seccomp.Program
/-!
# The verdict on a call

The policy the filter stands for, stated over the call and not over the
program, and the proof that running the program on the kernel's
`seccomp_data` gives it: the program returns within its own length, on
every architecture word, number and arguments.
-/

namespace Willie

namespace Seccomp

open Bpf

/-- `seccomp_data`: the call the kernel hands to the filter. -/
structure Call where
  nr : UInt32
  arch : UInt32
  instructionPointer : UInt64
  args : Fin 6 → UInt64

/-- The data as the kernel lays it out: `nr` and `arch` as words, the
instruction pointer, then the arguments, all little-endian. -/
def Call.bytes (call : Call) : List UInt8 :=
  leBytes 4 call.nr.toNat ++ (leBytes 4 call.arch.toNat ++
    (leBytes 8 call.instructionPointer.toNat ++
      (List.ofFn call.args).flatMap fun arg => leBytes 8 arg.toNat))

/-- The low 32-bit word of an argument. -/
def Call.low (call : Call) (i : Fin 6) : UInt32 := UInt32.ofNat (call.args i).toNat

/-! ## The policy -/

/-- The verdicts. -/
inductive Verdict
  | allow
  | notify
  | kill
  deriving DecidableEq, Repr

/-- The action word of a verdict. -/
def Verdict.word : Verdict → UInt32
  | .allow => seccompRetAllow
  | .notify => seccompRetUserNotif
  | .kill => seccompRetKillProcess

theorem Verdict.word_injective : Function.Injective Verdict.word := by
  intro v w h
  cases v <;> cases w <;> first | rfl | exact absurd h (by decide)

/-- A call not made through the native ABI: another architecture's, or
one whose number lies in the x32 range, from the x32 bit up. That range has
no upper end: a number from `2 ^ 31` is in it with the bit clear too. -/
def Call.foreign (call : Call) : Prop :=
  call.arch ≠ auditArchX8664 ∨ x32SyscallBit ≤ call.nr

/-- A socket no session opens: a packet socket, a netlink socket for
another protocol than route, and of any other family a raw one or one of
the obsolete packet type. -/
def Call.refusedSocket (call : Call) : Prop :=
  call.low 0 = afPacket ∨
    (call.low 0 = afNetlink ∧ call.low 2 ≠ netlinkRoute) ∨
      (call.low 0 ≠ afNetlink ∧
        (call.low 1 &&& sockTypeMask = sockRaw ∨ call.low 1 &&& sockTypeMask = sockPacket))

/-- A call refused by its arguments. -/
def Call.refusedByArgs (call : Call) : Prop :=
  (call.nr = sysIoctl ∧ call.low 1 = tiocsti) ∨
    (call.nr = sysPrctl ∧ call.low 0 = prSetSeccomp) ∨
      (call.nr = sysSocket ∧ call.refusedSocket)

/-- A call a session has no business making. -/
def Call.refused (call : Call) : Prop := call.nr ∈ deniedNumbers ∨ call.refusedByArgs

instance (call : Call) : Decidable call.foreign :=
  inferInstanceAs (Decidable (_ ∨ _))

instance (call : Call) : Decidable call.refusedSocket :=
  inferInstanceAs (Decidable (_ ∨ _))

instance (call : Call) : Decidable call.refusedByArgs :=
  inferInstanceAs (Decidable (_ ∨ _))

instance (call : Call) : Decidable call.refused :=
  inferInstanceAs (Decidable (_ ∨ _))

/-- The verdict on a call. -/
def Call.verdict (call : Call) : Verdict :=
  if call.foreign then .kill else if call.refused then .notify else .allow

/-! ## What the program loads -/

theorem Call.load_nr (call : Call) : loadWord call.bytes dataNr = some call.nr := by
  rw [Call.bytes, ← List.nil_append (leBytes 4 call.nr.toNat ++ _),
    loadWord_field (Nat.le_refl 4) rfl, UInt32.ofNat_toNat]

theorem Call.load_arch (call : Call) : loadWord call.bytes dataArch = some call.arch := by
  rw [Call.bytes, loadWord_field (Nat.le_refl 4) (by rw [length_leBytes]; rfl), UInt32.ofNat_toNat]

/-- Where the arguments start. -/
theorem Call.bytes_args (call : Call) :
    call.bytes = (leBytes 4 call.nr.toNat ++ leBytes 4 call.arch.toNat ++
      leBytes 8 call.instructionPointer.toNat) ++
        ((List.ofFn call.args).flatMap fun arg => leBytes 8 arg.toNat) := by
  rw [Call.bytes, List.append_assoc, List.append_assoc]

theorem length_flatMap_leBytes (n : ℕ) (args : List UInt64) :
    (args.flatMap fun arg => leBytes n arg.toNat).length = n * args.length := by
  induction args with
  | nil => rfl
  | cons arg args ih =>
    rw [List.flatMap_cons, List.length_append, length_leBytes, ih, List.length_cons]
    ring

/-- A load at an argument reads its low word. -/
theorem Call.load_arg (call : Call) (i : Fin 6) {k : UInt32} (hk : k.toNat = 16 + 8 * i) :
    loadWord call.bytes k = some (call.low i) := by
  have hlt : i.val < (List.ofFn call.args).length := by simp
  have hsplit : List.ofFn call.args =
      (List.ofFn call.args).take i ++ (call.args i :: (List.ofFn call.args).drop (i + 1)) := by
    conv_lhs => rw [← List.take_append_drop i.val (List.ofFn call.args)]
    rw [List.drop_eq_getElem_cons hlt, List.getElem_ofFn]
  rw [Call.bytes_args, hsplit, List.flatMap_append, List.flatMap_cons, ← List.append_assoc,
    loadWord_field (by decide)]
  · rfl
  · simp only [List.length_append, length_leBytes, length_flatMap_leBytes, List.length_take]
    omega

/-! ## Running the program -/

variable (call : Call)

/-- The blocks of the tail jump to one of its last three instructions. -/
theorem exec_tail_allow (acc : UInt32) :
    exec (loadWord call.bytes) tail 17 acc = some seccompRetAllow := by
  rw [exec_drop]
  exact exec_ret

theorem exec_tail_default (acc : UInt32) :
    exec (loadWord call.bytes) tail 3 acc = some seccompRetAllow := by
  rw [exec_drop]
  exact exec_ret

theorem exec_tail_notify (acc : UInt32) :
    exec (loadWord call.bytes) tail 18 acc = some seccompRetUserNotif := by
  rw [exec_drop]
  exact exec_ret

theorem exec_tail_kill (acc : UInt32) :
    exec (loadWord call.bytes) tail 19 acc = some seccompRetKillProcess := by
  rw [exec_drop]
  exact exec_ret

/-- A comparison that picks between two places of the tail. -/
theorem exec_tail_jeq {pos : ℕ} {k acc : UInt32} {jt jf : UInt8}
    (h : tail[pos]? = some (jump jeqK jt jf k)) :
    exec (loadWord call.bytes) tail pos acc =
      exec (loadWord call.bytes) tail (pos + 1 + (if acc = k then jt else jf).toNat) acc := by
  obtain ⟨hpos, hget⟩ := List.getElem?_eq_some_iff.mp h
  rw [exec_drop, List.drop_eq_getElem_cons hpos, hget, jump, exec_jeq, exec_drop,
    exec_drop _ tail, List.drop_drop]

theorem exec_tail_ld {pos : ℕ} {k acc word : UInt32} (h : tail[pos]? = some (stmt ldWAbs k))
    (hload : loadWord call.bytes k = some word) :
    exec (loadWord call.bytes) tail pos acc = exec (loadWord call.bytes) tail (pos + 1) word := by
  obtain ⟨hpos, hget⟩ := List.getElem?_eq_some_iff.mp h
  rw [exec_drop, List.drop_eq_getElem_cons hpos, hget, stmt, exec_ld hload, exec_drop _ tail]

/-- The `ioctl` block. -/
theorem exec_ioctl (acc : UInt32) :
    exec (loadWord call.bytes) tail 4 acc =
      some (if call.low 1 = tiocsti then seccompRetUserNotif else seccompRetAllow) := by
  rw [exec_tail_ld call rfl (call.load_arg 1 rfl), exec_tail_jeq call rfl]
  split_ifs
  · exact exec_tail_notify call _
  · exact exec_tail_allow call _

/-- The `prctl` block. -/
theorem exec_prctl (acc : UInt32) :
    exec (loadWord call.bytes) tail 15 acc =
      some (if call.low 0 = prSetSeccomp then seccompRetUserNotif else seccompRetAllow) := by
  rw [exec_tail_ld call rfl (call.load_arg 0 rfl), exec_tail_jeq call rfl]
  split_ifs
  · exact exec_tail_notify call _
  · exact exec_tail_allow call _

/-- The type check of the `socket` block. -/
theorem exec_socketType (acc : UInt32) :
    exec (loadWord call.bytes) tail 11 acc =
      some (if call.low 1 &&& sockTypeMask = sockRaw ∨ call.low 1 &&& sockTypeMask = sockPacket
        then seccompRetUserNotif else seccompRetAllow) := by
  rw [exec_tail_ld call rfl (call.load_arg 1 rfl)]
  have hand : exec (loadWord call.bytes) tail 12 (call.low 1) =
      exec (loadWord call.bytes) tail 13 (call.low 1 &&& sockTypeMask) := exec_and
  rw [hand, exec_tail_jeq call rfl]
  by_cases hraw : call.low 1 &&& sockTypeMask = sockRaw
  · rw [if_pos hraw, if_pos (Or.inl hraw)]
    exact exec_tail_notify call _
  rw [if_neg hraw]
  refine (exec_tail_jeq call (k := sockPacket) rfl).trans ?_
  by_cases hpacket : call.low 1 &&& sockTypeMask = sockPacket
  · rw [if_pos hpacket, if_pos (Or.inr hpacket)]
    exact exec_tail_notify call _
  · rw [if_neg hpacket, if_neg (by simp [hraw, hpacket])]
    exact exec_tail_allow call _

/-- The `socket` block. -/
theorem exec_socket (acc : UInt32) :
    exec (loadWord call.bytes) tail 6 acc =
      some (if call.refusedSocket then seccompRetUserNotif else seccompRetAllow) := by
  rw [exec_tail_ld call rfl (call.load_arg 0 rfl), exec_tail_jeq call rfl]
  by_cases hpacket : call.low 0 = afPacket
  · have hrefused : call.refusedSocket := Or.inl hpacket
    rw [if_pos hpacket, if_pos hrefused]
    exact exec_tail_notify call _
  rw [if_neg hpacket]
  refine (exec_tail_jeq call (k := afNetlink) rfl).trans ?_
  by_cases hnetlink : call.low 0 = afNetlink
  · rw [if_pos hnetlink]
    refine (exec_tail_ld call rfl (call.load_arg 2 rfl)).trans ?_
    rw [exec_tail_jeq call rfl]
    by_cases hroute : call.low 2 = netlinkRoute
    · have hok : ¬ call.refusedSocket := by
        rintro (h | ⟨-, h⟩ | ⟨h, -⟩)
        · exact hpacket h
        · exact h hroute
        · exact h hnetlink
      rw [if_pos hroute, if_neg hok]
      exact exec_tail_allow call _
    · have hrefused : call.refusedSocket := Or.inr (Or.inl ⟨hnetlink, hroute⟩)
      rw [if_neg hroute, if_pos hrefused]
      exact exec_tail_notify call _
  · rw [if_neg hnetlink]
    refine (exec_socketType call _).trans ?_
    simp [Call.refusedSocket, hpacket, hnetlink]

/-- A call the arguments decide: `h` says by which of its clauses. -/
theorem refusedByArgs_iff {p : Prop} [Decidable p] (h : call.refusedByArgs ↔ p) :
    some (if p then seccompRetUserNotif else seccompRetAllow) =
      some (if call.refusedByArgs then seccompRetUserNotif else seccompRetAllow) := by
  by_cases hp : p
  · rw [if_pos hp, if_pos (h.mpr hp)]
  · rw [if_neg hp, if_neg fun hr => hp (h.mp hr)]

/-- The calls judged by their arguments, then the default. -/
theorem exec_judged :
    exec (loadWord call.bytes) tail 0 call.nr =
      some (if call.refusedByArgs then seccompRetUserNotif else seccompRetAllow) := by
  rw [exec_tail_jeq call rfl]
  by_cases hioctl : call.nr = sysIoctl
  · rw [if_pos hioctl]
    refine (exec_ioctl call _).trans (refusedByArgs_iff call ?_)
    have hne : sysIoctl ≠ sysPrctl ∧ sysIoctl ≠ sysSocket := by decide
    simp [Call.refusedByArgs, hioctl, hne]
  rw [if_neg hioctl]
  refine (exec_tail_jeq call (k := sysSocket) rfl).trans ?_
  by_cases hsocket : call.nr = sysSocket
  · rw [if_pos hsocket]
    refine (exec_socket call _).trans (refusedByArgs_iff call ?_)
    have hne : sysSocket ≠ sysPrctl ∧ sysSocket ≠ sysIoctl := by decide
    simp [Call.refusedByArgs, hsocket, hne]
  rw [if_neg hsocket]
  refine (exec_tail_jeq call (k := sysPrctl) rfl).trans ?_
  by_cases hprctl : call.nr = sysPrctl
  · rw [if_pos hprctl]
    refine (exec_prctl call _).trans (refusedByArgs_iff call ?_)
    have hne : sysPrctl ≠ sysIoctl ∧ sysPrctl ≠ sysSocket := by decide
    simp [Call.refusedByArgs, hprctl, hne]
  · have hok : ¬ call.refusedByArgs := by simp [Call.refusedByArgs, hioctl, hsocket, hprctl]
    rw [if_neg hprctl, if_neg hok]
    exact exec_tail_default call _

/-- A number of the native ABI, through the denied calls and the tail. -/
theorem exec_native :
    exec (loadWord call.bytes) (jumpTable 18 deniedNumbers ++ tail) 0 call.nr =
      some (if call.refused then seccompRetUserNotif else seccompRetAllow) := by
  rw [exec_jumpTable (by decide)]
  by_cases hdenied : call.nr ∈ deniedNumbers
  · have hrefused : call.refused := Or.inl hdenied
    rw [if_pos hdenied, if_pos hrefused]
    exact exec_tail_notify call _
  · have hiff : call.refused ↔ call.refusedByArgs := by simp [Call.refused, hdenied]
    rw [if_neg hdenied, exec_judged]
    exact (refusedByArgs_iff call hiff.symm).symm

/-- Past the denied calls, the last instruction kills. -/
theorem exec_kill (acc : UInt32) :
    exec (loadWord call.bytes) (jumpTable 18 deniedNumbers ++ tail) 50 acc =
      some seccompRetKillProcess := by
  have hlen : 50 = (jumpTable 18 deniedNumbers).length + 19 := by rw [length_jumpTable]; rfl
  rw [hlen, exec_append]
  exact exec_tail_kill call acc

/-- **The program implements its policy.** On every call, the program run
on the kernel's data returns the word of the call's verdict, in as many
steps as it has instructions or any number more. -/
theorem run_program (spare : ℕ) :
    run (loadWord call.bytes) program (program.length + spare) 0 0 = some call.verdict.word := by
  rw [run_eq_exec _ _ _ (by omega), program_eq]
  refine (exec_ld call.load_arch).trans ?_
  rw [jump, exec_jeq]
  by_cases harch : call.arch = auditArchX8664
  · rw [if_pos harch]
    refine (exec_ld call.load_nr).trans ?_
    rw [jump, exec_jge]
    by_cases hx32 : x32SyscallBit ≤ call.nr
    · have hforeign : call.foreign := Or.inr hx32
      rw [if_pos hx32, Call.verdict, if_pos hforeign]
      exact exec_kill call _
    · have hnative : ¬ call.foreign := by simp [Call.foreign, harch, hx32]
      rw [if_neg hx32, Call.verdict, if_neg hnative]
      refine (exec_native call).trans ?_
      split_ifs <;> rfl
  · have hforeign : call.foreign := Or.inl harch
    rw [if_neg harch, Call.verdict, if_pos hforeign]
    exact exec_kill call call.arch

end Seccomp

end Willie
