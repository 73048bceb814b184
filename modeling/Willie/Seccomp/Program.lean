import Willie.Common.Bpf
/-!
# The syscall filter

`sandbox/seccomp.rs` of `willie-linux`: the classic-BPF program installed
before the harness runs, as the small assembler lays it out. Every jump
names a label; the offsets are resolved once the program is complete.
-/

namespace Willie

namespace Seccomp

open Bpf

/-! ## The constants -/

/-- `AUDIT_ARCH_X86_64`. -/
def auditArchX8664 : UInt32 := 0xC000003E

/-- `X32_SYSCALL_BIT`. -/
def x32SyscallBit : UInt32 := 0x40000000

/-- `DATA_NR`. -/
def dataNr : UInt32 := 0

/-- `DATA_ARCH`. -/
def dataArch : UInt32 := 4

/-- `DATA_ARG0`. -/
def dataArg0 : UInt32 := 16

/-- `DATA_ARG1`. -/
def dataArg1 : UInt32 := 24

/-- `DATA_ARG2`. -/
def dataArg2 : UInt32 := 32

/-- `SECCOMP_RET_KILL_PROCESS`. -/
def seccompRetKillProcess : UInt32 := 0x80000000

/-- `SECCOMP_RET_USER_NOTIF`. -/
def seccompRetUserNotif : UInt32 := 0x7FC00000

/-- `SECCOMP_RET_ALLOW`. -/
def seccompRetAllow : UInt32 := 0x7FFF0000

/-- `TIOCSTI`. -/
def tiocsti : UInt32 := 0x5412

/-- `PR_SET_SECCOMP`. -/
def prSetSeccomp : UInt32 := 22

/-- `AF_NETLINK`. -/
def afNetlink : UInt32 := 16

/-- `AF_PACKET`. -/
def afPacket : UInt32 := 17

/-- `SOCK_RAW`. -/
def sockRaw : UInt32 := 3

/-- `SOCK_PACKET`. -/
def sockPacket : UInt32 := 10

/-- `SOCK_TYPE_MASK`. -/
def sockTypeMask : UInt32 := 0xFF

/-- `NETLINK_ROUTE`. -/
def netlinkRoute : UInt32 := 0

/-- `SYS_ioctl`. -/
def sysIoctl : UInt32 := 16

/-- `SYS_socket`. -/
def sysSocket : UInt32 := 41

/-- `SYS_prctl`. -/
def sysPrctl : UInt32 := 157

/-- `DENIED`: the calls refused whatever their arguments, with the names
the log gives them. -/
def denied : List (UInt32 × String) :=
  [(101, "ptrace"), (310, "process_vm_readv"), (311, "process_vm_writev"), (438, "pidfd_getfd"),
    (321, "bpf"), (425, "io_uring_setup"), (426, "io_uring_enter"), (427, "io_uring_register"),
    (298, "perf_event_open"), (323, "userfaultfd"), (317, "seccomp"), (165, "mount"),
    (166, "umount2"), (155, "pivot_root"), (442, "mount_setattr"), (428, "open_tree"),
    (429, "move_mount"), (430, "fsopen"), (431, "fsconfig"), (432, "fsmount"), (433, "fspick"),
    (272, "unshare"), (308, "setns"), (175, "init_module"), (313, "finit_module"),
    (176, "delete_module"), (246, "kexec_load"), (320, "kexec_file_load"), (248, "add_key"),
    (249, "request_key"), (250, "keyctl")]

/-- The numbers of `DENIED`. -/
def deniedNumbers : List UInt32 := denied.map Prod.fst

/-! ## The assembler -/

/-- `stmt`. -/
def stmt (code : UInt16) (k : UInt32) : Insn := ⟨code, 0, 0, k⟩

/-- `jump`. -/
def jump (code : UInt16) (jt jf : UInt8) (k : UInt32) : Insn := ⟨code, jt, jf, k⟩

/-- `To`: where a jump lands, by name. -/
inductive To
  | next
  | allow
  | notify
  | kill
  | ioctl
  | socket
  | socketType
  | prctl
  deriving DecidableEq, Repr

/-- `Item`. -/
inductive Item
  | stmt (insn : Insn)
  | jump (code : UInt16) (k : UInt32) (jt jf : To)
  deriving DecidableEq, Repr

/-- `Asm`: the items so far, and where each label was placed among
them. -/
structure Asm where
  items : List Item
  labels : List (To × ℕ)
  deriving Repr

namespace Asm

/-- `Asm::default`. -/
def empty : Asm := ⟨[], []⟩

/-- `Asm::stmt`. -/
def stmt (asm : Asm) (code : UInt16) (k : UInt32) : Asm :=
  { asm with items := asm.items ++ [.stmt (Seccomp.stmt code k)] }

/-- `Asm::jump`. -/
def jump (asm : Asm) (code : UInt16) (k : UInt32) (jt jf : To) : Asm :=
  { asm with items := asm.items ++ [.jump code k jt jf] }

/-- `Asm::mark`: the next instruction pushed is where `label` lands. -/
def mark (asm : Asm) (label : To) : Asm :=
  { asm with labels := asm.labels ++ [(label, asm.items.length)] }

/-- `Asm::offset`: from the instruction after `at` to `label`. A label
that was never placed, lies behind the jump or is too far is `u8::MAX`. -/
def offset (asm : Asm) (pos : ℕ) (label : To) : UInt8 :=
  if label = .next then 0
  else
    match asm.labels.find? fun placed => placed.1 == label with
    | none => 255
    | some (_, target) =>
      if pos + 1 ≤ target ∧ target - (pos + 1) ≤ 255 then UInt8.ofNat (target - (pos + 1)) else 255

/-- One item with its offsets resolved. -/
def resolve (asm : Asm) (item : Item) (pos : ℕ) : Insn :=
  match item with
  | .stmt insn => insn
  | .jump code k jt jf => Seccomp.jump code (asm.offset pos jt) (asm.offset pos jf) k

/-- `Asm::finish`. -/
def finish (asm : Asm) : List Insn :=
  asm.items.zipIdx.map fun item => asm.resolve item.1 item.2

end Asm

/-- The checks of the native ABI. -/
def abiChecks (asm : Asm) : Asm :=
  (((asm.stmt ldWAbs dataArch).jump jeqK auditArchX8664 .next .kill).stmt ldWAbs dataNr).jump
    jgeK x32SyscallBit .kill .next

/-- The calls judged by their arguments, then the default. -/
def judged (asm : Asm) : Asm :=
  (((asm.jump jeqK sysIoctl .ioctl .next).jump jeqK sysSocket .socket .next).jump
    jeqK sysPrctl .prctl .next).stmt retK seccompRetAllow

/-- The `ioctl` block. -/
def ioctlBlock (asm : Asm) : Asm :=
  ((asm.mark .ioctl).stmt ldWAbs dataArg1).jump jeqK tiocsti .notify .allow

/-- The `socket` block. -/
def socketBlock (asm : Asm) : Asm :=
  let asm := (((asm.mark .socket).stmt ldWAbs dataArg0).jump jeqK afPacket .notify .next).jump
    jeqK afNetlink .next .socketType
  let asm := (asm.stmt ldWAbs dataArg2).jump jeqK netlinkRoute .allow .notify
  ((((asm.mark .socketType).stmt ldWAbs dataArg1).stmt andK sockTypeMask).jump
    jeqK sockRaw .notify .next).jump jeqK sockPacket .notify .allow

/-- The `prctl` block. -/
def prctlBlock (asm : Asm) : Asm :=
  ((asm.mark .prctl).stmt ldWAbs dataArg0).jump jeqK prSetSeccomp .notify .allow

/-- The three verdicts every jump lands on. -/
def verdicts (asm : Asm) : Asm :=
  ((((asm.mark .allow).stmt retK seccompRetAllow).mark .notify).stmt
    retK seccompRetUserNotif |>.mark .kill).stmt retK seccompRetKillProcess

/-- `program`: the whole filter, ready to install. -/
def program : List Insn :=
  let asm := abiChecks .empty
  let asm := denied.foldl (fun asm entry => asm.jump jeqK entry.1 .notify .next) asm
  (verdicts (prctlBlock (socketBlock (ioctlBlock (judged asm))))).finish

/-! ## What the assembler lays out -/

/-- What follows the denied calls. -/
def tail : List Insn :=
  [jump jeqK 3 0 sysIoctl, jump jeqK 4 0 sysSocket, jump jeqK 12 0 sysPrctl,
    stmt retK seccompRetAllow,
    stmt ldWAbs dataArg1, jump jeqK 12 11 tiocsti,
    stmt ldWAbs dataArg0, jump jeqK 10 0 afPacket, jump jeqK 0 2 afNetlink,
    stmt ldWAbs dataArg2, jump jeqK 6 7 netlinkRoute,
    stmt ldWAbs dataArg1, stmt andK sockTypeMask, jump jeqK 4 0 sockRaw, jump jeqK 3 2 sockPacket,
    stmt ldWAbs dataArg0, jump jeqK 1 0 prSetSeccomp,
    stmt retK seccompRetAllow, stmt retK seccompRetUserNotif, stmt retK seccompRetKillProcess]

/-- **The program laid out.** The ABI checks, one comparison for each
denied call, and the calls judged by their arguments. -/
theorem program_eq :
    program =
      stmt ldWAbs dataArch :: jump jeqK 0 52 auditArchX8664 :: stmt ldWAbs dataNr ::
        jump jgeK 50 0 x32SyscallBit :: (jumpTable 18 deniedNumbers ++ tail) := by
  decide

end Seccomp

end Willie
