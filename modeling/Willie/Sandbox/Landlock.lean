import Willie.Sandbox.Workspace

/-!
# Sandbox — what a session may write

Landlock's writable paths are read off the plan's ops one by one, and what
is mounted at a path is decided by the last op that covers it. The two
agree exactly if no op is hidden by later ones of the other kind
(`rules_agree_iff`).
-/

namespace Willie
namespace Sandbox

open Paths Projects

variable {ops : List Op} {op : Op} {path : Path} {write : List Path} {p : Plan}

/-! ## The rules -/

/-- What Landlock adds to the mounts: the paths that can be written. -/
structure Rules where
  write : List Path
  deriving DecidableEq, Repr

/-- The trees the base sets up writable. -/
def baseWritable : List Path := ["/tmp", "/dev"]

/-- Each path once, in the plan's order. -/
def grant (write : List Path) (path : Path) : List Path :=
  if path ∈ write then write else write ++ [path]

/-- A private file system, or a path bound read-write. -/
def Op.writable : Op → Bool
  | .tmpfs .. => true
  | .bind _ _ mode _ => mode = .rw
  | .symlink .. => false

def rules (p : Plan) : Rules :=
  let write := p.ops.foldl (fun write op => if op.writable then grant write op.dest else write) []
  ⟨baseWritable.foldl grant write⟩

/-! ## What is listed -/

theorem mem_grant {q : Path} : q ∈ grant write path ↔ q ∈ write ∨ q = path := by
  unfold grant
  split
  · constructor
    · exact .inl
    · rintro (h | rfl)
      · exact h
      · assumption
  · simp

theorem nodup_grant (h : write.Nodup) : (grant write path).Nodup := by
  unfold grant
  split
  · exact h
  · rename_i hnew
    refine List.Nodup.append h (by simp) ?_
    simpa [List.disjoint_singleton] using hnew

theorem mem_grant_ops {q : Path} :
    q ∈ ops.foldl (fun write op => if op.writable then grant write op.dest else write) write ↔
      q ∈ write ∨ ∃ op ∈ ops, op.writable = true ∧ op.dest = q := by
  induction ops generalizing write with
  | nil => simp
  | cons op ops ih =>
    rw [List.foldl_cons, ih]
    by_cases hw : op.writable = true
    · rw [if_pos hw, mem_grant, or_assoc]
      simp only [List.mem_cons, exists_eq_or_imp, hw, true_and, eq_comm (a := q)]
    · rw [if_neg hw]
      simp [hw]

theorem nodup_grant_ops (h : write.Nodup) :
    (ops.foldl (fun write op => if op.writable then grant write op.dest else write)
      write).Nodup := by
  induction ops generalizing write with
  | nil => exact h
  | cons op ops ih =>
    rw [List.foldl_cons]
    refine ih ?_
    split
    · exact nodup_grant h
    · exact h

/-- **What is listed**: the base's trees, and the destinations of the ops
that make something writable. -/
theorem mem_rules : path ∈ (rules p).write ↔
    path ∈ baseWritable ∨ ∃ op ∈ p.ops, op.writable = true ∧ op.dest = path := by
  simp only [rules, baseWritable, List.foldl_cons, List.foldl_nil, mem_grant, mem_grant_ops,
    List.mem_cons, List.not_mem_nil, or_false, false_or]
  rw [or_assoc, or_comm]

theorem nodup_rules : (rules p).write.Nodup := by
  simp only [rules, baseWritable, List.foldl_cons, List.foldl_nil]
  exact nodup_grant (nodup_grant (nodup_grant_ops List.nodup_nil))

/-! ## What is mounted -/

/-- The mounts leave a path writable: it is a destination, and the last op at
or above it makes it so. -/
def MountedWritable (ops : List Op) (path : Path) : Prop :=
  (∃ op ∈ ops, op.dest = path) ∧ ∃ op, lastOver ops path = some op ∧ op.writable = true

/-- **The rules agree with the mounts**, and name no path twice. -/
def RulesAgree (p : Plan) : Prop :=
  (∀ path, path ∈ (rules p).write ↔ path ∈ baseWritable ∨ MountedWritable p.ops path) ∧
    (rules p).write.Nodup

/-- What comes after an op leaves its destination of the op's own kind; or
an op that is not writable has its destination also bound writable. -/
def Op.Unhidden (op : Op) (ops post : List Op) : Prop :=
  ∀ later ∈ lastOver post op.dest, later.writable = op.writable ∨
    op.writable = false ∧ ∃ other ∈ ops, other.writable = true ∧ other.dest = op.dest

/-- **No op is hidden by one of the other kind.** -/
def Unhidden (ops : List Op) : Prop :=
  ∀ pre op post, ops = pre ++ op :: post → op.dest ∉ baseWritable → op.Unhidden ops post

theorem lastOver_split {pre post : List Op} (hops : ops = pre ++ op :: post) :
    lastOver ops op.dest = (lastOver post op.dest).or (some op) := by
  rw [hops, List.append_cons, lastOver_append, lastOver_append, lastOver_singleton,
    if_pos (Covers.refl op.dest), Option.some_or]

/-- **Exactly when the rules agree with the mounts.** -/
theorem rules_agree_iff : RulesAgree p ↔ Unhidden p.ops := by
  constructor
  · rintro ⟨h, -⟩ pre op post hops hbase later hlater
    have hmem : op ∈ p.ops := hops ▸ List.mem_append_right _ (List.mem_cons_self ..)
    have hlast : lastOver p.ops op.dest = some later := by
      rw [lastOver_split hops, hlater, Option.some_or]
    by_cases hw : op.writable = true
    · -- it is listed, so it is mounted writable
      have hlisted := (h op.dest).mp (mem_rules.mpr (.inr ⟨op, hmem, hw, rfl⟩))
      obtain ⟨-, last, hlast', hlw⟩ := hlisted.resolve_left hbase
      obtain rfl := Option.some.inj (hlast.symm.trans hlast')
      exact .inl (hlw.trans hw.symm)
    · rw [Bool.not_eq_true] at hw
      by_cases hlw : later.writable = true
      · have hlisted := (h op.dest).mpr (.inr ⟨⟨op, hmem, rfl⟩, later, hlast, hlw⟩)
        exact .inr ⟨hw, (mem_rules.mp hlisted).resolve_left hbase⟩
      · rw [Bool.not_eq_true] at hlw
        exact .inl (hlw.trans hw.symm)
  · intro h
    refine ⟨fun path => ?_, nodup_rules⟩
    rw [mem_rules]
    by_cases hbase : path ∈ baseWritable
    · exact iff_of_true (.inl hbase) (.inl hbase)
    refine or_congr_right ⟨?_, ?_⟩
    · rintro ⟨op, hmem, hw, rfl⟩
      -- the last mount over the path decides, and the condition is about that one
      obtain ⟨pre, post, hops⟩ := List.append_of_mem hmem
      refine ⟨⟨op, hmem, rfl⟩, ?_⟩
      rw [lastOver_split hops]
      cases hlater : lastOver post op.dest with
      | none => exact ⟨op, rfl, hw⟩
      | some later =>
        refine ⟨later, rfl, ?_⟩
        rcases h pre op post hops hbase later hlater with hsame | ⟨hno, -⟩
        · exact hsame.trans hw
        · simp [hw] at hno
    · rintro ⟨⟨op, hmem, rfl⟩, last, hlast, hlw⟩
      by_cases hw : op.writable = true
      · exact ⟨op, hmem, hw, rfl⟩
      obtain ⟨pre, post, hops⟩ := List.append_of_mem hmem
      rw [lastOver_split hops] at hlast
      cases hlater : lastOver post op.dest with
      | none =>
        rw [hlater] at hlast
        obtain rfl := Option.some.inj hlast
        exact absurd hlw hw
      | some later =>
        rw [hlater] at hlast
        obtain rfl := Option.some.inj hlast
        rcases h pre op post hops hbase later hlater with hsame | ⟨-, hother⟩
        · exact absurd (hsame.symm.trans hlw) hw
        · exact hother

/-- **A path bound read-only is listed as writable**: the profile names it
twice, and the second time read-only. -/
theorem read_only_listed :
    resolve claudeCode.defaultCapabilities
        { extraPaths := [⟨"/srv/a", .rw⟩, ⟨"/srv/a", .ro⟩] } "/home/willie" =
      .ok (projectSpec [⟨"/srv/a", .rw⟩, ⟨"/srv/a", .ro⟩]).capabilities ∧
    ∃ p, plan (projectSpec [⟨"/srv/a", .rw⟩, ⟨"/srv/a", .ro⟩]) claudeCode supervisorExe = .ok p ∧
      ¬ RulesAgree p := by
  refine ⟨by decide, _, rfl, ?_⟩
  rintro ⟨h, -⟩
  have hlisted : "/srv/a" ∈ (rules ⟨"/home/willie", "", [], "", [], [],
      planOps (projectSpec [⟨"/srv/a", .rw⟩, ⟨"/srv/a", .ro⟩]) claudeCode supervisorExe
        "/home/willie"⟩).write := by decide
  have hlast : lastOver (planOps (projectSpec [⟨"/srv/a", .rw⟩, ⟨"/srv/a", .ro⟩]) claudeCode
      supervisorExe "/home/willie") "/srv/a" = some (bindSelf "/srv/a" .ro false) := by
    decide
  obtain ⟨-, last, hlast', hw⟩ := ((h "/srv/a").mp hlisted).resolve_left (by decide)
  obtain rfl := Option.some.inj (hlast.symm.trans hlast')
  simp [bindSelf, Op.writable] at hw

end Sandbox
end Willie
