import Mathlib.Data.List.Duplicate
import Willie.Sandbox.Prepare

/-!
# Sandbox — what an extra path is mounted from

A bind is found again by its destination, from the end (`rebindSource`). After
all extra paths an op has been given a source exactly if it is the last with
its destination (`settle`). So an extra path that is listed again, or that is
the inner binary's own, keeps its source as written, which is right only where
it resolves to itself (`only_checked_iff`).
-/

namespace Willie
namespace Sandbox

open Paths Projects

variable {σ : Type} {m : Machine σ} {s s' : σ} {op : Op} {ops u v : List Op} {d : Path}
  {paths : List Path} {r : Path → Path} {home innerExe helper : Path} {extra : ExtraPath}
  {extras : List ExtraPath}

/-! ## One rebinding -/

/-- The destination of a bind. -/
def Op.bound : Op → Option Path
  | .bind _ dest _ _ => some dest
  | _ => none

/-- A bind, with another source. -/
def Op.withSource (src : Path) : Op → Op
  | .bind _ dest mode optional => .bind src dest mode optional
  | op => op

@[simp] theorem bound_withSource {src : Path} : (op.withSource src).bound = op.bound := by
  cases op <;> rfl

@[simp] theorem withSource_withSource {src src' : Path} :
    (op.withSource src).withSource src' = op.withSource src' := by
  cases op <;> rfl

/-- The destinations of the binds. -/
def bounds (ops : List Op) : List Path := ops.filterMap Op.bound

@[simp] theorem bounds_nil : bounds [] = [] := rfl

theorem mem_bounds_cons : d ∈ bounds (op :: ops) ↔ op.bound = some d ∨ d ∈ bounds ops := by
  cases op <;> simp [bounds, Op.bound, eq_comm]

theorem mem_bounds_append : d ∈ bounds (u ++ v) ↔ d ∈ bounds u ∨ d ∈ bounds v := by
  simp [bounds]

theorem rebindFirst_cons {src : Path} : rebindFirst d src (op :: ops) =
    if op.bound = some d then op.withSource src :: ops else op :: rebindFirst d src ops := by
  cases op <;> simp [rebindFirst, Op.bound, Op.withSource]

theorem rebindFirst_append {src : Path} : rebindFirst d src (u ++ v) =
    if d ∈ bounds u then rebindFirst d src u ++ v else u ++ rebindFirst d src v := by
  induction u with
  | nil => simp
  | cons op u ih =>
    rw [List.cons_append, rebindFirst_cons, rebindFirst_cons, ih]
    by_cases hop : op.bound = some d
    · simp [hop, mem_bounds_cons]
    · by_cases hu : d ∈ bounds u <;> simp [hop, hu, mem_bounds_cons]

/-- **The last bind of the destination** is the one that changes. -/
theorem rebindSource_cons {src : Path} : rebindSource (op :: ops) d src =
    if d ∈ bounds ops then op :: rebindSource ops d src
    else if op.bound = some d then op.withSource src :: ops else op :: ops := by
  have hrev : d ∈ bounds ops.reverse ↔ d ∈ bounds ops := by simp [bounds]
  unfold rebindSource
  rw [List.reverse_cons, rebindFirst_append]
  simp only [hrev]
  by_cases hops : d ∈ bounds ops
  · simp [hops]
  · rw [if_neg hops, if_neg hops, rebindFirst_cons]
    by_cases hop : op.bound = some d <;> simp [hop, rebindFirst]

/-! ## All rebindings -/

/-- What becomes of an op with the ops `rest` after it. -/
def settleOp (paths : List Path) (r : Path → Path) (rest : List Op) (op : Op) : Op :=
  match op.bound with
  | some d => if d ∈ paths ∧ d ∉ bounds rest then op.withSource (r d) else op
  | none => op

/-- The ops once the binds of the paths have been pointed elsewhere. -/
def settle (paths : List Path) (r : Path → Path) : List Op → List Op
  | [] => []
  | op :: ops => settleOp paths r ops op :: settle paths r ops

@[simp] theorem bound_settleOp : (settleOp paths r ops op).bound = op.bound := by
  unfold settleOp
  split
  · split_ifs
    · exact bound_withSource
    · rfl
  · rfl

@[simp] theorem bounds_settle : bounds (settle paths r ops) = bounds ops := by
  induction ops with
  | nil => rfl
  | cons op ops ih =>
    simp only [bounds, settle, List.filterMap_cons, bound_settleOp] at ih ⊢
    rw [ih]

theorem settle_nil : settle [] r ops = ops := by
  induction ops with
  | nil => rfl
  | cons op ops ih =>
    have hop : settleOp [] r ops op = op := by
      unfold settleOp
      split <;> simp
    rw [settle, hop, ih]

theorem settle_congr {paths' : List Path} (h : ∀ d ∈ bounds ops, d ∈ paths ↔ d ∈ paths') :
    settle paths r ops = settle paths' r ops := by
  induction ops with
  | nil => rfl
  | cons op ops ih =>
    rw [settle, settle, ih fun d hd => h d (mem_bounds_cons.mpr (.inr hd))]
    refine congrArg (· :: _) ?_
    unfold settleOp
    split
    · rename_i d hd
      simp only [h d (mem_bounds_cons.mpr (.inl hd))]
    · rfl

/-- **One more path.** -/
theorem rebindSource_settle :
    rebindSource (settle paths r ops) d (r d) = settle (d :: paths) r ops := by
  induction ops with
  | nil => rfl
  | cons op ops ih =>
    rw [settle, rebindSource_cons, bounds_settle, bound_settleOp, settle]
    by_cases hops : d ∈ bounds ops
    · -- a later bind has the destination, so this op is none of the path's
      have hop : settleOp (d :: paths) r ops op = settleOp paths r ops op := by
        unfold settleOp
        split
        · rename_i d' _
          by_cases heq : d' = d
          · subst heq
            simp [hops]
          · simp [heq]
        · rfl
      rw [if_pos hops, ih, hop]
    · have hrest : settle (d :: paths) r ops = settle paths r ops :=
        settle_congr fun d' hd' => by
          have hne : d' ≠ d := fun heq => hops (heq ▸ hd')
          simp [hne]
      rw [if_neg hops, hrest]
      by_cases hop : op.bound = some d
      · rw [if_pos hop]
        refine congrArg (· :: _) ?_
        unfold settleOp
        rw [hop]
        by_cases hpaths : d ∈ paths <;> simp [hpaths, hops]
      · rw [if_neg hop]
        refine congrArg (· :: _) ?_
        unfold settleOp
        split
        · rename_i d' hd'
          have hne : d' ≠ d := fun heq => hop (heq ▸ hd')
          simp [hne]
        · rfl

/-- What a path resolves to, as the bind gets it. -/
def resolved (m : Machine σ) (s : σ) (path : Path) : Path :=
  match m.canonicalize s path with
  | .ok real => toStringLossy real
  | .error _ => path

/-- An extra path that passed the look at the machine. -/
def Passed (m : Machine σ) (s : σ) (home : Path) (extra : ExtraPath) : Prop :=
  resolved m s extra.path = extra.path ∨ guardExtraPath (resolved m s extra.path) home = none

theorem resolveExtra_ok (h : resolveExtra m s home ops extra = .ok u) :
    Passed m s home extra ∧ u = rebindSource ops extra.path (resolved m s extra.path) := by
  unfold resolveExtra at h
  split at h
  · simp at h
  · rename_i real hreal
    have hres : resolved m s extra.path = toStringLossy real := by rw [resolved, hreal]
    rw [Passed, hres]
    simp only at h
    split at h
    · simp at h
    · rename_i hguard
      refine ⟨?_, (Except.ok.inj h).symm⟩
      by_cases hsame : toStringLossy real = extra.path
      · exact .inl hsame
      · exact .inr (by rwa [if_neg hsame] at hguard)

/-- **The look at all extra paths.** -/
theorem foldlM_resolveExtra (h : extras.foldlM (resolveExtra m s home)
      (settle paths (resolved m s) ops) = .ok u) :
    (∀ extra ∈ extras, Passed m s home extra) ∧
      ∃ paths', (∀ d, d ∈ paths' ↔ d ∈ paths ∨ ∃ extra ∈ extras, extra.path = d) ∧
        u = settle paths' (resolved m s) ops := by
  induction extras generalizing paths with
  | nil =>
    refine ⟨by simp, paths, by simp, ?_⟩
    exact (Except.ok.inj h).symm
  | cons extra extras ih =>
    rw [List.foldlM_cons] at h
    cases hextra : resolveExtra m s home (settle paths (resolved m s) ops) extra with
    | error e => rw [hextra] at h; contradiction
    | ok w =>
      rw [hextra] at h
      obtain ⟨hpassed, rfl⟩ := resolveExtra_ok hextra
      rw [rebindSource_settle] at h
      obtain ⟨hrest, paths', hmem, hu⟩ := ih h
      refine ⟨List.forall_mem_cons.mpr ⟨hpassed, hrest⟩, paths', fun d => ?_, hu⟩
      simp only [hmem, List.mem_cons, exists_eq_or_imp, eq_comm (a := d)]
      rw [or_comm (a := extra.path = d), or_assoc]

/-! ## The ops of the plan -/

/-- The bind of an extra path, from a source. -/
def extraBind (extra : ExtraPath) (src : Path) : Op := .bind src extra.path extra.mode false

/-- The sources the extra paths have in the end: as written for a path that
comes again, or that the binary bound last has. -/
def finalSources (r : Path → Path) (innerExe : Path) : List ExtraPath → List Path
  | [] => []
  | extra :: extras =>
    (if extra.path ∈ extras.map (·.path) ∨ extra.path = innerExe then extra.path
      else r extra.path) :: finalSources r innerExe extras

/-- The bind of the inner binary in the end. -/
def finalInner (paths : List Path) (r : Path → Path) (innerExe : Path) : Op :=
  .bind (if innerExe ∈ paths then r innerExe else innerExe) innerExe .ro false

theorem bounds_extraOps : bounds (extraOps extras) = extras.map (·.path) := by
  simp only [bounds, extraOps, List.filterMap_map]
  exact List.filterMap_eq_map ▸ rfl

/-- Ops before the extra paths keep their sources. -/
theorem settle_before (h : ∀ d ∈ paths, d ∈ bounds v) :
    settle paths r (u ++ v) = u ++ settle paths r v := by
  induction u with
  | nil => rfl
  | cons op u ih =>
    have hop : settleOp paths r (u ++ v) op = op := by
      unfold settleOp
      split
      · rename_i d _
        rw [if_neg fun ⟨hd, hnot⟩ => hnot (mem_bounds_append.mpr (.inr (h d hd)))]
      · rfl
    rw [List.cons_append, settle, hop, ih]
    rfl

/-- **The ops of the extra paths and of the inner binary in the end.** -/
theorem settle_extraOps (h : ∀ extra ∈ extras, extra.path ∈ paths) :
    settle paths r (extraOps extras ++ [bindSelf innerExe .ro false]) =
      List.zipWith extraBind extras (finalSources r innerExe extras) ++
        [finalInner paths r innerExe] := by
  induction extras with
  | nil =>
    by_cases hinner : innerExe ∈ paths <;>
      simp [extraOps, settle, settleOp, bindSelf, Op.bound, Op.withSource, finalInner, hinner,
        finalSources]
  | cons extra extras ih =>
    obtain ⟨hextra, hrest⟩ := List.forall_mem_cons.mp h
    have hafter : extra.path ∈ bounds (extraOps extras ++ [bindSelf innerExe .ro false]) ↔
        extra.path ∈ extras.map (·.path) ∨ extra.path = innerExe := by
      rw [mem_bounds_append, bounds_extraOps]
      simp [bounds, bindSelf, Op.bound]
    have hop : settleOp paths r (extraOps extras ++ [bindSelf innerExe .ro false])
        (bindSelf extra.path extra.mode false) =
        extraBind extra (if extra.path ∈ extras.map (·.path) ∨ extra.path = innerExe then
          extra.path else r extra.path) := by
      simp only [settleOp, bindSelf, Op.bound, hextra, true_and] at hafter ⊢
      by_cases hlater : extra.path ∈ extras.map (·.path) ∨ extra.path = innerExe
      · rw [if_neg (not_not.mpr (hafter.mpr hlater)), if_pos hlater]
        rfl
      · rw [if_pos (fun hmem => hlater (hafter.mp hmem)), if_neg hlater]
        rfl
    have hcons : extraOps (extra :: extras) ++ [bindSelf innerExe .ro false] =
        bindSelf extra.path extra.mode false ::
          (extraOps extras ++ [bindSelf innerExe .ro false]) := rfl
    rw [hcons, settle, hop, ih hrest]
    rfl

/-! ## The law -/

/-- The source is the canonical path the entry resolved to, and that was
configured or passed the guard. -/
def Checked (m : Machine σ) (s : σ) (home : Path) (extra : ExtraPath) (src : Path) : Prop :=
  m.canonicalize s extra.path = .ok (Utf8.encode src.toList) ∧
    (src = extra.path ∨ guardExtraPath src home = none)

/-- **Only checked sources are mounted**: the binds the plan added for the
extra paths have checked sources, and every other op is the plan's. -/
def OnlyChecked (m : Machine σ) (s : σ) (extras : List ExtraPath) (innerExe : Path)
    (planned returned : Plan) : Prop :=
  ∃ pre sources, planned.ops = pre ++ extraOps extras ++ [bindSelf innerExe .ro false] ∧
    returned.ops =
      pre ++ List.zipWith extraBind extras sources ++ [bindSelf innerExe .ro false] ∧
    List.Forall₂ (Checked m s planned.home) extras sources

/-- Every extra path resolves to a text, and to itself if it is listed again
or is the inner binary's own. -/
def ToldApart (m : Machine σ) (s : σ) (extras : List ExtraPath) (innerExe : Path) : Prop :=
  ∀ extra ∈ extras, ∃ real : Path, m.canonicalize s extra.path = .ok (Utf8.encode real.toList) ∧
    (real = extra.path ∨
      ¬ List.Duplicate extra.path (extras.map (·.path)) ∧ extra.path ≠ innerExe)

theorem toStringLossy_encode (path : Path) : toStringLossy (Utf8.encode path.toList) = path := by
  rw [toStringLossy, Utf8.decodeLossy_encode, String.ofList_toList]

theorem resolved_eq {real path : Path}
    (h : m.canonicalize s path = .ok (Utf8.encode real.toList)) : resolved m s path = real := by
  rw [resolved, h]
  exact toStringLossy_encode real

theorem encode_toList_inj {a b : Path} (h : Utf8.encode a.toList = Utf8.encode b.toList) : a = b :=
  String.toList_injective (Utf8.encode_injective h)

theorem toldApart_of_checked
    (h : List.Forall₂ (Checked m s home) extras (finalSources (resolved m s) innerExe extras)) :
    ToldApart m s extras innerExe := by
  induction extras with
  | nil => simp [ToldApart]
  | cons extra extras ih =>
    obtain ⟨⟨hreal, -⟩, hrest⟩ := List.forall₂_cons.mp h
    have happart := ih hrest
    intro extra' hextra'
    rcases List.mem_cons.mp hextra' with rfl | hmem
    · refine ⟨_, hreal, ?_⟩
      by_cases hlater : extra'.path ∈ extras.map (·.path) ∨ extra'.path = innerExe
      · exact .inl (if_pos hlater)
      · rw [not_or] at hlater
        refine .inr ⟨?_, hlater.2⟩
        rw [List.map_cons, List.duplicate_cons_self_iff]
        exact hlater.1
    · obtain ⟨real, hreal', hor⟩ := happart extra' hmem
      refine ⟨real, hreal', ?_⟩
      by_cases hsame : extra'.path = extra.path
      · -- the path comes again, so it has resolved to itself
        have hlater : extra.path ∈ extras.map (·.path) :=
          hsame ▸ List.mem_map_of_mem hmem
        rw [if_pos (.inl hlater)] at hreal
        rw [hsame, hreal] at hreal'
        left
        rw [hsame]
        exact (encode_toList_inj (Except.ok.inj hreal')).symm
      · rcases hor with hown | ⟨honce, hinner⟩
        · exact .inl hown
        · refine .inr ⟨?_, hinner⟩
          rwa [List.map_cons, List.duplicate_cons_iff_of_ne hsame]

theorem checked_of_toldApart (hpassed : ∀ extra ∈ extras, Passed m s home extra)
    (h : ToldApart m s extras innerExe) :
    List.Forall₂ (Checked m s home) extras (finalSources (resolved m s) innerExe extras) := by
  induction extras with
  | nil => exact .nil
  | cons extra extras ih =>
    obtain ⟨hhead, hrest⟩ := List.forall_mem_cons.mp hpassed
    refine List.Forall₂.cons ?_ (ih hrest fun extra' hmem => ?_)
    · obtain ⟨real, hreal, hor⟩ := h extra List.mem_cons_self
      rw [Passed, resolved_eq hreal] at hhead
      have hsrc : (if extra.path ∈ extras.map (·.path) ∨ extra.path = innerExe then extra.path
          else resolved m s extra.path) = real := by
        rw [resolved_eq hreal]
        split_ifs with hlater
        · rcases hor with hown | ⟨honce, hinner⟩
          · exact hown.symm
          · rw [List.map_cons, List.duplicate_cons_self_iff] at honce
            exact absurd hlater (not_or.mpr ⟨honce, hinner⟩)
        · rfl
      rw [hsrc]
      exact ⟨hreal, hhead⟩
    · obtain ⟨real, hreal, hor⟩ := h extra' (List.mem_cons_of_mem _ hmem)
      refine ⟨real, hreal, hor.imp_right fun ⟨honce, hinner⟩ => ⟨fun hdup => ?_, hinner⟩⟩
      exact honce (hdup.duplicate_cons _)

theorem zipWith_extraBind_inj {sources sources' : List Path} (hlen : extras.length = sources.length)
    (hlen' : extras.length = sources'.length)
    (h : List.zipWith extraBind extras sources = List.zipWith extraBind extras sources') :
    sources = sources' := by
  induction extras generalizing sources sources' with
  | nil =>
    rw [List.length_eq_zero_iff.mp hlen.symm, List.length_eq_zero_iff.mp hlen'.symm]
  | cons extra extras ih =>
    cases sources with
    | nil => simp at hlen
    | cons src sources =>
      cases sources' with
      | nil => simp at hlen'
      | cons src' sources' =>
        simp only [List.zipWith_cons_cons, List.cons.injEq, extraBind, Op.bind.injEq, and_true]
          at h
        rw [h.1, ih (by simpa using hlen) (by simpa using hlen') h.2]

theorem length_finalSources : (finalSources r innerExe extras).length = extras.length := by
  induction extras with
  | nil => rfl
  | cons extra extras ih => rw [finalSources, List.length_cons, List.length_cons, ih]

/-- The law, of the ops of a plan. -/
theorem onlyChecked_iff {planned returned : Plan} {pre : List Op}
    (hplanned : planned.ops = pre ++ extraOps extras ++ [bindSelf innerExe .ro false])
    (hreturned : extras.foldlM (resolveExtra m s planned.home) planned.ops = .ok returned.ops) :
    OnlyChecked m s extras innerExe planned returned ↔ ToldApart m s extras innerExe := by
  have hnil : settle [] (resolved m s) planned.ops = planned.ops := settle_nil
  rw [← hnil] at hreturned
  obtain ⟨hpassed, paths, hpaths, hops⟩ := foldlM_resolveExtra hreturned
  have hmem : ∀ extra ∈ extras, extra.path ∈ paths := fun extra hextra =>
    (hpaths _).mpr (.inr ⟨extra, hextra, rfl⟩)
  have hbound : ∀ d ∈ paths, d ∈ bounds (extraOps extras ++ [bindSelf innerExe .ro false]) := by
    intro d hd
    rw [mem_bounds_append, bounds_extraOps]
    rcases (hpaths d).mp hd with hnil | ⟨extra, hextra, rfl⟩
    · contradiction
    · exact .inl (List.mem_map_of_mem hextra)
  rw [hplanned, List.append_assoc, settle_before hbound, settle_extraOps hmem,
    ← List.append_assoc] at hops
  constructor
  · rintro ⟨pre', sources, hplanned', hreturned', hchecked⟩
    obtain rfl : pre' = pre := by
      rw [hplanned', List.append_assoc, List.append_assoc] at hplanned
      exact List.append_cancel_right hplanned
    rw [hreturned', List.append_assoc, List.append_assoc, List.append_cancel_left_eq] at hops
    have hlen : (List.zipWith extraBind extras sources).length =
        (List.zipWith extraBind extras (finalSources (resolved m s) innerExe extras)).length := by
      rw [List.length_zipWith, List.length_zipWith, ← hchecked.length_eq, length_finalSources]
    obtain ⟨hzip, -⟩ := List.append_inj hops hlen
    rw [zipWith_extraBind_inj hchecked.length_eq length_finalSources.symm hzip] at hchecked
    exact toldApart_of_checked hchecked
  · intro happart
    refine ⟨pre, _, hplanned, ?_, checked_of_toldApart hpassed happart⟩
    rw [hops, finalInner, bindSelf]
    split_ifs with hinner
    · -- the inner binary is an extra path, which has resolved to itself
      rcases (hpaths _).mp hinner with hnil | ⟨extra, hextra, hpath⟩
      · contradiction
      · obtain ⟨real, hreal, hor⟩ := happart extra hextra
        have hown := hor.resolve_right fun h => h.2 hpath
        rw [hpath] at hreal hown
        rw [resolved_eq hreal, hown]
    · rfl

/-- **What decides which sources are mounted.** A preparation that succeeds
has given every bind of an extra path the canonical path it resolved to, and
changed no other op, if and only if each extra path resolves to a text, and to
itself if it is listed again or is the inner binary's own. -/
theorem only_checked_iff {spec : LaunchSpec} {prepared : Prepared}
    (h : prepare m spec helper innerExe s = (.ok prepared, s')) :
    ∃ harness planned, chooseHarness spec = .ok harness ∧
      plan spec.toSessionSpec harness innerExe = .ok planned ∧
      (OnlyChecked m s spec.capabilities.extraPaths innerExe planned prepared.plan ↔
        ToldApart m s spec.capabilities.extraPaths innerExe) := by
  obtain ⟨harness, planned, ops, hharness, hplan, hops, hprepared⟩ := prepare_ok h
  refine ⟨harness, planned, hharness, hplan, ?_⟩
  obtain ⟨-, -, hplanned⟩ := plan_ok hplan
  refine onlyChecked_iff hplanned ?_
  rw [hops, hprepared]

/-- A machine on which everything is there, with one link in the project. -/
def linkedMachine : Machine Unit where
  metadata _ _ := some ⟨true, true, 0o755⟩
  canonicalize _ path := .ok (Utf8.encode
    (if path = "/home/willie/projects/x/out" then "/home/willie/shared" else path).toList)
  createDirAll s _ := (.ok (), s)

/-- An agent on a project, with extra paths. -/
def agentSpec (extraPaths : List ExtraPath) : LaunchSpec where
  toSessionSpec := projectSpec extraPaths
  kind := .agent
  harness := "claude-code"

/-- A link and a plain path. -/
def linkAndPlain : List ExtraPath := [⟨"/home/willie/projects/x/out", .rw⟩, ⟨"/srv/data", .ro⟩]

/-- The link, listed twice. -/
def linkTwice : List ExtraPath :=
  [⟨"/home/willie/projects/x/out", .ro⟩, ⟨"/home/willie/projects/x/out", .rw⟩]

/-- Each listed once, both are mounted as resolved. -/
theorem only_checked_iff_once : ∃ planned prepared,
    prepare linkedMachine (agentSpec linkAndPlain) "/usr/bin/bwrap" supervisorExe () =
      (.ok prepared, ()) ∧
    OnlyChecked linkedMachine () linkAndPlain supervisorExe planned prepared.plan := by
  have hok : (prepare linkedMachine (agentSpec linkAndPlain) "/usr/bin/bwrap" supervisorExe
      ()).1.isOk = true := by decide
  cases h : prepare linkedMachine (agentSpec linkAndPlain) "/usr/bin/bwrap" supervisorExe () with
  | mk result s =>
    rw [h] at hok
    cases result with
    | error e => contradiction
    | ok prepared =>
      obtain ⟨harness, planned, -, -, hiff⟩ := only_checked_iff h
      refine ⟨planned, prepared, rfl, hiff.mpr ?_⟩
      intro extra hextra
      rcases List.mem_cons.mp hextra with rfl | hextra
      · exact ⟨"/home/willie/shared", by decide, .inr (by decide)⟩
      · obtain rfl := List.mem_singleton.mp hextra
        exact ⟨"/srv/data", by decide, .inl rfl⟩

/-- The first of the two binds still has the link as it was written. -/
theorem listed_twice_unchecked : ∃ planned prepared,
    plan (agentSpec linkTwice).toSessionSpec claudeCode supervisorExe = .ok planned ∧
    prepare linkedMachine (agentSpec linkTwice) "/usr/bin/bwrap" supervisorExe () =
      (.ok prepared, ()) ∧
    ¬ OnlyChecked linkedMachine () linkTwice supervisorExe planned prepared.plan := by
  have hok : (prepare linkedMachine (agentSpec linkTwice) "/usr/bin/bwrap" supervisorExe
      ()).1.isOk = true := by decide
  cases h : prepare linkedMachine (agentSpec linkTwice) "/usr/bin/bwrap" supervisorExe () with
  | mk result s =>
    rw [h] at hok
    cases result with
    | error e => contradiction
    | ok prepared =>
      obtain ⟨harness, planned, ops, hharness, hplan, hops, hprepared⟩ := prepare_ok h
      obtain rfl : claudeCode = harness := Except.ok.inj hharness
      refine ⟨planned, prepared, hplan, rfl, ?_⟩
      obtain ⟨-, -, hplanned⟩ := plan_ok hplan
      refine mt (onlyChecked_iff hplanned (by rw [hprepared]; exact hops)).mp fun happart => ?_
      obtain ⟨real, hreal, hown | ⟨honce, -⟩⟩ := happart _ List.mem_cons_self
      · rw [hown] at hreal
        exact absurd hreal (by decide)
      · exact honce (by decide)

end Sandbox
end Willie
