import Willie.Sandbox.Plan

/-!
# Sandbox — the helper's arguments

The plan becomes one argument vector: options of a fixed number of values
each, then the command after a `--`. Read back by the number of values each
option takes, the vector gives exactly the options it was written from,
whatever the texts in it are (`argv_recovered`).
-/

namespace Willie
namespace Sandbox

open Paths Projects

/-- An option with its values. -/
abbrev HelperOption := String × List String

/-! ## The vector -/

/-- Where the image installs the helper. -/
def bwrap : Path := "/usr/bin/bwrap"

def etc : List String :=
  ["resolv.conf", "hosts", "passwd", "group", "nsswitch.conf", "ssl", "alternatives"]

/-- What a slim image may lack. -/
def etcOptional : List String :=
  ["ld.so.cache", "localtime", "terminfo", "gitconfig", "os-release", "willie/zsh"]

/-- Privilege escalation helpers, hidden. -/
def masked : List Path := ["/usr/bin/sudo"]

def usrLinks : List (Path × Path) :=
  [("usr/bin", "/bin"), ("usr/lib", "/lib"), ("usr/lib64", "/lib64"), ("usr/sbin", "/sbin")]

/-- What every session starts from. -/
def baseArgs : List String :=
  ["--unshare-user", "--unshare-pid", "--unshare-ipc", "--unshare-uts", "--disable-userns",
    "--die-with-parent"] ++ ["--clearenv"]

/-- The mounts no policy changes. -/
def baseMountArgs : List String :=
  ["--ro-bind", "/usr", "/usr"] ++
    usrLinks.flatMap (fun (target, link) => ["--symlink", target, link]) ++
    etc.flatMap (fun name => ["--ro-bind", "/etc/" ++ name, "/etc/" ++ name]) ++
    etcOptional.flatMap (fun name => ["--ro-bind-try", "/etc/" ++ name, "/etc/" ++ name]) ++
    ["--proc", "/proc", "--dev", "/dev", "--tmpfs", "/tmp"] ++
    masked.flatMap (fun path => ["--ro-bind", "/dev/null", path])

/-- The option of a bind. -/
def bindFlag : PathMode → Bool → String
  | .ro, false => "--ro-bind"
  | .ro, true => "--ro-bind-try"
  | .rw, false => "--bind"
  | .rw, true => "--bind-try"

def Op.render : Op → List String
  | .tmpfs dest perms => ["--perms", perms, "--tmpfs", dest]
  | .bind src dest mode optional => [bindFlag mode optional, src, dest]
  | .symlink target link => ["--symlink", target, link]

/-- The complete command line. -/
def argv (plan : Plan) (innerFd : Int) : List String :=
  bwrap :: baseArgs ++
    plan.env.flatMap (fun (key, value) => ["--setenv", key, value]) ++
    baseMountArgs ++
    plan.ops.flatMap Op.render ++
    ["--chdir", plan.workspace, "--", plan.innerExe, "--inner", toString innerFd]

/-! ## Reading it -/

/-- How many values an option takes. -/
def arity (option : String) : Option Nat :=
  if option ∈ ["--unshare-user", "--unshare-pid", "--unshare-ipc", "--unshare-uts",
      "--disable-userns", "--die-with-parent", "--clearenv"] then some 0
  else if option ∈ ["--proc", "--dev", "--tmpfs", "--chdir", "--perms"] then some 1
  else if option ∈ ["--ro-bind", "--ro-bind-try", "--bind", "--bind-try", "--symlink",
      "--setenv"] then some 2
  else none

/-- The options up to a `--` in an option's place, and the command after. -/
def parseOptions : List String → Option (List HelperOption × List String)
  | [] => none
  | option :: rest =>
    if option = "--" then some ([], rest)
    else
      match arity option with
      | some n =>
        if rest.length < n then none
        else
          (parseOptions (rest.drop n)).map fun (options, command) =>
            ((option, rest.take n) :: options, command)
      | none => none
  termination_by v => v.length
  decreasing_by exact Nat.lt_succ_of_le (List.drop_sublist n rest).length_le

def parse : List String → Option (List HelperOption × List String)
  | helper :: rest => if helper = bwrap then parseOptions rest else none
  | [] => none

/-- An option as it stands in the vector. -/
def written (option : HelperOption) : List String := option.1 :: option.2

/-- An option that has as many values as it takes. -/
def Sized (option : HelperOption) : Prop :=
  option.1 ≠ "--" ∧ arity option.1 = some option.2.length

instance (option : HelperOption) : Decidable (Sized option) :=
  inferInstanceAs (Decidable (_ ∧ _))

/-- **Options read back as they were written**, whatever their values. -/
theorem parseOptions_written {options : List HelperOption} (h : ∀ o ∈ options, Sized o)
    (command : List String) :
    parseOptions (options.flatMap written ++ "--" :: command) = some (options, command) := by
  induction options with
  | nil => simp [parseOptions]
  | cons o options ih =>
    obtain ⟨⟨hdash, harity⟩, hrest⟩ := List.forall_mem_cons.mp h
    simp only [List.flatMap_cons, written, List.cons_append, List.append_assoc]
    rw [parseOptions, if_neg hdash, harity]
    simp only [List.length_append]
    rw [if_neg (by omega), List.drop_left, List.take_left, ih hrest, Option.map_some]

/-! ## The options of a plan -/

def setenvOption (entry : String × String) : HelperOption := ("--setenv", [entry.1, entry.2])

/-- The options of an op: its mode and its optionality are in the option. -/
def Op.options : Op → List HelperOption
  | .tmpfs dest perms => [("--perms", [perms]), ("--tmpfs", [dest])]
  | .bind src dest mode optional => [(bindFlag mode optional, [src, dest])]
  | .symlink target link => [("--symlink", [target, link])]

def baseOptions : List HelperOption :=
  [("--unshare-user", []), ("--unshare-pid", []), ("--unshare-ipc", []), ("--unshare-uts", []),
    ("--disable-userns", []), ("--die-with-parent", []), ("--clearenv", [])]

def baseMounts : List HelperOption :=
  ("--ro-bind", ["/usr", "/usr"]) ::
    usrLinks.map (fun (target, link) => ("--symlink", [target, link])) ++
    etc.map (fun name => ("--ro-bind", ["/etc/" ++ name, "/etc/" ++ name])) ++
    etcOptional.map (fun name => ("--ro-bind-try", ["/etc/" ++ name, "/etc/" ++ name])) ++
    [("--proc", ["/proc"]), ("--dev", ["/dev"]), ("--tmpfs", ["/tmp"])] ++
    masked.map (fun path => ("--ro-bind", ["/dev/null", path]))

/-- The options of a plan, in order. -/
def planOptions (plan : Plan) : List HelperOption :=
  baseOptions ++ plan.env.map setenvOption ++ baseMounts ++ plan.ops.flatMap Op.options ++
    [("--chdir", [plan.workspace])]

theorem written_options (op : Op) : op.options.flatMap written = op.render := by
  cases op <;> rfl

theorem sized_options (op : Op) : ∀ o ∈ op.options, Sized o := by
  cases op with
  | bind src dest mode optional =>
    cases mode <;> cases optional <;> simp [Op.options, Sized, arity, bindFlag]
  | _ => simp [Op.options, Sized, arity]

theorem sized_planOptions (plan : Plan) : ∀ o ∈ planOptions plan, Sized o := by
  have hbase : ∀ o ∈ baseOptions, Sized o := by decide
  have hmounts : ∀ o ∈ baseMounts, Sized o := by decide
  simp only [planOptions, List.forall_mem_append]
  refine ⟨⟨⟨⟨hbase, ?_⟩, hmounts⟩, ?_⟩, ?_⟩
  · intro o ho
    obtain ⟨entry, -, rfl⟩ := List.mem_map.mp ho
    simp [setenvOption, Sized, arity]
  · intro o ho
    obtain ⟨op, -, ho⟩ := List.mem_flatMap.mp ho
    exact sized_options op o ho
  · simp [Sized, arity]

/-- The vector is its options written out, and the command. -/
theorem argv_eq (plan : Plan) (innerFd : Int) :
    argv plan innerFd = bwrap :: ((planOptions plan).flatMap written ++
      "--" :: [plan.innerExe, "--inner", toString innerFd]) := by
  have hbase : baseOptions.flatMap written = baseArgs := by decide
  have hmounts : baseMounts.flatMap written = baseMountArgs := by decide
  have henv : (plan.env.map setenvOption).flatMap written =
      plan.env.flatMap (fun (key, value) => ["--setenv", key, value]) := by
    rw [List.flatMap_map]
    rfl
  have hops : (plan.ops.flatMap Op.options).flatMap written = plan.ops.flatMap Op.render := by
    rw [List.flatMap_assoc]
    exact congrArg₂ _ (funext written_options) rfl
  simp only [argv, planOptions, List.flatMap_append, hbase, hmounts, henv, hops]
  simp [written]

theorem parse_argv (plan : Plan) (innerFd : Int) :
    parse (argv plan innerFd) =
      some (planOptions plan, [plan.innerExe, "--inner", toString innerFd]) := by
  rw [argv_eq, parse, if_pos rfl, parseOptions_written (sized_planOptions plan)]

/-! ## What the options determine -/

theorem bindFlag_inj {m m' : PathMode} {o o' : Bool} (h : bindFlag m o = bindFlag m' o') :
    m = m' ∧ o = o' := by
  cases m <;> cases o <;> cases m' <;> cases o' <;> simp_all [bindFlag]

theorem bindFlag_ne (m : PathMode) (o : Bool) :
    bindFlag m o ≠ "--perms" ∧ bindFlag m o ≠ "--symlink" ∧ bindFlag m o ≠ "--chdir" := by
  cases m <;> cases o <;> decide

/-- The first op is told by its options. -/
theorem options_append_inj {op op' : Op} {rest rest' : List HelperOption}
    (h : op.options ++ rest = op'.options ++ rest') : op = op' ∧ rest = rest' := by
  cases op with
  | tmpfs dest perms =>
    cases op' with
    | tmpfs dest' perms' => simp_all [Op.options]
    | bind src dest mode optional =>
      have := (bindFlag_ne mode optional).1
      simp_all [Op.options]
    | symlink target link => simp [Op.options] at h
  | bind src dest mode optional =>
    obtain ⟨hperms, hsymlink, -⟩ := bindFlag_ne mode optional
    cases op' with
    | tmpfs dest' perms' => simp_all [Op.options]
    | bind src' dest' mode' optional' =>
      simp only [Op.options, List.singleton_append, List.cons.injEq, Prod.mk.injEq, and_true] at h
      obtain ⟨⟨hflag, rfl, rfl⟩, rfl⟩ := h
      obtain ⟨rfl, rfl⟩ := bindFlag_inj hflag
      exact ⟨rfl, rfl⟩
    | symlink target link => simp_all [Op.options]
  | symlink target link =>
    cases op' with
    | tmpfs dest' perms' => simp [Op.options] at h
    | bind src dest mode optional =>
      have := (bindFlag_ne mode optional).2.1
      simp_all [Op.options]
    | symlink target' link' => simp_all [Op.options]

theorem options_ne_chdir (op : Op) (rest : List HelperOption) (ws : Path) :
    op.options ++ rest ≠ [("--chdir", [ws])] := by
  cases op with
  | bind src dest mode optional =>
    have := (bindFlag_ne mode optional).2.2
    simp [Op.options, this]
  | _ => simp [Op.options]

/-- The ops and the working directory are told by their options. -/
theorem ops_inj {ops ops' : List Op} {ws ws' : Path}
    (h : ops.flatMap Op.options ++ [("--chdir", [ws])] =
      ops'.flatMap Op.options ++ [("--chdir", [ws'])]) : ops = ops' ∧ ws = ws' := by
  induction ops generalizing ops' with
  | nil =>
    cases ops' with
    | nil => simpa using h
    | cons op' ops' =>
      rw [List.flatMap_cons, List.append_assoc] at h
      exact absurd h.symm (options_ne_chdir _ _ _)
  | cons op ops ih =>
    cases ops' with
    | nil =>
      rw [List.flatMap_cons, List.append_assoc] at h
      exact absurd h (options_ne_chdir _ _ _)
    | cons op' ops' =>
      simp only [List.flatMap_cons, List.append_assoc] at h
      obtain ⟨rfl, hrest⟩ := options_append_inj h
      obtain ⟨rfl, hws⟩ := ih hrest
      exact ⟨rfl, hws⟩

/-- The environment is what comes before the base mounts. -/
theorem env_inj {env env' : List (String × String)} {rest rest' : List HelperOption}
    (h : env.map setenvOption ++ (baseMounts ++ rest) =
      env'.map setenvOption ++ (baseMounts ++ rest')) : env = env' ∧ rest = rest' := by
  induction env generalizing env' with
  | nil =>
    cases env' with
    | nil => exact ⟨rfl, List.append_cancel_left h⟩
    | cons entry env' => simp [baseMounts, setenvOption] at h
  | cons entry env ih =>
    cases env' with
    | nil => simp [baseMounts, setenvOption] at h
    | cons entry' env' =>
      obtain ⟨hentry, hrest⟩ := List.cons.inj h
      obtain ⟨rfl, htail⟩ := ih hrest
      refine ⟨?_, htail⟩
      simp only [setenvOption, Prod.mk.injEq, List.cons.injEq, true_and, and_true] at hentry
      rw [Prod.ext_iff.mpr hentry]

/-- **The vector is injection-free.** Read by the options' arities it gives
back the base, the environment in order, the base mounts, the plan's ops and
the working directory, and the command; so two plans with one vector have
the same environment, ops, workspace and inner binary. -/
theorem argv_recovered (plan : Plan) (innerFd : Int) :
    parse (argv plan innerFd) =
        some (baseOptions ++ plan.env.map setenvOption ++ baseMounts ++
          plan.ops.flatMap Op.options ++ [("--chdir", [plan.workspace])],
          [plan.innerExe, "--inner", toString innerFd]) ∧
      ∀ plan' innerFd', argv plan innerFd = argv plan' innerFd' →
        plan.env = plan'.env ∧ plan.ops = plan'.ops ∧ plan.workspace = plan'.workspace ∧
          plan.innerExe = plan'.innerExe := by
  refine ⟨parse_argv plan innerFd, fun plan' innerFd' h => ?_⟩
  have hparse := congrArg parse h
  rw [parse_argv, parse_argv] at hparse
  obtain ⟨hopts, hcommand⟩ := Prod.mk.inj (Option.some.inj hparse)
  simp only [planOptions, List.append_assoc, List.append_cancel_left_eq] at hopts
  obtain ⟨henv, hrest⟩ := env_inj hopts
  obtain ⟨hops, hws⟩ := ops_inj hrest
  exact ⟨henv, hops, hws, (List.cons.inj hcommand).1⟩

end Sandbox
end Willie
