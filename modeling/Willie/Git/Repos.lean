import Willie.Common.Dag

/-!
# Git — the two repositories

A project is a checkout on Windows and a workspace cloned from it. All their
commits, those still to be made with them, are one history, for a commit's
id is made from what it is. This module has the commands the daemon runs on
the two, each as documented: it answers, or it fails and changes nothing.
What else happens on the Windows side is a person's `Move`.
-/

namespace Willie
namespace Git

/-- A branch's name; `HEAD` is none. -/
@[ext] structure Branch where
  name : String
  allowed : name ≠ "HEAD"
  deriving DecidableEq

/-- What a checkout has checked out. -/
inductive Head (κ : Type) where
  | branch (b : Branch)
  | detached (c : κ)
  deriving DecidableEq

/-- The files of a checkout: what a commit has, or something else. -/
inductive Tree (κ : Type) where
  | of (c : Option κ)
  | edited (n : ℕ)
  deriving DecidableEq

/-- The checkout on Windows. It takes pushes into the branch it is on. -/
structure Windows (κ : Type) where
  /-- It has a `.git`. -/
  isRepo : Bool
  branches : Branch → Option κ
  head : Head κ
  tree : Tree κ

/-- The workspace: the commit it is on, and the Windows branches as it last
fetched them. -/
structure Workspace (κ : Type) where
  head : κ
  tracking : Branch → Option κ

structure Repos (κ : Type) where
  windows : Windows κ
  workspace : Workspace κ

variable {κ : Type} [DecidableEq κ] (D : Dag κ)

/-! ## On the Windows checkout -/

/-- The commit the checkout is on; a branch without commits has none. -/
def Windows.commit (w : Windows κ) : Option κ :=
  match w.head with
  | .branch b => w.branches b
  | .detached c => some c

/-- `git status --porcelain` prints nothing. -/
def Windows.isClean (w : Windows κ) : Bool := w.tree = .of w.commit

/-- `git rev-parse --abbrev-ref HEAD`, which fails where there is no commit. -/
def Windows.abbrevRef (w : Windows κ) : Option String :=
  match w.head with
  | .branch b => (w.branches b).map fun _ => b.name
  | .detached _ => some "HEAD"

/-- **Being pushed to.** Only a commit the branch's tip leads to is taken,
and into the branch that is checked out only over files without changes,
which are updated with it. -/
def Windows.receive (b : Branch) (c : κ) (w : Windows κ) : Option (Windows κ) :=
  if w.branches b = some c then some w
  else if ∃ tip ∈ w.branches b, ¬ D.Ancestor tip c then none
  else if w.head = .branch b then
    if w.isClean then
      some { w with branches := Function.update w.branches b (some c), tree := .of (some c) }
    else none
  else some { w with branches := Function.update w.branches b (some c) }

/-! ## In the workspace -/

/-- `git fetch windows` -/
def Repos.fetch (r : Repos κ) : Option (Repos κ) :=
  if r.windows.isRepo then
    some { r with
      workspace.tracking := fun b => (r.windows.branches b).or (r.workspace.tracking b) }
  else none

/-- `git rev-list --count windows/b ^HEAD` -/
def Repos.revList (b : Branch) (r : Repos κ) : Option ℕ :=
  (r.workspace.tracking b).map fun tip => (D.beyond tip r.workspace.head).length

/-- `git merge-base --is-ancestor HEAD windows/b`, or of the two the other way
round: whether it succeeds. -/
def Repos.isAncestor (b : Branch) (fromHead : Bool) (r : Repos κ) : Bool :=
  match r.workspace.tracking b with
  | some tip =>
    if fromHead then D.Ancestor r.workspace.head tip else D.Ancestor tip r.workspace.head
  | none => false

/-- `git merge --ff-only windows/b` -/
def Repos.mergeFfOnly (b : Branch) (r : Repos κ) : Option (Repos κ) :=
  match r.workspace.tracking b with
  | some tip =>
    if D.Ancestor tip r.workspace.head then some r
    else if D.Ancestor r.workspace.head tip then some { r with workspace.head := tip }
    else none
  | none => none

/-- `git push windows HEAD:b` -/
def Repos.push (b : Branch) (r : Repos κ) : Option (Repos κ) :=
  if r.windows.isRepo then
    (r.windows.receive D b r.workspace.head).map fun w => { r with windows := w }
  else none

/-! ## A person at the Windows checkout -/

/-- What a person does there. To commit on the branch that is checked out is
to advance it and to have its files. -/
inductive Move (κ : Type) where
  /-- Adds commits to a branch, up to `c`; a new branch starts there. -/
  | advance (b : Branch) (c : κ)
  | checkout (h : Head κ)
  | edit (t : Tree κ)

def Windows.move (w : Windows κ) : Move κ → Windows κ
  | .advance b c =>
    -- a commit that leaves the tip behind is not added to the branch
    if ∃ tip ∈ w.branches b, ¬ D.Ancestor tip c then w
    else { w with branches := Function.update w.branches b (some c) }
  | .checkout h => { w with head := h }
  | .edit t => { w with tree := t }

def Windows.play (w : Windows κ) (ms : List (Move κ)) : Windows κ := ms.foldl (·.move D) w

def Repos.play (r : Repos κ) (ms : List (Move κ)) : Repos κ :=
  { r with windows := r.windows.play D ms }

variable {D} {w w' : Windows κ} {r r' : Repos κ} {b : Branch} {c tip : κ} {ms ms' : List (Move κ)}
  {m : Move κ}

@[simp] theorem play_nil : w.play D [] = w := rfl

theorem play_append : w.play D (ms ++ ms') = (w.play D ms).play D ms' := List.foldl_append

theorem isRepo_move : (w.move D m).isRepo = w.isRepo := by
  cases m with
  | advance b c =>
    simp only [Windows.move]
    split <;> rfl
  | checkout | edit => rfl

@[simp] theorem isRepo_play : (w.play D ms).isRepo = w.isRepo := by
  induction ms generalizing w with
  | nil => rfl
  | cons m ms ih => exact ih.trans isRepo_move

@[simp] theorem repos_play_nil : r.play D [] = r := rfl

@[simp] theorem play_windows : (r.play D ms).windows = r.windows.play D ms := rfl

@[simp] theorem play_workspace : (r.play D ms).workspace = r.workspace := rfl

@[simp] theorem play_play : (r.play D ms).play D ms' = r.play D (ms ++ ms') := by
  simp only [Repos.play, play_append]

/-! ## Forward only -/

omit [DecidableEq κ] in
/-- It prints the name of a branch that is checked out and has commits. -/
theorem abbrevRef_eq : w.abbrevRef = some b.name ↔
    w.head = .branch b ∧ ∃ tip, w.branches b = some tip := by
  unfold Windows.abbrevRef
  cases w.head with
  | branch b' =>
    simp only [Option.map_eq_some_iff, Head.branch.injEq]
    constructor
    · rintro ⟨tip, htip, hname⟩
      obtain rfl := Branch.ext hname
      exact ⟨rfl, tip, htip⟩
    · rintro ⟨rfl, tip, htip⟩
      exact ⟨tip, htip, rfl⟩
  | detached c =>
    refine iff_of_false (fun h => ?_) (fun h => by cases h.1)
    exact b.allowed (Option.some.inj h).symm

/-- What is not left behind is an ancestor. -/
theorem ancestor_of_not_behind (h : ¬ ∃ tip ∈ w.branches b, ¬ D.Ancestor tip c)
    (htip : w.branches b = some tip) : D.Ancestor tip c := by
  by_contra hnot
  exact h ⟨tip, htip, hnot⟩

theorem forward_move : D.Forward w.branches (w.move D m).branches := by
  cases m with
  | advance b c =>
    simp only [Windows.move]
    split
    · exact .refl
    · rename_i h
      exact Dag.forward_update fun tip htip => ancestor_of_not_behind h htip
  | checkout | edit => exact .refl

theorem forward_play : D.Forward w.branches (w.play D ms).branches := by
  induction ms generalizing w with
  | nil => exact .refl
  | cons m ms ih => exact forward_move.trans ih

/-- A branch that is there stays. -/
theorem tip_play (h : (w.play D ms).branches b = some tip) (ms' : List (Move κ)) :
    ∃ tip', (w.play D (ms ++ ms')).branches b = some tip' := by
  obtain ⟨tip', htip', -⟩ := forward_play b tip h
  exact ⟨tip', by rw [play_append, htip']⟩

/-- **A push goes forward.** The branch was behind what it is set to. -/
theorem receive_spec (h : w.receive D b c = some w') :
    w'.branches = Function.update w.branches b (some c) ∧ w'.head = w.head ∧
      ∀ tip, w.branches b = some tip → D.Ancestor tip c := by
  unfold Windows.receive at h
  split at h
  · rename_i hsame
    obtain rfl := Option.some.inj h
    refine ⟨?_, rfl, fun tip htip => ?_⟩
    · rw [← hsame, Function.update_eq_self]
    · obtain rfl := Option.some.inj (htip.symm.trans hsame)
      exact .refl
  split at h
  · cases h
  rename_i hbehind
  refine ⟨?_, ?_, fun tip htip => ancestor_of_not_behind hbehind htip⟩
  all_goals
    split at h
    · split at h
      · obtain rfl := Option.some.inj h
        rfl
      · cases h
    · obtain rfl := Option.some.inj h
      rfl

theorem forward_receive (h : w.receive D b c = some w') : D.Forward w.branches w'.branches := by
  obtain ⟨hbranches, -, hbehind⟩ := receive_spec h
  rw [hbranches]
  exact Dag.forward_update hbehind

/-- A checkout without changes takes what its branch leads to. -/
theorem receive_isSome (hon : w.head = .branch b) (hclean : w.isClean)
    (hbehind : ∀ tip, w.branches b = some tip → D.Ancestor tip c) :
    (w.receive D b c).isSome := by
  have hnot : ¬ ∃ tip ∈ w.branches b, ¬ D.Ancestor tip c := by
    rintro ⟨tip, htip, h⟩
    exact h (hbehind tip htip)
  by_cases hsame : w.branches b = some c
  · rw [Windows.receive, if_pos hsame]
    rfl
  · rw [Windows.receive, if_neg hsame, if_neg hnot, if_pos hon, if_pos hclean]
    rfl

theorem push_spec (h : r.push D b = some r') :
    r.windows.receive D b r.workspace.head = some r'.windows ∧ r'.workspace = r.workspace := by
  unfold Repos.push at h
  split at h
  · obtain ⟨w, hw, rfl⟩ := Option.map_eq_some_iff.mp h
    exact ⟨hw, rfl⟩
  · cases h

omit [DecidableEq κ] in
theorem fetch_spec (h : r.fetch = some r') :
    r'.windows = r.windows ∧ r'.workspace.head = r.workspace.head ∧
      ∀ b tip, r.windows.branches b = some tip → r'.workspace.tracking b = some tip := by
  unfold Repos.fetch at h
  split at h
  · obtain rfl := Option.some.inj h
    exact ⟨rfl, rfl, fun b tip htip => by simp [htip]⟩
  · cases h

/-- **A fast-forward goes forward**, and has what it was to have. -/
theorem mergeFfOnly_spec (h : r.mergeFfOnly D b = some r') :
    r'.windows = r.windows ∧ r'.workspace.tracking = r.workspace.tracking ∧
      D.Ancestor r.workspace.head r'.workspace.head ∧
      ∃ tip, r.workspace.tracking b = some tip ∧ D.Ancestor tip r'.workspace.head := by
  unfold Repos.mergeFfOnly at h
  split at h
  · rename_i tip htip
    split at h
    · rename_i hbehind
      obtain rfl := Option.some.inj h
      exact ⟨rfl, rfl, .refl, tip, htip, hbehind⟩
    · split at h
      · rename_i hahead
        obtain rfl := Option.some.inj h
        exact ⟨rfl, rfl, hahead, tip, htip, .refl⟩
      · cases h
  · cases h

end Git
end Willie
