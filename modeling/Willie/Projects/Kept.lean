import Mathlib.Logic.Function.Basic
import Willie.Common.Runs
import Willie.Projects.Store

/-!
# Projects — the store round-trips

The daemon loads, edits and saves, and may end between any two steps of a
save. In a store whose files are named after the ids they hold, and where a
save can read the file whose sandbox value it has to keep, each id whose file
a load can read loads as it was last saved, and a sandbox value that is no
profile stays where it is (`store_kept`). A record from a file of another name
is saved beside that file, with the default profile
(`unread_sandbox_loosened`).
-/

namespace Willie
namespace Projects

open Toml (Table)

section Step

variable {V : Type} (c : Codec V)

/-- The daemon's index and its files, and what these should load as: the
record of each id that was saved last, and the sandbox value a person wrote
that was not replaced. -/
structure Keeping (V : Type) where
  files : Files
  held : ProjectMap
  saved : ProjectId → Option Project
  own : ProjectId → Option V

/-- A daemon that has loaded the files it can read. -/
def Keeping.start (reads : Reads) (files : Files) : Keeping V where
  files
  held := index (c.loadAll reads files)
  saved id := (index (c.loadAll .all files)).lookup id
  own id := (((c.rows .all files).filter fun r =>
    r.1.id = id ∧ r.1.sandboxProblem ≠ none).getLast?).bind (·.2)

/-- What may be saved: a new record, one whose sandbox is being replaced, or
the held one with other fields changed. -/
def allowed (held : ProjectMap) (p : Project) : Bool :=
  match held.lookup p.id with
  | none => p.sandboxProblem = none
  | some q => p.sandboxProblem = none ∨
      (p.sandboxProblem = q.sandboxProblem ∧ p.sandbox = q.sandbox)

/-- What the daemon does: it starts again, it saves and goes on (with the
record in its index if the save was completed, or if it keeps it whatever the
save did), or it ends in a save and starts again. `readable` tells whether the
save can read the file it replaces, `reads` what a start can read. -/
inductive Move where
  | restart (reads : Reads)
  | save (p : Project) (readable : Bool) (fate : Fate) (keep : Bool)
  | crash (p : Project) (readable : Bool) (fate : Fate) (reads : Reads)

/-- What a save leaves on disk. -/
def Keeping.saving (d : Keeping V) (p : Project) (readable : Bool) (fate : Fate) : Keeping V :=
  let (files, done) := c.save d.files p readable fate
  if done then
    { d with
      files
      saved := Function.update d.saved p.id (some p)
      own := if p.sandboxProblem = none then Function.update d.own p.id none else d.own }
  else { d with files }

def Keeping.restart (d : Keeping V) (reads : Reads) : Keeping V :=
  { d with held := index (c.loadAll reads d.files) }

def Keeping.step (d : Keeping V) : Move → Option (Keeping V)
  | .restart reads => some (d.restart c reads)
  | .save p readable fate keep =>
    if allowed d.held p then
      let done := (c.save d.files p readable fate).2
      let held := if done || keep then d.held.insert p.id p else d.held
      some { d.saving c p readable fate with held }
    else none
  | .crash p readable fate reads =>
    if allowed d.held p then some ((d.saving c p readable fate).restart c reads) else none

/-- A save of a record with a problem can read the record's file. -/
def Move.Reads : Move → Prop
  | .restart _ => True
  | .save p readable .. | .crash p readable .. => p.sandboxProblem ≠ none → readable = true

/-- **The store keeps what it is given**: each id whose file a load can read
loads as the record that was saved last, and a person's own sandbox value is
in its file, and told of. -/
structure Keeping.Kept (d : Keeping V) : Prop where
  round_trip : ∀ reads id, c.Opens reads id →
    (c.loadAll reads d.files).filter (·.id = id) = (d.saved id).toList
  own : ∀ reads id v, c.Opens reads id → d.own id = some v →
    ∃ p, (c.rows reads d.files).filter (·.1.id = id) = [(p, some v)] ∧ p.sandboxProblem ≠ none

/-! ## What every move keeps -/

/-- A record that is held with a problem is that of a file whose sandbox value
is no profile. -/
def Codec.Backs (files : Files) (q : Project) : Prop :=
  ∃ r v e, c.onDisk files q.id = some (r, some v) ∧ c.readProfile v = .error e ∧
    q.sandboxProblem = some (problemOf e) ∧ q.sandbox = {}

structure Keeping.Inv (d : Keeping V) : Prop where
  named : c.Named d.files
  saved : ∀ id, d.saved id = (c.onDisk d.files id).map (·.1)
  own : ∀ id v, d.own id = some v →
    ∃ p, c.onDisk d.files id = some (p, some v) ∧ p.sandboxProblem ≠ none
  held : ∀ id q, d.held.lookup id = some q → q.id = id ∧
    (q.sandboxProblem ≠ none → c.Backs d.files q)

end Step

variable {V : Type} {c : Codec V} {d d' : Keeping V} {files : Files} {p q : Project}
variable {id : ProjectId} {readable : Bool} {fate : Fate} {move : Move} {moves : List Move}
variable {text : List Char} {bytes : Bytes} {reads : Reads}

theorem Keeping.Inv.kept (h : d.Inv c) (hc : c.Lawful) : d.Kept c where
  round_trip reads id hopens := by
    rw [c.filter_loadAll, h.named.rows hc hopens, h.saved id]
    cases c.onDisk d.files id <;> rfl
  own reads id v hopens hv := by
    obtain ⟨p, hdisk, hproblem⟩ := h.own id v hv
    exact ⟨p, by rw [h.named.rows hc hopens, hdisk]; rfl, hproblem⟩

/-- What a restart holds. -/
theorem Codec.Named.backs (h : c.Named files) (hc : c.Lawful)
    (hq : (index (c.loadAll reads files)).lookup id = some q) :
    q.id = id ∧ (q.sandboxProblem ≠ none → c.Backs files q) := by
  obtain ⟨⟨q', raw⟩, hdisk, rfl⟩ := Option.map_eq_some_iff.mp (h.of_index_lookup hc hq)
  have hid : q'.id = id := h.onDisk_id hc hdisk
  refine ⟨hid, fun hproblem => ?_⟩
  obtain ⟨bytes, -, hrow⟩ := Option.bind_eq_some_iff.mp hdisk
  obtain ⟨v, e, rfl, hread, hp, hs⟩ := hc.readRow_unreadable hrow hproblem
  exact ⟨q', v, e, by rw [hid]; exact hdisk, hread, hp, hs⟩

theorem Keeping.Inv.restart (h : d.Inv c) (hc : c.Lawful) : (d.restart c reads).Inv c where
  named := h.named
  saved := h.saved
  own := h.own
  held _ _ hq := h.named.backs hc hq

theorem Keeping.Inv.start (hc : c.Lawful) (h : c.Named files) :
    (Keeping.start c reads files).Inv c where
  named := h
  saved _ := h.index_lookup hc c.opens_all
  own id v hv := by
    have hfilter : (c.rows .all files).filter
        (fun r => r.1.id = id ∧ r.1.sandboxProblem ≠ none) =
        (c.onDisk files id).toList.filter (fun r => r.1.sandboxProblem ≠ none) := by
      rw [← h.rows hc c.opens_all, List.filter_filter]
      exact List.filter_congr fun r _ => by simp [Bool.and_comm]
    obtain ⟨⟨p, raw⟩, hlast, rfl⟩ := Option.bind_eq_some_iff.mp hv
    rw [hfilter] at hlast
    obtain ⟨hdisk, hproblem⟩ := List.mem_filter.mp (List.mem_of_getLast? hlast)
    exact ⟨p, Option.mem_toList.mp hdisk, by simpa using hproblem⟩
  held _ _ hq := h.backs hc hq

/-! ## Files that are written -/

theorem onDisk_tmp (hc : c.Lawful) :
    c.onDisk (files.insert (c.tmpName p.id) bytes) id = c.onDisk files id := by
  rw [Codec.onDisk, AList.lookup_insert_ne hc.fileName_ne_tmpName]
  rfl

theorem onDisk_renamed (hc : c.Lawful) :
    c.onDisk ((files.erase (c.tmpName p.id)).insert (c.fileName p.id) bytes) id =
      if id = p.id then c.readRow bytes else c.onDisk files id := by
  unfold Codec.onDisk
  split_ifs with hid
  · rw [hid, AList.lookup_insert]
    rfl
  · have hname : c.fileName id ≠ c.fileName p.id := fun h => hid (hc.fileName_injective h)
    rw [AList.lookup_insert_ne hname, AList.lookup_erase_ne hc.fileName_ne_tmpName]

theorem Codec.Named.tmp (h : c.Named files) :
    c.Named (files.insert (c.tmpName p.id) bytes) := by
  intro name bytes' r hlookup htoml hrow
  by_cases hname : name = c.tmpName p.id
  · rw [hname, isToml_tmpName] at htoml
    cases htoml
  · rw [AList.lookup_insert_ne hname] at hlookup
    exact h name bytes' r hlookup htoml hrow

theorem Codec.Named.renamed (h : c.Named files) {raw : Option V}
    (hp : c.readRow bytes = some (p, raw)) :
    c.Named ((files.erase (c.tmpName p.id)).insert (c.fileName p.id) bytes) := by
  intro name bytes' r hlookup htoml hrow
  by_cases hname : name = c.fileName p.id
  · rw [hname, AList.lookup_insert, Option.some.injEq] at hlookup
    rw [← hlookup, hp, Option.some.injEq] at hrow
    rw [hname, ← hrow]
  · rw [AList.lookup_insert_ne hname] at hlookup
    by_cases htmp : name = c.tmpName p.id
    · rw [htmp, AList.lookup_erase] at hlookup
      cases hlookup
    · rw [AList.lookup_erase_ne htmp] at hlookup
      exact h name bytes' r hlookup htoml hrow

/-- **What a save is**: the files are as they were, or the temporary one is
new, or the record's file is what was printed. -/
theorem Codec.save_cases (c : Codec V) (files : Files) (p : Project) (readable : Bool)
    (fate : Fate) :
    (c.save files p readable fate = (files, false)) ∨
    (∃ bytes, c.save files p readable fate = (files.insert (c.tmpName p.id) bytes, false)) ∨
    ∃ text, c.document files p readable = some text ∧ c.save files p readable fate =
      ((files.erase (c.tmpName p.id)).insert (c.fileName p.id) (Utf8.encode text), true) := by
  unfold Codec.save
  split
  · exact .inr (.inl ⟨_, rfl⟩)
  · rename_i text hdoc
    exact .inr (.inr ⟨text, hdoc, rfl⟩)
  · exact .inl rfl

/-- A held record with a problem is saved with the value of its file. -/
theorem Codec.Backs.oldSandbox (h : c.Backs files q) :
    ∃ r v e, c.onDisk files q.id = some (r, some v) ∧ c.oldSandbox files q.id true = some v ∧
      c.readProfile v = .error e ∧ q.sandboxProblem = some (problemOf e) ∧ q.sandbox = {} := by
  obtain ⟨r, v, e, hdisk, hread, hp, hs⟩ := h
  refine ⟨r, v, e, hdisk, ?_, hread, hp, hs⟩
  obtain ⟨bytes, hlookup, hrow⟩ := Option.bind_eq_some_iff.mp hdisk
  obtain ⟨t, ht, hrow⟩ := Option.bind_eq_some_iff.mp hrow
  obtain ⟨r', -, hpair⟩ := Option.map_eq_some_iff.mp hrow
  have hraw : t.get? "sandbox" = some v := (Prod.mk.inj hpair).2
  rw [Codec.oldSandbox, if_pos rfl, hlookup, Option.bind_some, ht, Option.bind_some, hraw]

/-- What may be saved with a problem is backed by its file. -/
theorem Keeping.Inv.backs (h : d.Inv c) (hallowed : allowed d.held p = true)
    (hp : p.sandboxProblem ≠ none) : c.Backs d.files p := by
  unfold allowed at hallowed
  cases hheld : d.held.lookup p.id with
  | none => simp [hheld, hp] at hallowed
  | some q =>
    simp only [hheld, hp, false_or, decide_eq_true_eq] at hallowed
    obtain ⟨hproblem, hsandbox⟩ := hallowed
    obtain ⟨hid, hback⟩ := h.held p.id q hheld
    obtain ⟨r, v, e, hdisk, hread, hq, hs⟩ := hback (hproblem ▸ hp)
    exact ⟨r, v, e, hid ▸ hdisk, hread, hproblem.trans hq, hsandbox.trans hs⟩

/-- **What a completed save leaves** is read as the record that was saved,
beside its file's own value if it has a problem. -/
theorem Keeping.Inv.readRow (h : d.Inv c) (hc : c.Lawful) (hallowed : allowed d.held p = true)
    (hreads : p.sandboxProblem ≠ none → readable = true)
    (hdoc : c.document d.files p readable = some text) :
    ∃ v, c.readRow (Utf8.encode text) = some (p, some v) ∧
      (p.sandboxProblem ≠ none → (∃ r, c.onDisk d.files p.id = some (r, some v)) ∧
        ∃ e, c.readProfile v = .error e ∧ p.sandboxProblem = some (problemOf e) ∧
          p.sandbox = {}) := by
  by_cases hp : p.sandboxProblem = none
  · obtain ⟨v, hrow⟩ := hc.readRow_plain hp hdoc
    exact ⟨v, hrow, fun hne => absurd hp hne⟩
  · obtain ⟨r, v, e, hdisk, hold, hread, hproblem, hs⟩ := (h.backs hallowed hp).oldSandbox
    obtain rfl := hreads hp
    exact ⟨v, hc.readRow_problem hold hread hproblem hs hdoc, fun _ =>
      ⟨⟨r, hdisk⟩, e, hread, hproblem, hs⟩⟩

/-! ## The moves -/

/-- The index after a save, whether it has the record or not. -/
theorem held_insert {m : ProjectMap} {keep : Bool} {P : ProjectId → Project → Prop}
    (h : ∀ id q, m.lookup id = some q → P id q) (hp : P p.id p) :
    ∀ id q, (if keep then m.insert p.id p else m).lookup id = some q → P id q := by
  intro id q hq
  split_ifs at hq with hkeep
  · by_cases hid : id = p.id
    · rw [hid, AList.lookup_insert, Option.some.injEq] at hq
      rw [hid, ← hq]
      exact hp
    · rw [AList.lookup_insert_ne hid] at hq
      exact h id q hq
  · exact h id q hq

/-- A save that breaks off leaves its temporary file, which nothing reads. -/
theorem Keeping.Inv.broken_off (h : d.Inv c) (hc : c.Lawful) (hallowed : allowed d.held p = true)
    (keep : Bool) : Keeping.Inv c { d with
      files := d.files.insert (c.tmpName p.id) bytes
      held := if keep then d.held.insert p.id p else d.held } := by
  have hdisk (id : ProjectId) : c.onDisk (d.files.insert (c.tmpName p.id) bytes) id =
      c.onDisk d.files id := onDisk_tmp hc
  refine ⟨h.named.tmp, fun id => ?_, fun id v hv => ?_, ?_⟩
  · rw [hdisk id]
    exact h.saved id
  · rw [hdisk id]
    exact h.own id v hv
  · have hbacks : ∀ q, c.Backs d.files q → c.Backs (d.files.insert (c.tmpName p.id) bytes) q := by
      rintro q ⟨r, v, e, hq, hrest⟩
      exact ⟨r, v, e, by rw [hdisk]; exact hq, hrest⟩
    exact held_insert (fun id q hq => ⟨(h.held id q hq).1, fun hp =>
      hbacks q ((h.held id q hq).2 hp)⟩) ⟨rfl, fun hp => hbacks p (h.backs hallowed hp)⟩

/-- A completed save has the record in its file, and in the index. -/
theorem Keeping.Inv.completed (h : d.Inv c) (hc : c.Lawful) (hallowed : allowed d.held p = true)
    (hreads : p.sandboxProblem ≠ none → readable = true)
    (hdoc : c.document d.files p readable = some text) : Keeping.Inv c
      { files := (d.files.erase (c.tmpName p.id)).insert (c.fileName p.id) (Utf8.encode text)
        saved := Function.update d.saved p.id (some p)
        own := if p.sandboxProblem = none then Function.update d.own p.id none else d.own
        held := d.held.insert p.id p } := by
  obtain ⟨v, hrow, hproblem⟩ := h.readRow hc hallowed hreads hdoc
  have hdisk (id : ProjectId) : c.onDisk ((d.files.erase (c.tmpName p.id)).insert
      (c.fileName p.id) (Utf8.encode text)) id =
      if id = p.id then some (p, some v) else c.onDisk d.files id := by
    rw [onDisk_renamed hc, hrow]
  refine ⟨h.named.renamed hrow, fun id => ?_, fun id w hw => ?_, fun id q hq => ?_⟩
  · simp only [hdisk, Function.update_apply]
    split_ifs
    · rfl
    · exact h.saved id
  · -- a value that is a person's own belongs to a record with a problem
    rw [hdisk]
    by_cases hid : id = p.id
    · subst hid
      by_cases hp : p.sandboxProblem = none
      · simp [hp] at hw
      · simp only [hp, if_false] at hw
        obtain ⟨⟨r, hfile⟩, -⟩ := hproblem hp
        obtain ⟨r', hown, -⟩ := h.own _ _ hw
        rw [hfile, Option.some.injEq, Prod.mk.injEq] at hown
        exact ⟨p, by rw [if_pos rfl, hown.2], hp⟩
    · have hown : d.own id = some w := by
        by_cases hp : p.sandboxProblem = none
        · simp only [hp, if_true, Function.update_of_ne hid] at hw
          exact hw
        · simp only [hp, if_false] at hw
          exact hw
      rw [if_neg hid]
      exact h.own id w hown
  · by_cases hid : id = p.id
    · rw [hid, AList.lookup_insert, Option.some.injEq] at hq
      subst hq
      refine ⟨hid.symm, fun hp => ?_⟩
      obtain ⟨-, e, hread, hmessage, hs⟩ := hproblem hp
      exact ⟨p, v, e, by rw [hdisk, if_pos rfl], hread, hmessage, hs⟩
    · rw [AList.lookup_insert_ne hid] at hq
      obtain ⟨hqid, hback⟩ := h.held id q hq
      refine ⟨hqid, fun hp => ?_⟩
      obtain ⟨r, w, e, hfile, hrest⟩ := hback hp
      exact ⟨r, w, e, by rw [hdisk, if_neg (hqid.symm ▸ hid)]; exact hfile, hrest⟩

/-- Every save keeps what holds, with the record in the index if it was
completed, and in any case if it is to be. -/
theorem Keeping.Inv.saving (h : d.Inv c) (hc : c.Lawful) (hallowed : allowed d.held p = true)
    (hreads : p.sandboxProblem ≠ none → readable = true) (keep : Bool) :
    Keeping.Inv c { d.saving c p readable fate with
      held := if (c.save d.files p readable fate).2 || keep then d.held.insert p.id p
        else d.held } := by
  rcases c.save_cases d.files p readable fate with
    hsave | ⟨bytes, hsave⟩ | ⟨text, hdoc, hsave⟩
  · simp only [Keeping.saving, hsave, Bool.false_eq_true, if_false, Bool.false_or]
    exact ⟨h.named, h.saved, h.own, held_insert h.held ⟨rfl, h.backs hallowed⟩⟩
  · simp only [Keeping.saving, hsave, Bool.false_eq_true, if_false, Bool.false_or]
    exact h.broken_off hc hallowed keep
  · simp only [Keeping.saving, hsave, if_true, Bool.true_or]
    exact h.completed hc hallowed hreads hdoc

theorem Keeping.Inv.step (h : d.Inv c) (hc : c.Lawful) (hreads : move.Reads)
    (hstep : d.step c move = some d') : d'.Inv c := by
  cases move with
  | restart reads =>
    obtain rfl := Option.some.inj hstep
    exact h.restart hc
  | save p readable fate keep =>
    rw [Keeping.step] at hstep
    by_cases hallowed : allowed d.held p = true
    · rw [if_pos hallowed] at hstep
      obtain rfl := Option.some.inj hstep
      exact h.saving hc hallowed hreads keep
    · rw [if_neg hallowed] at hstep
      cases hstep
  | crash p readable fate reads =>
    simp only [Keeping.step] at hstep
    split_ifs at hstep with hallowed
    obtain rfl := Option.some.inj hstep
    exact (h.saving hc hallowed hreads true).restart hc

/-- **The store round-trips and loosens nothing**: from a store whose files
are named after the ids they hold, in every run in which the saves of records
with a problem can read the records' files, each id whose file a load can read
loads as the record that was saved last, and a person's sandbox value that is
no profile stays in its file, and is told of, until it is replaced. -/
theorem store_kept (hc : c.Lawful) (hnamed : c.Named files)
    (hrun : Runs.exec (Keeping.step c) (.start c reads files) moves = some d)
    (hreads : Runs.Guarded (Keeping.step c) (fun _ move => move.Reads) (.start c reads files)
      moves) :
    d.Kept c :=
  (Runs.exec_invariant (I := Keeping.Inv c) hrun hreads (.start hc hnamed)
    fun _ _ _ h hok hstep => h.step hc hok hstep).kept hc

/-! ## A store with one project -/

/-- A value without tables in its tables. -/
inductive Flat where
  | string (s : String)
  | boolean (b : Bool)
  | table (entries : List (String × (Bool ⊕ String)))
  deriving DecidableEq

def registered : Project where
  id := 1
  name := "x"
  slug := "x"
  source := "C:\\x"
  workspace := "/home/willie/projects/x"
  branch := "main"
  state := .ready
  sourcePresent := true
  createdAt := "t"
  sandbox := {}
  sandboxProblem := none

/-- What of its table is the same under every name. -/
def fixedFields : Table Flat :=
  [("branch", .string "main"), ("created_at", .string "t"),
   ("id", .string "00000000000000000000000001"), ("slug", .string "x"),
   ("source", .string "C:\\x"), ("source_present", .boolean true),
   ("state", .table [("state", .inr "ready")]),
   ("workspace", .string "/home/willie/projects/x")]

def flatTable (name : String) (sandbox : Flat) : Table Flat :=
  (fixedFields.insert "name" (.string name)).insert "sandbox" sandbox

/-- A sandbox table with a key that is none. -/
def nonsense : Flat := .table [("nonsense", .inl true)]

def flatProfile : Flat → Except String SandboxProfile
  | .table [] => .ok {}
  | .table [("agent_state", .inl b)] => .ok { agentState := some b }
  | .table _ => .error "unknown field"
  | _ => .error "invalid type"

/-- What stands before the name in a file of the record. -/
def textHead : List Char :=
  "branch = \"main\"\ncreated_at = \"t\"\nid = \"00000000000000000000000001\"\nname = \"".toList

/-- What stands between the name and the lines of the sandbox. -/
def textMid : List Char :=
  "\"\nslug = \"x\"\nsource = 'C:\\x'\nsource_present = true\n".toList ++
    "workspace = \"/home/willie/projects/x\"\n\n[sandbox]\n".toList

def textTail : List Char := "\n[state]\nstate = \"ready\"\n".toList

/-- The line of the key that is none. -/
def nonsenseLine : List Char := "nonsense = true\n".toList

/-- A file of the record, by its name and the lines of its sandbox. -/
def flatText (name : Char) (sandbox : List Char) : List Char :=
  textHead ++ name :: (textMid ++ (sandbox ++ textTail))

/-- The files that are written and read here. -/
def flatDocs : List (Table Flat × List Char) :=
  [(flatTable "x" nonsense, flatText 'x' nonsenseLine),
   (flatTable "y" nonsense, flatText 'y' nonsenseLine),
   (flatTable "y" (.table []), flatText 'y' [])]

def hasFixed (t : Table Flat) : Bool :=
  fixedFields.all fun field => t.get? field.1 = some field.2

/-- The record of a table with the fixed fields, by its name and its sandbox. -/
def flatProject : Option Flat → Option Flat → Bool → Option Project
  | some (.string name), none, true => some { registered with name }
  | some (.string name), some v, true =>
    (flatProfile v).toOption.map fun sandbox => { registered with name, sandbox }
  | _, _, _ => none

/-- The library on one project, whatever its name. -/
def flatCodec : Codec Flat where
  parse text := (flatDocs.find? fun doc => doc.2 = text).map (·.1)
  print t := flatDocs.lookup t
  tableOf p :=
    if p = { registered with name := p.name, sandboxProblem := p.sandboxProblem } then
      match p.sandboxProblem with
      | none => some (flatTable p.name (.table []))
      | some e => some ((flatTable p.name (.table [])).insert "sandbox_problem"
          (.table [("code", .inr e.code), ("message", .inr e.message),
            ("remediation", .inr e.remediation)]))
    else none
  readProject t := flatProject (t.get? "name") (t.get? "sandbox") (hasFixed t)
  readProfile := flatProfile
  display id := String.ofList (List.replicate 25 '0' ++ Nat.toDigits 10 id)

theorem flatTable_fixed {name : String} {sandbox : Flat} :
    ∀ field ∈ fixedFields, (flatTable name sandbox).get? field.1 = some field.2 := by
  have hfixed : ∀ field ∈ fixedFields, fixedFields.get? field.1 = some field.2 ∧
      field.1 ≠ "name" ∧ field.1 ≠ "sandbox" := by decide
  intro field hfield
  obtain ⟨hget, hname, hsandbox⟩ := hfixed field hfield
  simp [flatTable, hget, hname, hsandbox]

theorem hasFixed_congr {t u : Table Flat}
    (h : ∀ field ∈ fixedFields, t.get? field.1 = u.get? field.1) : hasFixed t = hasFixed u := by
  have hiff : hasFixed t = true ↔ hasFixed u = true := by
    simp only [hasFixed, List.all_eq_true, decide_eq_true_eq]
    exact forall₂_congr fun field hfield => by rw [h field hfield]
  exact Bool.eq_iff_iff.mpr hiff

/-- The table of a record the sample writes. -/
theorem flatCodec_tableOf {p : Project} {t : Table Flat} (h : flatCodec.tableOf p = some t) :
    p = { registered with name := p.name, sandboxProblem := p.sandboxProblem } ∧
      ∀ key ≠ "sandbox_problem", t.get? key = (flatTable p.name (.table [])).get? key := by
  simp only [flatCodec] at h
  split_ifs at h with hp
  refine ⟨hp, fun key hkey => ?_⟩
  split at h
  · rw [← Option.some.inj h]
  · rw [← Option.some.inj h, Table.get?_insert, if_neg hkey]

theorem flatText_ne {name name' : Char} {sandbox sandbox' : List Char} (h : name ≠ name') :
    flatText name sandbox ≠ flatText name' sandbox' := by
  simp [flatText, h]

theorem flatText_ne_default {name : Char} : flatText name nonsenseLine ≠ flatText name [] := by
  have hline : nonsenseLine ≠ [] := by decide
  simp [flatText, hline]

/-- What is printed is what is parsed. -/
theorem flat_docs {doc : Table Flat × List Char} (h : doc ∈ flatDocs) :
    flatCodec.print doc.1 = some doc.2 ∧ flatCodec.parse doc.2 = some doc.1 := by
  have hxy : flatTable "y" nonsense ≠ flatTable "x" nonsense := by decide
  have hxd : flatTable "y" (.table []) ≠ flatTable "x" nonsense := by decide
  have hyd : flatTable "y" (.table []) ≠ flatTable "y" nonsense := by decide
  have hnames : 'x' ≠ 'y' := by decide
  simp only [flatDocs, List.mem_cons, List.not_mem_nil, or_false] at h
  unfold flatCodec flatDocs
  rcases h with rfl | rfl | rfl
  · simp
  · simp [List.lookup_cons, beq_eq_false_iff_ne.mpr hxy, flatText_ne hnames]
  · simp [List.lookup_cons, beq_eq_false_iff_ne.mpr hxd, beq_eq_false_iff_ne.mpr hyd,
      flatText_ne hnames, flatText_ne_default]

theorem flatCodec_lawful : flatCodec.Lawful where
  print_parse t text h := by
    obtain ⟨pre, post, hdocs, -⟩ := List.lookup_eq_some_iff.mp h
    have hdoc : (t, text) ∈ flatDocs := hdocs ▸ by simp
    exact (flat_docs hdoc).2
  reads_back p t h := by
    obtain ⟨hp, hget⟩ := flatCodec_tableOf h
    have hread (key : String) (hkey : key ≠ "sandbox_problem") :
        (t.erase "sandbox_problem").get? key = (flatTable p.name (.table [])).get? key := by
      rw [Table.get?_erase, if_neg hkey, hget key hkey]
    have hkeys : ∀ field ∈ fixedFields, field.1 ≠ "sandbox_problem" := by decide
    have hfixed : hasFixed (t.erase "sandbox_problem") = true := by
      rw [hasFixed_congr fun field hfield => hread field.1 (hkeys field hfield)]
      exact List.all_eq_true.mpr fun field hfield => decide_eq_true (flatTable_fixed field hfield)
    have hname : (t.erase "sandbox_problem").get? "name" = some (.string p.name) := by
      rw [hread _ (by decide)]
      simp [flatTable]
    have hsandbox : (t.erase "sandbox_problem").get? "sandbox" = some (.table []) := by
      rw [hread _ (by decide)]
      simp [flatTable]
    show flatProject _ _ _ = _
    rw [hname, hsandbox, hfixed, hp]
    rfl
  sandbox p t h := by
    obtain ⟨hp, hget⟩ := flatCodec_tableOf h
    refine ⟨.table [], ?_, by rw [hp]; rfl⟩
    rw [hget _ (by decide), flatTable, Table.get?_insert, if_pos rfl]
  default_sandbox p t h := by
    have hkeys : ∀ field ∈ fixedFields, field.1 ≠ "sandbox" := by decide
    have hfixed : hasFixed (t.erase "sandbox") = hasFixed t := hasFixed_congr fun field hfield => by
      rw [Table.get?_erase, if_neg (hkeys field hfield)]
    have hname : (t.erase "sandbox").get? "name" = t.get? "name" := by simp
    have hsandbox : (t.erase "sandbox").get? "sandbox" = none := by simp
    change flatProject _ _ _ = _ at h
    show flatProject _ _ _ = _
    rw [hname, hsandbox, hfixed]
    unfold flatProject at h
    split at h
    · rename_i heq _ hfixed
      rw [heq, hfixed, ← Option.some.inj h]
      rfl
    · rename_i heq _ hfixed
      obtain ⟨s, -, rfl⟩ := Option.map_eq_some_iff.mp h
      rw [heq, hfixed]
      rfl
    · cases h
  same t u h := by
    show flatProject _ _ _ = flatProject _ _ _
    rw [h "name", h "sandbox", hasFixed_congr fun field _ => h field.1]
  display_injective i j h := by
    have hdigits : Nat.toDigits 10 i = Nat.toDigits 10 j := by
      have htexts := congrArg String.toList h
      simpa [flatCodec] using htexts
    have hvalue := congrArg (Nat.ofDigitChars 10 · 0) hdigits
    simpa [Nat.ofDigitChars_toDigits] using hvalue
  display_ne id h := by
    have htext := congrArg String.toList h
    simp [flatCodec] at htext

/-- The record as it loads from a file with the sandbox value that is none. -/
def refused : Project := { registered with sandboxProblem := some (problemOf "unknown field") }

/-- A store with one file that a person wrote. -/
def handWritten (name : String) : Files :=
  (∅ : Files).insert name (Utf8.encode (flatText 'x' nonsenseLine))

/-- The record under another name. -/
def refusedRenamed : Project := { refused with name := "y" }

/-- The name of the record's file. -/
def ownName : String := "00000000000000000000000001.toml"

theorem readRow_handWritten :
    flatCodec.readRow (Utf8.encode (flatText 'x' nonsenseLine)) =
      some (refused, some nonsense) := by
  have hprint : flatCodec.print (flatTable "x" nonsense) = some (flatText 'x' nonsenseLine) :=
    (flat_docs List.mem_cons_self).1
  rw [Codec.readRow, flatCodec_lawful.tableIn_encode hprint, Option.bind_some]
  decide

theorem lookup_handWritten {name name' : String} :
    (handWritten name).lookup name' = if name' = name then
      some (Utf8.encode (flatText 'x' nonsenseLine)) else none := by
  unfold handWritten
  split_ifs with h
  · rw [h, AList.lookup_insert]
  · rw [AList.lookup_insert_ne h, AList.lookup_empty]

theorem loadAll_handWritten {name : String} (h : isToml name = true) :
    flatCodec.loadAll .all (handWritten name) = [refused] := by
  simp [Codec.loadAll, Codec.rows, Reads.all, handWritten, h, readRow_handWritten]

theorem allowed_handWritten {name : String} (h : isToml name = true) :
    allowed (Keeping.start flatCodec .all (handWritten name)).held refusedRenamed = true := by
  show allowed (index (flatCodec.loadAll .all (handWritten name))) refusedRenamed = true
  rw [loadAll_handWritten h]
  decide

/-- What a save from such a store comes to. -/
theorem exec_handWritten (doc : Table Flat × List Char) {name : String} {readable : Bool}
    (h : isToml name = true) (hdoc : doc ∈ flatDocs)
    (hold : flatCodec.document (handWritten name) refusedRenamed readable =
      flatCodec.print doc.1) :
    ∃ d, Runs.exec (Keeping.step flatCodec) (.start flatCodec .all (handWritten name))
        [.save refusedRenamed readable .renamed false] = some d ∧
      d.saved 1 = some refusedRenamed ∧
      ∀ r, flatCodec.rowOf doc.1 = some r → r.1 ∈ flatCodec.loadAll .all d.files := by
  have hprint := (flat_docs hdoc).1
  rw [hprint] at hold
  have hsave : flatCodec.save (handWritten name) refusedRenamed readable .renamed =
      (((handWritten name).erase (flatCodec.tmpName 1)).insert (flatCodec.fileName 1)
        (Utf8.encode doc.2), true) := by
    unfold Codec.save
    rw [hold]
    rfl
  have hstart : (Keeping.start flatCodec .all (handWritten name)).files = handWritten name := rfl
  refine ⟨_, by
    simp only [Runs.exec, Keeping.step, if_pos (allowed_handWritten h), Option.bind_some]
    rfl, ?_, fun r hr => ?_⟩
  · simp only [Keeping.saving, hstart, hsave, if_true]
    rfl
  · simp only [Keeping.saving, hstart, hsave, if_true]
    refine Codec.mem_loadAll (AList.lookup_insert _) (flatCodec_lawful.isToml_fileName _) ?_
    rw [Codec.readRow, flatCodec_lawful.tableIn_encode hprint, Option.bind_some, hr]

theorem isToml_ownName : isToml ownName = true := by decide

theorem fileName_one : flatCodec.fileName 1 = ownName := by decide

/-- The table of the renamed record before its problem is taken out. -/
def markedTable : Table Flat :=
  (flatTable "y" (.table [])).insert "sandbox_problem"
    (.table [("code", .inr (problemOf "unknown field").code),
      ("message", .inr (problemOf "unknown field").message),
      ("remediation", .inr (problemOf "unknown field").remediation)])

theorem tableOf_refusedRenamed : flatCodec.tableOf refusedRenamed = some markedTable := rfl

/-- What a save writes where it finds the value that is none. -/
theorem document_own : flatCodec.document (handWritten ownName) refusedRenamed true =
    flatCodec.print (flatTable "y" nonsense) := by
  have hprint : flatCodec.print (flatTable "x" nonsense) = some (flatText 'x' nonsenseLine) :=
    (flat_docs List.mem_cons_self).1
  have hold : flatCodec.oldSandbox (handWritten ownName) refusedRenamed.id true =
      some nonsense := by
    show flatCodec.oldSandbox (handWritten ownName) 1 true = some nonsense
    rw [Codec.oldSandbox, if_pos rfl, fileName_one, lookup_handWritten, if_pos rfl,
      Option.bind_some, flatCodec_lawful.tableIn_encode hprint]
    decide
  have hdoc : (markedTable.insert "sandbox" nonsense).erase "sandbox_problem" =
      flatTable "y" nonsense := by decide
  rw [Codec.document, tableOf_refusedRenamed, Option.bind_some, hold, ← hdoc]
  rfl

/-- What a save writes where it finds nothing. -/
theorem document_default {readable : Bool} {name : String}
    (h : flatCodec.oldSandbox (handWritten name) refusedRenamed.id readable = none) :
    flatCodec.document (handWritten name) refusedRenamed readable =
      flatCodec.print (flatTable "y" (.table [])) := by
  have hdoc : markedTable.erase "sandbox_problem" = flatTable "y" (.table []) := by decide
  rw [Codec.document, tableOf_refusedRenamed, Option.bind_some, h, ← hdoc]
  rfl

theorem named_handWritten : flatCodec.Named (handWritten ownName) := by
  intro name bytes r hlookup _ hrow
  rw [lookup_handWritten] at hlookup
  split_ifs at hlookup with hname
  rw [← Option.some.inj hlookup, readRow_handWritten] at hrow
  rw [← Option.some.inj hrow, hname]
  exact fileName_one.symm

/-- The record is renamed, and still loads with its problem. -/
theorem store_kept_rename :
    ∃ d, Runs.exec (Keeping.step flatCodec) (.start flatCodec .all (handWritten ownName))
        [.save refusedRenamed true .renamed false] = some d ∧
      d.Kept flatCodec ∧ refusedRenamed ∈ flatCodec.loadAll .all d.files := by
  obtain ⟨d, hrun, -, hload⟩ := exec_handWritten (flatTable "y" nonsense,
    flatText 'y' nonsenseLine) isToml_ownName (by simp [flatDocs]) document_own
  have hrow : flatCodec.rowOf (flatTable "y" nonsense) =
      some (refusedRenamed, some nonsense) := by decide
  exact ⟨d, hrun,
    store_kept flatCodec_lawful named_handWritten hrun ⟨fun _ => rfl, fun _ _ => trivial⟩,
    hload _ hrow⟩

/-- A record that is saved with the default profile is not kept. -/
theorem exec_loosened {name : String} {readable : Bool} (h : isToml name = true)
    (hold : flatCodec.oldSandbox (handWritten name) refusedRenamed.id readable = none) :
    ∃ d, Runs.exec (Keeping.step flatCodec) (.start flatCodec .all (handWritten name))
        [.save refusedRenamed readable .renamed false] = some d ∧
      { registered with name := "y" } ∈ flatCodec.loadAll .all d.files ∧ ¬ d.Kept flatCodec := by
  obtain ⟨d, hrun, hsaved, hload⟩ := exec_handWritten (flatTable "y" (.table []),
    flatText 'y' []) h (by simp [flatDocs]) (document_default hold)
  have hrow : flatCodec.rowOf (flatTable "y" (.table [])) =
      some ({ registered with name := "y" }, some (.table [])) := by decide
  refine ⟨d, hrun, hload _ hrow, fun hkept => ?_⟩
  have hmem : { registered with name := "y" } ∈
      (flatCodec.loadAll .all d.files).filter (·.id = 1) :=
    List.mem_filter.mpr ⟨hload _ hrow, rfl⟩
  rw [hkept.round_trip .all 1 flatCodec.opens_all, hsaved, Option.mem_toList] at hmem
  have hproblem := congrArg Project.sandboxProblem (Option.some.inj hmem)
  exact absurd hproblem nofun

/-- **A sandbox that no load can read is loosened by a rename**: from a file
of another name, which the save does not look at, and from the record's own
file, if the save cannot read it. And a load that cannot read the file has no
record. -/
theorem unread_sandbox_loosened :
    flatCodec.Lawful ∧
    flatCodec.loadAll .all (handWritten "old.toml") = [refused] ∧
    flatCodec.loadAll .all (handWritten ownName) = [refused] ∧
    flatCodec.loadAll ⟨true, fun _ => false⟩ (handWritten ownName) = [] ∧
    (∃ d, Runs.exec (Keeping.step flatCodec) (.start flatCodec .all (handWritten "old.toml"))
        [.save refusedRenamed true .renamed false] = some d ∧
      { registered with name := "y" } ∈ flatCodec.loadAll .all d.files ∧ ¬ d.Kept flatCodec) ∧
    ∃ d, Runs.exec (Keeping.step flatCodec) (.start flatCodec .all (handWritten ownName))
        [.save refusedRenamed false .renamed false] = some d ∧
      { registered with name := "y" } ∈ flatCodec.loadAll .all d.files ∧ ¬ d.Kept flatCodec := by
  have hold : isToml "old.toml" = true := by decide
  have hother : flatCodec.fileName refusedRenamed.id ≠ "old.toml" := by decide
  have hskipped : flatCodec.loadAll ⟨true, fun _ => false⟩ (handWritten ownName) = [] := by
    simp [Codec.loadAll, Codec.rows]
  refine ⟨flatCodec_lawful, loadAll_handWritten hold, loadAll_handWritten isToml_ownName, hskipped,
    exec_loosened hold ?_, exec_loosened isToml_ownName rfl⟩
  rw [Codec.oldSandbox, if_pos rfl, lookup_handWritten, if_neg hother]
  rfl

end Projects
end Willie
