import Willie.Common.Toml
import Willie.Common.Utf8
import Willie.Logs.Reading
import Willie.Projects.Model

/-!
# Projects — the files of the store

Each project is a TOML table in a file named after its id. A load reads every
file with the extension that it can, whatever its name; a sandbox value that is
no profile does not lose the record, which then has the default profile and a
problem. A save of such a record puts the value of its file back, and writes
through a temporary file.
-/

namespace Willie
namespace Projects

open Toml (Table)
open Logs (extension)

/-- The bytes of a file. -/
abbrev Bytes := List UInt8

/-- A directory: what each name holds. -/
abbrev Files := AList fun _ : String => Bytes

/-- The TOML library, with the readers and writers that are derived for a
record and for its profile, and how an id is written. -/
structure Codec (V : Type) where
  parse : List Char → Option (Table V)
  print : Table V → Option (List Char)
  tableOf : Project → Option (Table V)
  readProject : Table V → Option Project
  /-- A value as a profile, or what is wrong with it. -/
  readProfile : V → Except String SandboxProfile
  display : ProjectId → String

/-- **What the store relies on**: what is printed parses back; a record's
table reads back, with the problem left out where that was taken out, and
with the default profile where the sandbox was; a reader sees what a table
holds and nothing else; ids are told apart by their texts. -/
structure Codec.Lawful {V : Type} (c : Codec V) : Prop where
  print_parse : ∀ t text, c.print t = some text → c.parse text = some t
  reads_back : ∀ p t, c.tableOf p = some t →
    c.readProject (t.erase "sandbox_problem") = some { p with sandboxProblem := none }
  sandbox : ∀ p t, c.tableOf p = some t →
    ∃ v, t.get? "sandbox" = some v ∧ c.readProfile v = .ok p.sandbox
  default_sandbox : ∀ p t, c.readProject t = some p →
    c.readProject (t.erase "sandbox") = some { p with sandbox := {} }
  same : ∀ t u : Table V, t.Same u → c.readProject t = c.readProject u
  display_injective : Function.Injective c.display
  display_ne : ∀ id, c.display id ≠ ""

section Codec

variable {V : Type} (c : Codec V)

def Codec.fileName (id : ProjectId) : String := c.display id ++ ".toml"

def Codec.tmpName (id : ProjectId) : String := c.display id ++ ".toml.tmp"

/-- A file that a load looks at. -/
def isToml (name : String) : Bool := extension name.toList = some "toml".toList

/-! ## Loading -/

/-- What the daemon says of a sandbox value that is no profile. -/
def problemOf (e : String) : SandboxProblem :=
  ⟨"sandbox_profile_invalid", "the [sandbox] table could not be read: " ++ e,
    "open Sandbox… for this project and save it to replace the table, or fix the file"⟩

/-- The problem with a file's sandbox value, if there is one. -/
def Codec.problem (raw : Option V) : Option SandboxProblem :=
  raw.bind fun v =>
    match c.readProfile v with
    | .ok _ => none
    | .error e => some (problemOf e)

/-- The table in a file. -/
def Codec.tableIn (bytes : Bytes) : Option (Table V) := (Utf8.decode bytes).bind c.parse

/-- A table's record, with the sandbox value it was read beside. -/
def Codec.rowOf (table : Table V) : Option (Project × Option V) :=
  let raw := table.get? "sandbox"
  let rest := table.erase "sandbox"
  let table := match c.problem raw, raw with
    | none, some v => rest.insert "sandbox" v
    | _, _ => rest
  (c.readProject table).map fun p => ({ p with sandboxProblem := c.problem raw }, raw)

def Codec.readRow (bytes : Bytes) : Option (Project × Option V) :=
  (c.tableIn bytes).bind c.rowOf

/-- What a load can read: the directory, and the files of which names. -/
structure Reads where
  dir : Bool
  file : String → Bool

/-- Everything can be read. -/
def Reads.all : Reads := ⟨true, fun _ => true⟩

/-- The rows of a directory; one that cannot be read has none, and a file that
cannot is skipped. -/
def Codec.rows (reads : Reads) (files : Files) : List (Project × Option V) :=
  if reads.dir then
    files.entries.filterMap fun e =>
      if isToml e.1 ∧ reads.file e.1 then c.readRow e.2 else none
  else []

/-- `load_all`. -/
def Codec.loadAll (reads : Reads) (files : Files) : List Project :=
  (c.rows reads files).map (·.1)

/-- The load can read the directory, and the file of the id. -/
def Codec.Opens (reads : Reads) (id : ProjectId) : Prop :=
  reads.dir = true ∧ reads.file (c.fileName id) = true

/-- The index of what was loaded: the last record of an id stays. -/
def index (ps : List Project) : ProjectMap := ps.foldl (fun m p => m.insert p.id p) ∅

/-! ## Saving -/

/-- The sandbox value of the file a save writes, as far as it can be read. -/
def Codec.oldSandbox (files : Files) (id : ProjectId) (readable : Bool) : Option V :=
  if readable then
    ((files.lookup (c.fileName id)).bind c.tableIn).bind fun old => old.get? "sandbox"
  else none

/-- What a save writes. -/
def Codec.document (files : Files) (p : Project) (readable : Bool) : Option (List Char) :=
  (c.tableOf p).bind fun doc =>
    let doc := match p.sandboxProblem, c.oldSandbox files p.id readable with
      | some _, some v => doc.insert "sandbox" v
      | _, _ => doc
    c.print (doc.erase "sandbox_problem")

/-- How far a save comes: it may fail, or the daemon end, before it has written
anything, with some bytes in the temporary file, or not before the rename. -/
inductive Fate where
  | unwritten
  | torn (bytes : Bytes)
  | renamed
  deriving DecidableEq, Repr

/-- The directory after a save that came so far, and whether the record is in
its file. -/
def Codec.save (files : Files) (p : Project) (readable : Bool) (fate : Fate) : Files × Bool :=
  match c.document files p readable, fate with
  | some _, .torn bytes => (files.insert (c.tmpName p.id) bytes, false)
  | some text, .renamed =>
    ((files.erase (c.tmpName p.id)).insert (c.fileName p.id) (Utf8.encode text), true)
  | _, _ => (files, false)

end Codec

variable {V : Type} {c : Codec V} {files : Files} {id : ProjectId} {p q : Project}
variable {ps : List Project} {name : String} {bytes : Bytes} {raw : Option V} {v : V}
variable {text : List Char} {readable : Bool} {reads : Reads}

/-! ## Names -/

theorem extension_append {stem ext : List Char} (hstem : stem ≠ []) (hext : '.' ∉ ext) :
    extension (stem ++ '.' :: ext) = some ext := by
  have hrev : ∀ ch ∈ ext.reverse, (decide (ch ≠ '.')) = true := by
    intro ch hch
    simpa using ne_of_mem_of_not_mem (List.mem_reverse.mp hch) hext
  have hspan : (stem ++ '.' :: ext).reverse.span (· ≠ '.') =
      (ext.reverse, '.' :: stem.reverse) := by
    rw [List.span_eq_takeWhile_dropWhile, List.reverse_append, List.reverse_cons, List.append_assoc,
      List.takeWhile_append_of_pos hrev, List.dropWhile_append_of_pos hrev]
    simp
  unfold extension
  rw [hspan]
  simp [hstem]

theorem Codec.Lawful.isToml_fileName (hc : c.Lawful) (id : ProjectId) :
    isToml (c.fileName id) = true := by
  have hstem : (c.display id).toList ≠ [] := by simpa using hc.display_ne id
  have hname : (c.fileName id).toList = (c.display id).toList ++ '.' :: "toml".toList := by
    rw [Codec.fileName, String.toList_append]
    rfl
  have hext : extension ((c.display id).toList ++ '.' :: "toml".toList) = some "toml".toList :=
    extension_append hstem (by decide)
  unfold isToml
  rw [hname, hext]
  exact decide_eq_true rfl

theorem isToml_tmpName : isToml (c.tmpName id) = false := by
  have hname : (c.tmpName id).toList =
      ((c.display id).toList ++ ".toml".toList) ++ '.' :: "tmp".toList := by
    rw [Codec.tmpName, String.toList_append, List.append_assoc]
    rfl
  have hext : extension (c.tmpName id).toList = some "tmp".toList := by
    rw [hname]
    exact extension_append (by simp) (by decide)
  unfold isToml
  rw [hext]
  decide

theorem Codec.Lawful.fileName_injective (hc : c.Lawful) : Function.Injective c.fileName := by
  intro i j h
  refine hc.display_injective (String.toList_injective ?_)
  have htexts := congrArg String.toList h
  simpa [Codec.fileName, String.toList_append] using htexts

theorem Codec.Lawful.fileName_ne_tmpName (hc : c.Lawful) {i j : ProjectId} :
    c.fileName i ≠ c.tmpName j := by
  intro h
  have hfile := hc.isToml_fileName i
  rw [h, isToml_tmpName] at hfile
  cases hfile

/-! ## What a load finds -/

theorem Codec.opens_all : c.Opens .all id := ⟨rfl, rfl⟩

/-- **A file that loads is named after the id it holds.** -/
def Codec.Named (c : Codec V) (files : Files) : Prop :=
  ∀ name bytes r, files.lookup name = some bytes → isToml name → c.readRow bytes = some r →
    name = c.fileName r.1.id

/-- What the file of an id holds. -/
def Codec.onDisk (c : Codec V) (files : Files) (id : ProjectId) : Option (Project × Option V) :=
  (files.lookup (c.fileName id)).bind c.readRow

theorem Codec.mem_loadAll {r : Project × Option V} (h : files.lookup name = some bytes)
    (htoml : isToml name = true) (hrow : c.readRow bytes = some r) :
    r.1 ∈ c.loadAll .all files := by
  refine List.mem_map.mpr ⟨r, List.mem_filterMap.mpr ⟨⟨name, bytes⟩, ?_, ?_⟩, rfl⟩
  · exact AList.mem_lookup_iff.mp h
  · rw [if_pos ⟨htoml, rfl⟩, hrow]

/-- What can come from one key alone is what the key holds. -/
theorem filterMap_entries {α β : Type} [DecidableEq α] (m : AList fun _ : α => β) {γ : Type}
    (f : (Σ _ : α, β) → Option γ) (k : α) (h : ∀ e ∈ m.entries, e.1 ≠ k → f e = none) :
    m.entries.filterMap f = ((m.lookup k).bind fun b => f ⟨k, b⟩).toList := by
  cases hk : m.lookup k with
  | none =>
    refine List.filterMap_eq_nil_iff.mpr fun e he => h e he ?_
    rintro rfl
    have hmem : m.lookup e.1 = some e.2 := AList.mem_lookup_iff.mpr he
    rw [hk] at hmem
    cases hmem
  | some b =>
    have hmem : (⟨k, b⟩ : Σ _ : α, β) ∈ m.entries := AList.mem_lookup_iff.mp hk
    obtain ⟨pre, post, hentries⟩ := List.append_of_mem hmem
    have hnodup := m.nodupKeys
    rw [hentries, List.NodupKeys, List.keys, List.map_append, List.map_cons] at hnodup
    have hrest : ∀ e ∈ pre ++ post, f e = none := by
      intro e he
      refine h e (hentries ▸ ?_) ?_
      · rcases List.mem_append.mp he with he | he
        · exact List.mem_append_left _ he
        · exact List.mem_append_right _ (List.mem_cons_of_mem _ he)
      · rintro rfl
        have hnot := (List.nodup_middle.mp hnodup)
        rw [List.nodup_cons, ← List.map_append] at hnot
        exact hnot.1 (List.mem_map.mpr ⟨e, he, rfl⟩)
    have hpre : pre.filterMap f = [] := List.filterMap_eq_nil_iff.mpr fun e he =>
      hrest e (List.mem_append_left _ he)
    have hpost : post.filterMap f = [] := List.filterMap_eq_nil_iff.mpr fun e he =>
      hrest e (List.mem_append_right _ he)
    rw [hentries, List.filterMap_append, hpre, List.nil_append, List.filterMap_cons,
      Option.bind_some]
    cases f ⟨k, b⟩ with
    | none => exact hpost
    | some r => simp [hpost]

theorem Codec.Named.onDisk_id (h : c.Named files) (hc : c.Lawful) {r : Project × Option V}
    (hr : c.onDisk files id = some r) : r.1.id = id := by
  obtain ⟨bytes, hlookup, hrow⟩ := Option.bind_eq_some_iff.mp hr
  exact (hc.fileName_injective (h _ _ _ hlookup (hc.isToml_fileName _) hrow)).symm

/-- **The records of an id** are what its file holds, if that can be read. -/
theorem Codec.Named.rows (h : c.Named files) (hc : c.Lawful) (hopens : c.Opens reads id) :
    (c.rows reads files).filter (·.1.id = id) = (c.onDisk files id).toList := by
  have hfilter : (c.rows reads files).filter (·.1.id = id) = files.entries.filterMap fun e =>
      (if isToml e.1 ∧ reads.file e.1 then c.readRow e.2 else none).filter (·.1.id = id) := by
    rw [Codec.rows, if_pos hopens.1, ← List.filterMap_eq_filter, List.filterMap_filterMap]
    refine List.filterMap_congr fun e _ => ?_
    cases (if isToml e.1 = true ∧ reads.file e.1 = true then c.readRow e.2 else none) with
    | none => rfl
    | some r => simp [Option.guard, Option.filter]
  have hown : (c.onDisk files id).filter (·.1.id = id) = c.onDisk files id := by
    cases hr : c.onDisk files id with
    | none => rfl
    | some r => simp [h.onDisk_id hc hr]
  rw [hfilter, filterMap_entries files _ (c.fileName id), ← hown, Codec.onDisk]
  · cases files.lookup (c.fileName id) with
    | none => rfl
    | some bytes => simp [hc.isToml_fileName, hopens.2]
  · intro e he hne
    have hlookup : files.lookup e.1 = some e.2 := AList.mem_lookup_iff.mpr he
    by_cases htoml : isToml e.1
    · cases hrow : c.readRow e.2 with
      | none => simp
      | some r =>
        -- a record of the id is in the file of its name
        have hname := h e.1 e.2 r hlookup htoml hrow
        have hid : r.1.id ≠ id := fun heq => hne (heq ▸ hname)
        simp [htoml, hid, Option.filter_eq_none_iff]
    · simp [htoml]

/-- Of an id whose file cannot be read there is no record. -/
theorem Codec.Named.rows_closed (h : c.Named files) (hclosed : ¬ c.Opens reads id) :
    (c.rows reads files).filter (·.1.id = id) = [] := by
  refine List.filter_eq_nil_iff.mpr fun r hr hid => ?_
  unfold Codec.rows at hr
  split_ifs at hr with hdir
  · obtain ⟨e, he, hread⟩ := List.mem_filterMap.mp hr
    split_ifs at hread with hfile
    have hname := h e.1 e.2 r (AList.mem_lookup_iff.mpr he) hfile.1 hread
    refine hclosed ⟨hdir, ?_⟩
    rw [← of_decide_eq_true hid, ← hname]
    exact hfile.2
  · cases hr

theorem index_lookup : (index ps).lookup id = (ps.filter (·.id = id)).getLast? := by
  induction ps using List.reverseRecOn with
  | nil => rfl
  | append_singleton ps p ih =>
    have hlast : index (ps ++ [p]) = (index ps).insert p.id p := by
      rw [index, List.foldl_append]
      rfl
    rw [hlast, List.filter_append]
    by_cases hid : p.id = id
    · rw [← hid, AList.lookup_insert]
      simp
    · rw [AList.lookup_insert_ne (Ne.symm hid), ih]
      simp [hid]

theorem Codec.filter_loadAll : (c.loadAll reads files).filter (·.id = id) =
    ((c.rows reads files).filter (·.1.id = id)).map (·.1) := by
  rw [Codec.loadAll, List.filter_map]
  rfl

/-- The index of what loads has each id's file, if that can be read. -/
theorem Codec.Named.index_lookup (h : c.Named files) (hc : c.Lawful) (hopens : c.Opens reads id) :
    (index (c.loadAll reads files)).lookup id = (c.onDisk files id).map (·.1) := by
  rw [Projects.index_lookup, c.filter_loadAll, h.rows hc hopens]
  cases c.onDisk files id <;> rfl

/-- What is in the index was on disk. -/
theorem Codec.Named.of_index_lookup (h : c.Named files) (hc : c.Lawful)
    (hp : (index (c.loadAll reads files)).lookup id = some p) :
    (c.onDisk files id).map (·.1) = some p := by
  by_cases hopens : c.Opens reads id
  · rw [← h.index_lookup hc hopens, hp]
  · rw [Projects.index_lookup, c.filter_loadAll, h.rows_closed hopens] at hp
    cases hp

/-! ## What a save leaves -/

/-- What was written is read. -/
theorem Codec.Lawful.tableIn_encode (hc : c.Lawful) {t : Table V} (h : c.print t = some text) :
    c.tableIn (Utf8.encode text) = some t := by
  rw [Codec.tableIn, Utf8.decode_encode, Option.bind_some, hc.print_parse t text h]

/-- **A record without a problem** is read as it was written. -/
theorem Codec.Lawful.readRow_plain (hc : c.Lawful) (hp : p.sandboxProblem = none)
    (hdoc : c.document files p readable = some text) :
    ∃ v, c.readRow (Utf8.encode text) = some (p, some v) := by
  obtain ⟨t, ht, hprint⟩ := Option.bind_eq_some_iff.mp hdoc
  simp only [hp] at hprint
  obtain ⟨v, hv, hread⟩ := hc.sandbox p t ht
  have hget : (t.erase "sandbox_problem").get? "sandbox" = some v := by simp [hv]
  have hproblem : c.problem (some v) = none := by simp [Codec.problem, hread]
  refine ⟨v, ?_⟩
  rw [Codec.readRow, hc.tableIn_encode hprint, Option.bind_some, Codec.rowOf]
  simp only [hget, hproblem]
  rw [hc.same _ _ (Table.same_insert_erase hget), hc.reads_back p t ht, ← hp]
  rfl

/-- **A record with a problem** is read with the value its file had. -/
theorem Codec.Lawful.readRow_problem (hc : c.Lawful) {e : String}
    (hold : c.oldSandbox files p.id readable = some v) (he : c.readProfile v = .error e)
    (hp : p.sandboxProblem = some (problemOf e)) (hs : p.sandbox = {})
    (hdoc : c.document files p readable = some text) :
    c.readRow (Utf8.encode text) = some (p, some v) := by
  obtain ⟨t, ht, hprint⟩ := Option.bind_eq_some_iff.mp hdoc
  simp only [hp, hold] at hprint
  have hget : ((t.insert "sandbox" v).erase "sandbox_problem").get? "sandbox" = some v := by simp
  have hproblem : c.problem (some v) = some (problemOf e) := by simp [Codec.problem, he]
  have hrest : ((t.insert "sandbox" v).erase "sandbox_problem").erase "sandbox" =
      (t.erase "sandbox_problem").erase "sandbox" := by
    rw [Table.erase_comm, Table.erase_insert, Table.erase_comm]
  rw [Codec.readRow, hc.tableIn_encode hprint, Option.bind_some, Codec.rowOf]
  simp only [hget, hproblem, hrest]
  rw [hc.default_sandbox _ _ (hc.reads_back p t ht), ← hp, ← hs]
  rfl

/-- A record that loads with a problem has the default profile, and a sandbox
value that is none. -/
theorem Codec.Lawful.readRow_unreadable (hc : c.Lawful)
    (h : c.readRow bytes = some (p, raw)) (hp : p.sandboxProblem ≠ none) :
    ∃ v e, raw = some v ∧ c.readProfile v = .error e ∧
      p.sandboxProblem = some (problemOf e) ∧ p.sandbox = {} := by
  obtain ⟨t, -, h⟩ := Option.bind_eq_some_iff.mp h
  obtain ⟨q, hq, hrow⟩ := Option.map_eq_some_iff.mp h
  obtain ⟨rfl, rfl⟩ := Prod.mk.inj hrow
  cases hraw : t.get? "sandbox" with
  | none =>
    rw [hraw] at hp
    exact absurd rfl hp
  | some v =>
    cases hread : c.readProfile v with
    | ok s =>
      have hnone : c.problem (t.get? "sandbox") = none := by simp [Codec.problem, hraw, hread]
      exact absurd hnone hp
    | error e =>
      have hproblem : c.problem (some v) = some (problemOf e) := by simp [Codec.problem, hread]
      simp only [hraw, hproblem] at hq
      refine ⟨v, e, rfl, hread, hproblem, ?_⟩
      have hmissing : (t.erase "sandbox").get? "sandbox" = none := by simp
      -- a table without the key is as good as one it was taken out of
      have hsame := hc.same _ _ (Table.same_erase hmissing)
      rw [hc.default_sandbox _ _ hq, hq] at hsame
      exact (congrArg Project.sandbox (Option.some.inj hsame)).symm

end Projects
end Willie
