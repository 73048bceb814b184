import Willie.Common.Occurs
import Willie.Tree.Workspace

/-!
# Tree — what the flags tell

A line of the status is shown where its text falls: at the entry of just that
path, and at every directory above it. That is where the change is, if the
path is printed as it is and the directory was asked for by its names; a
quoted path, a copy, and a rename whose old name has an arrow in it are shown
elsewhere, or nowhere. So what is changed is flagged if it is printed bare,
under a directory that was spelled (`listDir_shows_iff`).
-/

namespace Willie
namespace Tree

open Git
open Lines (lines)
open Occurs (FirstAt)
open Paths (Path)
open Projects (Project ProjectId ProjectMap)
open Sessions (Text splitOnce)

variable {a b rest rel : Text} {c : Char} {n : ℕ} {x y : Letter} {change : Change}
variable {changes : List Change} {dir : List Name} {e e' : DirEntry} {name : Name}

/-! ## Lines are read -/

theorem splitAtByte_append (h : ∀ c ∈ a, c.utf8Size = 1) :
    splitAtByte a.length (a ++ rest) = some (a, rest) := by
  induction a with
  | nil => simp [splitAtByte]
  | cons c a ih =>
    have hc : c.utf8Size = 1 := h c List.mem_cons_self
    rw [List.length_cons, List.cons_append, splitAtByte, hc, if_pos (by omega),
      Nat.add_sub_cancel, ih fun d hd => h d (List.mem_cons_of_mem _ hd)]
    rfl

theorem utf8Size_xy : ∀ c ∈ change.xy, c.utf8Size = 1 := by
  have hletter (l : Letter) : l.char.utf8Size = 1 := by cases l <;> decide
  intro c hc
  cases change with
  | untracked path =>
    rcases List.mem_pair.mp hc with rfl | rfl <;> decide
  | changed x y _ _ _ | moved x y _ _ _ =>
    rcases List.mem_pair.mp hc with rfl | rfl <;> exact hletter _

theorem find_letters (h : x ≠ .unmodified ∨ y ≠ .unmodified) :
    (([x.char, y.char].find? (· ≠ ' ')).getD 'M') = firstLetter x y := by
  cases x <;> cases y <;> first | rfl | simp at h

theorem char_eq_renamed : x.char = 'R' ↔ x = .renamed := by
  cases x <;> decide

theorem char_ne_untracked : x.char ≠ '?' := by
  cases x <;> decide

/-- The text that a line of the status is taken to be about. -/
def shown : Change → Text
  | .untracked path | .changed _ _ path .. => quotePath path.bytes
  | .moved x y orig path moves =>
    if x = .renamed ∨ y = .renamed then newPath (Change.moved x y orig path moves).told
    else (Change.moved x y orig path moves).told

/-- **A line is read** as the text it shows, and its letter. -/
theorem parseLine_line : parseLine change.line = some (shown change, [change.letter]) := by
  have htwo : splitAtByte 2 change.line = some (change.xy, ' ' :: change.told) := by
    have hlen : change.xy.length = 2 := by cases change <;> rfl
    rw [← hlen]
    exact splitAtByte_append utf8Size_xy
  have hthree : splitAtByte 3 change.line = some (change.xy ++ [' '], change.told) := by
    have hlen : (change.xy ++ [' ']).length = 3 := by cases change <;> rfl
    have hsize : ∀ c ∈ change.xy ++ [' '], c.utf8Size = 1 := by
      intro c hc
      rcases List.mem_append.mp hc with hc | hc
      · exact utf8Size_xy c hc
      · rw [List.mem_singleton.mp hc]
        decide
    have hline : change.line = change.xy ++ [' '] ++ change.told := by simp [Change.line]
    rw [← hlen, hline]
    exact splitAtByte_append hsize
  have hnot (x y : Letter) : [x.char, y.char] ≠ "??".toList := fun h =>
    char_ne_untracked (List.cons.inj h).1
  simp only [parseLine, htwo, hthree]
  cases change with
  | untracked path =>
    rw [if_pos (show (Change.untracked path).xy = "??".toList from rfl)]
    rfl
  | changed x y path differs stays =>
    have hx : x ≠ .renamed := by rintro rfl; exact absurd stays.1 (by decide)
    have hy : y ≠ .renamed := by rintro rfl; exact absurd stays.2 (by decide)
    simp only [Change.xy, if_neg (hnot x y), List.head?_cons, Option.some.injEq,
      char_eq_renamed, List.getLast?_cons_cons, List.getLast?_singleton, hx, hy, or_self,
      if_false, find_letters differs]
    rfl
  | moved x y orig path moves =>
    have hmoved : x ≠ .unmodified ∨ y ≠ .unmodified := by
      rcases moves with h | h
      · left
        rintro rfl
        exact absurd h (by decide)
      · right
        rintro rfl
        exact absurd h (by decide)
    simp only [Change.xy, if_neg (hnot x y), List.head?_cons, Option.some.injEq,
      char_eq_renamed, List.getLast?_cons_cons, List.getLast?_singleton, find_letters hmoved,
      shown, Change.letter]
    split_ifs <;> rfl

theorem lines_printStatus : lines (printStatus changes) = changes.map Change.line := by
  induction changes with
  | nil => rfl
  | cons change changes ih =>
    have hfeed : '\n' ∉ change.line := fun h => absurd (toNat_of_mem_line h) (by decide)
    have hreturn : change.line.getLast? ≠ some '\r' := fun h =>
      absurd (toNat_of_mem_line (List.mem_of_getLast? h)) (by decide)
    have hcons : printStatus (change :: changes) =
        change.line ++ '\n' :: printStatus changes := by simp [printStatus]
    rw [hcons, Lines.lines_line hfeed hreturn, ih, List.map_cons]

theorem parsePorcelain_printStatus : parsePorcelain (printStatus changes) =
    (changes.map fun change => (shown change, [change.letter])).foldl
      (fun flags e => flags.insert e.1 e.2) .empty := by
  have hread : (changes.map Change.line).filterMap parseLine =
      changes.map fun change => (shown change, [change.letter]) := by
    rw [List.filterMap_map, ← List.filterMap_eq_map]
    exact List.filterMap_congr fun change _ => parseLine_line
  rw [parsePorcelain, lines_printStatus, hread]

/-- **The flag of a text** is the letter of the last line that shows it. -/
theorem get_parsePorcelain : (parsePorcelain (printStatus changes)).get a =
    ((changes.filter (shown · = a)).getLast?).map fun change => [change.letter] := by
  rw [parsePorcelain_printStatus, SortedMap.get_foldl_insert, List.filter_map, List.getLast?_map,
    Option.map_map]
  congr 2
  exact List.filter_congr fun _ _ => decide_eq_decide.mpr Iff.rfl

theorem any_parsePorcelain {p : Text → Bool} :
    (parsePorcelain (printStatus changes)).entries.any (fun f => p f.1) = true ↔
      ∃ change ∈ changes, p (shown change) = true := by
  rw [List.any_eq_true]
  constructor
  · rintro ⟨⟨a, flag⟩, hmem, hp⟩
    rw [SortedMap.mem_entries, get_parsePorcelain, Option.map_eq_some_iff] at hmem
    obtain ⟨change, hlast, -⟩ := hmem
    obtain ⟨hchange, hshown⟩ := List.mem_filter.mp (List.mem_of_getLast? hlast)
    exact ⟨change, hchange, by rw [of_decide_eq_true hshown]; exact hp⟩
  · rintro ⟨change, hchange, hp⟩
    have hmem : change ∈ changes.filter (shown · = shown change) :=
      List.mem_filter.mpr ⟨hchange, decide_eq_true rfl⟩
    have hlast := List.getLast?_eq_some_getLast (List.ne_nil_of_mem hmem)
    generalize (changes.filter (shown · = shown change)).getLast _ = last at hlast
    refine ⟨(shown change, [last.letter]), ?_, hp⟩
    rw [SortedMap.mem_entries, get_parsePorcelain, hlast]
    rfl

/-! ## What a line shows -/

theorem splitOnce_of_firstAt {sep : Text} (hsep : sep ≠ [])
    (h : FirstAt sep (a ++ sep ++ b) a.length) :
    splitOnce sep (a ++ sep ++ b) = some (a, b) := by
  induction a with
  | nil =>
    obtain ⟨c, cs, rfl⟩ := List.exists_cons_of_ne_nil hsep
    have hdrop : (c :: cs ++ b).dropPrefix? (c :: cs) = some b :=
      List.dropPrefix?_eq_some_iff.mpr ⟨c :: cs, rfl, beq_self_eq_true _⟩
    rw [List.nil_append, List.cons_append, splitOnce, ← List.cons_append, hdrop]
  | cons c a ih =>
    have hnone : (c :: (a ++ sep ++ b)).dropPrefix? sep = none := by
      cases hdrop : (c :: (a ++ sep ++ b)).dropPrefix? sep with
      | none => rfl
      | some rest =>
        obtain ⟨p, hp, heq⟩ := List.dropPrefix?_eq_some_iff.mp hdrop
        obtain rfl := beq_iff_eq.mp heq
        exact absurd ⟨rest, hp.symm⟩ (h.first 0 (by simp))
    have hrest : FirstAt sep (a ++ sep ++ b) a.length :=
      ⟨h.here, fun j hj hat => h.first (j + 1) (by simpa using hj) hat⟩
    rw [List.cons_append, List.cons_append, splitOnce, hnone, ih hrest]
    rfl

theorem newPath_of_firstAt (h : FirstAt arrow (a ++ arrow ++ b) a.length) :
    newPath (a ++ arrow ++ b) = b := by
  have hsplit := splitOnce_of_firstAt (by decide) h
  unfold arrow at hsplit ⊢
  rw [newPath, hsplit]
  rfl

/-- A path is printed without a blank, or between quotes. -/
theorem quotePath_cases (path : List UInt8) :
    (path.all plainByte = true ∧ ∀ c ∈ quotePath path, c ≠ ' ' ∧ c ≠ '"') ∨
    (path.all plainByte = false ∧ ∃ inner, quotePath path = '"' :: inner ++ ['"']) := by
  cases hplain : path.all plainByte with
  | true =>
    refine .inl ⟨rfl, fun c hc => ?_⟩
    rw [quotePath, if_pos hplain] at hc
    obtain ⟨b, hb, rfl⟩ := List.mem_map.mp hc
    have hbyte := List.all_eq_true.mp hplain b hb
    simp only [plainByte, Bool.and_eq_true, decide_eq_true_eq] at hbyte
    obtain ⟨⟨⟨hblank, -⟩, hquote⟩, -⟩ := hbyte
    constructor
    · intro h
      have hb : b = 0x20 := UInt8.toNat_inj.mp (congrArg Char.toNat h)
      rw [hb] at hblank
      exact absurd hblank (by decide)
    · intro h
      exact hquote (UInt8.toNat_inj.mp (congrArg Char.toNat h))
  | false => exact .inr ⟨rfl, path.flatMap cEscape, by rw [quotePath, hplain]; rfl⟩

/-- **Behind the first arrow** stands the new path, if the printed old one has
no arrow in it. -/
theorem newPath_told {path : List UInt8} (h : ¬ arrow <:+: quotePath path) :
    newPath (quotePath path ++ arrow ++ b) = b := by
  have hwall : '"' ∉ arrow := by decide
  refine newPath_of_firstAt ?_
  rcases quotePath_cases path with ⟨-, hplain⟩ | ⟨-, inner, hquoted⟩
  · refine ⟨?_, fun j hj hat => ?_⟩
    · rw [List.append_assoc, List.drop_left]
      exact List.prefix_append _ _
    · -- an arrow would start with a blank of the path
      rw [List.append_assoc, List.drop_append_of_le_length hj.le,
        List.drop_eq_getElem_cons hj, List.cons_append] at hat
      exact (hplain _ (List.getElem_mem hj)).1 (List.cons_prefix_cons.mp hat).1.symm
  · have hinner : arrow <:+: '"' :: inner ++ ['"'] ↔ arrow <:+: '"' :: inner := by
      rw [Occurs.infix_wall hwall, List.infix_nil, or_iff_left (by decide)]
    rw [hquoted, hinner] at h
    have hfirst := Occurs.firstAt_wall (b := b) hwall h
    have htext : '"' :: inner ++ '"' :: (arrow ++ b) = '"' :: inner ++ ['"'] ++ arrow ++ b := by
      simp
    rw [hquoted, ← htext]
    simpa using hfirst

/-- A change that shows its path alone: no copy, nor one renamed from a path that
is printed with an arrow in it. -/
def ShowsPath : Change → Prop
  | .untracked _ | .changed .. => True
  | .moved x y orig _ _ => (x = .renamed ∨ y = .renamed) ∧ ¬ arrow <:+: quotePath orig.bytes

theorem ShowsPath.shown_eq (h : ShowsPath change) :
    shown change = quotePath change.path.bytes := by
  cases change with
  | untracked path | changed x y path _ _ => rfl
  | moved x y orig path _ =>
    obtain ⟨hrenamed, harrow⟩ := h
    rw [shown, if_pos hrenamed]
    exact newPath_told harrow

/-- A change whose path is printed bare, without quotes. -/
def Bare (change : Change) : Prop := change.path.bytes.all plainByte = true

theorem Bare.encode_shown (h : Bare change) (hpath : ShowsPath change) :
    Utf8.encode (shown change) = change.path.bytes := by
  rw [hpath.shown_eq, encode_quotePath h]

/-! ## Where a line falls -/

/-- Is a change at an entry: of the file itself, or of anything beneath the
directory? -/
def Hit (dir : List Name) (e : DirEntry) (change : Change) : Prop :=
  match e.kind with
  | .dir => ∃ rest, rest ≠ [] ∧ change.path.names = dir ++ [e.name] ++ rest
  | .file => change.path.names = dir ++ [e.name]

/-- Does a line fall on an entry that is looked up under a prefix? -/
def Falls (rel : Text) (e : DirEntry) (change : Change) : Prop :=
  match e.kind with
  | .dir => relOf rel e.name ++ ['/'] <+: shown change
  | .file => shown change = relOf rel e.name

/-- A request spells a directory by its names, with slashes between them. -/
def Spells (rel : Text) (dir : List Name) : Prop := Utf8.encode rel = joinedNames dir

theorem joinedNames_ne_nil (h : dir ≠ []) : joinedNames dir ≠ [] := by
  obtain ⟨name, names, rfl⟩ := List.exists_cons_of_ne_nil h
  obtain ⟨b, bytes, hbytes⟩ := List.exists_cons_of_ne_nil name.nonempty
  cases names with
  | nil => simp [joinedNames, Joined.joined, hbytes]
  | cons name' names =>
    simp [joinedNames, Joined.joined, List.intercalate_cons_cons, hbytes]

theorem joinedNames_snoc : joinedNames (dir ++ [name]) =
    if dir = [] then name.bytes else joinedNames dir ++ 0x2f :: name.bytes := by
  split_ifs with h
  · rw [h]
    simp [joinedNames, Joined.joined]
  · rw [joinedNames, List.map_append, Joined.joined_append (by simpa using h) (by simp)]
    simp [joinedNames, Joined.joined]

theorem slash_notMem {ns : List Name} : ∀ l ∈ ns.map (·.bytes), (0x2f : UInt8) ∉ l := by
  intro l hl
  obtain ⟨name, -, rfl⟩ := List.mem_map.mp hl
  exact name.slash

theorem bytes_injective : Function.Injective Name.bytes := by
  rintro ⟨_, _, _⟩ ⟨_, _, _⟩ rfl
  rfl

theorem joinedNames_inj {ns ms : List Name} (hns : ns ≠ []) (hms : ms ≠ []) :
    joinedNames ns = joinedNames ms ↔ ns = ms := by
  refine ⟨fun h => ?_, fun h => h ▸ rfl⟩
  exact List.map_injective_iff.mpr bytes_injective
    (Joined.joined_inj (by simpa using hns) (by simpa using hms) slash_notMem slash_notMem h)

theorem joinedNames_sep_prefix {ns ms : List Name} (hns : ns ≠ []) (hms : ms ≠ []) :
    joinedNames ns ++ [0x2f] <+: joinedNames ms ↔ ∃ rest, rest ≠ [] ∧ ms = ns ++ rest := by
  rw [joinedNames, joinedNames, Joined.joined_sep_prefix (by simpa using hns) (by simpa using hms)
    slash_notMem slash_notMem]
  constructor
  · rintro ⟨rest, hrest, hmap⟩
    obtain ⟨pre, post, rfl, hpre, rfl⟩ := List.map_eq_append_iff.mp hmap
    rw [List.map_injective_iff.mpr bytes_injective hpre]
    exact ⟨post, by simpa using hrest, rfl⟩
  · rintro ⟨rest, hrest, rfl⟩
    exact ⟨rest.map (·.bytes), by simpa using hrest, List.map_append⟩

/-- A text spells one directory. -/
theorem Spells.unique {ns ms : List Name} (h : Spells rel ns) (h' : Spells rel ms) : ns = ms := by
  have hjoined : joinedNames ns = joinedNames ms := Eq.trans (Eq.symm h) h'
  by_cases hns : ns = [] <;> by_cases hms : ms = []
  · rw [hns, hms]
  · rw [hns] at hjoined
    exact absurd hjoined.symm (joinedNames_ne_nil hms)
  · rw [hms] at hjoined
    exact absurd hjoined (joinedNames_ne_nil hns)
  · exact (joinedNames_inj hns hms).mp hjoined

/-- The text an entry is looked up under, byte by byte. -/
theorem encode_relOf (h : Spells rel dir) (hname : Utf8.encode (lossy name) = name.bytes) :
    Utf8.encode (relOf rel name) = joinedNames (dir ++ [name]) := by
  have hroot : rel = [] ↔ dir = [] := by
    constructor
    · rintro rfl
      by_contra hdir
      exact joinedNames_ne_nil hdir h.symm
    · rintro rfl
      exact Utf8.encode_eq_nil.mp h
  rw [joinedNames_snoc, relOf]
  simp only [hroot]
  split_ifs with hdir
  · exact hname
  · rw [Utf8.encode_append, Utf8.encode_cons, h, hname]
    rfl

theorem lt_of_plainByte {b : UInt8} (h : plainByte b = true) : b < 0x80 := by
  simp only [plainByte, Bool.and_eq_true, decide_eq_true_eq] at h
  exact UInt8.lt_trans h.1.1.2 (by decide)

/-- A name is read as it is where every byte of it is one of seven bits. -/
theorem encode_lossy (h : ∀ b ∈ Utf8.encode (lossy name), b < 0x80) :
    Utf8.encode (lossy name) = name.bytes := Utf8.encode_decodeLossy_of_lt h

theorem encode_lossy_of_plain (h : ∀ b ∈ name.bytes, plainByte b = true) :
    Utf8.encode (lossy name) = name.bytes := by
  have hread : Utf8.encode (name.bytes.map Char.ofUInt8) = name.bytes := by
    have hplain : name.bytes.all plainByte = true := List.all_eq_true.mpr h
    have hquote := encode_quotePath hplain
    rwa [quotePath, if_pos hplain] at hquote
  rw [lossy, ← hread, Utf8.decodeLossy_encode]

/-- What an entry is looked up under is made of its name. -/
theorem subset_encode_relOf : ∀ b ∈ Utf8.encode (lossy name), b ∈ Utf8.encode (relOf rel name) := by
  intro b hb
  unfold relOf
  split_ifs
  · exact hb
  · rw [Utf8.encode_append, Utf8.encode_cons]
    exact List.mem_append_right _ (List.mem_append_right _ hb)

theorem subset_joinedNames_snoc : ∀ b ∈ name.bytes, b ∈ joinedNames (dir ++ [name]) := by
  intro b hb
  rw [joinedNames_snoc]
  split_ifs
  · exact hb
  · exact List.mem_append_right _ (List.mem_cons_of_mem _ hb)

/-- **The entry's own path** is what it is looked up under, if either stands in
a path that is printed bare. -/
theorem Bare.encode_relOf (h : Bare change) (hrel : Spells rel dir)
    (hsub : (∀ b ∈ Utf8.encode (relOf rel name), b ∈ change.path.bytes) ∨
      ∀ b ∈ joinedNames (dir ++ [name]), b ∈ change.path.bytes) :
    Utf8.encode (relOf rel name) = joinedNames (dir ++ [name]) := by
  have hplain : ∀ b ∈ change.path.bytes, plainByte b = true := List.all_eq_true.mp h
  refine Tree.encode_relOf hrel ?_
  rcases hsub with hsub | hsub
  · exact encode_lossy fun b hb => lt_of_plainByte (hplain b (hsub b (subset_encode_relOf b hb)))
  · exact encode_lossy_of_plain fun b hb => hplain b (hsub b (subset_joinedNames_snoc b hb))

/-- **A bare change falls where it is**, if the request spells the directory. -/
theorem Bare.falls_iff (h : Bare change) (hpath : ShowsPath change) (hrel : Spells rel dir) :
    Falls rel e change ↔ Hit dir e change := by
  have hne : dir ++ [e.name] ≠ [] := by simp
  unfold Falls Hit
  cases e.kind with
  | file =>
    simp only
    constructor
    · intro hfalls
      have henc : change.path.bytes = Utf8.encode (relOf rel e.name) := by
        rw [← h.encode_shown hpath, hfalls]
      have hnames := henc.trans (h.encode_relOf hrel (.inl fun b hb => henc ▸ hb))
      exact (joinedNames_inj change.path.nonempty hne).mp hnames
    · intro hhit
      have hbytes : change.path.bytes = joinedNames (dir ++ [e.name]) := by
        rw [WorkPath.bytes, hhit]
      refine Utf8.encode_injective ?_
      rw [h.encode_shown hpath, h.encode_relOf hrel (.inr fun b hb => hbytes ▸ hb), hbytes]
  | dir =>
    simp only
    rw [← joinedNames_sep_prefix hne change.path.nonempty]
    have hslash : Utf8.encode (relOf rel e.name ++ ['/']) =
        Utf8.encode (relOf rel e.name) ++ [0x2f] := by
      rw [Utf8.encode_append]
      rfl
    constructor
    · intro hfalls
      have henc : Utf8.encode (relOf rel e.name) ++ [0x2f] <+: change.path.bytes := by
        rw [← hslash, ← h.encode_shown hpath]
        obtain ⟨rest, hrest⟩ := hfalls
        have hwhole : Utf8.encode (relOf rel e.name ++ ['/'] ++ rest) =
            Utf8.encode (relOf rel e.name ++ ['/']) ++ Utf8.encode rest := Utf8.encode_append
        rw [← hrest, hwhole]
        exact List.prefix_append _ _
      rw [← h.encode_relOf hrel (.inl fun b hb => henc.subset (List.mem_append_left _ hb))]
      exact henc
    · intro hhit
      refine Utf8.prefix_of_encode_prefix ?_
      rw [hslash, h.encode_shown hpath,
        h.encode_relOf hrel (.inr fun b hb => hhit.subset (List.mem_append_left _ hb))]
      exact hhit

/-- **Where a bare change falls** the request spells a directory above it. -/
theorem Bare.beneath (h : Bare change) (hpath : ShowsPath change) (hfalls : Falls rel e change) :
    ∃ names rest, Spells rel names ∧ rest ≠ [] ∧ change.path.names = names ++ rest := by
  have hrel : rel = [] ∨ ∃ text, shown change = rel ++ '/' :: text := by
    refine or_iff_not_imp_left.mpr fun hne => ?_
    simp only [Falls, relOf, if_neg hne] at hfalls
    split at hfalls
    · obtain ⟨text, htext⟩ := hfalls
      exact ⟨lossy e.name ++ '/' :: text, by rw [← htext]; simp⟩
    · exact ⟨_, hfalls⟩
  rcases hrel with rfl | ⟨text, htext⟩
  · exact ⟨[], change.path.names, rfl, change.path.nonempty, rfl⟩
  · have hbytes : change.path.bytes = Utf8.encode rel ++ 0x2f :: Utf8.encode text := by
      rw [← h.encode_shown hpath, htext, Utf8.encode_append, Utf8.encode_cons]
      rfl
    obtain ⟨front, back, hnames, hback, hfront⟩ :=
      Joined.joined_split (by simpa using change.path.nonempty) slash_notMem hbytes
    obtain ⟨names, rest, hsplit, rfl, rfl⟩ := List.map_eq_append_iff.mp hnames
    exact ⟨names, rest, hfront.symm, by simpa using hback, hsplit⟩

/-- A path that is printed in quotes falls on none that begins otherwise. -/
theorem not_falls_of_quoted (hpath : ShowsPath change) (hquoted : ¬ Bare change)
    (h : (relOf rel e.name).head? ≠ some '"') : ¬ Falls rel e change := by
  obtain ⟨hbare, -⟩ | ⟨-, inner, hinner⟩ := quotePath_cases change.path.bytes
  · exact absurd hbare hquoted
  rw [Falls, hpath.shown_eq, hinner]
  cases e.kind with
  | file =>
    intro hfalls
    exact h (by rw [← hfalls]; rfl)
  | dir =>
    rintro ⟨rest, hrest⟩
    cases hrel : relOf rel e.name with
    | nil =>
      rw [hrel] at hrest
      cases hrest
    | cons c text =>
      rw [hrel] at hrest h
      exact h (congrArg some (List.cons.inj hrest).1)

/-! ## The listing -/

/-- What an entry's flag should be: on a directory one if something beneath it
is changed, on a file the letter of its change, if there is one. -/
def Right (changes : List Change) (dir : List Name) (e : DirEntry) (flag : Option Text) : Prop :=
  match e.kind, flag with
  | .dir, flag => flag.isSome = true ↔ ∃ change ∈ changes, Hit dir e change
  | .file, none => ∀ change ∈ changes, ¬ Hit dir e change
  | .file, some flag => ∃ change ∈ changes, Hit dir e change ∧ flag = [change.letter]

/-- **The rows show git's status**: they are the listed entries', each with the
flag it should have. -/
def Shows (changes : List Change) (dir : List Name) (read : List DirEntry)
    (rows : List TreeEntry) : Prop :=
  ∃ flag : DirEntry → Option Text,
    (∀ e ∈ read, e.listed = true → Right changes dir e (flag e)) ∧
      rows.Perm ((read.filter (·.listed)).map fun e => e.row (flag e))

/-- **No line is mistaken** for one about an entry that is listed: each shows
its path alone; where one is printed in quotes, no path that is looked up begins
with one; and git has nothing changed beneath what the request spells, unless
that is the directory. -/
structure Unmistaken (changes : List Change) (dir : List Name) (rel : Text)
    (read : List DirEntry) : Prop where
  showsPath : ∀ change ∈ changes, ShowsPath change
  quoted : ∀ change ∈ changes, ¬ Bare change →
    ∀ e ∈ read, e.listed = true → (relOf rel e.name).head? ≠ some '"'
  beneath : ∀ names rest, Spells rel names → rest ≠ [] →
    (∃ change ∈ changes, change.path.names = names ++ rest) → names = dir

/-- **An entry's change is told**: where something is changed, the request
spells the directory, and a change there is printed bare. -/
def Told (changes : List Change) (dir : List Name) (rel : Text) (e : DirEntry) : Prop :=
  (∃ change ∈ changes, Hit dir e change) →
    Spells rel dir ∧ ∃ change ∈ changes, Bare change ∧ Hit dir e change

/-- Then a line falls on an entry where it is bare and its change is there. -/
theorem Unmistaken.falls_iff {read : List DirEntry} (h : Unmistaken changes dir rel read)
    (hmem : e ∈ read) (hlisted : e.listed = true) (hchange : change ∈ changes) :
    Falls rel e change ↔ Spells rel dir ∧ Bare change ∧ Hit dir e change := by
  have hpath : ShowsPath change := h.showsPath change hchange
  constructor
  · intro hfalls
    have hbare : Bare change := by
      by_contra hnot
      exact not_falls_of_quoted hpath hnot (h.quoted change hchange hnot e hmem hlisted) hfalls
    obtain ⟨names, rest, hspells, hrest, hnames⟩ := hbare.beneath hpath hfalls
    obtain rfl := h.beneath names rest hspells hrest ⟨change, hchange, hnames⟩
    exact ⟨hspells, hbare, (hbare.falls_iff hpath hspells).mp hfalls⟩
  · rintro ⟨hspells, hbare, hhit⟩
    exact (hbare.falls_iff hpath hspells).mpr hhit

theorem exists_last {p : Change → Prop} (h : ∃ change ∈ changes, p change) :
    ∃ before last after, changes = before ++ last :: after ∧ p last ∧
      ∀ change ∈ after, ¬ p change := by
  induction changes with
  | nil => simp at h
  | cons first changes ih =>
    by_cases hrest : ∃ change ∈ changes, p change
    · obtain ⟨before, last, after, rfl, hlast, hafter⟩ := ih hrest
      exact ⟨first :: before, last, after, rfl, hlast, hafter⟩
    · obtain ⟨change, hmem, hp⟩ := h
      rcases List.mem_cons.mp hmem with rfl | hmem
      · exact ⟨[], change, changes, rfl, hp, fun d hd hpd => hrest ⟨d, hd, hpd⟩⟩
      · exact absurd ⟨change, hmem, hp⟩ hrest

/-- A directory is flagged where a line falls on it. -/
theorem gitOf_dir (h : e.kind = .dir) :
    (gitOf (parsePorcelain (printStatus changes)) rel e).isSome = true ↔
      ∃ change ∈ changes, Falls rel e change := by
  simp only [gitOf, h, Falls]
  split_ifs with hany
  · rw [any_parsePorcelain] at hany
    simpa using hany
  · rw [any_parsePorcelain] at hany
    simpa using hany

/-- A file has the letter of the last line that falls on it. -/
theorem gitOf_file_some {before after : List Change} {last : Change} (h : e.kind = .file)
    (hsplit : changes = before ++ last :: after) (hlast : Falls rel e last)
    (hafter : ∀ change ∈ after, ¬ Falls rel e change) :
    gitOf (parsePorcelain (printStatus changes)) rel e = some [last.letter] := by
  simp only [Falls, h] at hlast hafter
  have hnone : after.filter (shown · = relOf rel e.name) = [] :=
    List.filter_eq_nil_iff.mpr fun change hmem => by simpa using hafter change hmem
  simp only [gitOf, h, get_parsePorcelain, hsplit]
  rw [List.filter_append, List.filter_cons_of_pos (by simpa using hlast), hnone]
  simp

theorem gitOf_file_none (h : e.kind = .file) (hnone : ∀ change ∈ changes, ¬ Falls rel e change) :
    gitOf (parsePorcelain (printStatus changes)) rel e = none := by
  simp only [Falls, h] at hnone
  have hfilter : changes.filter (shown · = relOf rel e.name) = [] :=
    List.filter_eq_nil_iff.mpr fun change hmem => by simpa using hnone change hmem
  simp only [gitOf, h, get_parsePorcelain, hfilter]
  rfl

/-- **A flag is right exactly if its entry's change is told.** -/
theorem Unmistaken.right_iff {read : List DirEntry} (h : Unmistaken changes dir rel read)
    (hmem : e ∈ read) (hlisted : e.listed = true) :
    Right changes dir e (gitOf (parsePorcelain (printStatus changes)) rel e) ↔
      Told changes dir rel e := by
  have hfalls : (∃ change ∈ changes, Falls rel e change) ↔
      Spells rel dir ∧ ∃ change ∈ changes, Bare change ∧ Hit dir e change := by
    constructor
    · rintro ⟨change, hchange, hfall⟩
      obtain ⟨hspells, hown⟩ := (h.falls_iff hmem hlisted hchange).mp hfall
      exact ⟨hspells, change, hchange, hown⟩
    · rintro ⟨hspells, change, hchange, hown⟩
      exact ⟨change, hchange, (h.falls_iff hmem hlisted hchange).mpr ⟨hspells, hown⟩⟩
  have hhit : (Spells rel dir ∧ ∃ change ∈ changes, Bare change ∧ Hit dir e change) →
      ∃ change ∈ changes, Hit dir e change :=
    fun ⟨_, change, hchange, _, hhit⟩ => ⟨change, hchange, hhit⟩
  cases hkind : e.kind with
  | dir =>
    simp only [Right, hkind, gitOf_dir hkind, hfalls, Told]
    exact ⟨Iff.mpr, fun htold => ⟨hhit, htold⟩⟩
  | file =>
    by_cases hfall : ∃ change ∈ changes, Falls rel e change
    · obtain ⟨before, last, after, hsplit, hlast, hafter⟩ := exists_last hfall
      have hlastmem : last ∈ changes := by rw [hsplit]; simp
      simp only [Right, hkind, gitOf_file_some hkind hsplit hlast hafter]
      have hown := (h.falls_iff hmem hlisted hlastmem).mp hlast
      exact iff_of_true ⟨last, hlastmem, hown.2.2, rfl⟩ fun _ => hfalls.mp hfall
    · have hnone : ∀ change ∈ changes, ¬ Falls rel e change := fun change hchange hf =>
        hfall ⟨change, hchange, hf⟩
      simp only [Right, hkind, gitOf_file_none hkind hnone]
      constructor
      · rintro hright ⟨change, hchange, hhit⟩
        exact absurd hhit (hright change hchange)
      · intro htold change hchange hhit
        exact hfall (hfalls.mpr (htold ⟨change, hchange, hhit⟩))

theorem listDir_perm {m : Machine} {target : List Name} {flags : Flags}
    {read : List (Option DirEntry)} (h : m.readDir target = some read) :
    (listDir m target flags rel).Perm
      (((read.filterMap id).filter (·.listed)).map fun e => e.row (gitOf flags rel e)) := by
  have hkind : ∀ row : TreeEntry, (decide (row.kind = .file)) = !decide (row.kind = .dir) := by
    intro row
    cases row.kind <;> rfl
  simp only [listDir, h, sortByKey]
  refine ((List.mergeSort_perm _ _).append (List.mergeSort_perm _ _)).trans ?_
  rw [List.filter_congr (q := fun row => !decide (row.kind = .dir)) fun row _ => hkind row]
  exact List.filter_append_perm _ _

/-- The rows show the status exactly if every listed entry's flag is right. -/
theorem shows_iff_right {m : Machine} {target : List Name} {read : List (Option DirEntry)}
    (h : m.readDir target = some read) :
    Shows changes dir (read.filterMap id)
        (listDir m target (parsePorcelain (printStatus changes)) rel) ↔
      ∀ e ∈ read.filterMap id, e.listed = true →
        Right changes dir e (gitOf (parsePorcelain (printStatus changes)) rel e) := by
  constructor
  · rintro ⟨flag, hright, hperm⟩ e hmem hlisted
    -- the row of an entry is that of one with its name and kind
    have hrow : e.row (flag e) ∈ ((read.filterMap id).filter (·.listed)).map fun e =>
        e.row (gitOf (parsePorcelain (printStatus changes)) rel e) := by
      refine (hperm.symm.trans (listDir_perm h)).subset ?_
      exact List.mem_map.mpr ⟨e, List.mem_filter.mpr ⟨hmem, hlisted⟩, rfl⟩
    obtain ⟨e', -, heq⟩ := List.mem_map.mp hrow
    obtain ⟨hname, hkind, hflag⟩ := TreeEntry.mk.inj heq
    have hsame : gitOf (parsePorcelain (printStatus changes)) rel e' =
        gitOf (parsePorcelain (printStatus changes)) rel e := by
      unfold gitOf relOf
      rw [hkind, hname]
    have hown := hright e hmem hlisted
    rwa [← hflag, hsame] at hown
  · intro hright
    exact ⟨gitOf _ rel, hright, listDir_perm h⟩

/-- **The rows show the status exactly if every listed change is told**, where
no line is mistaken. -/
theorem listDir_shows_iff {m : Machine} {target : List Name} {read : List (Option DirEntry)}
    (h : m.readDir target = some read) (hlines : Unmistaken changes dir rel (read.filterMap id)) :
    Shows changes dir (read.filterMap id)
        (listDir m target (parsePorcelain (printStatus changes)) rel) ↔
      ∀ e ∈ read.filterMap id, e.listed = true → Told changes dir rel e := by
  rw [shows_iff_right h]
  exact forall₃_congr fun e hmem hlisted => hlines.right_iff hmem hlisted

/-- What resolves lies in the workspace. -/
theorem resolveWithin_ok {m : Machine} {workspace path : Path} {target : List Name}
    (h : resolveWithin m workspace path = .ok target) :
    ∃ root dir, m.canonicalize workspace = .ok root ∧ target = root ++ dir := by
  unfold resolveWithin at h
  split_ifs at h
  split at h
  · cases h
  · rename_i root hroot
    split at h
    · cases h
    · rename_i found _
      split_ifs at h with hstarts
      obtain ⟨dir, hdir⟩ := List.isPrefixOf_iff_prefix.mp hstarts
      obtain rfl := Except.ok.inj h
      exact ⟨root, dir, hroot, hdir.symm⟩

/-- What git is asked for. -/
def statusArgs : List String := ["status", "--porcelain=v1", "--untracked-files=all"]

theorem projectTree_ok {m : Machine} {projects : ProjectMap} {key : ProjectId} {text : String}
    {path : Option Path} {project : Project} {target : List Name} {err : List UInt8}
    (hproject : projects.lookup key = some project)
    (htarget : resolveWithin m project.workspace (path.getD "") = .ok target)
    (hstatus : m.git project.workspace statusArgs =
      .ok ⟨true, Utf8.encode (printStatus changes), err⟩) :
    projectTree m projects key text path =
      .ok ⟨listDir m target (parsePorcelain (printStatus changes)) (path.getD "").toList,
        (currentBranch m project.workspace).toOption⟩ := by
  have hrun : run m project.workspace statusArgs = .ok (printStatus changes) := by
    rw [run, hstatus]
    simp
  unfold statusArgs at hrun
  simp only [projectTree, hproject, htarget, hrun]

/-- **The tree shows git's status**, for every status and every directory that
a request resolves to, if no line is mistaken and, wherever something listed is
changed, the request spells the directory and a change there is printed bare;
where no line is mistaken, not otherwise. -/
theorem tree_status_iff {m : Machine} {projects : ProjectMap} {key : ProjectId} (text : String)
    (path : Option Path) {project : Project} {target : List Name} {read : List (Option DirEntry)}
    {err : List UInt8} (hproject : projects.lookup key = some project)
    (htarget : resolveWithin m project.workspace (path.getD "") = .ok target)
    (hread : m.readDir target = some read)
    (hstatus : m.git project.workspace statusArgs =
      .ok ⟨true, Utf8.encode (printStatus changes), err⟩) :
    ∃ root dir result, m.canonicalize project.workspace = .ok root ∧ target = root ++ dir ∧
      projectTree m projects key text path = .ok result ∧
      (Unmistaken changes dir (path.getD "").toList (read.filterMap id) →
        (Shows changes dir (read.filterMap id) result.entries ↔
          ∀ e ∈ read.filterMap id, e.listed = true →
            Told changes dir (path.getD "").toList e)) := by
  obtain ⟨root, dir, hroot, hdir⟩ := resolveWithin_ok htarget
  exact ⟨root, dir, _, hroot, hdir, projectTree_ok hproject htarget hstatus,
    listDir_shows_iff hread⟩

/-- A changed file that no line falls on is listed as if it were not changed. -/
theorem not_shows (changes : List Change) (dir : List Name) (rel : Text) (e : DirEntry)
    (change : Change) {m : Machine} {target : List Name} {read : List (Option DirEntry)}
    (hread : m.readDir target = some read) (hmem : e ∈ read.filterMap id)
    (hlisted : e.listed = true) (hkind : e.kind = .file) (hchange : change ∈ changes)
    (hhit : Hit dir e change) (hnone : ∀ change ∈ changes, ¬ Falls rel e change) :
    e.row none ∈ listDir m target (parsePorcelain (printStatus changes)) rel ∧
      ¬ Shows changes dir (read.filterMap id)
        (listDir m target (parsePorcelain (printStatus changes)) rel) := by
  have hflag : gitOf (parsePorcelain (printStatus changes)) rel e = none :=
    gitOf_file_none hkind hnone
  constructor
  · refine (listDir_perm hread).mem_iff.mpr ?_
    exact List.mem_map.mpr ⟨e, List.mem_filter.mpr ⟨hmem, hlisted⟩, by rw [hflag]⟩
  · intro hshows
    have hright := (shows_iff_right hread).mp hshows e hmem hlisted
    simp only [Right, hkind, hflag] at hright
    exact hright change hchange hhit

/-! ## A workspace with two changed files -/

def workspaceName : Name := ⟨"w".toUTF8.toList, by decide +kernel, by decide +kernel⟩

def srcName : Name := ⟨"src".toUTF8.toList, by decide +kernel, by decide +kernel⟩

/-- A name with a blank. -/
def blankName : Name := ⟨"a b".toUTF8.toList, by decide +kernel, by decide +kernel⟩

def changedName : Name := ⟨"f".toUTF8.toList, by decide +kernel, by decide +kernel⟩

def sameName : Name := ⟨"g".toUTF8.toList, by decide +kernel, by decide +kernel⟩

def blankChange : Change :=
  .changed .unmodified .modified ⟨[blankName], by decide⟩ (by decide) (by decide)

def srcChange : Change :=
  .changed .unmodified .modified ⟨[srcName, changedName], by decide⟩ (by decide) (by decide)

def sampleMachine : Machine where
  canonicalize path :=
    if path = "/w" ∨ path = "/w/" then .ok [workspaceName]
    else if path = "/w/src" ∨ path = "/w/./src" then .ok [workspaceName, srcName]
    else .error "No such file or directory (os error 2)"
  readDir dir :=
    if dir = [workspaceName] then some [some ⟨blankName, some false⟩, some ⟨srcName, some true⟩]
    else if dir = [workspaceName, srcName] then
      some [some ⟨changedName, some false⟩, some ⟨sameName, some false⟩]
    else none
  git _ args :=
    .ok ⟨true, Utf8.encode (if args = statusArgs then printStatus [blankChange, srcChange]
      else "main\n".toList), []⟩
  toLowercase text := text.map Char.toLower

def sampleProject : Project where
  id := 1
  name := "w"
  slug := "w"
  source := "C:\\w"
  workspace := "/w"
  branch := "main"
  state := .ready
  sourcePresent := true
  createdAt := "t"
  sandbox := {}
  sandboxProblem := none

def sampleProjects : ProjectMap := AList.singleton 1 sampleProject

theorem git_sample : sampleMachine.git sampleProject.workspace statusArgs =
    .ok ⟨true, Utf8.encode (printStatus [blankChange, srcChange]), []⟩ := rfl

theorem lookup_sample : sampleProjects.lookup 1 = some sampleProject := by decide

/-- A directory that is asked for by its name shows which file is changed. -/
theorem tree_status_src :
    ∃ result, projectTree sampleMachine sampleProjects 1 "1" (some "src") = .ok result ∧
      Shows [blankChange, srcChange] [srcName]
        [⟨changedName, some false⟩, ⟨sameName, some false⟩] result.entries := by
  have htarget : resolveWithin sampleMachine sampleProject.workspace "src" =
      .ok [workspaceName, srcName] := by decide +kernel
  have hread : sampleMachine.readDir [workspaceName, srcName] =
      some [some ⟨changedName, some false⟩, some ⟨sameName, some false⟩] := by decide +kernel
  obtain ⟨root, dir, result, hroot, hdir, hresult, hiff⟩ :=
    tree_status_iff "1" (some "src") lookup_sample htarget hread git_sample
  obtain rfl : [workspaceName] = root := by
    have hok : sampleMachine.canonicalize sampleProject.workspace = .ok [workspaceName] := by
      decide +kernel
    exact Except.ok.inj (hok.symm.trans hroot)
  obtain rfl : dir = [srcName] := (List.cons.inj hdir).2.symm
  have hspells : Spells "src".toList [srcName] := by
    unfold Spells
    decide +kernel
  have hbare : Bare srcChange := by
    show (WorkPath.bytes _).all plainByte = true
    decide +kernel
  have hlines : Unmistaken [blankChange, srcChange] [srcName] "src".toList
      [⟨changedName, some false⟩, ⟨sameName, some false⟩] := by
    refine ⟨fun change hchange => ?_, fun _ _ _ e hmem _ => ?_, fun names rest hnames _ _ =>
      hnames.unique hspells⟩
    · rcases List.mem_pair.mp hchange with rfl | rfl <;> trivial
    · rcases List.mem_pair.mp hmem with rfl | rfl <;> decide +kernel
  refine ⟨result, hresult, (hiff hlines).mpr fun e hmem _ hchanged => ?_⟩
  refine ⟨hspells, srcChange, by simp, hbare, ?_⟩
  rcases List.mem_pair.mp hmem with rfl | rfl
  · rfl
  · -- nothing is changed there
    obtain ⟨change, hchange, hhit⟩ := hchanged
    rcases List.mem_pair.mp hchange with rfl | rfl
    · exact absurd hhit (show ¬ (_ = _) by decide +kernel)
    · exact hhit

/-- **Changed files are listed as if they were not**: one whose name has a
blank, and one whose directory is asked for with a `.` before its name. -/
theorem changes_unseen :
    (∃ result, projectTree sampleMachine sampleProjects 1 "1" none = .ok result ∧
      ⟨"a b".toList, .file, none⟩ ∈ result.entries ∧
      ¬ Shows [blankChange, srcChange] []
        [⟨blankName, some false⟩, ⟨srcName, some true⟩] result.entries) ∧
    ∃ result, projectTree sampleMachine sampleProjects 1 "1" (some "./src") = .ok result ∧
      ⟨"f".toList, .file, none⟩ ∈ result.entries ∧
      ¬ Shows [blankChange, srcChange] [srcName]
        [⟨changedName, some false⟩, ⟨sameName, some false⟩] result.entries := by
  constructor
  · have htarget : resolveWithin sampleMachine sampleProject.workspace "" =
        .ok [workspaceName] := by decide +kernel
    have hread : sampleMachine.readDir [workspaceName] =
        some [some ⟨blankName, some false⟩, some ⟨srcName, some true⟩] := by decide +kernel
    have hmissed := not_shows [blankChange, srcChange] [] [] ⟨blankName, some false⟩ blankChange
      hread (by simp) (by decide +kernel) rfl (by simp) rfl fun change hchange => by
        rcases List.mem_pair.mp hchange with rfl | rfl
        · show ¬ (_ = _)
          decide +kernel
        · show ¬ (_ = _)
          decide +kernel
    refine ⟨_, projectTree_ok lookup_sample htarget git_sample, ?_, hmissed.2⟩
    have hrow : DirEntry.row ⟨blankName, some false⟩ none = ⟨"a b".toList, .file, none⟩ := by
      decide +kernel
    exact hrow ▸ hmissed.1
  · have htarget : resolveWithin sampleMachine sampleProject.workspace "./src" =
        .ok [workspaceName, srcName] := by decide +kernel
    have hread : sampleMachine.readDir [workspaceName, srcName] =
        some [some ⟨changedName, some false⟩, some ⟨sameName, some false⟩] := by decide +kernel
    have hmissed := not_shows [blankChange, srcChange] [srcName] "./src".toList
      ⟨changedName, some false⟩ srcChange hread (by simp) (by decide +kernel) rfl (by simp) rfl
      fun change hchange => by
        rcases List.mem_pair.mp hchange with rfl | rfl
        · show ¬ (_ = _)
          decide +kernel
        · show ¬ (_ = _)
          decide +kernel
    refine ⟨_, projectTree_ok lookup_sample htarget git_sample, ?_, hmissed.2⟩
    have hrow : DirEntry.row ⟨changedName, some false⟩ none = ⟨"f".toList, .file, none⟩ := by
      decide +kernel
    exact hrow ▸ hmissed.1

end Tree
end Willie
