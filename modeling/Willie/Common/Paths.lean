import Mathlib.Data.List.Infix
import Mathlib.Data.List.Induction

/-!
# Unix paths, read lexically

A path is text; its segments are what stands between its slashes. Reading
a path segment by segment, an empty one and `.` go nowhere, `..` climbs,
anything else descends: where a reading ends is a `Place`, and the place
of a path is its lexical normal form. The file system is never asked, so
a link changes nothing here.

The point of the file is `walk_eq`: wherever it starts, reading a path
climbs a fixed number of levels and then descends a fixed list of names,
the same ones from every start.
-/

namespace Paths

/-- A path as the program holds it. -/
abbrev Path := String

/-- One segment of a path, no slash in it. -/
abbrev Segment := List Char

/-- Does the path start at the root? -/
def isAbsolute (p : Path) : Bool := p.toList.head? == some '/'

/-- Appending a path to another: an absolute one replaces it, otherwise a
slash goes between unless one is there already or there is nothing to
part. -/
def join (a b : Path) : Path :=
  if isAbsolute b then b
  else if a.toList = [] ∨ a.toList.getLast? = some '/' then a ++ b
  else a ++ "/" ++ b

/-- What stands between the slashes of a path. -/
def segments (p : Path) : List Segment := p.toList.splitOn '/'

/-- A segment that goes nowhere. -/
def idle (s : Segment) : Bool := s = [] ∨ s = ['.']

/-- The segments of a path, those that go nowhere left off at the end. -/
def trimmed (ss : List Segment) : List Segment := (ss.reverse.dropWhile idle).reverse

/-- The path without its last component; the root and the empty path have
none. -/
def parent (p : Path) : Option Path :=
  match trimmed (segments p) with
  | [] => if isAbsolute p ∨ p = "" then none else some ""
  | s :: ss =>
    let rest := trimmed ((s :: ss).dropLast)
    some (if rest = [] ∧ isAbsolute p then "/"
      else String.ofList (List.intercalate ['/'] rest))

/-- A component of a path. -/
inductive Component where
  | rootDir
  | curDir
  | parentDir
  | normal (s : Segment)
  deriving DecidableEq, Repr

/-- The components of a path: the segments that go somewhere, and a `.`
that a relative path opens with. -/
def components (p : Path) : List Component :=
  (if isAbsolute p then [.rootDir]
    else if (segments p).head? = some ['.'] then [.curDir] else []) ++
  (segments p).filterMap fun s =>
    if idle s then none else if s = ['.', '.'] then some .parentDir else some (.normal s)

/-- Does the path begin with all the components of another? -/
def startsWith (p base : Path) : Bool := (components base).isPrefixOf (components p)

/-- **A lexical normal form.** From the root or not, how many levels above
the start, and the names below that. -/
structure Place where
  root : Bool
  ups : Nat
  names : List Segment
  deriving DecidableEq, Repr

/-- Where a relative reading starts. -/
def Place.here : Place := ⟨false, 0, []⟩

/-- One level up. The root has nothing above it. -/
def Place.up (q : Place) : Place :=
  if q.names ≠ [] then { q with names := q.names.dropLast }
  else if q.root then q
  else { q with ups := q.ups + 1 }

/-- Several levels up. -/
def Place.climb (q : Place) : Nat → Place
  | 0 => q
  | k + 1 => (q.climb k).up

/-- Down along a list of names. -/
def Place.down (q : Place) (ns : List Segment) : Place := { q with names := q.names ++ ns }

/-- Reading one segment. -/
def Place.step (q : Place) (s : Segment) : Place :=
  if s = [] ∨ s = ['.'] then q
  else if s = ['.', '.'] then q.up
  else q.down [s]

/-- Reading a path from a place. -/
def Place.walk (q : Place) (p : Path) : Place := (segments p).foldl Place.step q

/-- The place of a path: its lexical normal form. -/
def place (p : Path) : Place := Place.walk ⟨isAbsolute p, 0, []⟩ p

/-- How far a path climbs above where its reading starts. -/
def rises (p : Path) : Nat := (Place.here.walk p).ups

/-- What a path descends into once it has climbed. -/
def descends (p : Path) : List Segment := (Place.here.walk p).names

/-- `q` is `base` or lies below it. -/
def Place.Under (q base : Place) : Prop := ∃ ns, q = base.down ns

/-- `q` lies below `base`. -/
def Place.StrictlyUnder (q base : Place) : Prop := ∃ ns, ns ≠ [] ∧ q = base.down ns

/-! ## Places -/

@[simp] theorem Place.down_nil (q : Place) : q.down [] = q := by
  simp [Place.down]

@[simp] theorem Place.down_down (q : Place) (ms ns : List Segment) :
    (q.down ms).down ns = q.down (ms ++ ns) := by
  simp [Place.down]

/-- Up from a name is where the name was entered. -/
@[simp] theorem Place.up_down_snoc (q : Place) (ns : List Segment) (n : Segment) :
    (q.down (ns ++ [n])).up = q.down ns := by
  simp [Place.down, Place.up, ← List.append_assoc]

@[simp] theorem Place.up_down_singleton (q : Place) (n : Segment) : (q.down [n]).up = q := by
  simpa using q.up_down_snoc [] n

@[simp] theorem Place.climb_zero (q : Place) : q.climb 0 = q := rfl

theorem Place.climb_succ (q : Place) (k : Nat) : q.climb (k + 1) = (q.climb k).up := rfl

@[simp] theorem Place.climb_one (q : Place) : q.climb 1 = q.up := rfl

theorem Place.climb_add (q : Place) (j k : Nat) : q.climb (j + k) = (q.climb j).climb k := by
  induction k with
  | zero => rfl
  | succ k ih => rw [← Nat.add_assoc, Place.climb_succ, ih, Place.climb_succ]

/-- Climbing over two names leaves the rest of the climb. -/
theorem Place.climb_down_pair (q : Place) (m n : Segment) (k : Nat) :
    (q.down [m, n]).climb (2 + k) = q.climb k := by
  rw [Place.climb_add]
  congr 1
  rw [show 2 = 1 + 1 from rfl, Place.climb_succ, Place.climb_one,
    show [m, n] = [m] ++ [n] from rfl, Place.up_down_snoc, Place.up_down_singleton]

theorem Place.strictlyUnder_down {ns : List Segment} (q : Place) (h : ns ≠ []) :
    (q.down ns).StrictlyUnder q := ⟨ns, h, rfl⟩

theorem Place.StrictlyUnder.under {q base : Place} (h : q.StrictlyUnder base) : q.Under base := by
  obtain ⟨ns, -, rfl⟩ := h
  exact ⟨ns, rfl⟩

theorem Place.under_iff {q base : Place} :
    q.Under base ↔ q.root = base.root ∧ q.ups = base.ups ∧ base.names <+: q.names := by
  constructor
  · rintro ⟨ns, rfl⟩
    exact ⟨rfl, rfl, List.prefix_append _ _⟩
  · rintro ⟨h1, h2, ns, h3⟩
    exact ⟨ns, by cases q; simp_all [Place.down]⟩

theorem Place.strictlyUnder_iff {q base : Place} :
    q.StrictlyUnder base ↔ q.Under base ∧ q ≠ base := by
  constructor
  · rintro ⟨ns, hne, rfl⟩
    refine ⟨⟨ns, rfl⟩, fun h => hne ?_⟩
    simpa [Place.down] using congrArg Place.names h
  · rintro ⟨⟨ns, rfl⟩, hne⟩
    refine ⟨ns, ?_, rfl⟩
    rintro rfl
    exact hne (by simp)

instance (q base : Place) : Decidable (q.Under base) := decidable_of_iff _ Place.under_iff.symm

instance (q base : Place) : Decidable (q.StrictlyUnder base) :=
  decidable_of_iff _ Place.strictlyUnder_iff.symm

/-! ## Reading a path -/

theorem Place.root_step (q : Place) (s : Segment) : (q.step s).root = q.root := by
  unfold Place.step Place.up Place.down
  grind

theorem Place.root_foldl_step (ss : List Segment) (q : Place) :
    (ss.foldl Place.step q).root = q.root := by
  induction ss generalizing q with
  | nil => rfl
  | cons s ss ih => rw [List.foldl_cons, ih, Place.root_step]

/-- Reading a segment list from anywhere climbs and descends as reading it
from the start does. -/
theorem Place.foldl_step_eq (q : Place) (ss : List Segment) :
    ss.foldl Place.step q =
      (q.climb (ss.foldl Place.step .here).ups).down (ss.foldl Place.step .here).names := by
  -- on the last segment, which alone decides whether the reading ends on a name or on a climb
  induction ss using List.reverseRecOn with
  | nil => simp [Place.here]
  | append_singleton ss s ih =>
    simp only [List.foldl_append, List.foldl_cons, List.foldl_nil]
    have hroot : (ss.foldl Place.step .here).root = false := Place.root_foldl_step ss .here
    rw [ih]
    generalize ss.foldl Place.step .here = r at hroot ⊢
    obtain ⟨root, ups, names⟩ := r
    obtain rfl : root = false := hroot
    by_cases h1 : s = [] ∨ s = ['.']
    · simp [Place.step, h1]
    by_cases h2 : s = ['.', '.']
    · rcases List.eq_nil_or_concat names with rfl | ⟨ns, n, rfl⟩
      · simp [Place.step, h2, Place.up, Place.climb_succ]
      · simp [Place.step, h2, Place.up, Place.down]
    · simp [Place.step, h1, h2, Place.down]

/-- **A path reads the same from everywhere.** -/
theorem Place.walk_eq (q : Place) (p : Path) : q.walk p = (q.climb (rises p)).down (descends p) :=
  q.foldl_step_eq _

/-- Reading two paths with a slash between them is reading one after the
other. -/
theorem Place.walk_append_slash (q : Place) (a b : Path) :
    q.walk (a ++ "/" ++ b) = (q.walk a).walk b := by
  simp [Place.walk, segments, List.splitOn_append_cons_self]

/-- A slash at the end of a path goes nowhere. -/
theorem Place.walk_append_of_slash (q : Place) {a : Path} (b : Path)
    (h : a.toList.getLast? = some '/') : q.walk (a ++ b) = (q.walk a).walk b := by
  obtain ⟨cs, hcs⟩ := List.getLast?_eq_some_iff.mp h
  simp [Place.walk, segments, hcs, List.splitOn_append_cons_self, Place.step]

/-! ## Joining -/

/-- Two relative paths joined to the same one are told apart. -/
theorem join_inj {a b b' : Path} (hb : isAbsolute b = false) (hb' : isAbsolute b' = false)
    (h : join a b = join a b') : b = b' := by
  simp only [join, hb, hb', Bool.false_eq_true, if_false] at h
  split at h
  · exact String.append_right_inj a |>.mp h
  · exact String.append_right_inj (a ++ "/") |>.mp h

/-- A relative path joined to another is read after it. -/
theorem place_join {a b : Path} (h : isAbsolute b = false) :
    place (join a b) = (place a).walk b := by
  unfold join
  rw [if_neg (by simp [h])]
  split
  · rename_i ha
    rcases ha with ha | ha
    · obtain rfl : a = "" := String.toList_inj.mp ha
      have he : isAbsolute ("" ++ b) = false := by simpa using h
      rw [place, he, String.empty_append]
      simp [place, Place.walk, segments, isAbsolute, Place.step]
    · have hne : a.toList ≠ [] := by rintro h0; simp [h0] at ha
      rw [place, Place.walk_append_of_slash _ b ha]
      simp [place, isAbsolute, List.head?_append_of_ne_nil _ hne]
  · rename_i ha
    have hne : a.toList ≠ [] := fun h0 => ha (.inl h0)
    rw [place, Place.walk_append_slash]
    simp [place, isAbsolute, List.head?_append_of_ne_nil _ hne]

/-! ## Plain names -/

/-- A file name: one segment that descends. -/
def Plain (n : Segment) : Prop := '/' ∉ n ∧ n ≠ [] ∧ n ≠ ['.'] ∧ n ≠ ['.', '.']

/-- Reading a plain name goes down to it. -/
theorem Place.walk_plain (q : Place) {p : Path} (h : Plain p.toList) :
    q.walk p = q.down [p.toList] := by
  obtain ⟨h1, h2, h3, h4⟩ := h
  simp [Place.walk, segments, List.splitOn_eq_singleton h1, Place.step, h2, h3, h4]

theorem Plain.relative {p : Path} (h : Plain p.toList) : isAbsolute p = false := by
  obtain ⟨h1, -⟩ := h
  unfold isAbsolute
  rcases hp : p.toList with _ | ⟨c, cs⟩
  · rfl
  · simp_all
    grind

/-- A plain name climbs nowhere. -/
theorem Plain.rises {p : Path} (h : Plain p.toList) : rises p = 0 := by
  simp [Paths.rises, Place.walk_plain _ h, Place.here, Place.down]

end Paths
