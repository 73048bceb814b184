import Willie.Terminal.Acting
/-!
# The bytes of an acting sequence

Every byte of a sequence the emulator reads is attributed to it: the
introducer, the parameters, the byte that decides it, and its string to
the terminator. The filter withholds them all while it identifies the
sequence or stays in a string it drops. It parts from the emulator in two
ways, and both start at CAN or SUB: a sequence opens on the `C2` of a
string the filter streams, or on the `C2` of one it drops, whose BEL then
puts the filter back in ground while the emulator goes on. Where neither
happens to an acting sequence, none of its bytes reaches the output
(`acting_withheld`).
-/

namespace Willie

namespace Terminal

namespace Emulator

/-! ## The bytes a sequence is made of -/

/-- A byte that opens a sequence after `ESC`. -/
def opensEsc (b : UInt8) : Bool := b == 0x5b || b == 0x5d || b == 0x50

/-- A byte that opens a sequence after `C2`. -/
def opensC2 (b : UInt8) : Bool := b == 0x9b || b == 0x9d || b == 0x90

theorem opensEsc_iff {b : UInt8} : opensEsc b = true ↔ b = 0x5b ∨ b = 0x5d ∨ b = 0x50 := by
  simp [opensEsc, or_assoc]

/-- A byte of a string or the BEL that ends it: not CAN or SUB, and not
`ESC` or `C2`, which are looked ahead on. -/
def strTakes (b : UInt8) : Bool := !(b == 0x1b || b == 0xc2 || aborts b)

/-- Whether the byte looked ahead on and the byte read are bytes of the
sequence the emulator opens or is in. A control it executes or ignores
there is not one, nor is the byte that breaks the sequence off. -/
def takes (t : Emulator) (b : UInt8) : Bool × Bool :=
  match t with
  | .ground => (false, false)
  | .utf8C2 => (opensC2 b, opensC2 b)
  | .esc => (opensEsc b, opensEsc b)
  | .csi _ _ => (false, isFinal b || isParam b)
  | .oscId _ _ => (false, isDigit b || (!oscSkips b && strTakes b))
  | .dcsId _ _ => (false, isParam b || isFinal b || (!dcsSkips b && strTakes b))
  | .str _ => (false, strTakes b)
  | .strEsc _ => (b == 0x5c || opensEsc b, b == 0x5c || opensEsc b)
  | .strC2 _ => (true, strTakes b)

/-- Inside the string of a sequence. -/
def inString : Emulator → Bool
  | .str _ | .strEsc _ | .strC2 _ => true
  | _ => false

end Emulator

/-- The emulator with the sequence it is in, by the place it opened at,
the place of the byte it looks ahead on, and each byte read as part of a
sequence, by its place, with that sequence. -/
structure Reader where
  emulator : Emulator
  inside : Option ℕ
  ahead : Option ℕ
  bytes : List (ℕ × ℕ)
  deriving DecidableEq, Repr

namespace Reader

/-- The reader before any byte. -/
def start : Reader := ⟨.ground, none, none, []⟩

/-- The places of the bytes that `x` adds to a sequence. -/
def taken (r : Reader) (x : UInt8 × ℕ) : List ℕ :=
  (if (r.emulator.takes x.1).1 then r.ahead.toList else []) ++
    (if (r.emulator.takes x.1).2 then [x.2] else [])

/-- The sequence they are of: the one `x` opens, or the one it is in. -/
def owner (r : Reader) (x : UInt8 × ℕ) : Option ℕ := (r.emulator.step x).1.start.or r.inside

/-- The placed byte `x`. -/
def step (r : Reader) (x : UInt8 × ℕ) : Reader :=
  let t := (r.emulator.step x).1
  { emulator := t
    inside := if t.start.isSome || t.inString then r.owner x else none
    ahead := if t.afterEsc || t.afterC2 then some x.2 else none
    bytes := r.bytes ++ (r.taken x).flatMap fun p => (r.owner x).toList.map (p, ·) }

/-- The reader of some placed bytes. -/
def read (input : List (UInt8 × ℕ)) : Reader := input.foldl step start

theorem read_snoc (input : List (UInt8 × ℕ)) (x : UInt8 × ℕ) :
    read (input ++ [x]) = (read input).step x := by simp [read]

@[simp] theorem emulator_read (input : List (UInt8 × ℕ)) :
    (read input).emulator = Emulator.run .ground input := by
  induction input using List.reverseRecOn with
  | nil => rfl
  | append_singleton input x ih => rw [read_snoc, step, ih, Emulator.run_append]; rfl

theorem mem_bytes_step {r : Reader} {x : UInt8 × ℕ} {p s : ℕ} :
    (p, s) ∈ (r.step x).bytes ↔ (p, s) ∈ r.bytes ∨ (p ∈ r.taken x ∧ r.owner x = some s) := by
  simp only [step, List.mem_append, List.mem_flatMap, List.mem_map, Option.mem_toList,
    Prod.mk.injEq]
  refine or_congr_right ⟨?_, fun ⟨hp, hs⟩ => ⟨p, hp, s, hs, rfl, rfl⟩⟩
  rintro ⟨q, hq, s', hs, rfl, rfl⟩
  exact ⟨hq, hs⟩

theorem mem_taken {r : Reader} {x : UInt8 × ℕ} {p : ℕ} :
    p ∈ r.taken x ↔ ((r.emulator.takes x.1).1 = true ∧ r.ahead = some p) ∨
      ((r.emulator.takes x.1).2 = true ∧ p = x.2) := by
  simp only [taken, List.mem_append]
  refine or_congr ?_ ?_ <;> split_ifs <;> simp_all

/-- A sequence under identification is the one the reader is in, and it
has a byte: the one it opened at. -/
structure Opened (r : Reader) : Prop where
  inside : ∀ s, r.emulator.start = some s → r.inside = some s
  opening : ∀ s, r.emulator.start = some s → (s, s) ∈ r.bytes

theorem Opens.takes {t : Emulator} {b : UInt8} (h : VtFilter.Opens t b) :
    t.takes b = (true, true) := by
  rcases h with ⟨ht, hb⟩ | ⟨rfl, hb⟩
  · cases t <;> simp only [Emulator.afterEsc, Bool.false_eq_true] at ht <;>
      rcases hb with rfl | rfl | rfl <;> rfl
  · rcases hb with rfl | rfl | rfl <;> rfl

theorem Opened.step {r : Reader} (h : Opened r) (x : UInt8 × ℕ) : Opened (r.step x) := by
  refine ⟨fun s hs => ?_, fun s hs => ?_⟩
  all_goals
    have hnew : (r.emulator.step x).1.start = some s := hs
    have howner : r.owner x = some s := by rw [owner, hnew]; rfl
  · simp [Reader.step, hnew, howner]
  · rw [mem_bytes_step]
    rcases VtFilter.start_step hnew with ⟨hold, -⟩ | ⟨rfl, hopen⟩
    · exact Or.inl (h.opening s hold)
    · exact Or.inr ⟨mem_taken.mpr (Or.inr ⟨by rw [Opens.takes hopen], rfl⟩), howner⟩

theorem opened_read (input : List (UInt8 × ℕ)) : Opened (read input) := by
  induction input using List.reverseRecOn with
  | nil => exact ⟨by simp [read, start, Emulator.start], by simp [read, start, Emulator.start]⟩
  | append_singleton input x ih =>
    rw [read_snoc]
    exact ih.step x

/-- The bytes attributed are bytes of the input. -/
theorem mem_of_mem_bytes (input : List (UInt8 × ℕ)) :
    (∀ p s, (p, s) ∈ (read input).bytes → p ∈ input.map Prod.snd) ∧
      ∀ p, (read input).ahead = some p → p ∈ input.map Prod.snd := by
  induction input using List.reverseRecOn with
  | nil => exact ⟨by simp [read, start], by simp [read, start]⟩
  | append_singleton input x ih =>
    rw [read_snoc, List.map_append]
    refine ⟨fun p s h => ?_, fun p h => ?_⟩
    · rcases mem_bytes_step.mp h with h | ⟨h, -⟩
      · exact List.mem_append_left _ (ih.1 p s h)
      · rcases mem_taken.mp h with ⟨-, h⟩ | ⟨-, rfl⟩
        · exact List.mem_append_left _ (ih.2 p h)
        · simp
    · simp only [step] at h
      split_ifs at h
      simp_all

/-- What the emulator acts on has its opening byte among the bytes. -/
theorem opening_of_acts (input : List (UInt8 × ℕ)) {s : ℕ}
    (h : s ∈ Emulator.acts .ground input) : (s, s) ∈ (read input).bytes := by
  induction input using List.reverseRecOn with
  | nil => simp [Emulator.acts] at h
  | append_singleton input x ih =>
    rw [read_snoc, mem_bytes_step]
    rw [Emulator.acts_append, Emulator.acts_singleton, List.mem_append, Option.mem_toList] at h
    rcases h with h | h
    · exact Or.inl (ih h)
    · exact Or.inl ((opened_read input).opening s (by
        rw [emulator_read]
        exact VtFilter.start_of_acts h))

theorem opening_of_actsOn (input : List (UInt8 × ℕ)) {s : ℕ}
    (h : s ∈ Emulator.actsOn input) : (s, s) ∈ (read input).bytes := by
  rcases List.mem_append.mp h with h | h
  · exact opening_of_acts input h
  · refine (opened_read input).opening s ?_
    have hp := Option.mem_toList.mp h
    rw [emulator_read]
    cases hr : Emulator.run .ground input <;> simp_all [Emulator.pending, Emulator.start]

end Reader

namespace VtFilter

variable {f : VtFilter} {t : Emulator} {b : UInt8} {n p s : ℕ} {u v : List UInt8}

/-! ## What the filter does with them -/

/-- The reader of an input. -/
def reader (u : List UInt8) : Reader := Reader.read u.zipIdx

/-- The bytes of the sequences of an input. -/
def bytesIn (u : List UInt8) : List (ℕ × ℕ) := (reader u).bytes

/-- The bytes of the sequences the terminal reads in what it was sent. -/
def bytesSent (u : List UInt8) : List (ℕ × ℕ) := (Reader.read (ledger u).sent).bytes

/-- **The filter drops the acting sequences**: no byte of one is sent as
a byte of a sequence the terminal acts on, in the input or at any point
of it. -/
def Drops (v : List UInt8) : Prop :=
  ∀ u, u <+: v → ∀ s ∈ actingIn u, ∀ p, (p, s) ∈ bytesIn u →
    ∀ s' ∈ Emulator.actsOn (ledger u).sent, (p, s') ∉ bytesSent u

/-- The filter forwards text: it is in ground, or in a string it
streams. -/
def inText (f : VtFilter) : Bool :=
  f.state == .ground || ((f.state == .str || f.state == .strC2) && !f.strDrop)

/-- The byte at `p` came while the filter was forwarding text. -/
def exposed (input : List UInt8) (p : ℕ) : Bool := (new.feed (input.take p)).filter.inText

/-- No byte of the sequence opened at `s`, from the one that opens it on,
came while the filter was forwarding text. -/
def Sheltered (u : List UInt8) (s : ℕ) : Prop :=
  ∀ p, (p, s) ∈ bytesIn u → s ≤ p → exposed u p = false

/-- None of the bytes of the sequence opened at `s` has been sent. -/
def Unsent (u : List UInt8) (s : ℕ) : Prop :=
  ∀ p, (p, s) ∈ bytesIn u → p ∉ (ledger u).sent.map Prod.snd

/-- They are all withheld. -/
def Gone (u : List UInt8) (s : ℕ) : Prop := ∀ p, (p, s) ∈ bytesIn u → p ∉ (ledger u).places

/-- The filter has left the emulator's sequence, or never identified it:
it is in ground or in a string it drops. -/
def Adrift (f : VtFilter) : Prop := f.state = .ground ∨ (f.state = .str ∧ f.strDrop = true)

/-- The filter stands in a string it drops as the emulator stands in its
own, or a BEL has put it back in ground. -/
def Hidden (f : VtFilter) (t : Emulator) : Prop :=
  match t with
  | .str _ => Adrift f
  | .strEsc _ => f.state = .strEsc ∧ f.strDrop = true
  | .strC2 _ => f.state = .strC2 ∧ f.strDrop = true
  | _ => False

/-- Where the filter is while the emulator reads the string of a
sequence none of whose bytes is exposed: hidden, or looking ahead on a
byte that will be exposed if it is one of the sequence's. -/
def Shut (u : List UInt8) (s : ℕ) : Prop :=
  Hidden (ledger u).filter (reading u) ∨
    ∃ p, (reader u).ahead = some p ∧ s ≤ p ∧ exposed u p = true

/-- The invariant of a run. -/
structure Kept (u : List UInt8) : Prop where
  ahead : ∀ p, (reader u).ahead = some p →
    p < u.length ∧ p ∉ (ledger u).sent.map Prod.snd ∧
      ((reading u).afterEsc || (reading u).afterC2) = true
  below : ∀ p s, (p, s) ∈ bytesIn u → p < u.length ∧ s < u.length
  inside : ∀ s, (reader u).inside = some s →
    s < u.length ∧ ((reading u).start = some s ∨ (reading u).inString = true)
  fresh : ∀ s, (reading u).start = some s → s ∉ actingIn u
  opened : ∀ s, (reading u).start = some s → Sheltered u s →
    Unsent u s ∧ (¬ InSync (ledger u).filter (reading u) →
      Gone u s ∧ Adrift (ledger u).filter)
  acted : ∀ s ∈ actingIn u, Sheltered u s →
    Gone u s ∧ ((reader u).inside = some s → (reading u).inString = true → Shut u s)

theorem Gone.unsent (h : Gone u s) : Unsent u s := by
  intro p hp hmem
  refine h p hp ?_
  rw [Ledger.places, List.map_append]
  exact List.mem_append_left _ hmem

theorem reader_snoc (u : List UInt8) (b : UInt8) :
    reader (u ++ [b]) = (reader u).step (b, u.length) := by
  rw [reader, List.zipIdx_append, List.zipIdx_singleton, Nat.zero_add, Reader.read_snoc]
  rfl

theorem emulator_reader (u : List UInt8) : (reader u).emulator = reading u :=
  Reader.emulator_read _

theorem bytesIn_mono (h : u <+: v) : bytesIn u ⊆ bytesIn v := by
  obtain ⟨w, rfl⟩ := h
  induction w using List.reverseRecOn with
  | nil => simp
  | append_singleton w b ih =>
    rw [← List.append_assoc]
    refine fun x hx => ?_
    rw [bytesIn, reader_snoc]
    exact Reader.mem_bytes_step.mpr (Or.inl (ih hx))

theorem exposed_eq (h : u <+: v) (hp : p ≤ u.length) : exposed u p = exposed v p := by
  obtain ⟨w, rfl⟩ := h
  rw [exposed, exposed, List.take_append_of_le_length hp]

/-- At the place of the next byte, the filter stands where the input has
left it. -/
theorem exposed_length (u : List UInt8) (b : UInt8) :
    exposed (u ++ [b]) u.length = (ledger u).filter.inText := by
  rw [exposed, List.take_left, (ledger_feed u).1]

theorem Sheltered.shorter (h : Sheltered v s) (hu : u <+: v)
    (hbelow : ∀ p, (p, s) ∈ bytesIn u → p < u.length) : Sheltered u s := by
  intro p hp hs
  rw [exposed_eq hu (hbelow p hp).le]
  exact h p (bytesIn_mono hu hp) hs

/-! ## One step -/

/-- `ESC` and `C2` are kept, whatever the state. -/
theorem fate_lookahead (hb : b = 0x1b ∨ b = 0xc2) : (f.fate b).2 = .keep := by
  rcases hs : f.state with _ | _ | _ | _ | _ | _ | _ | _ | _ <;> rcases hb with rfl | rfl <;>
    simp [fate, hs, groundFate, escFate, strFate, isFinal, isParam, isC0, isDigit, oscSkips,
      dcsSkips]

/-- The emulator looks ahead on nothing else. -/
theorem lookahead_byte (h : ((t.step (b, n)).1.afterEsc || (t.step (b, n)).1.afterC2) = true) :
    b = 0x1b ∨ b = 0xc2 := by
  by_contra hb
  rw [not_or] at hb
  by_cases hab : Emulator.aborts b
  · simp [Emulator.step_aborts hab, Emulator.afterEsc, Emulator.afterC2] at h
  cases t <;>
    simp only [Emulator.step, hab, Emulator.ofC2, Emulator.ofEsc, Emulator.ofGround_plain hb.1 hb.2,
      Emulator.ofStr_plain hb.1 hb.2] at h
  all_goals
    split_ifs at h <;> simp [Emulator.afterEsc, Emulator.afterC2] at h

/-- A byte of the sequence the filter and the emulator both stay in is
not forwarded. -/
theorem InSync.taken_kept (h : InSync f t) (hstay : (t.step (b, n)).1.start ≠ none)
    (htaken : (t.takes b).2 = true) : (f.fate b).2 ≠ .forward := by
  have hab : Emulator.aborts b = false := by
    by_contra hab
    simp [Emulator.step_aborts (by simpa using hab), Emulator.start] at hstay
  cases t <;> simp only [InSync] at h
  all_goals
    simp only [Emulator.step, hab, Bool.false_eq_true, if_false, apply_ite Prod.fst] at hstay
    simp only [Emulator.takes] at htaken
    simp only [fate, h.1]
  case csi =>
    split_ifs at hstay with hf hp <;> simp_all [Emulator.start]
    split_ifs <;> decide
  case oscId =>
    split_ifs at hstay with hd hk
    · split_ifs <;> decide
    · simp_all
    · exact absurd ofStr_start hstay
  case dcsId =>
    split_ifs at hstay with hp hf hk
    · split_ifs <;> decide
    · exact absurd rfl hstay
    · simp_all
    · exact absurd ofStr_start hstay

/-- What is acted on while in step is withheld with the held bytes. -/
theorem InSync.withheld (h : InSync f t) (hacts : (t.step (b, n)).2 ≠ none) :
    (f.fate b).1 = .withhold := by
  rcases h.step (b := b) (n := n) with hstay | hleave
  · exact absurd hstay.acts hacts
  · exact hleave.acts hacts

/-- A byte read in a string the filter drops leaves it hidden. -/
theorem stepStr_hidden {bel : Bool} (hd : f.strDrop = true)
    (hin : (Emulator.ofStr bel b).inString = true) :
    Hidden (f.stepStr b).filter (Emulator.ofStr bel b) := by
  rw [stepStr_filter]
  by_cases he : b = 0x1b
  · subst he
    exact ⟨rfl, hd⟩
  by_cases hc : b = 0xc2
  · subst hc
    exact ⟨rfl, hd⟩
  rw [Emulator.ofStr_plain he hc] at hin ⊢
  by_cases hbel : b = 0x07 ∧ bel = true
  · simp [hbel, Emulator.inString] at hin
  · simp only [hbel, he, hc, if_false, Hidden, Adrift, hd]
    split_ifs <;> simp

/-- **A sequence acted on while in step is withheld** to its last byte,
and the filter drops its string. -/
theorem InSync.acted (h : InSync f t) (hacts : (t.step (b, n)).2 ≠ none) :
    ((t.takes b).2 = true → (f.fate b).2 = .withhold) ∧
      ((t.step (b, n)).1.inString = true → Hidden (f.step b).filter (t.step (b, n)).1) := by
  have hab : Emulator.aborts b = false := by
    by_contra hab
    simp [Emulator.step_aborts (by simpa using hab)] at hacts
  have hleave := h.withheld hacts
  cases t <;> simp only [InSync] at h
  all_goals
    simp only [Emulator.step, hab, Bool.false_eq_true, if_false] at hacts
    simp only [Emulator.takes]
    simp only [fate, h.1] at hleave ⊢
  case csi =>
    split_ifs at hacts with hf <;> try exact absurd rfl hacts
    exact ⟨fun _ => by simpa [hf] using hleave,
      by simp [Emulator.step, hab, hf, Emulator.inString]⟩
  case oscId s ds =>
    split_ifs at hacts with hd hk <;> try exact absurd rfl hacts
    have ht : ((Emulator.oscId s ds).step (b, n)).1 = Emulator.ofStr true b := by
      simp [Emulator.step, hab, hd, hk]
    have hdrop : f.oscDrops = true := by
      by_contra hno
      simp [hd, hk, dropFate, hno] at hleave
    have hstep : (f.step b).filter = ((f.enterStr f.oscDrops true).stepStr b).filter := by
      simp [VtFilter.step, h.1, stepOscId_exit (by simpa using hd) (by simpa using hk)]
    rw [ht, hstep]
    refine ⟨fun htaken => ?_, fun hin => stepStr_hidden hdrop hin⟩
    simp only [Emulator.strTakes] at htaken
    simp_all [strFate, dropFate]
  case dcsId s ps =>
    split_ifs at hacts with hp hf <;> try exact absurd rfl hacts
    have ht : ((Emulator.dcsId s ps).step (b, n)).1 = .str false := by
      simp [Emulator.step, hab, hp, hf]
    have hdrop : f.dcsDrops b = true := by
      by_contra hno
      simp [hp, hf, dropFate, hno] at hleave
    have hstep : (f.step b).filter = f.enterStr (f.dcsDrops b) false := by
      simp [VtFilter.step, h.1, stepDcsId_final hf]
    rw [ht, hstep]
    exact ⟨fun _ => by simpa [hp, hf] using hleave, fun _ => Or.inr ⟨rfl, hdrop⟩⟩

/-- The filter is adrift while the emulator reads on. -/
theorem Adrift.step (h : Adrift f) (he : b ≠ 0x1b) (hc : b ≠ 0xc2) :
    Adrift (f.step b).filter ∧ (f.inText = false → (f.fate b).2 = .withhold) := by
  rcases h with hs | ⟨hs, hd⟩
  · simp [VtFilter.step, hs, stepGround, he, hc, Adrift, inText]
  · refine ⟨?_, fun _ => by simp [fate, hs, strFate, he, hc, dropFate, hd]⟩
    simp only [VtFilter.step, hs, stepStr_filter, he, hc, if_false, Adrift, hd]
    split_ifs <;> simp

/-- What a step does to a string the filter hides: its bytes are
withheld, and the filter stays hidden unless it looks ahead from ground. -/
structure Hides (f : VtFilter) (t : Emulator) (b : UInt8) (n : ℕ) : Prop where
  ahead : (t.takes b).1 = true → (f.fate b).1 = .withhold
  byte : (t.takes b).2 = true → (f.fate b).2 = .withhold
  next : (t.step (b, n)).1.inString = true → Hidden (f.step b).filter (t.step (b, n)).1 ∨
    (f.inText = true ∧ ((t.step (b, n)).1.afterEsc || (t.step (b, n)).1.afterC2) = true)

/-- `ESC` and `C2` are no bytes of the sequence yet. -/
theorem plain_of_takes (h : (t.takes b).2 = true) : b ≠ 0x1b ∧ b ≠ 0xc2 := by
  constructor <;> rintro rfl <;> cases t <;>
    simp [Emulator.takes, Emulator.opensC2, Emulator.opensEsc, Emulator.strTakes, isFinal, isParam,
      isDigit] at h

theorem not_aborts_of_inString (h : (t.step (b, n)).1.inString = true) :
    Emulator.aborts b = false := by
  by_contra hab
  simp [Emulator.step_aborts (by simpa using hab), Emulator.inString] at h

theorem Adrift.hides {bel : Bool} (h : Adrift f)
    (hopen : ((Emulator.str bel).takes b).2 = true → f.inText = false) :
    Hides f (.str bel) b n := by
  refine ⟨by simp [Emulator.takes], fun htaken => ?_, fun hin => ?_⟩
  · obtain ⟨he, hc⟩ := plain_of_takes htaken
    exact (h.step he hc).2 (hopen htaken)
  · have hab := not_aborts_of_inString hin
    rcases h with hs | ⟨hs, hd⟩
    · have htext : f.inText = true := by simp [inText, hs]
      refine Or.inr ⟨htext, ?_⟩
      have hnot : Emulator.strTakes b ≠ true := fun htaken => by simp [hopen htaken] at htext
      have hb : b = 0x1b ∨ b = 0xc2 := by
        simpa [Emulator.strTakes, hab, or_iff_not_imp_left] using hnot
      rcases hb with rfl | rfl
      · simp [Emulator.step_esc (t := .str bel) rfl]
      · simp [Emulator.step_c2 (t := .str bel) rfl]
    · have ht : ((Emulator.str bel).step (b, n)).1 = Emulator.ofStr bel b := by
        simp [Emulator.step, hab]
      have hstep : f.step b = f.stepStr b := by simp [VtFilter.step, hs]
      rw [ht] at hin ⊢
      rw [hstep]
      exact Or.inl (stepStr_hidden hd hin)

theorem hides_strEsc {bel : Bool} (hs : f.state = .strEsc) (hd : f.strDrop = true)
    (hstart : ((Emulator.strEsc bel).step (b, n)).1.start = none) : Hides f (.strEsc bel) b n := by
  have hend : Emulator.opensEsc b = false := by
    by_contra hopens
    rcases Emulator.opensEsc_iff.mp (by simpa using hopens) with rfl | rfl | rfl <;>
      simp [Emulator.step, Emulator.aborts, Emulator.ofEsc, Emulator.start] at hstart
  by_cases hb : b = 0x5c
  · subst hb
    have hfate : f.fate 0x5c = (.withhold, .withhold) := by simp [fate, hs, hd, dropFate]
    refine ⟨fun _ => by rw [hfate], fun _ => by rw [hfate], fun hin => ?_⟩
    simp [Emulator.step, Emulator.aborts, Emulator.inString] at hin
  · refine ⟨by simp [Emulator.takes, hb, hend], by simp [Emulator.takes, hb, hend], fun hin => ?_⟩
    rw [Emulator.step_of_afterEsc rfl (by simp [← Emulator.opensEsc_iff, hend])] at hin
    simp only [Emulator.step, Emulator.ofGround] at hin
    split_ifs at hin <;> simp [Emulator.inString] at hin

theorem hides_strC2 {bel : Bool} (hs : f.state = .strC2) (hd : f.strDrop = true) :
    Hides f (.strC2 bel) b n := by
  refine ⟨fun _ => by simp [fate, hs, hd, dropFate], fun htaken => ?_, fun hin => Or.inl ?_⟩
  · obtain ⟨he, hc⟩ := plain_of_takes htaken
    simp [fate, hs, strFate, he, hc, dropFate, hd]
  have hab := not_aborts_of_inString hin
  have hstep : f.step b = f.stepStrC2 b := by simp [VtFilter.step, hs]
  rw [hstep]
  by_cases hcont : isContinuation b = true
  · have ht : ((Emulator.strC2 bel).step (b, n)).1 = if b = 0x9c then .ground else .str bel := by
      simp [Emulator.step, hab, hcont]
    rw [ht] at hin ⊢
    rw [stepStrC2_char hcont]
    by_cases h9 : b = 0x9c
    · simp [h9, Emulator.inString] at hin
    · simp [h9, Hidden, Adrift, hd]
  · have hcont' : isContinuation b = false := by simpa using hcont
    have h9 : b ≠ 0x9c := by grind [isContinuation]
    have ht : ((Emulator.strC2 bel).step (b, n)).1 = Emulator.ofStr bel b := by
      simp [Emulator.step, hab, hcont', h9]
    rw [ht] at hin ⊢
    rw [stepStrC2_other hcont']
    exact stepStr_hidden (f := { f with state := .str }) hd hin

/-- **A byte of a string the filter hides** is withheld, with the one
looked ahead on, unless it is read in ground. -/
theorem Hidden.hides (h : Hidden f t) (hstart : (t.step (b, n)).1.start = none)
    (hopen : (t.takes b).2 = true → f.inText = false) : Hides f t b n := by
  cases t <;> simp only [Hidden] at h
  case str => exact h.hides hopen
  case strEsc => exact hides_strEsc h.1 h.2 hstart
  case strC2 => exact hides_strC2 h.1 h.2

/-- What acts while the filter is adrift leaves its string hidden. -/
theorem Adrift.acted (h : Adrift f) (hcalm : f.state = .ground → t.calm = true)
    (hacts : (t.step (b, n)).2 ≠ none) (hopen : (t.takes b).2 = true → f.inText = false)
    (hin : (t.step (b, n)).1.inString = true) :
    Hidden (f.step b).filter (t.step (b, n)).1 := by
  have hab := not_aborts_of_inString hin
  cases t <;> simp only [Emulator.step, hab, Bool.false_eq_true, if_false, ne_eq,
    not_true_eq_false] at hacts
  case csi =>
    split_ifs at hacts with hf <;> try exact absurd rfl hacts
    simp [Emulator.step, hab, hf, Emulator.inString] at hin
  case oscId s ds =>
    split_ifs at hacts with hd hk <;> try exact absurd rfl hacts
    rcases h with hs | ⟨hs, hdrop⟩
    · exact absurd (hcalm hs) (by simp [Emulator.calm])
    have ht : ((Emulator.oscId s ds).step (b, n)).1 = Emulator.ofStr true b := by
      simp [Emulator.step, hab, hd, hk]
    have hstep : f.step b = f.stepStr b := by simp [VtFilter.step, hs]
    rw [ht] at hin ⊢
    rw [hstep]
    exact stepStr_hidden hdrop hin
  case dcsId s ps =>
    split_ifs at hacts with hp hf <;> try exact absurd rfl hacts
    have ht : ((Emulator.dcsId s ps).step (b, n)).1 = .str false := by
      simp [Emulator.step, hab, hp, hf]
    obtain ⟨-, he, hc⟩ := sequence_byte (Or.inl hf)
    rw [ht]
    exact (h.step he hc).1

/-! ## A run -/

/-- A byte that is not forwarded has not been sent. -/
theorem fresh_unsent (h : ((ledger u).filter.fate b).2 ≠ .forward) :
    u.length ∉ (ledger (u ++ [b])).sent.map Prod.snd := by
  have hbelow := (tracked u).below
  rw [ledger_snoc, Ledger.enter, List.map_append, List.mem_append]
  rintro (hmem | hmem)
  · exact (tracked u).unsent hmem
  · obtain ⟨x, hx, hxu⟩ := List.mem_map.mp hmem
    simp only [meeting, h, if_false, List.append_nil] at hx
    split_ifs at hx
    · refine absurd (hbelow u.length ?_) (lt_irrefl _)
      rw [Ledger.places, List.map_append]
      exact List.mem_append_right _ (List.mem_map.mpr ⟨x, hx, hxu⟩)
    · simp at hx

/-- A withheld byte is gone. -/
theorem fresh_withheld (h : ((ledger u).filter.fate b).2 = .withhold) :
    u.length ∉ (ledger (u ++ [b])).places := by
  have hbelow := (tracked u).below u.length
  rw [Ledger.places, List.map_append, List.mem_append]
  rintro (hmem | hmem)
  · exact fresh_unsent (by simp [h]) hmem
  · obtain ⟨x, hx, hxu⟩ := List.mem_map.mp hmem
    rw [ledger_snoc, Ledger.enter] at hx
    simp only [meeting, h, reduceCtorEq, if_false, List.append_nil] at hx
    split_ifs at hx
    · refine absurd (hbelow ?_) (lt_irrefl _)
      rw [Ledger.places, List.map_append]
      exact List.mem_append_right _ (List.mem_map.mpr ⟨x, hx, hxu⟩)
    · simp at hx

/-- The bytes a step adds. -/
theorem mem_bytesIn_snoc : (p, s) ∈ bytesIn (u ++ [b]) ↔ (p, s) ∈ bytesIn u ∨
    (((((reading u).takes b).1 = true ∧ (reader u).ahead = some p) ∨
      (((reading u).takes b).2 = true ∧ p = u.length)) ∧
      (reader u).owner (b, u.length) = some s) := by
  rw [bytesIn, reader_snoc, Reader.mem_bytes_step, Reader.mem_taken, emulator_reader]
  rfl

theorem owner_eq : (reader u).owner (b, u.length) =
    ((reading u).step (b, u.length)).1.start.or (reader u).inside := by
  rw [Reader.owner, emulator_reader]

/-- While a sequence is identified nothing is looked ahead on. -/
theorem takes_of_start (h : t.start = some s) : (t.takes b).1 = false := by
  cases t <;> simp_all [Emulator.start, Emulator.takes]

/-- What is acted on is identified no more. -/
theorem acts_start (h : (t.step (b, n)).2 ≠ none) : (t.step (b, n)).1.start = none := by
  by_cases hab : Emulator.aborts b
  · simp [Emulator.step_aborts hab] at h
  cases t <;>
    simp only [Emulator.step, hab, Bool.false_eq_true, if_false, ne_eq, not_true_eq_false] at h ⊢
  all_goals
    split_ifs at h ⊢ <;> first | exact absurd rfl h | exact ofStr_start | rfl

theorem Kept.sheltered (k : Kept u) (h : Sheltered (u ++ [b]) s) : Sheltered u s :=
  h.shorter (List.prefix_append u [b]) fun p hp => (k.below p s hp).1

/-- A byte of a sheltered sequence is not read as text. -/
theorem Sheltered.notInText (h : Sheltered (u ++ [b]) s) (hs : s ≤ u.length)
    (hmem : (u.length, s) ∈ bytesIn (u ++ [b])) : (ledger u).filter.inText = false := by
  rw [← exposed_length u b]
  exact h u.length hmem hs

/-- A sequence stays under identification. -/
theorem Kept.opened_stay (k : Kept u) (hold : (reading u).start = some s) (he : b ≠ 0x1b)
    (hc : b ≠ 0xc2) (hs : (reading (u ++ [b])).start = some s) (h : Sheltered (u ++ [b]) s) :
    Unsent (u ++ [b]) s ∧ (¬ InSync (ledger (u ++ [b])).filter (reading (u ++ [b])) →
      Gone (u ++ [b]) s ∧ Adrift (ledger (u ++ [b])).filter) := by
  have hin : (reader u).inside = some s :=
    (Reader.opened_read u.zipIdx).inside s (by rwa [Reader.emulator_read])
  have hlt := (k.inside s hin).1
  obtain ⟨hunsent, hadrift⟩ := k.opened s hold (k.sheltered h)
  rw [reading_snoc] at hs
  have hnew : ∀ p, (p, s) ∈ bytesIn (u ++ [b]) → (p, s) ∈ bytesIn u ∨
      ((reading u).takes b).2 = true ∧ p = u.length := by
    intro p hp
    rcases mem_bytesIn_snoc.mp hp with hp | ⟨⟨htaken, -⟩ | hp, -⟩
    · exact Or.inl hp
    · simp [takes_of_start hold] at htaken
    · exact Or.inr hp
  by_cases hsync : InSync (ledger u).filter (reading u)
  · rcases hsync.step (b := b) (n := u.length) with hstay | hleave
    · refine ⟨fun p hp => ?_, fun hno => ?_⟩
      · rcases hnew p hp with hp | ⟨htaken, rfl⟩
        · exact unsent_snoc (k.below p s hp).1 hstay.keeps (hunsent p hp)
        · exact fresh_unsent (hsync.taken_kept (n := u.length) (by simp [hs]) htaken)
      · refine absurd ?_ hno
        rw [ledger_snoc, reading_snoc]
        exact hstay.sync
    · exact absurd (hleave.start.symm.trans hs) (by simp)
  · obtain ⟨hgone, hadr⟩ := hadrift hsync
    have hgone' : Gone (u ++ [b]) s := by
      intro p hp
      rcases hnew p hp with hp' | ⟨-, rfl⟩
      · exact withheld_snoc (k.below p s hp').1 (hgone p hp')
      · exact fresh_withheld ((hadr.step he hc).2 (h.notInText hlt.le hp))
    refine ⟨hgone'.unsent, fun _ => ⟨hgone', ?_⟩⟩
    rw [ledger_snoc]
    exact (hadr.step he hc).1

/-- Of what the step opens there are its own byte and the one looked ahead
on. -/
theorem Kept.bytes_new (k : Kept u) {p : ℕ} (hp : (p, u.length) ∈ bytesIn (u ++ [b])) :
    (reader u).ahead = some p ∨ p = u.length := by
  rcases mem_bytesIn_snoc.mp hp with hp | ⟨⟨-, hp⟩ | ⟨-, hp⟩, -⟩
  · exact absurd (k.below p _ hp).2 (lt_irrefl _)
  · exact Or.inl hp
  · exact Or.inr hp

/-- An introducer the filter takes as well is held. -/
theorem Kept.opened_held (k : Kept u) (hfate : (ledger u).filter.fate b = (.keep, .keep)) :
    Unsent (u ++ [b]) u.length := by
  intro p hp
  rcases k.bytes_new hp with hp | rfl
  · exact unsent_snoc (k.ahead p hp).1 (by rw [hfate]) (k.ahead p hp).2.1
  · exact fresh_unsent (by simp [hfate])

/-- One that is a character of the string for the filter opens in a string it
drops. -/
theorem Kept.opened_hidden (k : Kept u) (hst : (ledger u).filter.state = .strC2)
    (hopen : reading u = .utf8C2 ∧ (b = 0x9b ∨ b = 0x9d ∨ b = 0x90))
    (hs : ((reading u).step (b, u.length)).1.start = some u.length)
    (h : Sheltered (u ++ [b]) u.length) :
    Gone (u ++ [b]) u.length ∧ Adrift (ledger (u ++ [b])).filter := by
  have hb := hopen.2
  have hcont : isContinuation b := by rcases hb with rfl | rfl | rfl <;> decide
  have hplain : b ≠ 0x9c ∧ b ≠ 0x1b ∧ b ≠ 0xc2 := by rcases hb with rfl | rfl | rfl <;> decide
  have hmem : (u.length, u.length) ∈ bytesIn (u ++ [b]) := by
    refine mem_bytesIn_snoc.mpr (Or.inr ⟨Or.inr ⟨?_, rfl⟩, by rw [owner_eq, hs]; rfl⟩)
    rw [Reader.Opens.takes (Or.inr hopen)]
  have hdrop : (ledger u).filter.strDrop = true := by
    simpa [inText, hst] using h.notInText le_rfl hmem
  have hfate : (ledger u).filter.fate b = (.withhold, .withhold) := by
    simp [fate, hst, hdrop, dropFate, strFate, hplain]
  constructor
  · intro p hp
    rcases k.bytes_new hp with hp | rfl
    · exact gone_snoc (k.ahead p hp).1 (by rw [hfate]) (k.ahead p hp).2.1
    · exact fresh_withheld (by rw [hfate])
  · rw [ledger_snoc, Ledger.enter]
    simp [step, hst, stepStrC2_char hcont, hplain, Adrift, hdrop]

/-- A sequence the emulator opens is held, or opens in a string the
filter drops. -/
theorem Kept.opened_new (k : Kept u) (hopen : Opens (reading u) b)
    (hs : (reading (u ++ [b])).start = some u.length) (h : Sheltered (u ++ [b]) u.length) :
    Unsent (u ++ [b]) u.length ∧ (¬ InSync (ledger (u ++ [b])).filter (reading (u ++ [b])) →
      Gone (u ++ [b]) u.length ∧ Adrift (ledger (u ++ [b])).filter) := by
  have htracks := (tracked u).tracks
  rw [reading_snoc] at hs
  rw [ledger_snoc, reading_snoc]
  rcases hopen with ⟨hafter, hb⟩ | ⟨hutf, hb⟩
  · rcases state_of_afterEsc htracks hafter with hst | hst
    · have hin : InSync ((ledger u).filter.step b).filter
          ((reading u).step (b, u.length)).1 := by
        simp only [step, hst]
        exact (stepEsc_opens hafter hb).2.1
      exact ⟨k.opened_held (by simp [fate, hst, escFate, hb]), absurd hin⟩
    · have h5c : b ≠ 0x5c := by rcases hb with rfl | rfl | rfl <;> decide
      have hin : InSync ((ledger u).filter.step b).filter
          ((reading u).step (b, u.length)).1 := by
        simp only [step, hst, stepStrEsc_other h5c]
        exact (stepEsc_opens hafter hb).2.1
      exact ⟨k.opened_held (by simp [fate, hst, h5c, escFate, hb]), absurd hin⟩
  · rcases state_of_utf8C2 (hutf ▸ htracks) with hst | hst
    · have hin : InSync ((ledger u).filter.step b).filter
          ((reading u).step (b, u.length)).1 := by
        simp only [step, hst, hutf]
        exact (stepUtf8C2_opens hb).2.1
      exact ⟨k.opened_held (by simp [fate, hst, hb]), absurd hin⟩
    · have hhidden := k.opened_hidden hst ⟨hutf, hb⟩ hs h
      rw [ledger_snoc] at hhidden
      exact ⟨hhidden.1.unsent, fun _ => hhidden⟩

/-- What is looked ahead on and not taken leads into no string, and no
byte is taken behind it. -/
theorem takes_ahead (h : (t.afterEsc || t.afterC2) = true) (htaken : (t.takes b).1 = false) :
    (t.takes b).2 = false ∧ (t.step (b, n)).1.inString = false := by
  have hground : (Emulator.ofGround b).inString = false := by
    unfold Emulator.ofGround
    split_ifs <;> rfl
  by_cases hab : Emulator.aborts b
  · cases t <;> simp_all [Emulator.step_aborts hab, Emulator.takes, Emulator.inString,
      Emulator.afterEsc, Emulator.afterC2]
  cases t <;> simp only [Emulator.afterEsc, Emulator.afterC2, Bool.or_self, Bool.false_eq_true,
    Emulator.takes, reduceCtorEq] at h htaken ⊢
  all_goals
    refine ⟨htaken, ?_⟩
    simp only [Emulator.step, hab, Emulator.ofC2, Emulator.ofEsc, Bool.false_eq_true, if_false]
    split_ifs <;> first | exact hground | rfl

/-- A sequence recognised before is not identified again: what it is given is
its string, which is shut. -/
theorem Kept.given_string (k : Kept u) (hs : s ∈ actingIn u) (h : Sheltered (u ++ [b]) s)
    (howner : (reader u).owner (b, u.length) = some s) :
    ((reading u).step (b, u.length)).1.start = none ∧ Shut u s := by
  have hlt := ((tracked u).acted s hs).1
  rw [owner_eq] at howner
  cases hst : ((reading u).step (b, u.length)).1.start with
  | some s' =>
    obtain rfl : s' = s := by simpa [hst] using howner
    rcases start_step hst with ⟨hold, -⟩ | ⟨rfl, -⟩
    · exact absurd hs (k.fresh _ hold)
    · exact absurd hlt (lt_irrefl _)
  | none =>
    have hin : (reader u).inside = some s := by simpa [hst] using howner
    rcases (k.inside s hin).2 with hold | hstr
    · exact absurd hs (k.fresh _ hold)
    · exact ⟨rfl, (k.acted s hs (k.sheltered h)).2 hin hstr⟩

/-- A byte looked ahead on in ground would be exposed, so it is not taken. -/
theorem Kept.untaken (k : Kept u) (h : Sheltered (u ++ [b]) s) {p : ℕ}
    (hp : (reader u).ahead = some p) (hsp : s ≤ p) (hexp : exposed u p = true)
    (howner : (reader u).owner (b, u.length) = some s) :
    ((reading u).takes b).1 = false ∧ ((reading u).takes b).2 = false ∧
      ((reading u).step (b, u.length)).1.inString = false := by
  have huntaken : ((reading u).takes b).1 = false := by
    by_contra htaken
    have hmem : (p, s) ∈ bytesIn (u ++ [b]) :=
      mem_bytesIn_snoc.mpr (Or.inr ⟨Or.inl ⟨by simpa using htaken, hp⟩, howner⟩)
    have hsafe := h p hmem hsp
    rw [← exposed_eq (List.prefix_append u [b]) (k.ahead p hp).1.le, hexp] at hsafe
    exact absurd hsafe (by decide)
  exact ⟨huntaken, takes_ahead (k.ahead p hp).2.2 huntaken⟩

/-- A sequence recognised before keeps its bytes withheld. -/
theorem Kept.acted_old (k : Kept u) (hs : s ∈ actingIn u) (h : Sheltered (u ++ [b]) s) :
    Gone (u ++ [b]) s ∧ ((reader (u ++ [b])).inside = some s →
      (reading (u ++ [b])).inString = true → Shut (u ++ [b]) s) := by
  have hlt := ((tracked u).acted s hs).1
  have hgone := (k.acted s hs (k.sheltered h)).1
  have hhides : (reader u).owner (b, u.length) = some s → Hidden (ledger u).filter (reading u) →
      Hides (ledger u).filter (reading u) b u.length := by
    intro howner hhid
    refine hhid.hides (k.given_string hs h howner).1 fun htaken => h.notInText hlt.le ?_
    exact mem_bytesIn_snoc.mpr (Or.inr ⟨Or.inr ⟨htaken, rfl⟩, howner⟩)
  refine ⟨fun p hp => ?_, fun hin hstr => ?_⟩
  · rcases mem_bytesIn_snoc.mp hp with hp | ⟨htaken, howner⟩
    · exact withheld_snoc (k.below p s hp).1 (hgone p hp)
    rcases (k.given_string hs h howner).2 with hhid | ⟨q, hq, hsq, hexp⟩
    · rcases htaken with ⟨htaken, hp⟩ | ⟨htaken, rfl⟩
      · exact gone_snoc (k.ahead p hp).1 ((hhides howner hhid).ahead htaken) (k.ahead p hp).2.1
      · exact fresh_withheld ((hhides howner hhid).byte htaken)
    · obtain ⟨h1, h2, -⟩ := k.untaken h hq hsq hexp howner
      simp [h1, h2] at htaken
  · rw [reader_snoc, Reader.step, emulator_reader] at hin
    rw [reading_snoc] at hstr
    have howner : (reader u).owner (b, u.length) = some s := by simpa [hstr] using hin
    rcases (k.given_string hs h howner).2 with hhid | ⟨q, hq, hsq, hexp⟩
    · rw [Shut, ledger_snoc, reading_snoc]
      refine ((hhides howner hhid).next hstr).imp_right fun ⟨htext, hlook⟩ => ?_
      refine ⟨u.length, ?_, hlt.le, by rwa [exposed_length]⟩
      rw [reader_snoc, Reader.step, emulator_reader]
      simp [hlook]
    · have hno := (k.untaken h hq hsq hexp howner).2.2
      simp [hno] at hstr

/-- A sequence recognised by the step is withheld, and its string is
hidden. -/
theorem Kept.acted_new (k : Kept u) (hacts : ((reading u).step (b, u.length)).2 = some s)
    (h : Sheltered (u ++ [b]) s) :
    Gone (u ++ [b]) s ∧ ((reader (u ++ [b])).inside = some s →
      (reading (u ++ [b])).inString = true → Shut (u ++ [b]) s) := by
  have hold := start_of_acts hacts
  have hin : (reader u).inside = some s :=
    (Reader.opened_read u.zipIdx).inside s (by rwa [Reader.emulator_read])
  have hlt := (k.inside s hin).1
  obtain ⟨hunsent, hadrift⟩ := k.opened s hold (k.sheltered h)
  have hne : ((reading u).step (b, u.length)).2 ≠ none := by simp [hacts]
  have howner : (reader u).owner (b, u.length) = some s := by
    rw [owner_eq, acts_start hne, Option.none_or, hin]
  have hnew : ∀ p, (p, s) ∈ bytesIn (u ++ [b]) → (p, s) ∈ bytesIn u ∨
      ((reading u).takes b).2 = true ∧ p = u.length := by
    intro p hp
    rcases mem_bytesIn_snoc.mp hp with hp | ⟨⟨htaken, -⟩ | hp, -⟩
    · exact Or.inl hp
    · simp [takes_of_start hold] at htaken
    · exact Or.inr hp
  have hopen : ((reading u).takes b).2 = true → (ledger u).filter.inText = false := fun htaken =>
    h.notInText hlt.le (mem_bytesIn_snoc.mpr (Or.inr ⟨Or.inr ⟨htaken, rfl⟩, howner⟩))
  rw [Shut, ledger_snoc, reading_snoc]
  by_cases hsync : InSync (ledger u).filter (reading u)
  · obtain ⟨hbyte, hhid⟩ := hsync.acted hne
    refine ⟨fun p hp => ?_, fun _ hstr => Or.inl (hhid hstr)⟩
    rcases hnew p hp with hp | ⟨htaken, rfl⟩
    · exact gone_snoc (k.below p s hp).1 (hsync.withheld hne) (hunsent p hp)
    · exact fresh_withheld (hbyte htaken)
  · obtain ⟨hgone, hadr⟩ := hadrift hsync
    refine ⟨fun p hp => ?_, fun _ hstr => Or.inl (hadr.acted (fun hground => ?_) hne hopen hstr)⟩
    · rcases hnew p hp with hp | ⟨htaken, rfl⟩
      · exact withheld_snoc (k.below p s hp).1 (hgone p hp)
      · obtain ⟨he, hc⟩ := plain_of_takes htaken
        exact fresh_withheld ((hadr.step he hc).2 (hopen htaken))
    · simpa [Tracks, hground] using (tracked u).tracks

theorem Kept.owner_lt (k : Kept u) (h : (reader u).owner (b, u.length) = some s) :
    s < u.length + 1 := by
  rw [owner_eq] at h
  cases hst : ((reading u).step (b, u.length)).1.start with
  | some s' =>
    obtain rfl : s' = s := by simpa [hst] using h
    rcases start_step hst with ⟨hold, -⟩ | ⟨rfl, -⟩
    · have hin : (reader u).inside = some s' :=
        (Reader.opened_read u.zipIdx).inside s' (by rwa [Reader.emulator_read])
      exact (k.inside s' hin).1.trans (Nat.lt_succ_self _)
    · exact Nat.lt_succ_self _
  | none =>
    have hin : (reader u).inside = some s := by simpa [hst] using h
    exact (k.inside s hin).1.trans (Nat.lt_succ_self _)

/-- A sequence under identification has not been acted on. -/
theorem Kept.fresh_snoc (k : Kept u) (hs : (reading (u ++ [b])).start = some s) :
    s ∉ actingIn (u ++ [b]) := by
  rw [reading_snoc] at hs
  rw [actingIn_snoc, List.mem_append, Option.mem_toList]
  rintro (hacts | hacts)
  · rcases start_step hs with ⟨hold, -⟩ | ⟨rfl, -⟩
    · exact k.fresh s hold hacts
    · exact absurd ((tracked u).acted _ hacts).1 (lt_irrefl _)
  · have hnone := acts_start (t := reading u) (b := b) (n := u.length)
      (by rw [Option.mem_def.mp hacts]; simp)
    exact absurd (hnone.symm.trans hs) (by simp)

/-- **Every run keeps the bytes of its sheltered sequences.** -/
theorem kept (u : List UInt8) : Kept u := by
  induction u using List.reverseRecOn with
  | nil =>
    refine ⟨?_, ?_, ?_, ?_, ?_, ?_⟩ <;>
      simp [reader, Reader.read, Reader.start, bytesIn, reading, Emulator.run, Emulator.start,
        actingIn, Emulator.acts]
  | append_singleton u b k =>
    refine ⟨fun p hp => ?_, fun p s hp => ?_, fun s hin => ?_, fun s hs hacts => ?_,
      fun s hs h => ?_, fun s hs h => ?_⟩
    · rw [reader_snoc, Reader.step, emulator_reader] at hp
      simp only [Option.ite_none_right_eq_some, Option.some.injEq] at hp
      obtain ⟨hlook, rfl⟩ := hp
      refine ⟨by simp, fresh_unsent ?_, by rwa [reading_snoc]⟩
      simp [fate_lookahead (lookahead_byte hlook)]
    · rw [List.length_append, List.length_singleton]
      rcases mem_bytesIn_snoc.mp hp with hp | ⟨⟨-, hp⟩ | ⟨-, rfl⟩, howner⟩
      · exact (k.below p s hp).imp Nat.lt_succ_of_lt Nat.lt_succ_of_lt
      · exact ⟨Nat.lt_succ_of_lt (k.ahead p hp).1, k.owner_lt howner⟩
      · exact ⟨Nat.lt_succ_self _, k.owner_lt howner⟩
    · rw [reader_snoc, Reader.step, emulator_reader] at hin
      simp only [Option.ite_none_right_eq_some] at hin
      obtain ⟨hwhere, howner⟩ := hin
      rw [List.length_append, List.length_singleton, reading_snoc]
      refine ⟨k.owner_lt howner, ?_⟩
      rw [owner_eq] at howner
      cases hst : ((reading u).step (b, u.length)).1.start <;> simp_all
    · exact k.fresh_snoc hs hacts
    · have hs' := hs
      rw [reading_snoc] at hs'
      rcases start_step hs' with ⟨hold, he, hc⟩ | ⟨rfl, hopen⟩
      · exact k.opened_stay hold he hc hs h
      · exact k.opened_new hopen hs h
    · rw [actingIn_snoc, List.mem_append, Option.mem_toList] at hs
      rcases hs with hs | hs
      · exact k.acted_old hs h
      · exact k.acted_new hs h

/-- The condition: no byte of an acting sequence, from the one that opens
it on, is read while the filter is in ground or in a string it streams. -/
def InStep (v : List UInt8) : Prop := ∀ s ∈ actingIn v, Sheltered v s

/-- The bytes of a sheltered acting sequence are withheld, all of them
and at every point. -/
theorem InStep.gone (h : InStep v) (hu : u <+: v) (hs : s ∈ actingIn u) : Gone u s :=
  ((kept u).acted s hs ((h s (actingIn_mono hu hs)).shorter hu fun p hp =>
    ((kept u).below p s hp).1)).1

theorem sent_mono (h : u <+: v) : (ledger u).sent ⊆ (ledger v).sent := by
  obtain ⟨w, rfl⟩ := h
  induction w using List.reverseRecOn with
  | nil => simp
  | append_singleton w b ih =>
    rw [← List.append_assoc, ledger_snoc]
    exact List.Subset.trans ih (List.subset_append_left _ _)

/-- A byte read as text is sent, unless it is looked ahead on. -/
theorem exposed_sent (hexp : exposed v p = true) (hb : v[p]? = some b) (he : b ≠ 0x1b)
    (hc : b ≠ 0xc2) : p ∈ (ledger v).sent.map Prod.snd := by
  have hp : p < v.length := (List.getElem?_eq_some_iff.mp hb).1
  have hpre : v.take p ++ [b] <+: v := by
    rw [← (List.getElem?_eq_some_iff.mp hb).2, List.take_append_getElem]
    exact List.take_prefix _ _
  have htext : (ledger (v.take p)).filter.inText = true := by
    rw [(ledger_feed _).1]
    exact hexp
  have hfate : ((ledger (v.take p)).filter.fate b).2 = .forward := by
    simp only [inText, Bool.or_eq_true, Bool.and_eq_true, beq_iff_eq, Bool.not_eq_true'] at htext
    rcases htext with hs | ⟨hs | hs, hd⟩
    · simp [fate, hs, groundFate, he, hc]
    all_goals simp [fate, hs, strFate, he, hc, dropFate, hd]
  have hlen : (v.take p).length = p := by simp [hp.le]
  refine List.mem_map.mpr ⟨(b, p), sent_mono hpre ?_, rfl⟩
  rw [ledger_snoc, Ledger.enter, hlen]
  simp [meeting, hfate]

/-- **Where the filter drops acting sequences.** While no byte of an
acting sequence is read as text, none of its bytes is sent at all, so
none is sent as a byte of a sequence the terminal acts on. Conversely a
byte of one that is read as text is sent, if it is not looked ahead on,
and a sequence that opens at the `C2` of a string the filter streams
reaches the terminal as one it acts on. -/
theorem acting_withheld (chunks : List (List UInt8)) :
    (ledger chunks.flatten).sent.map Prod.fst = (new.feedChunks chunks).out ∧
      (InStep chunks.flatten → Drops chunks.flatten ∧
        ∀ u, u <+: chunks.flatten → ∀ s ∈ actingIn u, ∀ p, (p, s) ∈ bytesIn u →
          p ∉ (ledger u).sent.map Prod.snd) ∧
      (∀ s ∈ actingIn chunks.flatten, ∀ p b, (p, s) ∈ bytesIn chunks.flatten →
        exposed chunks.flatten p = true → chunks.flatten[p]? = some b → b ≠ 0x1b → b ≠ 0xc2 →
          p ∈ (ledger chunks.flatten).sent.map Prod.snd) ∧
      (Drops chunks.flatten →
        ∀ s ∈ actingIn chunks.flatten, insideString chunks.flatten s = false) := by
  have hnone : InStep chunks.flatten → ∀ u, u <+: chunks.flatten → ∀ s ∈ actingIn u, ∀ p,
      (p, s) ∈ bytesIn u → p ∉ (ledger u).sent.map Prod.snd :=
    fun h u hu s hs => (h.gone hu hs).unsent
  refine ⟨by rw [feedChunks_eq, (ledger_feed chunks.flatten).2.2], fun h => ⟨?_, hnone h⟩,
    fun s _ p b _ => exposed_sent, fun h s hs => ?_⟩
  · intro u hu s hs p hp s' _ hmem
    exact hnone h u hu s hs p hp ((Reader.mem_of_mem_bytes _).1 p s' hmem)
  · by_contra hin
    obtain ⟨u, hu, hacts, hmem⟩ := streamed_reaches hs (by simpa using hin)
    exact h u hu s hacts s (Reader.opening_of_acts _ hacts) s hmem (Reader.opening_of_actsOn _ hmem)

/-- A window operation opened behind CAN in a dropped title, and ended
before the title is. -/
theorem acting_withheld_title :
    actingIn [0x1b, 0x5d, 0x30, 0x3b, 0x78, 0x18, 0xc2, 0x9b, 0x35, 0x74, 0x07] = [1, 7] ∧
      Drops [0x1b, 0x5d, 0x30, 0x3b, 0x78, 0x18, 0xc2, 0x9b, 0x35, 0x74, 0x07] := by
  have hstep : ∀ s ∈ actingIn [0x1b, 0x5d, 0x30, 0x3b, 0x78, 0x18, 0xc2, 0x9b, 0x35, 0x74, 0x07],
      ∀ q ∈ bytesIn [0x1b, 0x5d, 0x30, 0x3b, 0x78, 0x18, 0xc2, 0x9b, 0x35, 0x74, 0x07],
        q.2 = s → s ≤ q.1 →
          exposed [0x1b, 0x5d, 0x30, 0x3b, 0x78, 0x18, 0xc2, 0x9b, 0x35, 0x74, 0x07] q.1 =
            false := by decide
  exact ⟨by decide, ((acting_withheld [[0x1b, 0x5d, 0x30, 0x3b, 0x78, 0x18],
    [0xc2, 0x9b, 0x35, 0x74, 0x07]]).2.1 fun s hs p hp => hstep s hs (p, s) hp rfl).1⟩

/-- CAN leaves the terminal's string and not the filter's. The clipboard
write the filter takes for text of the hyperlink is one to the terminal;
and the window operation opened inside the dropped title is cut in two by
the BEL that ends the title for the filter, so that its last bytes
complete the sequence the terminal was left in. -/
theorem acting_reaches_terminal :
    (¬ Drops [0x1b, 0x5d, 0x38, 0x3b, 0x3b, 0x78, 0x18, 0xc2, 0x9d, 0x35, 0x32, 0x3b]) ∧
      ¬ Drops [0x1b, 0x5b, 0x31, 0x1b, 0x5d, 0x30, 0x3b, 0x78, 0x18, 0xc2, 0x9b, 0x07, 0x35,
        0x74] := by
  refine ⟨fun h => ?_, fun h => ?_⟩
  · exact absurd (h _ (List.prefix_refl _) 8 (by decide) 8 (by decide) 8 (by decide)) (by decide)
  · exact absurd (h _ (List.prefix_refl _) 10 (by decide) 13 (by decide) 1 (by decide))
      (by decide)

end VtFilter

end Terminal

end Willie
