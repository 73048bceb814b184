import Mathlib.Data.List.Infix
import Willie.Terminal.Abort
/-!
# Acting sequences

The acting sequences the emulator reads in the input, by the place each
opens at. One that opens at the `C2` of a string the filter streams is
forwarded byte by byte, and by the time it is recognised the terminal has
been sent a sequence it acts on (`streamed_reaches`).
-/

namespace Willie

namespace Terminal

namespace VtFilter

variable {f : VtFilter} {t tout : Emulator} {b : UInt8} {n s : ℕ} {held : List (UInt8 × ℕ)}
  {u v : List UInt8}

/-! ## Where a sequence of the emulator came from -/

/-- The place is among those the filter has forwarded or still holds. -/
def Ledger.places (l : Ledger) : List ℕ := (l.sent ++ l.held).map Prod.snd

/-- The byte at `s` came after a `C2` inside a string the filter was
streaming. -/
def insideString (input : List UInt8) (s : ℕ) : Bool :=
  let f := (new.feed (input.take s)).filter
  f.state == .strC2 && !f.strDrop

/-- The filter streams, or is in ground: it forwards text as it reads
it. -/
def Forwards (f : VtFilter) : Prop := f.state = .ground ∨ (f.state = .str ∧ f.strDrop = false)

/-- A byte that may open a sequence for the emulator. -/
def Opens (t : Emulator) (b : UInt8) : Prop :=
  (t.afterEsc ∧ (b = 0x5b ∨ b = 0x5d ∨ b = 0x50)) ∨
    (t = .utf8C2 ∧ (b = 0x9b ∨ b = 0x9d ∨ b = 0x90))

theorem ofGround_start : (Emulator.ofGround b).start = none := by
  unfold Emulator.ofGround
  split_ifs <;> rfl

theorem ofStr_start {bel : Bool} : (Emulator.ofStr bel b).start = none := by
  unfold Emulator.ofStr
  split_ifs <;> rfl

theorem ofEsc_start (h : (Emulator.ofEsc n b).start = some s) :
    s = n ∧ (b = 0x5b ∨ b = 0x5d ∨ b = 0x50) := by
  unfold Emulator.ofEsc at h
  split_ifs at h with h1 h2 h3
  · exact ⟨(Option.some.inj h).symm, Or.inl h1⟩
  · exact ⟨(Option.some.inj h).symm, Or.inr (Or.inl h2)⟩
  · exact ⟨(Option.some.inj h).symm, Or.inr (Or.inr h3)⟩
  · simp [ofGround_start] at h

theorem ofC2_start (h : (Emulator.ofC2 n b).start = some s) :
    s = n ∧ (b = 0x9b ∨ b = 0x9d ∨ b = 0x90) := by
  unfold Emulator.ofC2 at h
  split_ifs at h with h1 h2 h3
  · exact ⟨(Option.some.inj h).symm, Or.inl h1⟩
  · exact ⟨(Option.some.inj h).symm, Or.inr (Or.inl h2)⟩
  · exact ⟨(Option.some.inj h).symm, Or.inr (Or.inr h3)⟩
  · simp [Emulator.start] at h
  · simp [ofGround_start] at h

/-- The sequence under identification after a step was so before it, or
was opened by the step. -/
theorem start_step (h : (t.step (b, n)).1.start = some s) :
    (t.start = some s ∧ b ≠ 0x1b ∧ b ≠ 0xc2) ∨ (s = n ∧ Opens t b) := by
  by_cases hab : Emulator.aborts b
  · simp [Emulator.step_aborts hab, Emulator.start] at h
  cases t <;> simp only [Emulator.step, hab, Bool.false_eq_true, if_false,
    apply_ite Prod.fst] at h
  case ground => simp [ofGround_start] at h
  case utf8C2 =>
    obtain ⟨hs, hb⟩ := ofC2_start h
    exact Or.inr ⟨hs, Or.inr ⟨rfl, hb⟩⟩
  case esc =>
    obtain ⟨hs, hb⟩ := ofEsc_start h
    exact Or.inr ⟨hs, Or.inl ⟨rfl, hb⟩⟩
  case str => simp [ofStr_start] at h
  case strEsc =>
    split_ifs at h with h5c
    · simp [Emulator.start] at h
    · obtain ⟨hs, hb⟩ := ofEsc_start h
      exact Or.inr ⟨hs, Or.inl ⟨rfl, hb⟩⟩
  case strC2 =>
    split_ifs at h
    · simp [Emulator.start] at h
    · simp [Emulator.start] at h
    · simp [ofStr_start] at h
  case csi =>
    split_ifs at h with hf hp hc
    · simp [Emulator.start] at h
    · exact Or.inl ⟨h, (sequence_byte (Or.inr (Or.inl hp))).2⟩
    · exact Or.inl ⟨h, (sequence_byte (Or.inr (Or.inr (by simpa using hc)))).2⟩
    · simp [ofGround_start] at h
  case oscId =>
    split_ifs at h with hd hk
    · exact Or.inl ⟨h, (sequence_byte (Or.inr (Or.inl (param_of_digit hd)))).2⟩
    · exact Or.inl ⟨h, (sequence_byte (Or.inr (Or.inr (sequence_of_oscSkips hk)))).2⟩
    · simp [ofStr_start] at h
  case dcsId =>
    split_ifs at h with hp hf hk
    · exact Or.inl ⟨h, (sequence_byte (Or.inr (Or.inl hp))).2⟩
    · simp [Emulator.start] at h
    · exact Or.inl ⟨h, (sequence_byte (Or.inr (Or.inr (sequence_of_dcsSkips hk)))).2⟩
    · simp [ofStr_start] at h

theorem start_of_acts (h : (t.step (b, n)).2 = some s) : t.start = some s := by
  by_cases hab : Emulator.aborts b
  · simp [Emulator.step_aborts hab] at h
  cases t <;> simp only [Emulator.step, hab, Bool.false_eq_true, if_false, reduceCtorEq] at h
  all_goals
    split_ifs at h
    simp_all [Emulator.start]

/-- What is acted on when it is broken off was pending. -/
theorem pending_of_acts (h : (t.step (b, n)).2 = some s) (hb : b = 0x1b ∨ b = 0xc2) :
    t.pending = some s := by
  cases t <;> rcases hb with rfl | rfl <;>
    simp_all [Emulator.step, Emulator.aborts, isFinal, isParam, isC0, isDigit, oscSkips, dcsSkips,
      Emulator.pending]

/-- Text is forwarded at once. -/
theorem Forwards.step (h : Forwards f) (hheld : Holds f held) (he : b ≠ 0x1b) (hc : b ≠ 0xc2) :
    f.sends held (b, n) = [(b, n)] ∧ Forwards (f.step b).filter := by
  rcases h with hs | ⟨hs, hd⟩
  · obtain rfl : held = [] := by simpa [Holds, VtFilter.held, hs] using hheld
    simp [sends, fate, meeting, groundFate, he, hc, hs, VtFilter.step, stepGround, Forwards]
  · obtain rfl : held = [] := by simpa [Holds, VtFilter.held, hs] using hheld
    refine ⟨by simp [sends, fate, meeting, strFate, dropFate, he, hc, hs, hd], ?_⟩
    simp only [VtFilter.step, hs, stepStr_filter, he, hc, if_false]
    split_ifs
    · exact Or.inl rfl
    · exact Or.inr ⟨rfl, hd⟩

/-- `ESC` and `C2` are looked ahead on. -/
theorem Forwards.keeps (h : Forwards f) (hheld : Holds f held) (hb : b = 0x1b ∨ b = 0xc2) :
    f.sends held (b, n) = [] := by
  rcases h with hs | ⟨hs, -⟩
  all_goals
    obtain rfl : held = [] := by simpa [Holds, VtFilter.held, hs] using hheld
    simp [sends, fate, meeting, groundFate, strFate, hb, hs]

/-- After `ESC` the filter too is after an `ESC`. -/
theorem state_of_afterEsc (h : Tracks f t tout) (ht : t.afterEsc) :
    f.state = .esc ∨ f.state = .strEsc := by
  rcases hs : f.state with _ | _ | _ | _ | _ | _ | _ | _ | _ <;> simp only [Tracks, hs] at h
  all_goals cases t <;> simp_all [Emulator.afterEsc, Emulator.calm, Emulator.inText,
    Emulator.afterC2, InSync]

/-- After `C2` the filter too is after a `C2`. -/
theorem state_of_utf8C2 (h : Tracks f .utf8C2 tout) : f.state = .utf8C2 ∨ f.state = .strC2 := by
  rcases hs : f.state with _ | _ | _ | _ | _ | _ | _ | _ | _ <;> simp only [Tracks, hs] at h
  all_goals simp_all [Emulator.afterEsc, Emulator.calm, Emulator.inText, InSync]

/-! ## A run -/

/-- The emulator reading the input. -/
def reading (u : List UInt8) : Emulator := Emulator.run .ground u.zipIdx

/-- The emulator reading what the filter has forwarded of it. -/
def rereading (u : List UInt8) : Emulator := Emulator.run .ground (ledger u).sent

/-- The places of the acting sequences of an input. -/
def actingIn (u : List UInt8) : List ℕ := Emulator.acts .ground u.zipIdx

theorem reading_snoc (u : List UInt8) (b : UInt8) :
    reading (u ++ [b]) = ((reading u).step (b, u.length)).1 := by
  simp [reading, List.zipIdx_append, Emulator.run]

theorem rereading_snoc (u : List UInt8) (b : UInt8) :
    rereading (u ++ [b]) =
      (rereading u).run ((ledger u).filter.sends (ledger u).held (b, u.length)) := by
  rw [rereading, ledger_snoc, rereading, ← Emulator.run_append]
  rfl

theorem actingIn_snoc (u : List UInt8) (b : UInt8) :
    actingIn (u ++ [b]) = actingIn u ++ ((reading u).step (b, u.length)).2.toList := by
  simp [actingIn, reading, List.zipIdx_append, Emulator.acts_append]

theorem actingIn_mono (h : u <+: v) : actingIn u ⊆ actingIn v := by
  obtain ⟨w, rfl⟩ := h
  rw [actingIn, actingIn, List.zipIdx_append, Emulator.acts_append]
  exact List.subset_append_left _ _

theorem insideString_eq (h : u <+: v) (hs : s ≤ u.length) :
    insideString u s = insideString v s := by
  obtain ⟨w, rfl⟩ := h
  rw [insideString, insideString, List.take_append_of_le_length hs]

/-- A sequence opened inside a streamed string is forwarded as it is
read. -/
def Origin (u : List UInt8) (s : ℕ) : Prop :=
  insideString u s = true → rereading u = reading u ∧ Forwards (ledger u).filter

/-- Once it is recognised, one opened inside a streamed string has been
sent as one the terminal acts on. -/
def Fallen (u : List UInt8) (s : ℕ) : Prop :=
  insideString u s = true → ∃ v, v <+: u ∧ s ∈ actingIn v ∧ s ∈ Emulator.actsOn (ledger v).sent

/-- The invariant of a run. -/
structure Tracked (u : List UInt8) : Prop where
  below : ∀ p ∈ (ledger u).places, p < u.length
  tracks : Tracks (ledger u).filter (reading u) (rereading u)
  opened : ∀ s, (reading u).start = some s → s < u.length ∧ Origin u s
  acted : ∀ s ∈ actingIn u, s < u.length ∧ Fallen u s

theorem ledger_holds (u : List UInt8) : Holds (ledger u).filter (ledger u).held := by
  rw [Holds, (ledger_feed u).1, (ledger_feed u).2.1]

/-- A step adds at most the place of its byte. -/
theorem places_snoc (h : s ∈ (ledger (u ++ [b])).places) :
    s ∈ (ledger u).places ∨ s = u.length := by
  simp only [Ledger.places, ledger_snoc, Ledger.enter, List.map_append, List.mem_append,
    List.mem_map] at h ⊢
  rcases h with (⟨x, hx, rfl⟩ | ⟨x, hx, rfl⟩) | ⟨x, hx, rfl⟩
  · exact Or.inl (Or.inl ⟨x, hx, rfl⟩)
  all_goals
    rcases mem_of_mem_meeting hx with hx | rfl
    · exact Or.inl (Or.inr ⟨x, hx, rfl⟩)
    · exact Or.inr rfl

/-- A withheld place stays withheld. -/
theorem withheld_snoc (hs : s < u.length) (h : s ∉ (ledger u).places) :
    s ∉ (ledger (u ++ [b])).places := by
  intro hmem
  rcases places_snoc hmem with h' | rfl
  · exact h h'
  · exact absurd hs (lt_irrefl _)

theorem meeting_of_keep {α : Type} {held : List α} {x : α} {fates : Fate × Fate}
    (h : fates.1 = .keep) :
    meeting held x fates .forward = if fates.2 = .forward then [x] else [] := by
  simp [meeting, h]

/-- While the held bytes are kept, what was not forwarded is not. -/
theorem unsent_snoc (hs : s < u.length) (hkeep : ((ledger u).filter.fate b).1 = .keep)
    (h : s ∉ (ledger u).sent.map Prod.snd) :
    s ∉ (ledger (u ++ [b])).sent.map Prod.snd := by
  rw [ledger_snoc, Ledger.enter, meeting_of_keep hkeep, List.map_append, List.mem_append]
  rintro (h' | h')
  · exact h h'
  · split_ifs at h' <;> simp at h'
    omega

/-- What is withheld with the held bytes is gone. -/
theorem gone_snoc (hs : s < u.length) (hwithhold : ((ledger u).filter.fate b).1 = .withhold)
    (h : s ∉ (ledger u).sent.map Prod.snd) : s ∉ (ledger (u ++ [b])).places := by
  rw [Ledger.places, ledger_snoc, Ledger.enter]
  simp only [meeting, hwithhold, List.map_append, List.mem_append]
  rintro ((h' | h') | h')
  · exact h h'
  all_goals
    simp only [reduceCtorEq, if_false] at h'
    split_ifs at h' <;> simp at h'
    omega

/-- At the place of the next byte, the filter stands where the input has
left it. -/
theorem insideString_length (u : List UInt8) (b : UInt8) :
    insideString (u ++ [b]) u.length =
      ((ledger u).filter.state == .strC2 && !(ledger u).filter.strDrop) := by
  rw [insideString, List.take_left, (ledger_feed u).1]

theorem Tracked.unsent (h : Tracked u) : u.length ∉ (ledger u).sent.map Prod.snd := by
  intro hmem
  have hplace : u.length ∈ (ledger u).places := by
    rw [Ledger.places, List.map_append]
    exact List.mem_append_left _ hmem
  exact absurd (h.below _ hplace) (lt_irrefl _)

/-- Where a sequence the emulator opens stands. -/
theorem Tracked.origin_open (h : Tracked u) (hopen : Opens (reading u) b) :
    Origin (u ++ [b]) u.length := by
  intro hin
  obtain ⟨hs, hdrop⟩ : (ledger u).filter.state = .strC2 ∧ (ledger u).filter.strDrop = false := by
    simpa [insideString_length] using hin
  rcases hopen with ⟨hafter, -⟩ | ⟨hutf, hb⟩
  · rcases state_of_afterEsc h.tracks hafter with h' | h' <;> simp [hs] at h'
  -- A character of the string for the filter: it goes where the string goes.
  have hcont : isContinuation b := by rcases hb with rfl | rfl | rfl <;> decide
  have hplain : b ≠ 0x9c ∧ b ≠ 0x1b ∧ b ≠ 0xc2 := by rcases hb with rfl | rfl | rfl <;> decide
  have htracks := step_tracks (b := b) (n := u.length) (ledger_holds u) h.tracks
  have hstep :
      ((ledger u).filter.step b).filter = { (ledger u).filter with state := .str } := by
    simp [step, hs, stepStrC2_char hcont, hplain]
  rw [hstep] at htracks
  have hstart := (stepUtf8C2_opens (f := new) (n := u.length) hb).2.2
  rw [reading_snoc, rereading_snoc, ledger_snoc, Ledger.enter]
  simp only [hstep]
  refine ⟨?_, Or.inr ⟨rfl, hdrop⟩⟩
  rcases htracks.2 hdrop with ⟨bel, hstr, -⟩ | heq
  · rw [hutf] at hstr
    simp [hstr, Emulator.start] at hstart
  · exact heq

/-- A sequence that stays under identification stays where it stood. -/
theorem Origin.step (h : Origin u s) (hs : s < u.length) (he : b ≠ 0x1b) (hc : b ≠ 0xc2) :
    Origin (u ++ [b]) s := by
  intro h'
  rw [← insideString_eq (List.prefix_append u [b]) hs.le] at h'
  obtain ⟨heq, hfwd⟩ := h h'
  obtain ⟨hsent, hfwd'⟩ := hfwd.step (n := u.length) (ledger_holds u) he hc
  rw [rereading_snoc, reading_snoc, hsent, heq, ledger_snoc]
  exact ⟨rfl, hfwd'⟩

theorem Tracked.opened_snoc (h : Tracked u) (hs : (reading (u ++ [b])).start = some s) :
    s < (u ++ [b]).length ∧ Origin (u ++ [b]) s := by
  rw [reading_snoc] at hs
  rw [List.length_append, List.length_singleton]
  rcases start_step hs with ⟨hstart, he, hc⟩ | ⟨rfl, hopen⟩
  · obtain ⟨hlt, horigin⟩ := h.opened s hstart
    exact ⟨by omega, horigin.step hlt he hc⟩
  · exact ⟨by omega, h.origin_open hopen⟩

/-- What was recognised before stays as it fell. -/
theorem Fallen.snoc (h : Fallen u s) (hs : s < u.length) : Fallen (u ++ [b]) s := by
  have hpre := List.prefix_append u [b]
  intro h'
  obtain ⟨v, hv, hacts⟩ := h (insideString_eq hpre hs.le ▸ h')
  exact ⟨v, hv.trans hpre, hacts⟩

/-- A sequence recognised by the step has been sent, if it was streamed,
and is acted on again. -/
theorem Origin.fallen (h : Origin u s) (hs : s < u.length)
    (hacts : ((reading u).step (b, u.length)).2 = some s) : Fallen (u ++ [b]) s := by
  intro h'
  rw [← insideString_eq (List.prefix_append u [b]) hs.le] at h'
  obtain ⟨heq, hfwd⟩ := h h'
  refine ⟨u ++ [b], List.prefix_refl _, by simp [actingIn_snoc, hacts], ?_⟩
  have hreread : Emulator.run .ground (ledger u).sent = reading u := heq
  rw [Emulator.actsOn, ledger_snoc, Ledger.enter, List.mem_append]
  by_cases hb : b = 0x1b ∨ b = 0xc2
  · have hsent : meeting (ledger u).held (b, u.length) ((ledger u).filter.fate b) .forward = [] :=
      hfwd.keeps (ledger_holds u) hb
    right
    rw [hsent, List.append_nil, hreread, pending_of_acts hacts hb]
    simp
  · rw [not_or] at hb
    have hsent : meeting (ledger u).held (b, u.length) ((ledger u).filter.fate b) .forward =
        [(b, u.length)] := (hfwd.step (n := u.length) (ledger_holds u) hb.1 hb.2).1
    left
    rw [hsent, Emulator.acts_append, hreread, Emulator.acts_singleton, hacts]
    simp

theorem Tracked.acted_snoc (h : Tracked u) (hs : s ∈ actingIn (u ++ [b])) :
    s < (u ++ [b]).length ∧ Fallen (u ++ [b]) s := by
  rw [List.length_append, List.length_singleton]
  rw [actingIn_snoc, List.mem_append, Option.mem_toList] at hs
  rcases hs with hs | hs
  · obtain ⟨hlt, hfallen⟩ := h.acted s hs
    exact ⟨by omega, hfallen.snoc hlt⟩
  · obtain ⟨hlt, horigin⟩ := h.opened s (start_of_acts hs)
    exact ⟨by omega, horigin.fallen hlt hs⟩

/-- **Every run is tracked.** -/
theorem tracked (u : List UInt8) : Tracked u := by
  induction u using List.reverseRecOn with
  | nil =>
    refine ⟨by simp [ledger, Ledger.places], rfl, fun s hs => ?_, fun s hs => ?_⟩
    · simp [reading, Emulator.run, Emulator.start] at hs
    · simp [actingIn, Emulator.acts] at hs
  | append_singleton u b ih =>
    refine ⟨fun p hp => ?_, ?_, fun s hs => ih.opened_snoc hs, fun s hs => ih.acted_snoc hs⟩
    · rw [List.length_append, List.length_singleton]
      rcases places_snoc hp with hp | rfl
      · exact (ih.below p hp).trans (Nat.lt_succ_self _)
      · exact Nat.lt_succ_self _
    · rw [ledger_snoc, reading_snoc, rereading_snoc]
      exact step_tracks (ledger_holds u) ih.tracks

/-- **A sequence opened inside a streamed string reaches the terminal**,
which acts on it by the time the input's is recognised. -/
theorem streamed_reaches (hs : s ∈ actingIn v) (hin : insideString v s = true) :
    ∃ u, u <+: v ∧ s ∈ actingIn u ∧ s ∈ Emulator.actsOn (ledger u).sent :=
  ((tracked v).acted s hs).2 hin

end VtFilter

end Terminal

end Willie
