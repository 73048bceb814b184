import Willie.Terminal.Abort
import Willie.Terminal.Replay
/-!
# Acting strings, dropped whole

An OSC that selects the clipboard or the title, and a DCS that is an echo
query, leave no byte behind. What its window says is decided by the bytes
that count (`InSync`, whatever is spliced in); from the first byte of the
string on the filter swallows, and the terminator takes it back to ground.
There it goes on as one that has never seen the string (`Alike`).
-/

namespace Willie

namespace Terminal

namespace VtFilter

variable {f g : VtFilter} {b : UInt8} {u v digits : List UInt8} {bel : Bool}

/-! ## Filters that go on alike -/

/-- The filters will do the same with what comes: they differ at most in
fields that are set before they are read. -/
def Alike (f g : VtFilter) : Prop :=
  g = f ∨ (Identifying f.state ∧ SameIdent f g) ∨
    (g.state = f.state ∧ (f.state = .ground ∨ f.state = .utf8C2 ∨ f.state = .esc))

/-- The two steps forward and record the same. -/
structure StepAlike (r s : Fed) : Prop where
  out : s.out = r.out
  dropped : s.dropped = r.dropped
  alike : Alike r.filter s.filter

theorem StepAlike.after {r s : Fed} (h : StepAlike r s) (o : List UInt8) (d : List Drop) :
    StepAlike (r.after o d) (s.after o d) :=
  ⟨congrArg (o ++ ·) h.out, congrArg (d ++ ·) h.dropped, h.alike⟩

/-- From ground on only the byte counts. -/
theorem stepGround_alike (f g : VtFilter) (b : UInt8) :
    StepAlike (f.stepGround b) (g.stepGround b) := by
  unfold stepGround
  split_ifs
  · exact ⟨rfl, rfl, .inr (.inr ⟨rfl, .inr (.inr rfl)⟩)⟩
  · exact ⟨rfl, rfl, .inr (.inr ⟨rfl, .inr (.inl rfl)⟩)⟩
  · exact ⟨rfl, rfl, .inr (.inr ⟨rfl, .inl rfl⟩)⟩

theorem openSeq_alike {buf : List UInt8} {s : State} (hs : Identifying s) :
    StepAlike ⟨f.openSeq buf s, [], []⟩ ⟨g.openSeq buf s, [], []⟩ :=
  ⟨rfl, rfl, .inr (.inl ⟨hs, sameIdent_open f g buf s⟩)⟩

theorem stepEsc_alike (f g : VtFilter) (b : UInt8) : StepAlike (f.stepEsc b) (g.stepEsc b) := by
  by_cases h : b = 0x5b ∨ b = 0x5d ∨ b = 0x50
  · obtain ⟨s, hs, hopen⟩ := esc_opens h
    rw [(hopen f).1, (hopen g).1]
    exact openSeq_alike hs
  · rw [stepEsc_other h, stepEsc_other h]
    exact (stepGround_alike f g b).after _ _

theorem stepUtf8C2_alike (f g : VtFilter) (b : UInt8) :
    StepAlike (f.stepUtf8C2 b) (g.stepUtf8C2 b) := by
  by_cases h : b = 0x9b ∨ b = 0x9d ∨ b = 0x90
  · obtain ⟨s, hs, hopen⟩ := c2_opens h
    rw [hopen f, hopen g]
    exact openSeq_alike hs
  · by_cases hc : isContinuation b
    · rw [stepUtf8C2_char h hc, stepUtf8C2_char h hc]
      exact ⟨rfl, rfl, .inr (.inr ⟨rfl, .inl rfl⟩)⟩
    · rw [stepUtf8C2_other (by simpa using hc), stepUtf8C2_other (by simpa using hc)]
      exact (stepGround_alike f g b).after _ _

/-- The filters have the same buffer and the same decision to make. -/
theorem stepCsi_alike (hs : f.state = .csi) (h : SameIdent f g) :
    StepAlike (f.stepCsi b) (g.stepCsi b) := by
  have hstill : Identifying f.state := .inl hs
  rcases csi_classes b with hb | hb | hb | rfl | ⟨hf, hp, hc, hd⟩
  · rw [stepCsi_final hb, stepCsi_final hb, h]
    exact ⟨rfl, rfl, .inr (.inr ⟨rfl, .inl rfl⟩)⟩
  · rw [stepCsi_param hb, stepCsi_param hb]
    refine ⟨rfl, rfl, .inr (.inl ⟨?_, ?_⟩)⟩
    · unfold pushCsi
      split_ifs <;> exact hstill
    · rw [SameIdent] at h ⊢
      rw [h]
      unfold pushCsi
      split_ifs <;> rfl
  · rw [stepCsi_c0 hb, stepCsi_c0 hb]
    exact ⟨rfl, rfl, .inr (.inl ⟨hstill, h⟩)⟩
  · rw [stepCsi_del, stepCsi_del]
    exact ⟨rfl, rfl, .inr (.inl ⟨hstill, h⟩)⟩
  · rw [stepCsi_cancel hf hp hc hd, stepCsi_cancel hf hp hc hd]
    have halike := (stepGround_alike f.closeCsi g.closeCsi b).after
      (if f.csiOver then [] else f.buf) []
    rw [h] at halike ⊢
    exact halike

theorem stepOscId_alike (hs : f.state = .oscId) (h : SameIdent f g) :
    StepAlike (f.stepOscId b) (g.stepOscId b) := by
  have hstill : Identifying f.state := .inr (.inl hs)
  rcases osc_classes b with hb | hb | ⟨hd, hk⟩
  · rw [stepOscId_digit hb, stepOscId_digit hb]
    refine ⟨rfl, rfl, .inr (.inl ⟨hstill, ?_⟩)⟩
    rw [SameIdent] at h ⊢
    rw [h]
    rfl
  · rw [stepOscId_skip hb, stepOscId_skip hb]
    exact ⟨rfl, rfl, .inr (.inl ⟨hstill, h⟩)⟩
  · -- what they differ in is set on the way into the string
    rw [stepOscId_exit hd hk, stepOscId_exit hd hk, h]
    exact ⟨rfl, rfl, .inl rfl⟩

theorem stepDcsId_alike (hs : f.state = .dcsId) (h : SameIdent f g) :
    StepAlike (f.stepDcsId b) (g.stepDcsId b) := by
  have hstill : Identifying f.state := .inr (.inr hs)
  rcases dcs_classes b with hb | hb | hb | ⟨hp, hf, hk⟩
  · rw [stepDcsId_param hb, stepDcsId_param hb]
    refine ⟨rfl, rfl, .inr (.inl ⟨?_, ?_⟩)⟩
    · unfold pushDcs
      split_ifs <;> exact hstill
    · rw [SameIdent] at h ⊢
      rw [h]
      unfold pushDcs
      split_ifs <;> rfl
  · rw [stepDcsId_final hb, stepDcsId_final hb, h]
    exact ⟨rfl, rfl, .inl rfl⟩
  · rw [stepDcsId_skip hb, stepDcsId_skip hb]
    exact ⟨rfl, rfl, .inr (.inl ⟨hstill, h⟩)⟩
  · rw [stepDcsId_exit hp hf hk, stepDcsId_exit hp hf hk, h]
    exact ⟨rfl, rfl, .inl rfl⟩

theorem Alike.step (h : Alike f g) (b : UInt8) : StepAlike (f.step b) (g.step b) := by
  rcases h with rfl | ⟨hs | hs | hs, h⟩ | ⟨hstate, hs | hs | hs⟩
  · exact ⟨rfl, rfl, .inl rfl⟩
  · simpa only [VtFilter.step, hs, h.state_eq.trans hs] using stepCsi_alike hs h
  · simpa only [VtFilter.step, hs, h.state_eq.trans hs] using stepOscId_alike hs h
  · simpa only [VtFilter.step, hs, h.state_eq.trans hs] using stepDcsId_alike hs h
  · simpa only [VtFilter.step, hs, hstate] using stepGround_alike f g b
  · simpa only [VtFilter.step, hs, hstate] using stepUtf8C2_alike f g b
  · simpa only [VtFilter.step, hs, hstate] using stepEsc_alike f g b

theorem Alike.feed (h : Alike f g) (input : List UInt8) :
    (g.feed input).out = (f.feed input).out ∧ (g.feed input).dropped = (f.feed input).dropped := by
  induction input generalizing f g with
  | nil => exact ⟨rfl, rfl⟩
  | cons b input ih =>
    obtain ⟨hout, hdropped, halike⟩ := h.step b
    obtain ⟨hout', hdropped'⟩ := ih halike
    simp only [feed_cons, Fed.after_out, Fed.after_dropped, hout, hdropped, hout', hdropped',
      and_self]

/-! ## Swallowing a string -/

/-- A payload that does not end the string: no `ESC`, no C1 ST and, where BEL
ends it, no BEL. -/
structure Free (bel : Bool) (u : List UInt8) : Prop where
  esc : 0x1b ∉ u
  bell : bel = true → 0x07 ∉ u
  st : ¬ [0xc2, 0x9c] <:+: u

theorem Free.of_infix (h : Free bel v) (huv : u <:+: v) : Free bel u :=
  ⟨fun hmem => h.esc (huv.subset hmem), fun hbel hmem => h.bell hbel (huv.subset hmem),
    fun hst => h.st (hst.trans huv)⟩

/-- The filter swallows a string of which it has read `u`: a trailing `C2`
may open the terminator. -/
structure Swallows (f : VtFilter) (bel : Bool) (u : List UInt8) : Prop where
  drop : f.strDrop = true
  bell : f.strBel = bel
  state : f.state = if u.getLast? = some 0xc2 then .strC2 else .str

theorem swallows_enterStr (f : VtFilter) (bel : Bool) : Swallows (f.enterStr true bel) bel [] :=
  ⟨rfl, rfl, rfl⟩

/-- A byte read inside the string, the `C2` before it looked at or not. -/
theorem Swallows.step_eq (h : Swallows f bel u) (hb : isContinuation b = false) :
    f.step b = { f with state := .str }.stepStr b := by
  have hs := h.state
  split at hs
  · rw [step, hs]
    simp only [stepStrC2_other hb, h.drop, if_true]
    rfl
  · rw [step, hs]
    simp only [← hs]

/-- **A byte of the payload is swallowed.** -/
theorem Swallows.step (h : Swallows f bel u) (hfree : Free bel (u ++ [b])) :
    ∃ g, f.step b = ⟨g, [], []⟩ ∧ Swallows g bel (u ++ [b]) := by
  have hesc : b ≠ 0x1b := fun heq => hfree.esc (by simp [heq])
  have hbell : ¬ (b = 0x07 ∧ bel = true) := fun ⟨heq, hbel⟩ => hfree.bell hbel (by simp [heq])
  by_cases hc : isContinuation b
  · have hne : b ≠ 0xc2 := by grind [isContinuation]
    have hs := h.state
    split at hs
    · -- a character of the payload: the terminator is ruled out
      rename_i hlast
      have hst : b ≠ 0x9c := by
        rintro rfl
        obtain ⟨w, rfl⟩ := List.getLast?_eq_some_iff.mp hlast
        exact hfree.st ⟨w, [], by simp⟩
      refine ⟨{ f with state := .str }, ?_, h.drop, h.bell, by simp [hne]⟩
      rw [VtFilter.step, hs]
      simp only [stepStrC2_char hc, hst, h.drop, if_true, if_false]
    · refine ⟨{ f with state := .str }, ?_, h.drop, h.bell, by simp [hne]⟩
      have h7 : b ≠ 0x07 := by grind [isContinuation]
      rw [VtFilter.step, hs]
      simp [stepStr, h7, hesc, hne, h.drop]
  · rw [h.step_eq (by simpa using hc), stepStr, if_neg (by rw [h.bell]; exact hbell), if_neg hesc]
    by_cases hc2 : b = 0xc2
    · rw [if_pos hc2]
      exact ⟨{ f with state := .strC2 }, rfl, h.drop, h.bell, by simp [hc2]⟩
    · rw [if_neg hc2]
      exact ⟨{ f with state := .str }, by simp [h.drop], h.drop, h.bell, by simp [hc2]⟩

theorem Swallows.feed (h : Swallows f bel u) (hfree : Free bel (u ++ v)) :
    ∃ g, f.feed v = ⟨g, [], []⟩ ∧ Swallows g bel (u ++ v) := by
  induction v generalizing f u with
  | nil => exact ⟨f, rfl, by rwa [List.append_nil]⟩
  | cons b v ih =>
    have happ : u ++ b :: v = u ++ [b] ++ v := by simp
    rw [happ] at hfree ⊢
    obtain ⟨g, hstep, hg⟩ := h.step (hfree.of_infix (List.prefix_append _ _).isInfix)
    obtain ⟨g', hfeed, hg'⟩ := ih hg hfree
    exact ⟨g', by rw [feed_cons, hstep, hfeed]; rfl, hg'⟩

/-- What ends a string. -/
def terminators (bel : Bool) : List (List UInt8) :=
  (if bel then [[0x07]] else []) ++ [[0x1b, 0x5c], [0xc2, 0x9c]]

/-- **The terminator is swallowed too, and leads to ground.** -/
theorem Swallows.ends (h : Swallows f bel u) {stop : List UInt8} (hstop : stop ∈ terminators bel) :
    ∃ g, f.feed stop = ⟨g, [], []⟩ ∧ g.state = .ground := by
  have hcases : (bel = true ∧ stop = [0x07]) ∨ stop = [0x1b, 0x5c] ∨ stop = [0xc2, 0x9c] := by
    cases bel <;> simpa [terminators] using hstop
  have hdrop := h.drop
  refine ⟨{ f with state := .ground }, ?_, rfl⟩
  rcases hcases with ⟨rfl, rfl⟩ | rfl | rfl
  · rw [feed_singleton, h.step_eq (by decide)]
    simp [stepStr, h.bell, hdrop]
  · rw [feed_cons, feed_singleton, h.step_eq (by decide)]
    simp [stepStr, VtFilter.step, stepStrEsc, hdrop, Fed.after]
  · rw [feed_cons, feed_singleton, h.step_eq (by decide)]
    simp [stepStr, VtFilter.step, stepStrC2, hdrop, Fed.after]

/-- A whole string, from its first byte to its terminator. -/
theorem swallows_string (hfree : Free bel u) {stop : List UInt8} (hstop : stop ∈ terminators bel) :
    ∃ g, (f.enterStr true bel).feed (u ++ stop) = ⟨g, [], []⟩ ∧ g.state = .ground := by
  obtain ⟨g, hfeed, hg⟩ := (swallows_enterStr f bel).feed (v := u) (by simpa using hfree)
  obtain ⟨g', hfeed', hground⟩ := hg.ends hstop
  exact ⟨g', by rw [feed_append, hfeed, hfeed']; rfl, hground⟩

/-! ## An OSC -/

/-- A byte the selector is read through. -/
def selects (b : UInt8) : Bool := isDigit b || oscSkips b

/-- The selector's digits. -/
def selector (content : List UInt8) : List UInt8 := (content.takeWhile selects).filter isDigit

/-- **The window of an OSC** counts the digits, whatever is spliced in. -/
theorem feed_selector {n : ℕ} (h : InSync f (.oscId n digits)) (hu : ∀ b ∈ u, selects b = true) :
    ∃ g, f.feed u = ⟨g, [], []⟩ ∧ InSync g (.oscId n (digits ++ u.filter isDigit)) := by
  induction u generalizing f digits with
  | nil => exact ⟨f, rfl, by simpa using h⟩
  | cons b u ih =>
    have hrest : ∀ c ∈ u, selects c = true := fun c hc => hu c (List.mem_cons_of_mem b hc)
    have hstep : f.step b = f.stepOscId b := by simp [step, h.1]
    cases hd : isDigit b with
    | true =>
      obtain ⟨hs, hseen, hnum⟩ := h
      have hpush : InSync (f.pushOsc b) (.oscId n (digits ++ [b])) := by
        refine ⟨hs, by simp [pushOsc], ?_⟩
        simp only [pushOsc, hnum, saturating_digit, digitsValue_snoc]
      obtain ⟨g, hfeed, hg⟩ := ih hpush hrest
      refine ⟨g, ?_, by simpa [List.filter_cons, hd] using hg⟩
      rw [feed_cons, hstep, stepOscId_digit hd, hfeed]
      rfl
    | false =>
      have hk : oscSkips b = true := by simpa [selects, hd] using hu b List.mem_cons_self
      obtain ⟨g, hfeed, hg⟩ := ih h hrest
      refine ⟨g, ?_, by simpa [List.filter_cons, hd] using hg⟩
      rw [feed_cons, hstep, stepOscId_skip hk, hfeed]
      rfl

/-- The first byte that ends the number is the first one of the string. -/
theorem feed_osc_exit (hs : f.state = .oscId) (hb : selects b = false)
    (hdrops : f.oscDrops = true) :
    f.feed (b :: v) = ((f.enterStr true true).feed (b :: v)).after []
      (oscDecision f.oscSeen f.oscNum).toList := by
  obtain ⟨hd, hk⟩ : isDigit b = false ∧ oscSkips b = false := by simpa [selects] using hb
  have hstep : f.step b = f.stepOscId b := by simp [step, hs]
  have hstr : (f.enterStr true true).step b = (f.enterStr true true).stepStr b := rfl
  rw [feed_cons, feed_cons, hstep, hstr, stepOscId_exit hd hk, hdrops]
  simp [Fed.after]

/-- The selectors that act on the host. -/
theorem oscDecision_acts (h : digits = [] ∨ digitsValue digits ∈ [0, 1, 2, 52]) :
    oscDecision (decide (digits ≠ [])) (min (digitsValue digits) u32Max) =
      some (if digitsValue digits = 52 then .clipboard else .title) := by
  rw [oscDecision_capped]
  by_cases hnone : digits = []
  · subst hnone
    rfl
  · have hvalue := h.resolve_left hnone
    simp only [List.mem_cons, List.not_mem_nil, or_false] at hvalue
    rcases hvalue with h | h | h | h <;> simp [oscDecision, hnone, h]

/-- **An acting OSC is swallowed whole.** -/
theorem feed_osc {n : ℕ} (h : InSync f (.oscId n [])) (hfree : Free true u)
    (hsel : selector u = [] ∨ digitsValue (selector u) ∈ [0, 1, 2, 52]) {stop : List UInt8}
    (hstop : stop ∈ terminators true) :
    ∃ g, f.feed (u ++ stop) =
        ⟨g, [], [if digitsValue (selector u) = 52 then .clipboard else .title]⟩ ∧
      g.state = .ground := by
  have hsplit : u = u.takeWhile selects ++ u.dropWhile selects :=
    (List.takeWhile_append_dropWhile ..).symm
  obtain ⟨g, hfeed, hs, hseen, hnum⟩ := feed_selector (u := u.takeWhile selects) h
    fun b hb => List.mem_takeWhile_imp hb
  rw [List.nil_append] at hseen hnum
  have hdecision := oscDecision_acts hsel
  rw [selector, ← hseen, ← hnum] at hdecision
  have hdrops : g.oscDrops = true := by rw [oscDrops, hdecision]; rfl
  -- the byte that ends the number is the string's first, or the terminator's
  obtain ⟨b, v, hrest, hb⟩ : ∃ b v, u.dropWhile selects ++ stop = b :: v ∧ selects b = false := by
    cases hd : u.dropWhile selects with
    | nil =>
      simp only [terminators, if_true, List.cons_append, List.nil_append, List.mem_cons,
        List.not_mem_nil, or_false] at hstop
      rcases hstop with rfl | rfl | rfl
      · exact ⟨_, _, rfl, by decide⟩
      · exact ⟨_, _, rfl, by decide⟩
      · exact ⟨_, _, rfl, by decide⟩
    | cons b v =>
      have hhead := List.head?_dropWhile_not selects u
      rw [hd] at hhead
      exact ⟨b, v ++ stop, rfl, by simpa using hhead⟩
  have hinfix : u.dropWhile selects <:+: u := (List.dropWhile_suffix _).isInfix
  obtain ⟨g', hstring, hground⟩ := swallows_string (f := g) (hfree.of_infix hinfix) hstop
  refine ⟨g', ?_, hground⟩
  conv_lhs => rw [hsplit]
  rw [List.append_assoc, feed_append, hfeed, hrest, feed_osc_exit hs hb hdrops, ← hrest, hstring,
    hdecision]
  rfl

/-! ## A DCS -/

/-- The filter is in the window of a DCS of which it holds the parameters, or
it has frozen its buffer. -/
structure Windowed (f : VtFilter) (params : List UInt8) : Prop where
  state : f.state = .dcsId
  held : f.dcsOver = false → ∃ a c, f.buf = a :: c :: params

/-- **The window of a DCS** keeps the parameters, whatever is spliced in. -/
theorem feed_window {params : List UInt8} (h : Windowed f params)
    (hu : ∀ b ∈ u, isParam b = true ∨ dcsSkips b = true) :
    ∃ g, f.feed u = ⟨g, [], []⟩ ∧ Windowed g (params ++ u.filter isParam) := by
  induction u generalizing f params with
  | nil => exact ⟨f, rfl, by simpa using h⟩
  | cons b u ih =>
    have hrest : ∀ c ∈ u, isParam c = true ∨ dcsSkips c = true := fun c hc =>
      hu c (List.mem_cons_of_mem b hc)
    have hstep : f.step b = f.stepDcsId b := by simp [step, h.state]
    cases hp : isParam b with
    | true =>
      have hpush : Windowed (f.pushDcs b) (params ++ [b]) := by
        cases ho : f.dcsOver with
        | true => exact ⟨by simp [pushDcs, ho, h.state], fun hno => by simp [pushDcs, ho] at hno⟩
        | false =>
          obtain ⟨a, c, hbuf⟩ := h.held ho
          exact ⟨by simp [pushDcs, ho, h.state], fun _ => ⟨a, c, by simp [pushDcs, ho, hbuf]⟩⟩
      obtain ⟨g, hfeed, hg⟩ := ih hpush hrest
      refine ⟨g, ?_, by simpa [List.filter_cons, hp] using hg⟩
      rw [feed_cons, hstep, stepDcsId_param hp, hfeed]
      rfl
    | false =>
      have hk : dcsSkips b = true := (hu b List.mem_cons_self).resolve_left (by simp [hp])
      obtain ⟨g, hfeed, hg⟩ := ih h hrest
      refine ⟨g, ?_, by simpa [List.filter_cons, hp] using hg⟩
      rw [feed_cons, hstep, stepDcsId_skip hk, hfeed]
      rfl

/-- **An echo query is swallowed whole**, however long its window is. -/
theorem feed_dcs {params : List UInt8} (h : Windowed f []) (hfree : Free false v)
    (hu : ∀ b ∈ u, isParam b = true ∨ dcsSkips b = true) (hparams : u.filter isParam = params)
    (hlast : params.getLast? = some 0x24 ∨ params.getLast? = some 0x2b) {stop : List UInt8}
    (hstop : stop ∈ terminators false) :
    ∃ g, f.feed (u ++ 0x71 :: (v ++ stop)) = ⟨g, [], [.queryEcho]⟩ ∧ g.state = .ground := by
  obtain ⟨g, hfeed, hg⟩ := feed_window h hu
  rw [List.nil_append, hparams] at hg
  have hdrops : g.dcsDrops 0x71 = true := by
    cases ho : g.dcsOver with
    | true => simp [dcsDrops, ho]
    | false =>
      obtain ⟨a, c, hbuf⟩ := hg.held ho
      have hne : params ≠ [] := by
        rintro rfl
        simp at hlast
      have hsame : g.buf.getLast? = params.getLast? := by
        rw [hbuf, List.getLast?_cons, List.getLast?_cons]
        cases hlast <;> simp [*]
      rcases hlast with hlast | hlast <;> simp [dcsDrops, hsame, hlast]
  obtain ⟨g', hstring, hground⟩ := swallows_string (f := g) hfree hstop
  refine ⟨g', ?_, hground⟩
  have hstep : g.step 0x71 = g.stepDcsId 0x71 := by simp [step, hg.state]
  rw [feed_append, hfeed, feed_cons, hstep, stepDcsId_final (by decide), hdrops]
  simp only [if_true, hstring]
  rfl

/-! ## From ground to ground -/

/-- What the filter makes of a string it drops. -/
structure Swallowed (f : VtFilter) (r : Fed) (name : Drop) : Prop where
  out : r.out = []
  dropped : r.dropped = [name]
  state : r.filter.state = .ground
  /-- What comes is treated as if the string had never been there. -/
  next : ∀ rest, (r.filter.feed rest).out = (f.feed rest).out ∧
    (r.filter.feed rest).dropped = (f.feed rest).dropped

theorem swallowed_of_feed {name : Drop} {r : Fed} (hf : f.state = .ground)
    (h : r = ⟨g, [], [name]⟩) (hg : g.state = .ground) : Swallowed f r name := by
  subst h
  refine ⟨rfl, rfl, hg, fun rest => ?_⟩
  exact Alike.feed (.inr (.inr ⟨hg.trans hf.symm, .inl hf⟩)) rest

/-- The introducers of an OSC. -/
def oscIntroducers : List (List UInt8) := [[0x1b, 0x5d], [0xc2, 0x9d]]

/-- The introducers of a DCS. -/
def dcsIntroducers : List (List UInt8) := [[0x1b, 0x50], [0xc2, 0x90]]

theorem feed_oscIntroducer (hf : f.state = .ground) {intro : List UInt8}
    (hintro : intro ∈ oscIntroducers) :
    ∃ g, f.feed intro = ⟨g, [], []⟩ ∧ InSync g (.oscId 0 []) := by
  refine ⟨f.openSeq intro .oscId, ?_, rfl, rfl, rfl⟩
  simp only [oscIntroducers, List.mem_cons, List.not_mem_nil, or_false] at hintro
  rcases hintro with rfl | rfl <;>
    simp [feed_cons, step, hf, stepGround, stepEsc, stepUtf8C2, openSeq, Fed.after]

theorem feed_dcsIntroducer (hf : f.state = .ground) {intro : List UInt8}
    (hintro : intro ∈ dcsIntroducers) :
    ∃ g, f.feed intro = ⟨g, [], []⟩ ∧ Windowed g [] := by
  refine ⟨f.openSeq intro .dcsId, ?_, rfl, fun _ => ?_⟩ <;>
    simp only [dcsIntroducers, List.mem_cons, List.not_mem_nil, or_false] at hintro
  · rcases hintro with rfl | rfl <;>
      simp [feed_cons, step, hf, stepGround, stepEsc, stepUtf8C2, openSeq, Fed.after]
  · rcases hintro with rfl | rfl <;> exact ⟨_, _, rfl⟩

/-- **An acting string is dropped whole.** From ground, however it is cut: an
OSC whose selector is 0, 1, 2 or 52 or has no digit, and a DCS whose window
ends in `$` or `+` before a final `q`, forward nothing, record their class
once and lead back to ground. -/
theorem acting_string_dropped (hf : f.state = .ground) (chunks : List (List UInt8)) :
    (∀ intro ∈ oscIntroducers, ∀ content, Free true content → ∀ stop ∈ terminators true,
      selector content = [] ∨ digitsValue (selector content) ∈ [0, 1, 2, 52] →
      chunks.flatten = intro ++ content ++ stop →
      Swallowed f (f.feedChunks chunks)
        (if digitsValue (selector content) = 52 then .clipboard else .title)) ∧
    (∀ intro ∈ dcsIntroducers, ∀ window : List UInt8,
      (∀ b ∈ window, isParam b = true ∨ dcsSkips b = true) →
      (window.filter isParam).getLast? = some 0x24 ∨
        (window.filter isParam).getLast? = some 0x2b →
      ∀ payload, Free false payload → ∀ stop ∈ terminators false,
      chunks.flatten = intro ++ window ++ [0x71] ++ payload ++ stop →
      Swallowed f (f.feedChunks chunks) .queryEcho) := by
  constructor
  · intro intro hintro content hfree stop hstop hsel hflat
    obtain ⟨g, hopen, hsync⟩ := feed_oscIntroducer hf hintro
    obtain ⟨g', hfeed, hground⟩ := feed_osc hsync hfree hsel hstop
    refine swallowed_of_feed hf ?_ hground
    rw [feedChunks_eq, hflat, List.append_assoc, feed_append, hopen, hfeed]
    rfl
  · intro intro hintro window hwindow hlast payload hfree stop hstop hflat
    obtain ⟨g, hopen, hwindowed⟩ := feed_dcsIntroducer hf hintro
    obtain ⟨g', hfeed, hground⟩ := feed_dcs hwindowed hfree hwindow rfl hlast hstop
    refine swallowed_of_feed hf ?_ hground
    have hsplit : intro ++ window ++ [0x71] ++ payload ++ stop =
        intro ++ (window ++ 0x71 :: (payload ++ stop)) := by simp
    rw [feedChunks_eq, hflat, hsplit, feed_append, hopen, hfeed]
    rfl

/-- The clipboard under a padded and spliced number, and a query, in pieces. -/
theorem acting_string_dropped_pieces :
    Swallowed new (new.feedChunks [[0x1b], [0x5d, 0x30, 0x35, 0x01], [0x32, 0x3b, 0xc2], [0x07]])
      .clipboard ∧
    Swallowed new (new.feedChunks [[0xc2], [0x90, 0x24, 0x7f, 0x71, 0x6d], [], [0x1b, 0x5c]])
      .queryEcho := by
  obtain ⟨hosc, -⟩ := acting_string_dropped (f := new) rfl
    [[0x1b], [0x5d, 0x30, 0x35, 0x01], [0x32, 0x3b, 0xc2], [0x07]]
  obtain ⟨-, hdcs⟩ := acting_string_dropped (f := new) rfl
    [[0xc2], [0x90, 0x24, 0x7f, 0x71, 0x6d], [], [0x1b, 0x5c]]
  have hstop : [0x07] ∈ terminators true := by decide
  have hstop' : [0x1b, 0x5c] ∈ terminators false := by decide
  constructor
  · exact hosc [0x1b, 0x5d] (by decide) [0x30, 0x35, 0x01, 0x32, 0x3b, 0xc2]
      ⟨by decide, by decide, by decide⟩ [0x07] hstop (by decide) rfl
  · exact hdcs [0xc2, 0x90] (by decide +kernel) [0x24, 0x7f] (by decide +kernel) (by decide +kernel)
      [0x6d] ⟨by decide, by decide, by decide⟩ [0x1b, 0x5c] hstop' rfl

end VtFilter

end Terminal

end Willie
