import Willie.Terminal.Swallowed
/-!
# A CSI, decided as the emulator reads it

Controls and DELs may be spliced in anywhere, and the parameters may be
longer than the buffer. What is held is always the first `CSI_CAP` bytes of
what was read of the CSI itself (`Reads`), so the final byte decides on all
of it or finds the buffer frozen. The controls are forwarded as they come.
-/

namespace Willie

namespace Terminal

namespace VtFilter

variable {f g : VtFilter} {b fin : UInt8} {u seen : List UInt8}

/-! ## Inside a CSI -/

/-- A byte a CSI stays open through. -/
def insideCsi (b : UInt8) : Bool := isParam b || isC0 b || b == 0x7f

/-- The filter is in a CSI of which it has read the bytes `seen`, the
introducer first and without the controls. -/
structure Reads (f : VtFilter) (seen : List UInt8) : Prop where
  state : f.state = .csi
  buf : f.buf = seen.take csiCap
  frozen : f.csiOver = decide (csiCap ≤ seen.length)

/-- A parameter byte is kept while there is room for it. -/
theorem Reads.push (h : Reads f seen) (b : UInt8) : Reads (f.pushCsi b) (seen ++ [b]) := by
  have hlen : (seen ++ [b]).length = seen.length + 1 := by simp
  unfold pushCsi
  by_cases hroom : csiCap ≤ seen.length
  · rw [if_pos (by simpa [h.frozen] using hroom)]
    refine ⟨h.state, ?_, ?_⟩
    · rw [h.buf, List.take_append_of_le_length hroom]
    · rw [h.frozen, hlen]
      exact decide_eq_decide.mpr (by omega)
  · rw [if_neg (by simpa [h.frozen] using hroom)]
    have hbuf : f.buf = seen := by rw [h.buf, List.take_of_length_le (by omega)]
    refine ⟨h.state, ?_, ?_⟩
    · show f.buf ++ [b] = (seen ++ [b]).take csiCap
      rw [hbuf, List.take_of_length_le (by omega)]
    · show decide (csiCap ≤ f.buf.length + 1) = decide (csiCap ≤ (seen ++ [b]).length)
      rw [hbuf, hlen]

/-- **Inside a CSI** the controls go out as they come, and the CSI's own
bytes are held. -/
theorem Reads.feed (h : Reads f seen) (hu : ∀ b ∈ u, insideCsi b = true) :
    ∃ g, f.feed u = ⟨g, u.filter isC0, []⟩ ∧ Reads g (seen ++ u.filter isParam) := by
  induction u generalizing f seen with
  | nil => exact ⟨f, rfl, by simpa using h⟩
  | cons b u ih =>
    have hrest : ∀ c ∈ u, insideCsi c = true := fun c hc => hu c (List.mem_cons_of_mem b hc)
    have hstep : f.step b = f.stepCsi b := by simp [step, h.state]
    have hb : isParam b ∨ isC0 b ∨ b = 0x7f := by
      simpa [insideCsi, or_assoc] using hu b List.mem_cons_self
    rcases hb with hp | hc | rfl
    · have hnc : isC0 b = false := by grind [isC0, isParam]
      obtain ⟨g, hfeed, hg⟩ := ih (h.push b) hrest
      refine ⟨g, ?_, by simpa [List.filter_cons, hp] using hg⟩
      rw [feed_cons, hstep, stepCsi_param hp, hfeed]
      simp [Fed.after, hnc]
    · have hnp : isParam b = false := by grind [isC0, isParam]
      obtain ⟨g, hfeed, hg⟩ := ih h hrest
      refine ⟨g, ?_, by simpa [List.filter_cons, hnp] using hg⟩
      rw [feed_cons, hstep, stepCsi_c0 hc, hfeed]
      simp [Fed.after, hc]
    · obtain ⟨g, hfeed, hg⟩ := ih h hrest
      exact ⟨g, by rw [feed_cons, hstep, stepCsi_del, hfeed]; rfl, hg⟩

/-! ## The final byte -/

/-- The window operations with a reply of a fixed form. -/
def reportOps : List ℕ := [11, 13, 14, 16, 18, 19]

/-- The digits the parameters begin with, after any of `?`, `<` and `=`. -/
def firstDigits (params : List UInt8) : List UInt8 :=
  (params.dropWhile fun c => c == 0x3f || c == 0x3c || c == 0x3d).takeWhile isDigit

/-- `CSI … t` asks for a report: the parameters do not start with `>` and their
first number is one's. -/
def Reports (params : List UInt8) : Prop :=
  params.head? ≠ some 0x3e ∧ digitsValue (firstDigits params) ∈ reportOps

instance (params : List UInt8) : Decidable (Reports params) :=
  inferInstanceAs (Decidable (_ ∧ _))

/-- A number the parse refuses is not a report's. -/
theorem parseU32_report {digits : List UInt8} :
    (∃ n ∈ reportOps, parseU32 digits = some n) ↔ digitsValue digits ∈ reportOps := by
  constructor
  · rintro ⟨n, hn, hparse⟩
    rw [parseU32] at hparse
    split_ifs at hparse with hnone hfits
    rwa [Option.some.inj hparse]
  · intro hmem
    refine ⟨_, hmem, ?_⟩
    have hne : digits ≠ [] := by
      rintro rfl
      exact absurd hmem (by decide)
    have hfits : digitsValue digits ≤ u32Max :=
      (show ∀ n ∈ reportOps, n ≤ u32Max by decide) _ hmem
    rw [parseU32, if_neg hne, if_pos hfits]

/-- **The decision on a CSI**: only `t` is ever dropped, and of `t` only what
is no report. -/
theorem csiDecision_eq_none (a c : UInt8) (params : List UInt8) :
    csiDecision (a :: c :: params) fin = none ↔ fin ≠ 0x74 ∨ Reports params := by
  by_cases ht : fin = 0x74
  · subst ht
    by_cases htitle : params.head? = some 0x3e
    · simp [csiDecision, Reports, htitle]
    · rw [csiDecision, if_neg (by decide), Reports, ← parseU32_report]
      have hdigits : List.takeWhile isDigit (params.dropWhile fun c =>
          c == 0x3f || c == 0x3c || c == 0x3d) = firstDigits params := rfl
      simp only [List.drop_succ_cons, List.drop_zero, if_neg htitle, hdigits]
      cases parseU32 (firstDigits params) with
      | none => simp
      | some n => simp [htitle, reportOps, or_iff_not_imp_left]
  · simp [csiDecision, ht]

/-! ## From ground to ground -/

/-- The introducers of a CSI. -/
def csiIntroducers : List (List UInt8) := [[0x1b, 0x5b], [0xc2, 0x9b]]

theorem feed_csiIntroducer (hf : f.state = .ground) {intro : List UInt8}
    (hintro : intro ∈ csiIntroducers) :
    ∃ g, f.feed intro = ⟨g, [], []⟩ ∧ Reads g intro := by
  refine ⟨f.openSeq intro .csi, ?_, rfl, ?_, ?_⟩ <;>
    simp only [csiIntroducers, List.mem_cons, List.not_mem_nil, or_false] at hintro
  · rcases hintro with rfl | rfl <;>
      simp [feed_cons, step, hf, stepGround, stepEsc, stepUtf8C2, openSeq, Fed.after]
  · rcases hintro with rfl | rfl <;> rfl
  · rcases hintro with rfl | rfl <;> rfl

/-- The bytes of the CSI itself are forwarded. -/
def Forwarded (intro params : List UInt8) (fin : UInt8) : Prop :=
  (intro ++ params).length < csiCap ∧ (fin ≠ 0x74 ∨ Reports params)

instance (intro params : List UInt8) (fin : UInt8) : Decidable (Forwarded intro params fin) :=
  inferInstanceAs (Decidable (_ ∧ _))

/-- **The final byte** lets the whole CSI out or none of it. -/
theorem Reads.final {intro params : List UInt8} (hintro : intro ∈ csiIntroducers)
    (h : Reads f (intro ++ params)) (hfin : isFinal fin = true) :
    (f.step fin).out = (if Forwarded intro params fin then intro ++ params ++ [fin] else []) ∧
      (f.step fin).filter.state = .ground := by
  have hstep : f.step fin = f.stepCsi fin := by simp [step, h.state]
  rw [hstep, stepCsi_final hfin]
  refine ⟨?_, rfl⟩
  show (if f.csiDrops fin then [] else f.buf ++ [fin]) = _
  by_cases hroom : (intro ++ params).length < csiCap
  · have hbuf : f.buf = intro ++ params := by rw [h.buf, List.take_of_length_le (by omega)]
    have hover : f.csiOver = false := by rw [h.frozen, decide_eq_false (by omega)]
    have hdecision : csiDecision (intro ++ params) fin = none ↔ fin ≠ 0x74 ∨ Reports params := by
      simp only [csiIntroducers, List.mem_cons, List.not_mem_nil, or_false] at hintro
      rcases hintro with rfl | rfl <;> exact csiDecision_eq_none _ _ params
    by_cases hpass : fin ≠ 0x74 ∨ Reports params
    · rw [if_pos (show Forwarded intro params fin from ⟨hroom, hpass⟩), csiDrops, hover, hbuf,
        hdecision.mpr hpass]
      simp
    · have hsome : (csiDecision (intro ++ params) fin).isSome := by
        rw [Option.isSome_iff_ne_none]
        exact fun hnone => hpass (hdecision.mp hnone)
      rw [if_neg (show ¬ Forwarded intro params fin from fun hall => hpass hall.2), csiDrops, hbuf,
        hsome]
      simp
  · -- a frozen buffer is never let out, whatever it says
    have hover : f.csiOver = true := by rw [h.frozen, decide_eq_true (by omega)]
    rw [if_neg (show ¬ Forwarded intro params fin from fun hall => hroom hall.1), csiDrops, hover]
    simp

/-- **A CSI is decided as the emulator reads it.** From ground, however it is
cut: the controls spliced in are forwarded at once; the CSI's own bytes follow
them as a whole exactly if they fit the buffer and are no `t`, or the `t` of a
report, and the filter is back in ground. -/
theorem csi_decided (hf : f.state = .ground) (intro inner : List UInt8)
    (hintro : intro ∈ csiIntroducers) (hinner : ∀ b ∈ inner, insideCsi b = true)
    (hfin : isFinal fin = true) :
    (∀ u chunks, u <+: inner → chunks.flatten = intro ++ u →
      (f.feedChunks chunks).out = u.filter isC0) ∧
    ∀ chunks, chunks.flatten = intro ++ inner ++ [fin] →
      (f.feedChunks chunks).out = inner.filter isC0 ++
        (if Forwarded intro (inner.filter isParam) fin then
          intro ++ inner.filter isParam ++ [fin] else []) ∧
      (f.feedChunks chunks).filter.state = .ground := by
  obtain ⟨g, hopen, hreads⟩ := feed_csiIntroducer hf hintro
  constructor
  · intro u chunks hprefix hflat
    obtain ⟨g', hfeed, -⟩ := hreads.feed fun b hb => hinner b (List.IsPrefix.subset hprefix hb)
    rw [feedChunks_eq, hflat, feed_append, hopen, hfeed]
    rfl
  · intro chunks hflat
    obtain ⟨g', hfeed, hg'⟩ := hreads.feed hinner
    obtain ⟨hout, hstate⟩ := hg'.final hintro hfin
    rw [feedChunks_eq, hflat, feed_snoc, feed_append, hopen, hfeed]
    exact ⟨congrArg (inner.filter isC0 ++ ·) hout, hstate⟩

/-- A padded report with a backspace in it passes, a resize does not. -/
theorem csi_decided_window :
    (new.feedChunks [[0x1b], [0x5b, 0x30, 0x31, 0x08], [0x38, 0x7f], [0x74]]).out =
      [0x08, 0x1b, 0x5b, 0x30, 0x31, 0x38, 0x74] ∧
    (new.feedChunks [[0xc2, 0x9b, 0x38], [0x0a, 0x74]]).out = [0x0a] := by
  obtain ⟨-, hreport⟩ := csi_decided (f := new) rfl [0x1b, 0x5b] [0x30, 0x31, 0x08, 0x38, 0x7f]
    (by decide +kernel) (by decide +kernel) (show isFinal 0x74 = true by decide +kernel)
  obtain ⟨-, hresize⟩ := csi_decided (f := new) rfl [0xc2, 0x9b] [0x38, 0x0a]
    (by decide +kernel) (by decide +kernel) (show isFinal 0x74 = true by decide +kernel)
  exact ⟨(hreport _ rfl).1.trans (by decide), (hresize _ rfl).1.trans (by decide)⟩

end VtFilter

end Terminal

end Willie
