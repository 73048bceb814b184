import Mathlib.Data.List.Induction
import Mathlib.Data.List.Infix
import Willie.Terminal.Steps
/-!
# Drawing bytes pass unchanged

A step that records nothing, whose buffer is under its cap and whose byte
is not a control spliced into a sequence under identification, moves no
byte out of order: what it forwards, followed by what it still holds, is
what it held followed by the byte (`step_conserves`). A run of such steps
forwards its input (`feed_conserves`).
-/

namespace Willie

namespace Terminal

namespace VtFilter

/-- An over-cap flag is set. -/
def overCap (f : VtFilter) : Bool := f.csiOver || f.oscOver || f.dcsOver

/-- The byte is a C0 control or DEL inside a CSI, an OSC number or a DCS
identify window: one the emulator executes or ignores there while the
sequence stays open. -/
def splices (f : VtFilter) (b : UInt8) : Bool :=
  match f.state with
  | .csi => isC0 b || b == 0x7f
  | .oscId => oscSkips b
  | .dcsId => dcsSkips b
  | _ => false

/-- The string being read, if any, is forwarded. -/
def Streaming (f : VtFilter) : Prop :=
  f.state = .str ∨ f.state = .strEsc ∨ f.state = .strC2 → f.strDrop = false

theorem streaming_new : Streaming new := by simp [Streaming, new]

theorem stepGround_streaming (f : VtFilter) (b : UInt8) : Streaming (f.stepGround b).filter := by
  unfold stepGround
  split_ifs <;> simp [Streaming]

theorem stepEsc_streaming (f : VtFilter) (b : UInt8) : Streaming (f.stepEsc b).filter := by
  unfold stepEsc
  split_ifs
  case neg => exact stepGround_streaming f b
  all_goals simp [Streaming, openSeq]

theorem stepStr_streaming {f : VtFilter} (h : f.strDrop = false) (b : UInt8) :
    Streaming (f.stepStr b).filter := by
  unfold stepStr
  split_ifs <;> simp [Streaming, h]

/-- **A step that records nothing under the caps enters no dropped
string.** -/
theorem step_streaming {f : VtFilter} {b : UInt8} (hstr : Streaming f)
    (hdrop : (f.step b).dropped = []) (hover : f.overCap = false) :
    Streaming (f.step b).filter := by
  simp only [overCap, Bool.or_eq_false_iff] at hover
  obtain ⟨⟨-, hosc⟩, hdcs⟩ := hover
  rcases hs : f.state with _ | _ | _ | _ | _ | _ | _ | _ | _ <;> simp only [step, hs] at hdrop ⊢
  case ground => exact stepGround_streaming f b
  case utf8C2 =>
    by_cases h : b = 0x9b ∨ b = 0x9d ∨ b = 0x90
    · rcases h with rfl | rfl | rfl <;> simp [stepUtf8C2, Streaming, openSeq]
    by_cases hc : isContinuation b
    · simp [stepUtf8C2_char h hc, Streaming]
    · rw [stepUtf8C2_other (by simpa using hc)]
      exact stepGround_streaming f b
  case esc => exact stepEsc_streaming f b
  case csi =>
    rcases csi_classes b with h | h | h | rfl | ⟨hf, hp, hc, hd⟩
    · simp [stepCsi_final h, Streaming, closeCsi]
    · rw [stepCsi_param h, pushCsi]
      split_ifs <;> simp [Streaming, hs]
    · simp [stepCsi_c0 h, Streaming, hs]
    · simp [stepCsi_del, Streaming, hs]
    · rw [stepCsi_cancel hf hp hc hd]
      exact stepGround_streaming f.closeCsi b
  case oscId =>
    rcases osc_classes b with h | h | ⟨hd, hk⟩
    · simp [stepOscId_digit h, pushOsc, Streaming, hs]
    · simp [stepOscId_skip h, Streaming, hs]
    · rw [stepOscId_exit hd hk] at hdrop ⊢
      exact stepStr_streaming (by simp_all [enterStr, oscDrops]) b
  case dcsId =>
    rcases dcs_classes b with h | h | h | ⟨hp, hf, hk⟩
    · rw [stepDcsId_param h, pushDcs]
      split_ifs <;> simp [Streaming, hs]
    · rw [stepDcsId_final h] at hdrop ⊢
      simp_all [Streaming, enterStr]
    · simp [stepDcsId_skip h, Streaming, hs]
    · rw [stepDcsId_exit hp hf hk]
      exact stepStr_streaming (by simp [enterStr, hdcs]) b
  case str => exact stepStr_streaming (hstr (by simp [hs])) b
  case strEsc =>
    by_cases h : b = 0x5c
    · simp [h, stepStrEsc, Streaming]
    · rw [stepStrEsc_other h]
      exact stepEsc_streaming _ b
  case strC2 =>
    have hd := hstr (by simp [hs])
    by_cases hc : isContinuation b
    · rw [stepStrC2_char hc]
      simp [Streaming, hd]
    · rw [stepStrC2_other (by simpa using hc)]
      exact stepStr_streaming hd b

/-- Fates that keep the bytes in order: nothing is withheld, and no byte
overtakes the ones held before it. -/
def Orderly (fates : Fate × Fate) : Prop :=
  fates = (.keep, .keep) ∨ fates = (.forward, .keep) ∨ fates = (.forward, .forward)

theorem meeting_conserves {fates : Fate × Fate} (h : Orderly fates) (kept : List UInt8)
    (b : UInt8) :
    meeting kept b fates .forward ++ meeting kept b fates .keep = kept ++ [b] := by
  rcases h with rfl | rfl | rfl <;> simp [meeting]

theorem groundFate_orderly (b : UInt8) : Orderly (.forward, groundFate b) := by
  unfold groundFate
  split_ifs <;> simp [Orderly]

theorem escFate_orderly (b : UInt8) : Orderly (escFate b) := by
  unfold escFate
  split_ifs
  · simp [Orderly]
  · exact groundFate_orderly b

theorem strFate_orderly (b : UInt8) : Orderly (.forward, strFate false b) := by
  unfold strFate dropFate
  split_ifs <;> simp_all [Orderly]

/-- The step forwards and keeps in order. -/
theorem fate_orderly {f : VtFilter} {b : UInt8} (hstr : Streaming f)
    (hdrop : (f.step b).dropped = []) (hover : f.overCap = false) (hc0 : f.splices b = false) :
    Orderly (f.fate b) := by
  simp only [overCap, Bool.or_eq_false_iff] at hover
  obtain ⟨⟨hcsi, hosc⟩, hdcs⟩ := hover
  rw [step_dropped] at hdrop
  rcases hs : f.state with _ | _ | _ | _ | _ | _ | _ | _ | _ <;>
    simp only [fate, decides, splices, hs] at hdrop hc0 ⊢
  case ground => exact groundFate_orderly b
  case utf8C2 =>
    split_ifs
    · simp [Orderly]
    · exact groundFate_orderly b
  case esc => exact escFate_orderly b
  case csi =>
    rcases csi_classes b with h | h | h | h | ⟨hf, hp, hc, hd⟩
    · simp_all [Orderly, dropFate, csiDrops]
    · have hf : isFinal b = false := by grind [isParam, isFinal]
      simp [h, hf, hcsi, Orderly]
    · simp [h] at hc0
    · simp [h] at hc0
    · simp only [hf, hp, hc, hd, hcsi, dropFate, Bool.false_eq_true, if_false]
      exact groundFate_orderly b
  case oscId =>
    rcases osc_classes b with h | h | ⟨hd, hk⟩
    · simp [h, hosc, Orderly]
    · simp [h] at hc0
    · have hno : f.oscDrops = false := by simp_all [oscDrops]
      simp only [hd, hk, hno, dropFate, Bool.false_eq_true, if_false]
      exact strFate_orderly b
  case dcsId =>
    rcases dcs_classes b with h | h | h | ⟨hp, hf, hk⟩
    · simp [h, hdcs, Orderly]
    · have hp : isParam b = false := by grind [isParam, isFinal]
      simp_all [Orderly, dropFate]
    · simp [h] at hc0
    · simp only [hp, hf, hk, hdcs, dropFate, Bool.false_eq_true, if_false]
      exact strFate_orderly b
  case str =>
    rw [hstr (by simp [hs])]
    exact strFate_orderly b
  case strEsc =>
    split_ifs
    · simp [Orderly, dropFate, hstr (by simp [hs])]
    · exact escFate_orderly b
  case strC2 =>
    rw [hstr (by simp [hs])]
    exact strFate_orderly b

/-- **One step loses and moves nothing.** -/
theorem step_conserves {f : VtFilter} {b : UInt8} (hstr : Streaming f)
    (hdrop : (f.step b).dropped = []) (hover : f.overCap = false) (hc0 : f.splices b = false) :
    (f.step b).out ++ (f.step b).filter.held = f.held ++ [b] := by
  rw [step_out, step_held]
  exact meeting_conserves (fate_orderly hstr hdrop hover hc0) _ _

/-- What an orderly run keeps: no dropped string is entered, and the
bytes forwarded and held are the bytes read. -/
theorem feed_conserves {input : List UInt8} (hdrop : (new.feed input).dropped = [])
    (hover : ∀ u, u <+: input → (new.feed u).filter.overCap = false)
    (hc0 : ∀ u b, u ++ [b] <+: input → (new.feed u).filter.splices b = false) :
    Streaming (new.feed input).filter ∧
      (new.feed input).out ++ (new.feed input).filter.held = input := by
  induction input using List.reverseRecOn with
  | nil => exact ⟨streaming_new, rfl⟩
  | append_singleton u b ih =>
    have hpre : u <+: u ++ [b] := List.prefix_append u [b]
    rw [feed_snoc, Fed.after_dropped, List.append_eq_nil_iff] at hdrop
    obtain ⟨hbefore, hlast⟩ := hdrop
    obtain ⟨hstr, hcons⟩ := ih hbefore (fun v hv => hover v (hv.trans hpre))
      fun v c hv => hc0 v c (hv.trans hpre)
    have ho := hover u hpre
    have hstep := step_conserves hstr hlast ho (hc0 u b (List.prefix_refl _))
    rw [feed_snoc, Fed.after_filter, Fed.after_out]
    refine ⟨step_streaming hstr hlast ho, ?_⟩
    calc (new.feed u).out ++ ((new.feed u).filter.step b).out
          ++ ((new.feed u).filter.step b).filter.held
        = (new.feed u).out ++ ((new.feed u).filter.held ++ [b]) := by
          rw [List.append_assoc, hstep]
      _ = u ++ [b] := by rw [← List.append_assoc, hcons]

/-- **Drawing bytes pass unchanged.** A session that records no drop,
overruns no cap and splices no control into a sequence forwards its bytes
in order, up to the ones the filter still holds at its end. -/
theorem drawing_passes (chunks : List (List UInt8))
    (hdrop : (new.feedChunks chunks).dropped = [])
    (hover : ∀ u, u <+: chunks.flatten → (new.feed u).filter.overCap = false)
    (hc0 : ∀ u b, u ++ [b] <+: chunks.flatten → (new.feed u).filter.splices b = false) :
    (new.feedChunks chunks).out ++ (new.feedChunks chunks).filter.held = chunks.flatten := by
  rw [feedChunks_eq] at hdrop ⊢
  exact (feed_conserves hdrop hover hc0).2

/-- A cursor move, a hyperlink and a letter, split inside the hyperlink's
number, with a `C2` pending at the end. -/
theorem drawing_passes_hyperlink :
    (new.feedChunks [[0x1b, 0x5b, 0x48, 0x1b, 0x5d], [0x38, 0x3b, 0x3b, 0x07, 0x41, 0xc2]]).out
        ++ [0xc2] =
      [0x1b, 0x5b, 0x48, 0x1b, 0x5d, 0x38, 0x3b, 0x3b, 0x07, 0x41, 0xc2] := by
  have hover : ∀ u ∈ [0x1b, 0x5b, 0x48, 0x1b, 0x5d, 0x38, 0x3b, 0x3b, 0x07, 0x41, 0xc2].inits,
      (new.feed u).filter.overCap = false := by decide
  have hc0 : ∀ u ∈ [0x1b, 0x5b, 0x48, 0x1b, 0x5d, 0x38, 0x3b, 0x3b, 0x07, 0x41, 0xc2].inits,
      u = [] ∨ (new.feed u.dropLast).filter.splices (u.getLastD 0) = false := by decide
  refine drawing_passes _ (by decide) (fun u hu => hover u ((List.mem_inits _ _).mpr hu))
    fun u b hu => ?_
  simpa using hc0 (u ++ [b]) ((List.mem_inits _ _).mpr hu)

end VtFilter

end Terminal

end Willie
