import Mathlib.Data.List.DropRight
import Willie.Sessions.System

/-!
# Sessions — the readiness line crosses

The supervisor's answer is written as a line, read by its launcher, printed
as a line again and read by the daemon. A pid crosses both as it is. A code
crosses if nothing in it ends the line or the code, and something is left to
separate: a detail of nothing but blanks is trimmed away with the separator's
blank, and the line then says nothing.
-/

namespace Willie
namespace Sessions

open Lines

variable {a b text code line : Text} {log : String}

/-! ## Blanks -/

def Blank (text : Text) : Prop := ∀ c ∈ text, isWhitespace c = true

instance : Decidable (Blank text) := List.decidableBAll (isWhitespace · = true) text

/-- A text without the white space at its end. -/
def trimEnd (text : Text) : Text := text.rdropWhile isWhitespace

theorem trimEnd_append_blank (h : Blank b) : trimEnd (a ++ b) = trimEnd a := by
  have hrev : ∀ c ∈ b.reverse, isWhitespace c = true := fun c hc => h c (List.mem_reverse.mp hc)
  rw [trimEnd, List.rdropWhile, List.reverse_append, List.dropWhile_append_of_pos hrev]
  rfl

theorem trimEnd_append (h : ¬ Blank b) : trimEnd (a ++ b) = a ++ trimEnd b := by
  have hne : ¬ (b.reverse.dropWhile isWhitespace).isEmpty = true := by
    rw [List.isEmpty_iff, List.dropWhile_eq_nil_iff]
    exact fun hall => h fun c hc => hall c (List.mem_reverse.mpr hc)
  rw [trimEnd, List.rdropWhile, List.reverse_append, List.dropWhile_append, if_neg hne,
    List.reverse_append, List.reverse_reverse]
  rfl

theorem trimEnd_eq_nil : trimEnd b = [] ↔ Blank b := List.rdropWhile_eq_nil_iff

theorem not_blank_trimEnd (h : ¬ Blank b) : ¬ Blank (trimEnd b) := by
  intro hblank
  have hidem : trimEnd (trimEnd b) = trimEnd b := List.rdropWhile_idempotent _ _
  exact h (trimEnd_eq_nil.mp (hidem.symm.trans (trimEnd_eq_nil.mpr hblank)))

theorem trim_eq (h : ∀ c ∈ text.head?, isWhitespace c = false) : trim text = trimEnd text := by
  cases text with
  | nil => rfl
  | cons c cs =>
    have hc := h c rfl
    rw [trim, List.dropWhile_cons_of_neg (by simp [hc])]
    rfl

theorem trim_append_blank (h : Blank b) : trim (a ++ b) = trim a := by
  rw [trim, List.dropWhile_append]
  split
  · rename_i hempty
    rw [List.dropWhile_eq_nil_iff.mpr h, trim, List.isEmpty_iff.mp hempty]
  · exact trimEnd_append_blank h

theorem mem_of_mem_trim {c : Char} (h : c ∈ trim text) : c ∈ text := by
  have hdrop : c ∈ text.dropWhile isWhitespace :=
    (List.rdropWhile_prefix isWhitespace _).subset h
  exact (List.dropWhile_sublist _).mem hdrop

/-! ## The first line -/

theorem trim_stripEnd : trim (stripEnd (line ++ ['\n'])) = trim line := by
  have hcr : Blank ['\r'] := by decide
  simp only [stripEnd, List.getLast?_concat, List.dropLast_concat, if_true]
  split
  · rename_i hlast
    obtain ⟨l, rfl⟩ := List.getLast?_eq_some_iff.mp hlast
    rw [List.dropLast_concat, trim_append_blank hcr]
  · rfl

/-- The first line is what comes before the first line feed, trimmed. -/
theorem firstLine_eq : firstLine text = trim (text.takeWhile (· ≠ '\n')) := by
  have hpre : '\n' ∉ text.takeWhile (· ≠ '\n') := fun hmem => by
    simpa using List.mem_takeWhile_imp hmem
  have hsplit : text.takeWhile (· ≠ '\n') ++ text.dropWhile (· ≠ '\n') = text :=
    List.takeWhile_append_dropWhile
  cases hrest : text.dropWhile (· ≠ '\n') with
  | nil =>
    rw [hrest, List.append_nil] at hsplit
    rw [hsplit] at hpre ⊢
    cases text with
    | nil => rfl
    | cons c cs => rw [firstLine, lines_rest hpre (List.cons_ne_nil c cs)]; rfl
  | cons c rest =>
    have hc : c = '\n' := by
      have hne : text.dropWhile (· ≠ '\n') ≠ [] := hrest ▸ List.cons_ne_nil c rest
      have hhead := List.head_dropWhile_not (· ≠ '\n') hne
      simp only [hrest, List.head_cons] at hhead
      simpa using hhead
    rw [hrest, hc] at hsplit
    have hline : (lines text).headD [] = stripEnd (text.takeWhile (· ≠ '\n') ++ ['\n']) := by
      conv_lhs => rw [← hsplit, lines, splitInclusive_line hpre]
      rfl
    rw [firstLine, hline, trim_stripEnd]

theorem not_mem_firstLine : '\n' ∉ firstLine text := by
  rw [firstLine_eq]
  intro h
  simpa using List.mem_takeWhile_imp (mem_of_mem_trim h)

/-! ## Where a text splits -/

theorem dropPrefix?_ne {c d : Char} {cs sep : Text} (h : c ≠ d) :
    (c :: cs).dropPrefix? (d :: sep) = none := by
  simp [List.dropPrefix?, h]

theorem splitOnce_cons {c : Char} (h : (c :: a).dropPrefix? [':', ' '] = none) :
    splitOnce [':', ' '] (c :: a) = (splitOnce [':', ' '] a).map fun (x, y) => (c :: x, y) := by
  rw [splitOnce, h]

/-- What precedes the separator does not hold one. -/
theorem splitOnce_no_sep (h : splitOnce [':', ' '] text = some (a, b)) :
    text = a ++ [':', ' '] ++ b ∧ ¬ [':', ' '] <:+: a := by
  induction text generalizing a with
  | nil => simp [splitOnce] at h
  | cons c cs ih =>
    cases hdrop : (c :: cs).dropPrefix? [':', ' '] with
    | some rest =>
      rw [splitOnce, hdrop] at h
      obtain ⟨rfl, rfl⟩ := Prod.mk.inj (Option.some.inj h)
      obtain ⟨p, hp, heq⟩ := List.dropPrefix?_eq_some_iff.mp hdrop
      obtain rfl := beq_iff_eq.mp heq
      exact ⟨hp, by simp⟩
    | none =>
      rw [splitOnce_cons hdrop, Option.map_eq_some_iff] at h
      obtain ⟨⟨x, y⟩, hxy, heq⟩ := h
      obtain ⟨rfl, rfl⟩ := Prod.mk.inj heq
      obtain ⟨hcs, hx⟩ := ih hxy
      refine ⟨by rw [hcs]; rfl, fun hinfix => ?_⟩
      rcases List.infix_cons_iff.mp hinfix with hpre | hinfix
      · -- a separator at the front would have been found there
        obtain ⟨z, hz⟩ := hpre
        have hfront : (c :: cs).dropPrefix? [':', ' '] = some (z ++ [':', ' '] ++ y) := by
          rw [List.dropPrefix?_eq_some_iff]
          refine ⟨[':', ' '], ?_, beq_self_eq_true _⟩
          rw [hcs, ← List.append_assoc, ← List.append_assoc, hz]
          rfl
        rw [hdrop] at hfront
        cases hfront
      · exact hx hinfix

/-- A part without a separator has none at its front, whatever follows a
colon after it. -/
theorem no_sep_front {c : Char} (h : ¬ [':', ' '] <:+: c :: a) :
    (c :: (a ++ ':' :: b)).dropPrefix? [':', ' '] = none := by
  cases hd : (c :: (a ++ ':' :: b)).dropPrefix? [':', ' '] with
  | none => rfl
  | some rest =>
    obtain ⟨p, hp, heq⟩ := List.dropPrefix?_eq_some_iff.mp hd
    obtain rfl := beq_iff_eq.mp heq
    cases a with
    | nil => simp at hp
    | cons d ds =>
      simp only [List.cons_append, List.cons.injEq] at hp
      obtain ⟨rfl, rfl, -⟩ := hp
      exact absurd (List.prefix_append [':', ' '] ds).isInfix h

theorem no_sep_tail {c : Char} (h : ¬ [':', ' '] <:+: c :: a) : ¬ [':', ' '] <:+: a :=
  fun hin => h (hin.trans (List.suffix_cons c a).isInfix)

/-- A text splits at the separator after a part that does not hold one. -/
theorem splitOnce_sep (h : ¬ [':', ' '] <:+: a) :
    splitOnce [':', ' '] (a ++ ':' :: ' ' :: b) = some (a, b) := by
  induction a with
  | nil => simp [splitOnce, List.dropPrefix?]
  | cons c cs ih =>
    rw [List.cons_append, splitOnce_cons (no_sep_front h), ih (no_sep_tail h)]
    rfl

/-- It does not split where nothing follows the colon. -/
theorem splitOnce_colon (h : ¬ [':', ' '] <:+: a) : splitOnce [':', ' '] (a ++ [':']) = none := by
  induction a with
  | nil => rfl
  | cons c cs ih =>
    rw [List.cons_append, splitOnce_cons (no_sep_front h), ih (no_sep_tail h)]
    rfl

/-! ## A line that tells a failure -/

/-- A code that neither ends the line nor splits before its end. -/
def Plain (code : Text) : Prop := '\n' ∉ code ∧ ¬ [':', ' '] <:+: code

/-- `fail <code>: <text>` and what ends the line. -/
def failLine (code text : Text) : Text :=
  'f' :: 'a' :: 'i' :: 'l' :: ' ' :: (code ++ ':' :: ' ' :: (text ++ ['\n']))

theorem takeWhile_line (h : '\n' ∉ a) :
    (a ++ b).takeWhile (· ≠ '\n') = a ++ b.takeWhile (· ≠ '\n') :=
  List.takeWhile_append_of_pos fun c hc => by simpa using ne_of_mem_of_not_mem hc h

/-- What of such a line is read: the first line of the detail, and of that no
blanks at the end; of a blank one not the separator's blank either. -/
theorem firstLine_failLine (h : '\n' ∉ code) :
    firstLine (failLine code text) = 'f' :: 'a' :: 'i' :: 'l' :: ' ' :: (code ++ ':' ::
      trimEnd (' ' :: text.takeWhile (· ≠ '\n'))) := by
  have hpre : '\n' ∉ 'f' :: 'a' :: 'i' :: 'l' :: ' ' :: (code ++ [':', ' ']) := by simp [h]
  have hrest : (text ++ ['\n']).takeWhile (· ≠ '\n') = text.takeWhile (· ≠ '\n') := by
    rw [List.takeWhile_append]
    split
    · rename_i hall
      rw [(List.takeWhile_prefix _).eq_of_length hall]
      simp
    · rfl
  have hfirst : (failLine code text).takeWhile (· ≠ '\n') =
      'f' :: 'a' :: 'i' :: 'l' :: ' ' :: (code ++ [':', ' ']) ++ text.takeWhile (· ≠ '\n') := by
    rw [← hrest, ← takeWhile_line hpre, failLine]
    simp
  have hcolon : ¬ Blank (':' :: ' ' :: text.takeWhile (· ≠ '\n')) := fun hb =>
    absurd (hb ':' List.mem_cons_self) (by decide)
  have hf : isWhitespace 'f' = false := by decide
  have hshape : 'f' :: 'a' :: 'i' :: 'l' :: ' ' :: (code ++ [':', ' ']) ++
      text.takeWhile (· ≠ '\n') =
        'f' :: 'a' :: 'i' :: 'l' :: ' ' :: code ++ ':' :: ' ' :: text.takeWhile (· ≠ '\n') := by
    simp
  have hends : trimEnd (':' :: ' ' :: text.takeWhile (· ≠ '\n')) =
      ':' :: trimEnd (' ' :: text.takeWhile (· ≠ '\n')) := by
    by_cases hb : Blank (' ' :: text.takeWhile (· ≠ '\n'))
    · have hone := trimEnd_append_blank (a := [':']) hb
      rw [List.singleton_append] at hone
      rw [hone, trimEnd_eq_nil.mpr hb]
      decide
    · exact trimEnd_append (a := [':']) hb
  rw [firstLine_eq, hfirst, hshape, trim_eq (by simp [hf]), trimEnd_append hcolon, hends]
  rfl

theorem parseLine_fail : parseLine ('f' :: 'a' :: 'i' :: 'l' :: ' ' :: text) =
    (splitOnce [':', ' '] text).map fun (code, text) =>
      .fail (String.ofList code) (String.ofList text) := by
  have hok : ('f' :: 'a' :: 'i' :: 'l' :: ' ' :: text).dropPrefix? "ok ".toList = none :=
    dropPrefix?_ne (by decide)
  have hfail : ('f' :: 'a' :: 'i' :: 'l' :: ' ' :: text).dropPrefix? "fail ".toList = some text :=
    @List.dropPrefix?_append_of_beq _ _ "fail ".toList _ text (beq_self_eq_true _)
  unfold parseLine
  rw [hok, hfail]
  rfl

/-- What the reader of such a line makes of it. -/
theorem parseLine_failLine (h : Plain code) :
    parseLine (firstLine (failLine code text)) =
      if Blank (text.takeWhile (· ≠ '\n')) then none
      else some (.fail (String.ofList code)
        (String.ofList (trimEnd (text.takeWhile (· ≠ '\n'))))) := by
  rw [firstLine_failLine h.1, parseLine_fail]
  split
  · rename_i hb
    have hall : Blank (' ' :: text.takeWhile (· ≠ '\n')) := fun c hc => by
      rcases List.mem_cons.mp hc with rfl | hc
      · decide
      · exact hb c hc
    rw [trimEnd_eq_nil.mpr hall, splitOnce_colon h.2]
    rfl
  · rename_i hb
    rw [show ' ' :: text.takeWhile (· ≠ '\n') = [' '] ++ text.takeWhile (· ≠ '\n') from rfl,
      trimEnd_append hb, List.singleton_append, splitOnce_sep h.2]
    rfl

/-- Whatever the line, a code read from it is plain. -/
theorem plain_of_parseLine {code text : String} (hline : '\n' ∉ line)
    (h : parseLine line = some (.fail code text)) : Plain code.toList := by
  unfold parseLine at h
  split at h
  · obtain ⟨pid, -, hpid⟩ := Option.map_eq_some_iff.mp h
    cases hpid
  · obtain ⟨rest, hrest, h⟩ := Option.bind_eq_some_iff.mp h
    obtain ⟨⟨code', text'⟩, hsplit, heq⟩ := Option.map_eq_some_iff.mp h
    obtain ⟨rfl, rfl⟩ := Ready.fail.inj heq
    obtain ⟨hrest', hsep⟩ := splitOnce_no_sep hsplit
    obtain ⟨p, hp, -⟩ := List.dropPrefix?_eq_some_iff.mp hrest
    rw [String.toList_ofList]
    refine ⟨fun hmem => hline ?_, hsep⟩
    rw [hp, hrest']
    simp [hmem]

/-! ## The two hops -/

section Fail

variable {code text : String}

theorem toList_fail : "fail ".toList = ['f', 'a', 'i', 'l', ' '] := String.toList_ofList

theorem toList_sep : ": ".toList = [':', ' '] := String.toList_ofList

/-- A detail as it is written: on one line. -/
def oneLine (text : Text) : Text := text.map fun c => if c = '\n' then ' ' else c

theorem replyFail_eq : Reply.fail code text = failLine code.toList (oneLine text.toList) := by
  unfold Reply.fail failLine oneLine
  simp only [toList_fail, toList_sep, List.append_assoc, List.cons_append, List.nil_append]

theorem readyLine_eq : (Ready.fail code text).line = failLine code.toList text.toList := by
  unfold Ready.line failLine
  simp only [toList_fail, toList_sep, List.append_assoc, List.cons_append, List.nil_append]

theorem takeWhile_oneLine {text : Text} :
    (oneLine text).takeWhile (· ≠ '\n') = oneLine text := by
  rw [List.takeWhile_eq_self_iff]
  intro c hc
  obtain ⟨d, -, rfl⟩ := List.mem_map.mp hc
  split <;> simp_all

theorem blank_oneLine {text : Text} : Blank (oneLine text) ↔ Blank text := by
  have hchar (c : Char) : isWhitespace (if c = '\n' then ' ' else c) = isWhitespace c := by
    split
    · rename_i h
      rw [h]
      decide
    · rfl
  simp [Blank, oneLine, hchar]

/-- What the launcher read and printed, the daemon reads. -/
theorem parseReady_fail (hcode : Plain code.toList)
    (htext : ¬ Blank (text.toList.takeWhile (· ≠ '\n'))) :
    ∃ t, parseReady (firstLine (Ready.fail code text).line) = .fail code t := by
  refine ⟨String.ofList (trimEnd (text.toList.takeWhile (· ≠ '\n'))), ?_⟩
  rw [parseReady, readyLine_eq, parseLine_failLine hcode, if_neg htext, Option.getD_some,
    String.ofList_toList]

theorem plain_spawnFailed : Plain "supervisor_spawn_failed".toList := by
  constructor <;> decide +kernel

/-- A code is read from the daemon's line plain, whatever was written. -/
theorem plain_of_readiness {line : Text} (h : readiness line log = .fail code text) :
    Plain code.toList := by
  unfold readiness parseReady at h
  cases hp : parseLine (firstLine (Handshake.wait line log).line) with
  | some r =>
    rw [hp, Option.getD_some] at h
    exact plain_of_parseLine not_mem_firstLine (hp.trans (congrArg some h))
  | none =>
    rw [hp, Option.getD_none] at h
    obtain ⟨rfl, -⟩ := Ready.fail.inj h
    exact plain_spawnFailed

/-- What the launcher says of a supervisor that reported nothing it can read. -/
def unread (log : String) : String :=
  "the supervisor exited before reporting; its log is " ++ log

theorem not_blank_unread : ¬ Blank ((unread log).toList.takeWhile (· ≠ '\n')) := by
  obtain ⟨rest, hrest⟩ : ∃ rest, "the supervisor exited before reporting; its log is ".toList =
      't' :: rest := by
    have h : "the supervisor exited before reporting; its log is ".toList = _ :=
      String.toList_ofList
    exact ⟨_, h⟩
  have hlog : (unread log).toList = 't' :: (rest ++ log.toList) := by
    unfold unread
    rw [String.toList_append, hrest]
    rfl
  intro hb
  refine absurd (hb 't' ?_) (by decide)
  rw [hlog, List.takeWhile_cons_of_pos (by decide)]
  exact List.mem_cons_self

/-- What the launcher makes of a failure with a plain code. -/
theorem wait_fail (h : Plain code.toList) : Handshake.wait (Reply.fail code text) log =
    if Blank text.toList then .fail "supervisor_spawn_failed" (unread log)
    else .fail code (String.ofList (trimEnd (oneLine text.toList))) := by
  have hread := @parseLine_failLine (oneLine text.toList) _ h
  rw [takeWhile_oneLine, String.ofList_toList] at hread
  unfold Handshake.wait unread
  rw [replyFail_eq, hread]
  by_cases hb : Blank text.toList
  · rw [if_pos hb, if_pos (blank_oneLine.mpr hb)]
    exact Option.getD_none
  · rw [if_neg hb, if_neg (mt blank_oneLine.mp hb)]
    exact Option.getD_some

/-- **A code crosses** exactly if it is plain and there is a detail to keep it
apart from, or it is the one that is read where there is none. -/
theorem readiness_fail_iff :
    (∃ t, readiness (Reply.fail code text) log = .fail code t) ↔
      Plain code.toList ∧ (¬ Blank text.toList ∨ code = "supervisor_spawn_failed") := by
  have hunread := parseReady_fail plain_spawnFailed (@not_blank_unread log)
  constructor
  · rintro ⟨t, h⟩
    have hplain := plain_of_readiness h
    refine ⟨hplain, or_iff_not_imp_left.mpr fun hblank => ?_⟩
    rw [readiness, wait_fail hplain, if_pos (not_not.mp hblank)] at h
    obtain ⟨t', ht'⟩ := hunread
    exact (Ready.fail.inj (h.symm.trans ht')).1
  · rintro ⟨hplain, htext⟩
    rw [readiness, wait_fail hplain]
    by_cases hblank : Blank text.toList
    · rw [if_pos hblank, htext.resolve_left (not_not.mpr hblank)]
      exact hunread
    · rw [if_neg hblank]
      refine parseReady_fail hplain ?_
      have hline : (trimEnd (oneLine text.toList)).takeWhile (· ≠ '\n') =
          trimEnd (oneLine text.toList) := by
        rw [List.takeWhile_eq_self_iff]
        intro c hc
        have hmem : c ∈ (oneLine text.toList).takeWhile (· ≠ '\n') := by
          rw [takeWhile_oneLine]
          exact (List.rdropWhile_prefix isWhitespace _).subset hc
        exact List.mem_takeWhile_imp (p := fun c => decide (c ≠ '\n')) hmem
      rw [String.toList_ofList, hline]
      exact not_blank_trimEnd (mt blank_oneLine.mp hblank)

end Fail

/-! ## A line that tells a pid -/

variable {pid : Nat}

theorem isDigit_toDigits : ∀ c ∈ Nat.toDigits 10 pid, c.isDigit = true := fun _ hc =>
  Nat.isDigit_of_mem_toDigits (by decide) (by decide) hc

theorem isWhitespace_digit {c : Char} (h : c.isDigit = true) : isWhitespace c = false := by
  obtain ⟨hge, hle⟩ : 48 ≤ c.toNat ∧ c.toNat ≤ 57 := by
    simpa [Char.isDigit, UInt32.le_iff_toNat_le] using h
  simp only [isWhitespace, Bool.or_eq_false_iff, Bool.and_eq_false_imp, decide_eq_true_eq,
    decide_eq_false_iff_not, beq_eq_false_iff_ne]
  omega

theorem trimEnd_toDigits : trimEnd (Nat.toDigits 10 pid) = Nat.toDigits 10 pid := by
  rw [trimEnd, List.rdropWhile_eq_self_iff]
  intro hne
  rw [isWhitespace_digit (isDigit_toDigits _ (List.getLast_mem hne))]
  exact Bool.false_ne_true

theorem trim_toDigits : trim (Nat.toDigits 10 pid) = Nat.toDigits 10 pid := by
  rw [trim_eq fun c hc => isWhitespace_digit (isDigit_toDigits c (List.mem_of_mem_head? hc)),
    trimEnd_toDigits]

theorem parseU32_toDigits (h : pid < 2 ^ 32) : parseU32 (Nat.toDigits 10 pid) = some pid := by
  have hsign : (Nat.toDigits 10 pid).dropPrefix? ['+'] = none := by
    cases hd : Nat.toDigits 10 pid with
    | nil => rfl
    | cons c cs =>
      have hc := isDigit_toDigits c (hd ▸ List.mem_cons_self)
      exact dropPrefix?_ne fun he => by simp [he] at hc
  have hvalue : (Nat.toDigits 10 pid).foldl (fun n c => n * 10 + (c.toNat - 48)) 0 = pid := by
    have hfold := Nat.ofDigitChars_toDigits (b := 10) (n := pid) (by decide) (by decide)
    rw [Nat.ofDigitChars_eq_foldl] at hfold
    simpa [Nat.mul_comm] using hfold
  have hall : (Nat.toDigits 10 pid).all Char.isDigit = true :=
    List.all_eq_true.mpr isDigit_toDigits
  simp only [parseU32, hsign, Option.getD_none, hall, Nat.toDigits_ne_nil, ne_eq, not_false_eq_true,
    and_self, if_true, hvalue, h]

theorem toList_ok : "ok ".toList = ['o', 'k', ' '] := String.toList_ofList

theorem replyOk_eq : Reply.ok pid = 'o' :: 'k' :: ' ' :: (Nat.toDigits 10 pid ++ ['\n']) := by
  unfold Reply.ok
  simp only [toList_ok, Nat.toString_eq_repr, Nat.toList_repr, List.cons_append, List.nil_append]

/-- What is read of the line that tells a pid. -/
theorem firstLine_ok : firstLine (Reply.ok pid) = 'o' :: 'k' :: ' ' :: Nat.toDigits 10 pid := by
  have hends : '\n' ∉ 'o' :: 'k' :: ' ' :: Nat.toDigits 10 pid := by
    have hdigits : '\n' ∉ Nat.toDigits 10 pid := fun hmem => by
      simpa using isDigit_toDigits _ hmem
    simp [hdigits]
  have hfirst : (Reply.ok pid).takeWhile (· ≠ '\n') = 'o' :: 'k' :: ' ' :: Nat.toDigits 10 pid := by
    have hline := takeWhile_line (b := ['\n']) hends
    rw [replyOk_eq]
    simpa using hline
  have hdigits : ¬ Blank (Nat.toDigits 10 pid) := by
    rw [← trimEnd_eq_nil, trimEnd_toDigits]
    exact Nat.toDigits_ne_nil
  have ho : isWhitespace 'o' = false := by decide
  have hsplit := trimEnd_append (a := ['o', 'k', ' ']) hdigits
  rw [trimEnd_toDigits] at hsplit
  rw [firstLine_eq, hfirst, trim_eq (by simp [ho])]
  exact hsplit

/-- What the reader of such a line makes of it. -/
theorem parseLine_ok (h : pid < 2 ^ 32) :
    parseLine (firstLine (Reply.ok pid)) = some (.ok pid) := by
  have hok : ('o' :: 'k' :: ' ' :: Nat.toDigits 10 pid).dropPrefix? ['o', 'k', ' '] =
      some (Nat.toDigits 10 pid) :=
    @List.dropPrefix?_append_of_beq _ _ ['o', 'k', ' '] _ _ (beq_self_eq_true _)
  unfold parseLine
  rw [firstLine_ok, toList_ok, hok]
  simp only [trim_toDigits, parseU32_toDigits h, Option.map_some]

/-- **A pid crosses** as it is. -/
theorem readiness_ok (h : pid < 2 ^ 32) : readiness (Reply.ok pid) log = .ok pid := by
  have hwait : Handshake.wait (Reply.ok pid) log = .ok pid := by
    unfold Handshake.wait
    rw [parseLine_ok h]
    exact Option.getD_some
  have hread : parseLine (firstLine (Ready.ok pid).line) = some (.ok pid) := parseLine_ok h
  rw [readiness, hwait]
  unfold parseReady
  rw [hread]
  exact Option.getD_some

end Sessions
end Willie
