import Willie.Common.Utf8
import Willie.Logs.Reading

/-!
# Logs — the newest usage

Of the records that carry a usage object the last one is read, alone. A
top-level `usage` that is no object hides the one under the record's message,
so such a line is passed over for one before it (`newest_usage_iff`). Only the
end of a file is read; what a cut leaves of a line or of a character stands
before every whole line of it.
-/

namespace Willie
namespace Logs

open Json (Value)
open Lines (lines)
open Sessions (Text trim)

/-! ## What a record says -/

def isObject : Value → Bool
  | .object _ => true
  | _ => false

/-- A record of a side conversation. -/
def isSidechain (record : Value) : Bool :=
  match record.get? "isSidechain" with
  | some (.bool true) => true
  | _ => false

/-- The usage under a record's message. -/
def messageUsage (record : Value) : Option Value :=
  (record.get? "message").bind (·.get? "usage")

/-- The usage object of a record: the one at the top, or the one under the
message. -/
def usageOf (record : Value) : Option Value :=
  ((record.get? "usage").filter isObject).or ((messageUsage record).filter isObject)

/-- The model of a record: its message's, else its own. -/
def modelOf (record : Value) : Option String :=
  (((record.get? "message").bind (·.get? "model")).or (record.get? "model")).bind Value.asStr?

variable (parse : Text → Option Value)

/-- The record on a line: an object, and none of a side conversation. -/
def recordOf (line : Text) : Option Value :=
  if trim line = [] then none
  else
    match parse (trim line) with
    | some (.object m) => if isSidechain (.object m) then none else some (.object m)
    | _ => none

/-- The usage object a line carries, with the model of the same record. -/
def carried (line : Text) : Option (Value × Option String) :=
  (recordOf parse line).bind fun record => (usageOf record).map fun u => (u, modelOf record)

/-- A line whose top-level `usage` is no object and hides the one under the
message. -/
def shadowed (line : Text) : Bool :=
  (carried parse line).isSome &&
    (recordOf parse line).any fun record => (record.get? "usage").any fun v => !isObject v

/-- The usage a line carries, if nothing hides it. -/
def unshadowed (line : Text) : Option (Value × Option String) :=
  if shadowed parse line then none else carried parse line

/-- What the last line that carries usage carries. -/
def newestUsage (text : Text) : Option (Value × Option String) :=
  ((lines text).filterMap (carried parse)).getLast?

def newestUnshadowed (text : Text) : Option (Value × Option String) :=
  ((lines text).filterMap (unshadowed parse)).getLast?

/-! ## What a reading is -/

/-- A token field: zero where it is no unsigned 64-bit number. -/
def field (usage : Value) (key : String) : ℕ := ((usage.get? key).bind asU64).getD 0

/-- The tokens that fill the context. -/
def contextSide (usage : Value) : ℕ :=
  field usage "input_tokens" + field usage "cache_creation_input_tokens" +
    field usage "cache_read_input_tokens"

/-- A reading of one record: its four fields' sum, and how much of its model's
window, or of the one that is given, is full. -/
def readingOf (contextWindow : Option ℕ) : Option (Value × Option String) → SessionReading
  | none => .none
  | some (usage, model) =>
    let window := ((contextWindowFor model).or contextWindow).filter (0 < ·)
    { tokens := min (contextSide usage + field usage "output_tokens") u64Max
      contextPct := window.map fun window =>
        min (min (contextSide usage) u64Max * 100 / window) 100 }

/-! ## The end of a file -/

/-- `read_tail`. -/
def readTail (file : List UInt8) (maxBytes : ℕ) : Text :=
  Utf8.decodeLossy (file.drop (file.length - maxBytes))

/-- **The line that carries the newest usage lies in the tail**: what stands
behind it carries none, and the tail starts before it or with it. -/
def Inside (file : List UInt8) (maxBytes : ℕ) : Prop :=
  ∃ before line after text, file = before ++ line ++ after ∧
    (before = [] ∨ before.getLast? = some 0x0a) ∧ (line.getLast? = some 0x0a ∨ after = []) ∧
    lines (Utf8.decodeLossy line) = [text] ∧ (carried parse text).isSome = true ∧
    (∀ later ∈ lines (Utf8.decodeLossy after), carried parse later = none) ∧
    file.length - maxBytes ≤ before.length

variable {parse} {line text : Text} {before after bytes : List UInt8} {usage : Value}
variable {key : String} {contextWindow : Option ℕ} {maxBytes : ℕ}

/-! ## How a line is read -/

/-- A record's usage by the first of its two places that has anything. -/
def firstUsage (record : Value) : Option (Value × Option String) :=
  match (record.get? "usage").or (messageUsage record) with
  | some (.object u) => some (.object u, modelOf record)
  | _ => none

theorem firstUsage_eq (record : Value) : firstUsage record =
    if (record.get? "usage").any (fun v => !isObject v) then none
    else (usageOf record).map fun u => (u, modelOf record) := by
  have hnested : (match messageUsage record with
      | some (.object u) => some (Value.object u, modelOf record)
      | _ => none) = ((messageUsage record).filter isObject).map fun u => (u, modelOf record) := by
    cases messageUsage record with
    | none => rfl
    | some v => cases v <;> rfl
  unfold firstUsage usageOf
  cases record.get? "usage" with
  | none => simpa using hnested
  | some v => cases v <;> rfl

theorem lineUsage_eq_bind : (if trim line = [] then none else lineUsage parse line) =
    (recordOf parse line).bind firstUsage := by
  unfold lineUsage recordOf
  by_cases htrim : trim line = []
  · rw [if_pos htrim, if_pos htrim]
    rfl
  · rw [if_neg htrim, if_neg htrim]
    cases parse (trim line) with
    | none => rfl
    | some record =>
      cases record with
      | object m =>
        have hside (v : Option Value) :
            (match v with
              | some (.bool true) => none
              | _ => firstUsage (.object m)) =
            (if (match v with
              | some (.bool true) => true
              | _ => false) then none else some (Value.object m)).bind firstUsage := by
          cases v with
          | none => rfl
          | some v =>
            cases v with
            | bool b => cases b <;> rfl
            | _ => rfl
        exact hside ((Value.object m).get? "isSidechain")
      | _ => rfl

/-- **A line is read** if it carries usage that nothing hides. -/
theorem lineUsage_eq : (if trim line = [] then none else lineUsage parse line) =
    unshadowed parse line := by
  rw [lineUsage_eq_bind, unshadowed, shadowed, carried]
  cases recordOf parse line with
  | none => rfl
  | some record =>
    rw [Option.bind_some, Option.bind_some, firstUsage_eq, Option.any_some]
    cases (record.get? "usage").any fun v => !isObject v with
    | false => simp
    | true => cases usageOf record <;> rfl

/-- **The reading is that of the last line that is read.** -/
theorem projectSession_eq : projectSession parse text contextWindow =
    readingOf contextWindow (newestUnshadowed parse text) := by
  have hfound : (lines text).filterMap (fun line =>
      if trim line = [] then none else lineUsage parse line) =
      (lines text).filterMap (unshadowed parse) :=
    List.filterMap_congr fun line _ => lineUsage_eq
  simp only [projectSession, newestUnshadowed, hfound]
  cases ((lines text).filterMap (unshadowed parse)).getLast? with
  | none => rfl
  | some found =>
    obtain ⟨usage, model⟩ := found
    have hside (a b c : ℕ) :
        saturatingAdd (saturatingAdd a b) c = min (a + b + c) u64Max := by
      unfold saturatingAdd
      omega
    have hsum (a b : ℕ) : saturatingAdd (min a u64Max) b = min (a + b) u64Max := by
      unfold saturatingAdd
      omega
    simp only [readingOf, contextSide, field, hside, hsum]

/-! ## Lines of bytes -/

/-- **Bytes that end a line** are read apart from what follows them. -/
theorem lines_decodeLossy_append (h : before = [] ∨ before.getLast? = some 0x0a) :
    lines (Utf8.decodeLossy (before ++ after)) =
      lines (Utf8.decodeLossy before) ++ lines (Utf8.decodeLossy after) := by
  rcases h with rfl | h
  · rfl
  · obtain ⟨pre, rfl⟩ := List.getLast?_eq_some_iff.mp h
    have hfeed : String.utf8EncodeChar '\n' = [0x0a] := by decide
    have hlow : (0x0a : UInt8) < 0x80 := by decide
    rw [List.append_assoc, List.singleton_append, Utf8.decodeLossy_append_cons hlow hfeed,
      Utf8.decodeLossy_append_cons hlow hfeed, Lines.lines_append]
    rfl

/-! ## The newest line -/

section Newest

variable (parse : Text → Option Value)

/-- The last line that carries usage. -/
def newestLine (text : Text) : Option Text :=
  ((lines text).filter fun line => (carried parse line).isSome).getLast?

/-- **The newest record is read**: the reading is that of the last line that
carries usage, and the same of the tail if that line lies in it. -/
def ReadsNewest (file : List UInt8) (maxBytes : ℕ) (contextWindow : Option ℕ) : Prop :=
  projectSession parse (Utf8.decodeLossy file) contextWindow =
      readingOf contextWindow (newestUsage parse (Utf8.decodeLossy file)) ∧
    (Inside parse file maxBytes →
      projectSession parse (readTail file maxBytes) contextWindow =
        projectSession parse (Utf8.decodeLossy file) contextWindow)

/-- **The newest usage is told apart**: it reads other than what any other line
carries, and other than nothing. -/
def ToldApart (text : Text) (contextWindow : Option ℕ) : Prop :=
  ∀ line, newestLine parse text = some line →
    readingOf contextWindow (carried parse line) ≠ .none ∧
      ∀ other ∈ lines text, other ≠ line → (carried parse other).isSome = true →
        readingOf contextWindow (carried parse other) ≠
          readingOf contextWindow (carried parse line)

end Newest

theorem getLast?_filterMap {α β : Type} (f : α → Option β) (xs : List α) :
    (xs.filterMap f).getLast? = ((xs.filter fun x => (f x).isSome).getLast?).bind f := by
  induction xs using List.reverseRecOn with
  | nil => rfl
  | append_singleton xs x ih =>
    rw [List.filterMap_append, List.filter_append]
    cases hx : f x with
    | none => simp [hx, ih]
    | some y => simp [hx]

theorem newestUsage_eq : newestUsage parse text = (newestLine parse text).bind (carried parse) :=
  getLast?_filterMap _ _

/-- What is behind a line that carries something, and carries nothing, does not
change what is carried last. -/
theorem getLast?_carrying {α β : Type} {f : α → Option β} {xs ys : List α} {x : α}
    (hx : (f x).isSome = true) (hys : ∀ y ∈ ys, f y = none) :
    ((xs ++ [x] ++ ys).filterMap f).getLast? = f x := by
  have hnone : ys.filterMap f = [] := List.filterMap_eq_nil_iff.mpr hys
  obtain ⟨y, hy⟩ := Option.isSome_iff_exists.mp hx
  rw [List.filterMap_append, List.filterMap_append, hnone]
  simp [hy]

/-- Where the last of those that satisfy a predicate stands. -/
theorem getLast?_filter {α : Type} {p : α → Bool} {xs : List α} {x : α}
    (h : (xs.filter p).getLast? = some x) :
    ∃ pre post, xs = pre ++ [x] ++ post ∧ p x = true ∧ ∀ y ∈ post, p y = false := by
  induction xs using List.reverseRecOn with
  | nil => cases h
  | append_singleton xs z ih =>
    rw [List.filter_append] at h
    by_cases hz : p z = true
    · rw [List.filter_cons_of_pos hz, List.filter_nil, List.getLast?_append] at h
      obtain rfl := Option.some.inj h
      exact ⟨xs, [], by simp, hz, nofun⟩
    · rw [List.filter_cons_of_neg hz, List.filter_nil, List.append_nil] at h
      obtain ⟨pre, post, rfl, hx, hpost⟩ := ih h
      refine ⟨pre, post ++ [z], by simp, hx, fun y hy => ?_⟩
      rcases List.mem_append.mp hy with hy | hy
      · exact hpost y hy
      · rw [List.mem_singleton.mp hy]
        exact Bool.eq_false_iff.mpr hz

/-- The newest line that carries usage is read, if nothing hides it. -/
theorem newestUnshadowed_eq (h : newestLine parse text = some line)
    (hplain : shadowed parse line = false) :
    newestUnshadowed parse text = carried parse line := by
  obtain ⟨pre, post, hlines, hcarried, hpost⟩ := getLast?_filter h
  have hread : unshadowed parse line = carried parse line := by simp [unshadowed, hplain]
  have hlater : ∀ later ∈ post, unshadowed parse later = none := by
    intro later hlater
    have hnone := hpost later hlater
    rw [Option.isSome_eq_false_iff, Option.isNone_iff_eq_none] at hnone
    simp [unshadowed, hnone]
  have hsome : (unshadowed parse line).isSome = true := by rw [hread]; exact hcarried
  rw [newestUnshadowed, hlines, getLast?_carrying hsome hlater, hread]

theorem newestUnshadowed_eq_none (h : newestLine parse text = none) :
    newestUnshadowed parse text = none := by
  have hnone : (lines text).filter (fun line => (carried parse line).isSome) = [] :=
    List.getLast?_eq_none_iff.mp h
  have hread : (lines text).filterMap (unshadowed parse) = [] := by
    refine List.filterMap_eq_nil_iff.mpr fun line hline => ?_
    have hline := List.filter_eq_nil_iff.mp hnone line hline
    rw [Bool.not_eq_true, Option.isSome_eq_false_iff, Option.isNone_iff_eq_none] at hline
    simp [unshadowed, hline]
  rw [newestUnshadowed, hread]
  rfl

/-- **A line in the tail is read of the tail as of the whole file.** -/
theorem newest_of_inside (h : Inside parse file maxBytes) : ∃ line,
    newestLine parse (Utf8.decodeLossy file) = some line ∧
      (shadowed parse line = false →
        newestUnshadowed parse (Utf8.decodeLossy file) = carried parse line ∧
          newestUnshadowed parse (readTail file maxBytes) = carried parse line) := by
  obtain ⟨before, line, after, text, rfl, hbefore, hline, htext, hcarried, hafter, hstart⟩ := h
  have hsplit (pre : List UInt8) (hpre : pre = [] ∨ pre.getLast? = some 0x0a) :
      lines (Utf8.decodeLossy (pre ++ line ++ after)) =
        lines (Utf8.decodeLossy pre) ++ [text] ++ lines (Utf8.decodeLossy after) := by
    rw [List.append_assoc, lines_decodeLossy_append hpre, List.append_assoc, ← htext]
    rcases hline with hline | rfl
    · rw [lines_decodeLossy_append (.inr hline)]
    · rw [List.append_nil]
      simp [Lines.lines, Lines.splitInclusive]
  have hnewest (pre : List UInt8) (hpre : pre = [] ∨ pre.getLast? = some 0x0a) :
      newestLine parse (Utf8.decodeLossy (pre ++ line ++ after)) = some text := by
    have hnone : (lines (Utf8.decodeLossy after)).filter
        (fun line => (carried parse line).isSome) = [] :=
      List.filter_eq_nil_iff.mpr fun later hlater => by simp [hafter later hlater]
    rw [newestLine, hsplit pre hpre, List.filter_append, List.filter_append, hnone]
    simp [hcarried]
  have htail : newestLine parse (readTail (before ++ line ++ after) maxBytes) = some text := by
    -- the cut falls before the line: what is left of what precedes it ends as it did
    rw [readTail, List.append_assoc, List.drop_append_of_le_length (by
      rwa [List.append_assoc] at hstart), ← List.append_assoc]
    refine hnewest _ ?_
    rcases hbefore with rfl | hbefore
    · exact .inl List.drop_nil
    · by_cases hall : before.length ≤ (before ++ (line ++ after)).length - maxBytes
      · exact .inl (List.drop_eq_nil_of_le hall)
      · right
        rw [List.getLast?_drop, if_neg hall, hbefore]
  exact ⟨text, hnewest before hbefore, fun hplain =>
    ⟨newestUnshadowed_eq (hnewest before hbefore) hplain,
    newestUnshadowed_eq htail hplain⟩⟩

/-- **What is read carries usage**, and nothing hides it. -/
theorem newestUnshadowed_some {found : Value × Option String}
    (h : newestUnshadowed parse text = some found) :
    ∃ line ∈ lines text, shadowed parse line = false ∧ carried parse line = some found := by
  obtain ⟨line, hline, hread⟩ := List.mem_filterMap.mp (List.mem_of_getLast? h)
  unfold unshadowed at hread
  split_ifs at hread with hshadowed
  exact ⟨line, hline, Bool.eq_false_iff.mpr hshadowed, hread⟩

/-- **The newest record is read** if nothing hides its usage. -/
theorem readsNewest_of_plain {file : List UInt8}
    (h : ∀ line, newestLine parse (Utf8.decodeLossy file) = some line →
      shadowed parse line = false) : ReadsNewest parse file maxBytes contextWindow := by
  unfold ReadsNewest
  rw [projectSession_eq, projectSession_eq, newestUsage_eq]
  cases hline : newestLine parse (Utf8.decodeLossy file) with
  | none =>
    refine ⟨by rw [newestUnshadowed_eq_none hline]; rfl, fun hinside => ?_⟩
    obtain ⟨line, hsome, -⟩ := newest_of_inside hinside
    rw [hline] at hsome
    cases hsome
  | some line =>
    have hplain := h line hline
    refine ⟨by rw [newestUnshadowed_eq hline hplain, Option.bind_some], fun hinside => ?_⟩
    obtain ⟨line', hsome, hread⟩ := newest_of_inside hinside
    obtain rfl := Option.some.inj (hline.symm.trans hsome)
    rw [(hread hplain).1, (hread hplain).2]

/-- Where it is told apart, it is read in no other way: what is read instead of
a hidden one is another line's, or nothing. -/
theorem ToldApart.plain {file : List UInt8}
    (h : ToldApart parse (Utf8.decodeLossy file) contextWindow)
    (hreads : ReadsNewest parse file maxBytes contextWindow)
    (hline : newestLine parse (Utf8.decodeLossy file) = some line) :
    shadowed parse line = false := by
  obtain ⟨hsomething, hothers⟩ := h line hline
  have hread := hreads.1
  rw [projectSession_eq, newestUsage_eq, hline, Option.bind_some] at hread
  cases hfound : newestUnshadowed parse (Utf8.decodeLossy file) with
  | none =>
    rw [hfound] at hread
    exact absurd hread.symm hsomething
  | some found =>
    obtain ⟨other, hmem, hplain, hcarried⟩ := newestUnshadowed_some hfound
    rw [hfound, ← hcarried] at hread
    by_cases hother : other = line
    · rwa [← hother]
    · exact absurd hread (hothers other hmem hother (by rw [hcarried]; rfl))

/-- No reading overflows, divides by zero or passes a hundred. -/
theorem readingOf_bounds (contextWindow : Option ℕ) (found : Option (Value × Option String)) :
    (readingOf contextWindow found).tokens ≤ u64Max ∧
      ∀ pct, (readingOf contextWindow found).contextPct = some pct → pct ≤ 100 ∧
        ∃ usage model window, found = some (usage, model) ∧ 0 < window ∧
          min (contextSide usage) u64Max * 100 < 2 ^ 128 ∧
          pct = min (min (contextSide usage) u64Max * 100 / window) 100 := by
  cases found with
  | none => exact ⟨Nat.zero_le _, nofun⟩
  | some found =>
    obtain ⟨usage, model⟩ := found
    refine ⟨min_le_right _ _, fun pct hpct => ?_⟩
    obtain ⟨window, hwindow, rfl⟩ := Option.map_eq_some_iff.mp hpct
    have hpos : 0 < window := by simpa using Option.mem_filter_iff.mp hwindow |>.2
    have hwide : min (contextSide usage) u64Max * 100 < 2 ^ 128 := by
      unfold u64Max
      omega
    exact ⟨min_le_right _ _, usage, model, window, rfl, hpos, hwide, rfl⟩

/-- **The newest record is read if nothing hides its usage**, and only then
where that usage reads unlike every other line's; and no reading overflows,
divides by zero or passes a hundred. -/
theorem newest_usage_iff (parse : Text → Option Value) (file : List UInt8) (maxBytes : ℕ)
    (contextWindow : Option ℕ) :
    ((∀ line, newestLine parse (Utf8.decodeLossy file) = some line →
        shadowed parse line = false) → ReadsNewest parse file maxBytes contextWindow) ∧
      (ToldApart parse (Utf8.decodeLossy file) contextWindow →
        ReadsNewest parse file maxBytes contextWindow →
          ∀ line, newestLine parse (Utf8.decodeLossy file) = some line →
            shadowed parse line = false) ∧
      ∀ found, (readingOf contextWindow found).tokens ≤ u64Max ∧
        ∀ pct, (readingOf contextWindow found).contextPct = some pct → pct ≤ 100 ∧
          ∃ usage model window, found = some (usage, model) ∧ 0 < window ∧
            min (contextSide usage) u64Max * 100 < 2 ^ 128 ∧
            pct = min (min (contextSide usage) u64Max * 100 / window) 100 :=
  ⟨readsNewest_of_plain, fun hapart hreads _ => hapart.plain hreads, readingOf_bounds _⟩

/-- A record whose usage is under its message, beside a top-level one that is
`null`. -/
def hiddenRecord : Value :=
  .object [("usage", .null),
    ("message", .object [("usage", .object [("output_tokens", .number "5")])])]

def hiddenLine : Text := "\x7b\"usage\":null,\"message\":\x7b\"usage\":".toList ++
  "\x7b\"output_tokens\":5\x7d\x7d\x7d".toList

/-- A record with nothing at the top. -/
def plainRecord : Value :=
  .object [("message", .object [("usage", .object [("output_tokens", .number "7")])])]

def plainLine : Text :=
  "\x7b\"message\":\x7b\"usage\":\x7b\"output_tokens\":7\x7d\x7d\x7d".toList

/-- The reader on these lines. -/
def usageParse (text : Text) : Option Value :=
  if text = hiddenLine then some hiddenRecord
  else if text = plainLine then some plainRecord else none

/-- A file of both, the plain one last. -/
def usageFile : List UInt8 := Utf8.encode (hiddenLine ++ '\n' :: plainLine ++ ['\n'])

/-- **The last line is read**, of the file and of an end of it that starts inside
the line before. -/
theorem usage_plain :
    ReadsNewest usageParse usageFile 50 none ∧
      projectSession usageParse (readTail usageFile 50) none = ⟨7, none⟩ ∧
      shadowed usageParse plainLine = false := by
  have hlines : lines (Utf8.decodeLossy usageFile) = [hiddenLine, plainLine] := by
    rw [usageFile, Utf8.decodeLossy_encode]
    decide
  have hnewest : newestLine usageParse (Utf8.decodeLossy usageFile) = some plainLine := by
    rw [newestLine, hlines]
    decide
  have hreads : ReadsNewest usageParse usageFile 50 none := by
    refine (newest_usage_iff usageParse usageFile 50 none).1 fun line hline => ?_
    obtain rfl := Option.some.inj (hnewest.symm.trans hline)
    decide
  have hapart : ToldApart usageParse (Utf8.decodeLossy usageFile) none := by
    intro line hline
    obtain rfl := Option.some.inj (hnewest.symm.trans hline)
    refine ⟨by decide, fun other hother hne _ => ?_⟩
    rw [hlines] at hother
    rcases List.mem_pair.mp hother with rfl | rfl
    · decide
    · exact absurd rfl hne
  have hinside : Inside usageParse usageFile 50 := by
    refine ⟨Utf8.encode (hiddenLine ++ ['\n']), Utf8.encode (plainLine ++ ['\n']), [], plainLine,
      ?_, .inr (by decide +kernel), .inl (by decide +kernel), ?_, by decide, nofun,
      by decide +kernel⟩
    · rw [List.append_nil, ← Utf8.encode_append, usageFile]
      simp
    · rw [Utf8.decodeLossy_encode]
      decide
  refine ⟨hreads, ?_, (newest_usage_iff usageParse usageFile 50 none).2.1 hapart hreads _ hnewest⟩
  rw [hreads.2 hinside, hreads.1, newestUsage_eq, hnewest]
  decide

/-- **A record's usage is not read** beside a top-level one that is `null`: the
reading is empty, and five tokens were used. -/
theorem usage_hidden :
    projectSession usageParse (Utf8.decodeLossy (Utf8.encode hiddenLine)) none = .none ∧
      readingOf none (newestUsage usageParse (Utf8.decodeLossy (Utf8.encode hiddenLine))) =
        ⟨5, none⟩ ∧
      ¬ ReadsNewest usageParse (Utf8.encode hiddenLine) 65536 none := by
  have hread : projectSession usageParse hiddenLine none = .none := by decide
  have hnewest : readingOf none (newestUsage usageParse hiddenLine) = ⟨5, none⟩ := by
    decide
  rw [Utf8.decodeLossy_encode]
  refine ⟨hread, hnewest, fun h => ?_⟩
  have hsame := h.1
  rw [Utf8.decodeLossy_encode, hread, hnewest] at hsame
  exact absurd hsame (by decide)

end Logs
end Willie
