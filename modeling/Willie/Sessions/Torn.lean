import Willie.Common.JsonText
import Willie.Common.Utf8
import Willie.Sessions.Log

/-!
# Sessions — an append that was cut short

The file is bytes, and is read as a text or not at all. A line that was cut
has the next one's text right behind it, and a text with another behind it is
no event. So a cut costs its own line only where its bytes are a text's and
nothing comes after it (`torn_line_iff`).
-/

namespace Willie
namespace Sessions

open Lines JsonText

/-- The bytes of a file. -/
abbrev Bytes := List UInt8

/-- `read_events`, of what the file holds. -/
def readFile (json : SerdeJson) (file : Bytes) : List SessionEvent :=
  readEvents json (Utf8.decode file)

/-- The line of an event, as a complete append leaves it. -/
def lineOf (json : SerdeJson) (ev : SessionEvent) : Text := json.toString ev ++ ['\n']

/-- What complete appends leave. -/
def linesOf (json : SerdeJson) (evs : List SessionEvent) : Text := evs.flatMap (lineOf json)

/-- **What the log relies on**: an event is written as an object on one line,
and reads back; what is read is one value and nothing behind it. -/
structure SerdeJson.Objects (json : SerdeJson) (evs : List SessionEvent) : Prop where
  object : ∀ ev ∈ evs, IsObject (json.toString ev)
  one_line : ∀ ev ∈ evs, '\n' ∉ json.toString ev
  round_trip : ∀ ev ∈ evs, json.fromStr (json.toString ev) = some ev
  closed : ∀ l ev, json.fromStr l = some ev → Closed l

variable {json : SerdeJson} {evs before after : List SessionEvent} {ev ev' : SessionEvent}
  {t text : Text} {cut : Bytes}

/-! ## Lines -/

theorem SerdeJson.Objects.no_return (hjson : json.Objects evs) (hev : ev ∈ evs) :
    (json.toString ev).getLast? ≠ some '\r' := by
  rw [(hjson.object ev hev).closes]
  decide

theorem SerdeJson.Objects.sub {evs' : List SessionEvent} (hjson : json.Objects evs)
    (h : evs' ⊆ evs) : json.Objects evs' where
  object ev hev := hjson.object ev (h hev)
  one_line ev hev := hjson.one_line ev (h hev)
  round_trip ev hev := hjson.round_trip ev (h hev)
  closed := hjson.closed

theorem readEvents_lineOf (hjson : json.Objects evs) (hev : ev ∈ evs) :
    readEvents json (some (lineOf json ev ++ text)) = ev :: readEvents json (some text) := by
  rw [lineOf, List.append_assoc, List.singleton_append,
    readEvents_line (hjson.one_line ev hev) (hjson.no_return hev), hjson.round_trip ev hev]
  rfl

/-- Complete lines are read one by one. -/
theorem readEvents_linesOf (hjson : json.Objects evs) :
    readEvents json (some (linesOf json evs ++ text)) = evs ++ readEvents json (some text) := by
  induction evs with
  | nil => rfl
  | cons ev evs ih =>
    have hsplit : linesOf json (ev :: evs) ++ text =
        lineOf json ev ++ (linesOf json evs ++ text) := by
      simp [linesOf]
    rw [hsplit, readEvents_lineOf hjson List.mem_cons_self,
      ih (hjson.sub (List.subset_cons_self ev evs)), List.cons_append]

theorem readEvents_all (hjson : json.Objects evs) :
    readEvents json (some (linesOf json evs)) = evs := by
  have h : readEvents json (some (linesOf json evs ++ [])) = evs ++ [] := readEvents_linesOf hjson
  rwa [List.append_nil, List.append_nil] at h

/-- **A line that two texts were written to** is no event. -/
theorem readEvents_joined (hjson : json.Objects evs) (hev : ev ∈ evs) (hev' : ev' ∈ evs)
    (ht : t <+: json.toString ev) (hne : t ≠ []) :
    readEvents json (some (t ++ (lineOf json ev' ++ text))) = readEvents json (some text) := by
  obtain ⟨rest, hrest⟩ := ht
  have hobject := hjson.object ev' hev'
  have hline : '\n' ∉ t ++ json.toString ev' := by
    have hone := hjson.one_line ev hev
    rw [← hrest] at hone
    simp only [List.mem_append, not_or] at hone ⊢
    exact ⟨hone.1, hjson.one_line ev' hev'⟩
  have hreturn : (t ++ json.toString ev').getLast? ≠ some '\r' := by
    rw [List.getLast?_append_of_ne_nil _ hobject.ne_nil]
    exact hjson.no_return hev'
  have hnone : json.fromStr (t ++ json.toString ev') = none := by
    rw [Option.eq_none_iff_forall_ne_some]
    intro ev'' hread
    have hopen := hjson.object ev hev
    rw [← hrest] at hopen
    exact not_closed_append hne ⟨rest, hopen⟩ hobject (hjson.closed _ _ hread)
  have hsplit : t ++ (lineOf json ev' ++ text) = t ++ json.toString ev' ++ '\n' :: text := by
    simp [lineOf]
  rw [hsplit, readEvents_line hline hreturn, hnone]
  rfl

/-- What was cut off a line, at the end of the file. -/
theorem readEvents_cut (hjson : json.Objects evs) (hev : ev ∈ evs) (ht : t <+: json.toString ev) :
    ∃ torn, (torn = [] ∨ torn = [ev]) ∧ readEvents json (some t) = torn := by
  obtain ⟨rest, hrest⟩ := ht
  by_cases hne : t = []
  · exact ⟨[], .inl rfl, by rw [hne]; rfl⟩
  · have hline : '\n' ∉ t := by
      have hone := hjson.one_line ev hev
      rw [← hrest] at hone
      exact fun hmem => hone (List.mem_append_left _ hmem)
    have hread : readEvents json (some t) = (json.fromStr t).toList := by
      rw [readEvents, lines_rest hline hne]
      cases hparse : json.fromStr t <;> simp [hparse]
    rw [hread]
    by_cases hwhole : rest = []
    · rw [hwhole, List.append_nil] at hrest
      rw [hrest, hjson.round_trip ev hev]
      exact ⟨[ev], .inr rfl, rfl⟩
    · cases hparse : json.fromStr t with
      | none => exact ⟨[], .inl rfl, rfl⟩
      | some ev' =>
        have hopen := hjson.object ev hev
        rw [← hrest] at hopen
        exact absurd (hjson.closed _ _ hparse) (not_closed_of_cut hopen hne hwhole)

/-! ## The law -/

/-- The file after complete appends, one that was cut, and complete ones. -/
def tornFile (json : SerdeJson) (before : List SessionEvent) (cut : Bytes)
    (after : List SessionEvent) : Bytes :=
  Utf8.encode (linesOf json before) ++ (cut ++ Utf8.encode (linesOf json after))

/-- All events that were completely written are read back in order; the one
whose append was cut may be. -/
def AllRead (json : SerdeJson) (before : List SessionEvent) (ev : SessionEvent) (cut : Bytes)
    (after : List SessionEvent) : Prop :=
  ∃ torn, (torn = [] ∨ torn = [ev]) ∧
    readFile json (tornFile json before cut after) = before ++ torn ++ after

theorem readFile_torn_text (hjson : json.Objects before) :
    readFile json (tornFile json before (Utf8.encode t) after) =
      before ++ readEvents json (some (t ++ linesOf json after)) := by
  have hdecode : Utf8.decode (tornFile json before (Utf8.encode t) after) =
      some (linesOf json before ++ (t ++ linesOf json after)) := by
    rw [Utf8.decode_eq_some, Utf8.encode_append, Utf8.encode_append]
    rfl
  rw [readFile, hdecode, readEvents_linesOf hjson]

/-- Complete lines behind a cut inside a character do not make it a text. -/
theorem decode_torn_char (hjson : json.Objects after) (hcut : cut <+: Utf8.encode text)
    (hnone : Utf8.decode cut = none) :
    Utf8.decode (cut ++ Utf8.encode (linesOf json after)) = none := by
  have hnext : ∀ b ∈ (Utf8.encode (linesOf json after)).head?, b < 0x80 := by
    cases after with
    | nil => simp [linesOf]
    | cons ev after =>
      obtain ⟨rest, hrest, -, -⟩ := (hjson.object ev List.mem_cons_self).tail
      have hline : linesOf json (ev :: after) = '{' :: (rest ++ '\n' :: linesOf json after) := by
        simp [linesOf, lineOf, hrest]
      have hbrace : String.utf8EncodeChar '{' = [0x7b] := by decide
      rw [hline, Utf8.encode_cons, hbrace]
      simp
  exact Utf8.decode_cut hcut hnone hnext

/-- A file with a cut inside a character is not read at all. -/
theorem readFile_torn_char (hjson : json.Objects after) (hcut : cut <+: Utf8.encode text)
    (hnone : Utf8.decode cut = none) : readFile json (tornFile json before cut after) = [] := by
  rw [readFile, tornFile, Utf8.decode_encode_append, decode_torn_char hjson hcut hnone]
  rfl

/-- **What a torn line costs.** All completely written events are read back,
whatever was cut off an append and whatever is appended later, if and only if
the append left nothing or its whole line, or nothing is appended after it and
either it was cut between two characters or there was no event before it. -/
theorem torn_line_iff (hjson : json.Objects (before ++ ev :: after))
    (hcut : cut <+: Utf8.encode (lineOf json ev)) :
    AllRead json before ev cut after ↔
      cut = [] ∨ cut = Utf8.encode (lineOf json ev) ∨
        after = [] ∧ (before = [] ∨ (Utf8.decode cut).isSome) := by
  have hev : ev ∈ before ++ ev :: after := List.mem_append_right _ List.mem_cons_self
  have hbefore : json.Objects before := hjson.sub (List.subset_append_left _ _)
  have hafter : json.Objects after := hjson.sub fun _ h => List.mem_append_right _ (.tail _ h)
  have hread : readEvents json (some (linesOf json after)) = after := readEvents_all hafter
  cases hdecode : Utf8.decode cut with
  | none =>
    -- the whole file is unreadable
    have hnil : cut ≠ [] := by
      rintro rfl
      contradiction
    have hwhole : cut ≠ Utf8.encode (lineOf json ev) := by
      rintro rfl
      rw [Utf8.decode_encode] at hdecode
      contradiction
    have hnothing : readFile json (tornFile json before cut after) = [] :=
      readFile_torn_char hafter hcut hdecode
    simp only [AllRead, hnothing, hnil, hwhole, Option.isSome_none, false_or, Bool.false_eq_true,
      or_false]
    constructor
    · rintro ⟨torn, -, hall⟩
      obtain ⟨hpre, hpost⟩ := List.append_eq_nil_iff.mp hall.symm
      exact ⟨hpost, (List.append_eq_nil_iff.mp hpre).1⟩
    · rintro ⟨rfl, rfl⟩
      exact ⟨[], .inl rfl, rfl⟩
  | some t =>
    obtain rfl := Utf8.decode_eq_some.mp hdecode
    have hprefix : t <+: lineOf json ev := Utf8.prefix_of_encode_prefix hcut
    simp only [AllRead, readFile_torn_text hbefore, Option.isSome_some, or_true, and_true]
    rw [Utf8.encode_eq_nil, Utf8.encode_injective.eq_iff]
    by_cases hwhole : t = lineOf json ev
    · -- the whole line
      have hone : readEvents json (some (t ++ linesOf json after)) = [ev] ++ after := by
        rw [hwhole, readEvents_lineOf hjson hev, hread]
        rfl
      refine iff_of_true ⟨[ev], .inr rfl, ?_⟩ (.inr (.inl hwhole))
      rw [hone, List.append_assoc]
    · have ht : t <+: json.toString ev := by
        rcases List.prefix_concat_iff.mp hprefix with heq | hpre
        · exact absurd heq hwhole
        · exact hpre
      cases after with
      | nil =>
        obtain ⟨torn, htorn, hcutread⟩ := readEvents_cut hjson hev ht
        refine iff_of_true ⟨torn, htorn, ?_⟩ (.inr (.inr rfl))
        rw [show t ++ linesOf json [] = t by simp [linesOf], hcutread, List.append_nil]
      | cons ev' after =>
        by_cases hne : t = []
        · refine iff_of_true ⟨[], .inl rfl, ?_⟩ (.inl hne)
          rw [hne, List.nil_append, hread, List.append_nil]
        · -- the next line is lost with the torn one
          have hev' : ev' ∈ before ++ ev :: ev' :: after := by simp
          rw [show linesOf json (ev' :: after) = lineOf json ev' ++ linesOf json after from rfl,
            readEvents_joined hjson hev hev' ht hne,
            readEvents_all (hafter.sub (List.subset_cons_self ev' after))]
          refine iff_of_false ?_ (by simp [hne, hwhole])
          rintro ⟨torn, -, hall⟩
          have hlength := congrArg List.length hall
          simp only [List.length_append, List.length_cons] at hlength
          omega

theorem tableJson_objects : tableJson.Objects [started, renamed, exited] where
  object ev hev := by
    have hall : ∀ ev ∈ [started, renamed, exited], (tableJson.toString ev).head? = some '{' ∧
        (tableJson.toString ev).getLast? = some '}' ∧ Closed (tableJson.toString ev) := by
      decide
    obtain ⟨hopens, hcloses, hclosed⟩ := hall ev hev
    exact ⟨hopens, hcloses, hclosed⟩
  one_line := by decide
  round_trip := by decide
  closed l ev hread := by
    have hall : ∀ row ∈ logLines, Closed row.2 := by decide
    obtain ⟨row, hrow, -⟩ := Option.map_eq_some_iff.mp hread
    have hline : row.2 = l := by simpa using List.find?_some hrow
    exact hline ▸ hall row (List.mem_of_find?_eq_some hrow)

/-- A rename that was cut short at the end of the file. -/
theorem torn_line_iff_last : ∃ cut, cut <+: Utf8.encode (lineOf tableJson renamed) ∧ cut ≠ [] ∧
    AllRead tableJson [started] renamed cut [] := by
  have hcut : (Utf8.encode (lineOf tableJson renamed)).take 9 <+:
      Utf8.encode (lineOf tableJson renamed) := List.take_prefix _ _
  have hjson : tableJson.Objects ([started] ++ renamed :: []) :=
    tableJson_objects.sub (by decide)
  exact ⟨_, hcut, by decide,
    (torn_line_iff hjson hcut).mpr (.inr (.inr ⟨rfl, .inr (by decide)⟩))⟩

/-- **The session's exit is lost**: it was written behind a rename that had
been cut short. -/
theorem exit_behind_torn_line : ∃ cut, cut <+: Utf8.encode (lineOf tableJson renamed) ∧
    tableJson.Objects ([started] ++ renamed :: [exited]) ∧
    readFile tableJson (tornFile tableJson [started] cut [exited]) = [started] ∧
    ¬ AllRead tableJson [started] renamed cut [exited] := by
  have hread : readFile tableJson (tornFile tableJson [started]
      ((Utf8.encode (lineOf tableJson renamed)).take 9) [exited]) = [started] := by
    decide
  refine ⟨_, List.take_prefix 9 _, tableJson_objects, hread, ?_⟩
  rintro ⟨torn, -, hall⟩
  rw [hread] at hall
  have hlength := congrArg List.length hall
  simp only [List.length_append, List.length_cons, List.length_nil] at hlength
  omega

end Sessions
end Willie
