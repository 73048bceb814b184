import Mathlib.Algebra.Group.Nat.Defs
import Willie.Common.JsonPretty
import Willie.Common.Traced
import Willie.Profiles.Merge

/-!
# Profiles — the settings file, planned twice

A settings fragment is merged onto the settings file, then an MCP fragment
under one of its keys, which the first may have written too. Planned again on
what the first plan produced, the two produce it again: each merge along a
path is one of the two fragments' in turn, and these settle.
-/

namespace Willie
namespace Profiles

open Json Traced

/-- A value without a key twice, and with such numbers only. -/
def Holds (number : String → Prop) (v : Value) : Prop := v.WellFormed ∧ v.NumbersIn number

/-- The JSON crate's two directions, for the numbers it has: what is parsed has
no key twice and no other numbers, and such a value printed, with a line feed
behind it, is read back. -/
structure Codec.Inverse (C : Codec) (number : String → Prop) : Prop where
  parsed : ∀ text v, C.jsonFromStr text = .ok v → Holds number v
  printed : ∀ v : Value, Holds number v →
    ∃ text, C.jsonToStringPretty v = .ok text ∧ C.jsonFromStr (text ++ "\n") = .ok v

/-- The same inputs, their destination now holding some content. -/
def Targets.onto (targets : Targets) (content : String) : Targets :=
  { targets with
    settings := targets.settings.map fun f => { f with existing := some content }
    mcp := targets.mcp.map fun f => { f with existing := some content } }

variable {C : Codec} {t s m v : Value} {tm : Map} {k text content fragment : String}
  {frs : Fragments} {targets : Targets} {c : Change} {number : String → Prop}

theorem parseJson_eq_ok {which : String} :
    parseJson C text which = .ok v ↔ C.jsonFromStr text = .ok v := by
  unfold parseJson
  cases C.jsonFromStr text <;> simp

/-- What is serialised is a value's text, which is read back as it. -/
theorem Codec.Inverse.serialize (hC : C.Inverse number) (hv : Holds number v) :
    ∃ out, serializePretty C v = .ok out ∧ C.jsonFromStr out = .ok v := by
  obtain ⟨text, hprint, hparse⟩ := hC.printed v hv
  exact ⟨text ++ "\n", by simp [serializePretty, hprint], hparse⟩

/-- Merging under a key. -/
def mergeAt (tm : Map) (k : String) (f : Value) : Map :=
  Map.insert tm k (deepMerge ((Map.get? tm k).getD (.object [])) f)

theorem mergeJson_eq_ok {target : String} : mergeJson C target fragment = .ok text ↔
    ∃ t f, C.jsonFromStr target = .ok t ∧ C.jsonFromStr fragment = .ok f ∧
      serializePretty C (deepMerge t f) = .ok text := by
  simp only [mergeJson, mergeValue, bind_eq_ok, parseJson_eq_ok]
  grind

theorem mergeUnder_eq_ok {target : String} : mergeUnder C target k fragment = .ok text ↔
    ∃ tm f, C.jsonFromStr target = .ok (.object tm) ∧ C.jsonFromStr fragment = .ok f ∧
      serializePretty C (.object (mergeAt tm k f)) = .ok text := by
  simp only [mergeUnder, mergeValue, bind_eq_ok, parseJson_eq_ok]
  constructor
  · rintro ⟨t, ht, f, hf, h⟩
    cases t with
    | object tm => exact ⟨tm, f, ht, hf, h⟩
    | _ => cases h
  · rintro ⟨tm, f, ht, hf, h⟩
    exact ⟨.object tm, ht, f, hf, h⟩

/-! ## One merge, and another under a key -/

/-- A fragment put under a key. -/
def under (k : String) (f : Value) : Value := .object [(k, f)]

theorem wellFormed_under (h : v.WellFormed) : (under k v).WellFormed := by
  refine wellFormed_object.mpr ⟨List.nodup_singleton k, fun key w hw => ?_⟩
  rw [Map.get?_cons] at hw
  split at hw
  · exact Option.some.inj hw ▸ h
  · cases hw

theorem holds_under (h : Holds number v) : Holds number (under k v) :=
  ⟨wellFormed_under h.1, h.2, trivial⟩

theorem holds_deepMerge (ht : Holds number t) (hs : Holds number s) :
    Holds number (deepMerge t s) :=
  ⟨wellFormed_deepMerge ht.1 hs.1, numbersIn_deepMerge ht.1 hs.1 ht.2 hs.2⟩

/-- Merging under a key is merging the fragment that has it alone. -/
theorem object_mergeAt (h : v.WellFormed) :
    Value.object (mergeAt tm k v) = deepMerge (.object tm) (under k v) := by
  have hempty : deepMerge (.object []) v = v := by
    cases v with
    | object m => rw [deepMerge_object (wellFormed_object.mp h).1, entries_object,
        mergeEntries_nil (wellFormed_object.mp h).1]
    | _ => simp [deepMerge]
  simp only [under, deepMerge, mergeEntries, mergeAt]
  cases Map.get? tm k with
  | none => rw [Option.getD_none, hempty]
  | some w => rfl

/-- Serialised and read back, a value is the same. -/
theorem Codec.Inverse.reads (hC : C.Inverse number) (hv : Holds number v)
    (h : serializePretty C v = .ok text) : C.jsonFromStr text = .ok v := by
  obtain ⟨out, hout, hparse⟩ := hC.serialize hv
  obtain rfl : out = text := Except.ok.inj (hout.symm.trans h)
  exact hparse

/-- A merge that leaves an object was of an object. -/
theorem object_of_deepMerge (h : deepMerge t s = .object tm) : ∃ sm, s = .object sm := by
  cases s with
  | object sm => exact ⟨sm, rfl⟩
  | _ => simp [deepMerge] at h

/-! ## The plan, again -/

/-- Merging a settings fragment again gives the text again. -/
theorem mergeJson_twice (hC : C.Inverse number) {target : String}
    (h : mergeJson C target fragment = .ok text) : mergeJson C text fragment = .ok text := by
  obtain ⟨t, f, ht, hf, hout⟩ := mergeJson_eq_ok.mp h
  have hwt := hC.parsed _ _ ht
  have hwf := hC.parsed _ _ hf
  refine mergeJson_eq_ok.mpr ⟨deepMerge t f, f, ?_, hf, ?_⟩
  · exact hC.reads (holds_deepMerge hwt hwf) hout
  · rw [deepMerge_twice hwt.1 hwf.1, hout]

/-- So does merging an MCP fragment. -/
theorem mergeUnder_twice (hC : C.Inverse number) {target : String}
    (h : mergeUnder C target k fragment = .ok text) : mergeUnder C text k fragment = .ok text := by
  obtain ⟨tm, f, ht, hf, hout⟩ := mergeUnder_eq_ok.mp h
  have hwt := hC.parsed _ _ ht
  have hwf := hC.parsed _ _ hf
  have hmerged := holds_deepMerge hwt (holds_under (k := k) hwf)
  rw [object_mergeAt hwf.1] at hout
  obtain ⟨m, hm⟩ : ∃ m, deepMerge (.object tm) (under k f) = .object m :=
    ⟨_, (object_mergeAt hwf.1).symm⟩
  refine mergeUnder_eq_ok.mpr ⟨m, f, hm ▸ hC.reads hmerged hout, hf, ?_⟩
  rw [object_mergeAt hwf.1, ← hm, deepMerge_twice hwt.1 (wellFormed_under hwf.1), hout]

/-- **Both in turn.** -/
theorem merges_twice (hC : C.Inverse number) {target mid settings mcp : String}
    (hfirst : mergeJson C target settings = .ok mid)
    (hsecond : mergeUnder C mid k mcp = .ok text) :
    ∃ mid', mergeJson C text settings = .ok mid' ∧ mergeUnder C mid' k mcp = .ok text := by
  obtain ⟨t, s, ht, hs, hmid⟩ := mergeJson_eq_ok.mp hfirst
  obtain ⟨tm, f, htm, hf, hout⟩ := mergeUnder_eq_ok.mp hsecond
  have hwt := hC.parsed _ _ ht
  have hws := hC.parsed _ _ hs
  have hwf := hC.parsed _ _ hf
  have hwu := holds_under (k := k) hwf
  have hone := holds_deepMerge hwt hws
  have hobj : deepMerge t s = .object tm := Except.ok.inj ((hC.reads hone hmid).symm.trans htm)
  rw [object_mergeAt hwf.1, ← hobj] at hout
  have htwo := holds_deepMerge hone hwu
  have hthree := holds_deepMerge htwo hws
  obtain ⟨mid', hmid', hread'⟩ := hC.serialize hthree
  obtain ⟨sm, rfl⟩ := object_of_deepMerge hobj
  have hagain := deepMerge_object (t := deepMerge (deepMerge t (.object sm)) (under k f))
    (wellFormed_object.mp hws.1).1
  refine ⟨mid', mergeJson_eq_ok.mpr ⟨_, _, hC.reads htwo hout, hs, hmid'⟩, ?_⟩
  refine mergeUnder_eq_ok.mpr ⟨_, f, hagain ▸ hread', hf, ?_⟩
  rw [object_mergeAt hwf.1, ← hagain, deepMerge_settles hwt.1 hws.1 hwu.1, hout]

theorem onto_existing (targets : Targets) (content : String)
    (h : targets.settings.isSome ∨ targets.mcp.isSome) :
    (((targets.onto content).settings.bind (·.existing)).or
      ((targets.onto content).mcp.bind (·.existing))) = some content := by
  unfold Targets.onto
  rcases hset : targets.settings with - | f
  · rcases hmcp : targets.mcp with - | f
    · simp [hset, hmcp] at h
    · rfl
  · rfl

theorem required_eq_ok {name : String} {o : Option FragmentContent} {f : FragmentContent} :
    required name o = .ok f ↔ o = some f := by
  cases o <;> simp [required]

/-- A plan with both fragments active merges one after the other. -/
theorem planSettings_both {settings mcp : FragmentContent} {mid : String}
    (hs : frs.settings = true) (hm : frs.mcp = true) (hsettings : targets.settings = some settings)
    (hmcp : targets.mcp = some mcp)
    (hfirst : mergeJson C ((settings.existing.or mcp.existing).getD "\x7b\x7d")
      settings.fragment = .ok mid)
    (hsecond : mergeUnder C mid "mcpServers" mcp.fragment = .ok text) :
    planSettings C frs targets = .ok (some ⟨".claude/settings.json",
      kindOf (settings.existing.or mcp.existing) .merge, text⟩) := by
  simp only [planSettings, hs, hm, hsettings, hmcp, Bool.not_true, Bool.and_false,
    Bool.false_eq_true, if_false, if_true, Option.bind_some, required]
  rw [ok_bind, hfirst, ok_bind, ok_bind, hsecond]
  rfl

/-- **The plan is a fixpoint.** Planned again on what it produced, it
produces the same. -/
theorem planSettings_twice (hC : C.Inverse number) (h : planSettings C frs targets = .ok (some c)) :
    ∃ c', planSettings C frs (targets.onto c.after) = .ok (some c') ∧ c'.after = c.after := by
  unfold planSettings at h
  cases hs : frs.settings <;> cases hm : frs.mcp
  · simp [hs, hm] at h
  all_goals
    simp only [hs, hm, Bool.not_true, Bool.not_false, Bool.and_false, Bool.and_true,
      Bool.false_eq_true, if_false, if_true, bind_eq_ok, pure_eq_ok, required_eq_ok] at h
  · obtain ⟨f, hf, text, htext, hc⟩ := h
    obtain rfl := Option.some.inj hc
    have hagain := mergeUnder_twice hC htext
    have hexisting := onto_existing targets text (.inr (by simp [hf]))
    have hmcp : (targets.onto text).mcp = some { f with existing := some text } := by
      simp [Targets.onto, hf]
    refine ⟨⟨".claude/settings.json", .merge, text⟩, ?_, rfl⟩
    unfold planSettings
    rw [hexisting]
    simp [hs, hm, hmcp, required, hagain, kindOf]
  · obtain ⟨f, hf, text, htext, hc⟩ := h
    obtain rfl := Option.some.inj hc
    have hagain := mergeJson_twice hC htext
    have hexisting := onto_existing targets text (.inl (by simp [hf]))
    have hset : (targets.onto text).settings = some { f with existing := some text } := by
      simp [Targets.onto, hf]
    refine ⟨⟨".claude/settings.json", .merge, text⟩, ?_, rfl⟩
    unfold planSettings
    rw [hexisting]
    simp [hs, hm, hset, required, hagain, kindOf]
  · obtain ⟨f, hf, mid, hmid, g, hg, text, htext, hc⟩ := h
    obtain rfl := Option.some.inj hc
    obtain ⟨mid', hmid', hagain⟩ := merges_twice hC hmid htext
    have hexisting := onto_existing targets text (.inl (by simp [hf]))
    have hset : (targets.onto text).settings = some { f with existing := some text } := by
      simp [Targets.onto, hf]
    have hmcp : (targets.onto text).mcp = some { g with existing := some text } := by
      simp [Targets.onto, hg]
    exact ⟨_, planSettings_both hs hm hset hmcp hmid' hagain, rfl⟩

/-- **Settings are merged in order, and once is enough.** Along every path
the fragment reaches: an object's keys are the target's in their order, then
the fragment's new ones in theirs; a value that is not an object is the
fragment's; what the fragment does not mention is the target's. And a plan
made again on what it produced produces the same. -/
theorem settings_merge_settles :
    (∀ target fragment : Value, target.WellFormed → fragment.WellFormed →
      (∀ path fm, fragment.at? path = some (.object fm) →
        ∃ m, (deepMerge target fragment).at? path = some (.object m) ∧
          m.map Prod.fst = (((target.at? path).map entries).getD []).map Prod.fst ++
            (fm.map Prod.fst).filter
              (· ∉ (((target.at? path).map entries).getD []).map Prod.fst)) ∧
      (∀ path v, target.at? path = some v → mentions fragment path = false →
        (deepMerge target fragment).at? path = some v) ∧
      ∀ path v, fragment.at? path = some v → (∀ m, v ≠ .object m) →
        (deepMerge target fragment).at? path = some v) ∧
    ∀ (C : Codec) (number : String → Prop), C.Inverse number →
      ∀ (frs : Fragments) (targets : Targets) (c : Change),
      planSettings C frs targets = .ok (some c) →
      ∃ c', planSettings C frs (targets.onto c.after) = .ok (some c') ∧ c'.after = c.after := by
  refine ⟨fun target fragment ht hf => ⟨?_, ?_, ?_⟩,
    fun C number hC frs targets c => planSettings_twice hC⟩
  · intro path fm hfm
    have hu : Map.Unique fm := (wellFormed_object.mp (wellFormed_at? hf hfm)).1
    rw [at?_deepMerge hf hfm]
    cases target.at? path with
    | none => exact ⟨fm, rfl, by simp⟩
    | some t =>
      refine ⟨mergeEntries (entries t) fm, congrArg some (deepMerge_object hu), ?_⟩
      exact keys_mergeEntries hu
  · intro path v hv hnot
    rw [at?_unmentioned hf hnot, hv]
  · intro path v hv hscalar
    rw [at?_deepMerge hf hv]
    cases target.at? path with
    | none => rfl
    | some t => exact congrArg some (deepMerge_scalar hscalar)

/-! ## A crate with both directions -/

/-- Decimal digits without a zero in front. -/
def isNatural (digits : List Char) : Bool :=
  digits ≠ [] && digits.all Char.isDigit && (digits.head? ≠ some '0' || digits.length = 1)

/-- An integer of 64 bits, with a sign or without, as it is printed. -/
def isInteger (word : List Char) : Bool :=
  let value (digits : List Char) := digits.foldl (fun n c => n * 10 + (c.toNat - 48)) 0
  match word with
  | '-' :: digits => isNatural digits && 0 < value digits && value digits ≤ 2 ^ 63
  | digits => isNatural digits && value digits < 2 ^ 64

/-- A crate that prints values as the real one does, and reads them with any
white space between the signs; of numbers it has the integers. -/
def sampleCodec : Codec where
  jsonFromStr text :=
    match Json.read isInteger text.toList with
    | some v => .ok v
    | none => .error "expected value"
  jsonToStringPretty v := .ok (String.ofList (pretty 0 v))
  tomlFromStr _ := .error "expected a table"

theorem sampleCodec_reads {text : String} {rest : List Char} (hv : Holds (Numeral isInteger) v)
    (hrest : rest = [] ∨ rest = ['\n']) (htext : text.toList = pretty 0 v ++ rest) :
    sampleCodec.jsonFromStr text = .ok v := by
  simp only [sampleCodec, htext, read_pretty hv.1 hv.2 hrest]

theorem sampleCodec_prints {text : String} (htext : text.toList = pretty 0 v ++ ['\n']) :
    serializePretty sampleCodec v = .ok text := by
  refine congrArg Except.ok (String.toList_inj.mp ?_)
  rw [htext]
  simp

theorem sampleCodec_inverse : sampleCodec.Inverse (Numeral isInteger) := by
  constructor
  · intro text v h
    simp only [sampleCodec] at h
    split at h
    · rename_i w hw
      exact Except.ok.inj h ▸ sound_of_read hw
    · cases h
  · intro v hv
    exact ⟨_, rfl, sampleCodec_reads hv (.inr rfl) (by simp)⟩

/-- An agent's settings, and a server's. -/
def cleanup : Value := under "cleanupPeriodDays" (.number "30")
def docs : Value := under "docs" (.object [])

def cleanupText : String := "\x7b\n  \"cleanupPeriodDays\": 30\n\x7d"
def docsText : String := "\x7b\n  \"docs\": \x7b\x7d\n\x7d"

/-- The file that is made of both. -/
def cleanupWithDocs : String :=
  "\x7b\n  \"cleanupPeriodDays\": 30,\n  \"mcpServers\": \x7b\n    \"docs\": \x7b\x7d\n  \x7d\n\x7d\n"

theorem holds_empty : Holds number (.object []) := ⟨⟨List.nodup_nil, trivial⟩, trivial⟩

theorem holds_cleanup : Holds (Numeral isInteger) cleanup :=
  holds_under ⟨trivial, by decide, List.all_eq_true.mp (by decide), by decide, by decide⟩

/-- A number of days and a server, planned twice; the number stands at its
path. -/
theorem settings_merge_settles_docs :
    let frs : Fragments := { settings := true, mcp := true }
    let targets : Targets :=
      { settings := some ⟨cleanupText, none⟩, mcp := some ⟨docsText, none⟩ }
    (∃ c, planSettings sampleCodec frs (targets.onto cleanupWithDocs) = .ok (some c) ∧
      c.after = cleanupWithDocs) ∧
    (deepMerge docs cleanup).at? ["cleanupPeriodDays"] = some (.number "30") := by
  intro frs targets
  have hdocs : Holds (Numeral isInteger) docs := holds_under holds_empty
  have hfirst : mergeJson sampleCodec "\x7b\x7d" cleanupText = .ok (cleanupText ++ "\n") := by
    refine mergeJson_eq_ok.mpr ⟨.object [], cleanup, ?_, ?_, ?_⟩
    · exact sampleCodec_reads holds_empty (.inl rfl) (by decide)
    · exact sampleCodec_reads holds_cleanup (.inl rfl) (by decide)
    · exact sampleCodec_prints (by decide)
  have hsecond : mergeUnder sampleCodec (cleanupText ++ "\n") "mcpServers" docsText =
      .ok cleanupWithDocs := by
    refine mergeUnder_eq_ok.mpr ⟨[("cleanupPeriodDays", .number "30")], docs, ?_, ?_, ?_⟩
    · exact sampleCodec_reads holds_cleanup (.inr rfl) (by decide)
    · exact sampleCodec_reads hdocs (.inl rfl) (by decide)
    · exact sampleCodec_prints (by decide)
  have hplan : planSettings sampleCodec frs targets =
      .ok (some ⟨".claude/settings.json", .create, cleanupWithDocs⟩) := by
    have hsettings : targets.settings = some ⟨cleanupText, none⟩ := rfl
    have hmcp : targets.mcp = some ⟨docsText, none⟩ := rfl
    exact planSettings_both rfl rfl hsettings hmcp hfirst hsecond
  have hthere : cleanup.at? ["cleanupPeriodDays"] = some (.number "30") := by
    rfl
  have hagain := settings_merge_settles.2 sampleCodec _ sampleCodec_inverse frs targets _ hplan
  exact ⟨hagain, (settings_merge_settles.1 docs cleanup hdocs.1 holds_cleanup.1).2.2
    ["cleanupPeriodDays"] (.number "30") hthere nofun⟩

end Profiles
end Willie
