import Willie.Common.Rescan
import Willie.Supervisor.Screen

/-!
# Supervisor — the alternate screen, whatever the reads

A switch starts with the one `ESC` it has, so no switch starts inside another
(`switchReader`). The last one of the whole output decides, however the
output was cut: seven bytes of what was read are enough to go on from.
-/

namespace Willie
namespace Supervisor

open Rescan

variable {bytes s : Bytes} {code : Bytes} {on : Bool} {i len : ℕ}

/-! ## The switches -/

/-- The codes of the alternate screen: `1049`, `1047` and `47`. -/
def altCodes : List Bytes :=
  [[0x31, 0x30, 0x34, 0x39], [0x31, 0x30, 0x34, 0x37], [0x34, 0x37]]

/-- `ESC [ ? code h` or `ESC [ ? code l`. -/
def switchWord (code : Bytes) (on : Bool) : Bytes :=
  [0x1b, 0x5b, 0x3f] ++ code ++ [if on then 0x68 else 0x6c]

theorem length_switchWord : (switchWord code on).length = 3 + code.length + 1 := by
  simp [switchWord]
  omega

/-- **A switch is one of the six words.** -/
theorem switchAt_eq_some : switchAt bytes = some (len, on) ↔
    ∃ code ∈ altCodes, switchWord code on <+: bytes ∧ len = (switchWord code on).length := by
  constructor
  · intro h
    obtain ⟨code, hcode, hread⟩ := List.exists_of_findSome?_eq_some h
    refine ⟨code, hcode, ?_⟩
    split at hread
    · rename_i rest hprefix
      obtain ⟨rfl, rfl⟩ : 3 + code.length + 1 = len ∧ true = on := by simpa using hread
      obtain ⟨p, rfl, hp⟩ := List.dropPrefix?_eq_some_iff.mp hprefix
      rw [eq_of_beq hp]
      exact ⟨⟨rest, by simp [switchWord]⟩, length_switchWord.symm⟩
    · rename_i rest hprefix
      obtain ⟨rfl, rfl⟩ : 3 + code.length + 1 = len ∧ false = on := by simpa using hread
      obtain ⟨p, rfl, hp⟩ := List.dropPrefix?_eq_some_iff.mp hprefix
      rw [eq_of_beq hp]
      exact ⟨⟨rest, by simp [switchWord]⟩, length_switchWord.symm⟩
    · contradiction
  · rintro ⟨code, hcode, ⟨rest, rfl⟩, rfl⟩
    simp only [altCodes, List.mem_cons, List.not_mem_nil, or_false] at hcode
    rcases hcode with rfl | rfl | rfl <;> cases on <;> rfl

/-- A switch has its only `ESC` at the front. -/
theorem esc_switchWord (h : code ∈ altCodes) : 0x1b ∉ (switchWord code on).drop 1 := by
  have hall : ∀ code ∈ altCodes, ∀ on, 0x1b ∉ (switchWord code on).drop 1 := by decide
  exact hall code h on

/-- The reader of switches. -/
def switchReader : Reader UInt8 Bool where
  read := switchAt
  longest := tailBytes + 1
  bounds h := by
    obtain ⟨code, hcode, hprefix, rfl⟩ := switchAt_eq_some.mp h
    have hshort : ∀ code ∈ altCodes, code.length ≤ 4 := by decide
    have hle := hshort code hcode
    refine ⟨?_, ?_, hprefix.length_le⟩ <;> rw [length_switchWord]
    · omega
    · unfold tailBytes
      omega
  extend t h := by
    obtain ⟨code, hcode, hprefix, hlen⟩ := switchAt_eq_some.mp h
    exact switchAt_eq_some.mpr ⟨code, hcode, hprefix.trans (List.prefix_append _ t), hlen⟩
  cut h hn := by
    obtain ⟨code, hcode, hprefix, rfl⟩ := switchAt_eq_some.mp h
    have hcut := List.prefix_of_prefix_length_le hprefix (List.prefix_append _ _) hn
    exact switchAt_eq_some.mpr ⟨code, hcode, hcut, rfl⟩
  apart {s n x i} h hpos hlt := by
    obtain ⟨code, hcode, ⟨rest, rfl⟩, rfl⟩ := switchAt_eq_some.mp h
    rw [Option.eq_none_iff_forall_ne_some]
    rintro ⟨m, y⟩ hinner
    obtain ⟨code', -, ⟨rest', hrest⟩, -⟩ := switchAt_eq_some.mp hinner
    -- the inner switch would begin with an ESC of the outer one
    have hesc : ((switchWord code x).drop 1)[i - 1]? = some 0x1b := by
      have hhead : ((switchWord code x ++ rest).drop i)[0]? = some 0x1b := by
        rw [← hrest]
        rfl
      rw [List.getElem?_drop, Nat.add_zero, List.getElem?_append_left hlt] at hhead
      rw [List.getElem?_drop, Nat.add_sub_cancel' hpos]
      exact hhead
    exact esc_switchWord hcode (List.mem_of_getElem? hesc)

/-! ## One read -/

theorem switches_skip {b : UInt8} {fuel : ℕ} {active : Bool} (h : switchAt (b :: bytes) = none) :
    switches (fuel + 1) (b :: bytes) active = switches fuel bytes active := by
  simp only [switches, h]

theorem switches_take {b : UInt8} {fuel : ℕ} {active : Bool}
    (h : switchAt (b :: bytes) = some (len, on)) :
    switches (fuel + 1) (b :: bytes) active = switches fuel ((b :: bytes).drop len) on := by
  simp only [switches, h]

/-- **A pass over the bytes** leaves what the last switch in them says. -/
theorem switches_eq {fuel : ℕ} {active : Bool} (hfuel : bytes.length ≤ fuel) :
    switches fuel bytes active = (switchReader.last bytes).getD active := by
  induction fuel generalizing bytes active with
  | zero =>
    rw [List.length_eq_zero_iff.mp (by omega : bytes.length = 0)]
    rfl
  | succ fuel ih =>
    cases bytes with
    | nil => rfl
    | cons b bytes =>
      rw [List.length_cons] at hfuel
      cases hread : switchAt (b :: bytes) with
      | none =>
        have hlast : switchReader.last (b :: bytes) = switchReader.last bytes := by
          rw [Reader.last_cons, show switchReader.read (b :: bytes) = none from hread]
          simp
        rw [switches_skip hread, hlast]
        exact ih (by omega)
      | some word =>
        obtain ⟨len, on⟩ := word
        obtain ⟨hpos, -, -⟩ := switchReader.bounds hread
        rw [switches_take hread, Reader.last_of_read (R := switchReader) hread]
        rw [ih (by rw [List.length_drop, List.length_cons]; omega)]
        cases switchReader.last ((b :: bytes).drop len) <;> rfl

/-- What is kept between reads: the mode and the end of what was read. -/
structure Watching (alt : AltScreen) (s : Bytes) : Prop where
  active : alt.active = (switchReader.last s).getD false
  tail : alt.tail = lastBytes tailBytes s

theorem watching_new : Watching {} [] := ⟨rfl, rfl⟩

/-- **A read** goes on from the end of the ones before it. -/
theorem Watching.feed {alt : AltScreen} (h : Watching alt s) (bytes : Bytes) :
    Watching (alt.feed bytes) (s ++ bytes) := by
  constructor
  · have hsplit : s.take (s.length - tailBytes) ++ alt.tail = s := by
      rw [h.tail, lastBytes, List.take_append_drop]
    have hlong : s.take (s.length - tailBytes) ≠ [] →
        switchReader.longest ≤ alt.tail.length + 1 := by
      intro hne
      have hlt : 0 < s.length - tailBytes := by
        rw [Nat.pos_iff_ne_zero]
        intro hzero
        exact hne (by rw [hzero, List.take_zero])
      show tailBytes + 1 ≤ alt.tail.length + 1
      rw [h.tail, lastBytes, List.length_drop]
      omega
    have hrescan := Reader.last_rescan (t := bytes) _ hlong
    rw [hsplit] at hrescan
    show switches _ (alt.tail ++ bytes) alt.active = _
    rw [switches_eq (Nat.le_refl _), hrescan, h.active]
    cases switchReader.last (alt.tail ++ bytes) <;> rfl
  · show lastBytes tailBytes (alt.tail ++ bytes) = _
    rw [h.tail, lastBytes_append]

/-! ## All reads -/

/-- The screen after some reads. -/
def AltScreen.feeds (alt : AltScreen) (reads : List Bytes) : AltScreen := reads.foldl .feed alt

theorem Watching.feeds {alt : AltScreen} (h : Watching alt s) (reads : List Bytes) :
    Watching (alt.feeds reads) (s ++ reads.flatten) := by
  induction reads generalizing alt s with
  | nil => simpa [AltScreen.feeds] using h
  | cons bytes reads ih =>
    rw [List.flatten_cons, ← List.append_assoc]
    exact ih (h.feed bytes)

/-- A complete switch stands at place `i`. -/
def SwitchAt (s : Bytes) (i : ℕ) (on : Bool) : Prop :=
  ∃ code ∈ altCodes, switchWord code on <+: s.drop i

/-- The last switch of a stream. -/
def LastSwitch (s : Bytes) (on : Bool) : Prop :=
  ∃ i, SwitchAt s i on ∧ ∀ j on', SwitchAt s j on' → j ≤ i

theorem read_eq_none (h : ∀ on, ¬ SwitchAt s i on) : switchReader.read (s.drop i) = none := by
  rw [Option.eq_none_iff_forall_ne_some]
  rintro ⟨n, on⟩ hread
  obtain ⟨code, hcode, hprefix, -⟩ := switchAt_eq_some.mp hread
  exact h on ⟨code, hcode, hprefix⟩

/-- **The alternate screen does not depend on the reads.** It is on exactly
as the last complete switch of the whole output says, and off before any. -/
theorem active_last_switch (reads : List Bytes) :
    (∀ on, LastSwitch reads.flatten on → (AltScreen.feeds {} reads).active = on) ∧
    ((∀ i on, ¬ SwitchAt reads.flatten i on) → (AltScreen.feeds {} reads).active = false) := by
  have hactive := (watching_new.feeds reads).active
  rw [List.nil_append] at hactive
  rw [hactive]
  constructor
  · rintro on ⟨i, ⟨code, hcode, hprefix⟩, hlast⟩
    have hread := switchAt_eq_some.mpr ⟨code, hcode, hprefix, rfl⟩
    have hlater : ∀ j, i < j → switchReader.read (reads.flatten.drop j) = none := by
      intro j hj
      refine read_eq_none fun on' hswitch => ?_
      have hle := hlast j on' hswitch
      omega
    rw [Reader.last_eq_some (R := switchReader) hread hlater]
    rfl
  · intro hnone
    rw [Reader.last_eq_none (R := switchReader) fun i => read_eq_none (hnone i)]
    rfl

end Supervisor
end Willie
