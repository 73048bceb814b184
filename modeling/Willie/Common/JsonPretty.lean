import Mathlib.Data.List.TakeWhile
import Willie.Common.Json
import Willie.Common.JsonText

/-!
# JSON printed over lines

A value is printed with its entries and items on lines of their own, two
blanks deeper than it is, and read back with any white space between the
signs (`read_pretty`). Which words are numbers is a parameter: a printed
value has no others (`Numeral`), and neither has one that is read.
-/

namespace Json

open JsonText (isSpace)

/-! ## Strings -/

/-- The signs that are escaped by a letter, or by themselves. -/
def escapes : List (Char × Char) :=
  [('"', '"'), ('\\', '\\'), ('\x08', 'b'), ('\t', 't'), ('\n', 'n'), ('\x0c', 'f'), ('\r', 'r')]

/-- A character in a string. -/
def escaped (c : Char) : List Char :=
  match escapes.lookup c with
  | some e => ['\\', e]
  | none =>
    if c.toNat < 32 then
      ['\\', 'u', '0', '0', Nat.digitChar (c.toNat / 16), Nat.digitChar (c.toNat % 16)]
    else [c]

def quoted (s : String) : List Char := '"' :: (s.toList.flatMap escaped ++ ['"'])

def hexVal (c : Char) : Option ℕ := "0123456789abcdef".toList.idxOf? c.toLower

/-- The first character of what is left of a string. -/
def readChar : List Char → Option (Char × List Char)
  | '\\' :: 'u' :: a :: b :: c :: d :: rest => do
    let n := (((← hexVal a) * 16 + (← hexVal b)) * 16 + (← hexVal c)) * 16 + (← hexVal d)
    -- half of a pair is no character, and a pair is not read
    if n.isValidChar then some (.ofNat n, rest) else none
  | '\\' :: e :: rest =>
    if e = '/' then some ('/', rest)
    else (escapes.find? (·.2 = e)).map fun pair => (pair.1, rest)
  | c :: rest => if c = '"' ∨ c = '\\' ∨ c.toNat < 32 then none else some (c, rest)
  | [] => none

/-- A string, behind its first quote. -/
def readString : ℕ → List Char → Option (List Char × List Char)
  | 0, _ => none
  | n + 1, text =>
    match readChar text with
    | some (c, rest) => (readString n rest).map fun read => (c :: read.1, read.2)
    | none => if text.head? = some '"' then some ([], text.tail) else none

variable {c : Char} {s : String} {rest text : List Char} {n : ℕ}

theorem hexVal_digitChar : ∀ d < 16, hexVal (Nat.digitChar d) = some d := by decide

theorem readChar_escaped : readChar (escaped c ++ rest) = some (c, rest) := by
  unfold escaped
  split
  · rename_i e he
    obtain ⟨front, back, hsplit, -⟩ := List.lookup_eq_some_iff.mp he
    have hmem : (c, e) ∈ escapes := by simp [hsplit]
    simp only [escapes, List.mem_cons, Prod.mk.injEq, List.not_mem_nil, or_false] at hmem
    rcases hmem with ⟨rfl, rfl⟩ | ⟨rfl, rfl⟩ | ⟨rfl, rfl⟩ | ⟨rfl, rfl⟩ | ⟨rfl, rfl⟩ | ⟨rfl, rfl⟩ |
      ⟨rfl, rfl⟩ <;> rfl
  · rename_i hnone
    split
    · have hhigh := hexVal_digitChar (c.toNat / 16) (by omega)
      have hlow := hexVal_digitChar (c.toNat % 16) (by omega)
      have hzero : hexVal '0' = some 0 := by decide
      have hsum : c.toNat / 16 * 16 + c.toNat % 16 = c.toNat := by omega
      have hvalid : c.toNat.isValidChar := c.valid
      simp [readChar, hhigh, hlow, hzero, hsum, hvalid]
    · have hback : c ≠ '\\' ∧ c ≠ '"' := by
        constructor <;> rintro rfl <;> exact absurd hnone (by decide)
      rw [List.singleton_append, readChar.eq_def]
      split <;> simp_all

theorem readString_quoted {s : List Char} (h : s.length < n) :
    readString n (s.flatMap escaped ++ '"' :: rest) = some (s, rest) := by
  induction s generalizing n with
  | nil =>
    obtain ⟨n, rfl⟩ := Nat.exists_eq_succ_of_ne_zero (Nat.ne_of_gt h)
    rfl
  | cons c s ih =>
    obtain ⟨n, rfl⟩ := Nat.exists_eq_succ_of_ne_zero (Nat.ne_of_gt (Nat.zero_lt_of_lt h))
    rw [List.flatMap_cons, List.append_assoc, readString, readChar_escaped]
    simp only [ih (Nat.lt_of_succ_lt_succ h), Option.map_some]

/-! ## Values -/

/-- A new line, so deep. -/
def line (depth : ℕ) : List Char := '\n' :: List.replicate (2 * depth) ' '

mutual

/-- A value, printed so deep. -/
def pretty (depth : ℕ) : Value → List Char
  | .null => "null".toList
  | .bool true => "true".toList
  | .bool false => "false".toList
  | .number text => text.toList
  | .string s => quoted s
  | .array [] => ['[', ']']
  | .array (v :: vs) =>
    '[' :: (line (depth + 1) ++ (pretty (depth + 1) v ++ prettyItems depth vs))
  | .object [] => ['{', '}']
  | .object ((key, v) :: m) =>
    '{' :: (line (depth + 1) ++ (quoted key ++ ':' :: ' ' ::
      (pretty (depth + 1) v ++ prettyEntries depth m)))

/-- The items behind the first, and the end. -/
def prettyItems (depth : ℕ) : List Value → List Char
  | [] => line depth ++ [']']
  | v :: vs => ',' :: (line (depth + 1) ++ (pretty (depth + 1) v ++ prettyItems depth vs))

/-- The entries behind the first, and the end. -/
def prettyEntries (depth : ℕ) : List (String × Value) → List Char
  | [] => line depth ++ ['}']
  | (key, v) :: m =>
    ',' :: (line (depth + 1) ++ (quoted key ++ ':' :: ' ' ::
      (pretty (depth + 1) v ++ prettyEntries depth m)))

end

/-- What stands behind white space. -/
def skip (text : List Char) : List Char := text.dropWhile isSpace

/-- The signs of words and numbers. -/
def wordChar (c : Char) : Bool := c.isAlphanum || c = '+' || c = '-' || c = '.'

def constant : List Char → Option Value
  | ['n', 'u', 'l', 'l'] => some .null
  | ['t', 'r', 'u', 'e'] => some (.bool true)
  | ['f', 'a', 'l', 's', 'e'] => some (.bool false)
  | _ => none

/-- The object of some entries, the last one of a key. -/
def ofEntries (m : Map) : Map := m.foldl (fun m e => Map.insert m e.1 e.2) []

section Read

variable (number : List Char → Bool)

def readWord (text : List Char) : Option (Value × List Char) :=
  let word := text.takeWhile wordChar
  match constant word with
  | some v => some (v, text.dropWhile wordChar)
  | none =>
    if word ≠ [] ∧ number word then some (.number (.ofList word), text.dropWhile wordChar)
    else none

mutual

/-- The value a text begins with, and what stands behind it. -/
def readValue : ℕ → List Char → Option (Value × List Char)
  | 0, _ => none
  | n + 1, text =>
    match skip text with
    | '"' :: rest => (readString n rest).map fun read => (.string (.ofList read.1), read.2)
    | '[' :: rest =>
      if (skip rest).head? = some ']' then some (.array [], (skip rest).tail)
      else
        match readValue n rest with
        | some (v, rest) => (readItems n rest).map fun read => (.array (v :: read.1), read.2)
        | none => none
    | '{' :: rest =>
      if (skip rest).head? = some '}' then some (.object [], (skip rest).tail)
      else
        match readEntry n rest with
        | some (e, rest) =>
          (readEntries n rest).map fun read => (.object (ofEntries (e :: read.1)), read.2)
        | none => none
    | rest => readWord number rest

def readItems : ℕ → List Char → Option (List Value × List Char)
  | 0, _ => none
  | n + 1, text =>
    match skip text with
    | ']' :: rest => some ([], rest)
    | ',' :: rest =>
      match readValue n rest with
      | some (v, rest) => (readItems n rest).map fun read => (v :: read.1, read.2)
      | none => none
    | _ => none

def readEntry : ℕ → List Char → Option ((String × Value) × List Char)
  | 0, _ => none
  | n + 1, text =>
    match skip text with
    | '"' :: rest =>
      match readString n rest with
      | some (key, rest) =>
        match skip rest with
        | ':' :: rest => (readValue n rest).map fun read => ((.ofList key, read.1), read.2)
        | _ => none
      | none => none
    | _ => none

def readEntries : ℕ → List Char → Option (Map × List Char)
  | 0, _ => none
  | n + 1, text =>
    match skip text with
    | '}' :: rest => some ([], rest)
    | ',' :: rest =>
      match readEntry n rest with
      | some (e, rest) => (readEntries n rest).map fun read => (e :: read.1, read.2)
      | none => none
    | _ => none

end

/-- The value of a text, with white space at most behind it. -/
def read (text : List Char) : Option Value :=
  match readValue number (text.length + 1) text with
  | some (v, rest) => if skip rest = [] then some v else none
  | none => none

/-- A number as it is printed. -/
structure Numeral (text : String) : Prop where
  nonempty : text.toList ≠ []
  word : ∀ c ∈ text.toList, wordChar c = true
  plain : constant text.toList = none
  number : number text.toList = true

/-! ## Read back -/

variable {number} {v : Value} {vs : List Value} {e : String × Value} {m : Map} {depth : ℕ}

theorem skip_cons (h : isSpace c = false) : skip (c :: rest) = c :: rest := by
  simp [skip, h]

theorem skip_line (depth : ℕ) (text : List Char) : skip (line depth ++ text) = skip text := by
  have hblanks (k : ℕ) : skip (List.replicate k ' ' ++ text) = skip text := by
    induction k with
    | zero => rfl
    | succ k ih => exact ih
  exact hblanks _

theorem word_ne (h : wordChar c = true) : isSpace c = false ∧ c ∉ ['"', '[', '{', ']', '}'] := by
  constructor
  · refine Bool.eq_false_iff.mpr fun hspace => ?_
    simp only [isSpace, Bool.or_eq_true, beq_iff_eq] at hspace
    rcases hspace with ((rfl | rfl) | rfl) | rfl <;> exact absurd h (by decide)
  · intro hmem
    simp only [List.mem_cons, List.not_mem_nil, or_false] at hmem
    rcases hmem with rfl | rfl | rfl | rfl | rfl <;> exact absurd h (by decide)

/-- What a value begins with. -/
theorem head_pretty (depth : ℕ) (hn : v.NumbersIn (Numeral number)) :
    ∃ c rest, pretty depth v = c :: rest ∧ isSpace c = false ∧ c ≠ ']' := by
  cases v with
  | null => exact ⟨'n', _, rfl, rfl, by decide⟩
  | bool b => cases b <;> exact ⟨_, _, rfl, rfl, by decide⟩
  | number text =>
    have hn : Numeral number text := hn
    cases htext : text.toList with
    | nil => exact absurd htext hn.nonempty
    | cons c rest =>
      have hc := word_ne (hn.word c (htext ▸ List.mem_cons_self))
      exact ⟨c, rest, by rw [pretty, htext], hc.1, fun h => hc.2 (by simp [h])⟩
  | string s => exact ⟨'"', _, rfl, rfl, by decide⟩
  | array vs => cases vs <;> exact ⟨'[', _, rfl, rfl, by decide⟩
  | object m => rcases m with - | ⟨⟨key, v⟩, m⟩ <;> exact ⟨'{', _, rfl, rfl, by decide⟩

theorem length_le_quoted : s.toList.length + 2 ≤ (quoted s).length := by
  have hone (c : Char) : 1 ≤ (escaped c).length := by
    unfold escaped
    split
    · simp
    · split <;> simp
  have hall (cs : List Char) : cs.length ≤ (cs.flatMap escaped).length := by
    induction cs with
    | nil => rfl
    | cons c cs ih =>
      have := hone c
      simp only [List.flatMap_cons, List.length_append, List.length_cons]
      omega
  have := hall s.toList
  simp only [quoted, List.length_cons, List.length_append, List.length_nil]
  omega

/-- A string behind its first quote. -/
theorem readString_tail (h : (quoted s).length ≤ n + 1) (rest : List Char) :
    readString n (s.toList.flatMap escaped ++ '"' :: rest) = some (s.toList, rest) := by
  have hlen : s.toList.length + 2 ≤ (quoted s).length := length_le_quoted
  exact readString_quoted (by omega)

/-- A word ends where another sign stands. -/
theorem readValue_word {word : List Char} (hne : word ≠ [])
    (hword : ∀ c ∈ word, wordChar c = true) (hrest : ∀ c ∈ rest.head?, wordChar c = false)
    (hlen : word.length ≤ n) (hskip : skip text = word ++ rest) :
    readValue number n text = match constant word with
      | some v => some (v, rest)
      | none => if number word then some (.number (.ofList word), rest) else none := by
  obtain ⟨c, word, rfl⟩ := List.exists_cons_of_ne_nil hne
  obtain ⟨n, rfl⟩ := Nat.exists_eq_succ_of_ne_zero (show n ≠ 0 by rintro rfl; simp at hlen)
  have hnot := (word_ne (hword c List.mem_cons_self)).2
  have hread : readValue number (n + 1) text = readWord number (c :: word ++ rest) := by
    rw [readValue, hskip]
    split <;> simp_all
  have hnone : rest.takeWhile wordChar = [] ∧ rest.dropWhile wordChar = rest := by
    cases rest with
    | nil => exact ⟨rfl, rfl⟩
    | cons d rest =>
      have hd := hrest d rfl
      simp [hd]
  have hfront : (c :: word ++ rest).takeWhile wordChar = c :: word := by
    rw [List.takeWhile_append_of_pos hword, hnone.1, List.append_nil]
  have hback : (c :: word ++ rest).dropWhile wordChar = rest := by
    rw [List.dropWhile_append_of_pos hword, hnone.2]
  rw [hread, readWord, hfront, hback]
  simp only [List.cons_ne_nil, ne_eq, not_false_eq_true, true_and]

theorem insert_new {key : String} (h : key ∉ m.map Prod.fst) :
    Map.insert m key v = m ++ [(key, v)] := by
  induction m with
  | nil => rfl
  | cons e m ih =>
    obtain ⟨k, w⟩ := e
    obtain ⟨hk, hm⟩ := not_or.mp (mt List.mem_cons.mpr h)
    rw [Map.insert, if_neg (Ne.symm hk), ih hm, List.cons_append]

theorem ofEntries_eq (h : Map.Unique m) : ofEntries m = m := by
  induction m using List.reverseRecOn with
  | nil => rfl
  | append_singleton m e ih =>
    have hboth : (m.map Prod.fst ++ [e.1]).Nodup := by simpa [Map.Unique] using h
    obtain ⟨hm, -, hnew⟩ := List.nodup_append.mp hboth
    have hold : ofEntries m = m := ih hm
    have hkey : e.1 ∉ m.map Prod.fst := fun hmem => hnew _ hmem _ (List.mem_singleton.mpr rfl) rfl
    unfold ofEntries at hold ⊢
    rw [List.foldl_append, hold]
    exact insert_new hkey

/-- An entry, if its value is read. -/
theorem readEntry_eq {tail : List Char} (depth : ℕ) (key : String)
    (hlen : (quoted key).length ≤ n + 1)
    (hvalue : readValue number n (' ' :: tail) = some (v, rest)) :
    readEntry number (n + 1) (line depth ++ (quoted key ++ ':' :: ' ' :: tail)) =
      some ((key, v), rest) := by
  have hstring := readString_tail hlen (':' :: ' ' :: tail)
  rw [readEntry, skip_line]
  simp only [quoted, List.cons_append, List.append_assoc, List.nil_append,
    skip_cons (show isSpace '"' = false from rfl)]
  simp only [hstring, skip_cons (show isSpace ':' = false from rfl), hvalue, Option.map_some,
    String.ofList_toList]

/-- What follows an item or an entry is no part of it. -/
theorem head_prettyItems :
    ∀ c ∈ (prettyItems depth vs ++ rest).head?, wordChar c = false := by
  cases vs <;> rintro c ⟨⟩ <;> rfl

theorem head_prettyEntries :
    ∀ c ∈ (prettyEntries depth m ++ rest).head?, wordChar c = false := by
  rcases m with - | ⟨⟨key, v⟩, m⟩ <;> rintro c ⟨⟩ <;> rfl

/-- A value's text begins with no white space, and with no bracket that
closes. -/
theorem skip_pretty (hn : v.NumbersIn (Numeral number)) (depth : ℕ) (rest : List Char) :
    skip (pretty depth v ++ rest) = pretty depth v ++ rest ∧
      (pretty depth v ++ rest).head? ≠ some ']' := by
  obtain ⟨c, front, hv, hspace, hne⟩ := head_pretty depth hn
  rw [hv]
  exact ⟨skip_cons hspace, fun h => hne (Option.some.inj h)⟩

mutual

/-- **A printed value is read back**, and what stands behind it is left. -/
theorem readValue_pretty : ∀ {v : Value} {n : ℕ} {text rest : List Char} (depth : ℕ),
    v.WellFormed → v.NumbersIn (Numeral number) → (pretty depth v).length ≤ n →
    skip text = pretty depth v ++ rest → (∀ c ∈ rest.head?, wordChar c = false) →
    readValue number n text = some (v, rest)
  | .null, n, text, rest, depth, _, _, hlen, hskip, hrest =>
    have hword : ∀ c ∈ "null".toList, wordChar c = true := List.all_eq_true.mp (by decide)
    readValue_word (by simp) hword hrest hlen hskip
  | .bool true, n, text, rest, depth, _, _, hlen, hskip, hrest =>
    have hword : ∀ c ∈ "true".toList, wordChar c = true := List.all_eq_true.mp (by decide)
    readValue_word (by simp) hword hrest hlen hskip
  | .bool false, n, text, rest, depth, _, _, hlen, hskip, hrest =>
    have hword : ∀ c ∈ "false".toList, wordChar c = true := List.all_eq_true.mp (by decide)
    readValue_word (by simp) hword hrest hlen hskip
  | .number word, n, text, rest, depth, _, hn, hlen, hskip, hrest => by
    have hn : Numeral number word := hn
    rw [readValue_word hn.nonempty hn.word hrest hlen hskip, hn.plain, String.ofList_toList]
    exact if_pos hn.number
  | .string s, 0, text, rest, depth, _, _, hlen, _, _ => absurd hlen (by simp [pretty, quoted])
  | .string s, n + 1, text, rest, depth, _, _, hlen, hskip, _ => by
    have hstring := readString_tail hlen rest
    rw [readValue, hskip]
    simp only [pretty, quoted, List.cons_append, List.append_assoc, List.nil_append]
    simp only [hstring, Option.map_some, String.ofList_toList]
  | .array vs, 0, text, rest, depth, _, _, hlen, _, _ => by cases vs <;> simp [pretty] at hlen
  | .array [], n + 1, text, rest, depth, _, _, _, hskip, _ => by
    rw [readValue, hskip]
    rfl
  | .array (v :: vs), n + 1, text, rest, depth, ⟨hv, hvs⟩, ⟨hnv, hnvs⟩, hlen, hskip, _ => by
    simp only [pretty, List.length_cons, List.length_append] at hlen
    obtain ⟨hfront, hopen⟩ := skip_pretty hnv (depth + 1) (prettyItems depth vs ++ rest)
    rw [← skip_line (depth + 1)] at hfront
    have hvalue := readValue_pretty (n := n) (depth + 1) hv hnv (by omega) hfront head_prettyItems
    have hitems := readItems_pretty (n := n) depth rest hvs hnvs (by omega)
    rw [readValue, hskip]
    simp only [pretty, List.cons_append, List.append_assoc]
    rw [if_neg (by rw [hfront]; exact hopen), hvalue]
    simp only [hitems, Option.map_some]
  | .object m, 0, text, rest, depth, _, _, hlen, _, _ => by
    rcases m with - | ⟨⟨key, v⟩, m⟩ <;> simp [pretty] at hlen
  | .object [], n + 1, text, rest, depth, _, _, _, hskip, _ => by
    rw [readValue, hskip]
    rfl
  | .object ((key, v) :: m), 1, text, rest, depth, _, _, hlen, _, _ => by
    simp [pretty, quoted] at hlen
  | .object ((key, v) :: m), n + 2, text, rest, depth, ⟨hu, hv, hm⟩, ⟨hnv, hnm⟩, hlen, hskip,
      _ => by
    simp only [pretty, List.length_cons, List.length_append] at hlen
    obtain ⟨hfront, -⟩ := skip_pretty hnv (depth + 1) (prettyEntries depth m ++ rest)
    have hvalue : readValue number n (' ' :: (pretty (depth + 1) v ++
        (prettyEntries depth m ++ rest))) = some (v, prettyEntries depth m ++ rest) :=
      readValue_pretty (depth + 1) hv hnv (by omega) hfront head_prettyEntries
    have hentry := readEntry_eq (depth + 1) key (by omega) hvalue
    have hentries := readEntries_pretty (n := n + 1) depth rest hm hnm (by omega)
    rw [readValue, hskip]
    simp only [pretty, List.cons_append, List.append_assoc]
    rw [if_neg (by rw [skip_line]; exact nofun), hentry]
    simp only [hentries, Option.map_some, ofEntries_eq hu]

theorem readItems_pretty : ∀ {vs : List Value} {n : ℕ} (depth : ℕ) (rest : List Char),
    allWellFormed vs → allNumbersIn (Numeral number) vs → (prettyItems depth vs).length ≤ n →
    readItems number n (prettyItems depth vs ++ rest) = some (vs, rest)
  | vs, 0, depth, rest, _, _, hlen => by cases vs <;> simp [prettyItems, line] at hlen
  | [], n + 1, depth, rest, _, _, _ => by
    rw [readItems, prettyItems, List.append_assoc, skip_line]
    rfl
  | v :: vs, n + 1, depth, rest, ⟨hv, hvs⟩, ⟨hnv, hnvs⟩, hlen => by
    simp only [prettyItems, List.length_cons, List.length_append] at hlen
    obtain ⟨hfront, -⟩ := skip_pretty hnv (depth + 1) (prettyItems depth vs ++ rest)
    rw [← skip_line (depth + 1)] at hfront
    have hvalue := readValue_pretty (n := n) (depth + 1) hv hnv (by omega) hfront head_prettyItems
    have hitems := readItems_pretty (n := n) depth rest hvs hnvs (by omega)
    rw [readItems]
    simp only [prettyItems, List.cons_append, List.append_assoc,
      skip_cons (show isSpace ',' = false from rfl), hvalue, hitems, Option.map_some]

theorem readEntries_pretty : ∀ {m : Map} {n : ℕ} (depth : ℕ) (rest : List Char),
    entriesWellFormed m → entriesNumbersIn (Numeral number) m →
    (prettyEntries depth m).length ≤ n →
    readEntries number n (prettyEntries depth m ++ rest) = some (m, rest)
  | m, 0, depth, rest, _, _, hlen => by
    rcases m with - | ⟨⟨key, v⟩, m⟩ <;> simp [prettyEntries, line] at hlen
  | [], n + 1, depth, rest, _, _, _ => by
    rw [readEntries, prettyEntries, List.append_assoc, skip_line]
    rfl
  | (key, v) :: m, 1, depth, rest, _, _, hlen => by
    simp [prettyEntries, quoted] at hlen
  | (key, v) :: m, n + 2, depth, rest, ⟨hv, hm⟩, ⟨hnv, hnm⟩, hlen => by
    simp only [prettyEntries, List.length_cons, List.length_append] at hlen
    obtain ⟨hfront, -⟩ := skip_pretty hnv (depth + 1) (prettyEntries depth m ++ rest)
    have hvalue : readValue number n (' ' :: (pretty (depth + 1) v ++
        (prettyEntries depth m ++ rest))) = some (v, prettyEntries depth m ++ rest) :=
      readValue_pretty (depth + 1) hv hnv (by omega) hfront head_prettyEntries
    have hentry := readEntry_eq (depth + 1) key (by omega) hvalue
    have hentries := readEntries_pretty (n := n + 1) depth rest hm hnm (by omega)
    rw [readEntries]
    simp only [prettyEntries, List.cons_append, List.append_assoc,
      skip_cons (show isSpace ',' = false from rfl), hentry, hentries, Option.map_some]

end

/-- **What is printed is read**, with a line feed behind it or none. -/
theorem read_pretty (hv : v.WellFormed) (hn : v.NumbersIn (Numeral number))
    (hrest : rest = [] ∨ rest = ['\n']) : read number (pretty 0 v ++ rest) = some v := by
  have hvalue : readValue number ((pretty 0 v ++ rest).length + 1) (pretty 0 v ++ rest) =
      some (v, rest) := by
    refine readValue_pretty 0 hv hn ?_ (skip_pretty hn 0 rest).1 ?_
    · rw [List.length_append]
      omega
    · rcases hrest with rfl | rfl <;> rintro c ⟨⟩
      rfl
  rw [read, hvalue]
  exact if_pos (by rcases hrest with rfl | rfl <;> rfl)

/-! ## What is read -/

/-- No key twice, and no numbers but those that are printed. -/
def Sound (number : List Char → Bool) (v : Value) : Prop :=
  v.WellFormed ∧ v.NumbersIn (Numeral number)

theorem sound_array (h : ∀ v ∈ vs, Sound number v) : Sound number (.array vs) := by
  induction vs with
  | nil => exact ⟨trivial, trivial⟩
  | cons v vs ih =>
    obtain ⟨hv, hvs⟩ := List.forall_mem_cons.mp h
    exact ⟨⟨hv.1, (ih hvs).1⟩, hv.2, (ih hvs).2⟩

theorem mem_insert {key : String} (h : e ∈ Map.insert m key v) : e ∈ m ∨ e.2 = v := by
  induction m with
  | nil => exact .inr (by simp [List.mem_singleton.mp h])
  | cons e' m ih =>
    obtain ⟨k, w⟩ := e'
    rw [Map.insert] at h
    split at h
    · rcases List.mem_cons.mp h with rfl | h
      · exact .inr rfl
      · exact .inl (List.mem_cons_of_mem _ h)
    · rcases List.mem_cons.mp h with rfl | h
      · exact .inl List.mem_cons_self
      · exact (ih h).imp (List.mem_cons_of_mem _) id

/-- The object of sound entries. -/
theorem sound_ofEntries (h : ∀ e ∈ m, Sound number e.2) : Sound number (.object (ofEntries m)) := by
  suffices hall : Map.Unique (ofEntries m) ∧ ∀ e ∈ ofEntries m, Sound number e.2 from
    ⟨⟨hall.1, entriesWellFormed_iff.mpr fun e he => (hall.2 e he).1⟩,
      entriesNumbersIn_iff.mpr fun e he => (hall.2 e he).2⟩
  induction m using List.reverseRecOn with
  | nil => exact ⟨List.nodup_nil, nofun⟩
  | append_singleton m e ih =>
    obtain ⟨hu, hall⟩ := ih fun e he => h e (List.mem_append_left _ he)
    unfold ofEntries at hu hall ⊢
    rw [List.foldl_append]
    refine ⟨hu.insert, fun e' he' => ?_⟩
    rcases mem_insert he' with he' | he'
    · exact hall e' he'
    · exact he' ▸ h e (by simp)

theorem sound_word (h : readWord number text = some (v, rest)) : Sound number v := by
  unfold readWord at h
  dsimp only at h
  split at h
  · rename_i w hw
    obtain ⟨rfl, -⟩ := Prod.mk.inj (Option.some.inj h)
    unfold constant at hw
    split at hw <;> first | obtain rfl := Option.some.inj hw | cases hw
    all_goals exact ⟨trivial, trivial⟩
  · rename_i hplain
    split at h
    · rename_i hnumber
      obtain ⟨rfl, -⟩ := Prod.mk.inj (Option.some.inj h)
      refine ⟨trivial, ?_⟩
      constructor <;> rw [String.toList_ofList]
      · exact hnumber.1
      · exact fun c hc => List.mem_takeWhile_imp hc
      · exact hplain
      · exact hnumber.2
    · cases h

/-- With so much fuel, what is read is sound. -/
structure SoundReads (number : List Char → Bool) (n : ℕ) : Prop where
  value : ∀ text v rest, readValue number n text = some (v, rest) → Sound number v
  items : ∀ text vs rest, readItems number n text = some (vs, rest) → ∀ v ∈ vs, Sound number v
  entry : ∀ text e rest, readEntry number n text = some (e, rest) → Sound number e.2
  entries : ∀ text m rest, readEntries number n text = some (m, rest) →
    ∀ e ∈ m, Sound number e.2

theorem SoundReads.value_succ (ih : SoundReads number n)
    (h : readValue number (n + 1) text = some (v, rest)) : Sound number v := by
  rw [readValue] at h
  split at h
  · obtain ⟨read, -, hread⟩ := Option.map_eq_some_iff.mp h
    obtain ⟨rfl, -⟩ := Prod.mk.inj hread
    exact ⟨trivial, trivial⟩
  · split at h
    · obtain ⟨rfl, -⟩ := Prod.mk.inj (Option.some.inj h)
      exact ⟨trivial, trivial⟩
    · split at h
      · rename_i w back hw
        obtain ⟨read, hitems, hread⟩ := Option.map_eq_some_iff.mp h
        obtain ⟨rfl, -⟩ := Prod.mk.inj hread
        exact sound_array (List.forall_mem_cons.mpr ⟨ih.value _ _ _ hw, ih.items _ _ _ hitems⟩)
      · cases h
  · split at h
    · obtain ⟨rfl, -⟩ := Prod.mk.inj (Option.some.inj h)
      exact sound_ofEntries (m := []) nofun
    · split at h
      · rename_i e back he
        obtain ⟨read, hentries, hread⟩ := Option.map_eq_some_iff.mp h
        obtain ⟨rfl, -⟩ := Prod.mk.inj hread
        exact sound_ofEntries (List.forall_mem_cons.mpr
          ⟨ih.entry _ _ _ he, ih.entries _ _ _ hentries⟩)
      · cases h
  · exact sound_word h

theorem SoundReads.items_succ (ih : SoundReads number n)
    (h : readItems number (n + 1) text = some (vs, rest)) : ∀ v ∈ vs, Sound number v := by
  rw [readItems] at h
  split at h
  · obtain ⟨rfl, -⟩ := Prod.mk.inj (Option.some.inj h)
    exact nofun
  · split at h
    · rename_i w back hw
      obtain ⟨read, hitems, hread⟩ := Option.map_eq_some_iff.mp h
      obtain ⟨rfl, -⟩ := Prod.mk.inj hread
      exact List.forall_mem_cons.mpr ⟨ih.value _ _ _ hw, ih.items _ _ _ hitems⟩
    · cases h
  · cases h

theorem SoundReads.entry_succ (ih : SoundReads number n)
    (h : readEntry number (n + 1) text = some (e, rest)) : Sound number e.2 := by
  rw [readEntry] at h
  split at h
  · split at h
    · split at h
      · obtain ⟨read, hvalue, hread⟩ := Option.map_eq_some_iff.mp h
        obtain ⟨rfl, -⟩ := Prod.mk.inj hread
        exact ih.value _ _ _ hvalue
      · cases h
    · cases h
  · cases h

theorem SoundReads.entries_succ (ih : SoundReads number n)
    (h : readEntries number (n + 1) text = some (m, rest)) : ∀ e ∈ m, Sound number e.2 := by
  rw [readEntries] at h
  split at h
  · obtain ⟨rfl, -⟩ := Prod.mk.inj (Option.some.inj h)
    exact nofun
  · split at h
    · rename_i e back he
      obtain ⟨read, hentries, hread⟩ := Option.map_eq_some_iff.mp h
      obtain ⟨rfl, -⟩ := Prod.mk.inj hread
      exact List.forall_mem_cons.mpr ⟨ih.entry _ _ _ he, ih.entries _ _ _ hentries⟩
    · cases h
  · cases h

theorem soundReads (number : List Char → Bool) (n : ℕ) : SoundReads number n := by
  induction n with
  | zero => exact ⟨nofun, nofun, nofun, nofun⟩
  | succ n ih =>
    exact ⟨fun _ _ _ => ih.value_succ, fun _ _ _ => ih.items_succ, fun _ _ _ => ih.entry_succ,
      fun _ _ _ => ih.entries_succ⟩

/-- **What is read is sound.** -/
theorem sound_of_read (h : read number text = some v) : Sound number v := by
  unfold read at h
  split at h
  · rename_i w rest hread
    split at h
    · exact Option.some.inj h ▸ (soundReads number _).value _ _ _ hread
    · cases h
  · cases h

end Read

end Json
