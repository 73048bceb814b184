import Mathlib.Data.Nat.Notation
import Mathlib.Data.List.Infix

/-!
# Where a JSON text closes

A JSON text is one value: its strings are closed, its brackets are matched,
and behind it is nothing but white space. That much of the grammar is read
off by a scan (`scan`), which a parser's texts all pass (`Closed`). The text
of an object is open until its last symbol (`object_open`), so what was cut
off one is no text, and neither is that with an object behind it
(`not_closed_append`).
-/

namespace JsonText

/-- Where a scan is: outside strings or in one, so many brackets deep, behind
the value, or where no text leads. -/
inductive Place where
  | outside (depth : ℕ)
  | inside (depth : ℕ)
  /-- Behind a backslash in a string. -/
  | escaped (depth : ℕ)
  | behind
  | wrong
  deriving DecidableEq, Repr

/-- The white space of JSON. -/
def isSpace (c : Char) : Bool := c == ' ' || c == '\n' || c == '\t' || c == '\r'

/-- A bracket closes. -/
def close : ℕ → Place
  | 0 => .wrong
  | 1 => .behind
  | depth + 2 => .outside (depth + 1)

def Place.step : Place → Char → Place
  | .outside depth, c =>
    if c = '"' then .inside depth
    else if c = '{' ∨ c = '[' then .outside (depth + 1)
    else if c = '}' ∨ c = ']' then close depth
    else if c = '\\' then .wrong
    else .outside depth
  | .inside depth, c =>
    if c = '"' then .outside depth else if c = '\\' then .escaped depth else .inside depth
  | .escaped depth, _ => .inside depth
  | .behind, c => if isSpace c then .behind else .wrong
  | .wrong, _ => .wrong

def scan (p : Place) (text : List Char) : Place := text.foldl .step p

/-- The text may be one value's. A number or a word has no brackets. -/
def Closed (text : List Char) : Prop :=
  scan (.outside 0) text = .behind ∨ scan (.outside 0) text = .outside 0

instance (text : List Char) : Decidable (Closed text) := inferInstanceAs (Decidable (_ ∨ _))

/-- The text of an object. -/
structure IsObject (text : List Char) : Prop where
  opens : text.head? = some '{'
  closes : text.getLast? = some '}'
  closed : Closed text

variable {p q : Place} {text pre u v : List Char} {c : Char} {depth k : ℕ}

@[simp] theorem scan_cons : scan p (c :: text) = scan (p.step c) text := rfl

theorem scan_append : scan p (u ++ v) = scan (scan p u) v := List.foldl_append

@[simp] theorem scan_wrong : scan .wrong text = .wrong := by
  induction text with
  | nil => rfl
  | cons c text ih => exact ih

/-! ## An object is open until its last symbol -/

/-- Inside the brackets of an object. -/
def Place.deep : Place → Prop
  | .outside depth | .inside depth | .escaped depth => 0 < depth
  | .behind | .wrong => False

theorem Place.deep.depth_eq (h : (Place.outside depth).deep) : ∃ n, depth = n + 1 :=
  Nat.exists_eq_succ_of_ne_zero (Nat.ne_of_gt h)

/-- From inside, the scan stays there, ends or goes wrong. -/
theorem Place.deep.step (h : p.deep) (c : Char) :
    (p.step c).deep ∨ p.step c = .behind ∨ p.step c = .wrong := by
  cases p with
  | outside depth =>
    obtain ⟨n, rfl⟩ := h.depth_eq
    simp only [Place.step]
    split_ifs
    · exact .inl (Nat.succ_pos n)
    · exact .inl (Nat.succ_pos _)
    · cases n with
      | zero => exact .inr (.inl rfl)
      | succ n => exact .inl (Nat.succ_pos n)
    · exact .inr (.inr rfl)
    · exact .inl (Nat.succ_pos n)
  | inside depth =>
    simp only [Place.step]
    split_ifs <;> exact .inl h
  | escaped depth => exact .inl h
  | behind => exact h.elim
  | wrong => exact h.elim

theorem scan_behind (h : scan .behind text ≠ .wrong) : ∀ c ∈ text, isSpace c = true := by
  induction text with
  | nil => simp
  | cons c text ih =>
    rw [scan_cons] at h
    by_cases hc : isSpace c = true
    · have hstep : Place.behind.step c = .behind := if_pos hc
      rw [hstep] at h
      exact List.forall_mem_cons.mpr ⟨hc, ih h⟩
    · have hstep : Place.behind.step c = .wrong := if_neg hc
      rw [hstep, scan_wrong] at h
      exact absurd rfl h

/-- From inside a bracket to a place that is not wrong, ending in a bracket:
the way there is inside. -/
theorem deep_of_scan (h : p.deep) (hend : (u ++ v).getLast? = some '}') (hne : v ≠ [])
    (hright : scan p (u ++ v) ≠ .wrong) : (scan p u).deep := by
  induction u generalizing p with
  | nil => exact h
  | cons c u ih =>
    have hlast : (u ++ v).getLast? = some '}' := by
      rw [List.cons_append, List.getLast?_cons] at hend
      have hne' : u ++ v ≠ [] := List.append_ne_nil_of_right_ne_nil u hne
      rw [List.getLast?_eq_some_getLast hne', Option.getD_some] at hend
      rw [List.getLast?_eq_some_getLast hne']
      exact hend
    rw [List.cons_append, scan_cons] at hright
    rcases h.step c with hdeep | hbehind | hwrong
    · exact ih hdeep hlast hright
    · -- only white space can follow, and the last symbol is none
      rw [hbehind] at hright
      have hspace := scan_behind hright '}' (List.mem_of_getLast? hlast)
      exact absurd hspace (by decide)
    · rw [hwrong, scan_wrong] at hright
      exact absurd rfl hright

theorem IsObject.ne_nil (h : IsObject text) : text ≠ [] := by
  rintro rfl
  exact absurd h.opens nofun

theorem IsObject.tail (h : IsObject text) :
    ∃ rest, text = '{' :: rest ∧ rest.getLast? = some '}' ∧ scan (.outside 1) rest ≠ .wrong := by
  obtain ⟨rest, rfl⟩ : ∃ rest, text = '{' :: rest := by
    cases text with
    | nil => exact absurd h.opens (by simp)
    | cons c rest => exact ⟨rest, by rw [Option.some.inj h.opens]⟩
  refine ⟨rest, rfl, ?_, ?_⟩
  · have hcloses := h.closes
    rw [List.getLast?_cons] at hcloses
    cases hrest : rest.getLast? with
    | none => rw [hrest] at hcloses; exact absurd hcloses (by decide)
    | some c => rw [hrest] at hcloses; exact hcloses
  · intro hwrong
    rcases h.closed with hclosed | hclosed <;>
    · rw [scan_cons] at hclosed
      exact absurd (hwrong.symm.trans hclosed) nofun

/-- **An object is open** wherever it is cut. -/
theorem object_open (h : IsObject (u ++ v)) (hu : u ≠ []) (hv : v ≠ []) :
    (scan (.outside 0) u).deep := by
  obtain ⟨rest, hrest, hlast, hright⟩ := h.tail
  cases u with
  | nil => exact absurd rfl hu
  | cons c u =>
    rw [List.cons_append] at hrest
    obtain ⟨rfl, rfl⟩ := List.cons.inj hrest
    exact deep_of_scan (p := .outside 1) Nat.one_pos hlast hv hright

theorem scan_object (h : IsObject text) : scan (.outside 0) text = .behind := by
  obtain ⟨rest, rfl, hlast, hright⟩ := h.tail
  rcases h.closed with hclosed | hclosed
  · exact hclosed
  · exfalso
    -- a bracket that is open at the last symbol closes with it
    obtain ⟨u, hu⟩ := List.getLast?_eq_some_iff.mp hlast
    have hdeep : (scan (.outside 1) u).deep :=
      deep_of_scan (v := ['}']) Nat.one_pos (by rw [← hu]; exact hlast) (by simp) (by rwa [← hu])
    rw [scan_cons] at hclosed
    have hend : (scan (.outside 1) u).step '}' = .outside 0 := by
      rw [hu, scan_append] at hclosed
      exact hclosed
    cases hp : scan (.outside 1) u with
    | outside depth =>
      rw [hp] at hend hdeep
      obtain ⟨n, rfl⟩ := hdeep.depth_eq
      cases n <;> simp [Place.step, close] at hend
    | inside depth => rw [hp] at hend; simp [Place.step] at hend
    | escaped depth => rw [hp] at hend; simp [Place.step] at hend
    | behind => rw [hp] at hdeep; exact hdeep
    | wrong => rw [hp] at hdeep; exact hdeep

/-! ## An object behind what was cut off one -/

/-- A place of an object, inside `n` more brackets. -/
def Place.lift (n : ℕ) : Place → Place
  | .outside depth => .outside (depth + n)
  | .inside depth => .inside (depth + n)
  | .escaped depth => .escaped (depth + n)
  | .behind => .outside n
  | .wrong => .wrong

theorem Place.deep.step_lift {n : ℕ} (h : p.deep) (hn : 0 < n) (c : Char) :
    (p.lift n).step c = (p.step c).lift n := by
  cases p with
  | outside depth =>
    obtain ⟨d, rfl⟩ := h.depth_eq
    obtain ⟨n, rfl⟩ := Nat.exists_eq_succ_of_ne_zero (Nat.ne_of_gt hn)
    have hclose : close (d + 1 + (n + 1)) = (close (d + 1)).lift (n + 1) := by
      cases d with
      | zero =>
        have hsum : 0 + 1 + (n + 1) = n + 2 := by omega
        rw [hsum]
        rfl
      | succ d =>
        have hsum : d + 1 + 1 + (n + 1) = d + 1 + n + 2 := by omega
        rw [hsum]
        exact congrArg Place.outside (by omega)
    simp only [Place.lift, Place.step]
    split_ifs
    · rfl
    · exact congrArg Place.outside (by omega)
    · exact hclose
    · rfl
    · rfl
  | inside depth =>
    simp only [Place.lift, Place.step]
    split_ifs <;> rfl
  | escaped depth => rfl
  | behind => exact h.elim
  | wrong => exact h.elim

theorem scan_lift {n : ℕ} (hn : 0 < n) (h : ∀ u, u <+: text → (scan p u).deep) :
    scan (p.lift n) text = (scan p text).lift n := by
  induction text generalizing p with
  | nil => rfl
  | cons c text ih =>
    have hdeep : p.deep := h [] (List.nil_prefix)
    rw [scan_cons, hdeep.step_lift hn, scan_cons]
    exact ih fun u hu => h (c :: u) (List.cons_prefix_cons.mpr ⟨rfl, hu⟩)

/-- **An object inside brackets** leaves them as they are. -/
theorem scan_object_inside (h : IsObject text) (hpos : 0 < depth) :
    scan (.outside depth) text = .outside depth := by
  have hbehind := scan_object h
  obtain ⟨rest, rfl, hlast, hright⟩ := h.tail
  obtain ⟨u, rfl⟩ := List.getLast?_eq_some_iff.mp hlast
  have hdeep : ∀ u', u' <+: u → (scan (.outside 1) u').deep := by
    rintro u' ⟨v, rfl⟩
    rw [List.append_assoc] at hlast hright
    exact deep_of_scan (p := .outside 1) Nat.one_pos hlast (by simp) hright
  have hlift := scan_lift (p := .outside 1) hpos hdeep
  have hend : (scan (.outside 1) u).step '}' = .behind := by
    rw [scan_cons, scan_append] at hbehind
    exact hbehind
  have hstep := (hdeep u List.prefix_rfl).step_lift hpos '}'
  have hopen : Place.step (.outside depth) '{' = (Place.outside 1).lift depth :=
    congrArg Place.outside (Nat.add_comm ..)
  rw [scan_cons, scan_append, hopen, hlift]
  show ((scan (.outside 1) u).lift depth).step '}' = .outside depth
  rw [hstep, hend]
  rfl

/-- One scan is in strings where the other is not, or has gone wrong. -/
def Opposed : Place → Place → Prop
  | .outside _, .inside _ | .outside _, .wrong => True
  | .inside _, .outside _ | .inside _, .behind | .inside _, .wrong => True
  | .escaped _, .wrong => True
  | .behind, .inside _ | .behind, .wrong => True
  | _, _ => False

theorem opposed_close (h : close depth ≠ .wrong) (q : Place)
    (hq : q = .wrong ∨ ∃ k, q = .inside k) :
    Opposed (close depth) q := by
  obtain _ | _ | depth := depth
  · exact absurd rfl h
  · rcases hq with rfl | ⟨k, rfl⟩ <;> trivial
  · rcases hq with rfl | ⟨k, rfl⟩ <;> trivial

theorem Opposed.step (h : Opposed p q) (c : Char) (hright : p.step c ≠ .wrong) :
    Opposed (p.step c) (q.step c) := by
  cases p with
  | outside depth =>
    have hq : q = .wrong ∨ ∃ k, q = .inside k := by
      cases q <;> simp_all [Opposed]
    simp only [Place.step] at hright ⊢
    split_ifs at hright ⊢ with hquote hopen hclose hback
    · rcases hq with rfl | ⟨k, rfl⟩
      · trivial
      · simp [hquote, Opposed]
    · rcases hq with rfl | ⟨k, rfl⟩
      · trivial
      · rcases hopen with rfl | rfl <;> trivial
    · refine opposed_close hright _ ?_
      rcases hq with rfl | ⟨k, rfl⟩
      · exact .inl rfl
      · rcases hclose with rfl | rfl <;> exact .inr ⟨k, rfl⟩
    · exact absurd rfl hright
    · rcases hq with rfl | ⟨k, rfl⟩
      · trivial
      · simp [hquote, hback, Opposed]
  | inside depth =>
    have hq : q = .wrong ∨ q = .behind ∨ ∃ k, q = .outside k := by
      cases q <;> simp_all [Opposed]
    simp only [Place.step] at hright ⊢
    split_ifs with hquote hback
    · subst hquote
      rcases hq with rfl | rfl | ⟨k, rfl⟩ <;> trivial
    · subst hback
      rcases hq with rfl | rfl | ⟨k, rfl⟩ <;> trivial
    · rcases hq with rfl | rfl | ⟨k, rfl⟩
      · trivial
      · show Opposed _ (if isSpace c then .behind else .wrong)
        split_ifs <;> trivial
      · simp only [if_neg hquote, if_neg hback]
        split_ifs
        · trivial
        · obtain _ | _ | k := k <;> trivial
        · trivial
  | escaped depth =>
    obtain rfl : q = .wrong := by
      cases q <;> simp_all [Opposed]
    trivial
  | behind =>
    have hq : q = .wrong ∨ ∃ k, q = .inside k := by
      cases q <;> simp_all [Opposed]
    simp only [Place.step] at hright ⊢
    split_ifs at hright ⊢ with hspace
    · rcases hq with rfl | ⟨k, rfl⟩
      · trivial
      · have hne : c ≠ '"' ∧ c ≠ '\\' := by
          constructor <;> rintro rfl <;> exact absurd hspace (by decide)
        simp [hne.1, hne.2, Opposed]
    · exact absurd rfl hright
  | wrong => exact absurd rfl hright

theorem Opposed.scan (h : Opposed p q) (hright : JsonText.scan p text ≠ .wrong) :
    Opposed (JsonText.scan p text) (JsonText.scan q text) := by
  induction text generalizing p q with
  | nil => exact h
  | cons c text ih =>
    rw [scan_cons] at hright ⊢
    refine ih (h.step c fun hwrong => ?_) hright
    rw [hwrong, scan_wrong] at hright
    exact hright rfl

/-- **What was cut off an object and has an object behind it is no text.** -/
theorem not_closed_append (hu : u ≠ []) (h : ∃ rest, IsObject (u ++ rest)) (hv : IsObject v) :
    ¬ Closed (u ++ v) := by
  obtain ⟨rest, hrest⟩ := h
  obtain ⟨tail, htail, -, -⟩ := hv.tail
  have hbehind := scan_object hv
  unfold Closed
  rw [scan_append]
  by_cases hwhole : rest = []
  · -- a whole object: nothing but white space may follow
    rw [hwhole, List.append_nil] at hrest
    rw [scan_object hrest, htail, scan_cons]
    show ¬ (scan .wrong tail = _ ∨ scan .wrong tail = _)
    simp
  · have hdeep := object_open hrest hu hwhole
    have hopposed (d : ℕ) : ¬ (scan (.inside d) v = .behind ∨ scan (.inside d) v = .outside 0) := by
      have hstart : Opposed (.outside 0) (.inside d) := trivial
      have hend := hstart.scan (show scan (.outside 0) v ≠ .wrong by rw [hbehind]; nofun)
      rw [hbehind] at hend
      rintro (hq | hq) <;> rw [hq] at hend <;> exact hend
    cases hplace : scan (.outside 0) u with
    | outside d =>
      rw [hplace] at hdeep
      rw [scan_object_inside hv hdeep]
      rintro (hq | hq)
      · cases hq
      · exact absurd (Place.outside.inj hq) (Nat.ne_of_gt hdeep)
    | inside d => exact hopposed d
    | escaped d =>
      -- the bracket of the object behind is the symbol that was escaped
      have hstart : Opposed (.outside 1) (.inside d) := trivial
      have hend := hstart.scan (show scan (.outside 1) tail ≠ .wrong by
        rw [htail, scan_cons] at hbehind
        exact hbehind ▸ nofun)
      rw [htail, scan_cons] at hbehind ⊢
      rw [show scan (.outside 1) tail = .behind from hbehind] at hend
      show ¬ (scan (.inside d) tail = _ ∨ scan (.inside d) tail = _)
      rintro (hq | hq) <;> rw [hq] at hend <;> exact hend
    | behind => rw [hplace] at hdeep; exact hdeep.elim
    | wrong => rw [hplace] at hdeep; exact hdeep.elim

/-- What was cut off an object is no text. -/
theorem not_closed_of_cut (h : IsObject (u ++ v)) (hu : u ≠ []) (hv : v ≠ []) : ¬ Closed u := by
  have hdeep := object_open h hu hv
  rintro (hq | hq) <;> rw [hq] at hdeep
  · exact hdeep
  · exact Nat.lt_irrefl 0 hdeep

end JsonText
