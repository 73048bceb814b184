import Willie.Supervisor.Ending

/-!
# Supervisor — every refusal is in the log

A refusal that was recorded is in the log, or its line is owed to it, or it is
still folded in the tally. The flush of the exit leaves nothing folded; what
is recorded after it is to be reported at once.
-/

namespace Willie
namespace Supervisor

open Sessions (SessionEvent SessionEventKind Report reported Tally)

variable {s s' : Shared} {id : ℕ} {cont : List Op} {op : Op} {i : In} {m m' : State}
  {turn : ℕ × In} {log : List SessionEvent} {cls name : String}

/-- What the log says of one thing. -/
def refused (cls name : String) (log : List SessionEvent) : ℕ :=
  ((Sessions.refusals cls name log).map Prod.snd).sum

/-- What a line still owed to the log says of it. -/
def Op.reports (cls name : String) : Op → ℕ
  | .append (.sandboxDenied c n count) => if (c, n) = (cls, name) then count else 0
  | _ => 0

/-- A refusal's line is owed to the log. -/
def Op.denies : Op → Bool
  | .append (.sandboxDenied ..) => true
  | _ => false

theorem refused_append {at_ : String} {k : SessionEventKind} :
    refused cls name (log ++ [⟨at_, k⟩]) =
      refused cls name log + Op.reports cls name (.append k) := by
  have hone : refused cls name [⟨at_, k⟩] = Op.reports cls name (.append k) := by
    cases k with
    | sandboxDenied c n count =>
      have hrefusal : Sessions.SessionEvent.refusal cls name ⟨at_, .sandboxDenied c n count⟩ =
          if (c, n) = (cls, name) then some (at_, count) else none := rfl
      rw [refused, Sessions.refusals, List.filterMap_cons, hrefusal, Op.reports]
      by_cases h : (c, n) = (cls, name)
      · rw [if_pos h, if_pos h]
        rfl
      · rw [if_neg h, if_neg h]
        rfl
    | _ => rfl
  rw [← hone]
  simp [refused, Sessions.refusals]

theorem sum_reports {rs : List Report} :
    ((rs.map fun r => Op.append (denied r)).map (Op.reports cls name)).sum =
      reported cls name rs := by
  induction rs with
  | nil => rfl
  | cons r rs ih =>
    have hcons : reported cls name (r :: rs) = reported cls name [r] + reported cls name rs :=
      @Sessions.reported_append cls name [r] rs
    rw [hcons, Sessions.reported_single, List.map_cons, List.map_cons, List.sum_cons, ih]
    rfl

theorem reports_eq_zero (h : op.denies = false) : op.reports cls name = 0 := by
  cases op with
  | append k =>
    cases k with
    | sandboxDenied => cases h
    | _ => rfl
  | _ => rfl

theorem sum_reports_eq_zero (h : ∀ o ∈ cont, o.denies = false) :
    (cont.map (Op.reports cls name)).sum = 0 :=
  Threads.sum_eq_zero fun o ho => reports_eq_zero (h o ho)

/-- **What an operation does to the tally**, and which refusals it leaves to
be logged. -/
inductive Counts (s s' : Shared) (cont : List Op) : Op → In → Prop
  | record {cls name : String} {now : ℕ} (htally : s'.tally = (s.tally.record now cls name).1)
    (hcalls : s'.calls = s.calls ++ [(cls, name)]) (hlog : s'.log = s.log) (hm : s'.main = s.main)
    (hcont : cont = (s.tally.record now cls name).2.toList.map fun r => .append (denied r)) :
    Counts s s' cont (.record cls name) (.now now)
  | flush {now : ℕ} {code signal : Option Int} (hm' : s'.main = .setExited code signal)
    (htally : s'.tally = (s.tally.flush now).1) (hcalls : s'.calls = s.calls)
    (hlog : s'.log = s.log)
    (hcont : cont = (s.tally.flush now).2.map (fun r => .append (denied r)) ++ [.main]) :
    Counts s s' cont .main (.now now)
  | other {op : Op} {i : In} (htally : s'.tally = s.tally) (hcalls : s'.calls = s.calls)
    (hm : s'.main.flushed = s.main.flushed) (hcont : ∀ o ∈ cont, o.denies = false) :
    Counts s s' cont op i

theorem counts_of_run (h : run op i s = some (s', cont)) : Counts s s' cont op i := by
  cases step_of_run h with
  | main h =>
    generalize hm : s.main = main at h
    cases h with
    | read =>
      refine .other rfl rfl ?_ (by grind [Op.denies])
      rw [hm]
      dsimp only
      split <;> rfl
    | flush => exact .flush rfl rfl rfl rfl rfl
    | drain => exact .other rfl rfl (by rw [hm]) (by grind [Op.denies])
    | _ => exact .other rfl rfl (by rw [hm]; rfl) (by grind [Op.denies])
  | client h =>
    have hrest := h.own.rest
    refine .other (by rw [hrest]) (by rw [hrest]) (by rw [hrest]) ?_
    clear hrest
    generalize s.stage _ = st at h
    cases h <;> grind [Op.denies]
  | record => exact .record rfl rfl rfl rfl rfl
  | _ => exact .other rfl rfl rfl (by grind [Op.denies])

/-- **Every refusal is somewhere**; and once the tally is flushed for the exit
nothing stays folded in it. -/
structure Tallied (m : State) : Prop where
  conserves : ∀ cls name, refused cls name m.shared.log + m.load (Op.reports cls name) +
    m.shared.tally.held cls name = m.shared.calls.count (cls, name)
  held : m.shared.main.flushed = true → ∀ cls name, m.shared.tally.held cls name = 0

theorem Main.flushed_of_exitLogged {main : Main} (h : main.exitLogged = true) :
    main.flushed = true := by
  cases main with
  | readCause | take | close | unlink | drain | shutDown | done => rfl
  | _ => cases h

/-- A call that is reported at once leaves nothing folded. -/
theorem record_held {t : Tally} {now : ℕ} {r : Report} {c n : String}
    (hheld : ∀ cls name, t.held cls name = 0) (hr : (t.record now c n).2 = some r) :
    (t.record now c n).1.held cls name = 0 := by
  have hkey := Sessions.key_of_record hr
  have hpos := Sessions.record_pos hr
  obtain ⟨rc, rn, count⟩ := r
  obtain ⟨hc, hn⟩ := Prod.mk.inj hkey
  dsimp only at hc hn hpos
  subst hc hn
  have hsum := Sessions.record_conserves t now rc rn cls name
  simp only [hr, Option.toList_some, Sessions.reported_single, hheld] at hsum
  split at hsum <;> omega

theorem Tallied.conserves_step (ht : Tallied m) {pre post : List Op}
    (hrun : run op i m.shared = some (m'.shared, cont)) (hold : m.pending = pre ++ op :: post)
    (hnew : m'.pending = pre ++ (cont ++ post)) (hok : op.prompt m i = true) (cls name : String) :
    refused cls name m'.shared.log + m'.load (Op.reports cls name) +
      m'.shared.tally.held cls name = m'.shared.calls.count (cls, name) := by
  have hload := Threads.load_step (f := Op.reports cls name) hold hnew
  have hwas := ht.conserves cls name
  cases counts_of_run hrun with
  | @record c n now htally hcalls hlog hm hcont =>
    have hrec := Sessions.record_conserves m.shared.tally now c n cls name
    have hop : Op.reports cls name (.record c n) = 0 := rfl
    rw [hcont, sum_reports] at hload
    rw [hlog, htally, hcalls, List.count_append, List.count_singleton]
    simp only [beq_iff_eq]
    omega
  | @flush now code signal hm' htally hcalls hlog hcont =>
    have hflush := Sessions.flush_conserves m.shared.tally now cls name
    have hzero := Sessions.flush_held m.shared.tally now cls name
    have hop : Op.reports cls name .main = 0 := rfl
    rw [hcont, List.map_append, List.sum_append, sum_reports] at hload
    have hlast : (List.map (Op.reports cls name) [.main]).sum = 0 := rfl
    rw [hlog, htally, hcalls]
    omega
  | other htally hcalls hm hcont =>
    rw [sum_reports_eq_zero hcont] at hload
    rw [htally, hcalls]
    cases logs_of_run hrun with
    | @line op at_ ok kind rest hkind hlog htold hcont' hrest =>
      have hwritten : ok = true := by
        rcases hkind with rfl | ⟨rfl, -⟩
        · exact (Bool.and_eq_true_iff.mp hok).1
        · exact hok
      have hop : Op.reports cls name op = Op.reports cls name (.append kind) := by
        rcases hkind with rfl | ⟨rfl, code, signal, -, rfl⟩ <;> rfl
      rw [hlog, hwritten, if_pos rfl, refused_append]
      omega
    | @fanOut line ev refused hs hc =>
      have hlog : m'.shared.log = m.shared.log := by rw [hs]; rfl
      have hop : Op.reports cls name (.fanOut line ev) = 0 := rfl
      rw [hlog]
      omega
    | other hlog htold hop' happ hcont' =>
      have hop : Op.reports cls name op = 0 := by
        cases op with
        | append k => exact absurd rfl (happ k)
        | _ => rfl
      rw [hlog]
      omega

theorem Tallied.step (ht : Tallied m) (hok : Prompt m turn) (h : step m turn = some m') :
    Tallied m' := by
  obtain ⟨op, cont, pre, post, hnext, hrun, hold, hnew⟩ := Threads.step_pending h
  have hop := hok op hnext
  refine ⟨fun cls name => ht.conserves_step hrun hold hnew hop cls name, fun hf cls name => ?_⟩
  generalize turn.2 = i at hrun hop
  cases counts_of_run hrun with
  | @record c n now htally hcalls hlog hm hcont =>
    obtain ⟨r, hr⟩ := Option.isSome_iff_exists.mp
      ((Bool.or_eq_true_iff.mp hop).resolve_left (by rw [← hm, hf]; decide))
    rw [htally]
    exact record_held (ht.held (hm ▸ hf)) hr
  | flush hm' htally =>
    rw [htally]
    exact Sessions.flush_held ..
  | other htally hcalls hm hcont =>
    rw [htally]
    exact ht.held (hm ▸ hf) cls name

end Supervisor
end Willie
