import Battman.PowerRuns

/-! The three comparisons of one call, each with a reading of the clock of its own: when a short
is found before the main switch closes, and when that switch stays closed. -/
namespace Battman
open Interference Prog

variable {c c' : Core} {os : Trace} {run : Run} {n : ℕ}

section Faults

variable {faults : UInt8} {fault : Fault}

theorem bit_set_or (faults : UInt8) (fault : Fault) :
    (faults ||| fault.bit) &&& fault.bit ≠ 0 := by
  have hsplit : (faults ||| fault.bit) &&& fault.bit =
      faults &&& fault.bit ||| fault.bit &&& fault.bit :=
    UInt8.toBitVec_inj.mp BitVec.and_or_distrib_right
  intro h
  rw [hsplit, UInt8.and_self] at h
  have hbit := (UInt8.or_eq_zero_iff.mp h).2
  cases fault <;> exact absurd hbit (by decide)

theorem bit_set_of_others (hothers : faults &&& ~~~fault.bit = 0) (hne : faults ≠ 0) :
    faults &&& fault.bit ≠ 0 := by
  intro hbit
  apply hne
  have hsplit : faults &&& (fault.bit ||| ~~~fault.bit) =
      faults &&& fault.bit ||| faults &&& ~~~fault.bit :=
    UInt8.toBitVec_inj.mp BitVec.and_or_distrib_left
  rw [hbit, hothers, UInt8.or_not_self, UInt8.and_neg_one] at hsplit
  exact hsplit

end Faults

section Shorted

def Run.ShortedUpTo (run : Run) (n : ℕ) : Prop :=
  ∀ m ≤ n, (run.called m).dischargeEnabled = true →
    (run.called m).dischargeVoltage < 1 / 2 ∧ 11 / 2 ≤ (run.called m).voltage

def NoOtherFault (s : Power) : Prop := s.faults &&& ~~~Fault.turnOnShort.bit = 0

def ShortSet (s : Power) : Prop := s.faults &&& Fault.turnOnShort.bit ≠ 0

/-- The call `n` does not close the main switch, and more than 8 ms after the precharge start
it sets the fault. -/
structure Run.Refuses (run : Run) (n : ℕ) : Prop where
  notClosed : ∀ o, (.mainSwitch, o) ∉ run.seen n
  fault : (run.called n).dischargeEnabled = true → NoOtherFault (run.called n) →
    run.started (n + 1) + 80 < run.calledAt n → ShortSet (run.returned n)

/-- Either the test of the time to settle finds it over, or the call comes within this time,
and the test of the timeout does not find that over. -/
def Run.ReadsInTime (run : Run) (n : ℕ) : Prop :=
  (run.called n).core.Guard → ∀ o, (.settleTest, o) ∈ run.seen n →
    8 < msOf (run.elapsed n o) ∨
      run.calledAt n ≤ run.started (n + 1) + 80 ∧
        ∀ o', (.timeoutTest, o') ∈ run.seen n →
          msOf (run.elapsed n o') ≤ o'.prechargeTimeout.toNat

theorem refuses_of_no_discharge (hg : ¬ (run.called n).core.Guard)
    (hk : keys (run.seen n) = []) (hr : (run.returned n).faults = (run.called n).faults) :
    run.Refuses n := by
  constructor
  · intro o ho
    exact List.not_mem_nil (hk ▸ (mem_keys (by decide)).mpr ho)
  · intro he hothers _
    rw [ShortSet, hr]
    exact bit_set_of_others hothers fun h => hg ⟨he, h⟩

theorem refuses_of_short {o : Sight}
    (h : run.Connects n [(.settleTest, o)] true ((run.ready n).opened.withFault .turnOnShort))
    (hr : (run.returned n).core = (run.ready n).opened.withFault .turnOnShort) :
    run.Refuses n := by
  constructor
  · intro o' ho'
    have hmem := (h.mem _ o' (by decide)).mp ho'
    simp at hmem
  · intro _ _ _
    have hf : (run.returned n).faults = (run.ready n).faults ||| Fault.turnOnShort.bit :=
      congrArg Core.faults hr
    rw [ShortSet, hf]
    exact bit_set_or _ _

theorem refuses_iff (hshort : (run.called n).dischargeEnabled = true →
    (run.called n).dischargeVoltage < 1 / 2 ∧ 11 / 2 ≤ (run.called n).voltage) :
    run.Refuses n ↔ run.ReadsInTime n := by
  cases run.outcome n with
  | noDischarge shutdown hg hk hr =>
    have hf : (run.returned n).faults = (run.called n).faults := congrArg Core.faults hr
    exact iff_of_true (refuses_of_no_discharge hg hk hf) fun h => absurd h hg
  | early os c hg h hr =>
    cases h.connected with
    | short o hs hv =>
      apply iff_of_true (refuses_of_short h hr)
      intro _ p hp
      obtain rfl : p = o := by simpa using (h.mem _ p (by decide)).mp hp
      exact Or.inl ((h.lt_elapsed List.mem_cons_self 8).mp hs)
  | late os c shutdown hg h hr =>
    obtain ⟨hlow, hbus⟩ := hshort hg.1
    cases h.connected with
    | select o hs hsel =>
      have hnot : ¬ 8 < msOf (run.elapsed n o) := by
        intro h8
        exact not_lt.mpr (hs ((h.lt_elapsed List.mem_cons_self 8).mpr h8)) hlow
      have ho := (h.mem _ o (by decide)).mpr List.mem_cons_self
      cases hsel with
      | voltage o' hv =>
        have hv' : (run.called n).voltage - 5 ≤ (run.called n).dischargeVoltage := hv
        linarith
      | timeout o' o'' hv ht =>
        have hmem : (.timeoutTest, o') ∈
            [(.settleTest, o), (Place.timeoutTest, o'), (.mainSwitch, o'')] := by simp
        have hclosed : (.mainSwitch, o'') ∈ run.seen n := (h.mem _ o'' (by decide)).mpr (by simp)
        apply iff_of_false
        · exact fun hrefuses => hrefuses.notClosed o'' hclosed
        · intro hreads
          rcases hreads hg o ho with h8 | ⟨-, htime⟩
          · exact hnot h8
          · have hle := htime o' ((h.mem _ o' (by decide)).mpr hmem)
            exact not_lt.mpr hle ((h.lt_elapsed hmem _).mp ht)
      | precharge o' hv ht =>
        have hf : (run.returned n).faults = 0 := (congrArg Core.faults hr).trans hg.2
        have hothers : NoOtherFault (run.called n) := by
          have hnone : (run.called n).faults = 0 := hg.2
          rw [NoOtherFault, hnone, UInt8.zero_and]
        constructor
        · intro hrefuses _ p hp
          refine Or.inr ⟨?_, fun p' hp' => ?_⟩
          · by_contra hlate
            apply hrefuses.fault hg.1 hothers (not_le.mp hlate)
            rw [hf, UInt8.zero_and]
          · obtain rfl : p' = o' := by simpa using (h.mem _ p' (by decide)).mp hp'
            exact (h.elapsed_le (List.mem_cons_of_mem _ List.mem_cons_self) _).mp ht
        · intro hreads
          constructor
          · intro p hp
            have hmem := (h.mem _ p (by decide)).mp hp
            simp at hmem
          · intro _ _ hlate
            rcases hreads hg o ho with h8 | ⟨hearly, -⟩
            · exact (hnot h8).elim
            · exact (not_le.mpr hlate hearly).elim

/-- As long as the output is shorted, no call closes the main switch and the first one after
8 ms sets the fault, if and only if the calls read the clock in time. -/
theorem not_closed_into_short_iff (run : Run) :
    (∀ n, run.ShortedUpTo n → run.Refuses n) ↔ ∀ n, run.ShortedUpTo n → run.ReadsInTime n :=
  forall_congr' fun n => imp_congr_right fun h => refuses_iff (h n le_rfl)

def hastyRun : Run := .still .switch (fun _ => [])
  (fun n => ⟨if n = 0 then 0 else 60,
    .quiet (Function.update Config.default .prechargeTimeout (5 : UInt16)) 0 10⟩)
  (by intro n; grind)

theorem closed_into_short : ¬ ∀ (run : Run) n, run.ShortedUpTo n → run.Refuses n := by
  intro h
  have hshort : hastyRun.ShortedUpTo 1 := by
    intro m hm
    interval_cases m <;> decide +kernel
  have hclosed : (hastyRun.seen 1).any (·.1 = .mainSwitch) = true := by decide +kernel
  obtain ⟨⟨l, o⟩, ho, hl⟩ := List.any_eq_true.mp hclosed
  obtain rfl : l = .mainSwitch := of_decide_eq_true hl
  exact (h hastyRun 1 hshort).notClosed o ho

end Shorted

section InUse

/-- The call `n` comes after the timeout that is then configured, with discharge enabled, no
fault, an output that is not low, and no shutdown. -/
structure Run.InUse (run : Run) (n : ℕ) : Prop where
  guard : (run.called n).core.Guard
  high : 1 / 2 ≤ (run.called n).dischargeVoltage
  past : run.started (n + 1) + 10 * ((run.round n).see 0).prechargeTimeout.toNat < run.calledAt n
  running : (run.returned n).shutdown = false

def MainOnly (s : Power) : Prop := s.dsgSw = true ∧ s.pchgSw = false

def Run.FindsOver (run : Run) (n : ℕ) : Prop :=
  (run.called n).voltage - 5 ≤ (run.called n).dischargeVoltage ∨
    ∀ o, (.timeoutTest, o) ∈ run.seen n →
      o.prechargeTimeout.toNat < msOf (run.elapsed n o)

theorem main_only_iff (hu : run.InUse n) : MainOnly (run.returned n) ↔ run.FindsOver n := by
  cases run.outcome n with
  | noDischarge shutdown hg hk hr => exact (hg hu.guard).elim
  | early os c hg h hr =>
    cases h.connected with
    | short o hs hv => exact (not_lt.mpr hu.high hv).elim
  | late os c shutdown hg h hr =>
    obtain rfl : shutdown = false := (congrArg Core.shutdown hr).symm.trans hu.running
    rw [ending_false] at hr
    have hd : (run.returned n).dsgSw = c.dsgSw := congrArg Core.dsgSw hr
    have hp : (run.returned n).pchgSw = c.pchgSw := congrArg Core.pchgSw hr
    rw [MainOnly, hd, hp]
    cases h.connected with
    | select o hs hsel =>
      cases hsel with
      | voltage o' hv => exact iff_of_true ⟨rfl, rfl⟩ (Or.inl hv)
      | timeout o' o'' hv ht =>
        apply iff_of_true ⟨rfl, rfl⟩
        refine Or.inr fun p hp => ?_
        obtain rfl : p = o' := by simpa using (h.mem _ p (by decide)).mp hp
        exact (h.lt_elapsed (List.mem_cons_of_mem _ List.mem_cons_self) _).mp ht
      | precharge o' hv ht =>
        apply iff_of_false
        · exact fun hon => Bool.false_ne_true hon.1
        · have hmem : (.timeoutTest, o') ∈ [(Place.settleTest, o), (.timeoutTest, o')] :=
            List.mem_cons_of_mem _ List.mem_cons_self
          rintro (hnear | htime)
          · exact not_lt.mpr hnear hv
          · have hle := (h.elapsed_le hmem _).mp ht
            exact not_lt.mpr hle (htime o' ((h.mem _ o' (by decide)).mpr hmem))

/-- In the first seven minutes it is, if the timeout does not change within the call. -/
theorem main_only_of_soon (hu : run.InUse n) (hsoon : ∀ o, (.timeoutTest, o) ∈ run.seen n →
    o.prechargeTimeout = ((run.round n).see 0).prechargeTimeout ∧ run.elapsed n o < 4294958) :
    MainOnly (run.returned n) := by
  apply (main_only_iff hu).mpr
  refine Or.inr fun o ho => ?_
  obtain ⟨htimeout, hlt⟩ := hsoon o ho
  have hcalled : run.calledAt n ≤ o.ticks :=
    Run.le_seen (fun i => run.see_mono n (Nat.zero_le i)) _ ho
  have hpast := hu.past
  rw [← htimeout] at hpast
  rw [Run.elapsed] at hlt
  rw [msOf, Run.elapsed]
  omega

/-- Once the time of the precharge is over, DSG_SW stays on if and only if the calls find it
over in 32 bits. -/
theorem no_drop_out_iff (run : Run) :
    (∀ n, run.InUse n → MainOnly (run.returned n)) ↔ ∀ n, run.InUse n → run.FindsOver n :=
  forall_congr' fun _ => imp_congr_right main_only_iff

/-- A switch that is in use, and the third call seven minutes after the start. -/
def longRun : Run := .still .switch (fun _ => [])
  (fun n => ⟨if n = 0 then 0 else if n = 1 then 6000 else 4294958, .quiet .default 1 20⟩)
  (by intro n; grind)

theorem drops_out : ¬ ∀ (run : Run) n, run.InUse n → MainOnly (run.returned n) := by
  intro h
  have huse : longRun.InUse 2 := by
    constructor <;> decide +kernel
  exact absurd (h longRun 2 huse).1 (by decide +kernel)

end InUse

end Battman
