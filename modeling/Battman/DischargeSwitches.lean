import Battman.PowerRuns

/-! The two switches of the output when power_update returns, and when the firmware ends. -/
namespace Battman
open Interference Prog

variable {c c₁ c' : Core} {ks os : Trace} {run : Run} {n : ℕ} {o : Sight}

/-- A short is found: the output is still low when the time to settle is over. -/
def FoundShort (c : Core) (os : Trace) : Prop :=
  ∃ o, (.settleTest, o) ∈ os ∧ 8 < c.elapsedMs o ∧ c.dischargeVoltage < 1 / 2

def TimeOver (c : Core) (os : Trace) : Prop :=
  ∃ o, (.timeoutTest, o) ∈ os ∧ o.prechargeTimeout.toUInt32 < c.elapsedMs o

structure Gate (c : Core) (os : Trace) : Prop where
  guard : c.Guard
  running : c.shutdown = false
  settled : ¬ FoundShort c os
  charged : c.voltage - 5 ≤ c.dischargeVoltage ∨ TimeOver c os

section OneCall

theorem Started.not_settle (h : Started c ks c') : (.settleTest, o) ∉ ks := by
  cases h <;> simp

theorem Selected.not_settle (h : Selected c ks c') : (.settleTest, o) ∉ ks := by
  cases h <;> simp

theorem Started.guard (h : Started c ks c') (hg : c.Guard) : c'.Guard := by
  cases h <;> exact hg

theorem ending_dsg {b : Bool} (h : (c.ending b).dsgSw = true) : c.dsgSw = true ∧ b = false := by
  have hand : (c.dsgSw && !b) = true := h
  rw [Bool.and_eq_true, Bool.not_eq_true'] at hand
  exact hand

theorem Selected.switched (h : Selected c ks c') (hd : c'.dsgSw = true) :
    c' = c.switched ∧ (c.voltage - 5 ≤ c.dischargeVoltage ∨ TimeOver c ks) := by
  cases h with
  | voltage o hv => exact ⟨rfl, Or.inl hv⟩
  | timeout o o' hv ht => exact ⟨rfl, Or.inr ⟨o, List.mem_cons_self, ht⟩⟩
  | precharge o hv ht => exact (Bool.false_ne_true hd).elim

theorem CallStep.gate (h : CallStep c ks c') (hd : c'.dsgSw = true) : Gate c' ks := by
  cases h with
  | noDischarge shutdown hg hs => exact (Bool.false_ne_true (ending_dsg hd).1).elim
  | early hg hst hc =>
    cases hc with
    | short o hs hv => exact (Bool.false_ne_true hd).elim
  | late shutdown hg hst hc hs =>
    rename_i ks ks' c₁ c₂
    cases hc with
    | select o hsettle hsel =>
      rename_i os
      obtain ⟨hd₂, rfl⟩ := ending_dsg hd
      obtain ⟨rfl, hover⟩ := hsel.switched hd₂
      constructor
      · exact hst.guard hg
      · rfl
      · rintro ⟨o', ho', ht, hv⟩
        have hsame : o' = o := by
          rcases List.mem_append.mp ho' with hmem | hmem
          · exact (hst.not_settle hmem).elim
          rcases List.mem_cons.mp hmem with heq | hmem
          · exact (Prod.mk.inj heq).2
          · exact (hsel.not_settle hmem).elim
        exact not_lt.mpr (hsettle (hsame ▸ ht)) hv
      · apply hover.imp_right
        rintro ⟨o', ho', ht⟩
        exact ⟨o', List.mem_append_right _ (List.mem_cons_of_mem _ ho'), ht⟩

theorem Selected.one_switch (h : Selected c ks c') : c'.dsgSw = false ∨ c'.pchgSw = false := by
  cases h with
  | voltage o hv => exact Or.inr rfl
  | timeout o o' hv ht => exact Or.inr rfl
  | precharge o hv ht => exact Or.inl rfl

theorem CallStep.one_switch (h : CallStep c ks c') : ¬ (c'.dsgSw = true ∧ c'.pchgSw = true) := by
  rintro ⟨hd, hp⟩
  cases h with
  | noDischarge shutdown hg hs => exact Bool.false_ne_true hp
  | early hg hst hc =>
    cases hc with
    | short o hs hv => exact Bool.false_ne_true hp
  | late shutdown hg hst hc hs =>
    cases hc with
    | select o hs hsel =>
      rcases hsel.one_switch with hoff | hoff
      · exact Bool.false_ne_true (hoff.symm.trans (ending_dsg hd).1)
      · exact Bool.false_ne_true (hoff.symm.trans hp)

theorem CallStep.shutdown (h : CallStep c ks c') (hs : c.shutdown = true) : c'.shutdown = true := by
  cases h with
  | noDischarge shutdown hg hs' => exact hs' hs
  | early hg hst hc => exact (hc.shutdown hst).trans hs
  | late shutdown hg hst hc hs' => exact hs' hs

end OneCall

theorem shutdown_next (hs : (run.returned n).shutdown = true) :
    (run.returned (n + 1)).shutdown = true := by
  have hown : (run.called (n + 1)).own = (run.returned n).own :=
    (run.own_called _).trans (run.own_state n)
  exact (run.call (n + 1)).shutdown ((congrArg Own.shutdown hown).trans hs)

/-- In every run, at the end of every call, the switches are not both on, DSG_SW is only on
through its gate, and shutdown stays. -/
theorem discharge_gate (run : Run) (n : ℕ) :
    ¬ ((run.returned n).dsgSw = true ∧ (run.returned n).pchgSw = true) ∧
      ((run.returned n).dsgSw = true → Gate (run.returned n).core (run.seen n)) ∧
      ((run.returned n).shutdown = true → ∀ k, (run.returned (n + k)).shutdown = true) := by
  refine ⟨(run.call n).one_switch, fun hd => ?_, fun hs k => ?_⟩
  · obtain ⟨hguard, hrunning, hsettled, hcharged⟩ := (run.call n).gate hd
    refine ⟨hguard, hrunning, ?_, ?_⟩
    · rintro ⟨o, ho, hshort⟩
      exact hsettled ⟨o, (mem_keys (by decide)).mpr ho, hshort⟩
    · apply hcharged.imp_right
      rintro ⟨o, ho, ht⟩
      exact ⟨o, (mem_keys (by decide)).mp ho, ht⟩
  · induction k with
    | zero => exact hs
    | succ k ih => exact shutdown_next ih

section Precharge

def PathsOff (s : Power) : Prop := s.dsgSw = false ∧ s.pchgSw = false

/-- What follows the call of comm_usb_deinit leaves for the bootloader. -/
def fwUpdaterJumpBootloader : PowerM Unit := do
  powerDisableDischarge
  skip                  -- comm_usb_deinit

/-- The call `n` finds the guard and no short, the output still low and the time not over. -/
structure Run.Precharges (run : Run) (n : ℕ) : Prop where
  guard : (run.called n).core.Guard
  low : (run.called n).dischargeVoltage < (run.called n).voltage - 5
  settled : ∀ o, (.settleTest, o) ∈ run.seen n → 8 < msOf (run.elapsed n o) →
    1 / 2 ≤ (run.called n).dischargeVoltage
  early : ∀ o, (.timeoutTest, o) ∈ run.seen n →
    msOf (run.elapsed n o) ≤ o.prechargeTimeout.toNat

theorem pchg_iff (run : Run) (n : ℕ) : (run.returned n).pchgSw = true ↔ run.Precharges n := by
  cases run.outcome n with
  | noDischarge shutdown hg hk hr =>
    have hoff : (run.returned n).pchgSw = false := congrArg Core.pchgSw hr
    rw [hoff]
    exact iff_of_false Bool.false_ne_true fun h => hg h.guard
  | early os c hg h hr =>
    have hoff : (run.returned n).pchgSw = c.pchgSw := congrArg Core.pchgSw hr
    rw [hoff]
    cases h.connected with
    | short o hs hv =>
      apply iff_of_false Bool.false_ne_true
      intro hp
      have ho := (h.mem .settleTest o (by decide)).mpr List.mem_cons_self
      have h8 := (h.lt_elapsed List.mem_cons_self 8).mp hs
      exact not_lt.mpr (hp.settled o ho h8) hv
  | late os c shutdown hg h hr =>
    have hsame : (run.returned n).pchgSw = c.pchgSw := congrArg Core.pchgSw hr
    rw [hsame]
    cases h.connected with
    | select o hs hsel =>
      cases hsel with
      | voltage o' hv =>
        exact iff_of_false Bool.false_ne_true fun hp => not_lt.mpr hv hp.low
      | timeout o' o'' hv ht =>
        apply iff_of_false Bool.false_ne_true
        intro hp
        have hmem : (.timeoutTest, o') ∈
            [(.settleTest, o), (Place.timeoutTest, o'), (.mainSwitch, o'')] := by simp
        have hle := hp.early o' ((h.mem _ o' (by decide)).mpr hmem)
        exact not_lt.mpr hle ((h.lt_elapsed hmem _).mp ht)
      | precharge o' hv ht =>
        apply iff_of_true rfl
        constructor
        · exact hg
        · exact hv
        · intro p hp h8
          obtain rfl : p = o := by simpa using (h.mem _ p (by decide)).mp hp
          exact hs ((h.lt_elapsed List.mem_cons_self 8).mpr h8)
        · intro p hp
          obtain rfl : p = o' := by simpa using (h.mem _ p (by decide)).mp hp
          exact (h.elapsed_le (List.mem_cons_of_mem _ List.mem_cons_self) _).mp ht

theorem paths_off_of_returned (hs : (run.returned n).shutdown = true) :
    PathsOff (run.returned n) ↔ ¬ run.Precharges n := by
  have hd : (run.returned n).dsgSw = false := by
    apply Bool.eq_false_iff.mpr
    intro hd
    exact Bool.false_ne_true (((run.call n).gate hd).running.symm.trans hs)
  rw [← pchg_iff, Bool.not_eq_true, PathsOff]
  exact and_iff_right hd

theorem paths_off_jump (s : Power) :
    PathsOff (fwUpdaterJumpBootloader.exec s).2 ↔ s.pchgSw = false :=
  and_iff_right rfl

/-- When a call of power_update returns with shutdown, or fw_updater_jump_bootloader has
disabled discharge after it, both paths are off if and only if that call did not precharge. -/
theorem paths_off_iff (run : Run) (n : ℕ) :
    ((run.returned n).shutdown = true → (PathsOff (run.returned n) ↔ ¬ run.Precharges n)) ∧
      (∀ es, PathsOff (fwUpdaterJumpBootloader.exec (meanwhile es (run.returned n))).2 ↔
        ¬ run.Precharges n) ∧
      ∀ s, PathsOff (fwUpdaterJumpBootloader.exec s).2 ↔ s.pchgSw = false := by
  refine ⟨paths_off_of_returned, fun es => ?_, paths_off_jump⟩
  have hp : (meanwhile es (run.returned n)).pchgSw = (run.returned n).pchgSw :=
    congrArg Own.pchgSw (own_meanwhile es _)
  rw [paths_off_jump, hp, ← pchg_iff, Bool.not_eq_true]

def slowPrecharge : Config := Function.update Config.default .prechargeTimeout (2000 : UInt16)

/-- The button is pressed again 10 ms after the start. -/
def pressedAgain : Run := .still .switch (fun _ => [])
  (fun n => ⟨if n = 0 then 0 else if n = 1 then 100 else 6000,
    { Surroundings.quiet slowPrecharge 1 20 with pwrBtn := n = 0 }⟩)
  (by intro n; grind)

theorem precharging_shutdown :
    ¬ ∀ (run : Run) n, ((run.returned n).shutdown = true → PathsOff (run.returned n)) ∧
      ∀ es, PathsOff (fwUpdaterJumpBootloader.exec (meanwhile es (run.returned n))).2 := by
  intro h
  have hoff := (h pressedAgain 2).1 (by decide +kernel)
  exact absurd hoff.2 (by decide +kernel)

end Precharge

end Battman
