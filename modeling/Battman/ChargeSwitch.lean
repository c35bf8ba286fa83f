import Battman.Balancing

/-! When charger_update closes the charge switch. -/
namespace Battman

variable {c d e : Charger} {x : ChargerInput}

/-- What the charge current's control leaves alone. -/
structure SameSwitches (c d : Charger) : Prop where
  chgSw : d.chgSw = c.chgSw
  chargeEnabled : d.chargeEnabled = c.chargeEnabled
  balancing : d.balancing = c.balancing

theorem SameSwitches.trans (h : SameSwitches c d) (h' : SameSwitches d e) : SameSwitches c e :=
  ⟨h'.chgSw.trans h.chgSw, h'.chargeEnabled.trans h.chargeEnabled,
    h'.balancing.trans h.balancing⟩

theorem same_regulate : SameSwitches c (c.regulate x) := by
  unfold Charger.regulate
  split_ifs <;> exact ⟨rfl, rfl, rfl⟩

theorem same_count_complete : SameSwitches c (c.countComplete x) := by
  unfold Charger.countComplete
  split_ifs <;> exact ⟨rfl, rfl, rfl⟩

theorem same_started (h : c.startsBalancing x = false) : c.started x = c := by
  rw [Charger.started, h]
  rfl

theorem balance_low (lowest : ℚ) : (c.balance x lowest).chgSw = false := by
  simp only [Charger.balance]
  split_ifs <;> rfl

theorem charge_high (h : (c.charge x).chgSw = true) :
    c.balancing = false ∧ c.startsBalancing x = false ∧
      (∀ i < x.numCells, x.cells i < x.config .highVoltageCutoff) ∧
      SameSwitches { c with chgSw := true } (c.charge x) := by
  by_cases hb : (c.started x).balancing = true
  · rw [Charger.charge, if_pos hb, balance_low] at h
    cases h
  have hs : c.startsBalancing x = false := by
    cases hs : c.startsBalancing x with
    | true => exact absurd (by rw [Charger.started, hs]; rfl) hb
    | false => rfl
  rw [same_started hs, Bool.not_eq_true] at hb
  by_cases hv : (c.scan x).highestCellV < x.config .highVoltageCutoff
  · refine ⟨hb, hs, fun i hi => ?_, ?_⟩
    · have hscan : c.scan x = scanCells x.cells x.numCells := if_neg (by simp [hb])
      rw [hscan] at hv
      exact ((scanned x.cells x.numCells).highest i hi).trans_lt hv
    · rw [Charger.charge, same_started hs, if_neg (by simp [hb]), if_pos hv]
      exact same_regulate.trans same_count_complete
  · rw [Charger.charge, same_started hs, if_neg (by simp [hb]), if_neg hv] at h
    cases h

structure SwitchSafe (c : Charger) (x : ChargerInput) : Prop where
  high : (chargerUpdate c x).chgSw = true →
    (chargerUpdate c x).chargeEnabled = true ∧ (chargerUpdate c x).balancing = false ∧
      ∀ i < x.numCells, x.cells i < x.config .highVoltageCutoff
  low : ((∃ i < x.numCells, x.config .highVoltageCutoff ≤ x.cells i) ∨ c.balancing = true ∨
      c.startsBalancing x = true ∨ c.chargeComplete = true ∨ c.chargeEnabled = false) →
    (chargerUpdate c x).chgSw = false

theorem idle_low (hp : c.isCharging = true) : c.idle.chgSw = false := by
  simp [Charger.idle, hp]

theorem update_high (hp : 6 < x.inputVoltage) (h : (chargerUpdate c x).chgSw = true) :
    c.chargeEnabled = true ∧ c.chargeComplete = false ∧ c.balancing = false ∧
      c.startsBalancing x = false ∧
      (∀ i < x.numCells, x.cells i < x.config .highVoltageCutoff) ∧
      (chargerUpdate c x).chargeEnabled = true ∧ (chargerUpdate c x).balancing = false := by
  have hpresent : (c.sense x).isCharging = true := decide_eq_true hp
  by_cases hc : (c.sense x).chargeEnabled && (c.sense x).isCharging &&
      !(c.sense x).chargeComplete
  · have hcharge : chargerUpdate c x = { (c.sense x).charge x with lastTime := x.lastTime } := by
      rw [chargerUpdate, if_pos hc]
    simp only [Bool.and_eq_true, Bool.not_eq_true'] at hc
    rw [hcharge] at h ⊢
    obtain ⟨hbal, hst, hcells, hsame⟩ := charge_high h
    exact ⟨hc.1.1, hc.2, hbal, hst, hcells, hsame.chargeEnabled.trans hc.1.1,
      hsame.balancing.trans hbal⟩
  · have hidle : chargerUpdate c x = { (c.sense x).idle with lastTime := x.lastTime } := by
      rw [chargerUpdate, if_neg hc]
    rw [hidle] at h
    exact absurd (idle_low hpresent) (Bool.not_eq_false _ ▸ h)

theorem switch_safe (hp : 6 < x.inputVoltage) : SwitchSafe c x := by
  constructor
  · intro h
    obtain ⟨-, -, -, -, hcells, hen, hbal⟩ := update_high hp h
    exact ⟨hen, hbal, hcells⟩
  · intro hcause
    by_contra hhigh
    obtain ⟨hen, hcomp, hbal, hst, hcells, -⟩ := update_high hp (Bool.not_eq_false _ ▸ hhigh)
    rcases hcause with ⟨i, hi, hv⟩ | h | h | h | h
    · exact absurd (hcells i hi) (not_lt.mpr hv)
    · exact Bool.false_ne_true (hbal.symm.trans h)
    · exact Bool.false_ne_true (hst.symm.trans h)
    · exact Bool.false_ne_true (hcomp.symm.trans h)
    · exact Bool.false_ne_true (h.symm.trans hen)

/-- After any calls from charger_init on, a call that sees the charger leaves CHG_SW high only
with charging enabled, no balancing and all cells below the cutoff, and low if it found one at
the cutoff, balancing, a complete charge or disabled charging. -/
theorem charge_switch_safe (config : Config) (t₁ t₂ : UInt32) (calls : List ChargerCall)
    (x : ChargerInput) (hp : 6 < x.inputVoltage) :
    SwitchSafe ((chargerInit config t₁ t₂).after calls) x := switch_safe hp

/-- A call that starts the balancing, and one that goes on with it. -/
theorem charge_switch_safe_balancing :
    SwitchSafe ((chargerInit Config.default 0 0).after [.update (firstCellHigh 0)])
      (firstCellHigh 10000) :=
  charge_switch_safe Config.default 0 0 [.update (firstCellHigh 0)] (firstCellHigh 10000)
    (by decide +kernel)

end Battman
