import Battman.ChargeTermination

/-! The control of the charge current: its integral, the voltage it asks for, and the code that
the DAC gets for that voltage. -/
namespace Battman

variable {c : Charger} {x : ChargerInput} {v w : ℚ}

section Dac

def dacVoltage (voltage : ℚ) : ℚ := 0.075 * (51.584 - voltage)

def dacClamp (v : ℚ) : ℚ := if v < 0 then 0 else if 3.3 < v then 3.3 else v

theorem dac_code_eq (voltage : ℚ) :
    dacCode voltage = UInt16.ofNat ⌊dacClamp (dacVoltage voltage) / 3.3 * 16383⌋₊ := rfl

theorem dac_clamp_eq (v : ℚ) : dacClamp v = max 0 (min 3.3 v) := by
  unfold dacClamp
  split_ifs with h0 h1
  · rw [max_eq_left ((min_le_right _ _).trans h0.le)]
  · rw [min_eq_left h1.le, max_eq_right (by norm_num)]
  · rw [min_eq_right (not_lt.mp h1), max_eq_right (not_lt.mp h0)]

theorem dac_clamp_mono : Monotone dacClamp := by
  intro v w h
  rw [dac_clamp_eq, dac_clamp_eq]
  exact max_le_max_left 0 (min_le_min_left 3.3 h)

theorem dac_clamp_le (v : ℚ) : dacClamp v ≤ 3.3 := by
  rw [dac_clamp_eq]
  exact max_le (by norm_num) (min_le_left _ _)

theorem dac_floor_le (v : ℚ) : ⌊dacClamp v / 3.3 * 16383⌋₊ ≤ 16383 := by
  have hle := dac_clamp_le v
  have hratio : dacClamp v / 3.3 ≤ 1 := (div_le_one (by norm_num)).mpr hle
  have hscaled : dacClamp v / 3.3 * 16383 ≤ (16383 : ℕ) := by
    push_cast
    linarith
  exact Nat.floor_le_of_le hscaled

theorem dac_code_toNat (voltage : ℚ) :
    (dacCode voltage).toNat = ⌊dacClamp (dacVoltage voltage) / 3.3 * 16383⌋₊ := by
  have hlt : ⌊dacClamp (dacVoltage voltage) / 3.3 * 16383⌋₊ < UInt16.size :=
    (dac_floor_le _).trans_lt (by decide)
  rw [dac_code_eq, UInt16.toNat_ofNat_of_lt' hlt]

theorem dac_code_scale (voltage : ℚ) : (dacCode voltage).toNat =
    ⌊max 0 (min 3.3 (0.075 * (51.584 - voltage))) / 3.3 * 16383⌋₊ := by
  rw [dac_code_toNat, dac_clamp_eq, dacVoltage]

theorem dac_code_le (voltage : ℚ) : dacCode voltage ≤ 16383 := by
  rw [UInt16.le_iff_toNat_le, dac_code_toNat]
  exact dac_floor_le _

theorem dac_code_antitone (h : v ≤ w) : dacCode w ≤ dacCode v := by
  rw [UInt16.le_iff_toNat_le, dac_code_toNat, dac_code_toNat]
  have hdac : dacVoltage w ≤ dacVoltage v := by
    unfold dacVoltage
    linarith
  have hclamp := dac_clamp_mono hdac
  apply Nat.floor_le_floor
  gcongr

/-- The command and the code shifted to the left end of a half-word, high byte first. -/
def dacMessage (code : UInt16) : List UInt8 :=
  [0x01, hiByte (code <<< 2), loByte (code <<< 2)]

theorem shifted_toNat (code : UInt16) : (code <<< 2).toNat = code.toNat * 4 % 65536 := by
  rw [UInt16.toNat_shiftLeft, Nat.shiftLeft_eq]
  rfl

theorem set_voltage_sent (c : Charger) (voltage : ℚ) :
    (c.setVoltage voltage).sent = dacMessage (dacCode voltage) :: c.sent := by
  have hhigh (code : UInt16) : (code >>> 6).toUInt8 = hiByte (code <<< 2) := by
    apply UInt8.toNat_inj.mp
    rw [hi_byte_toNat, shifted_toNat, UInt16.toNat_toUInt8, UInt16.toNat_shiftRight,
      Nat.shiftRight_eq_div_pow]
    change code.toNat / 2 ^ 6 % 2 ^ 8 = _
    omega
  have hlow (code : UInt16) : ((code &&& 0xFF) <<< 2).toUInt8 = loByte (code <<< 2) := by
    apply UInt8.toNat_inj.mp
    have hmask : (code &&& 0xFF).toNat = code.toNat % 256 := by
      rw [UInt16.toNat_and]
      exact Nat.and_two_pow_sub_one_eq_mod _ 8
    rw [lo_byte_toNat, shifted_toNat, UInt16.toNat_toUInt8, shifted_toNat, hmask]
    omega
  have hsent : (c.setVoltage voltage).sent = ([0x01, (dacCode voltage >>> 6).toUInt8,
      ((dacCode voltage &&& 0xFF) <<< 2).toUInt8] : List UInt8) :: c.sent := rfl
  rw [hsent, hhigh, hlow]
  rfl

end Dac

section Regulation

/-- A voltage that the charge control asks for: it gets to the DAC, and is not above the charge
voltage. -/
structure Requests (c d : Charger) (limit voltage : ℚ) : Prop where
  le : voltage ≤ limit
  output : d.outputVoltage = voltage
  sent : d.sent = dacMessage (dacCode voltage) :: c.sent
  code : dacCode limit ≤ dacCode voltage

theorem set_voltage_requests {limit : ℚ} (h : v ≤ limit) :
    Requests c (c.setVoltage v) limit v :=
  ⟨h, rfl, set_voltage_sent c v, dac_code_antitone h⟩

def windup (limit integral : ℚ) : ℚ :=
  if 0 < integral then 0 else if integral < -limit then -limit else integral

theorem windup_bounds {limit : ℚ} (h : 0 ≤ limit) (integral : ℚ) :
    -limit ≤ windup limit integral ∧ windup limit integral ≤ 0 := by
  unfold windup
  split_ifs with hpos hlow
  · exact ⟨neg_nonpos.mpr h, le_rfl⟩
  · exact ⟨le_rfl, neg_nonpos.mpr h⟩
  · exact ⟨not_lt.mp hlow, not_lt.mp hpos⟩

theorem current_control_integral (h : 0 ≤ x.config .chargeVoltage) :
    -x.config .chargeVoltage ≤ (c.currentControl x).currentControlIntegral ∧
      (c.currentControl x).currentControlIntegral ≤ 0 :=
  windup_bounds h _

theorem current_control_requests :
    ∃ v, Requests c (c.currentControl x) (x.config .chargeVoltage) v := by
  have hle (v : ℚ) : (if x.config .chargeVoltage < v then x.config .chargeVoltage else v) ≤
      x.config .chargeVoltage := by
    split_ifs with h
    · exact le_rfl
    · exact not_lt.mp h
  obtain ⟨hle, houtput, hsent, hcode⟩ := set_voltage_requests
    (c := { c with currentControlIntegral := (c.currentControl x).currentControlIntegral })
    (hle (x.config .chargeVoltage + (x.config .chargeCurrent - -x.current) *
      x.config .chargeCurrentGainP + (c.currentControl x).currentControlIntegral *
        x.config .chargeCurrentGainI))
  exact ⟨_, hle, houtput, hsent, hcode⟩

/-- Nothing is sent in a mode that the source does not know. -/
theorem regulate_requests (h : 0 ≤ x.config .chargeVoltage) :
    c.regulate x = c ∨ ∃ v, Requests c (c.regulate x) (x.config .chargeVoltage) v := by
  rw [Charger.regulate]
  by_cases h0 : x.config .chargeMode = 0
  · rw [if_pos h0]
    exact Or.inr current_control_requests
  by_cases h1 : x.config .chargeMode = 1
  · rw [if_neg h0, if_pos h1]
    exact Or.inr ⟨_, set_voltage_requests le_rfl⟩
  by_cases h2 : x.config .chargeMode = 2
  · rw [if_neg h0, if_neg h1, if_pos h2]
    exact Or.inr ⟨0, set_voltage_requests h⟩
  by_cases h3 : x.config .chargeMode = 3
  · rw [if_neg h0, if_neg h1, if_neg h2, if_pos h3]
    exact Or.inr ⟨0, set_voltage_requests h⟩
  · rw [if_neg h0, if_neg h1, if_neg h2, if_neg h3]
    exact Or.inl rfl

theorem count_regulation (c : Charger) (x : ChargerInput) :
    (c.countComplete x).currentControlIntegral = c.currentControlIntegral ∧
      (c.countComplete x).outputVoltage = c.outputVoltage ∧ (c.countComplete x).sent = c.sent := by
  by_cases hfull : x.Full
  · rw [count_full hfull]
    exact ⟨rfl, rfl, rfl⟩
  · rw [count_not_full hfull]
    exact ⟨rfl, rfl, rfl⟩

/-- A call of charger_update that regulates: where it leaves the integral, and what set_voltage is
asked for. -/
structure Regulation (c : Charger) (x : ChargerInput) : Prop where
  integral : x.config .chargeMode = 0 →
    -x.config .chargeVoltage ≤ (chargerUpdate c x).currentControlIntegral ∧
      (chargerUpdate c x).currentControlIntegral ≤ 0
  request : (chargerUpdate c x).sent = c.sent ∨
    ∃ v, Requests c (chargerUpdate c x) (x.config .chargeVoltage) v

theorem update_regulation (ht : c.Tests x) (h : 0 ≤ x.config .chargeVoltage) :
    Regulation c x := by
  obtain ⟨hintegral, houtput, hsent⟩ := count_regulation (c.regulated x) x
  have hregulated : c.regulated x = ({ c.sense x with chgSw := true } : Charger).regulate x := rfl
  have hupdate := update_tests ht
  constructor
  · intro hmode
    have hcontrol : c.regulated x =
        ({ c.sense x with chgSw := true } : Charger).currentControl x := if_pos hmode
    rw [hupdate]
    change _ ≤ ((c.regulated x).countComplete x).currentControlIntegral ∧
      ((c.regulated x).countComplete x).currentControlIntegral ≤ 0
    rw [hintegral, hcontrol]
    exact current_control_integral h
  · have hsent' : (chargerUpdate c x).sent = (c.regulated x).sent := by
      rw [hupdate]
      exact hsent
    have houtput' : (chargerUpdate c x).outputVoltage = (c.regulated x).outputVoltage := by
      rw [hupdate]
      exact houtput
    rcases regulate_requests (c := { c.sense x with chgSw := true }) h with hsame | hrequest
    · rw [hsent', hregulated, hsame]
      exact Or.inl rfl
    · obtain ⟨v, hle, hv, hmessage, hcode⟩ := hrequest
      exact Or.inr ⟨v, hle, houtput'.trans hv, hsent'.trans hmessage, hcode⟩

/-- After any calls from charger_init on, a call that regulates with a charge voltage that is not
negative; and set_voltage, whatever it is asked for. -/
theorem charge_regulation_bounded (config : Config) (t₁ t₂ : UInt32) (calls : List ChargerCall)
    (x : ChargerInput) (h : 0 ≤ x.config .chargeVoltage) :
    (((chargerInit config t₁ t₂).after calls).Tests x →
      Regulation ((chargerInit config t₁ t₂).after calls) x) ∧
    (∀ (c : Charger) (v : ℚ), dacCode v ≤ 16383 ∧
      (dacCode v).toNat = ⌊max 0 (min 3.3 (0.075 * (51.584 - v))) / 3.3 * 16383⌋₊ ∧
      (c.setVoltage v).sent = dacMessage (dacCode v) :: c.sent) ∧
    ∀ v w : ℚ, v ≤ w → dacCode w ≤ dacCode v :=
  ⟨fun ht => update_regulation ht h,
    fun c v => ⟨dac_code_le v, dac_code_scale v, set_voltage_sent c v⟩,
    fun _ _ => dac_code_antitone⟩

def evenCells : ChargerInput :=
  { firstCellHigh 0 with
    cells := fun _ => 39 / 10
    config := Function.update Config.default .chargeMode (0 : UInt8) }

theorem charge_regulation_bounded_even :
    evenCells.config .chargeMode = 0 ∧
      Regulation ((chargerInit Config.default 0 0).after []) evenCells := by
  refine ⟨by decide +kernel, ?_⟩
  exact (charge_regulation_bounded Config.default 0 0 [] evenCells (by decide +kernel)).1
    (by decide +kernel)

end Regulation

end Battman
