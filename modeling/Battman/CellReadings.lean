import Battman.Charger

/-! ltc6803_rdcv: twelve readings of 12 bits from eighteen bytes and a checksum, which is
computed and compared. -/
namespace Battman

def pecBit (remainder : UInt8) : UInt8 :=
  if remainder &&& 128 ≠ 0 then (remainder <<< 1) ^^^ 7 else remainder <<< 1

def pec8Calc (len : ℕ) (data : ℕ → UInt8) : UInt8 :=
  (List.range len).foldl (fun remainder byte => pecBit^[8] (remainder ^^^ data byte)) 0x41

/-- `(float)(temp + temp2 - 512) * 1.5 / 1000.0`. -/
def cellVolts (temp temp2 : UInt16) : ℚ :=
  ((temp.toNat + temp2.toNat : ℤ) - 512 : ℤ) * 1.5 / 1000

def rdcvLoop (rxData : ℕ → UInt8) : ℕ → ℕ → ℕ → (ℕ → ℚ) → ℕ → ℚ
  | 0, _, _, cells => cells
  | n + 1, k, d, cells =>
    let temp := (rxData d).toUInt16
    let temp2 := (rxData (d + 1) &&& 0x0F).toUInt16 <<< 8
    let cells := Function.update cells k (cellVolts temp temp2)
    let temp2 := (rxData (d + 1) >>> 4).toUInt16
    let temp := (rxData (d + 2)).toUInt16 <<< 4
    let cells := Function.update cells (k + 1) (cellVolts temp temp2)
    rdcvLoop rxData n (k + 2) (d + 3) cells

/-- What ltc6803_rdcv has at its end: the cells, and a local variable that nothing reads. -/
structure Rdcv where
  pecError : ℤ
  cells : ℕ → ℚ

def ltc6803Rdcv (rxData : ℕ → UInt8) (cells : ℕ → ℚ) : Rdcv where
  pecError := if rxData 18 ≠ pec8Calc 18 rxData then -1 else 0
  cells := rdcvLoop rxData 6 0 0 cells

structure Readings where
  cells : ℕ → ℚ
  conversionStart : UInt32

/-- One call of ltc6803_update: the times of its two clock readings, and the bytes that the
monitor sends when it is read. -/
structure Delivery where
  now : UInt32
  started : UInt32
  rxData : ℕ → UInt8

def Readings.update (r : Readings) (d : Delivery) : Readings :=
  if 13 < st2ms (d.now - r.conversionStart) then
    { cells := (ltc6803Rdcv d.rxData r.cells).cells, conversionStart := d.started }
  else r

def packedPair (rxData : ℕ → UInt8) (j : ℕ) : ℕ :=
  (rxData (3 * j)).toNat + 2 ^ 8 * (rxData (3 * j + 1)).toNat +
    2 ^ 16 * (rxData (3 * j + 2)).toNat

def reading (rxData : ℕ → UInt8) (k : ℕ) : ℚ :=
  (((packedPair rxData (k / 2) / 2 ^ (12 * (k % 2)) % 2 ^ 12 : ℕ) : ℤ) - 512 : ℤ) * 1.5 / 1000

def PecMatches (rxData : ℕ → UInt8) : Prop := rxData 18 = pec8Calc 18 rxData

instance decidablePecMatches (rxData : ℕ → UInt8) : Decidable (PecMatches rxData) :=
  inferInstanceAs (Decidable (_ = _))

def ChargerInput.seeing (x : ChargerInput) (cells : ℕ → ℚ) : ChargerInput := { x with cells }

/-- A response is used if its checksum matches and changes no cell and no decision of the
charger if it does not. -/
structure Trusted (cells : ℕ → ℚ) (rxData : ℕ → UInt8) : Prop where
  accepted : PecMatches rxData → ∀ k < 12, (ltc6803Rdcv rxData cells).cells k = reading rxData k
  refused : ¬ PecMatches rxData → (ltc6803Rdcv rxData cells).cells = cells
  decision : ¬ PecMatches rxData → ∀ (c : Charger) (x : ChargerInput),
    chargerUpdate c (x.seeing (ltc6803Rdcv rxData cells).cells) = chargerUpdate c (x.seeing cells)

variable {rxData : ℕ → UInt8} {cells : ℕ → ℚ} {k : ℕ}

theorem even_reading (rxData : ℕ → UInt8) (j : ℕ) :
    cellVolts (rxData (3 * j)).toUInt16 ((rxData (3 * j + 1) &&& 0x0F).toUInt16 <<< 8) =
      reading rxData (2 * j) := by
  have h₀ := (rxData (3 * j)).toNat_lt
  have h₁ := (rxData (3 * j + 1)).toNat_lt
  have h₂ := (rxData (3 * j + 2)).toNat_lt
  have hlow : (rxData (3 * j + 1) &&& 0x0F).toNat = (rxData (3 * j + 1)).toNat % 16 := by
    rw [UInt8.toNat_and]
    exact Nat.and_two_pow_sub_one_eq_mod _ 4
  have hshift : ((rxData (3 * j + 1) &&& 0x0F).toUInt16 <<< 8).toNat =
      2 ^ 8 * ((rxData (3 * j + 1)).toNat % 16) := by
    rw [UInt16.toNat_shiftLeft, UInt8.toNat_toUInt16, hlow]
    change (_ <<< 8) % 2 ^ 16 = _
    rw [Nat.shiftLeft_eq]
    omega
  have hcount : (rxData (3 * j)).toNat + 2 ^ 8 * ((rxData (3 * j + 1)).toNat % 16) =
      packedPair rxData (2 * j / 2) / 2 ^ (12 * (2 * j % 2)) % 2 ^ 12 := by
    rw [packedPair, Nat.mul_div_cancel_left j (by decide), Nat.mul_mod_right]
    omega
  rw [cellVolts, reading, hshift, UInt8.toNat_toUInt16, ← hcount, Nat.cast_add]

theorem odd_reading (rxData : ℕ → UInt8) (j : ℕ) :
    cellVolts ((rxData (3 * j + 2)).toUInt16 <<< 4) (rxData (3 * j + 1) >>> 4).toUInt16 =
      reading rxData (2 * j + 1) := by
  have h₀ := (rxData (3 * j)).toNat_lt
  have h₁ := (rxData (3 * j + 1)).toNat_lt
  have h₂ := (rxData (3 * j + 2)).toNat_lt
  have hhigh : (rxData (3 * j + 1) >>> 4).toNat = (rxData (3 * j + 1)).toNat / 16 := by
    rw [UInt8.toNat_shiftRight]
    exact Nat.shiftRight_eq_div_pow _ 4
  have hshift : ((rxData (3 * j + 2)).toUInt16 <<< 4).toNat =
      2 ^ 4 * (rxData (3 * j + 2)).toNat := by
    rw [UInt16.toNat_shiftLeft, UInt8.toNat_toUInt16]
    change (_ <<< 4) % 2 ^ 16 = _
    rw [Nat.shiftLeft_eq]
    omega
  have hcount : 2 ^ 4 * (rxData (3 * j + 2)).toNat + (rxData (3 * j + 1)).toNat / 16 =
      packedPair rxData ((2 * j + 1) / 2) / 2 ^ (12 * ((2 * j + 1) % 2)) % 2 ^ 12 := by
    rw [packedPair, show (2 * j + 1) / 2 = j by omega, show (2 * j + 1) % 2 = 1 by omega]
    omega
  rw [cellVolts, reading, hshift, UInt8.toNat_toUInt16, hhigh, ← hcount, Nat.cast_add]

theorem rdcv_loop_cell (rxData : ℕ → UInt8) (n j : ℕ) (cells : ℕ → ℚ) (k : ℕ) :
    rdcvLoop rxData n (2 * j) (3 * j) cells k =
      if 2 * j ≤ k ∧ k < 2 * j + 2 * n then reading rxData k else cells k := by
  induction n generalizing j cells with
  | zero => exact (if_neg (by omega)).symm
  | succ n ih =>
    rw [rdcvLoop, even_reading, odd_reading]
    have hnext := ih (j + 1) (Function.update (Function.update cells (2 * j)
      (reading rxData (2 * j))) (2 * j + 1) (reading rxData (2 * j + 1)))
    refine hnext.trans ?_
    by_cases h : 2 * (j + 1) ≤ k ∧ k < 2 * (j + 1) + 2 * n
    · rw [if_pos h, if_pos (by omega)]
    rw [if_neg h]
    by_cases h₁ : k = 2 * j + 1
    · subst h₁
      rw [Function.update_self, if_pos (by omega)]
    rw [Function.update_of_ne h₁]
    by_cases h₀ : k = 2 * j
    · subst h₀
      rw [Function.update_self, if_pos (by omega)]
    · rw [Function.update_of_ne h₀, if_neg (by omega)]

theorem rdcv_cell (rxData : ℕ → UInt8) (cells : ℕ → ℚ) (k : ℕ) :
    (ltc6803Rdcv rxData cells).cells k = if k < 12 then reading rxData k else cells k := by
  have h := rdcv_loop_cell rxData 6 0 cells k
  rw [ltc6803Rdcv]
  refine h.trans ?_
  simp only [Nat.mul_zero, Nat.zero_le, true_and, Nat.zero_add]

/-- A response is treated as it should be exactly when its checksum matches or it carries the
voltages that the cells already hold. -/
theorem rdcv_trusted_iff (cells : ℕ → ℚ) (rxData : ℕ → UInt8) :
    Trusted cells rxData ↔ PecMatches rxData ∨ ∀ k < 12, reading rxData k = cells k := by
  constructor
  · intro h
    by_cases hp : PecMatches rxData
    · exact Or.inl hp
    · refine Or.inr fun k hk => ?_
      have hcell := congrFun (h.refused hp) k
      rw [rdcv_cell, if_pos hk] at hcell
      exact hcell
  · intro h
    have hrefused (hp : ¬ PecMatches rxData) : (ltc6803Rdcv rxData cells).cells = cells := by
      funext k
      rw [rdcv_cell]
      split_ifs with hk
      · exact h.resolve_left hp k hk
      · rfl
    refine ⟨fun _ k hk => ?_, hrefused, fun hp c x => ?_⟩
    · rw [rdcv_cell, if_pos hk]
    · rw [hrefused hp]

/-- A charger on a pack at 4.3 V, and the bytes of a dead bus: the charge switch closes. -/
theorem dead_bus_closes_charge_switch :
    ¬ ∀ (cells : ℕ → ℚ) (rxData : ℕ → UInt8), Trusted cells rxData := by
  intro h
  let x : ChargerInput :=
    { inputVoltage := 10, cells := fun _ => 0, current := 0, busVoltage := 20
      config := Config.default, configLater := Config.default, stack := 0, dtTime := 0
      startTime := 0, startedTime := 0, decideTime := 0, decidedTime := 0, lastTime := 0 }
  have hswitch := congrArg Charger.chgSw ((h (fun _ => 43 / 10) fun _ => 0).decision
    (by decide +kernel) (chargerInit Config.default 0 0) x)
  exact absurd hswitch (by decide +kernel)

end Battman
