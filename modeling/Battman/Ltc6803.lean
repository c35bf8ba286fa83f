import Battman.Config

/-! ltc6803.c: the discharge bits in the configuration register of the cell monitor. -/
namespace Battman

/-- `lock` is set while the drain command holds the bits. -/
structure Ltc6803 where
  configReg : Fin 6 → UInt8
  lock : Bool

def bitMask (n : ℕ) : UInt8 := UInt8.ofNat (1 <<< n)

namespace Ltc6803

def init : Ltc6803 where
  configReg := ![0b01100001, 0, 0, 0b11111100, 0, 0]
  lock := false

def setReg (l : Ltc6803) (i : Fin 6) (value : UInt8) : Ltc6803 :=
  { l with configReg := Function.update l.configReg i value }

def enableBalance (l : Ltc6803) (numCells cell : ℕ) : Ltc6803 :=
  if l.lock then l
  else if numCells < cell then l
  else if cell ≤ 8 then l.setReg 1 (l.configReg 1 ||| bitMask (cell - 1))
  else l.setReg 2 (l.configReg 2 ||| bitMask (cell - 9))

def disableBalance (l : Ltc6803) (numCells cell : ℕ) : Ltc6803 :=
  if l.lock then l
  else if numCells < cell then l
  else if cell ≤ 8 then l.setReg 1 (l.configReg 1 &&& ~~~bitMask (cell - 1))
  else l.setReg 2 (l.configReg 2 &&& ~~~bitMask (cell - 9))

def disableBalanceAll (l : Ltc6803) : Ltc6803 :=
  if l.lock then l else (l.setReg 1 0).setReg 2 0

def enableDrain (l : Ltc6803) (numCells : ℕ) : Ltc6803 :=
  { (List.range numCells).foldl (fun l i => l.enableBalance numCells (i + 1)) l with lock := true }

def disableDrain (l : Ltc6803) : Ltc6803 := ({ l with lock := false } : Ltc6803).disableBalanceAll

def discharging (l : Ltc6803) (cell : ℕ) : Bool :=
  if cell ≤ 8 then (l.configReg 1).toBitVec.getLsbD (cell - 1)
  else (l.configReg 2).toBitVec.getLsbD (cell - 9)

end Ltc6803

section Bits

variable {l : Ltc6803} {numCells cell c n i : ℕ} {x : UInt8}

theorem bit_mask_bit (hi : i < 8) : (bitMask n).toBitVec.getLsbD i = decide (i = n) := by
  have h : (bitMask n).toBitVec = BitVec.ofNat 8 (1 <<< n) := rfl
  rw [h, BitVec.getLsbD_ofNat, Nat.one_shiftLeft, Nat.testBit_two_pow, decide_eq_true hi,
    Bool.true_and]
  exact decide_eq_decide.mpr eq_comm

theorem set_bit (hi : i < 8) :
    (x ||| bitMask n).toBitVec.getLsbD i = (x.toBitVec.getLsbD i || decide (i = n)) := by
  rw [UInt8.toBitVec_or, BitVec.getLsbD_or, bit_mask_bit hi]

theorem clear_bit (hi : i < 8) :
    (x &&& ~~~bitMask n).toBitVec.getLsbD i = (x.toBitVec.getLsbD i && decide (i ≠ n)) := by
  rw [UInt8.toBitVec_and, UInt8.toBitVec_not, BitVec.getLsbD_and, BitVec.getLsbD_not,
    bit_mask_bit hi, decide_eq_true hi, Bool.true_and, decide_not]

theorem discharging_set_reg {cell : ℕ} {f : Bool → Bool} {lo hi : UInt8}
    (hcell : 1 ≤ cell) (hc : 1 ≤ c) (hc' : c ≤ 16)
    (hlo : ∀ i < 8, lo.toBitVec.getLsbD i =
      if i = cell - 1 then f ((l.configReg 1).toBitVec.getLsbD i)
      else (l.configReg 1).toBitVec.getLsbD i)
    (hhi : ∀ i < 8, hi.toBitVec.getLsbD i =
      if i = cell - 9 then f ((l.configReg 2).toBitVec.getLsbD i)
      else (l.configReg 2).toBitVec.getLsbD i) :
    (if cell ≤ 8 then l.setReg 1 lo else l.setReg 2 hi).discharging c =
      if c = cell then f (l.discharging c) else l.discharging c := by
  have h12 : (2 : Fin 6) ≠ 1 := by decide
  unfold Ltc6803.discharging Ltc6803.setReg
  by_cases h8 : c ≤ 8
  · by_cases hcell8 : cell ≤ 8
    · have hsame : c - 1 = cell - 1 ↔ c = cell := by omega
      rw [if_pos hcell8, if_pos h8, if_pos h8]
      dsimp only
      rw [Function.update_self, hlo _ (by omega)]
      simp only [hsame]
    · have hne : c ≠ cell := by omega
      rw [if_neg hcell8, if_pos h8, if_pos h8, if_neg hne]
      dsimp only
      rw [Function.update_of_ne h12.symm]
  · by_cases hcell8 : cell ≤ 8
    · have hne : c ≠ cell := by omega
      rw [if_pos hcell8, if_neg h8, if_neg h8, if_neg hne]
      dsimp only
      rw [Function.update_of_ne h12]
    · have hsame : c - 9 = cell - 9 ↔ c = cell := by omega
      rw [if_neg hcell8, if_neg h8, if_neg h8]
      dsimp only
      rw [Function.update_self, hhi _ (by omega)]
      simp only [hsame]

theorem discharging_enable (hl : l.lock = false) (hcell : 1 ≤ cell ∧ cell ≤ numCells)
    (hc : 1 ≤ c ∧ c ≤ 16) :
    (l.enableBalance numCells cell).discharging c =
      if c = cell then true else l.discharging c := by
  have hbit (n : ℕ) (x : UInt8) (i : ℕ) (hi : i < 8) : (x ||| bitMask n).toBitVec.getLsbD i =
      if i = n then true else x.toBitVec.getLsbD i := by
    rw [set_bit hi]
    by_cases h : i = n <;> simp [h]
  rw [Ltc6803.enableBalance, if_neg (by simp [hl]), if_neg (by omega)]
  exact discharging_set_reg (f := fun _ => true) hcell.1 hc.1 hc.2 (hbit _ _) (hbit _ _)

theorem discharging_disable (hl : l.lock = false) (hcell : 1 ≤ cell ∧ cell ≤ numCells)
    (hc : 1 ≤ c ∧ c ≤ 16) :
    (l.disableBalance numCells cell).discharging c =
      if c = cell then false else l.discharging c := by
  have hbit (n : ℕ) (x : UInt8) (i : ℕ) (hi : i < 8) : (x &&& ~~~bitMask n).toBitVec.getLsbD i =
      if i = n then false else x.toBitVec.getLsbD i := by
    rw [clear_bit hi]
    by_cases h : i = n <;> simp [h]
  rw [Ltc6803.disableBalance, if_neg (by simp [hl]), if_neg (by omega)]
  exact discharging_set_reg (f := fun _ => false) hcell.1 hc.1 hc.2 (hbit _ _) (hbit _ _)

theorem enable_lock : (l.enableBalance numCells cell).lock = l.lock := by
  unfold Ltc6803.enableBalance
  split_ifs <;> rfl

theorem disable_lock : (l.disableBalance numCells cell).lock = l.lock := by
  unfold Ltc6803.disableBalance
  split_ifs <;> rfl

end Bits

end Battman
