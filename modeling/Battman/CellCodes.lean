import Battman.CellReadings

/-! ltc6803_rdcv on what the chip sends: twelve codes of 12 bits, packed in pairs. -/
namespace Battman

inductive BufferAccess where
  | read (i : ℕ)
  | write (k : ℕ)
  deriving DecidableEq

/-- The loop of ltc6803_rdcv with data_counter and the accesses to rx_data and cells. -/
structure Unpacking where
  dataCounter : ℕ
  cells : ℕ → ℚ
  accesses : List BufferAccess

namespace Unpacking

def peek (rxData : ℕ → UInt8) : StateM Unpacking UInt8 := fun s =>
  (rxData s.dataCounter, { s with accesses := s.accesses ++ [.read s.dataCounter] })

/-- `rx_data[data_counter++]`. -/
def next (rxData : ℕ → UInt8) : StateM Unpacking UInt8 := do
  let byte ← peek rxData
  modify fun s => { s with dataCounter := s.dataCounter + 1 }
  return byte

def write (k : ℕ) (volts : ℚ) : StateM Unpacking Unit :=
  modify fun s =>
    { s with
      cells := Function.update s.cells k volts
      accesses := s.accesses ++ [.write k] }

def pair (rxData : ℕ → UInt8) (k : ℕ) : StateM Unpacking Unit := do
  let temp := (← next rxData).toUInt16
  let temp2 := ((← peek rxData) &&& 0x0F).toUInt16 <<< 8
  write k (cellVolts temp temp2)
  let temp2 := ((← next rxData) >>> 4).toUInt16
  let temp := (← next rxData).toUInt16 <<< 4
  write (k + 1) (cellVolts temp temp2)

def rounds (rxData : ℕ → UInt8) (n k : ℕ) : StateM Unpacking Unit :=
  match n with
  | 0 => pure ()
  | n + 1 => do
    pair rxData k
    rounds rxData n (k + 2)

def rdcv (rxData : ℕ → UInt8) (cells : ℕ → ℚ) : Unpacking :=
  (rounds rxData 6 0 { dataCounter := 0, cells, accesses := [] }).2

def pairAccesses (j : ℕ) : List BufferAccess :=
  [.read (3 * j), .read (3 * j + 1), .write (2 * j),
    .read (3 * j + 1), .read (3 * j + 2), .write (2 * j + 1)]

end Unpacking

/-- Byte `i` of the packed codes: two codes in three bytes. -/
def packedByte (v : ℕ → BitVec 12) (i : ℕ) : UInt8 :=
  let even := v (2 * (i / 3))
  let odd := v (2 * (i / 3) + 1)
  if i % 3 = 0 then UInt8.ofBitVec (even.extractLsb' 0 8)
  else if i % 3 = 1 then UInt8.ofBitVec (odd.extractLsb' 0 4 ++ even.extractLsb' 8 4)
  else UInt8.ofBitVec (odd.extractLsb' 4 8)

def chipResponse (v : ℕ → BitVec 12) (i : ℕ) : UInt8 :=
  if i < 18 then packedByte v i else pec8Calc 18 (packedByte v)

section Loop

variable (rxData : ℕ → UInt8) (cells : ℕ → ℚ) (accesses : List BufferAccess)

theorem peek_bind {α : Type} (f : UInt8 → StateM Unpacking α) (s : Unpacking) :
    (Unpacking.peek rxData >>= f) s =
      f (rxData s.dataCounter) { s with accesses := s.accesses ++ [.read s.dataCounter] } := rfl

theorem next_bind {α : Type} (f : UInt8 → StateM Unpacking α) (s : Unpacking) :
    (Unpacking.next rxData >>= f) s =
      f (rxData s.dataCounter)
        { s with
          dataCounter := s.dataCounter + 1
          accesses := s.accesses ++ [.read s.dataCounter] } := rfl

theorem write_bind {α : Type} (k : ℕ) (volts : ℚ) (f : Unit → StateM Unpacking α)
    (s : Unpacking) :
    (Unpacking.write k volts >>= f) s =
      f ()
        { s with
          cells := Function.update s.cells k volts
          accesses := s.accesses ++ [.write k] } := rfl

theorem write_run (k : ℕ) (volts : ℚ) (s : Unpacking) :
    (Unpacking.write k volts s).2 =
      { s with
        cells := Function.update s.cells k volts
        accesses := s.accesses ++ [.write k] } := rfl

theorem unpack_pair (k d : ℕ) :
    (Unpacking.pair rxData k ⟨d, cells, accesses⟩).2 =
      ⟨d + 3, rdcvLoop rxData 1 k d cells,
        accesses ++ [.read d, .read (d + 1), .write k, .read (d + 1), .read (d + 2),
          .write (k + 1)]⟩ := by
  simp only [Unpacking.pair, next_bind, peek_bind, write_bind, rdcvLoop]
  rw [write_run]
  simp only [List.append_assoc, List.cons_append, List.nil_append]

theorem unpack_rounds (n j : ℕ) :
    (Unpacking.rounds rxData n (2 * j) ⟨3 * j, cells, accesses⟩).2 =
      ⟨3 * (j + n), rdcvLoop rxData n (2 * j) (3 * j) cells,
        accesses ++ (List.range' j n).flatMap Unpacking.pairAccesses⟩ := by
  induction n generalizing j cells accesses with
  | zero =>
    rw [List.range'_zero, List.flatMap_nil, List.append_nil]
    rfl
  | succ n ih =>
    have hstep : (Unpacking.rounds rxData (n + 1) (2 * j) ⟨3 * j, cells, accesses⟩).2 =
        (Unpacking.rounds rxData n (2 * j + 2)
          (Unpacking.pair rxData (2 * j) ⟨3 * j, cells, accesses⟩).2).2 := rfl
    have hnext := ih (rdcvLoop rxData 1 (2 * j) (3 * j) cells)
      (accesses ++ Unpacking.pairAccesses j) (j + 1)
    rw [hstep, unpack_pair]
    refine hnext.trans ?_
    rw [List.range'_succ, List.flatMap_cons, List.append_assoc, Nat.add_right_comm,
      Nat.add_assoc]
    rfl

/-- The program with the counter computes what the model of ltc6803_rdcv does. -/
theorem unpack_rdcv :
    (Unpacking.rdcv rxData cells).cells = (ltc6803Rdcv rxData cells).cells ∧
      (Unpacking.rdcv rxData cells).accesses =
        (List.range' 0 6).flatMap Unpacking.pairAccesses := by
  have h := unpack_rounds rxData cells [] 6 0
  rw [Nat.mul_zero, List.nil_append] at h
  rw [Unpacking.rdcv, h, ltc6803Rdcv]
  exact ⟨rfl, rfl⟩

end Loop

section Codes

variable (v : ℕ → BitVec 12)

theorem packed_pair_codes {j : ℕ} (hj : j < 6) :
    packedPair (chipResponse v) j = (v (2 * j)).toNat + 2 ^ 12 * (v (2 * j + 1)).toNat := by
  have hlow : (chipResponse v (3 * j)).toNat = (v (2 * j)).toNat % 2 ^ 8 := by
    rw [chipResponse, if_pos (by omega), packedByte, if_pos (by omega),
      show 3 * j / 3 = j by omega, UInt8.toNat_ofBitVec, BitVec.extractLsb'_toNat,
      Nat.shiftRight_zero]
  have hmid : (chipResponse v (3 * j + 1)).toNat =
      (v (2 * j)).toNat / 2 ^ 8 % 2 ^ 4 + 2 ^ 4 * ((v (2 * j + 1)).toNat % 2 ^ 4) := by
    rw [chipResponse, if_pos (by omega), packedByte, if_neg (by omega), if_pos (by omega),
      show (3 * j + 1) / 3 = j by omega, UInt8.toNat_ofBitVec, BitVec.toNat_append,
      BitVec.extractLsb'_toNat, BitVec.extractLsb'_toNat, Nat.shiftRight_zero,
      Nat.shiftRight_eq_div_pow,
      ← Nat.shiftLeft_add_eq_or_of_lt (Nat.mod_lt _ (by decide)), Nat.shiftLeft_eq]
    omega
  have hhigh : (chipResponse v (3 * j + 2)).toNat = (v (2 * j + 1)).toNat / 2 ^ 4 := by
    have hlt := (v (2 * j + 1)).isLt
    rw [chipResponse, if_pos (by omega), packedByte, if_neg (by omega), if_neg (by omega),
      show (3 * j + 2) / 3 = j by omega, UInt8.toNat_ofBitVec, BitVec.extractLsb'_toNat,
      Nat.shiftRight_eq_div_pow]
    omega
  have hlt := (v (2 * j)).isLt
  rw [packedPair, hlow, hmid, hhigh]
  omega

theorem reading_code {k : ℕ} (hk : k < 12) :
    reading (chipResponse v) k = (((v k).toNat : ℤ) - 512 : ℤ) * 1.5 / 1000 := by
  have hcode : packedPair (chipResponse v) (k / 2) / 2 ^ (12 * (k % 2)) % 2 ^ 12 =
      (v k).toNat := by
    have heven := (v (2 * (k / 2))).isLt
    have hodd := (v (2 * (k / 2) + 1)).isLt
    rw [packed_pair_codes v (by omega)]
    rcases Nat.mod_two_eq_zero_or_one k with h | h
    · rw [h, show v k = v (2 * (k / 2)) by rw [show 2 * (k / 2) = k by omega]]
      omega
    · rw [h, show v k = v (2 * (k / 2) + 1) by rw [show 2 * (k / 2) + 1 = k by omega]]
      omega
  rw [reading, hcode]

theorem response_pec_matches : PecMatches (chipResponse v) := by
  have hbytes : ∀ i ∈ List.range 18, chipResponse v i = packedByte v i := fun i hi =>
    if_pos (List.mem_range.mp hi)
  have hpec : pec8Calc 18 (chipResponse v) = pec8Calc 18 (packedByte v) :=
    List.foldl_ext _ _ _ fun remainder i hi => by rw [hbytes i hi]
  have hlast : chipResponse v 18 = pec8Calc 18 (packedByte v) := if_neg (lt_irrefl 18)
  exact hlast.trans hpec.symm

end Codes

/-- Every code comes out as the voltage of its cell. Of the response the loop reads the 18 packed
bytes, each for the cells it belongs to, and it writes the twelve cells. -/
theorem rdcv_inverts_packing (v : ℕ → BitVec 12) (cells : ℕ → ℚ) :
    (ltc6803Rdcv (chipResponse v) cells).pecError = 0 ∧
      (∀ j < 12, (ltc6803Rdcv (chipResponse v) cells).cells j =
        (((v j).toNat : ℤ) - 512 : ℤ) * 1.5 / 1000) ∧
      (∀ j, 12 ≤ j → (ltc6803Rdcv (chipResponse v) cells).cells j = cells j) ∧
      (Unpacking.rdcv (chipResponse v) cells).cells =
        (ltc6803Rdcv (chipResponse v) cells).cells ∧
      (Unpacking.rdcv (chipResponse v) cells).accesses =
        (List.range' 0 6).flatMap Unpacking.pairAccesses ∧
      (∀ i, .read i ∈ (Unpacking.rdcv (chipResponse v) cells).accesses ↔ i < 18) ∧
      (∀ k, .write k ∈ (Unpacking.rdcv (chipResponse v) cells).accesses ↔ k < 12) := by
  obtain ⟨hcells, haccesses⟩ := unpack_rdcv (chipResponse v) cells
  have hpec : ¬ chipResponse v 18 ≠ pec8Calc 18 (chipResponse v) :=
    not_not.mpr (response_pec_matches v)
  refine ⟨?_, fun j hj => ?_, fun j hj => ?_, hcells, haccesses, fun i => ?_, fun k => ?_⟩
  · rw [ltc6803Rdcv, if_neg hpec]
  · rw [rdcv_cell, if_pos hj, reading_code v hj]
  · rw [rdcv_cell, if_neg (by omega)]
  · rw [haccesses]
    simp [Unpacking.pairAccesses, List.range']
    omega
  · rw [haccesses]
    simp [Unpacking.pairAccesses, List.range']
    omega

end Battman
