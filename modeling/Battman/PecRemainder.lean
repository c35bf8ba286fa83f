import Battman.CellReadings
import Battman.PolyRemainder

/-! pec8_calc is a division of polynomials, so that the monitor and the board find every burst
of up to eight wrong bits in a message. -/
namespace Battman
open Polynomial PolyRemainder

def transmittedBit (data : ℕ → UInt8) (i : ℕ) : Bool := (data (i / 8)).toBitVec.getMsbD (i % 8)

/-- The first `len` bytes as a polynomial, the first bit of the first byte the highest. -/
noncomputable def messagePoly (len : ℕ) (data : ℕ → UInt8) : (ZMod 2)[X] :=
  streamPoly (transmittedBit data) (8 * len)

noncomputable def bytePoly (b : UInt8) : (ZMod 2)[X] := wordPoly b.toBitVec

def PecPasses (len : ℕ) (bytes : ℕ → UInt8) : Prop := bytes len = pec8Calc len bytes

/-- The strings differ in at most eight consecutive bits. -/
def DifferInBurst (len : ℕ) (a b : ℕ → UInt8) : Prop :=
  ∃ s, ∀ i < 8 * len, transmittedBit a i ≠ transmittedBit b i → s ≤ i ∧ i < s + 8

/-- The nine bytes that ltc6803_wrcfg sends: a command, the configuration and its PEC. -/
def wrcfgCommand (config : ℕ → UInt8) (i : ℕ) : UInt8 :=
  if i = 0 then 0x01
  else if i = 1 then 0xC7
  else if i < 8 then config (i - 2)
  else pec8Calc 6 config

section Register

variable {len : ℕ} {a b data : ℕ → UInt8}

theorem high_bit (r : UInt8) : r &&& 128 ≠ 0 ↔ r.toBitVec.msb = true := by
  have hpow : (128 : UInt8).toBitVec = BitVec.twoPow 8 7 := rfl
  rw [Ne, ← UInt8.toBitVec_inj, UInt8.toBitVec_and, hpow, BitVec.and_twoPow,
    BitVec.msb_eq_getLsbD_last]
  cases r.toBitVec.getLsbD 7 <;> decide

/-- The byte drops the bit that the shift moves out of it, as the register does. -/
theorem pec_bit_divides (r : UInt8) : (pecBit r).toBitVec = divideBit 7 r.toBitVec := by
  have hshift : (r <<< 1).toBitVec = r.toBitVec <<< 1 := rfl
  rw [pecBit, divideBit]
  by_cases h : r.toBitVec.msb = true
  · rw [if_pos ((high_bit r).mpr h), if_pos h, UInt8.toBitVec_xor, hshift]
    rfl
  · rw [if_neg (mt (high_bit r).mp h), if_neg h, hshift]

theorem pec_bits_divide (r : UInt8) (n : ℕ) :
    (pecBit^[n] r).toBitVec = (divideBit 7)^[n] r.toBitVec := by
  induction n with
  | zero => rfl
  | succ n ih =>
    rw [Function.iterate_succ_apply', Function.iterate_succ_apply', pec_bit_divides, ih]

theorem pec8_calc_succ (len : ℕ) (data : ℕ → UInt8) :
    pec8Calc (len + 1) data = pecBit^[8] (pec8Calc len data ^^^ data len) := by
  rw [pec8Calc, pec8Calc, List.range_succ, List.foldl_append, List.foldl_cons, List.foldl_nil]

theorem pec_remainder (len : ℕ) (data : ℕ → UInt8) :
    (pec8Calc len data).toBitVec = remainder 7 0x41 len fun i => (data i).toBitVec := by
  induction len with
  | zero => rfl
  | succ len ih => rw [pec8_calc_succ, pec_bits_divide, UInt8.toBitVec_xor, ih, remainder_succ]

def withPec (len : ℕ) (data : ℕ → UInt8) : ℕ → UInt8 :=
  Function.update data len (pec8Calc len data)

theorem pec_divisor : divisor (7 : BitVec 8) = X ^ 8 + X ^ 2 + X + 1 := by
  have hword : wordPoly (7 : BitVec 8) = X ^ 2 + X + 1 := by
    have hbits : ∀ i ∈ Finset.range 8, (7 : BitVec 8).getLsbD i = decide (i < 3) := by decide
    rw [wordPoly, Finset.sum_congr rfl fun i hi => by rw [hbits i hi]]
    simp [Finset.sum_range_succ, unit]
    ring
  rw [divisor, hword]
  ring

theorem message_poly_words (len : ℕ) (data : ℕ → UInt8) :
    streamPoly (wordStream fun i => (data i).toBitVec) (8 * len) = messagePoly len data := rfl

theorem pec_poly (len : ℕ) (data : ℕ → UInt8) :
    bytePoly (pec8Calc len data) =
      (bytePoly 0x41 * X ^ (8 * len) + messagePoly len data * X ^ 8) %ₘ
        (X ^ 8 + X ^ 2 + X + 1) := by
  rw [← pec_divisor, bytePoly, pec_remainder, remainder_poly, message_poly_words]
  rfl

theorem pec8_calc_congr (h : ∀ i < len, a i = b i) : pec8Calc len a = pec8Calc len b :=
  List.foldl_ext _ _ _ fun _ i hi => by rw [h i (List.mem_range.mp hi)]

theorem pec_passes_iff (len : ℕ) (bytes : ℕ → UInt8) :
    PecPasses len bytes ↔ pec8Calc (len + 1) bytes = 0 := by
  rw [PecPasses, ← UInt8.toBitVec_inj, ← UInt8.toBitVec_inj, pec_remainder, pec_remainder]
  exact (remainder_zero_iff rfl (by decide) len fun i => (bytes i).toBitVec).symm

theorem pec_append (len : ℕ) (data : ℕ → UInt8) :
    pec8Calc (len + 1) (withPec len data) = 0 := by
  rw [← pec_passes_iff, PecPasses, withPec, Function.update_self]
  exact pec8_calc_congr fun i hi => (Function.update_of_ne hi.ne _ _).symm

theorem pec_xor (len : ℕ) (a b : ℕ → UInt8) :
    (pec8Calc len a ^^^ pec8Calc len b).toBitVec =
      remainder 7 0 len fun i => (a i ^^^ b i).toBitVec := by
  rw [UInt8.toBitVec_xor, pec_remainder, pec_remainder, remainder_xor]
  rfl

theorem pec_burst (hburst : DifferInBurst (len + 1) a b) (ha : PecPasses len a)
    (hb : PecPasses len b) : ∀ i < len + 1, a i = b i := by
  obtain ⟨s, hs⟩ := hburst
  have hzero {c : ℕ → UInt8} (hc : PecPasses len c) :
      remainder 7 0x41 (len + 1) (fun i => (c i).toBitVec) = 0 := by
    rw [← pec_remainder, (pec_passes_iff len c).mp hc]
    rfl
  have hstream := burst_found (s := s) rfl (by decide) (hzero ha) (hzero hb) hs
  intro i hi
  exact UInt8.toBitVec_inj.mp (word_stream_injective hstream i hi)

theorem wrcfg_passes (config : ℕ → UInt8) :
    PecPasses 6 fun i => wrcfgCommand config (i + 2) :=
  pec8_calc_congr fun i hi => by
    rw [wrcfgCommand, if_neg (by omega), if_neg (by omega), if_pos (by omega),
      Nat.add_sub_cancel]

end Register

/-- The loop divides polynomials. The PEC of a string with its PEC is 0, the XOR of two PECs is a
function of the XOR of the strings, and of two strings that differ in a burst of eight bits one
fails the check. -/
theorem pec8_calc_is_crc (len : ℕ) :
    (∀ data : ℕ → UInt8, bytePoly (pec8Calc len data) =
        (bytePoly 0x41 * X ^ (8 * len) + messagePoly len data * X ^ 8) %ₘ
          (X ^ 8 + X ^ 2 + X + 1)) ∧
      (∀ data : ℕ → UInt8, pec8Calc (len + 1) (withPec len data) = 0) ∧
      (∀ a b a' b' : ℕ → UInt8, (∀ i < len, a i ^^^ b i = a' i ^^^ b' i) →
        pec8Calc len a ^^^ pec8Calc len b = pec8Calc len a' ^^^ pec8Calc len b') ∧
      ∀ a b : ℕ → UInt8, (∃ i < len + 1, a i ≠ b i) → DifferInBurst (len + 1) a b →
        ¬ (PecPasses len a ∧ PecPasses len b) := by
  refine ⟨pec_poly len, pec_append len, fun a b a' b' h => ?_, ?_⟩
  · rw [← UInt8.toBitVec_inj, pec_xor, pec_xor]
    exact remainder_congr fun i hi => by rw [h i hi]
  · rintro a b ⟨i, hi, hne⟩ hburst ⟨ha, hb⟩
    exact hne (pec_burst hburst ha hb i hi)

end Battman
