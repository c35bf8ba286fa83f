import Mathlib

/-! Division of polynomials over GF(2) in a shift register. The register holds the remainder of
what has been shifted in; what leaves no remainder is a code that finds every burst as long as
the register. -/
namespace PolyRemainder
open Polynomial

def unit (b : Bool) : ZMod 2 := if b then 1 else 0

@[simp] theorem unit_false : unit false = 0 := rfl

theorem unit_xor (a b : Bool) : unit (a ^^ b) = unit a + unit b := by
  cases a <;> cases b <;> decide

theorem unit_injective : Function.Injective unit := by decide

section Words

variable {w : ℕ} {g x y : BitVec w}

/-- A word as a polynomial: bit `i` is the coefficient of `X ^ i`. -/
noncomputable def wordPoly (x : BitVec w) : (ZMod 2)[X] :=
  ∑ i ∈ Finset.range w, C (unit (x.getLsbD i)) * X ^ i

@[simp] theorem word_poly_coeff (x : BitVec w) (i : ℕ) :
    (wordPoly x).coeff i = unit (x.getLsbD i) := by
  simp only [wordPoly, finsetSum_coeff, coeff_C_mul_X_pow, Finset.sum_ite_eq, Finset.mem_range]
  split_ifs with h
  · rfl
  · rw [BitVec.getLsbD_of_ge x i (not_lt.mp h), unit_false]

theorem word_poly_degree (x : BitVec w) : (wordPoly x).degree < w := by
  rw [degree_lt_iff_coeff_zero]
  intro i hi
  rw [word_poly_coeff, BitVec.getLsbD_of_ge x i hi, unit_false]

theorem word_poly_injective : Function.Injective (wordPoly : BitVec w → (ZMod 2)[X]) := by
  intro x y h
  refine BitVec.eq_of_getLsbD_eq fun i _ => unit_injective ?_
  rw [← word_poly_coeff, ← word_poly_coeff, h]

@[simp] theorem word_poly_zero : wordPoly (0 : BitVec w) = 0 := by
  ext i
  simp

@[simp] theorem word_poly_xor (x y : BitVec w) :
    wordPoly (x ^^^ y) = wordPoly x + wordPoly y := by
  ext i
  rw [coeff_add, word_poly_coeff, word_poly_coeff, word_poly_coeff, BitVec.getLsbD_xor, unit_xor]

theorem word_poly_eq_zero : wordPoly x = 0 ↔ x = 0 := by
  rw [← word_poly_zero, word_poly_injective.eq_iff]

theorem word_poly_shift (x : BitVec w) :
    wordPoly (x <<< 1) = X * wordPoly x + C (unit x.msb) * X ^ w := by
  ext i
  rw [coeff_add, coeff_C_mul_X_pow, word_poly_coeff, BitVec.getLsbD_shiftLeft]
  cases i with
  | zero =>
    have hlow : (if 0 = w then unit x.msb else 0) = 0 := by
      split_ifs with hw
      · subst hw
        rw [BitVec.msb_eq_getLsbD_last, BitVec.getLsbD_of_ge x _ (by omega), unit_false]
      · rfl
    simp [hlow]
  | succ j =>
    rw [coeff_X_mul, word_poly_coeff, Nat.add_sub_cancel]
    rcases lt_trichotomy (j + 1) w with hj | rfl | hj
    · simp [hj, hj.ne]
    · have hmsb : x.msb = x.getLsbD j := by
        rw [BitVec.msb_eq_getLsbD_last, Nat.add_sub_cancel]
      simp [hmsb, CharTwo.add_self_eq_zero]
    · simp [hj.not_gt, hj.ne', BitVec.getLsbD_of_ge x j (by omega)]

/-- The divisor whose leading term does not fit into the word. -/
noncomputable def divisor (g : BitVec w) : (ZMod 2)[X] := X ^ w + wordPoly g

theorem divisor_monic (g : BitVec w) : (divisor g).Monic := monic_X_pow_add (word_poly_degree g)

theorem divisor_degree (g : BitVec w) : (divisor g).degree = w := by
  rw [divisor, degree_add_eq_left_of_degree_lt, degree_X_pow]
  rw [degree_X_pow]
  exact word_poly_degree g

theorem word_poly_mod (g x : BitVec w) : wordPoly x %ₘ divisor g = wordPoly x := by
  rw [modByMonic_eq_self_iff (divisor_monic g), divisor_degree]
  exact word_poly_degree x

theorem divisor_coprime (hg : g.getLsbD 0 = true) (hw : 0 < w) (n : ℕ) :
    IsCoprime (divisor g) (X ^ n) := by
  have hconst : (divisor g).coeff 0 = 1 := by
    rw [divisor, coeff_add, coeff_X_pow, if_neg hw.ne, word_poly_coeff, hg]
    rfl
  have hsplit := divX_mul_X_add (divisor g)
  rw [hconst, C_1] at hsplit
  refine IsCoprime.pow_right ⟨1, -divX (divisor g), ?_⟩
  linear_combination -hsplit

end Words

section Register

variable {w : ℕ} {g x y : BitVec w}

/-- One bit of the division: the register is shifted, and the divisor is subtracted when a bit
leaves it. -/
def divideBit (g r : BitVec w) : BitVec w := if r.msb then (r <<< 1) ^^^ g else r <<< 1

theorem divide_bit_poly (g r : BitVec w) :
    wordPoly (divideBit g r) = (X * wordPoly r) %ₘ divisor g := by
  symm
  refine (div_modByMonic_unique (C (unit r.msb)) _ (divisor_monic g) ⟨?_, ?_⟩).2
  · rw [divideBit]
    cases hmsb : r.msb with
    | false =>
      rw [if_neg Bool.false_ne_true, word_poly_shift, hmsb, unit_false, C_0]
      ring
    | true =>
      have hone : unit true = 1 := rfl
      have htwo : wordPoly g + wordPoly g = 0 := CharTwo.add_self_eq_zero _
      have hpow : (X ^ w + X ^ w : (ZMod 2)[X]) = 0 := CharTwo.add_self_eq_zero _
      rw [if_pos rfl, word_poly_xor, word_poly_shift, hmsb, hone, C_1, divisor]
      linear_combination htwo + hpow
  · rw [divisor_degree]
    exact word_poly_degree _

theorem mod_mul_mod {q : (ZMod 2)[X]} (hq : q.Monic) (a b : (ZMod 2)[X]) :
    (a * (b %ₘ q)) %ₘ q = (a * b) %ₘ q := by
  refine modByMonic_eq_of_dvd_sub hq ⟨-(a * (b /ₘ q)), ?_⟩
  have h := modByMonic_add_div b q
  linear_combination a * h

theorem divide_bits_poly (g r : BitVec w) (n : ℕ) :
    wordPoly ((divideBit g)^[n] r) = (X ^ n * wordPoly r) %ₘ divisor g := by
  induction n with
  | zero => rw [Function.iterate_zero_apply, pow_zero, one_mul, word_poly_mod]
  | succ n ih =>
    rw [Function.iterate_succ_apply', divide_bit_poly, ih, mod_mul_mod (divisor_monic g),
      pow_succ', mul_assoc]

@[simp] theorem divide_bits_zero (g : BitVec w) (n : ℕ) : (divideBit g)^[n] 0 = 0 := by
  apply word_poly_injective
  rw [divide_bits_poly, word_poly_zero, mul_zero, zero_modByMonic]

theorem divide_bits_xor (g x y : BitVec w) (n : ℕ) :
    (divideBit g)^[n] (x ^^^ y) = (divideBit g)^[n] x ^^^ (divideBit g)^[n] y := by
  apply word_poly_injective
  rw [word_poly_xor, divide_bits_poly, divide_bits_poly, divide_bits_poly, word_poly_xor, mul_add,
    add_modByMonic]

def remainder (g r : BitVec w) (n : ℕ) (data : ℕ → BitVec w) : BitVec w :=
  (List.range n).foldl (fun r i => (divideBit g)^[w] (r ^^^ data i)) r

theorem remainder_succ (g r : BitVec w) (n : ℕ) (data : ℕ → BitVec w) :
    remainder g r (n + 1) data = (divideBit g)^[w] (remainder g r n data ^^^ data n) := by
  rw [remainder, remainder, List.range_succ, List.foldl_append]
  rfl

theorem remainder_congr {g r : BitVec w} {n : ℕ} {a b : ℕ → BitVec w} (h : ∀ i < n, a i = b i) :
    remainder g r n a = remainder g r n b := by
  induction n with
  | zero => rfl
  | succ n ih => rw [remainder_succ, remainder_succ, ih fun i hi => h i (by omega), h n (by omega)]

theorem remainder_xor (g r s : BitVec w) (n : ℕ) (a b : ℕ → BitVec w) :
    remainder g r n a ^^^ remainder g s n b = remainder g (r ^^^ s) n fun i => a i ^^^ b i := by
  induction n with
  | zero => rfl
  | succ n ih =>
    have hswap : (remainder g r n a ^^^ remainder g s n b) ^^^ (a n ^^^ b n) =
        (remainder g r n a ^^^ a n) ^^^ (remainder g s n b ^^^ b n) := by
      ac_rfl
    rw [remainder_succ, remainder_succ, remainder_succ, ← ih, hswap]
    exact (divide_bits_xor _ _ _ _).symm

end Register

section Streams

variable {n k t : ℕ} {bit a b : ℕ → Bool}

/-- The first `n` bits of a stream as a polynomial, the first bit the highest. -/
noncomputable def streamPoly (bit : ℕ → Bool) (n : ℕ) : (ZMod 2)[X] :=
  ∑ i ∈ Finset.range n, C (unit (bit i)) * X ^ (n - 1 - i)

theorem stream_poly_succ (bit : ℕ → Bool) (n : ℕ) :
    streamPoly bit (n + 1) = X * streamPoly bit n + C (unit (bit n)) := by
  have hterm : ∀ i ∈ Finset.range n, C (unit (bit i)) * X ^ (n + 1 - 1 - i) =
      X * (C (unit (bit i)) * X ^ (n - 1 - i)) := by
    intro i hi
    have hi := Finset.mem_range.mp hi
    rw [show n + 1 - 1 - i = n - 1 - i + 1 by omega, pow_succ]
    ring
  rw [streamPoly, Finset.sum_range_succ, Finset.sum_congr rfl hterm, ← Finset.mul_sum,
    Nat.add_sub_cancel, Nat.sub_self, pow_zero, mul_one, streamPoly]

theorem stream_poly_congr (h : ∀ i < n, a i = b i) : streamPoly a n = streamPoly b n :=
  Finset.sum_congr rfl fun i hi => by rw [h i (Finset.mem_range.mp hi)]

theorem stream_poly_false (h : ∀ i < n, bit i = false) : streamPoly bit n = 0 :=
  Finset.sum_eq_zero fun i hi => by
    rw [h i (Finset.mem_range.mp hi), unit_false, C_0, zero_mul]

theorem stream_poly_append (bit : ℕ → Bool) (n k : ℕ) :
    streamPoly bit (n + k) = X ^ k * streamPoly bit n + streamPoly (fun i => bit (n + i)) k := by
  induction k with
  | zero => simp [streamPoly]
  | succ k ih =>
    rw [← Nat.add_assoc, stream_poly_succ, ih, stream_poly_succ, pow_succ]
    ring

theorem stream_poly_xor (a b : ℕ → Bool) (n : ℕ) :
    streamPoly (fun i => a i ^^ b i) n = streamPoly a n + streamPoly b n := by
  induction n with
  | zero => simp [streamPoly]
  | succ n ih =>
    rw [stream_poly_succ, stream_poly_succ, stream_poly_succ, ih, unit_xor, C_add]
    ring

theorem stream_poly_degree (bit : ℕ → Bool) (n : ℕ) : (streamPoly bit n).degree < n := by
  rw [degree_lt_iff_coeff_zero]
  intro m hm
  rw [streamPoly, finsetSum_coeff]
  refine Finset.sum_eq_zero fun i hi => ?_
  have hi := Finset.mem_range.mp hi
  rw [coeff_C_mul_X_pow, if_neg (by omega)]

theorem stream_poly_eq_zero (h : streamPoly bit n = 0) : ∀ i < n, bit i = false := by
  induction n with
  | zero => exact fun i hi => absurd hi (Nat.not_lt_zero i)
  | succ n ih =>
    have hlast : bit n = false := by
      have hcoeff := congrArg (fun p : (ZMod 2)[X] => p.coeff 0) h
      rw [stream_poly_succ] at hcoeff
      simp only [coeff_add, mul_coeff_zero, coeff_X_zero, zero_mul, zero_add, coeff_C_zero,
        coeff_zero] at hcoeff
      exact unit_injective hcoeff
    intro i hi
    rcases Nat.lt_succ_iff_lt_or_eq.mp hi with hi | rfl
    · rw [stream_poly_succ, hlast, unit_false, C_0, add_zero] at h
      exact ih ((mul_eq_zero.mp h).resolve_left X_ne_zero) i hi
    · exact hlast

def wordStream {w : ℕ} (data : ℕ → BitVec w) (i : ℕ) : Bool := (data (i / w)).getMsbD (i % w)

theorem stream_poly_word {w : ℕ} (x : BitVec w) : streamPoly x.getMsbD w = wordPoly x := by
  rw [streamPoly, wordPoly, ← Finset.sum_range_reflect]
  refine Finset.sum_congr rfl fun i hi => ?_
  have hi := Finset.mem_range.mp hi
  rw [BitVec.getMsbD, decide_eq_true (by omega : w - 1 - i < w), Bool.true_and,
    show w - 1 - (w - 1 - i) = i by omega]

theorem word_stream_succ {w : ℕ} (data : ℕ → BitVec w) (n : ℕ) :
    streamPoly (wordStream data) (w * (n + 1)) =
      X ^ w * streamPoly (wordStream data) (w * n) + wordPoly (data n) := by
  have hword : streamPoly (fun i => wordStream data (w * n + i)) w =
      streamPoly (data n).getMsbD w := by
    refine stream_poly_congr fun i hi => ?_
    rw [wordStream, Nat.mul_add_div (by omega), Nat.div_eq_of_lt hi, Nat.add_zero,
      Nat.mul_add_mod, Nat.mod_eq_of_lt hi]
  rw [Nat.mul_succ, stream_poly_append, hword, stream_poly_word]

end Streams

section Codes

variable {w n s : ℕ} {g r : BitVec w} {a b : ℕ → BitVec w}

theorem remainder_poly (g r : BitVec w) (n : ℕ) (data : ℕ → BitVec w) :
    wordPoly (remainder g r n data) =
      (wordPoly r * X ^ (w * n) + streamPoly (wordStream data) (w * n) * X ^ w) %ₘ divisor g := by
  induction n with
  | zero =>
    rw [Nat.mul_zero, pow_zero, mul_one, streamPoly, Finset.range_zero, Finset.sum_empty,
      zero_mul, add_zero, word_poly_mod]
    rfl
  | succ n ih =>
    rw [remainder_succ, divide_bits_poly, word_poly_xor, ih, ← word_poly_mod g (data n),
      ← add_modByMonic, mod_mul_mod (divisor_monic g), word_stream_succ, Nat.mul_succ, pow_add]
    refine congrArg (· %ₘ divisor g) ?_
    ring

/-- The register is empty after the check word and after no other word. -/
theorem remainder_zero_iff (hg : g.getLsbD 0 = true) (hw : 0 < w) (n : ℕ) (a : ℕ → BitVec w) :
    remainder g r (n + 1) a = 0 ↔ a n = remainder g r n a := by
  rw [remainder_succ]
  constructor
  · intro h
    have hpoly := divide_bits_poly g (remainder g r n a ^^^ a n) w
    rw [h, word_poly_zero] at hpoly
    have hdvd := (modByMonic_eq_zero_iff_dvd (divisor_monic g)).mp hpoly.symm
    have hsmall := (divisor_coprime hg hw w).dvd_of_dvd_mul_left hdvd
    have hzero := (modByMonic_eq_zero_iff_dvd (divisor_monic g)).mpr hsmall
    rw [word_poly_mod, word_poly_eq_zero] at hzero
    exact (BitVec.xor_eq_zero_iff.mp hzero).symm
  · intro h
    rw [h, BitVec.xor_self]
    exact divide_bits_zero g w

/-- A stream that is false outside of `w` consecutive bits is a short one times a power of `X`. -/
theorem stream_poly_burst (bit : ℕ → Bool) (m w s : ℕ)
    (h : ∀ i < m, bit i = true → s ≤ i ∧ i < s + w) :
    ∃ (k : ℕ) (p : (ZMod 2)[X]), streamPoly bit m = X ^ k * p ∧ p.degree < (w : WithBot ℕ) := by
  by_cases hs : m ≤ s
  · refine ⟨0, 0, ?_, by simp⟩
    rw [mul_zero]
    exact stream_poly_false fun i hi => Bool.eq_false_iff.mpr fun hb => by
      have := h i hi hb
      omega
  obtain ⟨k, hk⟩ := Nat.exists_eq_add_of_lt (not_le.mp hs)
  have hstart : streamPoly bit m = streamPoly (fun i => bit (s + i)) (k + 1) := by
    have hzero : streamPoly bit s = 0 := stream_poly_false fun i hi =>
      Bool.eq_false_iff.mpr fun hb => by
        have := h i (by omega) hb
        omega
    rw [show m = s + (k + 1) by omega, stream_poly_append, hzero, mul_zero, zero_add]
  by_cases hshort : k + 1 ≤ w
  · refine ⟨0, _, by rw [hstart, pow_zero, one_mul], ?_⟩
    exact (stream_poly_degree _ _).trans_le (by exact_mod_cast hshort)
  · refine ⟨k + 1 - w, streamPoly (fun i => bit (s + i)) w, ?_, stream_poly_degree _ _⟩
    have hzero : streamPoly (fun i => bit (s + (w + i))) (k + 1 - w) = 0 :=
      stream_poly_false fun i hi => Bool.eq_false_iff.mpr fun hb => by
        have := h _ (by omega) hb
        omega
    have happend := stream_poly_append (fun i => bit (s + i)) w (k + 1 - w)
    rw [hzero, add_zero, Nat.add_sub_cancel' (by omega)] at happend
    rw [hstart, happend]

/-- Two messages with empty registers that differ in one burst do not differ. -/
theorem burst_found (hg : g.getLsbD 0 = true) (hw : 0 < w) (ha : remainder g r n a = 0)
    (hb : remainder g r n b = 0)
    (hburst : ∀ i < w * n, wordStream a i ≠ wordStream b i → s ≤ i ∧ i < s + w) :
    ∀ i < w * n, wordStream a i = wordStream b i := by
  obtain ⟨k, p, hp, hdeg⟩ := stream_poly_burst (fun i => wordStream a i ^^ wordStream b i)
    (w * n) w s fun i hi hne => hburst i hi fun heq => by simp [heq] at hne
  have hdvd : divisor g ∣ p := by
    have hzero {c : ℕ → BitVec w} (hc : remainder g r n c = 0) : divisor g ∣
        wordPoly r * X ^ (w * n) + streamPoly (wordStream c) (w * n) * X ^ w := by
      rw [← modByMonic_eq_zero_iff_dvd (divisor_monic g), ← remainder_poly, hc, word_poly_zero]
    have hsum := dvd_add (hzero ha) (hzero hb)
    have hinit : wordPoly r + wordPoly r = 0 := CharTwo.add_self_eq_zero _
    have heq : wordPoly r * X ^ (w * n) + streamPoly (wordStream a) (w * n) * X ^ w +
        (wordPoly r * X ^ (w * n) + streamPoly (wordStream b) (w * n) * X ^ w) =
          X ^ (w + k) * p := by
      rw [stream_poly_xor] at hp
      linear_combination X ^ (w * n) * hinit + X ^ w * hp
    rw [heq] at hsum
    exact (divisor_coprime hg hw _).dvd_of_dvd_mul_left hsum
  have hpzero : p = 0 := eq_zero_of_dvd_of_degree_lt hdvd (by rwa [divisor_degree])
  rw [hpzero, mul_zero] at hp
  intro i hi
  simpa using stream_poly_eq_zero hp i hi

theorem word_stream_injective (h : ∀ i < w * n, wordStream a i = wordStream b i) :
    ∀ j < n, a j = b j := by
  intro j hj
  refine BitVec.eq_of_getMsbD_eq fun i hi => ?_
  have hlt : w * j + i < w * n := by
    calc w * j + i < w * j + w := by omega
      _ = w * (j + 1) := (Nat.mul_succ w j).symm
      _ ≤ w * n := Nat.mul_le_mul_left w hj
  have hbit := h (w * j + i) hlt
  rwa [wordStream, wordStream, Nat.mul_add_div (by omega), Nat.div_eq_of_lt hi, Nat.add_zero,
    Nat.mul_add_mod, Nat.mod_eq_of_lt hi] at hbit

end Codes

end PolyRemainder
