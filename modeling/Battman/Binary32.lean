import Mathlib

/-! Single-precision words and the numbers they encode, over Lean's model of IEEE 754. On
words, the comparison of floats is the comparison of the numbers. -/
namespace Binary32
open Float.Model

abbrev ofBits (bits : UInt32) : UnpackedFloat := UnpackedFloat.unpack .binary32 bits.toBitVec

def toBits (x : UnpackedFloat) : UInt32 := ⟨UnpackedFloat.pack .binary32 x⟩

def scale (n : UInt8) (x : UnpackedFloat) : UnpackedFloat :=
  UnpackedFloat.mul .binary32 (UnpackedFloat.ofUInt8 .binary32 n) x

def value : UnpackedFloat → Option ℚ
  | .zero _ => some 0
  | .finite .positive m e _ => some (m * 2 ^ e)
  | .finite .negative m e _ => some (-(m * 2 ^ e))
  | _ => none

/-- The form in which a number has one mantissa and exponent. -/
def Canonical : UnpackedFloat → Prop
  | .finite _ m e _ => m < 2 ^ 24 ∧ -149 ≤ e ∧ (2 ^ 23 ≤ m ∨ e = -149)
  | _ => True

theorem of_bits_canonical (bits : UInt32) : Canonical (ofBits bits) := by
  let ev := @UnpackedFloat.unpackExponent .binary32 bits.toBitVec
  let mv := @UnpackedFloat.unpackMantissa .binary32 bits.toBitVec
  have hm : mv.toNat < 2 ^ 23 := mv.isLt
  have hnormal : (1#1 ++ mv).toNat = 2 ^ 23 + mv.toNat := by
    change 2 ^ 23 ||| mv.toNat = _
    rw [Nat.or_comm, Nat.or_two_pow_eq_add_of_lt hm, Nat.add_comm]
  unfold ofBits UnpackedFloat.unpack
  change Canonical (if ev = -1#8 then _ else if ev = 0#8 then _ else _)
  split_ifs with _ _ hzero
  · trivial
  · trivial
  · trivial
  · have he : ev.toNat = 0 := congrArg BitVec.toNat hzero
    change mv.toNat < 2 ^ 24 ∧ -149 ≤ (ev.toNat : ℤ) - 150 + 1 ∧
      (2 ^ 23 ≤ mv.toNat ∨ (ev.toNat : ℤ) - 150 + 1 = -149)
    omega
  · have he : ev.toNat ≠ 0 := fun h => hzero (BitVec.eq_of_toNat_eq h)
    change (1#1 ++ mv).toNat < 2 ^ 24 ∧ -149 ≤ (ev.toNat : ℤ) - 150 ∧
      (2 ^ 23 ≤ (1#1 ++ mv).toNat ∨ (ev.toNat : ℤ) - 150 = -149)
    rw [hnormal]
    omega

/-- Canonical mantissas and exponents are ordered like the numbers, exponent first. -/
theorem mantissa_lt {m₁ m₂ : ℕ} {e₁ e₂ : ℤ} (h₁ : m₁ < 2 ^ 24) (hn : 2 ^ 23 ≤ m₂)
    (he : e₁ < e₂) : (m₁ : ℚ) * 2 ^ e₁ < m₂ * 2 ^ e₂ := by
  have hpow : (0 : ℚ) < 2 ^ e₁ := by positivity
  have hstep : (2 : ℚ) ^ (e₁ + 1) ≤ 2 ^ e₂ := zpow_le_zpow_right₀ (by norm_num) (by omega)
  have hm₁ : (m₁ : ℚ) < 2 ^ 24 := by exact_mod_cast h₁
  have hm₂ : (2 : ℚ) ^ 23 ≤ m₂ := by exact_mod_cast hn
  calc (m₁ : ℚ) * 2 ^ e₁ < 2 ^ 24 * 2 ^ e₁ := by gcongr
    _ = 2 ^ 23 * 2 ^ (e₁ + 1) := by rw [zpow_add_one₀ (by norm_num)]; ring
    _ ≤ m₂ * 2 ^ e₂ := by gcongr

theorem magnitude_lt_iff {m₁ m₂ : ℕ} {e₁ e₂ : ℤ}
    (h₁ : m₁ < 2 ^ 24 ∧ -149 ≤ e₁ ∧ (2 ^ 23 ≤ m₁ ∨ e₁ = -149))
    (h₂ : m₂ < 2 ^ 24 ∧ -149 ≤ e₂ ∧ (2 ^ 23 ≤ m₂ ∨ e₂ = -149)) :
    (m₁ : ℚ) * 2 ^ e₁ < m₂ * 2 ^ e₂ ↔
      (compare e₁ e₂).then (compare m₁ m₂) = .lt := by
  rcases lt_trichotomy e₁ e₂ with he | rfl | he
  · rw [compare_lt_iff_lt.mpr he]
    exact iff_of_true (mantissa_lt h₁.1 (h₂.2.2.resolve_right (by omega)) he) rfl
  · have hpow : (0 : ℚ) < 2 ^ e₁ := by positivity
    rw [compare_eq_iff_eq.mpr rfl, Ordering.eq_then, compare_lt_iff_lt,
      mul_lt_mul_iff_left₀ hpow, Nat.cast_lt]
  · rw [compare_gt_iff_gt.mpr he]
    refine iff_of_false (not_lt.mpr ?_) nofun
    exact (mantissa_lt h₂.1 (h₁.2.2.resolve_right (by omega)) he).le

theorem magnitude_pos {m : ℕ} {e : ℤ} (h : 0 < m) : (0 : ℚ) < m * 2 ^ e := by positivity

theorem lt_iff {x y : UnpackedFloat} (hx : Canonical x) (hy : Canonical y) {p q : ℚ}
    (hp : value x = some p) (hq : value y = some q) : x.lt y = true ↔ p < q := by
  unfold UnpackedFloat.lt
  rw [beq_iff_eq]
  -- a zero, a negative and a positive number on each side
  rcases x with _ | _ | _ | ⟨_ | _, m₁, e₁, h₁⟩ <;> try cases hp
  · rcases y with _ | _ | _ | ⟨_ | _, m₂, e₂, h₂⟩ <;> try cases hq
    · simp [UnpackedFloat.compare]
    · have := magnitude_pos (e := e₂) h₂
      simp only [UnpackedFloat.compare, Option.some_inj, reduceCtorEq, false_iff]
      linarith
    · exact iff_of_true rfl (magnitude_pos h₂)
  · have hpos := magnitude_pos (e := e₁) h₁
    rcases y with _ | _ | _ | ⟨_ | _, m₂, e₂, h₂⟩ <;> try cases hq
    · exact iff_of_true rfl (by linarith)
    · have hswap : ((compare e₁ e₂).then (compare m₁ m₂)).swap =
          (compare e₂ e₁).then (compare m₂ m₁) := by
        rw [Ordering.swap_then, ← Std.OrientedCmp.eq_swap, ← Std.OrientedCmp.eq_swap]
      rw [neg_lt_neg_iff, magnitude_lt_iff hy hx, ← hswap]
      exact Option.some_inj
    · have := magnitude_pos (e := e₂) h₂
      exact iff_of_true rfl (by linarith)
  · have hpos := magnitude_pos (e := e₁) h₁
    rcases y with _ | _ | _ | ⟨_ | _, m₂, e₂, h₂⟩ <;> try cases hq
    · simp only [UnpackedFloat.compare, Option.some_inj, reduceCtorEq, false_iff]
      linarith
    · have := magnitude_pos (e := e₂) h₂
      simp only [UnpackedFloat.compare, Option.some_inj, reduceCtorEq, false_iff]
      linarith
    · rw [magnitude_lt_iff hx hy]
      exact Option.some_inj

end Binary32
