import Mathlib

/-! Bytes and half-words as the firmware packs them: big-endian on the wire and in
the records of config.c, where `var = (b[0] << 8) | b[1]`; and words, little-endian in memory. -/
namespace Battman

/-- `(hi << 8) | lo` in 16 bits. -/
def word (hi lo : UInt8) : UInt16 := hi.toUInt16 <<< 8 ||| lo.toUInt16

def hiByte (w : UInt16) : UInt8 := (w >>> 8).toUInt8
def loByte (w : UInt16) : UInt8 := w.toUInt8

theorem word_toNat (hi lo : UInt8) : (word hi lo).toNat = 256 * hi.toNat + lo.toNat := by
  have hh := hi.toNat_lt
  have hl := lo.toNat_lt
  have hs : (8 : UInt16).toNat % 16 = 8 := by decide
  rw [word, UInt16.toNat_or, UInt16.toNat_shiftLeft, hs, UInt8.toNat_toUInt16,
    UInt8.toNat_toUInt16, Nat.shiftLeft_eq, Nat.mod_eq_of_lt (by omega),
    ← Nat.shiftLeft_eq, ← Nat.shiftLeft_add_eq_or_of_lt (by omega), Nat.shiftLeft_eq]
  omega

theorem hi_byte_toNat (w : UInt16) : (hiByte w).toNat = w.toNat / 256 := by
  have := w.toNat_lt
  simp only [hiByte, UInt16.toNat_toUInt8, UInt16.toNat_shiftRight]
  have hs : (8 : UInt16).toNat % 16 = 8 := by decide
  rw [hs, Nat.shiftRight_eq_div_pow]
  omega

theorem lo_byte_toNat (w : UInt16) : (loByte w).toNat = w.toNat % 256 := by
  simp [loByte]

@[simp] theorem word_bytes (w : UInt16) : word (hiByte w) (loByte w) = w := by
  apply UInt16.toNat_inj.mp
  rw [word_toNat, hi_byte_toNat, lo_byte_toNat]
  omega

@[simp] theorem hi_byte_word (hi lo : UInt8) : hiByte (word hi lo) = hi := by
  apply UInt8.toNat_inj.mp
  have := hi.toNat_lt
  have := lo.toNat_lt
  rw [hi_byte_toNat, word_toNat]
  omega

@[simp] theorem lo_byte_word (hi lo : UInt8) : loByte (word hi lo) = lo := by
  apply UInt8.toNat_inj.mp
  have := hi.toNat_lt
  have := lo.toNat_lt
  rw [lo_byte_toNat, word_toNat]
  omega

/-- The bytes of a word as the processor stores it. -/
def littleEndian (w : UInt32) : List UInt8 :=
  [w.toUInt8, (w >>> 8).toUInt8, (w >>> 16).toUInt8, (w >>> 24).toUInt8]

/-- The word at `p`, as the processor loads it. -/
def loadWord (p : ℕ → UInt8) : UInt32 :=
  (p 0).toUInt32 ||| (p 1).toUInt32 <<< 8 ||| (p 2).toUInt32 <<< 16 ||| (p 3).toUInt32 <<< 24

def overlay (p : ℕ → UInt8) (bytes : List UInt8) : ℕ → UInt8 := fun i => bytes.getD i (p i)

section Words

variable {p q : ℕ → UInt8}

theorem or_shift_toNat {a b k : ℕ} (ha : a < 2 ^ k) : a ||| b <<< k = a + 2 ^ k * b := by
  rw [Nat.or_comm, ← Nat.shiftLeft_add_eq_or_of_lt ha, Nat.shiftLeft_eq]
  ring

theorem shift_toNat (b : UInt8) {k : UInt32} (hk : k.toNat ≤ 24) :
    (b.toUInt32 <<< k).toNat = b.toNat <<< k.toNat := by
  have hb := b.toNat_lt
  have hlt : b.toNat * 2 ^ k.toNat < 2 ^ 32 :=
    calc b.toNat * 2 ^ k.toNat < 2 ^ 8 * 2 ^ k.toNat := by gcongr
      _ ≤ 2 ^ 8 * 2 ^ 24 := by gcongr; norm_num
      _ = 2 ^ 32 := by norm_num
  have hmod : k.toNat % 32 = k.toNat := Nat.mod_eq_of_lt (by omega)
  rw [UInt32.toNat_shiftLeft, hmod, UInt8.toNat_toUInt32, Nat.shiftLeft_eq, Nat.mod_eq_of_lt hlt]

theorem load_word_toNat (p : ℕ → UInt8) : (loadWord p).toNat =
    (p 0).toNat + 2 ^ 8 * (p 1).toNat + 2 ^ 16 * (p 2).toNat + 2 ^ 24 * (p 3).toNat := by
  have h₀ := (p 0).toNat_lt
  have h₁ := (p 1).toNat_lt
  have h₂ := (p 2).toNat_lt
  have h₁' : (p 0).toNat + 2 ^ 8 * (p 1).toNat < 2 ^ 16 := by omega
  have h₂' : (p 0).toNat + 2 ^ 8 * (p 1).toNat + 2 ^ 16 * (p 2).toNat < 2 ^ 24 := by omega
  simp only [loadWord, UInt32.toNat_or, UInt8.toNat_toUInt32]
  rw [shift_toNat _ (by decide), shift_toNat _ (by decide), shift_toNat _ (by decide)]
  change (((p 0).toNat ||| (p 1).toNat <<< 8) ||| (p 2).toNat <<< 16) ||| (p 3).toNat <<< 24 = _
  rw [or_shift_toNat h₀, or_shift_toNat h₁', or_shift_toNat h₂']

theorem load_word_little_endian (w : UInt32) : loadWord (overlay p (littleEndian w)) = w := by
  have hw := w.toNat_lt
  apply UInt32.toNat_inj.mp
  rw [load_word_toNat]
  change w.toUInt8.toNat + 2 ^ 8 * (w >>> 8).toUInt8.toNat + 2 ^ 16 * (w >>> 16).toUInt8.toNat +
    2 ^ 24 * (w >>> 24).toUInt8.toNat = _
  simp only [UInt32.toNat_toUInt8, UInt32.toNat_shiftRight, Nat.shiftRight_eq_div_pow]
  change w.toNat % 2 ^ 8 + 2 ^ 8 * (w.toNat / 2 ^ 8 % 2 ^ 8) +
    2 ^ 16 * (w.toNat / 2 ^ 16 % 2 ^ 8) + 2 ^ 24 * (w.toNat / 2 ^ 24 % 2 ^ 8) = _
  omega

theorem load_word_byte (p : ℕ → UInt8) : (loadWord p).toUInt8 = p 0 := by
  have h := (p 0).toNat_lt
  apply UInt8.toNat_inj.mp
  rw [UInt32.toNat_toUInt8, load_word_toNat]
  omega

theorem load_word_half (p : ℕ → UInt8) : (loadWord p).toUInt16 = word (p 1) (p 0) := by
  have h₀ := (p 0).toNat_lt
  have h₁ := (p 1).toNat_lt
  apply UInt16.toNat_inj.mp
  rw [UInt32.toNat_toUInt16, load_word_toNat, word_toNat]
  omega

theorem load_word_congr (h : ∀ i < 4, p i = q i) : loadWord p = loadWord q := by
  rw [loadWord, loadWord, h 0 (by decide), h 1 (by decide), h 2 (by decide), h 3 (by decide)]

end Words

end Battman
