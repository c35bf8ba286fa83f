import Battman.Packet

/-! Where the receiver is inside a frame. A frame opens at the byte that completes a
length field; from there the state, the index and the stored bytes are a function of the
bytes received since, and every state past the length field comes from such an opening. -/
namespace Battman

/-- Bytes the DATA state takes for a length field: at least one, as the test follows the
store. -/
def stored (length : UInt16) : ℕ := max length.toNat 1

def frameState (n k : ℕ) : PacketState :=
  if k < n then .data
  else if k = n then .crcHigh
  else if k = n + 1 then .crcLow
  else .endMark

structure InFrame (length : UInt16) (got : List UInt8) (s : Receiver) : Prop where
  state : s.processState = frameState (stored length) got.length
  length_eq : s.packetLength = length
  index : s.packetIndex.toNat = min got.length (stored length)
  buffer : ∀ i, i < min got.length (stored length) → s.packetBuffer i = got.getD i 0
  crc_high : got.length = stored length + 1 →
    s.packetCrc = (got.getD (stored length) 0).toUInt16 <<< 8
  crc : stored length + 2 ≤ got.length →
    s.packetCrc = word (got.getD (stored length) 0) (got.getD (stored length + 1) 0)

variable {crc16 : List UInt8 → UInt16} {leaves : (ℕ → UInt8) → UInt32 → ℕ → UInt8}

theorem stored_pos (length : UInt16) : 0 < stored length := by
  unfold stored
  omega

theorem stored_le (length : UInt16) : stored length < 65536 := by
  have := length.toNat_lt
  unfold stored
  omega

theorem frame_state_data {n k : ℕ} (h : k < n) : frameState n k = .data := if_pos h

theorem frame_state_end {n k : ℕ} (h : n + 2 ≤ k) : frameState n k = .endMark := by
  unfold frameState
  rw [if_neg (by omega), if_neg (by omega), if_neg (by omega)]

theorem getD_concat {xs : List UInt8} {b : UInt8} {i : ℕ} (h : i < xs.length) :
    (xs ++ [b]).getD i 0 = xs.getD i 0 := by
  simp only [List.getD_eq_getElem?_getD, List.getElem?_append_left h]

theorem getD_concat_length (xs : List UInt8) (b : UInt8) :
    (xs ++ [b]).getD xs.length 0 = b := by
  simp

/-- The range check on the length has no effect. -/
theorem length_low_step {s : Receiver} (b : UInt8) (hs : s.processState = .lengthLow) :
    packetProcessByte crc16 leaves s b =
      ({ s with
          packetLength := s.packetLength ||| b.toUInt16
          processState := .data
          processTimeout := packetTimeoutMs }, []) := by
  simp only [packetProcessByte, hs]
  split <;> rfl

theorem header_in_frame {s : Receiver} (b : UInt8) (hs : s.processState = .lengthLow)
    (hi : s.packetIndex = 0) :
    InFrame (s.packetLength ||| b.toUInt16) [] (packetProcessByte crc16 leaves s b).1 := by
  have hp := stored_pos (s.packetLength ||| b.toUInt16)
  rw [length_low_step b hs]
  constructor
  · exact (if_pos hp).symm
  · rfl
  · simp [hi]
  · simp
  · simp
  · simp

theorem in_frame_data {length : UInt16} {got : List UInt8} {s : Receiver} {b : UInt8}
    (h : InFrame length got s) (hk : got.length < stored length) :
    InFrame length (got ++ [b]) (packetProcessByte crc16 leaves s b).1 := by
  have hs : s.processState = .data := by rw [h.state, frame_state_data hk]
  have hi : s.packetIndex.toNat = got.length := by rw [h.index]; omega
  have hn : (s.packetIndex + 1).toNat = got.length + 1 := by
    have := stored_le length
    rw [UInt16.toNat_add, hi]
    simp only [UInt16.reduceToNat]
    omega
  have hge : s.packetIndex + 1 ≥ s.packetLength ↔ stored length ≤ got.length + 1 := by
    rw [h.length_eq, ge_iff_le, UInt16.le_iff_toNat_le, hn]
    unfold stored
    omega
  simp only [packetProcessByte, hs]
  constructor
  · simp only [hge, List.length_append, List.length_singleton]
    unfold frameState
    split <;> split_ifs <;> first | rfl | omega
  · exact h.length_eq
  · simp only [hn, List.length_append, List.length_singleton]
    omega
  · intro i hi'
    simp only [List.length_append, List.length_singleton] at hi'
    by_cases he : i = got.length
    · subst he
      simp only [hi, Function.update_self, getD_concat_length]
    · simp only [hi, Function.update_of_ne he]
      rw [h.buffer i (by omega), getD_concat (by omega)]
  · simp only [List.length_append, List.length_singleton]
    omega
  · simp only [List.length_append, List.length_singleton]
    omega

theorem InFrame.behind_data {length : UInt16} {got : List UInt8} {s t : Receiver} {b : UInt8}
    (h : InFrame length got s) (hk : stored length ≤ got.length)
    (hstate : t.processState = frameState (stored length) (got.length + 1))
    (hlength : t.packetLength = s.packetLength) (hindex : t.packetIndex = s.packetIndex)
    (hbuffer : t.packetBuffer = s.packetBuffer)
    (hhigh : got.length = stored length → t.packetCrc = b.toUInt16 <<< 8)
    (hcrc : stored length + 1 ≤ got.length → t.packetCrc =
      word ((got ++ [b]).getD (stored length) 0) ((got ++ [b]).getD (stored length + 1) 0)) :
    InFrame length (got ++ [b]) t := by
  have hlen : (got ++ [b]).length = got.length + 1 := List.length_append
  constructor
  · rw [hstate, hlen]
  · exact hlength.trans h.length_eq
  · rw [hindex, h.index, hlen]
    omega
  · intro i hi
    rw [hlen] at hi
    rw [hbuffer, h.buffer i (by omega), getD_concat (by omega)]
  · intro he
    rw [hlen] at he
    have hk' : got.length = stored length := by omega
    rw [hhigh hk', ← hk', getD_concat_length]
  · intro hle
    rw [hlen] at hle
    exact hcrc (by omega)

theorem in_frame_crc_high {length : UInt16} {got : List UInt8} {s : Receiver} {b : UInt8}
    (h : InFrame length got s) (hk : got.length = stored length) :
    InFrame length (got ++ [b]) (packetProcessByte crc16 leaves s b).1 := by
  have hs : s.processState = .crcHigh := by rw [h.state, hk]; simp [frameState]
  simp only [packetProcessByte, hs]
  apply h.behind_data hk.ge
  · simp [hk, frameState]
  · rfl
  · rfl
  · rfl
  · exact fun _ => rfl
  · exact fun hle => by omega

theorem in_frame_crc_low {length : UInt16} {got : List UInt8} {s : Receiver} {b : UInt8}
    (h : InFrame length got s) (hk : got.length = stored length + 1) :
    InFrame length (got ++ [b]) (packetProcessByte crc16 leaves s b).1 := by
  have hs : s.processState = .crcLow := by rw [h.state, hk]; simp [frameState]
  simp only [packetProcessByte, hs]
  apply h.behind_data (by omega)
  · rw [frame_state_end (by omega)]
  · rfl
  · rfl
  · rfl
  · exact fun he => by omega
  · intro _
    rw [h.crc_high hk, ← hk, getD_concat_length, getD_concat (by omega)]
    rfl

theorem in_frame_end {length : UInt16} {got : List UInt8} {s : Receiver} {b : UInt8}
    (h : InFrame length got s) (hk : stored length + 2 ≤ got.length) (hb : b ≠ packetEnd) :
    InFrame length (got ++ [b]) (packetProcessByte crc16 leaves s b).1 := by
  have hs : s.processState = .endMark := by rw [h.state, frame_state_end hk]
  simp only [packetProcessByte, hs, if_neg hb]
  apply h.behind_data (by omega)
  · rw [frame_state_end (by omega), hs]
  · rfl
  · rfl
  · rfl
  · exact fun he => by omega
  · intro _
    rw [h.crc hk, getD_concat (by omega), getD_concat (by omega)]

theorem in_frame_step {length : UInt16} {got : List UInt8} {s : Receiver} {b : UInt8}
    (h : InFrame length got s) (hb : stored length + 2 ≤ got.length → b ≠ packetEnd) :
    InFrame length (got ++ [b]) (packetProcessByte crc16 leaves s b).1 := by
  rcases Nat.lt_trichotomy got.length (stored length) with hk | hk | hk
  · exact in_frame_data h hk
  · exact in_frame_crc_high h hk
  · rcases Nat.lt_or_ge got.length (stored length + 2) with hk' | hk'
    · exact in_frame_crc_low h (by omega)
    · exact in_frame_end h hk' (hb hk')

variable (crc16 leaves)

def received (bytes : List UInt8) : Receiver := feed crc16 leaves .initial bytes

/-- The byte `b` completes a length field after `pre`. -/
def Header (pre : List UInt8) : Prop := (received crc16 leaves pre).processState = .lengthLow

def headerLength (pre : List UInt8) (b : UInt8) : UInt16 :=
  (received crc16 leaves pre).packetLength ||| b.toUInt16

/-- The frame opened by `b` has not met its end byte in the bytes `got` after it. -/
def Unfinished (length : UInt16) (got : List UInt8) : Prop :=
  packetEnd ∉ got.drop (stored length + 2)

variable {crc16 leaves}

theorem received_concat (p : List UInt8) (b : UInt8) : received crc16 leaves (p ++ [b]) =
    (packetProcessByte crc16 leaves (received crc16 leaves p) b).1 := feed_concat _ _ _

theorem unfinished_concat {length : UInt16} {got : List UInt8} {b : UInt8} :
    Unfinished length (got ++ [b]) ↔
      Unfinished length got ∧ (stored length + 2 ≤ got.length → b ≠ packetEnd) := by
  unfold Unfinished
  rcases Nat.lt_or_ge got.length (stored length + 2) with hk | hk
  · rw [List.drop_eq_nil_of_le (by simp only [List.length_append, List.length_singleton]; omega),
      List.drop_eq_nil_of_le (by omega)]
    simp only [List.not_mem_nil, not_false_eq_true, true_and, true_iff]
    omega
  · rw [List.drop_append_of_le_length hk, List.mem_append, List.mem_singleton]
    constructor
    · intro h
      exact ⟨fun hm => h (Or.inl hm), fun _ he => h (Or.inr he.symm)⟩
    · rintro ⟨h, hb⟩ (hm | he)
      · exact h hm
      · exact hb hk he.symm

theorem header_index {p : List UInt8}
    (h : (received crc16 leaves p).processState = .lengthHigh ∨
      (received crc16 leaves p).processState = .lengthLow) :
    (received crc16 leaves p).packetIndex = 0 := by
  induction p using List.reverseRecOn with
  | nil => rfl
  | append_singleton p b ih =>
    rw [received_concat] at h ⊢
    generalize hr : received crc16 leaves p = s at h ih ⊢
    cases hs : s.processState with
    | start =>
      by_cases hb : b = packetStart ∨ b = packetLongStart
      · simp [packetProcessByte, hs, hb]
      · simp [packetProcessByte, hs, hb] at h
    | lengthHigh =>
      simpa [packetProcessByte, hs] using ih (Or.inl hs)
    | lengthLow => simp [packetProcessByte, hs] at h
    | data =>
      simp only [packetProcessByte, hs] at h
      split at h <;> simp at h
    | crcHigh => simp [packetProcessByte, hs] at h
    | crcLow => simp [packetProcessByte, hs] at h
    | endMark =>
      simp only [packetProcessByte, hs] at h
      split_ifs at h <;> simp_all

theorem frame_progress {pre got : List UInt8} {b : UInt8} (hh : Header crc16 leaves pre)
    (hu : Unfinished (headerLength crc16 leaves pre b) got) :
    InFrame (headerLength crc16 leaves pre b) got
      (received crc16 leaves (pre ++ b :: got)) := by
  induction got using List.reverseRecOn with
  | nil =>
    rw [received_concat]
    exact header_in_frame b hh (header_index (Or.inr hh))
  | append_singleton got c ih =>
    obtain ⟨hu, hc⟩ := unfinished_concat.mp hu
    rw [show pre ++ b :: (got ++ [c]) = (pre ++ b :: got) ++ [c] by simp, received_concat]
    exact in_frame_step (ih hu) hc

theorem frame_origin {p : List UInt8}
    (h₁ : (received crc16 leaves p).processState ≠ .start)
    (h₂ : (received crc16 leaves p).processState ≠ .lengthHigh)
    (h₃ : (received crc16 leaves p).processState ≠ .lengthLow) :
    ∃ pre b got, p = pre ++ b :: got ∧ Header crc16 leaves pre ∧
      Unfinished (headerLength crc16 leaves pre b) got := by
  induction p using List.reverseRecOn with
  | nil => exact absurd rfl h₁
  | append_singleton p c ih =>
    rw [received_concat] at h₁ h₂ h₃
    -- a frame already open stays open: its bytes grow by `c`
    have grow (hs₁ : (received crc16 leaves p).processState ≠ .start)
        (hs₂ : (received crc16 leaves p).processState ≠ .lengthHigh)
        (hs₃ : (received crc16 leaves p).processState ≠ .lengthLow)
        (hc : (received crc16 leaves p).processState = .endMark → c ≠ packetEnd) :
        ∃ pre b got, p ++ [c] = pre ++ b :: got ∧ Header crc16 leaves pre ∧
          Unfinished (headerLength crc16 leaves pre b) got := by
      obtain ⟨pre, b, got, rfl, hh, hu⟩ := ih hs₁ hs₂ hs₃
      refine ⟨pre, b, got ++ [c], by simp, hh, unfinished_concat.mpr ⟨hu, fun hk => hc ?_⟩⟩
      rw [(frame_progress hh hu).state, frame_state_end hk]
    cases hs : (received crc16 leaves p).processState with
    | start =>
      simp only [packetProcessByte, hs] at h₁ h₂ h₃
      split_ifs at h₁ h₂ h₃ <;> simp_all
    | lengthHigh => simp [packetProcessByte, hs] at h₃
    | lengthLow => exact ⟨p, c, [], rfl, hs, by simp [Unfinished]⟩
    | data => exact grow (by simp [hs]) (by simp [hs]) (by simp [hs]) (by simp [hs])
    | crcHigh => exact grow (by simp [hs]) (by simp [hs]) (by simp [hs]) (by simp [hs])
    | crcLow => exact grow (by simp [hs]) (by simp [hs]) (by simp [hs]) (by simp [hs])
    | endMark =>
      refine grow (by simp [hs]) (by simp [hs]) (by simp [hs]) fun _ hc => ?_
      simp only [packetProcessByte, hs, hc, if_true] at h₁
      split_ifs at h₁ <;> simp at h₁

end Battman
