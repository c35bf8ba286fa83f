import Battman.Framing

/-! What precedes a call of process_packet in the stream. The end state swallows bytes until
an end byte comes, and the range check on the length is overwritten, so not every dispatched
payload was framed. -/
namespace Battman

section Definitions

variable (crc16 : List UInt8 → UInt16) (leaves : (ℕ → UInt8) → UInt32 → ℕ → UInt8)

def Dispatches (pre : List UInt8) (b : UInt8) (data : List UInt8) : Prop :=
  .processPacket data ∈ (packetProcessByte crc16 leaves (received crc16 leaves pre) b).2

/-- A frame with a length field out of range, or another byte in the place of the end byte. -/
def Malformed (length : UInt16) (got : List UInt8) : Prop :=
  length = 0 ∨ 2048 < length ∨ stored length + 2 < got.length

/-- Every payload dispatched is that of the complete frame that the stream then ends with, and
no malformed frame is dispatched. -/
structure StreamSound (bytes : List UInt8) : Prop where
  contiguous : ∀ pre b post data, bytes = pre ++ b :: post → Dispatches crc16 leaves pre b data →
    ∃ frame, frame <:+ pre ++ [b] ∧ WellFormed crc16 frame data
  rejected : ∀ pre b got post data, bytes = pre ++ b :: (got ++ packetEnd :: post) →
    Header crc16 leaves pre → Unfinished (headerLength crc16 leaves pre b) got →
    Malformed (headerLength crc16 leaves pre b) got →
    ¬ Dispatches crc16 leaves (pre ++ b :: got) packetEnd data

def ChecksumMatches (length : UInt16) (got : List UInt8) : Prop :=
  stored length + 2 ≤ got.length ∧ crc16 (got.take length.toNat) =
    word (got.getD (stored length) 0) (got.getD (stored length + 1) 0)

end Definitions

variable {crc16 : List UInt8 → UInt16} {leaves : (ℕ → UInt8) → UInt32 → ℕ → UInt8}
  {s : Receiver} {pre got data bytes : List UInt8} {b c : UInt8}

section Headers

theorem step_length_high (h : (packetProcessByte crc16 leaves s c).1.processState = .lengthHigh) :
    s.processState = .start ∧ c = packetLongStart := by
  cases hs : s.processState with
  | start =>
    simp only [packetProcessByte, hs] at h
    split_ifs at h with hc hp
    · exact ⟨rfl, hc.resolve_left hp⟩
    · rw [hs] at h
      cases h
  | data =>
    simp only [packetProcessByte, hs] at h
    split_ifs at h
  | endMark =>
    simp only [packetProcessByte, hs] at h
    split_ifs at h
    simp_all
  | _ => simp [packetProcessByte, hs] at h

theorem step_length_low (h : (packetProcessByte crc16 leaves s c).1.processState = .lengthLow) :
    s.processState = .start ∧ c = packetStart ∨ s.processState = .lengthHigh := by
  cases hs : s.processState with
  | start =>
    simp only [packetProcessByte, hs] at h
    split_ifs at h with hc hp
    · exact Or.inl ⟨rfl, hp⟩
    · rw [hs] at h
      cases h
  | lengthHigh => exact Or.inr rfl
  | data =>
    simp only [packetProcessByte, hs] at h
    split_ifs at h
  | endMark =>
    simp only [packetProcessByte, hs] at h
    split_ifs at h
    simp_all
  | _ => simp [packetProcessByte, hs] at h

theorem header_bytes (h : Header crc16 leaves pre) (b : UInt8) :
    ∃ header, header <:+ pre ++ [b] ∧ FrameHeader header (headerLength crc16 leaves pre b) := by
  unfold Header headerLength at *
  induction pre using List.reverseRecOn with
  | nil => cases h
  | append_singleton p c _ =>
    rw [received_concat] at h ⊢
    rcases step_length_low h with ⟨hs, rfl⟩ | hs
    · have hlength : (packetProcessByte crc16 leaves (received crc16 leaves p)
          packetStart).1.packetLength = 0 := by simp [packetProcessByte, hs]
      refine ⟨[packetStart, b], ⟨p, by simp⟩, ?_⟩
      rw [hlength, UInt16.zero_or]
      exact .short b
    · have hlength : (packetProcessByte crc16 leaves (received crc16 leaves p) c).1.packetLength =
          c.toUInt16 <<< 8 := by simp [packetProcessByte, hs]
      rw [hlength]
      induction p using List.reverseRecOn with
      | nil => cases hs
      | append_singleton p c' _ =>
        rw [received_concat] at hs
        obtain ⟨-, rfl⟩ := step_length_high hs
        exact ⟨[packetLongStart, c, b], ⟨p, by simp⟩, .long c b⟩

end Headers

section Frames

theorem dispatch_inv {s : Receiver}
    (h : .processPacket data ∈ (packetProcessByte crc16 leaves s c).2) :
    s.processState = .endMark ∧ c = packetEnd := by
  have hs : s.processState = .endMark := by
    by_contra hs
    rw [← mem_dispatched, no_dispatch hs] at h
    cases h
  refine ⟨hs, ?_⟩
  by_contra hc
  simp only [packetProcessByte, hs, if_neg hc] at h
  cases h

theorem dispatches_iff (hh : Header crc16 leaves pre)
    (hu : Unfinished (headerLength crc16 leaves pre b) got) :
    Dispatches crc16 leaves (pre ++ b :: got) packetEnd data ↔
      ChecksumMatches crc16 (headerLength crc16 leaves pre b) got ∧
        data = got.take (headerLength crc16 leaves pre b).toNat := by
  have hf := frame_progress hh hu
  generalize headerLength crc16 leaves pre b = length at hf ⊢
  unfold Dispatches ChecksumMatches
  rcases Nat.lt_or_ge got.length (stored length + 2) with hk | hk
  · have hs : (received crc16 leaves (pre ++ b :: got)).processState ≠ .endMark := by
      rw [hf.state]
      unfold frameState
      split_ifs
      · nofun
      · nofun
      · nofun
      · omega
    rw [← mem_dispatched, no_dispatch hs]
    exact iff_of_false nofun fun h => absurd h.1.1 (by omega)
  · rw [uses_end hf hk]
    split_ifs with hcrc
    · simp [hk, hcrc, processPacketUses]
    · exact iff_of_false (by simp) fun h => hcrc h.1.2

theorem dispatch_frame (h : Dispatches crc16 leaves bytes c data) :
    c = packetEnd ∧ ∃ pre b got, bytes = pre ++ b :: got ∧ Header crc16 leaves pre ∧
      Unfinished (headerLength crc16 leaves pre b) got := by
  obtain ⟨hs, hc⟩ := dispatch_inv h
  exact ⟨hc, frame_origin (by rw [hs]; nofun) (by rw [hs]; nofun) (by rw [hs]; nofun)⟩

theorem frame_suffix (hh : Header crc16 leaves pre)
    (hc : ChecksumMatches crc16 (headerLength crc16 leaves pre b) got)
    (hm : ¬ Malformed (headerLength crc16 leaves pre b) got) :
    ∃ frame, frame <:+ pre ++ b :: got ++ [packetEnd] ∧
      WellFormed crc16 frame (got.take (headerLength crc16 leaves pre b).toNat) := by
  obtain ⟨header, ⟨p, hp⟩, hheader⟩ := header_bytes hh b
  generalize headerLength crc16 leaves pre b = length at *
  obtain ⟨hk, hcrc⟩ := hc
  simp only [Malformed, not_or] at hm
  obtain ⟨hzero, hlong, hend⟩ := hm
  have hpos : 0 < length.toNat := Nat.pos_of_ne_zero fun h => hzero (UInt16.toNat_inj.mp h)
  have hmax : length.toNat ≤ 2048 :=
    Nat.le_of_not_lt fun h => hlong (UInt16.lt_iff_toNat_lt.mpr h)
  have hstored : stored length = length.toNat := by
    unfold stored
    omega
  rw [hstored] at hk hend hcrc
  have htake : (got.take length.toNat).length = length.toNat := by
    rw [List.length_take]
    omega
  -- the two bytes behind the payload are its checksum
  have hbody : got.take length.toNat ++ [hiByte (crc16 (got.take length.toNat)),
      loByte (crc16 (got.take length.toNat))] = got := by
    rw [hcrc, hi_byte_word, lo_byte_word]
    have hdrop : got.drop length.toNat =
        [got.getD length.toNat 0, got.getD (length.toNat + 1) 0] := by
      apply List.ext_getElem
      · simp only [List.length_drop, List.length_cons, List.length_nil]
        omega
      · intro i h₁ h₂
        simp only [List.length_cons, List.length_nil] at h₂
        rw [List.getElem_drop]
        rcases (by omega : i = 0 ∨ i = 1) with rfl | rfl
        · exact (List.getD_eq_getElem _ _ _).symm
        · exact (List.getD_eq_getElem _ _ _).symm
    rw [← hdrop, List.take_append_drop]
  refine ⟨header ++ got ++ [packetEnd], ⟨p, ?_⟩, header, ?_, ?_, ?_, ?_⟩
  · have hsplit : pre ++ b :: got = (pre ++ [b]) ++ got := by simp
    rw [hsplit, ← hp]
    simp
  · rw [htake, UInt16.ofNat_toNat]
    exact hheader
  · omega
  · rw [htake]
    exact hmax
  · rw [hbody]

end Frames

/-- The receiver is sound on a stream if and only if every frame in it that is finished with a
matching checksum has a length in range and its end byte in place. -/
theorem stream_sound_iff (crc16 : List UInt8 → UInt16) (leaves : (ℕ → UInt8) → UInt32 → ℕ → UInt8)
    (bytes : List UInt8) :
    StreamSound crc16 leaves bytes ↔
      ∀ pre b got post, bytes = pre ++ b :: (got ++ packetEnd :: post) →
        Header crc16 leaves pre → Unfinished (headerLength crc16 leaves pre b) got →
        ChecksumMatches crc16 (headerLength crc16 leaves pre b) got →
        ¬ Malformed (headerLength crc16 leaves pre b) got := by
  constructor
  · intro h pre b got post hb hh hu hc hm
    exact h.rejected pre b got post _ hb hh hu hm ((dispatches_iff hh hu).mpr ⟨hc, rfl⟩)
  · intro h
    constructor
    · intro p c post data hb hd
      obtain ⟨rfl, pre, b, got, rfl, hh, hu⟩ := dispatch_frame hd
      obtain ⟨hc, rfl⟩ := (dispatches_iff hh hu).mp hd
      exact frame_suffix hh hc (h pre b got post (by rw [hb]; simp) hh hu hc)
    · intro pre b got post data hb hh hu hm hd
      exact h pre b got post hb hh hu ((dispatches_iff hh hu).mp hd).1 hm

/-- Whatever the checksum function, a frame with another byte in the place of the end byte is
dispatched at the next end byte. -/
theorem wrong_end_byte_dispatched (crc16 : List UInt8 → UInt16)
    (leaves : (ℕ → UInt8) → UInt32 → ℕ → UInt8) :
    ¬ StreamSound crc16 leaves
      [0x50, 1, 7, hiByte (crc16 [7]), loByte (crc16 [7]), 0x58, packetEnd] := by
  intro h
  let got : List UInt8 := [7, hiByte (crc16 [7]), loByte (crc16 [7]), 0x58]
  have hh : Header crc16 leaves [0x50] := rfl
  have hlength : headerLength crc16 leaves [0x50] 1 = 1 := by
    change (0 : UInt16) ||| (1 : UInt8).toUInt16 = 1
    decide
  have hu : Unfinished (headerLength crc16 leaves [0x50] 1) got := by
    rw [hlength]
    change packetEnd ∉ [0x58]
    decide
  have hc : ChecksumMatches crc16 (headerLength crc16 leaves [0x50] 1) got := by
    rw [hlength]
    exact ⟨show stored 1 + 2 ≤ 4 by decide, (word_bytes _).symm⟩
  have hm : Malformed (headerLength crc16 leaves [0x50] 1) got := by
    rw [hlength]
    exact Or.inr (Or.inr (show stored 1 + 2 < 4 by decide))
  exact h.rejected [0x50] 1 got [] _ rfl hh hu hm ((dispatches_iff hh hu).mpr ⟨hc, rfl⟩)

theorem wrong_end_byte_unsound :
    ¬ ∀ (crc16 : List UInt8 → UInt16) (leaves : (ℕ → UInt8) → UInt32 → ℕ → UInt8) bytes,
      StreamSound crc16 leaves bytes :=
  fun h => wrong_end_byte_dispatched (fun _ => 0) (fun buffer _ => buffer) (h _ _ _)

end Battman
