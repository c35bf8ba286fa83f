import Battman.PacketFrames

/-! Which streams keep the receiver inside packet_buffer.
Three kinds of frame leave it: the length check falls through for a length of 0 and for a
length above 2048, and PACKET_CONSOLE terminates a full buffer one byte past its end. -/
namespace Battman

def BufferUse.Inside : BufferUse → Prop
  | .store i => i < packetBufferSize
  | .crc16 len => 1 ≤ len ∧ len ≤ packetBufferSize
  | .processPacket data => 1 ≤ data.length ∧ data.length ≤ packetBufferSize
  | .load i => i < packetBufferSize
  | .terminate i => i < packetBufferSize

instance decidableUseInside (u : BufferUse) : Decidable u.Inside := by
  cases u <;> simp only [BufferUse.Inside] <;> infer_instance

section Bounds

variable (crc16 : List UInt8 → UInt16) (leaves : (ℕ → UInt8) → UInt32 → ℕ → UInt8)

def StreamInside (bytes : List UInt8) : Prop :=
  ∀ u ∈ uses crc16 leaves .initial bytes, u.Inside

/-- What a length field and the bytes that follow it must satisfy: a zero length never
reaches the end byte, an oversized one is cut off by the end of the stream, and a full
console frame fails its checksum. -/
structure FrameInside (length : UInt16) (rest : List UInt8) : Prop where
  zero : length = 0 → packetEnd ∉ rest.drop 3
  oversized : 2048 < length → rest.length ≤ 2048
  console : length = 2048 → rest.getD 0 0 = packetConsole → packetEnd ∈ rest.drop 2050 →
    crc16 (rest.take 2048) ≠ word (rest.getD 2048 0) (rest.getD 2049 0)

end Bounds

variable {crc16 : List UInt8 → UInt16} {leaves : (ℕ → UInt8) → UInt32 → ℕ → UInt8}

theorem bytes_at_length (buffer : ℕ → UInt8) (len : ℕ) : (bytesAt buffer len).length = len := by
  simp [bytesAt]

theorem in_frame_bytes {length : UInt16} {got : List UInt8} {s : Receiver}
    (h : InFrame length got s) (hk : stored length ≤ got.length) :
    bytesAt s.packetBuffer length.toNat = got.take length.toNat := by
  have hl : length.toNat ≤ stored length := by
    unfold stored
    omega
  apply List.ext_getElem
  · simp only [bytes_at_length, List.length_take]
    omega
  · intro i h₁ h₂
    simp only [bytes_at_length] at h₁
    simp only [bytesAt, List.getElem_map, List.getElem_range, List.getElem_take]
    rw [h.buffer i (by omega), List.getD_eq_getElem?_getD, List.getElem?_eq_getElem (by omega),
      Option.getD_some]

theorem uses_data {length : UInt16} {got : List UInt8} {s : Receiver} (c : UInt8)
    (h : InFrame length got s) (hk : got.length < stored length) :
    (packetProcessByte crc16 leaves s c).2 = [.store got.length] := by
  have hs : s.processState = .data := by rw [h.state, frame_state_data hk]
  have hi : s.packetIndex.toNat = got.length := by rw [h.index]; omega
  simp only [packetProcessByte, hs, hi]

theorem uses_end {length : UInt16} {got : List UInt8} {s : Receiver}
    (h : InFrame length got s) (hk : stored length + 2 ≤ got.length) :
    (packetProcessByte crc16 leaves s packetEnd).2 = .crc16 length.toNat ::
      if crc16 (got.take length.toNat) =
          word (got.getD (stored length) 0) (got.getD (stored length + 1) 0) then
        .processPacket (got.take length.toNat) ::
          processPacketUses s.packetBuffer length.toUInt32
      else [] := by
  have hs : s.processState = .endMark := by rw [h.state, frame_state_end hk]
  simp only [packetProcessByte, hs, if_true, h.length_eq, h.crc hk,
    in_frame_bytes h (by omega)]
  split <;> rfl

theorem unfinished_until_end {length : UInt16} {rest : List UInt8}
    (h : packetEnd ∈ rest.drop (stored length + 2)) :
    ∃ got post, rest = got ++ packetEnd :: post ∧ stored length + 2 ≤ got.length ∧
      Unfinished length got := by
  obtain ⟨as, post, he, hn⟩ := List.eq_append_cons_of_mem h
  have hlen : stored length + 2 ≤ rest.length := by
    by_contra hlt
    rw [List.drop_eq_nil_of_le (by omega)] at h
    exact List.not_mem_nil h
  have ht : (rest.take (stored length + 2)).length = stored length + 2 := by
    rw [List.length_take]
    omega
  refine ⟨rest.take (stored length + 2) ++ as, post, ?_, ?_, ?_⟩
  · rw [List.append_assoc, ← he, List.take_append_drop]
  · rw [List.length_append, ht]
    omega
  · unfold Unfinished
    rwa [List.drop_append_of_le_length (by omega), List.drop_eq_nil_of_le (by omega),
      List.nil_append]

theorem stream_inside_at {pre got post : List UInt8} {b c : UInt8} {u : BufferUse}
    (h : StreamInside crc16 leaves (pre ++ b :: (got ++ c :: post)))
    (hu : u ∈ (packetProcessByte crc16 leaves (received crc16 leaves (pre ++ b :: got)) c).2) :
    u.Inside :=
  h u (mem_uses.mpr ⟨pre ++ b :: got, c, post, by simp, hu⟩)

theorem word_length_pred {length : UInt16} (h : length ≠ 0) :
    (length.toUInt32 - 1).toNat = length.toNat - 1 := by
  have hp : 0 < length.toNat := by
    rcases Nat.eq_zero_or_pos length.toNat with hz | hz
    · exact absurd (UInt16.toNat_inj.mp hz) h
    · exact hz
  have := length.toNat_lt
  rw [UInt32.toNat_sub_of_le, UInt16.toNat_toUInt32]
  · rfl
  · rw [UInt32.le_iff_toNat_le, UInt16.toNat_toUInt32]
    exact hp

private theorem frame_inside_of_stream {pre rest : List UInt8} {b : UInt8}
    (h : StreamInside crc16 leaves (pre ++ b :: rest)) (hh : Header crc16 leaves pre) :
    FrameInside crc16 (headerLength crc16 leaves pre b) rest := by
  generalize hl : headerLength crc16 leaves pre b = length
  -- the use that the end byte makes of a finished frame
  have finished (got post : List UInt8) (hr : rest = got ++ packetEnd :: post)
      (hk : stored length + 2 ≤ got.length) (hu : Unfinished length got) (u : BufferUse)
      (hm : u ∈ (packetProcessByte crc16 leaves
        (received crc16 leaves (pre ++ b :: got)) packetEnd).2) : u.Inside := by
    subst hr
    exact stream_inside_at h hm
  constructor
  · intro hz hm
    have hs : stored length = 1 := by rw [hz]; rfl
    obtain ⟨got, post, hr, hk, hu⟩ := unfinished_until_end (by rwa [hs])
    have hf := frame_progress hh (hl.symm ▸ hu)
    rw [hl] at hf
    have := finished got post hr hk hu (.crc16 length.toNat) (by
      rw [uses_end hf hk]; exact List.mem_cons_self)
    have := this.1
    rw [hz] at this
    exact absurd this (by decide)
  · intro hz
    by_contra hlen
    have hlt : 2048 < length.toNat := UInt16.lt_iff_toNat_lt.mp hz
    have hs : stored length = length.toNat := by
      unfold stored
      omega
    obtain ⟨c, post, hr⟩ : ∃ c post, rest = rest.take 2048 ++ c :: post := by
      refine ⟨rest.get ⟨2048, by omega⟩, rest.drop 2049, ?_⟩
      rw [List.get_eq_getElem, ← List.drop_eq_getElem_cons, List.take_append_drop]
    have ht : (rest.take 2048).length = 2048 := by
      rw [List.length_take]
      omega
    have hu : Unfinished length (rest.take 2048) := by
      unfold Unfinished
      rw [List.drop_eq_nil_of_le (by omega)]
      exact List.not_mem_nil
    have hf := frame_progress hh (hl.symm ▸ hu)
    rw [hl] at hf
    rw [hr] at h
    have := stream_inside_at h (u := .store 2048) (by
      rw [uses_data c hf (by omega), ht]; exact List.mem_singleton_self _)
    exact absurd this (by decide)
  · intro hz hc hm hcrc
    have hn : length.toNat = 2048 := by rw [hz]; rfl
    have hs : stored length = 2048 := by rw [hz]; rfl
    obtain ⟨got, post, hr, hk, hu⟩ := unfinished_until_end (by rwa [hs])
    have hf := frame_progress hh (hl.symm ▸ hu)
    rw [hl] at hf
    rw [hs] at hk
    have hget (i : ℕ) (hi : i < got.length) : rest.getD i 0 = got.getD i 0 := by
      simp only [hr, List.getD_eq_getElem?_getD, List.getElem?_append_left hi]
    rw [hget 2048 (by omega), hget 2049 (by omega), hr,
      List.take_append_of_le_length (by omega)] at hcrc
    rw [hget 0 (by omega)] at hc
    have := finished got post hr (by omega) hu (.terminate 2048) (by
      rw [uses_end hf (by omega), hs, hn, if_pos hcrc, processPacketUses,
        hf.buffer 0 (by omega), if_pos hc, word_length_pred (by rw [hz]; decide), hn]
      simp)
    exact absurd this (by decide)

theorem data_use_inside {length : UInt16} {got post : List UInt8} {s : Receiver} {c : UInt8}
    {u : BufferUse} (hf : InFrame length got s) (hin : FrameInside crc16 length (got ++ c :: post))
    (hk : got.length < stored length) (hu : u ∈ (packetProcessByte crc16 leaves s c).2) :
    u.Inside := by
  rw [uses_data c hf hk, List.mem_singleton] at hu
  subst hu
  change got.length < 2048
  by_cases hbig : 2048 < length
  · have := hin.oversized hbig
    simp only [List.length_append, List.length_cons] at this
    omega
  · have : length.toNat ≤ 2048 :=
      Nat.le_of_not_lt fun hlt => hbig (UInt16.lt_iff_toNat_lt.mpr hlt)
    unfold stored at hk
    omega

/-- The checksum bytes, and anything swallowed before the end byte, make no use of it. -/
theorem late_byte_unused {length : UInt16} {got : List UInt8} {s : Receiver} {c : UInt8}
    (hf : InFrame length got s) (hk : stored length ≤ got.length)
    (hc : stored length + 2 ≤ got.length → c ≠ packetEnd) :
    (packetProcessByte crc16 leaves s c).2 = [] := by
  rcases Nat.lt_or_ge got.length (stored length + 2) with hlt | hge
  · rcases (by omega : got.length = stored length ∨ got.length = stored length + 1) with he | he
    · have hs : s.processState = .crcHigh := by rw [hf.state, he]; simp [frameState]
      simp [packetProcessByte, hs]
    · have hs : s.processState = .crcLow := by rw [hf.state, he]; simp [frameState]
      simp [packetProcessByte, hs]
  · have hs : s.processState = .endMark := by rw [hf.state, frame_state_end hge]
    simp [packetProcessByte, hs, hc hge]

theorem finished_length {length : UInt16} {got post : List UInt8}
    (hin : FrameInside crc16 length (got ++ packetEnd :: post))
    (hk : stored length + 2 ≤ got.length) : 1 ≤ length.toNat ∧ length.toNat ≤ 2048 := by
  constructor
  · by_contra hlt
    have hz : length.toNat = 0 := by omega
    refine hin.zero (UInt16.toNat_inj.mp hz) ?_
    unfold stored at hk
    rw [List.drop_append_of_le_length (by omega)]
    simp
  · by_contra hlt
    have := hin.oversized (UInt16.lt_iff_toNat_lt.mpr (Nat.lt_of_not_le hlt))
    simp only [List.length_append, List.length_cons] at this
    unfold stored at hk
    omega

theorem terminate_inside {length : UInt16} {got post : List UInt8} {s : Receiver}
    (hf : InFrame length got s) (hin : FrameInside crc16 length (got ++ packetEnd :: post))
    (hk : stored length + 2 ≤ got.length)
    (hcrc : crc16 (got.take length.toNat) =
      word (got.getD (stored length) 0) (got.getD (stored length + 1) 0))
    (hcon : s.packetBuffer 0 = packetConsole) :
    1 + (length.toUInt32 - 1).toNat < packetBufferSize := by
  obtain ⟨hpos, hle⟩ := finished_length hin hk
  have hs : stored length = length.toNat := by
    unfold stored
    omega
  have hne : length ≠ 0 := by
    rintro rfl
    exact absurd hpos (by decide)
  rw [word_length_pred hne]
  by_contra hout
  have hfull : length.toNat = 2048 := by
    have : ¬ 1 + (length.toNat - 1) < 2048 := hout
    omega
  have hget (i : ℕ) (hi : i < got.length) :
      (got ++ packetEnd :: post).getD i 0 = got.getD i 0 := by
    simp only [List.getD_eq_getElem?_getD, List.getElem?_append_left hi]
  rw [hf.buffer 0 (by omega)] at hcon
  refine hin.console (UInt16.toNat_inj.mp hfull) ?_ ?_ ?_
  · rw [hget 0 (by omega)]
    exact hcon
  · rw [List.drop_append_of_le_length (by omega)]
    simp
  · rw [hget 2048 (by omega), hget 2049 (by omega), List.take_append_of_le_length (by omega)]
    rwa [hs, hfull] at hcrc

theorem end_use_inside {length : UInt16} {got post : List UInt8} {s : Receiver} {u : BufferUse}
    (hf : InFrame length got s) (hin : FrameInside crc16 length (got ++ packetEnd :: post))
    (hk : stored length + 2 ≤ got.length)
    (hu : u ∈ (packetProcessByte crc16 leaves s packetEnd).2) : u.Inside := by
  have hlen := finished_length hin hk
  rw [uses_end hf hk] at hu
  rcases List.mem_cons.mp hu with rfl | hu
  · exact hlen
  split_ifs at hu with hcrc
  swap
  · exact absurd hu List.not_mem_nil
  rcases List.mem_cons.mp hu with rfl | hu
  · have : (got.take length.toNat).length = length.toNat := by
      unfold stored at hk
      rw [List.length_take]
      omega
    rw [BufferUse.Inside, this]
    exact hlen
  rcases List.mem_cons.mp hu with rfl | hu
  · exact (by decide : 0 < 2048)
  split_ifs at hu with hcon
  · rw [List.mem_singleton] at hu
    subst hu
    exact terminate_inside hf hin hk hcrc hcon
  · exact absurd hu List.not_mem_nil

private theorem stream_inside_of_frames {bytes : List UInt8}
    (h : ∀ pre b rest, bytes = pre ++ b :: rest → Header crc16 leaves pre →
      FrameInside crc16 (headerLength crc16 leaves pre b) rest) :
    StreamInside crc16 leaves bytes := by
  intro u hm
  obtain ⟨p, c, post, rfl, hu⟩ := mem_uses.mp hm
  change u ∈ (packetProcessByte crc16 leaves (received crc16 leaves p) c).2 at hu
  -- outside an open frame a byte makes no use of the buffer
  have hopen : ∃ pre b got, p = pre ++ b :: got ∧ Header crc16 leaves pre ∧
      Unfinished (headerLength crc16 leaves pre b) got := by
    refine frame_origin ?_ ?_ ?_ <;> intro hs
    · simp only [packetProcessByte, hs] at hu
      split_ifs at hu <;> exact absurd hu List.not_mem_nil
    · simp [packetProcessByte, hs] at hu
    · simp [packetProcessByte, hs] at hu
  obtain ⟨pre, b, got, rfl, hh, hun⟩ := hopen
  have hf := frame_progress hh hun
  have hin := h pre b (got ++ c :: post) (by simp) hh
  generalize headerLength crc16 leaves pre b = length at hf hin hun
  rcases Nat.lt_or_ge got.length (stored length) with hk | hk
  · exact data_use_inside hf hin hk hu
  by_cases hend : stored length + 2 ≤ got.length ∧ c = packetEnd
  · obtain ⟨hk, rfl⟩ := hend
    exact end_use_inside hf hin hk hu
  · rw [late_byte_unused hf hk fun hge he => hend ⟨hge, he⟩] at hu
    exact absurd hu List.not_mem_nil

/-- A stream stays inside packet_buffer exactly when each length field it completes is
followed by bytes that do not carry the frame out of it. -/
theorem stream_inside_iff (crc16 : List UInt8 → UInt16)
    (leaves : (ℕ → UInt8) → UInt32 → ℕ → UInt8) (bytes : List UInt8) :
    StreamInside crc16 leaves bytes ↔
      ∀ pre b rest, bytes = pre ++ b :: rest → Header crc16 leaves pre →
        FrameInside crc16 (headerLength crc16 leaves pre b) rest :=
  ⟨fun h _ _ _ he hh => frame_inside_of_stream (he ▸ h) hh, stream_inside_of_frames⟩

/-- `P`, length 0, one byte, a zero checksum and the end byte: crc16 is called for no
bytes at all. -/
theorem zero_length_frame_leaves :
    ¬ StreamInside (fun _ => 0) (fun buffer _ => buffer)
      [0x50, 0x00, 0x41, 0x00, 0x00, 0x0A] := by
  intro h
  have := h (.crc16 0) (by decide)
  exact absurd this.1 (by decide)

end Battman
