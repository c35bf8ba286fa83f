import Battman.PacketBounds

/-! packet_send_packet and packet_process_byte: every payload that is framed comes out, and
nothing else does. -/
namespace Battman

section Definitions

variable (crc16 : List UInt8 → UInt16)

def packetFrame (data : List UInt8) : List UInt8 :=
  packetHeader (UInt32.ofNat data.length) ++ data ++
    [hiByte (crc16 data), loByte (crc16 data), packetEnd]

def dispatched (us : List BufferUse) : List (List UInt8) :=
  us.filterMap fun
    | .processPacket data => some data
    | _ => none

/-- A start byte and the length field that goes with it. -/
inductive FrameHeader : List UInt8 → UInt16 → Prop where
  | short (length : UInt8) : FrameHeader [packetStart, length] length.toUInt16
  | long (hi lo : UInt8) : FrameHeader [packetLongStart, hi, lo] (word hi lo)

def WellFormed (frame data : List UInt8) : Prop :=
  ∃ header, FrameHeader header (UInt16.ofNat data.length) ∧
    1 ≤ data.length ∧ data.length ≤ packetBufferSize ∧
    frame = header ++ (data ++ [hiByte (crc16 data), loByte (crc16 data)]) ++ [packetEnd]

end Definitions

variable {crc16 : List UInt8 → UInt16} {leaves : (ℕ → UInt8) → UInt32 → ℕ → UInt8}
  {s : Receiver} {header got frame data : List UInt8} {length : UInt16}

section Sender

theorem packet_header (h : data.length < 65536) :
    FrameHeader (packetHeader (UInt32.ofNat data.length)) (UInt16.ofNat data.length) := by
  have hlen : (UInt32.ofNat data.length).toNat = data.length :=
    UInt32.toNat_ofNat_of_lt' (h.trans (by decide))
  have hlen' : (UInt16.ofNat data.length).toNat = data.length := UInt16.toNat_ofNat_of_lt' h
  have h255 : (255 : UInt32) < UInt32.ofNat data.length ↔ 255 < data.length := by
    rw [UInt32.lt_iff_toNat_lt, hlen]
    rfl
  unfold packetHeader
  split_ifs with hlong
  · have hword : word ((UInt32.ofNat data.length >>> 8).toUInt8)
        (UInt32.ofNat data.length).toUInt8 = UInt16.ofNat data.length := by
      apply UInt16.toNat_inj.mp
      rw [word_toNat, UInt32.toNat_toUInt8, UInt32.toNat_toUInt8, UInt32.toNat_shiftRight, hlen,
        hlen', show (8 : UInt32).toNat % 32 = 8 from rfl, Nat.shiftRight_eq_div_pow]
      omega
    rw [← hword]
    exact .long _ _
  · rw [h255] at hlong
    have hbyte : (UInt32.ofNat data.length).toUInt8.toUInt16 = UInt16.ofNat data.length := by
      apply UInt16.toNat_inj.mp
      rw [UInt8.toNat_toUInt16, UInt32.toNat_toUInt8, hlen, hlen']
      omega
    rw [← hbyte]
    exact .short _

theorem packet_frame_well_formed (h : 1 ≤ data.length ∧ data.length ≤ packetBufferSize) :
    WellFormed crc16 (packetFrame crc16 data) data := by
  have hsize : packetBufferSize = 2048 := rfl
  refine ⟨_, packet_header (by omega), h.1, h.2, ?_⟩
  simp [packetFrame]

theorem packet_frame_fits (h : data.length ≤ 506) : (packetFrame crc16 data).length ≤ 512 := by
  have hheader : (packetHeader (UInt32.ofNat data.length)).length ≤ 3 := by
    unfold packetHeader
    split_ifs <;> simp
  simp only [packetFrame, List.length_append, List.length_cons, List.length_nil]
  omega

end Sender

section Receiver

theorem uses_append (s : Receiver) (xs ys : List UInt8) : uses crc16 leaves s (xs ++ ys) =
    uses crc16 leaves s xs ++ uses crc16 leaves (feed crc16 leaves s xs) ys := by
  induction xs generalizing s with
  | nil => rfl
  | cons x xs ih =>
    rw [List.cons_append, uses, uses, ih, List.append_assoc]
    rfl

theorem dispatched_append (us vs : List BufferUse) :
    dispatched (us ++ vs) = dispatched us ++ dispatched vs := List.filterMap_append

theorem mem_dispatched {us : List BufferUse} : data ∈ dispatched us ↔ .processPacket data ∈ us := by
  simp only [dispatched, List.mem_filterMap]
  constructor
  · rintro ⟨u, hu, hd⟩
    cases u <;> simp_all
  · exact fun h => ⟨_, h, rfl⟩

/-- Only the END state calls process_packet. -/
theorem no_dispatch (hs : s.processState ≠ .endMark) (b : UInt8) :
    dispatched (packetProcessByte crc16 leaves s b).2 = [] := by
  cases h : s.processState with
  | start =>
    simp only [packetProcessByte, h]
    split <;> rfl
  | endMark => exact absurd h hs
  | _ => simp [packetProcessByte, h, dispatched]

theorem header_run (hs : s.processState = .start) (hh : FrameHeader header length) :
    InFrame length [] (feed crc16 leaves s header) ∧
      dispatched (uses crc16 leaves s header) = [] := by
  cases hh with
  | short b =>
    have hopen := @header_in_frame crc16 leaves (packetProcessByte crc16 leaves s packetStart).1 b
      (by simp [packetProcessByte, hs]) (by simp [packetProcessByte, hs])
    have hlength : (packetProcessByte crc16 leaves s packetStart).1.packetLength = 0 := by
      simp [packetProcessByte, hs]
    rw [hlength, UInt16.zero_or] at hopen
    refine ⟨hopen, ?_⟩
    simp [uses, dispatched, packetProcessByte, hs]
  | long hi lo =>
    have hne : packetLongStart ≠ packetStart := by decide
    have hopen := @header_in_frame crc16 leaves (feed crc16 leaves s [packetLongStart, hi]) lo
      (by simp [feed, packetProcessByte, hs, hne]) (by simp [feed, packetProcessByte, hs, hne])
    have hlength : (feed crc16 leaves s [packetLongStart, hi]).packetLength =
        hi.toUInt16 <<< 8 := by
      simp [feed, packetProcessByte, hs, hne]
    rw [hlength] at hopen
    refine ⟨hopen, ?_⟩
    simp [uses, dispatched, packetProcessByte, hs, hne]

theorem body_run (h : InFrame length got s) (bs : List UInt8)
    (hlen : got.length + bs.length ≤ stored length + 2) :
    InFrame length (got ++ bs) (feed crc16 leaves s bs) ∧
      dispatched (uses crc16 leaves s bs) = [] := by
  induction bs generalizing got s with
  | nil =>
    rw [List.append_nil]
    exact ⟨h, rfl⟩
  | cons b bs ih =>
    rw [List.length_cons] at hlen
    have hstep : InFrame length (got ++ [b]) (packetProcessByte crc16 leaves s b).1 :=
      in_frame_step h (by omega)
    have hstate : s.processState ≠ .endMark := by
      rw [h.state]
      unfold frameState
      split_ifs
      · nofun
      · nofun
      · nofun
      · omega
    obtain ⟨hrun, hnone⟩ := ih hstep (by rw [List.length_append, List.length_singleton]; omega)
    refine ⟨?_, ?_⟩
    · rw [List.append_assoc, List.singleton_append] at hrun
      exact hrun
    · rw [uses, dispatched_append, no_dispatch hstate, hnone]
      rfl

theorem well_formed_run (hs : s.processState = .start) (h : WellFormed crc16 frame data) :
    ∃ body, frame = body ++ [packetEnd] ∧ dispatched (uses crc16 leaves s body) = [] ∧
      dispatched (packetProcessByte crc16 leaves (feed crc16 leaves s body) packetEnd).2 = [data] ∧
      (feed crc16 leaves s frame).processState = .start := by
  obtain ⟨header, hh, hpos, hmax, rfl⟩ := h
  have hsize : packetBufferSize = 2048 := rfl
  have hlen : (UInt16.ofNat data.length).toNat = data.length :=
    UInt16.toNat_ofNat_of_lt' (hmax.trans_lt (by decide))
  have hstored : stored (UInt16.ofNat data.length) = data.length := by
    rw [stored, hlen]
    omega
  obtain ⟨hopen, hnone⟩ := @header_run crc16 leaves _ _ _ hs hh
  obtain ⟨hbody, hnone'⟩ := @body_run crc16 leaves _ _ _ hopen
    (data ++ [hiByte (crc16 data), loByte (crc16 data)]) (by simp [hstored])
  rw [List.nil_append, ← feed_append] at hbody
  refine ⟨_, rfl, ?_, ?_, ?_⟩
  · rw [uses_append, dispatched_append, hnone, hnone']
    rfl
  · rw [uses_end hbody (by simp [hstored]), hstored, hlen]
    have hcrc : word ((data ++ [hiByte (crc16 data), loByte (crc16 data)]).getD data.length 0)
        ((data ++ [hiByte (crc16 data), loByte (crc16 data)]).getD (data.length + 1) 0) =
          crc16 data := by simp
    rw [hcrc, List.take_left', if_pos rfl]
    · simp only [dispatched, List.filterMap_cons, processPacketUses]
      split_ifs <;> rfl
    · rfl
  · rw [feed_concat]
    have hend : (feed crc16 leaves s (header ++ (data ++ [hiByte (crc16 data),
        loByte (crc16 data)]))).processState = .endMark := by
      rw [hbody.state, frame_state_end (by simp [hstored])]
    simp only [packetProcessByte, hend, if_true]
    split <;> rfl

end Receiver

/-- Payloads of 1 to 506 bytes fit the send buffer, and the receiver calls process_packet with
exactly these payloads, in order, and is in state START at the end. -/
theorem framing_round_trip (hs : s.processState = .start) (ps : List (List UInt8))
    (hp : ∀ p ∈ ps, 1 ≤ p.length ∧ p.length ≤ 506) :
    (∀ p ∈ ps, (packetFrame crc16 p).length ≤ 512) ∧
      dispatched (uses crc16 leaves s (ps.flatMap (packetFrame crc16))) = ps ∧
      (feed crc16 leaves s (ps.flatMap (packetFrame crc16))).processState = .start := by
  have hsize : packetBufferSize = 2048 := rfl
  refine ⟨fun p h => packet_frame_fits (hp p h).2, ?_⟩
  induction ps generalizing s with
  | nil => exact ⟨rfl, hs⟩
  | cons p ps ih =>
    have hlen := hp p List.mem_cons_self
    obtain ⟨body, hframe, hnone, hdata, hend⟩ := @well_formed_run crc16 leaves _ _ p hs
      (packet_frame_well_formed ⟨hlen.1, by omega⟩)
    obtain ⟨hrest, hlast⟩ := ih hend fun q hq => hp q (List.mem_cons_of_mem _ hq)
    rw [List.flatMap_cons, uses_append, dispatched_append, feed_append, hrest]
    refine ⟨?_, hlast⟩
    rw [hframe, uses_append, dispatched_append, hnone, uses, dispatched_append, hdata]
    rfl

/-- A payload of delimiters and one with a two-byte length, under a checksum of zeros. -/
theorem framing_round_trip_delimiters :
    (∀ p ∈ [[0x50, 0x51, 0x0A], List.replicate 256 0x0A],
      (packetFrame (fun _ => 0) p).length ≤ 512) ∧
      dispatched (uses (fun _ => 0) (fun buffer _ => buffer) .initial
        ([[0x50, 0x51, 0x0A], List.replicate 256 0x0A].flatMap (packetFrame fun _ => 0))) =
          [[0x50, 0x51, 0x0A], List.replicate 256 0x0A] ∧
      (feed (fun _ => 0) (fun buffer _ => buffer) .initial
        ([[0x50, 0x51, 0x0A], List.replicate 256 0x0A].flatMap
          (packetFrame fun _ => 0))).processState = .start := by
  apply framing_round_trip rfl
  intro p hp
  rcases List.mem_cons.mp hp with rfl | hp
  · decide
  · rw [List.mem_singleton.mp hp, List.length_replicate]
    decide

end Battman
