import Battman.Bytes

/-! The frame receiver of packet.c: seven states fed one byte at a time.
`packetBuffer` is the memory from the start of packet_buffer on, so an index of 2048 or
more is memory behind the array. What a step does with the buffer is listed in order. -/
namespace Battman

def packetTimeoutMs : UInt16 := 1000
def packetStart : UInt8 := 0x50
def packetLongStart : UInt8 := 0x51
def packetEnd : UInt8 := 0x0A
def packetBufferSize : ℕ := 2048

def packetConsole : UInt8 := 0x01

inductive PacketState where
  | start
  | lengthHigh
  | lengthLow
  | data
  | crcHigh
  | crcLow
  | endMark
  deriving DecidableEq, Repr

structure Receiver where
  packetIndex : UInt16
  packetBuffer : ℕ → UInt8
  processState : PacketState
  processTimeout : UInt16
  packetLength : UInt16
  packetCrc : UInt16

def Receiver.initial : Receiver := ⟨0, fun _ => 0, .start, packetTimeoutMs, 0, 0⟩

/-- One use of packet_buffer: by the receiver, or by process_packet on its behalf. -/
inductive BufferUse where
  | store (index : ℕ)
  | crc16 (len : ℕ)
  | processPacket (data : List UInt8)
  | load (index : ℕ)
  | terminate (index : ℕ)
  deriving DecidableEq, Repr

def bytesAt (buffer : ℕ → UInt8) (len : ℕ) : List UInt8 := (List.range len).map buffer

/-- process_packet's own accesses: `data[0]`, then, past `data++; len--`, the
terminating `data[len] = 0` of PACKET_CONSOLE. `len` is an unsigned int and wraps. -/
def processPacketUses (buffer : ℕ → UInt8) (len : UInt32) : List BufferUse :=
  .load 0 :: if buffer 0 = packetConsole then [.terminate (1 + (len - 1).toNat)] else []

/-- The start byte and the length that packet_send_packet writes; the length has two bytes from
256 on. -/
def packetHeader (len : UInt32) : List UInt8 :=
  if 255 < len then [packetLongStart, (len >>> 8).toUInt8, len.toUInt8]
  else [packetStart, len.toUInt8]

section Receiver

/- `crc16` is the checksum of the absent submodule; `leaves` is what process_packet leaves
in packet_buffer (the console splits its command in place). -/
variable (crc16 : List UInt8 → UInt16) (leaves : (ℕ → UInt8) → UInt32 → ℕ → UInt8)

def packetProcessByte (s : Receiver) (byte : UInt8) : Receiver × List BufferUse :=
  match s.processState with
  | .start =>
    if byte = packetStart ∨ byte = packetLongStart then
      ({ s with
          processState := if byte = packetStart then .lengthLow else .lengthHigh
          packetIndex := 0
          packetLength := 0
          processTimeout := packetTimeoutMs }, [])
    else (s, [])
  | .lengthHigh =>
    ({ s with
        packetLength := byte.toUInt16 <<< 8
        processState := .lengthLow
        processTimeout := packetTimeoutMs }, [])
  | .lengthLow =>
    let s : Receiver := { s with packetLength := s.packetLength ||| byte.toUInt16 }
    let s := if s.packetLength ≤ 0 ∨ s.packetLength > 2048 then
      { s with processState := .start } else s
    -- no `else` in the source: the START of the range check is overwritten here
    ({ s with processState := .data, processTimeout := packetTimeoutMs }, [])
  | .data =>
    let index := s.packetIndex + 1
    ({ s with
        packetBuffer := Function.update s.packetBuffer s.packetIndex.toNat byte
        packetIndex := index
        processState := if index ≥ s.packetLength then .crcHigh else .data
        processTimeout := packetTimeoutMs }, [.store s.packetIndex.toNat])
  | .crcHigh =>
    ({ s with
        packetCrc := byte.toUInt16 <<< 8
        processState := .crcLow
        processTimeout := packetTimeoutMs }, [])
  | .crcLow =>
    ({ s with
        packetCrc := s.packetCrc ||| byte.toUInt16
        processState := .endMark
        processTimeout := packetTimeoutMs }, [])
  | .endMark =>
    if byte = packetEnd then
      let data := bytesAt s.packetBuffer s.packetLength.toNat
      let s' := { s with
        packetIndex := 0
        processState := .start
        processTimeout := packetTimeoutMs }
      if crc16 data = s.packetCrc then
        ({ s' with packetBuffer := leaves s.packetBuffer s.packetLength.toUInt32 },
          .crc16 s.packetLength.toNat :: .processPacket data ::
            processPacketUses s.packetBuffer s.packetLength.toUInt32)
      else (s', [.crc16 s.packetLength.toNat])
    else (s, [])

def packetTimeout (s : Receiver) : Receiver :=
  if s.processTimeout > 0 then { s with processTimeout := s.processTimeout - 1 }
  else { s with processState := .start }

def feed (s : Receiver) (bytes : List UInt8) : Receiver :=
  bytes.foldl (fun s b => (packetProcessByte crc16 leaves s b).1) s

def uses (s : Receiver) : List UInt8 → List BufferUse
  | [] => []
  | b :: bs => (packetProcessByte crc16 leaves s b).2 ++
      uses (packetProcessByte crc16 leaves s b).1 bs

variable {crc16 leaves}

@[simp] theorem feed_nil (s : Receiver) : feed crc16 leaves s [] = s := rfl

theorem feed_append (s : Receiver) (xs ys : List UInt8) :
    feed crc16 leaves s (xs ++ ys) = feed crc16 leaves (feed crc16 leaves s xs) ys :=
  List.foldl_append

theorem feed_concat (s : Receiver) (xs : List UInt8) (b : UInt8) :
    feed crc16 leaves s (xs ++ [b]) =
      (packetProcessByte crc16 leaves (feed crc16 leaves s xs) b).1 := by
  simp [feed]

theorem mem_uses {s : Receiver} {bytes : List UInt8} {u : BufferUse} :
    u ∈ uses crc16 leaves s bytes ↔ ∃ pre b post, bytes = pre ++ b :: post ∧
      u ∈ (packetProcessByte crc16 leaves (feed crc16 leaves s pre) b).2 := by
  induction bytes generalizing s with
  | nil => simp [uses]
  | cons a bs ih =>
    rw [uses, List.mem_append, ih]
    constructor
    · rintro (h | ⟨pre, b, post, rfl, h⟩)
      · exact ⟨[], a, bs, rfl, h⟩
      · exact ⟨a :: pre, b, post, rfl, h⟩
    · rintro ⟨pre, b, post, he, h⟩
      cases pre with
      | nil =>
        obtain ⟨rfl, rfl⟩ := List.cons.inj he
        exact Or.inl h
      | cons c pre =>
        obtain ⟨rfl, rfl⟩ := List.cons.inj he
        exact Or.inr ⟨pre, b, post, rfl, h⟩

end Receiver

end Battman
