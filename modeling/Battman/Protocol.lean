import Battman.Console
import Battman.FieldEcho
import Battman.FlashTenants

/-! process_packet with all its branches, and the replies it sends. -/
namespace Battman
open CutLogic

def packetConnect : UInt8 := 0x00
def packetGetData : UInt8 := 0x02
def packetGetCells : UInt8 := 0x03
def packetEraseNewFw : UInt8 := 0x04
def packetWriteNewFw : UInt8 := 0x05
def packetJumpBootloader : UInt8 := 0x06

def fwVersionMajor : UInt8 := 0
def fwVersionMinor : UInt8 := 1

/-- What a packet finds besides the state it may change: what becomes of its flash
operations, what config_value held before, and what other files return. -/
structure PacketEnv where
  fates : Fates
  stack : ℕ → UInt8
  readings : ConsoleReadings
  outputVoltage : UInt32
  faults : UInt8
  isCharging : Bool

/-- The state that packets change. `halted` is set where no packet is processed any more: the
power was cut, the bootloader runs, or a loop does not end. -/
structure Device where
  board : Board
  ltc : Ltc6803
  connectEvent : Bool
  halted : Bool

def indexRounds : ℕ := 2 ^ 32

namespace Device

def numCells (d : Device) : UInt8 := fieldAt d.board.config .numCells 0

/-- A program on the board, whose result is turned into the replies; the device halts where
there is none. -/
def reply {α : Type} (d : Device) (env : PacketEnv) (x : BoardM α)
    (f : α → Option (List (List UInt8))) : List (List UInt8) × Device :=
  match exec x (d.board.under env.fates) with
  | (some a, board) => ((f a).getD [], { d with board, halted := (f a).isNone })
  | (none, board) => ([], { d with board, halted := true })

section Packets

/- The text that vsnprintf makes of a format, and the bytes of a float, are made in files that
are absent. -/
variable (vsnprintf : Print → List UInt8) (appendFloat32 : UInt32 → List UInt8)

def processPacket (env : PacketEnv) (buffer : ℕ → UInt8) (len : UInt32) (d : Device) :
    List (List UInt8) × Device :=
  let id := buffer 0
  let data := fun i => buffer (i + 1)
  if id = packetConnect then
    ([[packetConnect, fwVersionMajor + 0x30, 0x2E, fwVersionMinor + 0x30]],
      { d with connectEvent := true })
  else if id = packetConsole then
    let text := (bytesAt data (len - 1).toNat).takeWhile (· ≠ 0)
    let (prints, ltc) := consoleProcessCommand env.readings d.numCells d.ltc text
    (prints.filterMap fun p => consolePrintf (vsnprintf p), { d with ltc })
  else if id = packetGetData then
    ([packetGetData :: (appendFloat32 env.readings.busVoltage ++
      appendFloat32 env.readings.temperature ++ appendFloat32 env.readings.current ++
      appendFloat32 env.outputVoltage ++ [env.faults, env.isCharging.toUInt8])], d)
  else if id = packetGetCells then
    ([packetGetCells ::
      (List.range d.numCells.toNat).flatMap fun i => appendFloat32 (env.readings.cells i)], d)
  else if id = packetEraseNewFw then d.reply env processEraseNewFw fun r => some [r]
  else if id = packetWriteNewFw then
    d.reply env (processWriteNewFw indexRounds data (len - 1)) fun r => r.map fun r => [r]
  else if id = packetJumpBootloader then ([], { d with halted := true })
  else d.reply env (processConfigPacket env.stack buffer len) fun r => some r.toList

end Packets

def packetConnectEvent (d : Device) : Bool × Device :=
  if d.connectEvent then (true, { d with connectEvent := false }) else (false, d)

end Device

end Battman
