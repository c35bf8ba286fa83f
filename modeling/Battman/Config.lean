import Battman.EepromInit
import Battman.Binary32

/-! config.c: the packed Config structure in RAM, byte by byte, and its half-words in the
emulated EEPROM; and what the control loops take from it and from the clock, one number for each
field and times from ticks. -/
namespace Battman
open CutLogic Float.Model

inductive Field where
  | CANDeviceID
  | numCells
  | fullCellVoltage
  | emptyCellVoltage
  | packCapacity
  | lowVoltageCutoff
  | lowVoltageWarning
  | highVoltageCutoff
  | highVoltageWarning
  | maxCurrentCutoff
  | maxContinuousCurrent
  | continuousCurrentCutoffTime
  | continuousCurrentCutoffWarning
  | maxChargeCurrent
  | chargeVoltage
  | chargeCurrent
  | turnOnDelay
  | shutdownDelay
  | chargeMode
  | chargeCurrentGainP
  | chargeCurrentGainI
  | prechargeTimeout
  | balanceStartVoltage
  | balanceDifferenceThreshold
  | chargerDisconnectShutdown
  deriving DecidableEq, Repr

namespace Field

def all : List Field :=
  [CANDeviceID, numCells, fullCellVoltage, emptyCellVoltage, packCapacity, lowVoltageCutoff,
    lowVoltageWarning, highVoltageCutoff, highVoltageWarning, maxCurrentCutoff,
    maxContinuousCurrent, continuousCurrentCutoffTime, continuousCurrentCutoffWarning,
    maxChargeCurrent, chargeVoltage, chargeCurrent, turnOnDelay, shutdownDelay, chargeMode,
    chargeCurrentGainP, chargeCurrentGainI, prechargeTimeout, balanceStartVoltage,
    balanceDifferenceThreshold, chargerDisconnectShutdown]

def size : Field → ℕ
  | CANDeviceID | numCells | continuousCurrentCutoffTime | continuousCurrentCutoffWarning
  | chargeMode | chargerDisconnectShutdown => 1
  | turnOnDelay | shutdownDelay | prechargeTimeout => 2
  | _ => 4

/-- offsetof(Config, f): the sizes of the fields before `f`. -/
def offset (f : Field) : ℕ := ((all.takeWhile (· ≠ f)).map size).sum

/-- What config_load_default_configuration assigns; a float by its bits. -/
def default : Field → UInt32
  | CANDeviceID => 0x01
  | numCells => 12
  | fullCellVoltage => 0x40866666             -- 4.2
  | emptyCellVoltage => 0x4059999A            -- 3.4
  | packCapacity => 0x451C4000                -- 2500
  | lowVoltageCutoff => 0x404CCCCD            -- 3.2
  | lowVoltageWarning => 0x4059999A           -- 3.4
  | highVoltageCutoff => 0x40880000           -- 4.25
  | highVoltageWarning => 0x40833333          -- 4.1
  | maxCurrentCutoff => 0x42F00000            -- 120.0
  | maxContinuousCurrent => 0x42C80000        -- 100.0
  | continuousCurrentCutoffTime => 30
  | continuousCurrentCutoffWarning => 10
  | maxChargeCurrent => 0x41A00000            -- 20.0
  | chargeVoltage => 0x41C9999A               -- 25.2
  | chargeCurrent => 0x40000000               -- 2.0
  | turnOnDelay => 200
  | shutdownDelay => 500
  | chargeMode => 1                           -- FULL_CURRENT
  | chargeCurrentGainP => 0x3DCCCCCD          -- 0.1
  | chargeCurrentGainI => 0x3F800000          -- 1.0
  | prechargeTimeout => 500
  | balanceStartVoltage => 0x40600000         -- 3.5
  | balanceDifferenceThreshold => 0x3C23D70A  -- 0.01
  | chargerDisconnectShutdown => 1

end Field

abbrev loadFloat (p : ℕ → UInt8) : UnpackedFloat := Binary32.ofBits (loadWord p)

def defaultConfiguration : List UInt8 :=
  Field.all.flatMap fun f => (littleEndian f.default).take f.size

/-- What became of the writes of a half-word: its last complete one, and those that a power
cut interrupted since. -/
structure Ledger where
  written : Option UInt16
  interrupted : List UInt16

inductive MemObject where
  | configValue
  | config
  | packetSendBuffer
  | packetFrame
  deriving DecidableEq, Repr

structure MemWrite where
  object : MemObject
  offset : ℕ
  length : ℕ
  deriving DecidableEq, Repr

/-- `config i` is byte `i` of the structure, and of the memory behind it from 76 on.
`overcurrent` are the thresholds sent to the current monitor. `ledger` and `writes` record
what happened and are read by no function of the firmware. -/
structure Board where
  eeprom : Eeprom
  config : ℕ → UInt8
  lockCnt : ℤ
  overcurrent : List UInt32
  ledger : UInt16 → Ledger
  writes : List MemWrite

abbrev BoardM := Cuttable Board

def eepromPart : Part Board Eeprom := ⟨Board.eeprom, fun e b => { b with eeprom := e }⟩

def fieldAt (config : ℕ → UInt8) (f : Field) : ℕ → UInt8 := fun i => config (f.offset + i)

/-- `var = (conf_addr[2 * i] << 8) | conf_addr[2 * i + 1]`. -/
def halfWordAt (config : ℕ → UInt8) (i : ℕ) : UInt16 := word (config (2 * i)) (config (2 * i + 1))

/-- `*(p + addr .. p + addr + size) = *(data .. data + size)`. -/
def copyBytes (p : ℕ → UInt8) (addr size : ℕ) (data : ℕ → UInt8) : ℕ → UInt8 :=
  fun i => if addr ≤ i ∧ i < addr + size then data (i - addr) else p i

def Board.complete (b : Board) (virtAddress data : UInt16) : Board :=
  { b with ledger := Function.update b.ledger virtAddress ⟨some data, []⟩ }

def Board.interrupt (b : Board) (virtAddress data : UInt16) : Board :=
  let l := b.ledger virtAddress
  { b with ledger := Function.update b.ledger virtAddress
             { l with interrupted := data :: l.interrupted } }

def clearFlag : BoardM Unit := onPart eepromPart (onPart flashPart flashClearFlag)

def utilsSysLockCnt : BoardM Unit := modify fun b => { b with lockCnt := b.lockCnt + 1 }

def utilsSysUnlockCnt : BoardM Unit := modify fun b => { b with lockCnt := b.lockCnt - 1 }

def storeHalfWord (i : ℕ) (var : UInt16) : BoardM EeStatus := do
  let status ← onCut (Board.interrupt · (virtAddr i) var)
    (onPart eepromPart (eeWriteVariable (virtAddr i) var))
  modify fun b => if status = .complete then b.complete (virtAddr i) var else b
  pure status

def storeEach : List ℕ → BoardM Bool
  | [] => pure true
  | i :: is => do
    let b ← get
    let status ← storeHalfWord i (halfWordAt b.config i)
    if status = .complete then storeEach is else pure false

def configWriteAll : BoardM Bool := do
  utilsSysLockCnt
  clearFlag
  let isOk ← storeEach (List.range (sizeofConfig / 2))
  utilsSysUnlockCnt
  pure isOk

/-- `if (*((float*)data) > upper) *((float*)data) = upper; else if (< lower) = lower;`,
as the bytes it stores. A NaN passes both comparisons. -/
def clampFloat (upper lower : UnpackedFloat) (data : ℕ → UInt8) : Option (List UInt8) :=
  if upper.lt (loadFloat data) then some (littleEndian (Binary32.toBits upper))
  else if (loadFloat data).lt lower then some (littleEndian (Binary32.toBits lower))
  else none

def float5 : UnpackedFloat := Binary32.ofBits 0x40A00000
def float0 : UnpackedFloat := Binary32.ofBits 0
def float150 : UnpackedFloat := Binary32.ofBits 0x43160000
def float1 : UnpackedFloat := Binary32.ofBits 0x3F800000

def packLimit (config : ℕ → UInt8) : UnpackedFloat :=
  Binary32.scale (fieldAt config .numCells 0) (loadFloat (fieldAt config .highVoltageCutoff))

/-- What the range checks of config_write_field, keyed on the address, store over the value;
for every other address they do nothing. -/
def clampValue (config : ℕ → UInt8) (addr : ℕ) (data : ℕ → UInt8) : Option (List UInt8) :=
  if addr = Field.numCells.offset then
    if 12 < data 0 then some [12] else none
  else if addr = Field.highVoltageCutoff.offset then clampFloat float5 float0 data
  else if addr = Field.chargeVoltage.offset then clampFloat (packLimit config) float0 data
  else if addr = Field.maxCurrentCutoff.offset then clampFloat float150 float1 data
  else none

/-- The half-words of `addr .. addr + size`: from the even offset `addr` or `addr - 1` in
steps of 2, while below `addr + size`. -/
def fieldHalfWords (addr size : ℕ) : List ℕ := List.range' (addr / 2) ((addr % 2 + size + 1) / 2)

/-- The result and the value, which the range checks may have changed. -/
def configWriteField (addr : UInt16) (data : ℕ → UInt8) (size : UInt8) :
    BoardM (Bool × (ℕ → UInt8)) := do
  let b ← get
  let clamped := (clampValue b.config addr.toNat data).getD []
  let data := overlay data clamped
  modify fun b =>
    { b with
      overcurrent :=
        if addr.toNat = Field.maxCurrentCutoff.offset then loadWord data :: b.overcurrent
        else b.overcurrent
      config := copyBytes b.config addr.toNat size.toNat data
      writes := ⟨.config, addr.toNat, size.toNat⟩ :: ⟨.configValue, 0, clamped.length⟩ ::
        b.writes }
  utilsSysLockCnt
  clearFlag
  let isOk ← storeEach (fieldHalfWords addr.toNat size.toNat)
  utilsSysUnlockCnt
  pure (isOk, data)

def Board.loadHalfWord (b : Board) (i : ℕ) (var : UInt16) : Board :=
  { b with config := Function.update (Function.update b.config (2 * i) (hiByte var))
             (2 * i + 1) (loByte var) }

def loadEach : List ℕ → BoardM Bool
  | [] => pure true
  | i :: is => do
    let b ← get
    match eeReadVariable b.eeprom.flash.mem (virtAddr i) with
    | .found var => do
      modify (Board.loadHalfWord · i var)
      loadEach is
    | _ => pure false

def configLoadDefaultConfiguration : BoardM Unit :=
  modify fun b => { b with config := overlay b.config defaultConfiguration }

/-- The source returns nothing; the result says whether the configuration was found. -/
def configReadAll : BoardM Bool := do
  let isOk ← loadEach (List.range (sizeofConfig / 2))
  if isOk then pure true
  else do
    configLoadDefaultConfiguration
    let _ ← configWriteAll
    pure false

/-- The status of EE_Init is not looked at. -/
def configInit : BoardM Bool := do
  clearFlag
  let _ ← onPart eepromPart eeInit
  configReadAll

def Board.powerUp (b : Board) : Board :=
  { b with
    eeprom := { b.eeprom with dataVar := 0 }
    config := fun _ => 0
    lockCnt := 0 }

/-- The calls that use the stored configuration; `init` is a reset. -/
inductive Call where
  | init
  | writeField (addr : UInt16) (data : ℕ → UInt8) (size : UInt8)
  | writeAll

def Call.run : Call → BoardM Bool
  | .init => do
    modify Board.powerUp
    configInit
  | .writeField addr data size => Prod.fst <$> configWriteField addr data size
  | .writeAll => configWriteAll

/-- The surroundings of one call: what becomes of its flash operations, with a record of
them that starts empty. -/
def Board.under (b : Board) (fates : Fates) : Board :=
  { b with eeprom := { b.eeprom with flash := { b.eeprom.flash with fates, history := [] } } }

def Board.perform (b : Board) (fates : Fates) (c : Call) : Option Bool × Board :=
  exec c.run (b.under fates)

example : Field.all.map Field.offset =
    [0, 1, 2, 6, 10, 14, 18, 22, 26, 30, 34, 38, 39, 40, 44, 48, 52, 54, 56, 57, 61, 65, 67, 71,
      75] := by decide

section Numbers

abbrev Field.Value : Field → Type
  | .CANDeviceID | .numCells | .continuousCurrentCutoffTime | .continuousCurrentCutoffWarning
  | .chargeMode | .chargerDisconnectShutdown => UInt8
  | .turnOnDelay | .shutdownDelay | .prechargeTimeout => UInt16
  | _ => ℚ

abbrev Config := (f : Field) → f.Value

/-- The number of a word that is a float; those that are none are not used. -/
def number (w : UInt32) : ℚ := (Binary32.value (Binary32.ofBits w)).getD 0

def Field.decode : (f : Field) → UInt32 → f.Value
  | .CANDeviceID, w | .numCells, w | .continuousCurrentCutoffTime, w
  | .continuousCurrentCutoffWarning, w | .chargeMode, w | .chargerDisconnectShutdown, w =>
    w.toUInt8
  | .turnOnDelay, w | .shutdownDelay, w | .prechargeTimeout, w => w.toUInt16
  | .fullCellVoltage, w | .emptyCellVoltage, w | .packCapacity, w | .lowVoltageCutoff, w
  | .lowVoltageWarning, w | .highVoltageCutoff, w | .highVoltageWarning, w
  | .maxCurrentCutoff, w | .maxContinuousCurrent, w | .maxChargeCurrent, w | .chargeVoltage, w
  | .chargeCurrent, w | .chargeCurrentGainP, w | .chargeCurrentGainI, w
  | .balanceStartVoltage, w | .balanceDifferenceThreshold, w => number w

def Config.ofBytes (config : ℕ → UInt8) : Config := fun f => f.decode (loadWord (fieldAt config f))

def Config.default : Config := fun f => f.decode f.default

/-- ST2MS, in 32 bits as the macro computes it; a tick is 0.1 ms. -/
def st2ms (n : UInt32) : UInt32 := (n * 1000 + 9999) / 10000

def st2us (n : UInt32) : UInt32 := (n * 1000000 + 9999) / 10000

end Numbers

end Battman
