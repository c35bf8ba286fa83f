import Battman.Interference
import Battman.Config

/-! power.c, with what analog.c, current_monitor.c and faults.c share with it and the main loop
that calls them. Each step is one access to a variable or a pin that the interrupt of the
current monitor also uses, or an evaluation that it cannot influence. -/
namespace Battman
open Interference Prog

inductive PowerOnEvent where
  | switch
  | charger
  | usb
  | rtcc
  deriving DecidableEq, Repr

inductive Fault where
  | cellUv
  | cellOv
  | overcurrent
  | batteryTemp
  | boardTemp
  | turnOnShort
  deriving DecidableEq, Repr

def Fault.bit : Fault → UInt8
  | .cellUv => 0x01
  | .cellOv => 0x02
  | .overcurrent => 0x04
  | .batteryTemp => 0x08
  | .boardTemp => 0x10
  | .turnOnShort => 0x20

/-- What the board measures and what others decide. A sample stands for the quantity that the
firmware computes from it, a pin for its level. -/
structure Surroundings where
  systemTime : UInt32
  chargerInput : ℚ
  dischargeSense : ℚ
  temperature : ℚ
  shuntCurrent : ℚ
  busVoltage : ℚ
  pwrBtn : Bool
  currAlert : Bool
  usbDetect : Bool
  config : Config

/-- The variables of the four files, and the pins they drive. -/
structure Power where
  dischargeEnabled : Bool
  precharged : Bool
  prechargeStartTime : UInt32
  powerOnEvent : PowerOnEvent
  powerButtonReleased : Bool
  shutdownStarted : Bool
  shutdown : Bool
  shutdownStartTime : UInt32
  faults : UInt8
  chargerInputVoltage : ℚ
  dischargeVoltage : ℚ
  thermistor : ℚ
  current : ℚ
  voltage : ℚ
  dsgSw : Bool
  pchgSw : Bool
  pwrSw : Bool
  outside : Surroundings

/-- The places of the main loop that an interrupt can tell apart. -/
inductive Place where
  | elsewhere
  | guardFaults
  | prechargedTest
  | prechargeStart
  | prechargedSet
  | prechargedAgain
  | settleTest
  | shortTest
  | voltageTest
  | timeoutTest
  | mainSwitch
  deriving DecidableEq, Repr

abbrev PowerM := Prog Power Place

/-- ST2MS(chVTTimeElapsedSinceX(start)). -/
def Power.elapsedMs (s : Power) (start : UInt32) : UInt32 := st2ms (s.outside.systemTime - start)

def setDsgSw (on : Bool) (l : Place) : PowerM Unit := act l fun s => { s with dsgSw := on }

def setPchgSw (on : Bool) : PowerM Unit := act .elsewhere fun s => { s with pchgSw := on }

def setPwrSw (on : Bool) : PowerM Unit := act .elsewhere fun s => { s with pwrSw := on }

def skip : PowerM Unit := act .elsewhere id

def faultsSetFault (fault : Fault) : PowerM Unit := do
  let faults ← look .elsewhere (·.faults)
  act .elsewhere fun s => { s with faults := faults ||| fault.bit }

def powerDisableDischarge : PowerM Unit := do
  act .elsewhere fun s => { s with dischargeEnabled := false }
  setDsgSw false .elsewhere

def currAlert : PowerM Unit := do
  powerDisableDischarge
  faultsSetFault .overcurrent

def analogUpdate : PowerM Unit := do
  act .elsewhere fun s => { s with
    chargerInputVoltage := s.outside.chargerInput
    dischargeVoltage := s.outside.dischargeSense }
  act .elsewhere fun s => { s with thermistor := s.outside.temperature }
  if ← test .elsewhere fun s => 100 < s.thermistor then faultsSetFault .boardTemp

def currentMonitorUpdate : PowerM Unit := do
  act .elsewhere fun s => { s with current := s.outside.shuntCurrent }
  act .elsewhere fun s => { s with voltage := s.outside.busVoltage }
  if ← test .elsewhere fun s =>
      s.outside.config .maxCurrentCutoff < s.current ∨ ¬ s.outside.currAlert then
    powerDisableDischarge
    faultsSetFault .overcurrent

def dischargeGuard : PowerM Bool := do
  if ← test .elsewhere (·.dischargeEnabled) then test .guardFaults (·.faults = 0) else pure false

def switchesOff : PowerM Unit := do
  setDsgSw false .elsewhere
  setPchgSw false

def switchOn : PowerM Unit := do
  setDsgSw true .mainSwitch
  setPchgSw false

def switchPrecharge : PowerM Unit := do
  setPchgSw true
  setDsgSw false .elsewhere

def prechargeOver : PowerM Bool := do
  if ← test .voltageTest fun s => s.voltage - 5 ≤ s.dischargeVoltage then pure true
  else test .timeoutTest fun s =>
    (s.outside.config .prechargeTimeout).toUInt32 < s.elapsedMs s.prechargeStartTime

def selectSwitch : PowerM Unit := do
  if ← prechargeOver then switchOn else switchPrecharge

def turnOnShort : PowerM Bool := do
  if ← test .settleTest fun s => 8 < s.elapsedMs s.prechargeStartTime then
    test .shortTest (·.dischargeVoltage < 1 / 2)
  else pure false

def startPrecharge : PowerM Unit := do
  if ← test .prechargedTest (! ·.precharged) then
    act .prechargeStart fun s => { s with prechargeStartTime := s.outside.systemTime }
    act .prechargedSet fun s => { s with precharged := true }

/-- With the precharge started; the result says whether power_update returns there. -/
def connect : PowerM Bool := do
  if ← turnOnShort then
    switchesOff
    faultsSetFault .turnOnShort
    pure true
  else
    selectSwitch
    pure false

def discharge : PowerM Bool := do
  startPrecharge
  if ← test .prechargedAgain (·.precharged) then connect
  else
    switchesOff
    pure false

def noDischarge : PowerM Unit := do
  switchesOff
  act .elsewhere fun s => { s with precharged := false }

/-- rtcc_enable_alarm only talks to the clock chip. -/
def powerDown : PowerM Unit := do
  skip
  setDsgSw false .elsewhere
  setPwrSw false

def noteButton : PowerM Unit := do
  if ← test .elsewhere (·.outside.pwrBtn) then
    act .elsewhere fun s => { s with powerButtonReleased := true }

def startShutdown : PowerM Unit := do
  if ← test .elsewhere (! ·.shutdownStarted) then
    act .elsewhere fun s => { s with shutdownStartTime := s.outside.systemTime }
    act .elsewhere fun s => { s with shutdownStarted := true }

def shutdownUpdate : PowerM Unit := do
  noteButton
  if ← test .elsewhere fun s => s.shutdown ∨
      s.outside.config .chargerDisconnectShutdown ≠ 0 ∧ s.powerOnEvent = .charger ∧
        s.chargerInputVoltage < 6 then
    act .elsewhere fun s => { s with shutdown := true }
    powerDown
  else if ← test .elsewhere fun s =>
      (¬ s.outside.pwrBtn ∧ s.powerButtonReleased) ∧ s.chargerInputVoltage < 6 ∧
        ¬ s.outside.usbDetect ∨ s.powerOnEvent = .rtcc then
    startShutdown
    if ← test .elsewhere fun s =>
        (s.outside.config .shutdownDelay).toUInt32 < s.elapsedMs s.shutdownStartTime then
      powerDown
      act .elsewhere fun s => { s with shutdown := true }
  else
    act .elsewhere fun s => { s with shutdown := false }
    act .elsewhere fun s => { s with shutdownStarted := false }

def holdPower : PowerM Unit := do
  if ← test .elsewhere fun s => ¬ s.shutdown ∧ s.powerOnEvent ≠ .usb then setPwrSw true

def powerUpdate : PowerM Unit := do
  holdPower
  if ← dischargeGuard then
    if ← discharge then pure () else shutdownUpdate
  else
    noDischarge
    shutdownUpdate

/-- One round of the main loop. What it calls besides has no part in the above; the result
is whether it goes round again. -/
def mainLoop : PowerM Bool := do
  analogUpdate
  skip                  -- ltc6803_update
  currentMonitorUpdate
  skip                  -- soc_update
  skip                  -- charger_update
  powerUpdate
  skip                  -- rtcc_update
  skip                  -- accessory_update
  skip                  -- comm_can_update
  test .elsewhere (! ·.shutdown)

end Battman
