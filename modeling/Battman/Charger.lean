import Battman.Ltc6803

/-! charger.c, with voltages and currents as exact numbers. -/
namespace Battman

/-- What one call of charger_update reads. `cells` are the floats from the address of the cell
voltages on, of which twelve are voltages. `stack` is what the memory of lowestCellNum holds
when the function is entered. The times are the clock's, in the order of its readings.
set_voltage waits for the bus; `configLater` is the configuration after it. -/
structure ChargerInput where
  inputVoltage : ℚ
  cells : ℕ → ℚ
  current : ℚ
  busVoltage : ℚ
  config : Config
  configLater : Config
  stack : UInt8
  dtTime : UInt32
  startTime : UInt32
  startedTime : UInt32
  decideTime : UInt32
  decidedTime : UInt32
  lastTime : UInt32

/-- The variables of charger.c, the balance register and CHG_SW. `sent` are the messages to the
voltage DAC, the last one first. -/
structure Charger where
  isCharging : Bool
  inputVoltage : ℚ
  outputVoltage : ℚ
  chargeEnabled : Bool
  currentControlIntegral : ℚ
  lastTime : UInt32
  balancing : Bool
  balanceUpdateTime : UInt32
  chargeComplete : Bool
  chargeCompleteCounter : UInt8
  ltc : Ltc6803
  chgSw : Bool
  sent : List (List UInt8)

def ChargerInput.numCells (x : ChargerInput) : ℕ := (x.config .numCells).toNat

def dacCode (voltage : ℚ) : UInt16 :=
  let dacVoltage := 0.075 * (51.584 - voltage)
  let dacVoltage := if dacVoltage < 0 then 0 else if 3.3 < dacVoltage then 3.3 else dacVoltage
  UInt16.ofNat ⌊dacVoltage / 3.3 * 16383⌋₊

def Charger.setVoltage (c : Charger) (voltage : ℚ) : Charger :=
  let value := dacCode voltage
  { c with
    outputVoltage := voltage
    sent := [0x01, (value >>> 6).toUInt8, ((value &&& 0xFF) <<< 2).toUInt8] :: c.sent }

def chargerInit (config : Config) (lastTime balanceUpdateTime : UInt32) : Charger :=
  Charger.setVoltage
    { isCharging := false
      inputVoltage := 0
      outputVoltage := 0
      chargeEnabled := true
      currentControlIntegral := 0
      lastTime
      balancing := false
      balanceUpdateTime
      chargeComplete := false
      chargeCompleteCounter := 0
      ltc := Ltc6803.init
      chgSw := true
      sent := [] } (config .chargeVoltage)

def chargerEnable (c : Charger) : Charger := { c with chargeEnabled := true }

def chargerDisable (c : Charger) : Charger := { c with chargeEnabled := false, chgSw := false }

/-- The local variables of the scan; lowestCellNum has no initial value. -/
structure Scan where
  highestCellV : ℚ
  lowestCellV : ℚ
  lowestCellNum : Option ℕ

def Scan.empty : Scan := ⟨0, 999, none⟩

def Scan.cell (cells : ℕ → ℚ) (s : Scan) (i : ℕ) : Scan :=
  let s := if s.highestCellV < cells i then { s with highestCellV := cells i } else s
  if cells i < s.lowestCellV then { s with lowestCellV := cells i, lowestCellNum := some i }
  else s

def scanCells (cells : ℕ → ℚ) (numCells : ℕ) : Scan :=
  (List.range numCells).foldl (Scan.cell cells) Scan.empty

/-- The scan of a call; a call that is balancing makes none. -/
def Charger.scan (c : Charger) (x : ChargerInput) : Scan :=
  if c.balancing then Scan.empty else scanCells x.cells x.numCells

def Charger.startsBalancing (c : Charger) (x : ChargerInput) : Bool :=
  let s := c.scan x
  !c.balancing && decide (
    (x.config .balanceStartVoltage ≤ s.highestCellV ∧
      x.config .balanceDifferenceThreshold < s.highestCellV - s.lowestCellV) ∧
    10000 < st2ms (x.startTime - c.balanceUpdateTime) ∧ c.chargeComplete = false)

def Charger.started (c : Charger) (x : ChargerInput) : Charger :=
  if c.startsBalancing x then { c with balancing := true, balanceUpdateTime := x.startedTime }
  else c

def balanceCell (cells : ℕ → ℚ) (numCells : ℕ) (lowest : ℚ) :
    Ltc6803 × Bool → ℕ → Ltc6803 × Bool
  | (ltc, continueBalance), i =>
    if lowest < cells i then (ltc.enableBalance numCells (i + 1), true)
    else (ltc.disableBalance numCells (i + 1), continueBalance)

def balanceCells (cells : ℕ → ℚ) (numCells : ℕ) (lowest : ℚ) (ltc : Ltc6803) : Ltc6803 × Bool :=
  (List.range numCells).foldl (balanceCell cells numCells lowest) (ltc, false)

def Charger.lowestCell (c : Charger) (x : ChargerInput) : ℚ :=
  x.cells ((c.scan x).lowestCellNum.getD x.stack.toNat)

def Charger.decisionDue (c : Charger) (x : ChargerInput) : Bool :=
  500 < st2ms (x.decideTime - c.balanceUpdateTime)

def Charger.balance (c : Charger) (x : ChargerInput) (lowest : ℚ) : Charger :=
  let c := { c with chgSw := false, balancing := true }
  if c.decisionDue x then
    let r := balanceCells x.cells x.numCells lowest c.ltc
    { c with ltc := r.1, balancing := r.2, balanceUpdateTime := x.decidedTime }
  else c

def Charger.currentControl (c : Charger) (x : ChargerInput) : Charger :=
  let dt : ℚ := (st2us (x.dtTime - c.lastTime)).toNat / 1000000
  let currentErr := x.config .chargeCurrent - -x.current
  let integral := c.currentControlIntegral + currentErr * dt
  let integral :=
    if 0 < integral then 0
    else if integral < -x.config .chargeVoltage then -x.config .chargeVoltage
    else integral
  let voltage := x.config .chargeVoltage + currentErr * x.config .chargeCurrentGainP +
    integral * x.config .chargeCurrentGainI
  let voltage := if x.config .chargeVoltage < voltage then x.config .chargeVoltage else voltage
  { c with currentControlIntegral := integral }.setVoltage voltage

/-- The four charge modes; any other value of the field does nothing. -/
def Charger.regulate (c : Charger) (x : ChargerInput) : Charger :=
  if x.config .chargeMode = 0 then c.currentControl x
  else if x.config .chargeMode = 1 then c.setVoltage (x.config .chargeVoltage)
  else if x.config .chargeMode = 2 then c.setVoltage 0
  else if x.config .chargeMode = 3 then c.setVoltage 0
  else c

def Charger.countComplete (c : Charger) (x : ChargerInput) : Charger :=
  if x.configLater .chargeVoltage ≤ x.busVoltage ∧
      |x.current| < x.configLater .chargeCurrent / 10 then
    let count := c.chargeCompleteCounter + 1
    { c with
      chargeCompleteCounter := count
      chargeComplete := if 100 < count then true else c.chargeComplete }
  else { c with chargeCompleteCounter := 0 }

def Charger.charge (c : Charger) (x : ChargerInput) : Charger :=
  if (c.started x).balancing then (c.started x).balance x (c.lowestCell x)
  else if (c.scan x).highestCellV < x.config .highVoltageCutoff then
    (({ c with chgSw := true } : Charger).regulate x).countComplete x
  else { c with chgSw := false }

def Charger.idle (c : Charger) : Charger :=
  let c :=
    if c.isCharging then { c with chgSw := false }
    else { c with chgSw := true, chargeComplete := false, chargeCompleteCounter := 0 }
  { c with
    currentControlIntegral := 0
    balancing := false
    ltc := c.ltc.disableBalanceAll }

def Charger.sense (c : Charger) (x : ChargerInput) : Charger :=
  { c with inputVoltage := x.inputVoltage, isCharging := 6 < x.inputVoltage }

def chargerUpdate (c : Charger) (x : ChargerInput) : Charger :=
  let c := c.sense x
  let c := if c.chargeEnabled && c.isCharging && !c.chargeComplete then c.charge x else c.idle
  { c with lastTime := x.lastTime }

/-- The calls that change the charger: the main loop's, those that switch charging, and the
console's drain commands, with the configuration in effect. -/
inductive ChargerCall where
  | update (x : ChargerInput)
  | enable
  | disable
  | enableDrain (config : Config)
  | disableDrain

def Charger.call (c : Charger) : ChargerCall → Charger
  | .update x => chargerUpdate c x
  | .enable => chargerEnable c
  | .disable => chargerDisable c
  | .enableDrain config => { c with ltc := c.ltc.enableDrain (config .numCells).toNat }
  | .disableDrain => { c with ltc := c.ltc.disableDrain }

def Charger.after (c : Charger) (calls : List ChargerCall) : Charger := calls.foldl Charger.call c

end Battman
