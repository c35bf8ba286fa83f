import Battman.Ltc6803
import Battman.Packet
import Battman.RtccAlarm
import Battman.Power

/-! console.c: the first word of a PACKET_CONSOLE decides what is printed. A print is a format
with its arguments; `vsnprintf`, a parameter, makes the text of it. -/
namespace Battman

inductive PrintArg where
  | int (n : ℤ)
  | unsigned (n : UInt32)
  | float (bits : UInt32)
  | string (s : List UInt8)
  deriving DecidableEq, Repr

abbrev Print := String × List PrintArg

structure ThreadRow where
  address : UInt32
  r13 : UInt32
  prio : UInt32
  refs : UInt32
  state : List UInt8
  name : List UInt8
  time : UInt32

/-- What the commands ask other files for; a float by its bits. -/
structure ConsoleReadings where
  coreStatus : UInt32
  heapFragments : UInt32
  heapSize : UInt32
  threads : List ThreadRow
  uptime : UInt32
  cells : ℕ → UInt32
  current : UInt32
  busVoltage : UInt32
  temperature : UInt32
  chargerInputVoltage : UInt32
  powerOnEvent : PowerOnEvent
  time : Time
  infinityCurrent : UInt32

def ascii (s : String) : List UInt8 := s.toList.map fun c => UInt8.ofNat c.toNat

def firstWord (text : List UInt8) : Option (List UInt8) :=
  match text.dropWhile (· = 0x20) with
  | [] => none
  | b :: bs => some ((b :: bs).takeWhile (· ≠ 0x20))

def PowerOnEvent.code : PowerOnEvent → ℤ
  | .switch => 0
  | .charger => 1
  | .usb => 2
  | .rtcc => 3

def printCell (cells : ℕ → UInt32) (i : ℕ) : Print :=
  ("Cell %d: %.4fV\n", [.int (i + 1), .float (cells i)])

def printThread (row : ThreadRow) : Print :=
  ("%.8lx %.8lx %4lu %4lu %9s %14s %lu\n",
    [.unsigned row.address, .unsigned row.r13, .unsigned row.prio, .unsigned (row.refs - 1),
      .string row.state, .string row.name, .unsigned row.time])

def printTime (time : Time) : Print :=
  ("RTCC time: %d/%d/%04d %02d:%02d:%02d\n",
    [.int time.month.toNat, .int time.day.toNat, .int time.year.toNat, .int time.hour.toNat,
      .int time.minute.toNat, .int time.second.toNat])

/-- What is printed before the last line, and the cell monitor after it. -/
def consoleCommand (r : ConsoleReadings) (numCells : UInt8) (l : Ltc6803) (arg : List UInt8) :
    List Print × Ltc6803 :=
  if arg = ascii "ping" then ([("pong\n", [])], l)
  else if arg = ascii "mem" then
    ([("core free memory : %u bytes\n", [.unsigned r.coreStatus]),
      ("heap fragments   : %u\n", [.unsigned r.heapFragments]),
      ("heap free total  : %u bytes\n", [.unsigned r.heapSize])], l)
  else if arg = ascii "threads" then
    (("    addr    stack prio refs     state           name time    \n", []) ::
      ("-------------------------------------------------------------\n", []) ::
      r.threads.map printThread, l)
  else if arg = ascii "uptime" then
    ([("System uptime: %d seconds\n", [.unsigned r.uptime])], l)
  else if arg = ascii "cell_voltages" then
    ((List.range numCells.toNat).map (printCell r.cells), l)
  else if arg = ascii "current" then
    ([("Battery current: %.2fA\n", [.float r.current])], l)
  else if arg = ascii "voltage" then
    ([("Bus voltage: %.2fV\n", [.float r.busVoltage])], l)
  else if arg = ascii "temp" then
    ([("Board temperature: %.2f degrees C\n", [.float r.temperature])], l)
  else if arg = ascii "charger_voltage" then
    ([("Charger input voltage: %.2fV\n", [.float r.chargerInputVoltage])], l)
  else if arg = ascii "power_on_event" then
    ([("Power on event: %d\n", [.int r.powerOnEvent.code])], l)
  else if arg = ascii "rtcc" then ([printTime r.time], l)
  else if arg = ascii "enable_drain" then
    ([("Enabling all balance resistors...\n", [])], l.enableDrain numCells.toNat)
  else if arg = ascii "disable_drain" then
    ([("Disabling all balance resistors...\n", [])], l.disableDrain)
  else if arg = ascii "infinity_current" then
    ([("Current: %f\n", [.float r.infinityCurrent])], l)
  else ([("%s: command not found\n", [.string arg])], l)

def consoleProcessCommand (r : ConsoleReadings) (numCells : UInt8) (l : Ltc6803)
    (text : List UInt8) : List Print × Ltc6803 :=
  let (prints, l) :=
    match firstWord text with
    | none => ([("No command received\n", [])], l)
    | some arg => consoleCommand r numCells l arg
  (prints ++ [("\r\n", [])], l)

/-- The payload that console_printf sends for a text, if any: print_buffer has 255 bytes, and
vsnprintf ends what it cuts off with a zero, which is sent then. -/
def consolePrintf (text : List UInt8) : Option (List UInt8) :=
  if text = [] then none
  else some (packetConsole :: if text.length < 254 then text else text.take 253 ++ [0])

end Battman
