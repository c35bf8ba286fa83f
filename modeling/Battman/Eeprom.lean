import Battman.Flash

/-! The EEPROM emulation of eeprom.c: two flash pages, each a header half-word and 511
slots of data half-word then virtual address half-word. -/
namespace Battman
open CutLogic

structure Eeprom where
  flash : Flash
  dataVar : UInt16

abbrev EepromM := Cuttable Eeprom

def flashPart : Part Eeprom Flash := ⟨Eeprom.flash, fun f e => { e with flash := f }⟩

inductive Page where
  | page0
  | page1
  deriving DecidableEq, Repr

def Page.other : Page → Page
  | .page0 => .page1
  | .page1 => .page0

def eepromStartAddress : ℕ := 0x08000800

def Page.base : Page → ℕ
  | .page0 => eepromStartAddress
  | .page1 => eepromStartAddress + pageSize

def receiveData : UInt16 := 0xEEEE
def validPage : UInt16 := 0x0000

def eepromBase : ℕ := 1000
def sizeofConfig : ℕ := 76

def virtAddr (i : ℕ) : UInt16 := UInt16.ofNat (eepromBase + i)

def configVars : List UInt16 := (List.range (sizeofConfig / 2)).map virtAddr

/-- VirtAddVarTab as config_init fills it: NB_OF_VAR entries, the rest zero. -/
def virtAddVarTab : List UInt16 := configVars ++ List.replicate (160 - sizeofConfig / 2) 0

/-- A uint16_t status of eeprom.c: FLASH_COMPLETE and the flash errors, PAGE_FULL or
NO_VALID_PAGE. -/
inductive EeStatus where
  | flash (status : FlashStatus)
  | pageFull
  | noValidPage
  deriving DecidableEq, Repr

@[match_pattern] abbrev EeStatus.complete : EeStatus := .flash .complete

inductive ReadResult where
  | found (data : UInt16)
  | notFound
  | noValidPage
  deriving DecidableEq, Repr

inductive Operation where
  | readFromValidPage
  | writeInValidPage
  deriving DecidableEq, Repr

def eeFindValidPage (operation : Operation) (mem : Memory) : Option Page :=
  let pageStatus0 := mem Page.page0.base
  let pageStatus1 := mem Page.page1.base
  match operation with
  | .writeInValidPage =>
    if pageStatus1 = validPage then
      if pageStatus0 = receiveData then some .page0 else some .page1
    else if pageStatus0 = validPage then
      if pageStatus1 = receiveData then some .page1 else some .page0
    else none
  | .readFromValidPage =>
    if pageStatus0 = validPage then some .page0
    else if pageStatus1 = validPage then some .page1
    else none

def readLoop (mem : Memory) (virtAddress : UInt16) (pageStartAddress : ℕ) :
    ℕ → ReadResult
  | 0 => .notFound
  | n + 1 =>
    let address := pageStartAddress + 4 * (n + 1) + 2
    if mem address = virtAddress then .found (mem (address - 2))
    else readLoop mem virtAddress pageStartAddress n

def slots : ℕ := 511

def eeReadVariable (mem : Memory) (virtAddress : UInt16) : ReadResult :=
  match eeFindValidPage .readFromValidPage mem with
  | none => .noValidPage
  | some page => readLoop mem virtAddress page.base slots

def erase (page : Page) : EepromM EeStatus :=
  .flash <$> onPart flashPart (flashErasePage page.base)

def program (address : ℕ) (data : UInt16) : EepromM EeStatus :=
  .flash <$> onPart flashPart (flashProgramHalfWord address data)

/-- `status = op; if (status != FLASH_COMPLETE) return status;` and on. -/
def checked (op next : EepromM EeStatus) : EepromM EeStatus := do
  let status ← op
  if status = .complete then next else pure status

/-- The words left to check for a blank slot, the header's first. -/
def verifyLoop (virtAddress data : UInt16) : ℕ → ℕ → EepromM EeStatus
  | 0, _ => pure .pageFull
  | n + 1, address => do
    let e ← get
    if e.flash.mem address = erased ∧ e.flash.mem (address + 2) = erased then
      checked (program address data) (program (address + 2) virtAddress)
    else verifyLoop virtAddress data n (address + 4)

def eeVerifyPageFullWriteVariable (virtAddress data : UInt16) : EepromM EeStatus := do
  let e ← get
  match eeFindValidPage .writeInValidPage e.flash.mem with
  | none => pure .noValidPage
  | some page => verifyLoop virtAddress data (slots + 1) page.base

/-- One variable of a transfer. Any read status but "not found" is written on: with
NO_VALID_PAGE that is whatever DataVar held. -/
def copyVariable (virtAddress : UInt16) (next : EepromM EeStatus) : EepromM EeStatus := do
  let e ← get
  match eeReadVariable e.flash.mem virtAddress with
  | .notFound => next
  | .found data =>
    set { e with dataVar := data }
    checked (eeVerifyPageFullWriteVariable virtAddress data) next
  | .noValidPage => checked (eeVerifyPageFullWriteVariable virtAddress e.dataVar) next

def transferLoop (virtAddress : UInt16) : List UInt16 → EepromM EeStatus
  | [] => pure .complete
  | v :: vs =>
    if v ≠ virtAddress then copyVariable v (transferLoop virtAddress vs)
    else transferLoop virtAddress vs

def eePageTransfer (virtAddress data : UInt16) : EepromM EeStatus := do
  let e ← get
  match eeFindValidPage .readFromValidPage e.flash.mem with
  | none => pure .noValidPage
  | some old =>
    checked (program old.other.base receiveData) <|
    checked (eeVerifyPageFullWriteVariable virtAddress data) <|
    checked (transferLoop virtAddress virtAddVarTab) <|
    checked (erase old) <|
    program old.other.base validPage

def eeWriteVariable (virtAddress data : UInt16) : EepromM EeStatus := do
  let status ← eeVerifyPageFullWriteVariable virtAddress data
  if status = .pageFull then eePageTransfer virtAddress data else pure status

def eeFormat : EepromM EeStatus :=
  checked (erase .page0) <|
  checked (program Page.page0.base validPage) <|
  erase .page1

/-- The transfer loop of EE_Init. `x` is the index of the variable that the first slot of
the receiving page already holds. -/
def recoverLoop (receiving : Page) : List UInt16 → ℤ → ℤ → EepromM EeStatus
  | [], _, _ => pure .complete
  | v :: vs, varIdx, x => do
    let e ← get
    let x := if e.flash.mem (receiving.base + 6) = v then varIdx else x
    if varIdx ≠ x then copyVariable v (recoverLoop receiving vs (varIdx + 1) x)
    else recoverLoop receiving vs (varIdx + 1) x

/-- EE_Init with one page receiving and the other valid. The new page is marked valid
before the old one is erased, in the order opposite to EE_PageTransfer. -/
def eeFinishTransfer (receiving : Page) : EepromM EeStatus :=
  checked (recoverLoop receiving virtAddVarTab 0 (-1)) <|
  checked (program receiving.base validPage) <|
  erase receiving.other

def eeInit : EepromM EeStatus := do
  let e ← get
  let pageStatus0 := e.flash.mem Page.page0.base
  let pageStatus1 := e.flash.mem Page.page1.base
  if pageStatus0 = erased then
    if pageStatus1 = validPage then erase .page0
    else if pageStatus1 = receiveData then
      checked (erase .page0) (program Page.page1.base validPage)
    else eeFormat
  else if pageStatus0 = receiveData then
    if pageStatus1 = validPage then eeFinishTransfer .page0
    else if pageStatus1 = erased then
      checked (erase .page1) (program Page.page0.base validPage)
    else eeFormat
  else if pageStatus0 = validPage then
    if pageStatus1 = validPage then eeFormat
    else if pageStatus1 = erased then erase .page1
    else eeFinishTransfer .page1
  else eeFormat

end Battman
