import Battman.CutLogic
import Battman.Bytes

/-! The flash controller as stm32f30x_flash.c drives it.
The surroundings decide what becomes of an operation, from the memory and what was issued
before: it completes, fails, or is the one the power is cut before. An operation completes
or leaves the memory alone. `history` records what was issued, with what a half-word to be
programmed held, and is read by no function of the firmware. -/
namespace Battman
open CutLogic

inductive FlashStatus where
  | busy
  | errorWrp
  | errorProgram
  | complete
  | timeout
  deriving DecidableEq, Repr

inductive Fate where
  | completes
  | fails (status : FlashStatus)
  | cut
  deriving DecidableEq, Repr

inductive FlashOp where
  | erasePage (pageAddress : ℕ) (result : FlashStatus)
  | programHalfWord (address : ℕ) (was data : UInt16) (result : FlashStatus)
  deriving DecidableEq, Repr

def FlashOp.result : FlashOp → FlashStatus
  | .erasePage _ r => r
  | .programHalfWord _ _ _ r => r

abbrev Memory := ℕ → UInt16

abbrev Fates := Memory → List FlashOp → Fate

/-- `mem a` is the half-word at the even byte address `a`. -/
structure Flash where
  mem : Memory
  status : FlashStatus
  fates : Fates
  history : List FlashOp

abbrev FlashM := Cuttable Flash

/-- The two error flags stay set until FLASH_ClearFlag; a timeout leaves none. -/
def FlashStatus.flags : FlashStatus → FlashStatus
  | .errorWrp => .errorWrp
  | .errorProgram => .errorProgram
  | _ => .complete

def flashClearFlag : FlashM Unit := modify fun f => { f with status := .complete }

/-- FLASH_WaitForLastOperation, the operation, FLASH_WaitForLastOperation. An error flag
still set is returned before anything is done; `effect` is `none` where the controller
refuses and raises PGERR. -/
def flashOperation (record : Memory → FlashStatus → FlashOp) (effect : Memory → Option Memory) :
    FlashM FlashStatus := do
  let f ← get
  if f.status = .complete then
    match f.fates f.mem f.history with
    | .completes =>
      match effect f.mem with
      | some mem =>
        set { f with mem, history := record f.mem .complete :: f.history }
        pure .complete
      | none =>
        set { f with status := .errorProgram, history := record f.mem .errorProgram :: f.history }
        pure .errorProgram
    | .fails status =>
      set { f with status := status.flags, history := record f.mem status :: f.history }
      pure status
    | .cut => failure
  else
    set { f with history := record f.mem f.status :: f.history }
    pure f.status

def pageSize : ℕ := 0x800

def erased : UInt16 := 0xFFFF

def erasePage (pageAddress : ℕ) (mem : Memory) : Memory :=
  fun a => if pageAddress ≤ a ∧ a < pageAddress + pageSize then erased else mem a

def flashErasePage (pageAddress : ℕ) : FlashM FlashStatus :=
  flashOperation (fun _ => .erasePage pageAddress) fun mem => some (erasePage pageAddress mem)

def programHalfWord (address : ℕ) (data : UInt16) (mem : Memory) : Option Memory :=
  if mem address = erased ∨ data = 0 then some (Function.update mem address data) else none

def flashProgramHalfWord (address : ℕ) (data : UInt16) : FlashM FlashStatus :=
  flashOperation (fun mem => .programHalfWord address (mem address) data)
    (programHalfWord address data)

/-- Programmed is what was erased, or the first half-word of a page. -/
def FlashOp.Fresh : FlashOp → Prop
  | .erasePage _ _ => True
  | .programHalfWord address was _ _ => was = erased ∨ pageSize ∣ address

def Fates.Sound (fates : Fates) : Prop :=
  ∀ mem history, fates mem history = .completes ∨ fates mem history = .cut

def Fates.Steady (fates : Fates) : Prop := ∀ mem history, fates mem history = .completes

theorem Fates.Steady.sound {fates : Fates} (h : fates.Steady) : fates.Sound :=
  fun mem history => Or.inl (h mem history)

/-- The flash between two operations. With steady power nothing was refused so far. -/
structure Serviceable (fates : Fates) (f : Flash) : Prop where
  status : f.status = .complete
  fates_eq : f.fates = fates
  sound : fates.Sound
  history : fates.Steady → ∀ op ∈ f.history, op.result = .complete
  fresh : ∀ op ∈ f.history, op.Fresh

variable {fates : Fates} {f : Flash} {record : Memory → FlashStatus → FlashOp}
  {effect : Memory → Option Memory}

theorem serviceable_start (hst : f.status = .complete) (hf : f.fates = fates) (hs : fates.Sound)
    (hh : f.history = []) : Serviceable fates f where
  status := hst
  fates_eq := hf
  sound := hs
  history := fun _ _ hop => absurd (hh ▸ hop) List.not_mem_nil
  fresh := fun _ hop => absurd (hh ▸ hop) List.not_mem_nil

theorem Serviceable.clear (h : Serviceable fates f) :
    Serviceable fates { f with status := .complete } :=
  ⟨rfl, h.fates_eq, h.sound, h.history, h.fresh⟩

theorem wp_flash_operation {mem : Memory} (h : Serviceable fates f)
    (hr : (record f.mem .complete).result = .complete) (hw : (record f.mem .complete).Fresh)
    (he : effect f.mem = some mem) :
    wp (flashOperation record effect)
      (fun st t => st = .complete ∧ t.mem = mem ∧ Serviceable fates t)
      (fun t => fates t.mem t.history = .cut ∧ t.mem = f.mem) f := by
  simp only [flashOperation, wp_bind, wp_get, if_pos h.status, h.fates_eq]
  rcases h.sound f.mem f.history with hc | hc
  · simp only [hc, he, wp_bind, wp_set, wp_pure, true_and]
    exact ⟨h.status, rfl, h.sound, fun hs => List.forall_mem_cons.mpr ⟨hr, h.history hs⟩,
      List.forall_mem_cons.mpr ⟨hw, h.fresh⟩⟩
  · simp [hc]

theorem wp_flash_cut {Q : FlashStatus → Flash → Prop} {C : Flash → Prop}
    (h : Serviceable fates f) (hc : fates f.mem f.history = .cut) (hC : C f) :
    wp (flashOperation record effect) Q C f := by
  simpa only [flashOperation, wp_bind, wp_get, if_pos h.status, h.fates_eq, hc,
    wp_failure] using hC

theorem wp_flash_recorded : wp (flashOperation record effect)
    (fun st t => t.history = record f.mem st :: f.history) (fun t => t.history = f.history) f := by
  simp only [flashOperation, wp_bind, wp_get]
  split
  · split
    · split
      · exact rfl
      · exact rfl
    · exact rfl
    · rfl
  · exact rfl

theorem wp_flash_refused (h : Serviceable fates f) (he : effect f.mem = none) :
    wp (flashOperation record effect)
      (fun st t => st = .errorProgram ∧ t.mem = f.mem) (fun t => t.mem = f.mem) f := by
  simp only [flashOperation, wp_bind, wp_get, if_pos h.status, h.fates_eq]
  rcases h.sound f.mem f.history with hc | hc
  · simp [hc, he]
  · simp [hc]

theorem wp_flash_erase_page (h : Serviceable fates f) (page : ℕ) :
    wp (flashErasePage page)
      (fun st t => st = .complete ∧ t.mem = erasePage page f.mem ∧ Serviceable fates t)
      (fun t => fates t.mem t.history = .cut ∧ t.mem = f.mem) f :=
  wp_flash_operation h rfl trivial rfl

theorem wp_flash_program (h : Serviceable fates f) {address : ℕ} {data : UInt16}
    (ha : f.mem address = erased ∨ data = 0 ∧ pageSize ∣ address) :
    wp (flashProgramHalfWord address data)
      (fun st t => st = .complete ∧ t.mem = Function.update f.mem address data ∧
        Serviceable fates t)
      (fun t => fates t.mem t.history = .cut ∧ t.mem = f.mem) f :=
  wp_flash_operation h rfl (ha.imp_right And.right) (if_pos (ha.imp_right And.left))

end Battman
