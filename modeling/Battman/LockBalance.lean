import Battman.FwUpdater

/-! The nesting count of the system lock over any sequence of the calls that lock it, with
any result of each flash operation. -/
namespace Battman
open CutLogic

def eraseFlash (pageAddress : UInt32) : BoardM FlashStatus :=
  onPart eepromPart (onPart flashPart (flashErasePage pageAddress.toNat))

def eraseFirmwareLoop : List ℕ → BoardM FlashStatus
  | [] => do
    utilsSysUnlockCnt
    pure .complete
  | i :: is => do
    let res ← eraseFlash (newFwAddr + UInt32.ofNat (i * 2048))
    if res = .complete then eraseFirmwareLoop is else pure res

/-- The flash controller is unlocked since config_init. -/
def fwUpdaterEraseNewFirmware : BoardM FlashStatus := do
  clearFlag
  utilsSysLockCnt
  eraseFirmwareLoop (List.range fwNumPages)

inductive LockCall where
  | init
  | writeAll
  | writeField (addr : UInt16) (data : ℕ → UInt8) (size : UInt8)
  | writeFirmware (offset : UInt32) (data : ℕ → UInt8) (len : UInt32)
  | eraseNewFirmware

namespace LockCall

def run (fuel : ℕ) : LockCall → BoardM Bool
  | .init => (fun _ => true) <$> configInit
  | .writeAll => (fun _ => true) <$> configWriteAll
  | .writeField addr data size => (fun _ => true) <$> configWriteField addr data size
  | .writeFirmware offset data len => Option.isSome <$> fwUpdaterWriteFirmware fuel offset data len
  | .eraseNewFirmware => (fun _ => true) <$> fwUpdaterEraseNewFirmware

def ofFirmware : LockCall → Bool
  | .writeFirmware .. | .eraseNewFirmware => true
  | _ => false

/-- All calls but a firmware write whose index never reaches `len`. -/
def Ends : LockCall → Prop
  | .writeFirmware _ _ len => len.toNat < 2 ^ 32 - 1
  | _ => True

end LockCall

/-- Calls that return, one after another, each in its own surroundings and with the flash
operations that it issued. -/
inductive LockRun : Board → List (LockCall × List FlashOp) → Board → Prop where
  | done (b) : LockRun b [] b
  | call {b t u fates fuel c trace} : exec (c.run fuel) (b.under fates) = (some true, t) →
      LockRun t trace u → LockRun b ((c, t.eeprom.flash.history) :: trace) u

def Failed (ops : List FlashOp) : Prop := ∃ op ∈ ops, op.result ≠ .complete

instance decidableFailed (ops : List FlashOp) : Decidable (Failed ops) :=
  inferInstanceAs (Decidable (∃ op ∈ ops, _ ≠ _))

def leaks (step : LockCall × List FlashOp) : Bool := step.1.ofFirmware && decide (Failed step.2)

/-- From a loop of flash operations on: `ops` are issued, and the lock is given back unless
one of them failed. -/
def Released (b t : Board) : Prop :=
  ∃ ops, t.eeprom.flash.history = ops ++ b.eeprom.flash.history ∧
    t.lockCnt = if Failed ops then b.lockCnt else b.lockCnt - 1

variable {α : Type} {b t : Board} {offset len : UInt32} {data : ℕ → UInt8}
  {trace : List (LockCall × List FlashOp)}

section Config

def Balanced (x : BoardM α) : Prop := ∀ b, wp x (fun _ t => t.lockCnt = b.lockCnt) (fun _ => True) b

theorem balanced_write_all : Balanced configWriteAll := by
  intro b
  simp only [configWriteAll, utilsSysLockCnt, utilsSysUnlockCnt, wp_bind, wp_modify, wp_clear_flag,
    wp_pure]
  refine wp_mono (aside_lock_cnt.store_each _) (fun _ t ht => ?_) fun _ _ => trivial
  rw [ht]
  exact add_sub_cancel_right b.lockCnt 1

theorem balanced_write_field (addr : UInt16) (data : ℕ → UInt8) (size : UInt8) :
    Balanced (configWriteField addr data size) := by
  intro b
  simp only [configWriteField, utilsSysLockCnt, utilsSysUnlockCnt, wp_bind, wp_get, wp_modify,
    wp_clear_flag, wp_pure]
  refine wp_mono (aside_lock_cnt.store_each _) (fun _ t ht => ?_) fun _ _ => trivial
  rw [ht]
  exact add_sub_cancel_right b.lockCnt 1

theorem balanced_init : Balanced configInit := by
  intro b
  simp only [configInit, wp_bind, wp_clear_flag]
  refine wp_mono (preserves_eeprom (f := Board.lockCnt) (fun _ _ => rfl) _ _)
    (fun _ t ht => ?_) fun _ _ => trivial
  simp only [configReadAll, wp_bind]
  refine wp_mono (preserves_load (f := Board.lockCnt) (fun _ _ => rfl) t) ?_ fun _ _ => trivial
  intro isOk u hu
  split
  · exact hu.trans ht
  · rw [wp_bind, configLoadDefaultConfiguration, wp_modify, wp_bind]
    refine wp_mono (balanced_write_all _) (fun _ v hv => ?_) fun _ _ => trivial
    rw [wp_pure, hv]
    exact hu.trans ht

end Config

section Firmware

theorem wp_issue (record : FlashStatus → FlashOp) {op : BoardM FlashStatus} {next : BoardM α}
    {stop : FlashStatus → α} {R : α → Prop} (hr : ∀ res, (record res).result = res)
    (hop : wp op (fun res t => t.eeprom.flash.history = record res :: b.eeprom.flash.history)
      (fun _ => True) b)
    (hlock : Preserves Board.lockCnt op)
    (hnext : ∀ t, wp next (fun r u => R r → Released t u) (fun _ => True) t) :
    wp (op >>= fun res => if res = .complete then next else pure (stop res))
      (fun r t => R r → Released b t) (fun _ => True) b := by
  refine wp_seq (wp_and hop (hlock b)) ?_ fun _ _ => trivial
  rintro res t ⟨hh, hl⟩
  split_ifs with hres
  · refine wp_mono (hnext t) (fun r u hu hR => ?_) fun _ h => h
    obtain ⟨ops, hops, hcnt⟩ := hu hR
    refine ⟨ops ++ [record res], by rw [hops, hh, List.append_assoc]; rfl, ?_⟩
    have hfailed : Failed (ops ++ [record res]) ↔ Failed ops := by
      simp [Failed, or_and_right, exists_or, hr, hres]
    rw [hcnt, hl]
    simp only [hfailed]
  · refine fun _ => ⟨[record res], hh, ?_⟩
    have hfailed : Failed [record res] := ⟨record res, List.mem_singleton_self _, by rwa [hr]⟩
    rw [if_pos hfailed, hl]

theorem released_unlocked (b : Board) : Released b { b with lockCnt := b.lockCnt - 1 } :=
  ⟨[], rfl, (if_neg nofun).symm⟩

theorem preserves_lock_cnt (x : FlashM α) :
    Preserves Board.lockCnt (onPart eepromPart (onPart flashPart x)) :=
  preserves_eeprom (fun _ _ => rfl) _

theorem wp_write_loop (fuel : ℕ) (i : UInt32) (b : Board) :
    wp (writeFirmwareLoop offset data len fuel i) (fun r t => r.isSome = true → Released b t)
      (fun _ => True) b := by
  induction fuel generalizing i b with
  | zero => exact nofun
  | succ fuel ih =>
    rw [writeFirmwareLoop]
    split_ifs
    · exact wp_issue _ (fun _ => rfl)
        (wp_mono (wp_program_flash_recorded _ _) (fun _ _ h => h) fun _ _ => trivial)
        (preserves_lock_cnt _) (ih (i + 2))
    · exact fun _ => released_unlocked b

theorem wp_erase_loop (is : List ℕ) (b : Board) :
    wp (eraseFirmwareLoop is) (fun _ t => True → Released b t) (fun _ => True) b := by
  induction is generalizing b with
  | nil => exact fun _ => released_unlocked b
  | cons i is ih =>
    refine wp_issue (.erasePage (newFwAddr + UInt32.ofNat (i * 2048)).toNat)
      (fun _ => rfl) ?_ (preserves_lock_cnt _) ih
    simp only [eraseFlash, wp_onPart]
    exact wp_mono wp_flash_recorded (fun _ _ h => h) fun _ _ => trivial

theorem wp_loop_ends (hlen : len.toNat < 2 ^ 32 - 1) (fuel j : ℕ) (hj : j < 2 ^ 32)
    (hfuel : len.toNat ≤ j + 2 * fuel) (b : Board) :
    wp (writeFirmwareLoop offset data len (fuel + 1) (UInt32.ofNat j)) (fun r _ => r.isSome = true)
      (fun _ => True) b := by
  induction fuel generalizing j b with
  | zero =>
    rw [writeFirmwareLoop, if_neg (by rw [index_lt hj]; omega)]
    rfl
  | succ fuel ih =>
    rw [writeFirmwareLoop]
    split_ifs with hlt
    · rw [index_lt hj] at hlt
      refine wp_seq (wp_true _ _) (fun res t _ => ?_) fun _ _ => trivial
      split_ifs
      · rw [show (2 : UInt32) = UInt32.ofNat 2 from rfl, index_add]
        exact ih (j + 2) (by omega) (by omega) t
      · rfl
    · rfl

end Firmware

section Runs

theorem released_count (hb : b.eeprom.flash.history = [])
    (h : Released { b.cleared with lockCnt := b.lockCnt + 1 } t) :
    t.lockCnt = b.lockCnt + if Failed t.eeprom.flash.history then 1 else 0 := by
  obtain ⟨ops, hops, hcnt⟩ := h
  have hall : t.eeprom.flash.history = ops := by
    rw [hops]
    change ops ++ b.eeprom.flash.history = ops
    rw [hb, List.append_nil]
  rw [hall, hcnt]
  change (if Failed ops then b.lockCnt + 1 else b.lockCnt + 1 - 1) = _
  split_ifs
  · rfl
  · omega

theorem wp_lock_call (fuel : ℕ) (c : LockCall) (hb : b.eeprom.flash.history = []) :
    wp (c.run fuel)
      (fun r t => r = true →
        t.lockCnt = b.lockCnt + if leaks (c, t.eeprom.flash.history) then 1 else 0)
      (fun _ => True) b := by
  have hconfig {α : Type} {x : BoardM α} (hx : Balanced x) {n : Board → ℤ} (hn : ∀ t, n t = 0) :
      wp ((fun _ => true) <$> x) (fun r t => r = true → t.lockCnt = b.lockCnt + n t)
        (fun _ => True) b := by
    rw [wp_map]
    refine wp_mono (hx b) (fun _ t ht _ => ?_) fun _ h => h
    rw [ht, hn, add_zero]
  cases c with
  | init => exact hconfig balanced_init fun _ => rfl
  | writeAll => exact hconfig balanced_write_all fun _ => rfl
  | writeField addr data size => exact hconfig (balanced_write_field addr data size) fun _ => rfl
  | writeFirmware offset data len =>
    simp only [LockCall.run, fwUpdaterWriteFirmware, utilsSysLockCnt, wp_map, wp_bind, wp_modify,
      wp_clear_flag]
    refine wp_mono (wp_write_loop fuel 0 _) (fun r t ht hr => ?_) fun _ h => h
    rw [released_count hb (ht hr)]
    simp [leaks, LockCall.ofFirmware]
  | eraseNewFirmware =>
    simp only [LockCall.run, fwUpdaterEraseNewFirmware, utilsSysLockCnt, wp_map, wp_bind,
      wp_modify, wp_clear_flag]
    refine wp_mono (wp_erase_loop _ _) (fun r t ht _ => ?_) fun _ h => h
    rw [released_count hb (ht trivial)]
    simp [leaks, LockCall.ofFirmware]

theorem wp_lock_call_ends {c : LockCall} (hc : c.Ends) :
    ∃ fuel, ∀ b, wp (c.run fuel) (fun r _ => r = true) (fun _ => True) b := by
  have hconfig {α : Type} (x : BoardM α) (b : Board) :
      wp ((fun _ => true) <$> x) (fun r _ => r = true) (fun _ => True) b := by
    rw [wp_map]
    exact wp_mono (wp_true x b) (fun _ _ _ => rfl) fun _ _ => trivial
  cases c with
  | writeFirmware offset data len =>
    refine ⟨len.toNat + 1, fun b => ?_⟩
    simp only [LockCall.run, fwUpdaterWriteFirmware, utilsSysLockCnt, wp_map, wp_bind, wp_modify,
      wp_clear_flag]
    exact wp_loop_ends hc len.toNat 0 (by omega) (by omega) _
  | _ => exact ⟨0, hconfig _⟩

theorem lock_count_run (h : LockRun b trace t) : t.lockCnt = b.lockCnt + trace.countP leaks := by
  induction h with
  | done b => simp
  | call he _ ih =>
    rename_i b t u fates fuel c trace _
    have hcall := wp_lock_call (b := b.under fates) fuel c rfl
    rw [wp, he] at hcall
    have ht := hcall rfl
    rw [ih, ht, List.countP_cons]
    change b.lockCnt + _ + _ = _
    split_ifs
    · omega
    · omega

/-- Every call returns unless the power is cut. A sequence of calls leaves the count as it
was if and only if no flash operation of a firmware write or erase in it failed. -/
theorem lock_count_restored_iff (b t : Board) (trace : List (LockCall × List FlashOp)) :
    (∀ c : LockCall, c.Ends → ∃ fuel, ∀ fates : Fates,
      (exec (c.run fuel) (b.under fates)).1 ≠ some false) ∧
    (LockRun b trace t → (t.lockCnt = b.lockCnt ↔
      ∀ c ops, (c, ops) ∈ trace → c.ofFirmware = true → ¬ Failed ops)) := by
  constructor
  · intro c hc
    obtain ⟨fuel, hfuel⟩ := wp_lock_call_ends hc
    refine ⟨fuel, fun fates he => ?_⟩
    have hrun := hfuel (b.under fates)
    rcases hr : exec (c.run fuel) (b.under fates) with ⟨r, t⟩
    rw [hr] at he
    change r = some false at he
    rw [wp, hr, he] at hrun
    cases hrun
  · intro h
    have hcount := lock_count_run h
    have hzero : t.lockCnt = b.lockCnt ↔ trace.countP leaks = 0 := by omega
    rw [hzero, List.countP_eq_zero, Prod.forall]
    simp [leaks]

/-- A half-word written under steady power. -/
theorem lock_count_restored_after_write :
    ∃ (t : Board) (ops : List FlashOp),
      LockRun blankBoard [(.writeFirmware 0 (fun _ => 1) 2, ops)] t ∧ ops.length = 1 ∧
        t.lockCnt = blankBoard.lockCnt := by
  let c : LockCall := .writeFirmware 0 (fun _ => 1) 2
  let t := (exec (c.run 2) (blankBoard.under steady)).2
  have hrun : LockRun blankBoard [(c, t.eeprom.flash.history)] t :=
    @LockRun.call _ _ _ steady 2 _ _ rfl (.done t)
  refine ⟨t, t.eeprom.flash.history, hrun, rfl, ?_⟩
  apply ((lock_count_restored_iff _ _ _).2 hrun).mpr
  intro c' ops hmem _
  obtain ⟨-, rfl⟩ := Prod.mk.inj (List.mem_singleton.mp hmem)
  decide

/-- An erase whose first page fails returns with the system locked. -/
theorem failed_erase_stays_locked :
    ¬ ∀ (b t : Board) (c : LockCall) (ops : List FlashOp), LockRun b [(c, ops)] t →
      t.lockCnt = b.lockCnt := by
  intro h
  let failing : Fates := fun _ _ => .fails .timeout
  let t := (exec (LockCall.eraseNewFirmware.run 0) (blankBoard.under failing)).2
  have hrun : LockRun blankBoard [(.eraseNewFirmware, t.eeprom.flash.history)] t :=
    @LockRun.call _ _ _ failing 0 _ _ rfl (.done t)
  exact absurd (h _ _ _ _ hrun) (by decide)

end Runs

end Battman
