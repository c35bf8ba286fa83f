import Battman.ConfigPowerCut
import Battman.EepromFrames
import Battman.FirmwareUpload

/-! The two users of the flash beside the program itself: each changes nothing outside its own
area, whatever becomes of its operations, so calls of both may come in any order. -/
namespace Battman
open CutLogic

def processEraseNewFw : BoardM (List UInt8) := do
  let res ← fwUpdaterEraseNewFirmware
  pure [0x04, if res = .complete then 1 else 0]

def pagesArea : Set ℕ := { a | ∃ p, InPage p a }

def Flash.outside (S : Set ℕ) (f : Flash) : (Sᶜ : Set ℕ) → UInt16 := Set.domRestrict Sᶜ f.mem

def Board.outside (S : Set ℕ) (b : Board) : (Sᶜ : Set ℕ) → UInt16 := b.eeprom.flash.outside S

variable {S : Set ℕ} {f : Flash} {b t : Board} {data : ℕ → UInt8} {len : UInt32}

section Operations

theorem wp_flash_mem {record : Memory → FlashStatus → FlashOp} {effect : Memory → Option Memory} :
    wp (flashOperation record effect)
      (fun _ t => t.mem = f.mem ∨ effect f.mem = some t.mem) (fun t => t.mem = f.mem) f := by
  simp only [flashOperation, wp_bind, wp_get]
  split
  · split
    · split
      · next he => exact Or.inr he
      · exact Or.inl rfl
    · exact Or.inl rfl
    · exact rfl
  · exact Or.inl rfl

theorem outside_congr {f g : Flash} (h : ∀ a, a ∉ S → f.mem a = g.mem a) :
    f.outside S = g.outside S := funext fun a => h a a.2

theorem preserves_flash_program {address : ℕ} (h : address ∈ S) (value : UInt16) :
    Preserves (Flash.outside S) (flashProgramHalfWord address value) := by
  intro f
  refine wp_mono wp_flash_mem (fun _ t ht => outside_congr fun a ha => ?_)
    fun t ht => outside_congr fun _ _ => congrFun ht _
  rcases ht with ht | ht
  · exact congrFun ht a
  · have hne : a ≠ address := fun he => ha (he ▸ h)
    rw [programHalfWord] at ht
    split at ht
    · rw [← Option.some.inj ht, Function.update_of_ne hne]
    · cases ht

theorem preserves_flash_erase {page : ℕ} (h : Set.Ico page (page + pageSize) ⊆ S) :
    Preserves (Flash.outside S) (flashErasePage page) := by
  intro f
  refine wp_mono wp_flash_mem (fun _ t ht => outside_congr fun a ha => ?_)
    fun t ht => outside_congr fun _ _ => congrFun ht _
  rcases ht with ht | ht
  · exact congrFun ht a
  · rw [← Option.some.inj ht, erasePage, if_neg]
    exact fun hin => ha (h hin)

end Operations

section Configuration

theorem pages_spared : Spared fun e => e.flash.outside pagesArea where
  programs p _ d ha :=
    ((preserves_flash_program (S := pagesArea) ⟨p, ha⟩ d).onPart (p := flashPart)
      (g := fun e : Eeprom => e.flash.outside pagesArea) fun _ _ h => h).map _
  dataVar _ _ := rfl

theorem preserves_erase (p : Page) :
    Preserves (fun e : Eeprom => e.flash.outside pagesArea) (erase p) :=
  ((preserves_flash_erase (S := pagesArea) fun _ ha => ⟨p, ha⟩).onPart (p := flashPart)
    (g := fun e : Eeprom => e.flash.outside pagesArea) fun _ _ h => h).map _

theorem pages_apart : Apart (Board.outside pagesArea) where
  write v d := (preserves_write_variable pages_spared preserves_erase v d).onPart
    (p := eepromPart) fun _ _ h => h
  cleared _ := rfl
  ledger _ _ := rfl
  recovery := (preserves_init pages_spared preserves_erase).onPart (p := eepromPart)
    fun _ _ h => h
  powerUp _ := rfl
  config _ _ := rfl
  lockCnt _ _ := rfl

/-- A call of config.c keeps to the pages of the emulated EEPROM. -/
theorem preserves_call (c : Call) : Preserves (Board.outside pagesArea) c.run := by
  cases c with
  | init => exact pages_apart.init
  | writeField addr data size =>
    apply Preserves.map
    apply preserves_get
    intro b
    apply Preserves.bind
    · exact preserves_modify fun _ => rfl
    · intro _
      exact pages_apart.store pages_apart.lockCnt fun isOk =>
        (isOk, overlay data ((clampValue b.config addr.toNat data).getD []))
  | writeAll => exact pages_apart.write_all pages_apart.lockCnt

end Configuration

section Firmware

/-- A PACKET_WRITE_NEW_FW has an offset, which is even, and its data fits the staging area from
there on. -/
structure FitsStaging (data : ℕ → UInt8) (len : UInt32) : Prop where
  long : 4 ≤ len.toNat
  even : (parseWord data).toNat % 2 = 0
  within : (parseWord data).toNat + (len.toNat - 4) ≤ stagingSize

theorem data_length (h : 4 ≤ len.toNat) : (len - 4).toNat = len.toNat - 4 := by
  have hlen := len.toNat_lt
  rw [UInt32.toNat_sub, show (4 : UInt32).toNat = 4 from rfl]
  omega

theorem FitsStaging.staged (h : FitsStaging data len) {i : ℕ} (hi : i < len.toNat - 4) :
    stagingAddress data i ∈ stagingArea := by
  have hbase : newFwAddr.toNat = 134316032 := rfl
  have hsize : stagingSize = 98304 := rfl
  have hwithin := h.within
  have haddr := staging_address_toNat data (i := i) (by omega)
  constructor
  · omega
  · omega

def Board.beside (b : Board) :
    ((stagingAreaᶜ : Set ℕ) → UInt16) × (ℕ → UInt8) × (UInt16 → Ledger) :=
  (b.outside stagingArea, b.config, b.ledger)

theorem preserves_beside {x : FlashM FlashStatus} (h : Preserves (Flash.outside stagingArea) x) :
    Preserves Board.beside (onPart eepromPart (onPart flashPart x)) := by
  have he : Preserves (fun e : Eeprom => e.flash.outside stagingArea) (onPart flashPart x) :=
    h.onPart (p := flashPart) fun _ _ h => h
  exact he.onPart (p := eepromPart) fun _ _ h => Prod.ext h rfl

theorem preserves_write_loop (h : FitsStaging data len) (fuel i : ℕ) (hi : i ≤ len.toNat) :
    Preserves Board.beside
      (writeFirmwareLoop (parseWord data) (fun i => data (4 + i)) (len - 4) fuel
        (UInt32.ofNat i)) := by
  have hlen := len.toNat_lt
  have hdata := data_length h.long
  induction fuel generalizing i with
  | zero => exact preserves_pure _
  | succ fuel ih =>
    rw [writeFirmwareLoop]
    by_cases hlt : i < len.toNat - 4
    · rw [if_pos ((index_lt (by omega)).mpr (by omega))]
      apply (preserves_beside (preserves_flash_program (h.staged hlt) _)).bind
      intro res
      by_cases hres : res = .complete
      · rw [if_pos hres, show (2 : UInt32) = UInt32.ofNat 2 from rfl, index_add]
        exact ih (i + 2) (by omega)
      · rw [if_neg hres]
        exact preserves_pure _
    · rw [if_neg (by rw [index_lt (by omega)]; omega)]
      exact (preserves_unlock fun _ _ => rfl).bind fun _ => preserves_pure _

theorem preserves_write_new_fw (h : FitsStaging data len) (fuel : ℕ) :
    Preserves Board.beside (processWriteNewFw fuel data len) :=
  ((preserves_clear_flag fun _ => rfl).bind fun _ => (preserves_lock fun _ _ => rfl).bind fun _ =>
    preserves_write_loop h fuel 0 (Nat.zero_le _)).bind fun _ => preserves_pure _

theorem staging_page {i : ℕ} (hi : i < fwNumPages) :
    Set.Ico (newFwAddr + UInt32.ofNat (i * 2048)).toNat
      ((newFwAddr + UInt32.ofNat (i * 2048)).toNat + pageSize) ⊆ stagingArea := by
  have hsize : stagingSize = 98304 := rfl
  have hnum : fwNumPages = 48 := rfl
  have hpage : pageSize = 2048 := rfl
  rw [page_address hi, hpage]
  rintro a ⟨hlow, hhigh⟩
  exact ⟨by omega, by omega⟩

theorem preserves_erase_loop (is : List ℕ) (his : ∀ i ∈ is, i < fwNumPages) :
    Preserves Board.beside (eraseFirmwareLoop is) := by
  induction is with
  | nil => exact (preserves_unlock fun _ _ => rfl).bind fun _ => preserves_pure _
  | cons i is ih =>
    apply (preserves_beside (preserves_flash_erase
      (staging_page (his i List.mem_cons_self)))).bind
    intro res
    by_cases hres : res = .complete
    · rw [if_pos hres]
      exact ih fun j hj => his j (List.mem_cons_of_mem i hj)
    · rw [if_neg hres]
      exact preserves_pure _

theorem preserves_erase_new_fw : Preserves Board.beside processEraseNewFw :=
  ((preserves_clear_flag fun _ => rfl).bind fun _ => (preserves_lock fun _ _ => rfl).bind fun _ =>
    preserves_erase_loop _ fun _ hi => List.mem_range.mp hi).bind fun _ => preserves_pure _

end Firmware

end Battman
