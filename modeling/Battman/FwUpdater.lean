import Battman.ConfigMirror

/-! fw_updater.c: staging a new firmware image, and which payloads keep to the staging
area. -/
namespace Battman
open CutLogic

def newFwAddr : UInt32 := 0x08018000
def fwNumPages : ℕ := 48

def stagingSize : ℕ := fwNumPages * pageSize

def programFlash (address : UInt32) (data : UInt16) : BoardM FlashStatus :=
  onPart eepromPart (onPart flashPart (flashProgramHalfWord address.toNat data))

/-- `for (uint32_t i = ..; i < len; i += 2)` of fw_updater_write_firmware; `none` when it has
not ended after `fuel` rounds, as for `len = 2^32 - 1`, where `i` never reaches `len`. -/
def writeFirmwareLoop (offset : UInt32) (data : ℕ → UInt8) (len : UInt32) :
    ℕ → UInt32 → BoardM (Option FlashStatus)
  | 0, _ => pure none
  | fuel + 1, i =>
    if i < len then do
      let res ← programFlash (newFwAddr + offset + i) (word (data (i + 1).toNat) (data i.toNat))
      if res = .complete then writeFirmwareLoop offset data len fuel (i + 2)
      else pure (some res)
    else do
      utilsSysUnlockCnt
      pure (some .complete)

def fwUpdaterWriteFirmware (fuel : ℕ) (offset : UInt32) (data : ℕ → UInt8) (len : UInt32) :
    BoardM (Option FlashStatus) := do
  clearFlag
  utilsSysLockCnt
  writeFirmwareLoop offset data len fuel 0

def parseWord (data : ℕ → UInt8) : UInt32 :=
  (data 0).toUInt32 <<< 24 ||| (data 1).toUInt32 <<< 16 ||| (data 2).toUInt32 <<< 8 |||
    (data 3).toUInt32

/-- The branch PACKET_WRITE_NEW_FW of process_packet: `data` points behind the packet id,
`len` counts the bytes there. The result is the reply's payload. -/
def processWriteNewFw (fuel : ℕ) (data : ℕ → UInt8) (len : UInt32) :
    BoardM (Option (List UInt8)) := do
  let res ← fwUpdaterWriteFirmware fuel (parseWord data) (fun i => data (4 + i)) (len - 4)
  pure (res.map fun res => [0x05, if res = .complete then 1 else 0])

def stagingAddress (data : ℕ → UInt8) (i : ℕ) : ℕ :=
  (newFwAddr + parseWord data + UInt32.ofNat i).toNat

/-- The operation programs a half-word of the staging area with the two bytes that the
payload, which has `n` bytes behind the offset, carries for it. -/
def Staged (data : ℕ → UInt8) (n : ℕ) (op : FlashOp) : Prop :=
  ∃ i was result, i + 1 < n ∧
    op = .programHalfWord (stagingAddress data i) was
      (word (data (4 + (i + 1))) (data (4 + i))) result ∧
    newFwAddr.toNat ≤ stagingAddress data i ∧
    stagingAddress data i + 2 ≤ newFwAddr.toNat + stagingSize

/-- Whatever the flash does and however long the loop is watched, every operation is staged
and there are at most as many as the payload has half-words, the last one perhaps half. -/
def StagingSafe (data : ℕ → UInt8) (len : UInt32) : Prop :=
  ∀ (fuel : ℕ) (b : Board), b.eeprom.flash.history = [] →
    (∀ op ∈ (exec (processWriteNewFw fuel data len) b).2.eeprom.flash.history,
      Staged data (len.toNat - 4) op) ∧
    (exec (processWriteNewFw fuel data len) b).2.eeprom.flash.history.length ≤
      (len.toNat - 4 + 1) / 2

variable {data : ℕ → UInt8} {len : UInt32} {b : Board} {n : ℕ}

theorem wp_program_flash_recorded (address : UInt32) (value : UInt16) :
    wp (programFlash address value)
      (fun res t => t.eeprom.flash.history =
        .programHalfWord address.toNat (b.eeprom.flash.mem address.toNat) value res ::
          b.eeprom.flash.history)
      (fun t => t.eeprom.flash.history = b.eeprom.flash.history) b := by
  simp only [programFlash, wp_onPart]
  exact wp_flash_recorded

theorem index_toNat {j : ℕ} (hj : j < 2 ^ 32) : (UInt32.ofNat j).toNat = j :=
  UInt32.toNat_ofNat_of_lt' hj

theorem index_lt {j : ℕ} (hj : j < 2 ^ 32) : UInt32.ofNat j < len ↔ j < len.toNat := by
  rw [UInt32.lt_iff_toNat_lt, index_toNat hj]

theorem index_add (j k : ℕ) : UInt32.ofNat j + UInt32.ofNat k = UInt32.ofNat (j + k) :=
  (UInt32.ofNat_add j k).symm

theorem staging_address_inj {i j : ℕ} (hi : i < 2 ^ 32) (hj : j < 2 ^ 32)
    (h : stagingAddress data i = stagingAddress data j) : i = j := by
  have := UInt32.toNat_inj.mp h
  rw [← index_toNat hi, ← index_toNat hj, add_left_cancel this]

theorem staging_address_toNat (data : ℕ → UInt8) {i : ℕ} (hi : i < 2 ^ 32) :
    stagingAddress data i = (newFwAddr.toNat + (parseWord data).toNat + i) % 2 ^ 32 := by
  rw [stagingAddress, UInt32.toNat_add, UInt32.toNat_add, index_toNat hi]
  omega

section Safe

theorem wp_loop_staged (hlen : len.toNat = n) (hn : n % 2 = 0)
    (hfit : n = 0 ∨ (parseWord data).toNat + n ≤ stagingSize) (fuel j : ℕ) (hj : j % 2 = 0)
    (hjn : j ≤ n) (hb : ∀ op ∈ b.eeprom.flash.history, Staged data n op) :
    wp (writeFirmwareLoop (parseWord data) (fun i => data (4 + i)) len fuel (UInt32.ofNat j))
      (fun _ t => (∀ op ∈ t.eeprom.flash.history, Staged data n op) ∧
        t.eeprom.flash.history.length ≤ b.eeprom.flash.history.length + (n - j) / 2)
      (fun t => (∀ op ∈ t.eeprom.flash.history, Staged data n op) ∧
        t.eeprom.flash.history.length ≤ b.eeprom.flash.history.length + (n - j) / 2) b := by
  have hsize : stagingSize = 98304 := rfl
  have hbase : newFwAddr.toNat = 134316032 := rfl
  have hjlt : j < 2 ^ 32 := by omega
  induction fuel generalizing j b with
  | zero => exact ⟨hb, Nat.le_add_right ..⟩
  | succ fuel ih =>
    rw [writeFirmwareLoop]
    by_cases hlt : j < n
    · have haddr := staging_address_toNat data hjlt
      rw [if_pos ((index_lt hjlt).mpr (by omega)), show (1 : UInt32) = UInt32.ofNat 1 from rfl,
        show (2 : UInt32) = UInt32.ofNat 2 from rfl, index_add, index_add,
        index_toNat hjlt, index_toNat (by omega)]
      refine wp_seq (wp_program_flash_recorded _ _) ?_ ?_
      · intro res t ht
        have hstaged : ∀ op ∈ t.eeprom.flash.history, Staged data n op := by
          intro op hop
          rw [ht] at hop
          rcases List.mem_cons.mp hop with rfl | hop
          · exact ⟨j, _, res, by omega, rfl, by omega, by omega⟩
          · exact hb op hop
        have hlength : t.eeprom.flash.history.length = b.eeprom.flash.history.length + 1 := by
          rw [ht, List.length_cons]
        split
        · refine wp_mono (ih (j + 2) (by omega) (by omega) hstaged (by omega)) ?_ ?_
          · exact fun _ u hu => ⟨hu.1, by omega⟩
          · exact fun u hu => ⟨hu.1, by omega⟩
        · exact ⟨hstaged, by omega⟩
      · intro t ht
        rw [ht]
        exact ⟨hb, by omega⟩
    · rw [if_neg (by rw [index_lt hjlt]; omega)]
      exact ⟨hb, Nat.le_add_right ..⟩

end Safe

section Unsafe

theorem wp_program_flash_erased {address : UInt32} (hs : Serviceable steady b.eeprom.flash)
    (hm : b.eeprom.flash.mem address.toNat = erased) (value : UInt16) :
    wp (programFlash address value)
      (fun res t => res = .complete ∧ Serviceable steady t.eeprom.flash ∧
        t.eeprom.flash.mem = Function.update b.eeprom.flash.mem address.toNat value ∧
        ∃ was r, t.eeprom.flash.history =
          .programHalfWord address.toNat was value r :: b.eeprom.flash.history)
      (fun t => steady t.eeprom.flash.mem t.eeprom.flash.history = .cut) b := by
  have hprogram : wp (programFlash address value)
      (fun res t => res = .complete ∧ Serviceable steady t.eeprom.flash ∧
        t.eeprom.flash.mem = Function.update b.eeprom.flash.mem address.toNat value)
      (fun t => steady t.eeprom.flash.mem t.eeprom.flash.history = .cut) b := by
    simp only [programFlash, wp_onPart]
    exact wp_mono (wp_flash_program hs (Or.inl hm)) (fun _ _ h => ⟨h.1, h.2.2, h.2.1⟩)
      fun _ h => h.1
  refine wp_mono (wp_and hprogram (wp_program_flash_recorded address value)) ?_ fun _ h => h.1
  exact fun res _ h => ⟨h.1.1, h.1.2.1, h.1.2.2, _, res, h.2⟩

theorem wp_loop_reaches (data : ℕ → UInt8) (len : UInt32) (k j : ℕ) (hlt : j + 2 * k < len.toNat)
    (hs : Serviceable steady b.eeprom.flash)
    (hm : ∀ i, j ≤ i → i < len.toNat → b.eeprom.flash.mem (stagingAddress data i) = erased) :
    wp (writeFirmwareLoop (parseWord data) (fun i => data (4 + i)) len (k + 1)
        (UInt32.ofNat j))
      (fun _ t => ∃ was value r,
        .programHalfWord (stagingAddress data (j + 2 * k)) was value r ∈ t.eeprom.flash.history)
      (fun t => steady t.eeprom.flash.mem t.eeprom.flash.history = .cut) b := by
  have hlen := len.toNat_lt
  induction k generalizing j b with
  | zero =>
    rw [writeFirmwareLoop, if_pos ((index_lt (by omega)).mpr (by omega))]
    refine wp_seq (wp_program_flash_erased hs (hm j (le_refl j) (by omega)) _) ?_ fun _ h => h
    rintro res t ⟨rfl, -, -, was, r, ht⟩
    rw [if_pos rfl, writeFirmwareLoop, wp_pure, ht]
    exact ⟨was, _, r, List.mem_cons_self⟩
  | succ k ih =>
    rw [writeFirmwareLoop, if_pos ((index_lt (by omega)).mpr (by omega)),
      show (2 : UInt32) = UInt32.ofNat 2 from rfl, index_add]
    refine wp_seq (wp_program_flash_erased hs (hm j (le_refl j) (by omega)) _) ?_ fun _ h => h
    rintro res t ⟨rfl, hs', hmem, -⟩
    rw [if_pos rfl, show j + 2 * (k + 1) = j + 2 + 2 * k by omega]
    refine ih (j + 2) (by omega) hs' fun i hi hin => ?_
    have hne : stagingAddress data i ≠ stagingAddress data j := fun he => by
      have := staging_address_inj (by omega) (by omega) he
      omega
    rw [hmem]
    exact (Function.update_of_ne hne ..).trans (hm i (by omega) hin)

theorem staged_of_safe (h : StagingSafe data len) {k : ℕ} (hk : 2 * k < (len - 4).toNat) :
    2 * k + 1 < len.toNat - 4 ∧ newFwAddr.toNat ≤ stagingAddress data (2 * k) ∧
      stagingAddress data (2 * k) + 2 ≤ newFwAddr.toNat + stagingSize := by
  have hlen := (len - 4).toNat_lt
  have hrun := wp_loop_reaches (b := { blankBoard.cleared with lockCnt := 1 }) data (len - 4)
    k 0 (by omega) (serviceable_start rfl rfl steady_sound rfl)
    fun _ _ _ => rfl
  have hall : wp (processWriteNewFw (k + 1) data len)
      (fun _ t => ∃ was value r, .programHalfWord (stagingAddress data (2 * k)) was value r ∈
        t.eeprom.flash.history)
      (fun t => steady t.eeprom.flash.mem t.eeprom.flash.history = .cut) blankBoard := by
    simp only [processWriteNewFw, fwUpdaterWriteFirmware, utilsSysLockCnt, wp_bind, wp_modify,
      wp_clear_flag, wp_pure]
    rw [Nat.zero_add] at hrun
    exact hrun
  obtain ⟨reply, t, he, was, value, r, hmem⟩ := steady_returns hall
  have hstaged := (h (k + 1) blankBoard rfl).1
  rw [he] at hstaged
  obtain ⟨i, was', r', hi, heq, hlow, hhigh⟩ := hstaged _ hmem
  have hlt := len.toNat_lt
  have hik : 2 * k = i :=
    staging_address_inj (by omega) (by omega) (FlashOp.programHalfWord.inj heq).1
  subst hik
  exact ⟨hi, hlow, hhigh⟩

end Unsafe

/-- A payload keeps to the staging area exactly when it has an offset, an even number of
data bytes, and these fit the area from the offset on. -/
theorem staging_safe_iff (data : ℕ → UInt8) (len : UInt32) :
    StagingSafe data len ↔
      4 ≤ len ∧ len.toNat % 2 = 0 ∧
        (len = 4 ∨ (parseWord data).toNat + (len.toNat - 4) ≤ stagingSize) := by
  have hlen := len.toNat_lt
  have hsize : stagingSize = 98304 := rfl
  have hbase : newFwAddr.toNat = 134316032 := rfl
  have hfour : (4 : UInt32).toNat = 4 := rfl
  have hsub : (len - 4).toNat =
      if 4 ≤ len.toNat then len.toNat - 4 else 2 ^ 32 + len.toNat - 4 := by
    rw [UInt32.toNat_sub, hfour]
    split_ifs <;> omega
  rw [UInt32.le_iff_toNat_le, hfour, ← UInt32.toNat_inj, hfour]
  constructor
  · intro h
    have hoff := (parseWord data).toNat_lt
    have hat (k : ℕ) (hk : 2 * k < (len - 4).toNat) := staged_of_safe h hk
    have haddr (k : ℕ) (hk : 2 * k < 2 ^ 32) := staging_address_toNat data hk
    rcases Nat.lt_or_ge len.toNat 4 with hshort | hlong
    · rw [if_neg (by omega)] at hsub
      have := (hat 0 (by omega)).1
      omega
    · rw [if_pos hlong] at hsub
      rcases Nat.eq_or_lt_of_le hlong with heq | hlt
      · omega
      · have h₀ := hat 0 (by omega)
        have a₀ := haddr 0 (by omega)
        -- the first half-word is in the area, so no address up to its end wraps
        have hfirst : (parseWord data).toNat + 2 ≤ stagingSize := by omega
        rcases Nat.lt_or_ge 98306 (len.toNat - 4) with hbig | hsmall
        · have h₁ := hat 49152 (by omega)
          have a₁ := haddr 49152 (by omega)
          omega
        · have h₁ := hat ((len.toNat - 5) / 2) (by omega)
          have a₁ := haddr ((len.toNat - 5) / 2) (by omega)
          omega
  · rintro ⟨hlong, heven, hfit⟩ fuel b hb
    rw [if_pos hlong] at hsub
    have hrun : wp (processWriteNewFw fuel data len)
        (fun _ t => (∀ op ∈ t.eeprom.flash.history, Staged data (len.toNat - 4) op) ∧
          t.eeprom.flash.history.length ≤ (len.toNat - 4 + 1) / 2)
        (fun t => (∀ op ∈ t.eeprom.flash.history, Staged data (len.toNat - 4) op) ∧
          t.eeprom.flash.history.length ≤ (len.toNat - 4 + 1) / 2) b := by
      simp only [processWriteNewFw, fwUpdaterWriteFirmware, utilsSysLockCnt, wp_bind, wp_modify,
        wp_clear_flag, wp_pure]
      have hnil : ∀ op ∈ b.eeprom.flash.history, Staged data (len.toNat - 4) op := by
        rw [hb]
        exact fun _ hop => absurd hop List.not_mem_nil
      have hloop := wp_loop_staged (b := { b.cleared with lockCnt := b.lockCnt + 1 }) hsub
        (by omega) (by omega) fuel 0 rfl (Nat.zero_le _) hnil
      have hzero : b.cleared.eeprom.flash.history.length = 0 := congrArg List.length hb
      refine wp_mono hloop (fun _ t ht => ⟨ht.1, ?_⟩) fun t ht => ⟨ht.1, ?_⟩
      · have := ht.2
        simp only [hzero] at this
        omega
      · have := ht.2
        simp only [hzero] at this
        omega
    unfold wp at hrun
    rcases he : exec (processWriteNewFw fuel data len) b with ⟨_ | reply, t⟩ <;>
      rw [he] at hrun <;> exact hrun

/-- One data byte at offset 0: the byte behind the payload is programmed with it. -/
theorem odd_payload_not_staged : ¬ StagingSafe (fun _ => 0) 5 := by
  intro h
  have := (staged_of_safe h (k := 0) (by decide)).1
  exact absurd this (by decide)

end Battman
