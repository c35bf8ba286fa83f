import Battman.LockBalance
import Battman.Stores

/-! A firmware image written to the staging area in chunks, in any order. -/
namespace Battman
open CutLogic Overlay

def byteAt (mem : Memory) (a : ℕ) : UInt8 :=
  if a % 2 = 0 then loByte (mem a) else hiByte (mem (a - 1))

structure Chunk where
  offset : ℕ
  length : ℕ

def Chunk.Covers (c : Chunk) (k : ℕ) : Prop := c.offset ≤ k ∧ k < c.offset + c.length

/-- The chunks have even offsets and lengths, and every byte of the image is in one of them. -/
structure Partition (n : ℕ) (chunks : List Chunk) : Prop where
  even : ∀ c ∈ chunks, c.offset % 2 = 0 ∧ c.length % 2 = 0
  within : ∀ c ∈ chunks, c.offset + c.length ≤ n
  covers : ∀ k < n, ∃ c ∈ chunks, c.Covers k
  apart : chunks.Pairwise fun c d => ∀ k, ¬ (c.Covers k ∧ d.Covers k)

/-- fw_updater_write_firmware for one chunk; its loop has more rounds than it needs. -/
def sendChunk (image : ℕ → UInt8) (c : Chunk) : BoardM (Option FlashStatus) :=
  fwUpdaterWriteFirmware (c.length + 1) (UInt32.ofNat c.offset) (fun i => image (c.offset + i))
    (UInt32.ofNat c.length)

def Board.upload (image : ℕ → UInt8) : List Chunk → Board →
    List (Option (Option FlashStatus)) × Board
  | [], b => ([], b)
  | c :: cs, b =>
    let (result, b) := exec (sendChunk image c) (b.under steady)
    let (results, b) := b.upload image cs
    (result :: results, b)

/-- A failed operation does not report FLASH_COMPLETE. -/
def Fates.Honest (fates : Fates) : Prop := ∀ mem history, fates mem history ≠ .fails .complete

def stagingArea : Set ℕ := Set.Ico newFwAddr.toNat (newFwAddr.toNat + stagingSize)

def halfWords (i j : ℕ) : Set ℕ :=
  { a | ∃ k, i ≤ k ∧ k < j ∧ k % 2 = 0 ∧ a = newFwAddr.toNat + k }

def imageWord (image : ℕ → UInt8) (a : ℕ) : UInt16 :=
  word (image (a - newFwAddr.toNat + 1)) (image (a - newFwAddr.toNat))

variable {b t : Board} {fates : Fates} {f : Flash} {image : ℕ → UInt8} {i j n : ℕ}

section Erasing

theorem overlaid_erase_page (page : ℕ) (mem : Memory) :
    Overlaid (Set.Ico page (page + pageSize)) (fun _ => erased) mem (erasePage page mem) where
  inside := fun _ ha => if_pos ha
  outside := fun _ ha => if_neg ha

theorem wp_erase_succeeds (hf : f.fates.Honest) (page : ℕ) :
    wp (flashErasePage page)
      (fun st t => st = .complete → t.mem = erasePage page f.mem ∧ t.fates = f.fates)
      (fun _ => True) f := by
  simp only [flashErasePage, flashOperation, wp_bind, wp_get]
  by_cases hst : f.status = .complete
  · rw [if_pos hst]
    cases hc : f.fates f.mem f.history with
    | completes => exact fun _ => ⟨rfl, rfl⟩
    | fails status =>
      intro he
      exact absurd (he ▸ hc) (hf f.mem f.history)
    | cut => trivial
  · rw [if_neg hst]
    exact fun he => absurd he hst

theorem page_address (hi : i < fwNumPages) :
    (newFwAddr + UInt32.ofNat (i * 2048)).toNat = newFwAddr.toNat + i * pageSize := by
  have hbase : newFwAddr.toNat = 134316032 := rfl
  have hsize : pageSize = 2048 := rfl
  have hnum : fwNumPages = 48 := rfl
  rw [UInt32.toNat_add, index_toNat (by omega), hsize]
  omega

theorem pages_cons (i k : ℕ) :
    Set.Ico (newFwAddr.toNat + i * pageSize) (newFwAddr.toNat + (i + (k + 1)) * pageSize) =
      Set.Ico (newFwAddr.toNat + i * pageSize) (newFwAddr.toNat + i * pageSize + pageSize) ∪
        Set.Ico (newFwAddr.toNat + (i + 1) * pageSize)
          (newFwAddr.toNat + (i + 1 + k) * pageSize) := by
  have hnext : newFwAddr.toNat + (i + 1) * pageSize =
      newFwAddr.toNat + i * pageSize + pageSize := by ring
  rw [hnext, Set.Ico_union_Ico_eq_Ico (by omega) (by nlinarith)]
  ring_nf

theorem wp_erase_pages (k : ℕ) (hk : i + k ≤ fwNumPages)
    (hf : b.eeprom.flash.fates.Honest) :
    wp (eraseFirmwareLoop (List.range' i k))
      (fun st t => st = .complete →
        Overlaid (Set.Ico (newFwAddr.toNat + i * pageSize) (newFwAddr.toNat + (i + k) * pageSize))
          (fun _ => erased) b.eeprom.flash.mem t.eeprom.flash.mem)
      (fun _ => True) b := by
  induction k generalizing i b with
  | zero =>
    rw [List.range'_zero, Nat.add_zero, Set.Ico_self]
    exact fun _ => overlaid_nothing _ _
  | succ k ih =>
    rw [List.range'_succ, eraseFirmwareLoop]
    have hpage : wp (eraseFlash (newFwAddr + UInt32.ofNat (i * 2048)))
        (fun st t => st = .complete →
          t.eeprom.flash.mem =
            erasePage (newFwAddr.toNat + i * pageSize) b.eeprom.flash.mem ∧
          t.eeprom.flash.fates = b.eeprom.flash.fates)
        (fun _ => True) b := by
      simp only [eraseFlash, wp_onPart]
      rw [page_address (by omega)]
      exact wp_erase_succeeds hf _
    refine wp_seq hpage ?_ fun _ _ => trivial
    intro st t ht
    by_cases hst : st = .complete
    · obtain ⟨hmem, hfates⟩ := ht hst
      rw [if_pos hst]
      refine wp_mono (ih (i := i + 1) (by omega) (hfates ▸ hf)) ?_ fun _ h => h
      intro st u hu hst
      rw [pages_cons]
      refine (overlaid_erase_page _ _).trans ?_
      rw [← hmem]
      exact hu hst
    · rw [if_neg hst]
      exact fun h => absurd h hst

theorem erase_succeeds (hf : fates.Honest)
    (h : exec fwUpdaterEraseNewFirmware (b.under fates) = (some .complete, t)) :
    Overlaid stagingArea (fun _ => erased) b.eeprom.flash.mem t.eeprom.flash.mem := by
  have hrun : wp fwUpdaterEraseNewFirmware
      (fun st t => st = .complete →
        Overlaid stagingArea (fun _ => erased) b.eeprom.flash.mem t.eeprom.flash.mem)
      (fun _ => True) (b.under fates) := by
    simp only [fwUpdaterEraseNewFirmware, utilsSysLockCnt, wp_bind, wp_modify, wp_clear_flag]
    have hpages := wp_erase_pages (i := 0)
      (b := { (b.under fates).cleared with lockCnt := b.lockCnt + 1 }) fwNumPages (by omega) hf
    rw [zero_mul, zero_add] at hpages
    rw [List.range_eq_range']
    exact hpages
  rw [wp, h] at hrun
  exact hrun rfl

end Erasing

section Writing

theorem half_words_cons (hi : i < j) (heven : i % 2 = 0) :
    halfWords i j = {newFwAddr.toNat + i} ∪ halfWords (i + 2) j := by
  ext a
  constructor
  · rintro ⟨k, hik, hkj, hk, rfl⟩
    by_cases he : k = i
    · exact Or.inl (by rw [he]; rfl)
    · exact Or.inr ⟨k, by omega, hkj, hk, rfl⟩
  · rintro (rfl | ⟨k, hik, hkj, hk, rfl⟩)
    · exact ⟨i, le_rfl, hi, heven, rfl⟩
    · exact ⟨k, by omega, hkj, hk, rfl⟩

theorem half_words_empty (h : j ≤ i) : halfWords i j = ∅ := by
  apply Set.eq_empty_of_forall_notMem
  rintro a ⟨k, hik, hkj, -, -⟩
  omega

theorem chunk_address {offset : ℕ} (h : offset + i < stagingSize) :
    (newFwAddr + UInt32.ofNat offset + UInt32.ofNat i).toNat = newFwAddr.toNat + (offset + i) := by
  have hbase : newFwAddr.toNat = 134316032 := rfl
  have hsize : stagingSize = 98304 := rfl
  rw [UInt32.toNat_add, UInt32.toNat_add, index_toNat (by omega), index_toNat (by omega)]
  omega

theorem chunk_word (image : ℕ → UInt8) {offset : ℕ} (h : i + 1 < stagingSize) :
    word (image (offset + (UInt32.ofNat i + 1).toNat)) (image (offset + (UInt32.ofNat i).toNat)) =
      imageWord image (newFwAddr.toNat + (offset + i)) := by
  have hsize : stagingSize = 98304 := rfl
  rw [imageWord, Nat.add_sub_cancel_left, show (1 : UInt32) = UInt32.ofNat 1 from rfl,
    index_add, index_toNat (by omega), index_toNat (by omega), add_assoc]

/-- From index `i` on, the loop programs what is left of the chunk on erased flash. -/
theorem wp_write_chunk {c : Chunk} (heven : c.offset % 2 = 0 ∧ c.length % 2 = 0)
    (hfit : c.offset + c.length ≤ stagingSize) (fuel i : ℕ) (hi : i % 2 = 0)
    (hile : i ≤ c.length) (hfuel : c.length < i + fuel) (hs : Serviceable steady b.eeprom.flash)
    (hm : Set.EqOn b.eeprom.flash.mem (fun _ => erased)
      (halfWords (c.offset + i) (c.offset + c.length))) :
    wp (writeFirmwareLoop (UInt32.ofNat c.offset) (fun i => image (c.offset + i))
        (UInt32.ofNat c.length) fuel (UInt32.ofNat i))
      (fun res t => res = some .complete ∧
        Overlaid (halfWords (c.offset + i) (c.offset + c.length)) (imageWord image)
          b.eeprom.flash.mem t.eeprom.flash.mem)
      (fun t => steady t.eeprom.flash.mem t.eeprom.flash.history = .cut) b := by
  have hsize : stagingSize = 98304 := rfl
  have hlen : (UInt32.ofNat c.length).toNat = c.length := index_toNat (by omega)
  have hlt : UInt32.ofNat i < UInt32.ofNat c.length ↔ i < c.length := by
    rw [index_lt (by omega), hlen]
  induction fuel generalizing i b with
  | zero => omega
  | succ fuel ih =>
    rw [writeFirmwareLoop]
    by_cases hend : i < c.length
    · have haddr : (newFwAddr + UInt32.ofNat c.offset + UInt32.ofNat i).toNat =
          newFwAddr.toNat + (c.offset + i) := chunk_address (by omega)
      have hcons := half_words_cons (i := c.offset + i) (j := c.offset + c.length) (by omega)
        (by omega)
      have hfirst : newFwAddr.toNat + (c.offset + i) ∈
          halfWords (c.offset + i) (c.offset + c.length) := by
        rw [hcons]
        exact Or.inl rfl
      rw [if_pos (hlt.mpr hend), chunk_word image (by omega)]
      refine wp_seq (wp_program_flash_erased hs (haddr ▸ hm hfirst) _) ?_ fun _ h => h
      rintro res t ⟨rfl, hs', hmem, -⟩
      rw [haddr] at hmem
      rw [if_pos rfl, show (2 : UInt32) = UInt32.ofNat 2 from rfl, index_add]
      have hrest : Set.EqOn t.eeprom.flash.mem (fun _ => erased)
          (halfWords (c.offset + (i + 2)) (c.offset + c.length)) := by
        rintro a ⟨k, hik, hkj, hk, rfl⟩
        rw [hmem, Function.update_of_ne (by omega)]
        exact hm ⟨k, by omega, hkj, hk, rfl⟩
      refine wp_mono (ih (i + 2) (by omega) (by omega) (by omega) hs' hrest (by
        rw [index_lt (by omega), hlen])) ?_ fun _ h => h
      rintro res u ⟨rfl, hu⟩
      rw [hmem] at hu
      exact ⟨rfl, hcons ▸ (overlaid_update _ _ _).trans hu⟩
    · rw [if_neg (mt hlt.mp hend), half_words_empty (by omega)]
      exact ⟨rfl, overlaid_nothing _ _⟩

theorem send_chunk (image : ℕ → UInt8) {c : Chunk} (heven : c.offset % 2 = 0 ∧ c.length % 2 = 0)
    (hfit : c.offset + c.length ≤ stagingSize)
    (hm : Set.EqOn b.eeprom.flash.mem (fun _ => erased)
      (halfWords c.offset (c.offset + c.length))) :
    ∃ u, exec (sendChunk image c) (b.under steady) = (some (some .complete), u) ∧
      Overlaid (halfWords c.offset (c.offset + c.length)) (imageWord image) b.eeprom.flash.mem
        u.eeprom.flash.mem := by
  have hrun : wp (sendChunk image c)
      (fun res t => res = some .complete ∧
        Overlaid (halfWords c.offset (c.offset + c.length)) (imageWord image)
          b.eeprom.flash.mem t.eeprom.flash.mem)
      (fun t => steady t.eeprom.flash.mem t.eeprom.flash.history = .cut) (b.under steady) := by
    simp only [sendChunk, fwUpdaterWriteFirmware, utilsSysLockCnt, wp_bind, wp_modify,
      wp_clear_flag]
    exact wp_write_chunk (b := { (b.under steady).cleared with lockCnt := b.lockCnt + 1 }) heven
      hfit (c.length + 1) 0 rfl (Nat.zero_le _) (by omega)
      (serviceable_start rfl rfl steady_sound rfl) hm
  obtain ⟨res, u, he, rfl, hu⟩ := steady_returns hrun
  exact ⟨u, he, hu⟩

def chunkWords (chunks : List Chunk) : Set ℕ :=
  { a | ∃ c ∈ chunks, a ∈ halfWords c.offset (c.offset + c.length) }

theorem chunk_words_cons (c : Chunk) (cs : List Chunk) :
    chunkWords (c :: cs) = halfWords c.offset (c.offset + c.length) ∪ chunkWords cs := by
  ext a
  simp [chunkWords]

theorem half_words_apart {c d : Chunk} (h : ∀ k, ¬ (c.Covers k ∧ d.Covers k)) {a : ℕ}
    (hd : a ∈ halfWords d.offset (d.offset + d.length)) :
    a ∉ halfWords c.offset (c.offset + c.length) := by
  rintro ⟨k, hk, hkc, -, rfl⟩
  obtain ⟨l, hl, hld, -, he⟩ := hd
  obtain rfl : k = l := by omega
  exact h k ⟨⟨hk, hkc⟩, hl, hld⟩

theorem upload_chunks (image : ℕ → UInt8) (chunks : List Chunk)
    (heven : ∀ c ∈ chunks, c.offset % 2 = 0 ∧ c.length % 2 = 0)
    (hfit : ∀ c ∈ chunks, c.offset + c.length ≤ stagingSize)
    (hapart : chunks.Pairwise fun c d => ∀ k, ¬ (c.Covers k ∧ d.Covers k))
    (hm : Set.EqOn b.eeprom.flash.mem (fun _ => erased) (chunkWords chunks)) :
    (b.upload image chunks).1 = List.replicate chunks.length (some (some .complete)) ∧
      Overlaid (chunkWords chunks) (imageWord image) b.eeprom.flash.mem
        (b.upload image chunks).2.eeprom.flash.mem := by
  induction chunks generalizing b with
  | nil =>
    have hnone : chunkWords [] = ∅ := by simp [chunkWords]
    exact ⟨rfl, hnone ▸ overlaid_nothing _ _⟩
  | cons c cs ih =>
    rw [chunk_words_cons] at hm ⊢
    obtain ⟨hc, hcs⟩ := List.pairwise_cons.mp hapart
    obtain ⟨u, hsend, hu⟩ := send_chunk image (heven c List.mem_cons_self)
      (hfit c List.mem_cons_self) (hm.mono Set.subset_union_left)
    -- what the other chunks write is still erased
    have hrest : Set.EqOn u.eeprom.flash.mem (fun _ => erased) (chunkWords cs) := by
      intro a ha
      obtain ⟨d, hd, had⟩ := ha
      rw [hu.outside (half_words_apart (hc d hd) had)]
      exact hm (Or.inr ⟨d, hd, had⟩)
    obtain ⟨hresults, hmem⟩ := ih (b := u) (fun d hd => heven d (List.mem_cons_of_mem c hd))
      (fun d hd => hfit d (List.mem_cons_of_mem c hd)) hcs hrest
    simp only [Board.upload, hsend]
    exact ⟨by rw [hresults]; rfl, hu.trans hmem⟩

end Writing

section Reading

variable {chunks : List Chunk}

theorem staging_byte (mem : Memory) (k : ℕ) :
    byteAt mem (newFwAddr.toNat + k) =
      if k % 2 = 0 then loByte (mem (newFwAddr.toNat + (k - k % 2)))
      else hiByte (mem (newFwAddr.toNat + (k - k % 2))) := by
  have hbase : newFwAddr.toNat = 134316032 := rfl
  by_cases hk : k % 2 = 0
  · rw [byteAt, if_pos (by omega), if_pos hk, hk, Nat.sub_zero]
  · rw [byteAt, if_neg (by omega), if_neg hk, show k % 2 = 1 by omega,
      show newFwAddr.toNat + k - 1 = newFwAddr.toNat + (k - 1) by omega]

theorem image_byte (image : ℕ → UInt8) (k : ℕ) :
    (if k % 2 = 0 then loByte (imageWord image (newFwAddr.toNat + (k - k % 2)))
      else hiByte (imageWord image (newFwAddr.toNat + (k - k % 2)))) = image k := by
  rw [imageWord, Nat.add_sub_cancel_left, lo_byte_word, hi_byte_word]
  by_cases hk : k % 2 = 0
  · rw [if_pos hk, hk, Nat.sub_zero]
  · rw [if_neg hk, show k - k % 2 + 1 = k by omega]

theorem mem_chunk_words (hp : Partition n chunks) (k : ℕ) :
    newFwAddr.toNat + (k - k % 2) ∈ chunkWords chunks ↔ k < n := by
  constructor
  · rintro ⟨c, hc, l, hl, hlc, heven, he⟩
    have := hp.even c hc
    have := hp.within c hc
    omega
  · intro hk
    obtain ⟨c, hc, hkc⟩ := hp.covers k hk
    have := hp.even c hc
    exact ⟨c, hc, k - k % 2, by unfold Chunk.Covers at hkc; omega, by
      unfold Chunk.Covers at hkc; omega, by omega, rfl⟩

/-- After a successful erase, chunks of an image in any order: every call returns
FLASH_COMPLETE, the staging area has the bytes of the image and 0xFF behind them, and no other
byte of the flash has changed. -/
theorem firmware_upload_exact (b t : Board) (fates : Fates) (hf : fates.Honest)
    (he : exec fwUpdaterEraseNewFirmware (b.under fates) = (some .complete, t))
    (image : ℕ → UInt8) (n : ℕ) (hn : n ≤ stagingSize) (chunks : List Chunk)
    (hp : Partition n chunks) :
    (t.upload image chunks).1 = List.replicate chunks.length (some (some .complete)) ∧
      (∀ k < stagingSize,
        byteAt (t.upload image chunks).2.eeprom.flash.mem (newFwAddr.toNat + k) =
          if k < n then image k else 0xFF) ∧
      ∀ a, a < newFwAddr.toNat ∨ newFwAddr.toNat + stagingSize ≤ a →
        byteAt (t.upload image chunks).2.eeprom.flash.mem a = byteAt b.eeprom.flash.mem a := by
  have hbase : newFwAddr.toNat = 134316032 := rfl
  have hsize : stagingSize = 98304 := rfl
  have herased := erase_succeeds hf he
  have hsub : chunkWords chunks ⊆ stagingArea := by
    rintro a ⟨c, hc, l, -, hlc, -, rfl⟩
    have := hp.within c hc
    exact ⟨by omega, by omega⟩
  obtain ⟨hresults, hmem⟩ := upload_chunks (b := t) image chunks hp.even
    (fun c hc => (hp.within c hc).trans hn) hp.apart (herased.inside.mono hsub)
  refine ⟨hresults, fun k hk => ?_, fun a ha => ?_⟩
  · rw [staging_byte]
    by_cases hkn : k < n
    · rw [if_pos hkn, hmem.inside ((mem_chunk_words hp k).mpr hkn), image_byte]
    · have harea : newFwAddr.toNat + (k - k % 2) ∈ stagingArea := ⟨by omega, by omega⟩
      rw [if_neg hkn, hmem.outside fun h => hkn ((mem_chunk_words hp k).mp h),
        herased.inside harea]
      by_cases heven : k % 2 = 0
      · rw [if_pos heven]
        exact (by decide : loByte erased = 0xFF)
      · rw [if_neg heven]
        exact (by decide : hiByte erased = 0xFF)
  · -- the area begins and ends between half-words
    have hword {a : ℕ} (ha : a < newFwAddr.toNat ∨ newFwAddr.toNat + stagingSize ≤ a) :
        (t.upload image chunks).2.eeprom.flash.mem a = b.eeprom.flash.mem a := by
      have hout : a ∉ stagingArea := by
        rintro ⟨hlow, hhigh⟩
        omega
      rw [hmem.outside fun h => hout (hsub h), herased.outside hout]
    by_cases heven : a % 2 = 0
    · rw [byteAt, byteAt, if_pos heven, if_pos heven, hword ha]
    · rw [byteAt, byteAt, if_neg heven, if_neg heven, hword (by omega)]

/-- Four bytes, the second half first. -/
theorem firmware_upload_exact_swapped :
    ∃ t, exec fwUpdaterEraseNewFirmware (blankBoard.under steady) = (some .complete, t) ∧
      (t.upload (fun k => UInt8.ofNat k) [⟨2, 2⟩, ⟨0, 2⟩]).1 =
        List.replicate 2 (some (some .complete)) ∧
      (∀ k < stagingSize,
        byteAt (t.upload (fun k => UInt8.ofNat k) [⟨2, 2⟩, ⟨0, 2⟩]).2.eeprom.flash.mem
          (newFwAddr.toNat + k) = if k < 4 then UInt8.ofNat k else 0xFF) ∧
      ∀ a, a < newFwAddr.toNat ∨ newFwAddr.toNat + stagingSize ≤ a →
        byteAt (t.upload (fun k => UInt8.ofNat k) [⟨2, 2⟩, ⟨0, 2⟩]).2.eeprom.flash.mem a =
          byteAt blankBoard.eeprom.flash.mem a := by
  have herase : (exec fwUpdaterEraseNewFirmware (blankBoard.under steady)).1 = some .complete := by
    decide +kernel
  have hresult (r : Option FlashStatus × Board) (h : r.1 = some .complete) :
      ∃ t, r = (some .complete, t) := ⟨r.2, Prod.ext h rfl⟩
  obtain ⟨t, ht⟩ := hresult _ herase
  refine ⟨t, ht, ?_⟩
  apply firmware_upload_exact blankBoard t steady (fun _ _ => nofun) ht _ 4 (by decide)
    [⟨2, 2⟩, ⟨0, 2⟩]
  constructor
  · decide
  · decide
  · intro k hk
    by_cases hlow : k < 2
    · exact ⟨⟨0, 2⟩, by simp, by simp [Chunk.Covers, hlow]⟩
    · exact ⟨⟨2, 2⟩, by simp, by simp [Chunk.Covers]; omega⟩
  · simp [Chunk.Covers]
    omega

end Reading

end Battman
