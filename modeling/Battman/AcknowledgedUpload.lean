import Battman.FlashRuns

/-! What a reply to PACKET_WRITE_NEW_FW promises. The flash may refuse any operation and the
power may be cut before any: what was programmed is a prefix of the payload, and all of it
exactly when the reply says so. An image whose bytes were all acknowledged is staged exactly,
whatever attempts failed in between. -/
namespace Battman
open CutLogic Overlay

def payloadWords (data : ℕ → UInt8) (i j : ℕ) : Set ℕ :=
  { a | ∃ k, i ≤ k ∧ k < j ∧ a = stagingAddress data (2 * k) }

def payloadWord (data : ℕ → UInt8) (a : ℕ) : UInt16 :=
  let i := (UInt32.ofNat a - (newFwAddr + parseWord data)).toNat
  word (data (4 + (i + 1))) (data (4 + i))

/-- The half-words of a payload, the last one perhaps half. -/
def halfWordCount (len : UInt32) : ℕ := ((len - 4).toNat + 1) / 2

/-- An even part of an image of `n` bytes, with its place in the image. -/
structure OfImage (image : ℕ → UInt8) (n : ℕ) (data : ℕ → UInt8) (len : UInt32) : Prop where
  long : 4 ≤ len.toNat
  even : (parseWord data).toNat % 2 = 0 ∧ len.toNat % 2 = 0
  within : (parseWord data).toNat + (len.toNat - 4) ≤ n
  bytes : ∀ i < len.toNat - 4, data (4 + i) = image ((parseWord data).toNat + i)

/-- Configuration calls and parts of the image, whose operations do not fail with success. -/
def Served.OfImage (image : ℕ → UInt8) (n : ℕ) : Served → Prop
  | .config _ => True
  | .firmware (.writeNewFw data len) fates => fates.Honest ∧ Battman.OfImage image n data len
  | .firmware .eraseNewFw _ => False

def Machine.reply (m : Machine) (packet : FwPacket) (fates : Fates) : Option (List UInt8) :=
  if m.running then (exec packet.run (m.board.under fates)).1.join else none

/-- A write of the run that covers byte `k` of the image is replied to with success. -/
def Acknowledged (m : Machine) (xs : List Served) (k : ℕ) : Prop :=
  ∃ pre data len fates post, xs = pre ++ .firmware (.writeNewFw data len) fates :: post ∧
    (m.serveAll pre).reply (.writeNewFw data len) fates = some [0x05, 1] ∧
    (parseWord data).toNat ≤ k ∧ k < (parseWord data).toNat + (len.toNat - 4)

variable {data : ℕ → UInt8} {len : UInt32} {b t : Board} {f : Flash} {fates : Fates}
  {i j k n : ℕ}

section Writing

theorem payload_words_cons (h : i < j) :
    payloadWords data i j = {stagingAddress data (2 * i)} ∪ payloadWords data (i + 1) j := by
  ext a
  constructor
  · rintro ⟨k, hik, hkj, rfl⟩
    by_cases he : k = i
    · exact Or.inl (by rw [he]; rfl)
    · exact Or.inr ⟨k, by omega, hkj, rfl⟩
  · rintro (rfl | ⟨k, hik, hkj, rfl⟩)
    · exact ⟨i, le_rfl, h, rfl⟩
    · exact ⟨k, by omega, hkj, rfl⟩

theorem payload_words_self (data : ℕ → UInt8) (i : ℕ) : payloadWords data i i = ∅ := by
  apply Set.eq_empty_of_forall_notMem
  rintro a ⟨k, hik, hki, -⟩
  omega

theorem payload_word_at (data : ℕ → UInt8) (hi : i < 2 ^ 32) :
    payloadWord data (stagingAddress data i) = word (data (4 + (i + 1))) (data (4 + i)) := by
  have hindex : UInt32.ofNat (stagingAddress data i) - (newFwAddr + parseWord data) =
      UInt32.ofNat i := by
    rw [stagingAddress, UInt32.ofNat_toNat, add_sub_cancel_left]
  rw [payloadWord, hindex, index_toNat hi]

/-- An operation that reports success had its effect, one that fails has none. -/
theorem wp_program_honest (hf : f.fates.Honest) (hs : f.status = .complete) (address : ℕ)
    (value : UInt16) :
    wp (flashProgramHalfWord address value)
      (fun st t =>
        if st = .complete then
          t.mem = Function.update f.mem address value ∧ t.fates = f.fates ∧ t.status = .complete
        else t.mem = f.mem)
      (fun t => t.mem = f.mem) f := by
  simp only [flashProgramHalfWord, flashOperation, wp_bind, wp_get, if_pos hs]
  cases hc : f.fates f.mem f.history with
  | completes =>
    by_cases he : f.mem address = erased ∨ value = 0
    · rw [programHalfWord, if_pos he]
      exact ⟨rfl, rfl, hs⟩
    · rw [programHalfWord, if_neg he]
      exact rfl
  | fails status =>
    have hne : status ≠ .complete := fun h => hf f.mem f.history (h ▸ hc)
    exact (if_neg hne).mpr rfl
  | cut => exact rfl

/-- The reply, and how much of the payload is programmed then. -/
def WriteOutcome (data : ℕ → UInt8) (n i : ℕ) (b : Board) (res : Option FlashStatus) (t : Board) :
    Prop :=
  ∃ m, i ≤ m ∧ m ≤ n ∧ (res = some .complete ↔ m = n) ∧ res ≠ none ∧
    Overlaid (payloadWords data i m) (payloadWord data) b.eeprom.flash.mem t.eeprom.flash.mem

def WriteCut (data : ℕ → UInt8) (n i : ℕ) (b t : Board) : Prop :=
  ∃ m, i ≤ m ∧ m < n ∧
    Overlaid (payloadWords data i m) (payloadWord data) b.eeprom.flash.mem t.eeprom.flash.mem

theorem wp_write_prefix (data : ℕ → UInt8) (hlen : (len - 4).toNat < 2 ^ 32 - 1) (fuel i : ℕ)
    (hi : i ≤ halfWordCount len) (hfuel : halfWordCount len < i + fuel)
    (hf : b.eeprom.flash.fates.Honest) (hs : b.eeprom.flash.status = .complete) :
    wp (writeFirmwareLoop (parseWord data) (fun i => data (4 + i)) (len - 4) fuel
        (UInt32.ofNat (2 * i)))
      (WriteOutcome data (halfWordCount len) i b) (WriteCut data (halfWordCount len) i b) b := by
  have hcount : halfWordCount len = ((len - 4).toNat + 1) / 2 := rfl
  induction fuel generalizing i b with
  | zero => omega
  | succ fuel ih =>
    rw [writeFirmwareLoop]
    by_cases hlt : 2 * i < (len - 4).toNat
    · have hnone : Overlaid (payloadWords data i i) (payloadWord data) b.eeprom.flash.mem
          b.eeprom.flash.mem := by
        rw [payload_words_self]
        exact overlaid_nothing _ _
      have hcons (m : ℕ) (him : i < m) : payloadWords data i m =
          {stagingAddress data (2 * i)} ∪ payloadWords data (i + 1) m := payload_words_cons him
      rw [if_pos ((index_lt (by omega)).mpr hlt), show (1 : UInt32) = UInt32.ofNat 1 from rfl,
        show (2 : UInt32) = UInt32.ofNat 2 from rfl, index_add, index_add,
        index_toNat (by omega), index_toNat (by omega), ← payload_word_at data (by omega)]
      rw [wp_bind, programFlash, wp_onPart, wp_onPart]
      refine wp_mono (wp_program_honest hf hs _ _) ?_ ?_
      · intro st f hst
        by_cases hcomplete : st = .complete
        · rw [if_pos hcomplete] at hst ⊢
          obtain ⟨hmem, hfates, hstatus⟩ := hst
          have hfirst : Overlaid {stagingAddress data (2 * i)} (payloadWord data)
              b.eeprom.flash.mem f.mem := hmem ▸ overlaid_update _ _ _
          have hrest := ih (b := eepromPart.put (flashPart.put f b.eeprom) b) (i + 1) (by omega)
            (by omega) (by rw [← hfates] at hf; exact hf) hstatus
          refine wp_mono hrest ?_ ?_
          · rintro res t ⟨m, him, hmn, hres, hnone, hm⟩
            exact ⟨m, by omega, hmn, hres, hnone, hcons m (by omega) ▸ hfirst.trans hm⟩
          · rintro t ⟨m, him, hmn, hm⟩
            exact ⟨m, by omega, hmn, hcons m (by omega) ▸ hfirst.trans hm⟩
        · rw [if_neg hcomplete] at hst ⊢
          refine ⟨i, le_rfl, hi, ?_, Option.some_ne_none _, ?_⟩
          · exact iff_of_false (fun h => hcomplete (Option.some.inj h)) (by omega)
          · exact hst ▸ hnone
      · intro f hst
        exact ⟨i, le_rfl, by omega, hst ▸ hnone⟩
    · rw [if_neg (by rw [index_lt (by omega)]; omega)]
      refine ⟨i, le_rfl, hi, iff_of_true rfl (by omega), Option.some_ne_none _, ?_⟩
      rw [payload_words_self]
      exact overlaid_nothing _ _

theorem wp_write_new_fw (data : ℕ → UInt8) (hlen : (len - 4).toNat < 2 ^ 32 - 1) {fuel : ℕ}
    (hfuel : halfWordCount len < fuel) (hf : fates.Honest) :
    wp (processWriteNewFw fuel data len)
      (fun reply t => ∃ res, reply = res.map (fun res => [0x05, if res = .complete then 1 else 0]) ∧
        WriteOutcome data (halfWordCount len) 0 b res t)
      (WriteCut data (halfWordCount len) 0 b) (b.under fates) := by
  simp only [processWriteNewFw, fwUpdaterWriteFirmware, utilsSysLockCnt, wp_bind, wp_modify,
    wp_clear_flag, wp_pure]
  have hloop := wp_write_prefix (b := { (b.under fates).cleared with lockCnt := b.lockCnt + 1 })
    data hlen fuel 0 (Nat.zero_le _) (by omega) hf rfl
  exact wp_mono hloop (fun res t h => ⟨res, rfl, h⟩) fun t h => h

end Writing

section Staging

variable {image : ℕ → UInt8} {m : Machine} {x : Served} {xs : List Served}

def staged (mem : Memory) : stagingArea → UInt16 := mem ∘ Subtype.val

/-- The half-words of the staging area that a run has programmed with the image: none beyond
the image, and all that were acknowledged. -/
structure Progress (image : ℕ → UInt8) (n : ℕ) (m : Machine) (xs : List Served) (S : Set ℕ) :
    Prop where
  within : S ⊆ halfWords 0 (n - 1)
  overlaid : Overlaid (Set.preimage Subtype.val S) (imageWord image ∘ Subtype.val)
    (staged m.board.eeprom.flash.mem) (staged (m.serveAll xs).board.eeprom.flash.mem)
  acknowledged : ∀ k, Acknowledged m xs k → newFwAddr.toNat + (k - k % 2) ∈ S

theorem OfImage.fits (h : OfImage image n data len) (hn : n ≤ stagingSize) : FitsStaging data len :=
  ⟨h.long, h.even.1, h.within.trans hn⟩

theorem OfImage.address (h : OfImage image n data len) (hn : n ≤ stagingSize)
    (hi : i < len.toNat - 4) :
    stagingAddress data i = newFwAddr.toNat + ((parseWord data).toNat + i) := by
  have hwithin := h.within
  have hbase : newFwAddr.toNat = 134316032 := rfl
  have hsize : stagingSize = 98304 := rfl
  have haddr := staging_address_toNat data (i := i) (by omega)
  omega

theorem OfImage.count (h : OfImage image n data len) :
    2 * halfWordCount len = len.toNat - 4 := by
  have hlong := h.long
  have heven := h.even.2
  rw [halfWordCount, data_length hlong]
  omega

theorem OfImage.within_image (h : OfImage image n data len) (hn : n ≤ stagingSize)
    (hj : j ≤ halfWordCount len) : payloadWords data 0 j ⊆ halfWords 0 (n - 1) := by
  have hcount := h.count
  have hwithin := h.within
  have heven := h.even.1
  rintro a ⟨k, -, hk, rfl⟩
  exact ⟨(parseWord data).toNat + 2 * k, Nat.zero_le _, by omega, by omega,
    h.address hn (by omega)⟩

theorem OfImage.words (h : OfImage image n data len) (hn : n ≤ stagingSize)
    (hj : j ≤ halfWordCount len) :
    Set.EqOn (payloadWord data) (imageWord image) (payloadWords data 0 j) := by
  have hcount := h.count
  have hlen := len.toNat_lt
  rintro a ⟨k, -, hk, rfl⟩
  rw [payload_word_at data (by omega), h.address hn (by omega), imageWord,
    Nat.add_sub_cancel_left, h.bytes (2 * k + 1) (by omega), h.bytes (2 * k) (by omega),
    add_assoc]

theorem OfImage.covers (h : OfImage image n data len) (hn : n ≤ stagingSize)
    (hlow : (parseWord data).toNat ≤ k) (hhigh : k < (parseWord data).toNat + (len.toNat - 4)) :
    newFwAddr.toNat + (k - k % 2) ∈ payloadWords data 0 (halfWordCount len) := by
  have hcount := h.count
  have heven := h.even.1
  refine ⟨(k - (parseWord data).toNat) / 2, Nat.zero_le _, by omega, ?_⟩
  rw [h.address hn (by omega)]
  omega

theorem acknowledged_cons (h : Acknowledged m (x :: xs) k) :
    Acknowledged m [x] k ∨ Acknowledged (m.serve x) xs k := by
  obtain ⟨pre, data, len, fates, post, he, hreply, hk⟩ := h
  cases pre with
  | nil =>
    obtain ⟨rfl, -⟩ := List.cons.inj he
    exact Or.inl ⟨[], data, len, fates, [], rfl, hreply, hk⟩
  | cons y pre =>
    obtain ⟨rfl, hrest⟩ := List.cons.inj he
    exact Or.inr ⟨pre, data, len, fates, post, hrest, hreply, hk⟩

theorem Acknowledged.single (h : Acknowledged m [x] k) :
    ∃ data len fates, x = .firmware (.writeNewFw data len) fates ∧
      m.reply (.writeNewFw data len) fates = some [0x05, 1] ∧
      (parseWord data).toNat ≤ k ∧ k < (parseWord data).toNat + (len.toNat - 4) := by
  obtain ⟨pre, data, len, fates, post, he, hreply, hk⟩ := h
  rcases List.singleton_eq_append_iff.mp he with ⟨rfl, hx⟩ | ⟨-, hnil⟩
  · exact ⟨data, len, fates, (List.cons.inj hx).1.symm, hreply, hk⟩
  · exact absurd hnil (List.cons_ne_nil _ _)

theorem progress_nothing (h : staged (m.serve x).board.eeprom.flash.mem =
    staged m.board.eeprom.flash.mem) (hnone : ∀ k, ¬ Acknowledged m [x] k) :
    Progress image n m [x] ∅ where
  within := Set.empty_subset _
  overlaid := by
    change Overlaid _ _ _ (staged (m.serve x).board.eeprom.flash.mem)
    rw [h, Set.preimage_empty]
    exact overlaid_nothing _ _
  acknowledged k hk := absurd hk (hnone k)

theorem progress_programmed {reply : Option (Option (List UInt8))} (hn : n ≤ stagingSize)
    (hpart : OfImage image n data len) (hr : m.running = true)
    (he : exec (processWriteNewFw len.toNat data len) (m.board.under fates) = (reply, t))
    (hj : j ≤ halfWordCount len)
    (hover : Overlaid (payloadWords data 0 j) (payloadWord data) m.board.eeprom.flash.mem
      t.eeprom.flash.mem)
    (hreply : reply = some (some [0x05, 1]) → j = halfWordCount len) :
    Progress image n m [.firmware (.writeNewFw data len) fates] (payloadWords data 0 j) := by
  refine ⟨hpart.within_image hn hj, ?_, fun k hk => ?_⟩
  · have hserve : (m.serveAll [.firmware (.writeNewFw data len) fates]).board = t := by
      change (m.serve (.firmware (.writeNewFw data len) fates)).board = t
      rw [Machine.serve, if_pos hr, FwPacket.run, he]
    rw [hserve]
    exact (hover.congr (hpart.words hn hj)).comap _
  · obtain ⟨data', len', fates', hx, hsuccess, hlow, hhigh⟩ := hk.single
    obtain ⟨hpacket, rfl⟩ := Served.firmware.inj hx
    obtain ⟨rfl, rfl⟩ := FwPacket.writeNewFw.inj hpacket
    rw [Machine.reply, if_pos hr, FwPacket.run, he] at hsuccess
    rw [hreply (Option.join_eq_some_iff.mp hsuccess)]
    exact hpart.covers hn hlow hhigh

theorem progress_write (hn : n ≤ stagingSize) (hf : fates.Honest)
    (hpart : OfImage image n data len) :
    ∃ S, Progress image n m [.firmware (.writeNewFw data len) fates] S := by
  have hlen := len.toNat_lt
  have hdata := data_length hpart.long
  have hfuel : halfWordCount len < len.toNat := by
    have := hpart.count
    have := hpart.long
    omega
  by_cases hr : m.running = true
  · have hrun := wp_write_new_fw (b := m.board) data (by omega) hfuel hf
    unfold wp at hrun
    rcases he : exec (processWriteNewFw len.toNat data len) (m.board.under fates) with
      ⟨_ | reply, t⟩
    · rw [he] at hrun
      obtain ⟨j, -, hj, hover⟩ := hrun
      exact ⟨_, progress_programmed hn hpart hr he hj.le hover nofun⟩
    · rw [he] at hrun
      obtain ⟨res, rfl, j, -, hj, hres, -, hover⟩ := hrun
      refine ⟨_, progress_programmed hn hpart hr he hj hover fun h => hres.mp ?_⟩
      cases res with
      | none => cases h
      | some st =>
        by_cases hst : st = .complete
        · rw [hst]
        · simp [hst] at h
  · refine ⟨∅, progress_nothing ?_ fun k hk => ?_⟩
    · rw [Machine.serve, if_neg hr]
    · obtain ⟨data', len', fates', hx, hsuccess, -⟩ := hk.single
      rw [Machine.reply, if_neg hr] at hsuccess
      cases hsuccess

theorem progress_step (hn : n ≤ stagingSize) (hx : x.OfImage image n) :
    ∃ S, Progress image n m [x] S := by
  cases x with
  | config e =>
    refine ⟨∅, progress_nothing ?_ fun k hk => ?_⟩
    · funext a
      have hout : a.1 ∉ pagesArea := fun ⟨p, hp⟩ => page_not_staged hp a.2
      exact outside_at (step_outside m e) hout
    · obtain ⟨data, len, fates, he, -⟩ := hk.single
      cases he
  | firmware packet fates =>
    cases packet with
    | eraseNewFw => exact hx.elim
    | writeNewFw data len => exact progress_write hn hx.1 hx.2

theorem progress_run (hn : n ≤ stagingSize) (xs : List Served)
    (hxs : ∀ x ∈ xs, x.OfImage image n) : ∃ S, Progress image n m xs S := by
  induction xs generalizing m with
  | nil =>
    refine ⟨∅, Set.empty_subset _, ?_, fun k hk => ?_⟩
    · rw [Set.preimage_empty]
      exact overlaid_nothing _ _
    · obtain ⟨pre, data, len, fates, post, he, -⟩ := hk
      exact absurd he (by simp)
  | cons x xs ih =>
    obtain ⟨S, hS⟩ := progress_step (m := m) hn (hxs x List.mem_cons_self)
    obtain ⟨T, hT⟩ := ih (m := m.serve x) fun y hy => hxs y (List.mem_cons_of_mem x hy)
    refine ⟨S ∪ T, Set.union_subset hS.within hT.within, ?_, fun k hk => ?_⟩
    · rw [Set.preimage_union]
      exact hS.overlaid.trans hT.overlaid
    · rcases acknowledged_cons hk with h | h
      · exact Or.inl (hS.acknowledged k h)
      · exact Or.inr (hT.acknowledged k h)

theorem erase_reply (hf : fates.Honest)
    (h : exec processEraseNewFw (b.under fates) = (some [0x04, 1], t)) :
    Overlaid stagingArea (fun _ => erased) b.eeprom.flash.mem t.eeprom.flash.mem := by
  rw [processEraseNewFw, exec_bind] at h
  rcases he : exec fwUpdaterEraseNewFirmware (b.under fates) with ⟨_ | st, u⟩
  · rw [he] at h
    cases h
  · rw [he] at h
    by_cases hst : st = .complete
    · subst hst
      obtain rfl : u = t := (Prod.mk.inj h).2
      exact erase_succeeds hf he
    · change (some [0x04, if st = .complete then 1 else 0], u) = _ at h
      rw [if_neg hst] at h
      simp at h

/-- An erase that was acknowledged, then parts of an image in any order, among configuration
calls and resets. However many writes fail or are cut off and repeated, when every byte of
the image has been acknowledged the staging area holds the image and 0xFF behind it, and
the flash outside it and the pages of the configuration is what it was. -/
theorem acknowledged_upload_exact (b t : Board) (fates : Fates) (hf : fates.Honest)
    (he : exec processEraseNewFw (b.under fates) = (some [0x04, 1], t)) (image : ℕ → UInt8)
    (n : ℕ) (hn : n ≤ stagingSize) (xs : List Served) (hxs : ∀ x ∈ xs, x.OfImage image n)
    (hall : ∀ k < n, Acknowledged ⟨t, true⟩ xs k) (u : Board)
    (hu : u = (Machine.serveAll ⟨t, true⟩ xs).board) :
    (∀ k < stagingSize, byteAt u.eeprom.flash.mem (newFwAddr.toNat + k) =
        if k < n then image k else 0xFF) ∧
      ∀ a, a ∉ pagesArea → a ∉ stagingArea → u.eeprom.flash.mem a = b.eeprom.flash.mem a := by
  subst hu
  have herased := erase_reply hf he
  obtain ⟨S, hS⟩ := progress_run (m := ⟨t, true⟩) hn xs hxs
  refine ⟨fun k hk => ?_, fun a hpages hstaging => ?_⟩
  · have hin : newFwAddr.toNat + (k - k % 2) ∈ stagingArea := ⟨by omega, by omega⟩
    rw [staging_byte]
    by_cases hkn : k < n
    · have hmem := hS.overlaid.inside (x := ⟨_, hin⟩) (hS.acknowledged k (hall k hkn))
      simp only [staged, Function.comp_apply] at hmem
      rw [if_pos hkn, hmem, image_byte]
    · have hout : newFwAddr.toNat + (k - k % 2) ∉ S := fun h => by
        obtain ⟨l, -, hl, hl2, hkl⟩ := hS.within h
        omega
      have hmem := hS.overlaid.outside (x := ⟨_, hin⟩) hout
      simp only [staged, Function.comp_apply] at hmem
      rw [if_neg hkn, hmem, herased.inside hin]
      by_cases heven : k % 2 = 0
      · rw [if_pos heven]
        exact (by decide : loByte erased = 0xFF)
      · rw [if_neg heven]
        exact (by decide : hiByte erased = 0xFF)
  · have hfits : ∀ x ∈ xs, x.Fits := fun x hx => by
      have hpart := hxs x hx
      cases x with
      | config e => trivial
      | firmware packet fates =>
        cases packet with
        | eraseNewFw => trivial
        | writeNewFw data len => exact hpart.2.fits hn
    rw [program_kept _ xs hfits (not_or.mpr ⟨hpages, hstaging⟩)]
    exact herased.outside hstaging

def retriedUpload : List Served :=
  [.firmware (.writeNewFw (fun _ => 0) 6) fun _ _ => .fails .timeout,
    .firmware (.writeNewFw (fun _ => 0) 6) steady]

theorem acknowledged_upload_exact_retried :
    ∃ t, exec processEraseNewFw (blankBoard.under steady) = (some [0x04, 1], t) ∧
      (∀ k < stagingSize,
        byteAt (Machine.serveAll ⟨t, true⟩ retriedUpload).board.eeprom.flash.mem
          (newFwAddr.toNat + k) = if k < 2 then 0 else 0xFF) ∧
      ∀ a, a ∉ pagesArea → a ∉ stagingArea →
        (Machine.serveAll ⟨t, true⟩ retriedUpload).board.eeprom.flash.mem a =
          blankBoard.eeprom.flash.mem a := by
  have herase : (exec processEraseNewFw (blankBoard.under steady)).1 = some [0x04, 1] := by
    decide +kernel
  have hreply : (Machine.serveAll ⟨(exec processEraseNewFw (blankBoard.under steady)).2, true⟩
      [.firmware (.writeNewFw (fun _ => 0) 6) fun _ _ => .fails .timeout]).reply
        (.writeNewFw (fun _ => 0) 6) steady = some [0x05, 1] := by
    decide +kernel
  have hsplit (r : Option (List UInt8) × Board) (h : r.1 = some [0x04, 1]) :
      r = (some [0x04, 1], r.2) := Prod.ext h rfl
  have hexec := hsplit _ herase
  refine ⟨_, hexec, ?_⟩
  have hpart : OfImage (fun _ => 0) 2 (fun _ => 0) 6 :=
    ⟨by decide, by decide, by decide, fun _ _ => rfl⟩
  refine acknowledged_upload_exact blankBoard _ steady (fun _ _ => nofun)
    hexec (fun _ => 0) 2 (by decide) retriedUpload ?_ (fun k hk => ?_) _ rfl
  · simp only [retriedUpload, List.forall_mem_cons]
    exact ⟨⟨fun _ _ => nofun, hpart⟩, ⟨fun _ _ => nofun, hpart⟩, fun _ => nofun⟩
  · exact ⟨_, _, 6, steady, [], rfl, hreply, Nat.zero_le k, hk⟩

end Staging

end Battman
