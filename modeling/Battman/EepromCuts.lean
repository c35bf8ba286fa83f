import Battman.Config

/-! Where a cut stops the programs over the flash: only at an operation that the surroundings
cut, so with the power on they return, whatever else becomes of their operations. -/
namespace Battman
open CutLogic

section Rules

variable {σ τ α β : Type} {flash : σ → Flash}

/-- A run leaves the surroundings alone and is cut only where they cut it. -/
def CutByFates (flash : σ → Flash) (x : Cuttable σ α) : Prop :=
  ∀ s, wp x (fun _ t => (flash t).fates = (flash s).fates)
    (fun t => (flash s).fates (flash t).mem (flash t).history = .cut) s

theorem CutByFates.bind {x : Cuttable σ α} {g : α → Cuttable σ β} (hx : CutByFates flash x)
    (hg : ∀ a, CutByFates flash (g a)) : CutByFates flash (x >>= g) := by
  intro s
  refine wp_seq (hx s) (fun a t ht => ?_) fun _ ht => ht
  rw [← ht]
  exact hg a t

theorem cut_pure (a : α) : CutByFates flash (pure a) := fun _ => rfl

theorem cut_modify {g : σ → σ} (h : ∀ s, (flash (g s)).fates = (flash s).fates) :
    CutByFates flash (modify g) := h

/-- What a program does next may depend on the state. -/
theorem cut_get {g : σ → Cuttable σ α} (hg : ∀ s, CutByFates flash (g s)) :
    CutByFates flash (get >>= g) := by
  intro s
  rw [wp_bind, wp_get]
  exact hg s s

theorem CutByFates.map {x : Cuttable σ α} (hx : CutByFates flash x) (g : α → β) :
    CutByFates flash (g <$> x) := by
  rw [map_eq_pure_bind]
  exact hx.bind fun a => cut_pure (g a)

theorem CutByFates.onPart {p : Part τ σ} {x : Cuttable σ α} (hx : CutByFates flash x)
    {whole : τ → Flash} (hget : ∀ t, flash (p.get t) = whole t)
    (hput : ∀ s t, whole (p.put s t) = flash s) : CutByFates whole (onPart p x) := by
  intro t
  rw [wp_onPart]
  refine wp_mono (hx (p.get t)) (fun a s hs => ?_) fun s hs => ?_
  · rw [hput, hs, hget]
  · rw [hput, ← hget]
    exact hs

end Rules

section Eeprom

theorem cut_flash_operation (record : Memory → FlashStatus → FlashOp)
    (effect : Memory → Option Memory) : CutByFates id (flashOperation record effect) := by
  intro f
  simp only [flashOperation, wp_bind, wp_get]
  split
  · split
    · split <;> rfl
    · rfl
    · assumption
  · rfl

variable {op next : EepromM EeStatus}

theorem cut_erase (page : Page) : CutByFates Eeprom.flash (erase page) :=
  ((cut_flash_operation _ _).onPart (fun _ => rfl) fun _ _ => rfl).map _

theorem cut_program (address : ℕ) (data : UInt16) :
    CutByFates Eeprom.flash (program address data) :=
  ((cut_flash_operation _ _).onPart (fun _ => rfl) fun _ _ => rfl).map _

theorem CutByFates.checked (hop : CutByFates Eeprom.flash op)
    (hnext : CutByFates Eeprom.flash next) : CutByFates Eeprom.flash (checked op next) := by
  apply hop.bind
  intro status
  split
  · exact hnext
  · exact cut_pure status

theorem cut_verify_loop (virtAddress data : UInt16) (n address : ℕ) :
    CutByFates Eeprom.flash (verifyLoop virtAddress data n address) := by
  induction n generalizing address with
  | zero => exact cut_pure _
  | succ n ih =>
    apply cut_get
    intro e
    split
    · exact (cut_program _ _).checked (cut_program _ _)
    · exact ih _

theorem cut_verify (virtAddress data : UInt16) :
    CutByFates Eeprom.flash (eeVerifyPageFullWriteVariable virtAddress data) := by
  apply cut_get
  intro e
  split
  · exact cut_pure _
  · exact cut_verify_loop _ _ _ _

theorem cut_copy_variable (virtAddress : UInt16) (hnext : CutByFates Eeprom.flash next) :
    CutByFates Eeprom.flash (copyVariable virtAddress next) := by
  intro e
  simp only [copyVariable, wp_bind, wp_get]
  split
  · exact hnext e
  · exact (cut_verify _ _).checked hnext { e with dataVar := _ }
  · exact (cut_verify _ _).checked hnext e

theorem cut_transfer_loop (virtAddress : UInt16) (vs : List UInt16) :
    CutByFates Eeprom.flash (transferLoop virtAddress vs) := by
  induction vs with
  | nil => exact cut_pure _
  | cons v vs ih =>
    rw [transferLoop]
    split
    · exact cut_copy_variable v ih
    · exact ih

theorem cut_page_transfer (virtAddress data : UInt16) :
    CutByFates Eeprom.flash (eePageTransfer virtAddress data) := by
  apply cut_get
  intro e
  split
  · exact cut_pure _
  · exact (cut_program _ _).checked <| (cut_verify _ _).checked <|
      (cut_transfer_loop _ _).checked <| (cut_erase _).checked <| cut_program _ _

theorem cut_write_variable (virtAddress data : UInt16) :
    CutByFates Eeprom.flash (eeWriteVariable virtAddress data) := by
  apply (cut_verify virtAddress data).bind
  intro status
  split
  · exact cut_page_transfer _ _
  · exact cut_pure status

end Eeprom

section Configuration

abbrev Board.flash (b : Board) : Flash := b.eeprom.flash

theorem cut_lock : CutByFates Board.flash utilsSysLockCnt := cut_modify fun _ => rfl

theorem cut_unlock : CutByFates Board.flash utilsSysUnlockCnt := cut_modify fun _ => rfl

theorem cut_clear_flag : CutByFates Board.flash clearFlag := by
  have hclear : CutByFates id flashClearFlag := cut_modify fun _ => rfl
  have hpart : CutByFates Eeprom.flash (onPart flashPart flashClearFlag) :=
    hclear.onPart (fun _ => rfl) fun _ _ => rfl
  exact hpart.onPart (fun _ => rfl) fun _ _ => rfl

theorem cut_store_half_word (i : ℕ) (var : UInt16) :
    CutByFates Board.flash (storeHalfWord i var) := by
  have hwrite : CutByFates Board.flash (onPart eepromPart (eeWriteVariable (virtAddr i) var)) :=
    (cut_write_variable _ _).onPart (fun _ => rfl) fun _ _ => rfl
  have hinterrupted : CutByFates Board.flash
      (onCut (Board.interrupt · (virtAddr i) var)
        (onPart eepromPart (eeWriteVariable (virtAddr i) var))) := by
    intro b
    rw [wp_onCut]
    exact hwrite b
  apply hinterrupted.bind
  intro status
  refine (cut_modify fun b => ?_).bind fun _ => cut_pure status
  split <;> rfl

theorem cut_store_each (is : List ℕ) : CutByFates Board.flash (storeEach is) := by
  induction is with
  | nil => exact cut_pure _
  | cons i is ih =>
    apply cut_get
    intro b
    apply (cut_store_half_word i _).bind
    intro status
    split
    · exact ih
    · exact cut_pure _

theorem cut_write_all : CutByFates Board.flash configWriteAll :=
  cut_lock.bind fun _ => cut_clear_flag.bind fun _ => (cut_store_each _).bind fun _ =>
    cut_unlock.bind fun _ => cut_pure _

theorem cut_write_field (addr : UInt16) (data : ℕ → UInt8) (size : UInt8) :
    CutByFates Board.flash (configWriteField addr data size) := by
  unfold configWriteField
  apply cut_get
  intro b
  apply CutByFates.bind
  · apply cut_modify
    intro t
    rfl
  · intro _
    exact cut_lock.bind fun _ => cut_clear_flag.bind fun _ => (cut_store_each _).bind fun _ =>
      cut_unlock.bind fun _ => cut_pure _

end Configuration

end Battman
