import Battman.Config

/-! What the functions of config.c do to the stored values. -/
namespace Battman
open CutLogic

/-- A value the ledger accounts for: the last one written completely, or one whose write a
cut interrupted since. -/
def Allowed (ledger : UInt16 → Ledger) (v : UInt16) (o : Option UInt16) : Prop :=
  ∃ d, o = some d ∧ ((ledger v).written = some d ∨ d ∈ (ledger v).interrupted)

def InUse (fates : Fates) (V : Values) (b : Board) : Prop :=
  ∃ A p, Ready fates A b.eeprom ∧ Normal V p A

structure Stored (config : ℕ → UInt8) (is : List ℕ) (V W : Values) (b t : Board) : Prop where
  values : ∀ i ∈ is, W (virtAddr i) = some (halfWordAt config i)
  others : ∀ v, (∀ j ∈ is, virtAddr j ≠ v) → W v = V v
  ledger : ∀ i ∈ is, t.ledger (virtAddr i) = ⟨some (halfWordAt config i), []⟩
  ledgerOthers : ∀ v, (∀ j ∈ is, virtAddr j ≠ v) → t.ledger v = b.ledger v
  config : t.config = b.config

/-- What a cut leaves, if the ledger accounted for the values before. -/
def CutSafe (fates : Fates) (V : Values) (b t : Board) : Prop :=
  fates t.eeprom.flash.mem t.eeprom.flash.history = .cut ∧
    (Agrees (Allowed b.ledger) V →
      ∃ A, Safe (Allowed t.ledger) A ∧ Holds t.eeprom.flash.mem A)

variable {fates : Fates} {V W : Values} {b t : Board} {i : ℕ} {is : List ℕ}
  {config : ℕ → UInt8}

def Addressable (is : List ℕ) : Prop := ∀ i ∈ is, eepromBase + i < 65535

theorem virt_addr_inj {j : ℕ} (hi : eepromBase + i < 65535) (hj : eepromBase + j < 65535)
    (h : virtAddr i = virtAddr j) : i = j := by
  have h₁ := virt_addr_toNat (i := i) (by omega)
  have h₂ := virt_addr_toNat (i := j) (by omega)
  rw [h] at h₁
  omega

theorem Stored.agrees (h : Stored config is V W b t) (hV : Agrees (Allowed b.ledger) V) :
    Agrees (Allowed t.ledger) W := by
  intro v hv
  by_cases hm : ∃ i ∈ is, virtAddr i = v
  · obtain ⟨i, hi, rfl⟩ := hm
    rw [h.values i hi]
    exact ⟨_, rfl, Or.inl (by rw [h.ledger i hi])⟩
  · have hn : ∀ i ∈ is, virtAddr i ≠ v := fun i hi he => hm ⟨i, hi, he⟩
    obtain ⟨d, hd, hl⟩ := hV v hv
    exact ⟨d, by rw [h.others v hn, hd], by rwa [h.ledgerOthers v hn]⟩

theorem Stored.nil (b : Board) : Stored config [] V V b b where
  values _ hi := absurd hi List.not_mem_nil
  others _ _ := rfl
  ledger _ hi := absurd hi List.not_mem_nil
  ledgerOthers _ _ := rfl
  config := rfl

theorem Stored.cons {u : Board} {V' : Values} (ha : Addressable (i :: is))
    (h₁ : Stored config [i] V V' b t) (h₂ : Stored config is V' W t u) :
    Stored config (i :: is) V W b u := by
  have hi := ha i List.mem_cons_self
  have hsingle {v : UInt16} (h : ∀ j ∈ i :: is, virtAddr j ≠ v) : ∀ j ∈ [i], virtAddr j ≠ v := by
    intro j hj
    rw [List.mem_singleton.mp hj]
    exact h i List.mem_cons_self
  refine ⟨?_, ?_, ?_, ?_, h₂.config.trans h₁.config⟩
  · intro j hj
    by_cases hm : j ∈ is
    · exact h₂.values j hm
    · obtain rfl : j = i := (List.mem_cons.mp hj).resolve_right hm
      rw [h₂.others _ fun k hk he =>
        hm (virt_addr_inj (ha k (List.mem_cons_of_mem _ hk)) hi he ▸ hk)]
      exact h₁.values j (List.mem_singleton_self j)
  · intro v hv
    rw [h₂.others v fun j hj => hv j (List.mem_cons_of_mem _ hj), h₁.others v (hsingle hv)]
  · intro j hj
    by_cases hm : j ∈ is
    · exact h₂.ledger j hm
    · obtain rfl : j = i := (List.mem_cons.mp hj).resolve_right hm
      rw [h₂.ledgerOthers _ fun k hk he =>
        hm (virt_addr_inj (ha k (List.mem_cons_of_mem _ hk)) hi he ▸ hk)]
      exact h₁.ledger j (List.mem_singleton_self j)
  · intro v hv
    rw [h₂.ledgerOthers v fun j hj => hv j (List.mem_cons_of_mem _ hj),
      h₁.ledgerOthers v (hsingle hv)]

theorem agrees_interrupt {v d : UInt16} (hV : Agrees (Allowed b.ledger) V) :
    Agrees (Allowed (b.interrupt v d).ledger) V ∧
      Agrees (Allowed (b.interrupt v d).ledger) (Function.update V v (some d)) := by
  have hV' : Agrees (Allowed (b.interrupt v d).ledger) V := by
    intro w hw
    obtain ⟨x, hx, hl⟩ := hV w hw
    refine ⟨x, hx, ?_⟩
    by_cases he : w = v
    · subst he
      simp only [Board.interrupt, Function.update_self]
      exact hl.imp id (List.mem_cons_of_mem d)
    · simpa only [Board.interrupt, Function.update_of_ne he] using hl
  refine ⟨hV', fun w hw => ?_⟩
  by_cases he : w = v
  · subst he
    refine ⟨d, Function.update_self .., Or.inr ?_⟩
    simp only [Board.interrupt, Function.update_self]
    exact List.mem_cons_self
  · rw [Function.update_of_ne he]
    exact hV' w hw

theorem wp_store_half_word {var : UInt16} (h : InUse fates V b)
    (hi : eepromBase + i < 65535) (hvar : var = halfWordAt config i) :
    wp (storeHalfWord i var)
      (fun st t => st = .complete ∧ ∃ W, InUse fates W t ∧ Stored config [i] V W b t)
      (CutSafe fates V b) b := by
  obtain ⟨A, p, hr, hA⟩ := h
  have hmem {v : UInt16} (hv : ∀ j ∈ [i], virtAddr j ≠ v) : v ≠ virtAddr i :=
    (hv i (List.mem_singleton_self i)).symm
  let ok (v : UInt16) (o : Option UInt16) : Prop :=
    Agrees (Allowed b.ledger) V → Allowed (b.interrupt (virtAddr i) var).ledger v o
  have hV : Agrees ok V := fun v hv hV => (agrees_interrupt hV).1 v hv
  have hW : Agrees ok (Function.update V (virtAddr i) (some var)) := fun v hv hV =>
    (agrees_interrupt hV).2 v hv
  have hwrite := write_variable (virt_addr_ne_erased hi) hV hW A b.eeprom ⟨p, hA⟩ hr
  simp only [storeHalfWord, wp_bind, wp_onCut, wp_onPart, wp_modify, wp_pure]
  refine wp_mono hwrite ?_ ?_
  · rintro st e ⟨B, ⟨rfl, q, hB⟩, ht⟩
    rw [if_pos rfl]
    refine ⟨rfl, _, ⟨B, q, ht, hB⟩, ⟨?_, ?_, ?_, ?_, rfl⟩⟩
    · intro j hj
      rw [List.mem_singleton.mp hj, Function.update_self, hvar]
    · exact fun v hv => Function.update_of_ne (hmem hv) ..
    · intro j hj
      rw [List.mem_singleton.mp hj, ← hvar]
      exact Function.update_self ..
    · exact fun v hv => Function.update_of_ne (hmem hv) ..
  · rintro e ⟨hcut, B, hB, hold⟩
    exact ⟨hcut, fun hV => ⟨B, hB.mono fun v o h => h hV, hold⟩⟩

theorem CutSafe.trans {u : Board} (h : Stored config is V W b t) (hc : CutSafe fates W t u) :
    CutSafe fates V b u :=
  ⟨hc.1, fun hV => hc.2 (h.agrees hV)⟩

theorem wp_store_each (h : InUse fates V b) (ha : Addressable is) :
    wp (storeEach is)
      (fun isOk t => isOk = true ∧ ∃ W, InUse fates W t ∧ Stored b.config is V W b t)
      (CutSafe fates V b) b := by
  induction is generalizing V b with
  | nil => exact ⟨rfl, V, h, Stored.nil b⟩
  | cons i is ih =>
    simp only [storeEach, wp_bind, wp_get]
    refine wp_mono (wp_store_half_word h (ha i List.mem_cons_self) rfl) ?_ fun _ ht => ht
    rintro st t ⟨rfl, V', ht, hs⟩
    rw [if_pos rfl]
    refine wp_mono (ih ht fun j hj => ha j (List.mem_cons_of_mem _ hj)) ?_
      fun u hu => hu.trans hs
    rintro isOk u ⟨rfl, W, hu, hs'⟩
    rw [hs.config] at hs'
    exact ⟨rfl, W, hu, hs.cons ha hs'⟩

section Calls

variable {Q : Unit → Board → Prop} {C : Board → Prop}

/-- Pages with the values `V` in a flash that starts a call under `fates`. -/
structure AtRest (fates : Fates) (V : Values) (b : Board) : Prop where
  pages : ∃ A p, Holds b.eeprom.flash.mem A ∧ Normal V p A
  fates_eq : b.eeprom.flash.fates = fates
  history : b.eeprom.flash.history = []

def Board.cleared (b : Board) : Board :=
  { b with eeprom := { b.eeprom with flash := { b.eeprom.flash with status := .complete } } }

@[simp] theorem wp_clear_flag : wp clearFlag Q C b ↔ Q ⟨⟩ b.cleared := by
  simp only [clearFlag, flashClearFlag, wp_onPart, wp_modify]
  rfl

theorem ready_cleared {A : Pages} (hs : fates.Sound) (h : Holds b.eeprom.flash.mem A)
    (hf : b.eeprom.flash.fates = fates) (hh : b.eeprom.flash.history = []) :
    Ready fates A b.cleared.eeprom :=
  ⟨h, serviceable_start rfl hf hs hh⟩

theorem AtRest.inUse (h : AtRest fates V b) (hs : fates.Sound) : InUse fates V b.cleared := by
  obtain ⟨A, p, hold, hA⟩ := h.pages
  exact ⟨A, p, ready_cleared hs hold h.fates_eq h.history, hA⟩

theorem addressable_range : Addressable (List.range (sizeofConfig / 2)) := by
  intro i hi
  have := List.mem_range.mp hi
  unfold sizeofConfig at this
  unfold eepromBase
  omega

theorem mem_field_half_words {addr size : ℕ} :
    i ∈ fieldHalfWords addr size ↔ addr / 2 ≤ i ∧ 2 * i < addr + size := by
  rw [fieldHalfWords, List.mem_range'_1]
  omega

theorem addressable_field (addr : UInt16) (size : UInt8) :
    Addressable (fieldHalfWords addr.toNat size.toNat) := by
  intro i hi
  have := (mem_field_half_words.mp hi).2
  have := addr.toNat_lt
  have := size.toNat_lt
  unfold eepromBase
  omega

theorem wp_write_all (h : InUse fates V b.cleared) :
    wp configWriteAll
      (fun isOk t => isOk = true ∧
        ∃ W, InUse fates W t ∧ Stored b.config (List.range (sizeofConfig / 2)) V W b t)
      (CutSafe fates V b) b := by
  simp only [configWriteAll, utilsSysLockCnt, utilsSysUnlockCnt, wp_bind, wp_modify,
    wp_clear_flag, wp_pure]
  let b' := { b with lockCnt := b.lockCnt + 1 }
  refine wp_mono (wp_store_each (b := b'.cleared) h addressable_range) ?_ fun _ ht => ht
  rintro isOk t ⟨rfl, W, ht, hs⟩
  exact ⟨rfl, W, ht, hs.values, hs.others, hs.ledger, hs.ledgerOthers, hs.config⟩

def fieldWritten (config : ℕ → UInt8) (addr : UInt16) (data : ℕ → UInt8) (size : UInt8) :
    ℕ → UInt8 :=
  copyBytes config addr.toNat size.toNat
    (overlay data ((clampValue config addr.toNat data).getD []))

theorem wp_write_field (h : InUse fates V b.cleared) (addr : UInt16) (data : ℕ → UInt8)
    (size : UInt8) :
    wp (configWriteField addr data size)
      (fun r t => r = (true, overlay data ((clampValue b.config addr.toNat data).getD [])) ∧
        ∃ W, InUse fates W t ∧
          Stored (fieldWritten b.config addr data size) (fieldHalfWords addr.toNat size.toNat)
            V W { b with config := fieldWritten b.config addr data size } t)
      (CutSafe fates V b) b := by
  simp only [configWriteField, utilsSysLockCnt, utilsSysUnlockCnt, wp_bind, wp_get, wp_modify,
    wp_clear_flag, wp_pure]
  refine wp_mono (wp_store_each (V := V) h (addressable_field addr size)) ?_ fun _ ht => ht
  rintro isOk t ⟨rfl, W, ht, hs⟩
  exact ⟨rfl, W, ht, hs.values, hs.others, hs.ledger, hs.ledgerOthers, hs.config⟩

theorem wp_call_write_field (h : InUse fates V b.cleared) (addr : UInt16) (data : ℕ → UInt8)
    (size : UInt8) :
    wp (Call.writeField addr data size).run
      (fun isOk t => isOk = true ∧ ∃ W, InUse fates W t ∧
        Stored (fieldWritten b.config addr data size) (fieldHalfWords addr.toNat size.toNat) V W
          { b with config := fieldWritten b.config addr data size } t)
      (CutSafe fates V b) b := by
  rw [Call.run, wp_map]
  refine wp_mono (wp_write_field h addr data size) ?_ fun _ ht => ht
  rintro r t ⟨rfl, ht⟩
  exact ⟨rfl, ht⟩

end Calls

section Load

def Readable (V : Values) (mem : Memory) : Prop :=
  ∃ A p, Holds mem A ∧ (A p).header = validPage ∧ (A p.other).header ≠ validPage ∧
    Stores V (A p).log

theorem read_variable {mem : Memory} (h : Readable V mem) {v : UInt16} (hv : v ∈ configVars) :
    eeReadVariable mem v = .ofOption (V v) := by
  obtain ⟨A, p, hold, hp, ho, hs⟩ := h
  rw [read_latest hold (config_var_ne_erased hv) (find_read hold hp ho), hs v hv]

theorem half_word_byte (config : ℕ → UInt8) (k : ℕ) :
    config k = if k % 2 = 0 then hiByte (halfWordAt config (k / 2))
      else loByte (halfWordAt config (k / 2)) := by
  unfold halfWordAt
  split_ifs with h
  · rw [hi_byte_word]
    congr 1
    omega
  · rw [lo_byte_word]
    congr 1
    omega

theorem half_word_at_congr {config' : ℕ → UInt8} (h₀ : config' (2 * i) = config (2 * i))
    (h₁ : config' (2 * i + 1) = config (2 * i + 1)) :
    halfWordAt config' i = halfWordAt config i := by
  rw [halfWordAt, halfWordAt, h₀, h₁]

theorem half_word_loaded (b : Board) (i : ℕ) (var : UInt16) :
    halfWordAt (b.loadHalfWord i var).config i = var := by
  simp only [halfWordAt, Board.loadHalfWord]
  rw [Function.update_of_ne (by omega), Function.update_self, Function.update_self, word_bytes]

theorem half_word_load_other (b : Board) {i j : ℕ} (h : j ≠ i) (var : UInt16) :
    halfWordAt (b.loadHalfWord i var).config j = halfWordAt b.config j := by
  refine half_word_at_congr ?_ ?_ <;> simp only [Board.loadHalfWord]
  · rw [Function.update_of_ne (by omega), Function.update_of_ne (by omega)]
  · rw [Function.update_of_ne (by omega), Function.update_of_ne (by omega)]

def Loaded (b t : Board) : Prop := t = { b with config := t.config }

theorem wp_load_each {d : ℕ → UInt16}
    (hd : ∀ i ∈ is, eeReadVariable b.eeprom.flash.mem (virtAddr i) = .found (d i)) :
    wp (loadEach is)
      (fun isOk t => isOk = true ∧ Loaded b t ∧
        ∀ i, (i ∈ is → halfWordAt t.config i = d i) ∧
          (i ∉ is → halfWordAt t.config i = halfWordAt b.config i))
      (fun _ => False) b := by
  induction is generalizing b with
  | nil => exact ⟨rfl, rfl, fun i => ⟨fun hi => absurd hi List.not_mem_nil, fun _ => rfl⟩⟩
  | cons i is ih =>
    simp only [loadEach, wp_bind, wp_get, hd i List.mem_cons_self, wp_modify]
    refine wp_mono (ih (b := b.loadHalfWord i (d i))
      fun j hj => hd j (List.mem_cons_of_mem _ hj)) ?_ fun _ h => h
    rintro isOk t ⟨rfl, ht, hv⟩
    refine ⟨rfl, ht, fun j => ⟨fun hj => ?_, fun hj => ?_⟩⟩
    · by_cases hm : j ∈ is
      · exact (hv j).1 hm
      · obtain rfl : j = i := (List.mem_cons.mp hj).resolve_right hm
        rw [(hv j).2 hm, half_word_loaded]
    · rw [(hv j).2 fun hm => hj (List.mem_cons_of_mem _ hm),
        half_word_load_other b (List.ne_of_not_mem_cons hj)]

/-- A half-word that is not found ends the loading, with part of the others loaded. -/
theorem wp_load_missing
    (h : ∃ i ∈ is, ∀ d, eeReadVariable b.eeprom.flash.mem (virtAddr i) ≠ .found d) :
    wp (loadEach is)
      (fun isOk t => isOk = false ∧ Loaded b t ∧
        ∀ k, k / 2 ∉ is → t.config k = b.config k)
      (fun _ => False) b := by
  induction is generalizing b with
  | nil =>
    obtain ⟨i, hi, -⟩ := h
    exact absurd hi List.not_mem_nil
  | cons i is ih =>
    simp only [loadEach, wp_bind, wp_get]
    cases hr : eeReadVariable b.eeprom.flash.mem (virtAddr i) with
    | found d =>
      obtain ⟨j, hj, hmiss⟩ := h
      have hj' : j ∈ is := by
        apply (List.mem_cons.mp hj).resolve_left
        intro he
        exact hmiss d (he ▸ hr)
      simp only [wp_bind, wp_modify]
      refine wp_mono (ih (b := b.loadHalfWord i d) ⟨j, hj', hmiss⟩) ?_ fun _ h => h
      rintro isOk t ⟨rfl, ht, hk⟩
      refine ⟨rfl, ht, fun k hm => ?_⟩
      have hne : k / 2 ≠ i := List.ne_of_not_mem_cons hm
      rw [hk k fun hm' => hm (List.mem_cons_of_mem _ hm'), Board.loadHalfWord]
      change Function.update (Function.update b.config (2 * i) _) (2 * i + 1) _ k = _
      rw [Function.update_of_ne (by omega), Function.update_of_ne (by omega)]
    | notFound => exact ⟨rfl, rfl, fun _ _ => rfl⟩
    | noValidPage => exact ⟨rfl, rfl, fun _ _ => rfl⟩

end Load

section Aside

variable {γ : Type} {f : Board → γ}

/-- Storing half-words leaves `f` alone. -/
structure Aside (f : Board → γ) : Prop where
  write : ∀ v d, Preserves f (onPart eepromPart (eeWriteVariable v d))
  cleared : ∀ b, f b.cleared = f b
  ledger : ∀ b l, f { b with ledger := l } = f b

/-- So does all else that is done to store and load the configuration. -/
structure Apart (f : Board → γ) : Prop extends Aside f where
  recovery : Preserves f (onPart eepromPart eeInit)
  powerUp : ∀ b, f b.powerUp = f b
  config : ∀ b c, f { b with config := c } = f b
  lockCnt : ∀ b n, f { b with lockCnt := n } = f b

theorem preserves_eeprom {α : Type} (h : ∀ b e, f { b with eeprom := e } = f b) (x : EepromM α) :
    Preserves f (onPart eepromPart x) := by
  intro b
  rw [wp_onPart]
  exact wp_mono (wp_true _ _) (fun _ e _ => h b e) fun e _ => h b e

/-- As is a part of the board that the flash is no part of. -/
theorem aside_of_eeprom (h : ∀ b e, f { b with eeprom := e } = f b)
    (hledger : ∀ b l, f { b with ledger := l } = f b) : Aside f where
  write _ _ := preserves_eeprom h _
  cleared b := h b _
  ledger := hledger

theorem aside_lock_cnt : Aside Board.lockCnt := aside_of_eeprom (fun _ _ => rfl) fun _ _ => rfl

theorem aside_config : Aside Board.config := aside_of_eeprom (fun _ _ => rfl) fun _ _ => rfl

theorem aside_writes : Aside Board.writes := aside_of_eeprom (fun _ _ => rfl) fun _ _ => rfl

theorem apart_overcurrent : Apart Board.overcurrent where
  toAside := aside_of_eeprom (fun _ _ => rfl) fun _ _ => rfl
  recovery := preserves_eeprom (fun _ _ => rfl) _
  powerUp _ := rfl
  config _ _ := rfl
  lockCnt _ _ := rfl

theorem preserves_clear_flag (h : ∀ b : Board, f b.cleared = f b) : Preserves f clearFlag := by
  intro b
  rw [wp_clear_flag]
  exact h b

theorem preserves_lock (h : ∀ b n, f { b with lockCnt := n } = f b) :
    Preserves f utilsSysLockCnt := preserves_modify fun b => h b _

theorem preserves_unlock (h : ∀ b n, f { b with lockCnt := n } = f b) :
    Preserves f utilsSysUnlockCnt := preserves_modify fun b => h b _

theorem Aside.store_half_word (h : Aside f) (var : UInt16) :
    Preserves f (storeHalfWord i var) := by
  apply ((h.write _ _).onCut fun b => h.ledger b _).bind
  intro status
  refine (preserves_modify fun b => ?_).bind fun _ => preserves_pure _
  split
  · exact h.ledger b _
  · rfl

theorem Aside.store_each (h : Aside f) : Preserves f (storeEach is) := by
  induction is with
  | nil => exact preserves_pure _
  | cons i is ih =>
    apply preserves_get
    intro b
    apply (h.store_half_word _).bind
    intro status
    split
    · exact ih
    · exact preserves_pure _

/-- What config_write_all and config_write_field do once the structure is written. -/
theorem Aside.store (h : Aside f) (hlock : ∀ b n, f { b with lockCnt := n } = f b) {α : Type}
    (g : Bool → α) : Preserves f (do
      utilsSysLockCnt
      clearFlag
      let isOk ← storeEach is
      utilsSysUnlockCnt
      pure (g isOk)) :=
  (preserves_lock hlock).bind fun _ => (preserves_clear_flag h.cleared).bind fun _ =>
    h.store_each.bind fun _ => (preserves_unlock hlock).bind fun _ => preserves_pure _

theorem Aside.write_all (h : Aside f) (hlock : ∀ b n, f { b with lockCnt := n } = f b) :
    Preserves f configWriteAll := h.store hlock id

theorem preserves_load (h : ∀ b c, f { b with config := c } = f b) :
    Preserves f (loadEach is) := by
  induction is with
  | nil => exact preserves_pure _
  | cons i is ih =>
    apply preserves_get
    intro b
    split
    · exact (preserves_modify fun b => h b _).bind fun _ => ih
    · exact preserves_pure _

theorem Apart.read_all (h : Apart f) : Preserves f configReadAll := by
  apply (preserves_load h.config).bind
  intro isOk
  split
  · exact preserves_pure _
  · refine (preserves_modify fun b => h.config b _).bind fun _ => ?_
    exact (h.toAside.write_all h.lockCnt).bind fun _ => preserves_pure _

theorem Apart.init (h : Apart f) : Preserves f Call.init.run :=
  (preserves_modify h.powerUp).bind fun _ => (preserves_clear_flag h.cleared).bind fun _ =>
    h.recovery.bind fun _ => h.read_all

end Aside

end Battman
