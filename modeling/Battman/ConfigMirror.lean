import Battman.ConfigInit

/-! The stored configuration refines a plain array of 76 bytes while the power stays on and
no flash operation fails. -/
namespace PlainArray
open Float.Model

def numberAt (a : ℕ → UInt8) (i : ℕ) : UnpackedFloat :=
  Binary32.ofBits (UInt32.ofNat ((a i).toNat + 256 * (a (i + 1)).toNat +
    256 ^ 2 * (a (i + 2)).toNat + 256 ^ 3 * (a (i + 3)).toNat))

def numberByte (x : UnpackedFloat) (i : ℕ) : UInt8 :=
  UInt8.ofNat ((Binary32.toBits x).toNat / 256 ^ i)

def whole (n : UInt8) : UnpackedFloat := UnpackedFloat.ofUInt8 .binary32 n

def limited (lower upper : UnpackedFloat) (v : ℕ → UInt8) (i : ℕ) : UInt8 :=
  if 4 ≤ i then v i
  else if upper.lt (numberAt v 0) then numberByte upper i
  else if (numberAt v 0).lt lower then numberByte lower i
  else v i

/-- Four places of the array have limits: the number of cells at 1, the cutoff voltage of a cell
at 22, the cutoff current at 30 and the charge voltage, at most all the cells at their cutoff,
at 44. -/
def allowed (a : ℕ → UInt8) (addr : ℕ) (v : ℕ → UInt8) : ℕ → UInt8 :=
  match addr with
  | 1 => fun i => if i = 0 ∧ 12 < v 0 then 12 else v i
  | 22 => limited (whole 0) (whole 5) v
  | 30 => limited (whole 1) (whole 150) v
  | 44 => limited (whole 0) (Binary32.scale (a 1) (numberAt a 22)) v
  | _ => v

/-- The bytes from `addr` up to `addr + size` take the value, the others stay. -/
def write (a : ℕ → UInt8) (addr size : ℕ) (v : ℕ → UInt8) (k : ℕ) : UInt8 :=
  if k ∈ Set.Ico addr (addr + size) then allowed a addr v (k - addr) else a k

end PlainArray

namespace Battman
open CutLogic Float.Model

def Call.plain : Call → (ℕ → UInt8) → ℕ → UInt8
  | .init, a => a
  | .writeField addr data size, a => PlainArray.write a addr.toNat size.toNat data
  | .writeAll, a => a

def Call.InBounds : Call → Prop
  | .writeField addr _ size => addr.toNat + size.toNat ≤ sizeofConfig
  | _ => True

def SameBytes (config a : ℕ → UInt8) : Prop := ∀ i < sizeofConfig, config i = a i

def BlankPages (mem : Memory) : Prop := ∀ p a, InPage p a → mem a = erased

def steady : Fates := fun _ _ => .completes

/-- No flash operation was refused, and every half-word of a slot was erased when it was
programmed. -/
def Board.Clean (b : Board) : Prop :=
  ∀ op ∈ b.eeprom.flash.history, op.result = .complete ∧ op.Fresh

def Board.after (b : Board) (cs : List Call) : Board :=
  cs.foldl (fun b c => (b.perform steady c).2) b

/-- The pages hold the configuration in RAM, which is the array `a`. -/
structure Mirror (a : ℕ → UInt8) (b : Board) : Prop where
  pages : ∃ A p V, Holds b.eeprom.flash.mem A ∧ Normal V p A ∧ Mirrored b.config V
  same : SameBytes b.config a

variable {fates : Fates} {V W : Values} {b t : Board} {a config config' : ℕ → UInt8}

section Writes

open PlainArray

theorem number_at (p : ℕ → UInt8) (i : ℕ) : numberAt p i = loadFloat fun k => p (i + k) := by
  have hword : loadWord (fun k => p (i + k)) = UInt32.ofNat ((p i).toNat +
      256 * (p (i + 1)).toNat + 256 ^ 2 * (p (i + 2)).toNat + 256 ^ 3 * (p (i + 3)).toNat) := by
    apply UInt32.toNat_inj.mp
    have h := load_word_toNat fun k => p (i + k)
    have hlt := (loadWord fun k => p (i + k)).toNat_lt
    rw [h] at hlt ⊢
    exact (UInt32.toNat_ofNat_of_lt' hlt).symm
  rw [numberAt, loadFloat, hword]

theorem number_byte (x : UnpackedFloat) (p : ℕ → UInt8) {i : ℕ} (hi : i < 4) :
    overlay p (littleEndian (Binary32.toBits x)) i = numberByte x i := by
  apply UInt8.toNat_inj.mp
  rw [numberByte, UInt8.toNat_ofNat']
  interval_cases i <;>
    simp [overlay, littleEndian, UInt32.toNat_shiftRight, Nat.shiftRight_eq_div_pow]

theorem overlay_cells (data : ℕ → UInt8) :
    overlay data ((if 12 < data 0 then some [12] else none).getD []) =
      fun i => if i = 0 ∧ 12 < data 0 then 12 else data i := by
  funext i
  by_cases h : 12 < data 0
  · rw [if_pos h]
    cases i with
    | zero => exact (if_pos ⟨rfl, h⟩).symm
    | succ i => exact (if_neg fun hi => Nat.succ_ne_zero i hi.1).symm
  · rw [if_neg h, if_neg fun hi => h hi.2]
    rfl

theorem overlay_clamped (lower upper : UnpackedFloat) (data : ℕ → UInt8) :
    overlay data ((clampFloat upper lower data).getD []) = limited lower upper data := by
  have hnumber : numberAt data 0 = loadFloat data := by
    rw [number_at]
    simp only [Nat.zero_add]
  funext i
  by_cases hi : 4 ≤ i
  · rw [limited, if_pos hi, clampFloat]
    split_ifs <;> exact List.getD_eq_default _ _ (by simp [littleEndian, hi])
  · rw [limited, if_neg hi, hnumber, clampFloat]
    split_ifs
    · exact number_byte upper data (not_le.mp hi)
    · exact number_byte lower data (not_le.mp hi)
    · rfl

theorem overlay_allowed (config data : ℕ → UInt8) (addr : ℕ) :
    overlay data ((clampValue config addr data).getD []) = allowed config addr data := by
  have hcells : fieldAt config .numCells 0 = config 1 := rfl
  have hcutoff : loadFloat (fieldAt config .highVoltageCutoff) = numberAt config 22 :=
    (number_at config 22).symm
  have hpack : packLimit config = Binary32.scale (config 1) (numberAt config 22) := by
    rw [packLimit, hcells, hcutoff]
  unfold allowed
  split
  · exact overlay_cells data
  · exact overlay_clamped _ _ data
  · exact overlay_clamped _ _ data
  · rw [← hpack]
    exact overlay_clamped _ _ data
  · rename_i hcells hcutoff hcurrent hvoltage
    have hnone : clampValue config addr data = none :=
      (if_neg hcells).trans <| (if_neg hcutoff).trans <| (if_neg hvoltage).trans <|
        if_neg hcurrent
    rw [hnone]
    rfl

/-- The checks of config_write_field and the copy are a write to the array. -/
theorem field_written_array (config : ℕ → UInt8) (addr : UInt16) (data : ℕ → UInt8)
    (size : UInt8) :
    fieldWritten config addr data size = write config addr.toNat size.toNat data := by
  funext k
  rw [fieldWritten, overlay_allowed]
  rfl

end Writes

theorem steady_sound : steady.Sound := fun _ _ => Or.inl rfl

theorem page_erased {mem : Memory} {p : Page}
    (h : ∀ k < pageSize / 2, mem (p.base + 2 * k) = erased) : PageIs mem p ⟨erased, []⟩ := by
  have hslot {i : ℕ} (hi : i < slots) :
      mem (p.base + 4 * (i + 1)) = erased ∧ mem (p.base + 4 * (i + 1) + 2) = erased := by
    unfold slots at hi
    have h₀ := h (2 * (i + 1)) (by unfold pageSize; omega)
    have h₁ := h (2 * (i + 1) + 1) (by unfold pageSize; omega)
    rw [show p.base + 2 * (2 * (i + 1)) = p.base + 4 * (i + 1) by omega] at h₀
    rw [show p.base + 2 * (2 * (i + 1) + 1) = p.base + 4 * (i + 1) + 2 by omega] at h₁
    exact ⟨h₀, h₁⟩
  exact ⟨h 0 (by decide), Nat.zero_le _, fun i hi => (hslot hi).2, fun i hi => (hslot hi).1,
    by simp⟩

theorem holds_blank {mem : Memory} (h : BlankPages mem) : Holds mem fun _ => ⟨erased, []⟩ := by
  intro p
  apply page_erased
  intro k hk
  apply h p
  unfold InPage pageSize at *
  omega

theorem same_of_half_words
    (h : ∀ i < sizeofConfig / 2, halfWordAt config i = halfWordAt config' i) :
    SameBytes config config' := by
  intro k hk
  rw [half_word_byte config, half_word_byte config', h (k / 2) (by unfold sizeofConfig at *; omega)]

theorem mirrored_congr (h : SameBytes config config') (hV : Mirrored config V) :
    Mirrored config' V := by
  intro i hi
  unfold sizeofConfig at hi
  rw [hV i hi, half_word_at_congr (h _ (by unfold sizeofConfig; omega))
    (h _ (by unfold sizeofConfig; omega))]

theorem field_at_same (h : SameBytes config config') (f : Field) {i : ℕ} (hi : i < f.size) :
    fieldAt config f i = fieldAt config' f i := by
  refine h _ ?_
  have hf : f.offset + f.size ≤ sizeofConfig := by cases f <;> decide
  omega

theorem clamp_value_same (h : SameBytes config config') :
    clampValue config = clampValue config' := by
  have hp : packLimit config = packLimit config' := by
    have hf {i : ℕ} (hi : i < 4) := field_at_same h .highVoltageCutoff (i := i) hi
    rw [packLimit, packLimit, field_at_same h .numCells (by decide), loadFloat, loadFloat, loadWord,
      loadWord, hf (by decide), hf (by decide), hf (by decide), hf (by decide)]
  funext addr data
  rw [clampValue, clampValue, hp]

theorem same_field_written (h : SameBytes config config') (addr : UInt16) (data : ℕ → UInt8)
    (size : UInt8) :
    SameBytes (fieldWritten config addr data size) (fieldWritten config' addr data size) := by
  intro i hi
  rw [fieldWritten, fieldWritten, clamp_value_same h, copyBytes, copyBytes, h i hi]

theorem SameBytes.plain (h : SameBytes config config') (c : Call) :
    SameBytes (c.plain config) (c.plain config') := by
  cases c with
  | init => exact h
  | writeField addr data size =>
    rw [Call.plain, Call.plain, ← field_written_array, ← field_written_array]
    exact same_field_written h addr data size
  | writeAll => exact h

theorem mirrored_write_all
    (h : Stored config (List.range (sizeofConfig / 2)) V W b t) : Mirrored config W :=
  fun i hi => h.values i (List.mem_range.mpr hi)

theorem mirrored_write_field {addr : UInt16} {data : ℕ → UInt8} {size : UInt8}
    (hV : Mirrored config V)
    (h : Stored (fieldWritten config addr data size) (fieldHalfWords addr.toNat size.toNat)
      V W b t) : Mirrored (fieldWritten config addr data size) W := by
  intro i hi
  by_cases hm : i ∈ fieldHalfWords addr.toNat size.toNat
  · exact h.values i hm
  · have hout {k : ℕ} (hk : k / 2 = i) : ¬ (addr.toNat ≤ k ∧ k < addr.toNat + size.toNat) := by
      rw [mem_field_half_words] at hm
      omega
    have hai := addressable_range i (List.mem_range.mpr hi)
    have hother (j : ℕ) (hj : j ∈ fieldHalfWords addr.toNat size.toNat) :
        virtAddr j ≠ virtAddr i := fun he =>
      hm (virt_addr_inj (addressable_field addr size j hj) hai he ▸ hj)
    rw [h.others _ hother, hV i hi]
    refine congrArg some (half_word_at_congr ?_ ?_).symm
    · exact if_neg (hout (by omega))
    · exact if_neg (hout (by omega))

theorem InUse.clean (h : InUse steady V b) : b.Clean := by
  obtain ⟨A, p, hr, -⟩ := h
  exact fun op hop => ⟨hr.flash.history (fun _ _ => rfl) op hop, hr.flash.fresh op hop⟩

theorem InUse.mirror (h : InUse fates V b) (hV : Mirrored b.config V) (hs : SameBytes b.config a) :
    Mirror a b := by
  obtain ⟨A, p, hr, hA⟩ := h
  exact ⟨⟨A, p, V, hr.pages, hA, hV⟩, hs⟩

theorem steady_returns {α : Type} {x : BoardM α} {Q : α → Board → Prop}
    (h : wp x Q (fun t => steady t.eeprom.flash.mem t.eeprom.flash.history = .cut) b) :
    ∃ r t, exec x b = (some r, t) ∧ Q r t :=
  wp_returns (wp_mono h (fun _ _ h => h) fun _ h => by cases h)

theorem init_blank (h : BlankPages b.eeprom.flash.mem) :
    ∃ t, b.perform steady .init = (some false, t) ∧ t.Clean ∧
      Mirror (overlay (fun _ => 0) defaultConfiguration) t := by
  have hrun := wp_init_format (b := (b.under steady).powerUp) steady_sound (holds_blank h) rfl
    rfl (Or.inl fun _ => rfl)
  obtain ⟨r, t, he, rfl, hc, W, hW, hs⟩ := steady_returns hrun
  refine ⟨t, he, hW.clean, hW.mirror (mirrored_write_all hs) ?_⟩
  rw [hc]
  exact fun _ _ => rfl

/-- One call: it succeeds without a refused flash operation, and the board mirrors the
array that the call makes. -/
theorem mirror_step (h : Mirror a b) {c : Call} (hc : c.InBounds) :
    ∃ t, b.perform steady c = (some true, t) ∧ t.Clean ∧ Mirror (c.plain a) t := by
  obtain ⟨⟨A, p, V, hold, hA, hV⟩, hs⟩ := h
  have hrest : AtRest steady V (b.under steady) := ⟨⟨A, p, hold, hA⟩, rfl, rfl⟩
  have hcut {V : Values} {b t : Board} (h : CutSafe steady V b t) :
      steady t.eeprom.flash.mem t.eeprom.flash.history = .cut := h.1
  cases c with
  | init =>
    have hrun := wp_init_found (b := (b.under steady).powerUp) ⟨hrest.pages, rfl, rfl⟩
      steady_sound hV
    obtain ⟨r, t, he, rfl, hW, hv⟩ := steady_returns hrun
    have hsame : SameBytes b.config t.config := same_of_half_words fun i hi => (hv i hi).symm
    refine ⟨t, he, hW.clean, hW.mirror (mirrored_congr hsame hV) fun i hi => ?_⟩
    rw [← hsame i hi]
    exact hs i hi
  | writeField addr data size =>
    have hrun := wp_mono (wp_call_write_field (hrest.inUse steady_sound) addr data size)
      (fun _ _ h => h) fun _ h => hcut h
    obtain ⟨r, t, he, rfl, W, hW, hst⟩ := steady_returns hrun
    refine ⟨t, he, hW.clean, hW.mirror ?_ ?_⟩
    · rw [hst.config]
      exact mirrored_write_field hV hst
    · rw [hst.config, Call.plain, ← field_written_array]
      exact same_field_written hs addr data size
  | writeAll =>
    have hrun := wp_mono (wp_write_all (hrest.inUse steady_sound)) (fun _ _ h => h)
      fun _ h => hcut h
    obtain ⟨r, t, he, rfl, W, hW, hst⟩ := steady_returns hrun
    refine ⟨t, he, hW.clean, hW.mirror ?_ ?_⟩
    · rw [hst.config]
      exact mirrored_write_all hst
    · rw [hst.config]
      exact hs

theorem mirror_run (h : Mirror a b) (cs : List Call) (hcs : ∀ c ∈ cs, c.InBounds) :
    Mirror (cs.foldl (fun a c => c.plain a) a) (b.after cs) := by
  induction cs generalizing a b with
  | nil => exact h
  | cons c cs ih =>
    obtain ⟨t, ht, -, hm⟩ := mirror_step h (hcs c List.mem_cons_self)
    rw [List.foldl_cons, Board.after, List.foldl_cons, ht]
    exact ih hm fun c' hc' => hcs c' (List.mem_cons_of_mem _ hc')

/-- From erased pages, config_init and any calls after it: every call returns true with no
flash operation refused, the configuration in RAM is the array that the calls make, and a
reset reproduces it. -/
theorem configuration_store_refines_array (b : Board) (hb : BlankPages b.eeprom.flash.mem)
    (cs : List Call) (hcs : ∀ c ∈ cs, c.InBounds) :
    ∃ s, b.perform steady .init = (some false, s) ∧ s.Clean ∧
      (∀ cs₁ c cs₂, cs = cs₁ ++ c :: cs₂ →
        ∃ t, (s.after cs₁).perform steady c = (some true, t) ∧ t.Clean) ∧
      SameBytes (s.after cs).config
        (cs.foldl (fun a c => c.plain a) (overlay (fun _ => 0) defaultConfiguration)) ∧
      ∃ t, (s.after cs).perform steady .init = (some true, t) ∧ t.Clean ∧
        SameBytes t.config (s.after cs).config := by
  obtain ⟨s, hs, hclean, hm⟩ := init_blank hb
  refine ⟨s, hs, hclean, ?_, (mirror_run hm cs hcs).same, ?_⟩
  · rintro cs₁ c cs₂ rfl
    have hpre := mirror_run hm cs₁ fun c' hc' => hcs c' (List.mem_append_left _ hc')
    obtain ⟨t, ht, hc, -⟩ := mirror_step hpre (hcs c (by simp))
    exact ⟨t, ht, hc⟩
  · have hpost := mirror_run hm cs hcs
    obtain ⟨t, ht, hc, hmt⟩ := mirror_step hpost (c := .init) trivial
    exact ⟨t, ht, hc, fun i hi => (hmt.same i hi).trans (hpost.same i hi).symm⟩

def blankBoard : Board where
  eeprom := ⟨⟨fun _ => erased, .complete, steady, []⟩, 0⟩
  config := fun _ => 0
  lockCnt := 0
  overcurrent := []
  ledger := fun _ => ⟨none, []⟩
  writes := []

/-- A field written across two others at an odd address, a reset, and a write of all. -/
theorem configuration_store_refines_array_odd_field :
    ∃ s, blankBoard.perform steady .init = (some false, s) ∧ s.Clean ∧
      (∀ cs₁ c cs₂, [.writeField 5 (fun _ => 7) 3, .init, .writeAll] = cs₁ ++ c :: cs₂ →
        ∃ t, (s.after cs₁).perform steady c = (some true, t) ∧ t.Clean) ∧
      SameBytes (s.after [.writeField 5 (fun _ => 7) 3, .init, .writeAll]).config
        ([Call.writeField 5 (fun _ => 7) 3, .init, .writeAll].foldl (fun a c => c.plain a)
          (overlay (fun _ => 0) defaultConfiguration)) ∧
      ∃ t, (s.after [.writeField 5 (fun _ => 7) 3, .init, .writeAll]).perform steady .init =
          (some true, t) ∧ t.Clean ∧
        SameBytes t.config
          (s.after [.writeField 5 (fun _ => 7) 3, .init, .writeAll]).config :=
  configuration_store_refines_array blankBoard (fun _ _ _ => rfl)
    [.writeField 5 (fun _ => 7) 3, .init, .writeAll]
    (by simp [Call.InBounds, sizeofConfig])

end Battman
