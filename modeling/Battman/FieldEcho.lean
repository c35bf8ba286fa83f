import Battman.EepromCuts
import Battman.SetField
import Battman.FieldNumbers

/-! A PACKET_CONFIG_SET_FIELD, its acknowledgement and the PACKET_CONFIG_GET_ALL after it: the
host is told what the board holds, whatever the flash does with it. -/
namespace Battman
open CutLogic Float.Model

def packetConfigGetAll : UInt8 := 0x0A

def processConfigGetAll : BoardM (List UInt8) := do
  note ⟨.packetSendBuffer, 0, 1⟩
  note ⟨.packetSendBuffer, 1, sizeofConfig⟩
  let b ← get
  packetSendPacket (1 + UInt32.ofNat sizeofConfig)
  pure (packetConfigGetAll :: (List.range sizeofConfig).map b.config)

/-- process_packet on the packets of the configuration, with the payload of the reply; `none`
for the packets of its other branches. -/
def processConfigPacket (stack data : ℕ → UInt8) (len : UInt32) : BoardM (Option (List UInt8)) :=
  let id := data 0
  if id = packetConfigSetField then
    some <$> processConfigSetField stack (fun i => data (i + 1)) (len - 1)
  else if id = packetConfigGetAll then some <$> processConfigGetAll
  else pure none

def setFieldRequest (f : Field) (value : ℕ → UInt8) : ℕ → UInt8
  | 0 => packetConfigSetField
  | 1 => hiByte (UInt16.ofNat f.offset)
  | 2 => loByte (UInt16.ofNat f.offset)
  | i + 3 => value (f.size - 1 - i)

def fieldBytes (config : ℕ → UInt8) (f : Field) : List UInt8 :=
  (List.range f.size).map (fieldAt config f)

/-- The value sent, or the limit of the field that it passes. -/
def acceptedBytes (config : ℕ → UInt8) (f : Field) (value : ℕ → UInt8) : List UInt8 :=
  (List.range f.size).map (PlainArray.allowed config f.offset value)

/-- From `b`, the value was taken over, and the host is told what the field now holds. -/
structure FieldEcho (b : Board) (f : Field) (value : ℕ → UInt8) (reply : List UInt8)
    (t : Board) : Prop where
  others : ∀ k, ¬ (f.offset ≤ k ∧ k < f.offset + f.size) → t.config k = b.config k
  stored : fieldBytes t.config f = acceptedBytes b.config f value
  acknowledged : reply = packetConfigSetField :: hiByte (UInt16.ofNat f.offset) ::
    loByte (UInt16.ofNat f.offset) :: (fieldBytes t.config f).reverse
  readBack : ∀ (stack data : ℕ → UInt8) (len : UInt32), data 0 = packetConfigGetAll →
    ∃ bytes u, exec (processConfigPacket stack data len) t =
        (some (some (packetConfigGetAll :: bytes)), u) ∧
      u.config = t.config ∧ (bytes.drop f.offset).take f.size = fieldBytes t.config f

variable {b : Board} {f : Field} {config p q : ℕ → UInt8} {bytes : List UInt8}

section Clamp

theorem clamp_value_congr (h : ∀ i < f.size, p i = q i) :
    clampValue config f.offset p = clampValue config f.offset q := by
  by_cases hf : f ∈ Field.checked
  · have hfloat (h4 : f.size = 4) : loadFloat p = loadFloat q := by
      rw [loadFloat, loadFloat, load_word_congr fun i hi => h i (h4 ▸ hi)]
    simp only [Field.checked, List.mem_cons, List.not_mem_nil, or_false] at hf
    simp only [clampValue, clampFloat]
    rcases hf with rfl | rfl | rfl | rfl
    · rw [h 0 (by decide)]
      rfl
    · rw [hfloat rfl]
      rfl
    · rw [hfloat rfl]
      rfl
    · rw [hfloat rfl]
      rfl
  · rw [clamp_value_unchecked hf, clamp_value_unchecked hf]

theorem clamp_value_length (h : clampValue config f.offset p = some bytes) :
    bytes.length = f.size := by
  by_cases hf : f ∈ Field.checked
  · simp only [Field.checked, List.mem_cons, List.not_mem_nil, or_false] at hf
    rcases hf with rfl | rfl | rfl | rfl
    · rw [clampValue, if_pos rfl] at h
      split_ifs at h
      obtain rfl := Option.some.inj h
      rfl
    · exact clamp_float_length h
    · exact clamp_float_length h
    · exact clamp_float_length h
  · rw [clamp_value_unchecked hf] at h
    cases h

theorem accepted_bytes (h : ∀ i < f.size, p i = q i) :
    (List.range f.size).map (overlay p ((clampValue config f.offset p).getD [])) =
      acceptedBytes config f q := by
  rw [acceptedBytes, ← overlay_allowed, clamp_value_congr h]
  apply List.map_congr_left
  intro i hi
  have hi' := List.mem_range.mp hi
  cases hc : clampValue config f.offset q with
  | none => exact h i hi'
  | some bytes =>
    have hlen : i < bytes.length := (clamp_value_length hc).symm ▸ hi'
    exact (List.getD_eq_getElem _ _ hlen).trans (List.getD_eq_getElem _ _ hlen).symm

end Clamp

section Echo

theorem request_field_size (f : Field) :
    (fieldSizes (UInt32.ofNat (2 + f.size))).field.toNat = f.size := by
  cases f <;> decide

theorem request_reply_size (f : Field) :
    (fieldSizes (UInt32.ofNat (2 + f.size))).reply.toNat = f.size := by
  cases f <;> decide

theorem wp_write_field_config (addr : UInt16) (data : ℕ → UInt8) (size : UInt8) :
    wp (configWriteField addr data size)
      (fun r t => r.2 = overlay data ((clampValue b.config addr.toNat data).getD []) ∧
        t.config = fieldWritten b.config addr data size)
      (fun t => b.flash.fates t.flash.mem t.flash.history = .cut) b := by
  have hrun : wp (configWriteField addr data size)
      (fun r t => r.2 = overlay data ((clampValue b.config addr.toNat data).getD []) ∧
        t.config = fieldWritten b.config addr data size) (fun _ => True) b := by
    simp only [configWriteField, utilsSysLockCnt, utilsSysUnlockCnt, wp_bind, wp_get, wp_modify,
      wp_clear_flag, wp_pure]
    refine wp_mono (aside_config.store_each _) (fun _ t ht => ⟨trivial, ht⟩)
      fun _ _ => trivial
  exact wp_mono (wp_and hrun (cut_write_field addr data size b)) (fun _ _ h => h.1) fun _ h => h.2

theorem reverse_range_map {α : Type} (g : ℕ → α) (n : ℕ) :
    (List.range n).map (fun i => g (n - 1 - i)) = ((List.range n).map g).reverse := by
  rw [← List.map_reverse, List.range_eq_range', List.reverse_range', List.map_map,
    ← List.range_eq_range']
  apply List.map_congr_left
  intro i _
  simp

theorem request_value (f : Field) (stack value : ℕ → UInt8) {i : ℕ} (hi : i < f.size) :
    reverseCopy stack (fun i => setFieldRequest f value (2 + i + 1)) f.size i = value i := by
  rw [reverseCopy, if_pos hi, show 2 + (f.size - 1 - i) + 1 = f.size - 1 - i + 3 by omega]
  change value (f.size - 1 - (f.size - 1 - i)) = value i
  congr 1
  omega

theorem wp_get_all (stack data : ℕ → UInt8) (len : UInt32) (hid : data 0 = packetConfigGetAll) :
    wp (processConfigPacket stack data len)
      (fun reply t => reply = some (packetConfigGetAll :: (List.range sizeofConfig).map b.config) ∧
        t.config = b.config) (fun _ => False) b := by
  have hne : packetConfigGetAll ≠ packetConfigSetField := by decide
  simp only [processConfigPacket, hid, if_neg hne, if_true, wp_map, processConfigGetAll, note,
    packetSendPacket, wp_bind, wp_modify, wp_get, wp_pure]
  exact ⟨trivial, trivial⟩

theorem field_in_structure (f : Field) : f.offset + f.size ≤ sizeofConfig := by
  cases f <;> decide

theorem field_bytes_at (config : ℕ → UInt8) (f : Field) :
    (((List.range sizeofConfig).map config).drop f.offset).take f.size = fieldBytes config f := by
  have hin := field_in_structure f
  apply List.ext_getElem
  · simp only [fieldBytes, List.length_take, List.length_drop, List.length_map, List.length_range]
    omega
  · intro i _ _
    simp only [fieldBytes, List.getElem_take, List.getElem_drop, List.getElem_map,
      List.getElem_range, fieldAt]

theorem wp_set_field (b : Board) (f : Field) (stack value : ℕ → UInt8) :
    wp (processConfigPacket stack (setFieldRequest f value) (UInt32.ofNat (3 + f.size)))
      (fun reply t => ∃ data, (∀ i < f.size, data i = value i) ∧
        t.config = copyBytes b.config f.offset f.size
          (overlay data ((clampValue b.config f.offset data).getD [])) ∧
        reply = some (packetConfigSetField :: hiByte (UInt16.ofNat f.offset) ::
          loByte (UInt16.ofNat f.offset) :: ((List.range f.size).map
            (overlay data ((clampValue b.config f.offset data).getD []))).reverse))
      (fun t => b.flash.fates t.flash.mem t.flash.history = .cut) b := by
  have hlen : UInt32.ofNat (3 + f.size) - 1 = UInt32.ofNat (2 + f.size) := by
    cases f <;> decide
  have hid : setFieldRequest f value 0 = packetConfigSetField := rfl
  let data := reverseCopy stack (fun i => setFieldRequest f value (2 + i + 1)) f.size
  have haddr : word (setFieldRequest f value (0 + 1)) (setFieldRequest f value (1 + 1)) =
      UInt16.ofNat f.offset := word_bytes _
  have hvalue : (fieldSizes (UInt32.ofNat (2 + f.size))).value.toNat = f.size :=
    request_reply_size f
  simp only [processConfigPacket, hid, if_true, wp_map, hlen, processConfigSetField, note,
    packetSendPacket, wp_bind, wp_modify, wp_pure, haddr, hvalue, request_reply_size f]
  refine wp_mono (wp_write_field_config _ data _) ?_ fun _ ht => ht
  rintro ⟨isOk, stored⟩ t ⟨hstored, ht⟩
  rw [fieldWritten, field_offset_toNat, request_field_size] at ht
  obtain rfl : stored = overlay data ((clampValue b.config f.offset data).getD []) := by
    rw [field_offset_toNat] at hstored
    exact hstored
  refine ⟨data, fun i hi => request_value f stack value hi, ht, ?_⟩
  rw [← reverse_range_map]

theorem wp_set_field_number (b : Board) (f : Field) (stack value : ℕ → UInt8)
    (hfinite : f.size = 4 → (Binary32.value (loadFloat value)).isSome)
    (hlimit : f = .chargeVoltage →
      Exact (packLimit b.config) (Config.ofBytes b.config).packLimit) :
    wp (processConfigPacket stack (setFieldRequest f value) (UInt32.ofNat (3 + f.size)))
      (fun _ t => Config.ofBytes t.config =
        (Config.ofBytes b.config).writeField f (f.decode (loadWord value)))
      (fun t => b.flash.fates t.flash.mem t.flash.history = .cut) b := by
  refine wp_mono (wp_set_field b f stack value) ?_ fun _ ht => ht
  rintro reply t ⟨data, hdata, ht, -⟩
  have hwritten : t.config =
      fieldWritten b.config (UInt16.ofNat f.offset) data (UInt8.ofNat f.size) := by
    rw [ht, fieldWritten, field_offset_toNat, field_size_toNat]
  have hfinite' (h4 : f.size = 4) : (Binary32.value (loadFloat data)).isSome := by
    rw [loadFloat, load_word_congr fun i hi => hdata i (h4 ▸ hi)]
    exact hfinite h4
  rw [hwritten, field_written_numbers f hfinite' hlimit, decode_congr f hdata]

/-- A field is set, acknowledged and read back as one value, unless a cut stops the board. -/
theorem set_field_echo (b : Board) (f : Field) (stack value : ℕ → UInt8) :
    wp (processConfigPacket stack (setFieldRequest f value) (UInt32.ofNat (3 + f.size)))
      (fun reply t => ∃ payload, reply = some payload ∧ FieldEcho b f value payload t)
      (fun t => b.flash.fates t.flash.mem t.flash.history = .cut) b := by
  refine wp_mono (wp_set_field b f stack value) ?_ fun _ ht => ht
  rintro reply t ⟨data, hdata, ht, rfl⟩
  have hfield : fieldBytes t.config f = (List.range f.size).map
      (overlay data ((clampValue b.config f.offset data).getD [])) := by
    apply List.map_congr_left
    intro i hi
    rw [ht]
    exact field_copied f (List.mem_range.mp hi)
  refine ⟨_, rfl, ⟨fun k hk => ?_, ?_, ?_, ?_⟩⟩
  · rw [ht]
    exact if_neg hk
  · rw [hfield]
    exact accepted_bytes hdata
  · rw [hfield]
  · intro stack data len hid
    obtain ⟨reply, u, he, rfl, hu⟩ := wp_returns (wp_get_all (b := t) stack data len hid)
    exact ⟨_, u, he, hu, field_bytes_at t.config f⟩

/-- Thirteen cells are too many: the host is told of twelve. -/
theorem set_field_echo_clamped :
    ∃ payload t, exec (processConfigPacket (fun _ => 0)
        (setFieldRequest .numCells fun _ => 13) 4) (blankBoard.under steady) =
          (some (some payload), t) ∧
      FieldEcho (blankBoard.under steady) .numCells (fun _ => 13) payload t ∧
      payload = [packetConfigSetField, 0, 1, 12] := by
  obtain ⟨_, t, he, payload, rfl, hecho⟩ :=
    steady_returns
      (set_field_echo (blankBoard.under steady) .numCells (fun _ => 0) fun _ => 13)
  refine ⟨payload, t, he, hecho, ?_⟩
  rw [hecho.acknowledged, hecho.stored]
  rfl

end Echo

end Battman
