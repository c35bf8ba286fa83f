import Battman.ConfigMirror
import Battman.Packet

/-! PACKET_CONFIG_SET_FIELD from the payload to the reply frame, and what it writes.
The value's length is what the payload leaves after the address, in unsigned arithmetic. -/
namespace Battman
open CutLogic Float.Model

def packetConfigSetField : UInt8 := 0x07

def MemObject.size : MemObject → ℕ
  | .configValue => 4
  | .config => sizeofConfig
  | .packetSendBuffer => 1024
  | .packetFrame => 512

def MemWrite.Inside (w : MemWrite) : Prop := w.length = 0 ∨ w.offset + w.length ≤ w.object.size

instance decidableWriteInside (w : MemWrite) : Decidable w.Inside :=
  inferInstanceAs (Decidable (_ ∨ _))

def reverseCopy (dest src : ℕ → UInt8) (len : ℕ) : ℕ → UInt8 :=
  fun i => if i < len then src (len - 1 - i) else dest i

def note (w : MemWrite) : BoardM Unit := modify fun b => { b with writes := w :: b.writes }

/-- The writes of packet_send_packet to its frame buffer: header, data, then the checksum
and the end byte. -/
def packetSendPacket (len : UInt32) : BoardM Unit := do
  let inx : UInt32 := if 255 < len then 3 else 2
  note ⟨.packetFrame, 0, inx.toNat⟩
  note ⟨.packetFrame, inx.toNat, len.toNat⟩
  note ⟨.packetFrame, (inx + len).toNat, 3⟩

structure FieldSizes where
  value : UInt32
  field : UInt8
  reply : UInt32

def fieldSizes (len : UInt32) : FieldSizes where
  value := len - 2
  field := (len - 2).toUInt8
  reply := len - 2

/-- The branch PACKET_CONFIG_SET_FIELD of process_packet. `data` points behind the packet
id, `len` counts the bytes there, and `stack` is what config_value held before. The result
is the reply's payload. -/
def processConfigSetField (stack data : ℕ → UInt8) (len : UInt32) : BoardM (List UInt8) := do
  let configAddr := word (data 0) (data 1)
  let sizes := fieldSizes len
  note ⟨.configValue, 0, sizes.value.toNat⟩
  let configValue := reverseCopy stack (fun i => data (2 + i)) sizes.value.toNat
  let (_, configValue) ← configWriteField configAddr configValue sizes.field
  note ⟨.packetSendBuffer, 0, 3⟩
  note ⟨.packetSendBuffer, 3, sizes.reply.toNat⟩
  packetSendPacket (3 + sizes.reply)
  pure (packetConfigSetField :: hiByte configAddr :: loByte configAddr ::
    (List.range sizes.reply.toNat).map fun i => configValue (sizes.reply.toNat - 1 - i))

/-- Whatever the flash does, every write is inside its object and the sizes agree. -/
def SetFieldInside (b : Board) (stack data : ℕ → UInt8) (len : UInt32) : Prop :=
  (∀ w ∈ (exec (processConfigSetField stack data len) { b with writes := [] }).2.writes,
    w.Inside) ∧
  (fieldSizes len).value.toNat = (fieldSizes len).field.toNat ∧
  (fieldSizes len).reply.toNat = (fieldSizes len).field.toNat

variable {b : Board}

theorem clamp_float_length {upper lower : UnpackedFloat} {data : ℕ → UInt8} {bytes : List UInt8}
    (h : clampFloat upper lower data = some bytes) : bytes.length = 4 := by
  unfold clampFloat at h
  split_ifs at h
  · obtain rfl := Option.some.inj h
    rfl
  · obtain rfl := Option.some.inj h
    rfl

theorem wp_write_field_writes (addr : UInt16) (data : ℕ → UInt8) (size : UInt8) :
    wp (configWriteField addr data size)
      (fun _ t => ∃ n ≤ 4, t.writes = ⟨.config, addr.toNat, size.toNat⟩ ::
        ⟨.configValue, 0, n⟩ :: b.writes)
      (fun t => ∃ n ≤ 4, t.writes = ⟨.config, addr.toNat, size.toNat⟩ ::
        ⟨.configValue, 0, n⟩ :: b.writes) b := by
  have hn : ((clampValue b.config addr.toNat data).getD []).length ≤ 4 := by
    have hclamp (upper lower : UnpackedFloat) :
        ((clampFloat upper lower data).getD []).length ≤ 4 := by
      cases h : clampFloat upper lower data with
      | none => exact Nat.zero_le 4
      | some bytes => exact (clamp_float_length h).le
    unfold clampValue
    split_ifs <;> first | exact hclamp _ _ | simp
  simp only [configWriteField, utilsSysLockCnt, utilsSysUnlockCnt, wp_bind, wp_get, wp_modify,
    wp_clear_flag, wp_pure]
  exact wp_mono (aside_writes.store_each _) (fun _ t ht => ⟨_, hn, ht⟩)
    fun t ht => ⟨_, hn, ht⟩

/-- The writes of a request before the reply: `addr` and the number `n` of bytes that a
range check stores are all they depend on. -/
def requestWrites (addr : UInt16) (len : UInt32) (n : ℕ) : List MemWrite :=
  [⟨.config, addr.toNat, (fieldSizes len).field.toNat⟩, ⟨.configValue, 0, n⟩,
    ⟨.configValue, 0, (fieldSizes len).value.toNat⟩]

def replyWrites (len : UInt32) : List MemWrite :=
  let sent : UInt32 := 3 + (fieldSizes len).reply
  let inx : UInt32 := if 255 < sent then 3 else 2
  [⟨.packetFrame, (inx + sent).toNat, 3⟩, ⟨.packetFrame, inx.toNat, sent.toNat⟩,
    ⟨.packetFrame, 0, inx.toNat⟩, ⟨.packetSendBuffer, 3, (fieldSizes len).reply.toNat⟩,
    ⟨.packetSendBuffer, 0, 3⟩]

theorem set_field_writes (stack data : ℕ → UInt8) (len : UInt32) :
    ∃ n ≤ 4,
      (exec (processConfigSetField stack data len) { b with writes := [] }).2.writes =
          requestWrites (word (data 0) (data 1)) len n ∨
        (exec (processConfigSetField stack data len) { b with writes := [] }).2.writes =
          replyWrites len ++ requestWrites (word (data 0) (data 1)) len n := by
  have hrun : wp (processConfigSetField stack data len)
      (fun _ t => ∃ n ≤ 4, t.writes =
        replyWrites len ++ requestWrites (word (data 0) (data 1)) len n)
      (fun t => ∃ n ≤ 4, t.writes = requestWrites (word (data 0) (data 1)) len n)
      { b with writes := [] } := by
    simp only [processConfigSetField, note, wp_bind, wp_modify]
    refine wp_mono (wp_write_field_writes _ _ _) ?_ fun t ht => ht
    rintro r t ⟨n, hn, ht⟩
    simp only [packetSendPacket, note, wp_bind, wp_modify, wp_pure, ht]
    exact ⟨n, hn, rfl⟩
  unfold wp at hrun
  rcases he : exec (processConfigSetField stack data len) { b with writes := [] } with
    ⟨_ | reply, t⟩ <;> rw [he] at hrun
  · obtain ⟨n, hn, ht⟩ := hrun
    exact ⟨n, hn, Or.inl ht⟩
  · obtain ⟨n, hn, ht⟩ := hrun
    exact ⟨n, hn, Or.inr ht⟩

theorem field_sizes_toNat (total : UInt32) : (fieldSizes (total - 1)).value.toNat =
    if 3 ≤ total.toNat then total.toNat - 3 else 2 ^ 32 + total.toNat - 3 := by
  have := total.toNat_lt
  simp only [fieldSizes, UInt32.toNat_sub]
  have h₁ : (1 : UInt32).toNat = 1 := rfl
  have h₂ : (2 : UInt32).toNat = 2 := rfl
  rw [h₁, h₂]
  split_ifs <;> omega

theorem field_size_small {len : UInt32} (h : (fieldSizes len).value.toNat ≤ 4) :
    (fieldSizes len).field.toNat = (fieldSizes len).value.toNat := by
  simp only [fieldSizes, UInt32.toNat_toUInt8] at *
  omega

/-- A request of `total` bytes stays inside its objects exactly when it carries an address
and at most 4 bytes of value, all of which lie inside the structure. -/
theorem set_field_inside_iff (b : Board) (stack data : ℕ → UInt8) (total : UInt32) :
    SetFieldInside b stack data (total - 1) ↔
      3 ≤ total ∧ total ≤ 7 ∧
        (total = 3 ∨ (word (data 0) (data 1)).toNat + (total.toNat - 3) ≤ sizeofConfig) := by
  have hsize := field_sizes_toNat total
  have hlt := total.toNat_lt
  have heq : total = 3 ↔ total.toNat = 3 := UInt32.toNat_inj.symm
  rw [UInt32.le_iff_toNat_le, UInt32.le_iff_toNat_le, heq, show (3 : UInt32).toNat = 3 from rfl,
    show (7 : UInt32).toNat = 7 from rfl]
  obtain ⟨n, hn, hw⟩ := set_field_writes (b := b) stack data (total - 1)
  constructor
  · rintro ⟨hin, -, -⟩
    have hreq {w : MemWrite}
        (h : w ∈ requestWrites (word (data 0) (data 1)) (total - 1) n) : w.Inside := by
      rcases hw with hw | hw <;> refine hin w ?_ <;> rw [hw]
      · exact h
      · exact List.mem_append_right _ h
    have hvalue := hreq (w := ⟨.configValue, 0, (fieldSizes (total - 1)).value.toNat⟩)
      (by simp [requestWrites])
    have hconfig := hreq (w := ⟨.config, (word (data 0) (data 1)).toNat,
      (fieldSizes (total - 1)).field.toNat⟩) (by simp [requestWrites])
    simp only [MemWrite.Inside, MemObject.size] at hvalue hconfig
    have hsmall : (fieldSizes (total - 1)).value.toNat ≤ 4 := by omega
    rw [field_size_small hsmall] at hconfig
    split_ifs at hsize <;> omega
  · rintro ⟨h₃, h₇, haddr⟩
    rw [if_pos h₃] at hsize
    have hfield : (fieldSizes (total - 1)).field.toNat = (fieldSizes (total - 1)).value.toNat :=
      field_size_small (by omega)
    have hreply : (fieldSizes (total - 1)).reply.toNat = total.toNat - 3 := hsize
    have hsent : ((3 : UInt32) + (fieldSizes (total - 1)).reply).toNat = total.toNat := by
      rw [UInt32.toNat_add, hreply, show (3 : UInt32).toNat = 3 from rfl]
      omega
    have hshort : ¬ (255 : UInt32) < 3 + (fieldSizes (total - 1)).reply := by
      rw [UInt32.lt_iff_toNat_lt, hsent, show (255 : UInt32).toNat = 255 from rfl]
      omega
    have hend : ((2 : UInt32) + (3 + (fieldSizes (total - 1)).reply)).toNat =
        2 + total.toNat := by
      rw [UInt32.toNat_add, hsent, show (2 : UInt32).toNat = 2 from rfl]
      omega
    refine ⟨fun w hmem => ?_, hfield.symm, by rw [hfield, hsize, hreply]⟩
    have hall : w ∈ replyWrites (total - 1) ++
        requestWrites (word (data 0) (data 1)) (total - 1) n := by
      rcases hw with hw | hw <;> rw [hw] at hmem
      · exact List.mem_append_right _ hmem
      · exact hmem
    simp only [replyWrites, requestWrites, if_neg hshort, hend, hsent, hfield, hsize, hreply,
      List.mem_append, List.mem_cons, List.not_mem_nil, or_false] at hall
    rcases hall with (rfl | rfl | rfl | rfl | rfl) | (rfl | rfl | rfl) <;>
      simp only [MemWrite.Inside, MemObject.size, show (2 : UInt32).toNat = 2 from rfl] <;> omega

/-- A request of 8 bytes has a value of 5, and config_value has 4. -/
theorem five_byte_value_leaves :
    ¬ SetFieldInside blankBoard (fun _ => 0) (fun _ => 0) (8 - 1) := by
  rintro ⟨hin, -, -⟩
  obtain ⟨n, -, hw⟩ := set_field_writes (b := blankBoard) (fun _ => 0) (fun _ => 0) (8 - 1)
  have hmem : ⟨.configValue, 0, 5⟩ ∈ requestWrites (word 0 0) (8 - 1) n := by
    simp [requestWrites, fieldSizes]
  refine absurd (hin ⟨.configValue, 0, 5⟩ ?_) (by decide)
  rcases hw with hw | hw <;> rw [hw]
  · exact hmem
  · exact List.mem_append_right _ hmem

end Battman
