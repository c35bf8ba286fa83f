import Battman.ConfigMirror
import Battman.FieldNumbers

/-! The fields that other modules rely on unchecked: numCells bounds the loops over cells[12],
and maxCurrentCutoff is sent to the current monitor as an int8_t. The range checks are keyed
on the start address of a write, the copy on its bytes. -/
namespace Battman
open CutLogic Float.Model
open Binary32 hiding ofBits

def Between (lower upper : ℚ) (x : UnpackedFloat) : Prop :=
  ∃ q, value x = some q ∧ lower ≤ q ∧ q ≤ upper

/-- A conversion to int8_t; one that overflows has no value. -/
def toInt8 (z : ℤ) : Option Int8 := if -2 ^ 7 ≤ z ∧ z < 2 ^ 7 then some (Int8.ofInt z) else none

/-- The bytes that current_monitor_set_overcurrent transmits; `scaled` is
`current_threshold * 0.0005 / 0.00256` in double precision. -/
def currentMonitorSetOvercurrent (scaled : ℚ) : Option (List UInt8) := do
  let valueMax ← toInt8 ⌈scaled⌉
  let valueMin ← toInt8 (-valueMax.toInt)
  pure [0x06, valueMax.toUInt8, valueMin.toUInt8]

/-- The conversions of current_monitor_set_overcurrent do not overflow: not for the exact
quotient, nor for one that the rounding in double precision gives. -/
def Int8Fits (x : UnpackedFloat) : Prop :=
  ∃ q, value x = some q ∧
    ∀ y : ℚ, |y - q * 0.0005 / 0.00256| ≤ 1 / 2 → (currentMonitorSetOvercurrent y).isSome

structure InRange (config : ℕ → UInt8) : Prop where
  numCells : fieldAt config .numCells 0 ≤ 12
  cutoff : Between 0 5 (loadFloat (fieldAt config .highVoltageCutoff))
  current : Between 1 150 (loadFloat (fieldAt config .maxCurrentCutoff))

/-- The indices of `for (uint8_t i = 0; i < config->numCells; i++)`, which charger_update,
console_process_command and PACKET_GET_CELLS run through cells[12]. -/
def cellIndices (config : ℕ → UInt8) : List ℕ := List.range (fieldAt config .numCells 0).toNat

/-- `boot` is the threshold that current_monitor_init sends after a reset. -/
structure Validated (b : Board) : Prop where
  range : InRange b.config
  cells : ∀ i ∈ cellIndices b.config, i < 12
  thresholds : ∀ w ∈ b.overcurrent, Int8Fits (Binary32.ofBits w)
  boot : Int8Fits (loadFloat (fieldAt b.config .maxCurrentCutoff))

/-- A write as PACKET_CONFIG_SET_FIELD can make it inside the structure. -/
def Call.FromPacket : Call → Prop
  | .writeField addr _ size =>
    1 ≤ size.toNat ∧ size.toNat ≤ 4 ∧ addr.toNat + size.toNat ≤ sizeofConfig
  | _ => True

def Touches (addr : UInt16) (size : UInt8) (f : Field) : Prop :=
  addr.toNat < f.offset + f.size ∧ f.offset < addr.toNat + size.toNat

/-- A write to one of the three fields starts where the field does; a float is written as a
whole and is not a NaN. -/
def Call.Checked : Call → Prop
  | .writeField addr data size =>
    (Touches addr size .numCells → addr.toNat = Field.numCells.offset) ∧
    ∀ f, f = .highVoltageCutoff ∨ f = .maxCurrentCutoff → Touches addr size f →
      addr.toNat = f.offset ∧ size = 4 ∧ loadFloat data ≠ .notANumber
  | _ => True

structure Bounded (b : Board) : Prop where
  stored : Mirror b.config b
  range : InRange b.config
  thresholds : ∀ w ∈ b.overcurrent, Between 1 150 (Binary32.ofBits w)

variable {config config' data : ℕ → UInt8} {upper lower x : UnpackedFloat} {u l : ℚ}
  {addr : UInt16} {size : UInt8} {b t : Board} {cs : List Call}

section Numbers

theorem set_overcurrent_sends {y : ℚ} (hlow : -127 ≤ ⌈y⌉) (hhigh : ⌈y⌉ ≤ 127) :
    currentMonitorSetOvercurrent y =
      some [0x06, (Int8.ofInt ⌈y⌉).toUInt8, (Int8.ofInt (-⌈y⌉)).toUInt8] := by
  have hmax : toInt8 ⌈y⌉ = some (Int8.ofInt ⌈y⌉) := if_pos (by omega)
  have hmin : toInt8 (-⌈y⌉) = some (Int8.ofInt (-⌈y⌉)) := if_pos (by omega)
  have hvalue : (Int8.ofInt ⌈y⌉).toInt = ⌈y⌉ :=
    Int8.toInt_ofInt_of_le (by omega) (by omega)
  rw [currentMonitorSetOvercurrent, hmax, Option.bind_eq_bind, Option.bind_some, hvalue, hmin]
  rfl

theorem between_fits (h : Between 1 150 x) : Int8Fits x := by
  obtain ⟨q, hq, h₁, h₁₅₀⟩ := h
  refine ⟨q, hq, fun y hy => ?_⟩
  obtain ⟨hlo, hhi⟩ := abs_le.mp hy
  have hlow : -127 ≤ ⌈y⌉ := by
    apply Int.le_ceil_iff.mpr
    norm_num at hlo ⊢
    linarith
  have hhigh : ⌈y⌉ ≤ 127 := by
    apply Int.ceil_le.mpr
    norm_num at hhi ⊢
    linarith
  rw [set_overcurrent_sends hlow hhigh]
  rfl

theorem value_of_not_lt (hu : Exact upper u) (hl : Exact lower l) (hx : x ≠ .notANumber)
    (hup : ¬ upper.lt x = true) (hlow : ¬ x.lt lower = true) : ∃ v, value x = some v := by
  have hnumber {y : UnpackedFloat} {r : ℚ} (hy : Exact y r) (s) : y ≠ .infinity s := by
    rintro rfl
    cases hy.value
  cases x with
  | infinity s =>
    cases s with
    | positive =>
      refine absurd ?_ hup
      rcases upper with s | _ | _ | ⟨s, _, _, _⟩
      · exact absurd rfl (hnumber hu s)
      · cases hu.value
      · rfl
      · cases s <;> rfl
    | negative =>
      refine absurd ?_ hlow
      rcases lower with s | _ | _ | ⟨s, _, _, _⟩
      · exact absurd rfl (hnumber hl s)
      · cases hl.value
      · rfl
      · cases s <;> rfl
  | notANumber => exact absurd rfl hx
  | zero s => exact ⟨0, rfl⟩
  | finite s m e h =>
    cases s with
    | positive => exact ⟨_, rfl⟩
    | negative => exact ⟨_, rfl⟩

theorem clamp_float_between (hu : Exact upper u) (hl : Exact lower l) (hlu : l ≤ u)
    (hx : loadFloat data ≠ .notANumber) :
    Between l u (loadFloat (overlay data ((clampFloat upper lower data).getD []))) := by
  have hstored {y : UnpackedFloat} {r : ℚ} (hy : Exact y r) :
      value (loadFloat (overlay data (littleEndian (toBits y)))) = some r := by
    rw [loadFloat, load_word_little_endian, hy.bits, hy.value]
  rw [clampFloat]
  by_cases hup : upper.lt (loadFloat data) = true
  · rw [if_pos hup]
    exact ⟨u, hstored hu, hlu, le_rfl⟩
  rw [if_neg hup]
  by_cases hlow : (loadFloat data).lt lower = true
  · rw [if_pos hlow]
    exact ⟨l, hstored hl, le_rfl, hlu⟩
  rw [if_neg hlow]
  obtain ⟨v, hv⟩ := value_of_not_lt hu hl hx hup hlow
  have hc := of_bits_canonical (loadWord data)
  refine ⟨v, hv, ?_, ?_⟩
  · exact not_lt.mp fun h => hlow ((lt_iff hc hl.canonical hv hl.value).mpr h)
  · exact not_lt.mp fun h => hup ((lt_iff hu.canonical hc hu.value hv).mpr h)

end Numbers

section Writes

theorem field_untouched {f : Field} (h : ¬ Touches addr size f) {i : ℕ} (hi : i < f.size) :
    fieldAt (fieldWritten config addr data size) f i = fieldAt config f i := by
  unfold Touches at h
  exact if_neg (by omega)

theorem field_at_start {f : Field} (h : addr.toNat = f.offset) {i : ℕ} (hi : i < size.toNat) :
    fieldAt (fieldWritten config addr data size) f i =
      overlay data ((clampValue config f.offset data).getD []) i := by
  have hin : addr.toNat ≤ f.offset + i ∧ f.offset + i < addr.toNat + size.toNat := by omega
  rw [fieldAt, fieldWritten, copyBytes, if_pos hin, h, Nat.add_sub_cancel_left]

theorem float_field_written {f : Field} (hu : Exact upper u) (hl : Exact lower l) (hlu : l ≤ u)
    (hsize : f.size = 4) (hclamp : clampValue config f.offset data = clampFloat upper lower data)
    (hc : Touches addr size f → addr.toNat = f.offset ∧ size = 4 ∧ loadFloat data ≠ .notANumber)
    (h : Between l u (loadFloat (fieldAt config f))) :
    Between l u (loadFloat (fieldAt (fieldWritten config addr data size) f)) := by
  by_cases ht : Touches addr size f
  · obtain ⟨haddr, rfl, hx⟩ := hc ht
    have hword : loadWord (fieldAt (fieldWritten config addr data 4) f) =
        loadWord (overlay data ((clampFloat upper lower data).getD [])) := by
      rw [← hclamp]
      exact load_word_congr fun i hi => field_at_start haddr hi
    rw [loadFloat, hword]
    exact clamp_float_between hu hl hlu hx
  · rw [loadFloat, load_word_congr fun i hi => field_untouched ht (hsize ▸ hi)]
    exact h

theorem clamp_cutoff : clampValue config Field.highVoltageCutoff.offset data =
    clampFloat float5 float0 data := rfl

theorem clamp_current : clampValue config Field.maxCurrentCutoff.offset data =
    clampFloat float150 float1 data := rfl

theorem num_cells_written (hc : Touches addr size .numCells → addr.toNat = Field.numCells.offset)
    (h : fieldAt config .numCells 0 ≤ 12) :
    fieldAt (fieldWritten config addr data size) .numCells 0 ≤ 12 := by
  by_cases ht : Touches addr size .numCells
  · have haddr := hc ht
    have hsize : 0 < size.toNat := by
      have := ht.2
      omega
    rw [field_at_start haddr hsize, clampValue, if_pos rfl]
    by_cases hd : 12 < data 0
    · rw [if_pos hd]
      change (12 : UInt8) ≤ 12
      decide
    · rw [if_neg hd]
      exact UInt8.not_lt.mp hd
  · rw [field_untouched ht (by decide)]
    exact h

theorem in_range_written (hc : (Call.writeField addr data size).Checked) (h : InRange config) :
    InRange (fieldWritten config addr data size) where
  numCells := num_cells_written hc.1 h.numCells
  cutoff := float_field_written exact_float5 exact_float0 (by norm_num) rfl clamp_cutoff
    (hc.2 _ (Or.inl rfl)) h.cutoff
  current := float_field_written exact_float150 exact_float1 (by norm_num) rfl clamp_current
    (hc.2 _ (Or.inr rfl)) h.current

theorem in_range_same (hs : SameBytes config config') (h : InRange config) : InRange config' := by
  have hfloat (f : Field) (hf : f.size = 4) :
      loadFloat (fieldAt config f) = loadFloat (fieldAt config' f) :=
    congrArg Binary32.ofBits (load_word_congr fun i hi => field_at_same hs f (hf ▸ hi))
  constructor
  · rw [← field_at_same hs .numCells (by decide)]
    exact h.numCells
  · rw [← hfloat .highVoltageCutoff rfl]
    exact h.cutoff
  · rw [← hfloat .maxCurrentCutoff rfl]
    exact h.current

end Writes

section Calls

def sentThreshold (config : ℕ → UInt8) (addr : UInt16) (data : ℕ → UInt8) : List UInt32 :=
  if addr.toNat = Field.maxCurrentCutoff.offset then
    [loadWord (overlay data ((clampValue config addr.toNat data).getD []))]
  else []

theorem wp_write_field_overcurrent (addr : UInt16) (data : ℕ → UInt8) (size : UInt8) :
    wp (configWriteField addr data size)
      (fun _ t => t.overcurrent = sentThreshold b.config addr data ++ b.overcurrent)
      (fun t => t.overcurrent = sentThreshold b.config addr data ++ b.overcurrent) b := by
  have hsent : (if addr.toNat = Field.maxCurrentCutoff.offset then
      loadWord (overlay data ((clampValue b.config addr.toNat data).getD [])) :: b.overcurrent
      else b.overcurrent) = sentThreshold b.config addr data ++ b.overcurrent := by
    unfold sentThreshold
    split <;> rfl
  simp only [configWriteField, utilsSysLockCnt, utilsSysUnlockCnt, wp_bind, wp_get, wp_modify,
    wp_clear_flag, wp_pure, hsent]
  exact apart_overcurrent.toAside.store_each _

theorem sent_between (hc : (Call.writeField addr data size).Checked)
    (hp : (Call.writeField addr data size).FromPacket) :
    ∀ w ∈ sentThreshold config addr data, Between 1 150 (Binary32.ofBits w) := by
  intro w hw
  unfold sentThreshold at hw
  by_cases haddr : addr.toNat = Field.maxCurrentCutoff.offset
  · have ht : Touches addr size .maxCurrentCutoff := by
      have hsize : 0 < Field.maxCurrentCutoff.size := by decide
      have := hp.1
      unfold Touches
      omega
    rw [if_pos haddr, List.mem_singleton] at hw
    rw [hw, haddr, clamp_current]
    exact clamp_float_between exact_float150 exact_float1 (by norm_num)
      (hc.2 _ (Or.inr rfl) ht).2.2
  · rw [if_neg haddr] at hw
    cases hw

theorem thresholds_step {c : Call} (hp : c.FromPacket) (hc : c.Checked)
    (h : ∀ w ∈ b.overcurrent, Between 1 150 (Binary32.ofBits w)) :
    wp c.run (fun _ t => ∀ w ∈ t.overcurrent, Between 1 150 (Binary32.ofBits w))
      (fun _ => True) (b.under steady) := by
  cases c with
  | init =>
    refine wp_mono (apart_overcurrent.init _) (fun _ t ht => ?_) fun _ _ => trivial
    rw [ht]
    exact h
  | writeField addr data size =>
    rw [Call.run, wp_map]
    refine wp_mono (wp_write_field_overcurrent addr data size) (fun _ t ht => ?_)
      fun _ _ => trivial
    rw [ht]
    intro w hw
    rcases List.mem_append.mp hw with hw | hw
    · exact sent_between hc hp w hw
    · exact h w hw
  | writeAll =>
    refine wp_mono (apart_overcurrent.toAside.write_all apart_overcurrent.lockCnt _)
      (fun _ t ht => ?_) fun _ _ => trivial
    rw [ht]
    exact h

theorem plain_in_range {c : Call} (hc : c.Checked) (h : InRange config) :
    InRange (c.plain config) := by
  cases c with
  | init => exact h
  | writeField addr data size =>
    rw [Call.plain, ← field_written_array]
    exact in_range_written hc h
  | writeAll => exact h

theorem Mirror.self {a : ℕ → UInt8} (h : Mirror a b) : Mirror b.config b :=
  ⟨h.pages, fun _ _ => rfl⟩

theorem from_packet_in_bounds {c : Call} (h : c.FromPacket) : c.InBounds := by
  cases c with
  | writeField addr data size => exact h.2.2
  | _ => trivial

theorem bounded_step {c : Call} (hp : c.FromPacket) (hc : c.Checked) (h : Bounded b) :
    Bounded (b.perform steady c).2 := by
  obtain ⟨t, ht, -, hm⟩ := mirror_step h.stored (from_packet_in_bounds hp)
  have hthresholds := thresholds_step hp hc h.thresholds
  unfold wp at hthresholds
  change exec c.run (b.under steady) = (some true, t) at ht
  rw [ht] at hthresholds
  change Bounded (exec c.run (b.under steady)).2
  rw [ht]
  exact ⟨hm.self, in_range_same (fun i hi => (hm.same i hi).symm) (plain_in_range hc h.range),
    hthresholds⟩

theorem bounded_run (h : Bounded b) (hp : ∀ c ∈ cs, c.FromPacket) (hc : ∀ c ∈ cs, c.Checked) :
    Bounded (b.after cs) := by
  induction cs generalizing b with
  | nil => exact h
  | cons c cs ih =>
    have hstep := bounded_step (hp c List.mem_cons_self) (hc c List.mem_cons_self) h
    exact ih hstep (fun c' hc' => hp c' (List.mem_cons_of_mem _ hc'))
      fun c' hc' => hc c' (List.mem_cons_of_mem _ hc')

theorem default_in_range : InRange (overlay (fun _ => 0) defaultConfiguration) where
  numCells := by decide
  cutoff := ⟨17 / 4, by decide +kernel, by norm_num, by norm_num⟩
  current := ⟨120, by decide +kernel, by norm_num, by norm_num⟩

theorem Bounded.validated (h : Bounded b) : Validated b where
  range := h.range
  cells := by
    intro i hi
    have hn : (fieldAt b.config .numCells 0).toNat ≤ 12 := UInt8.le_iff_toNat_le.mp h.range.numCells
    have := List.mem_range.mp hi
    omega
  thresholds := fun w hw => between_fits (h.thresholds w hw)
  boot := between_fits h.range.current

/-- From the defaults, writes that are checked and any resets between them keep the fields in
range, the loops inside cells[12] and the thresholds inside an int8_t. -/
theorem checked_writes_stay_valid (hb : BlankPages b.eeprom.flash.mem) (ho : b.overcurrent = [])
    (hp : ∀ c ∈ cs, c.FromPacket) (hc : ∀ c ∈ cs, c.Checked) :
    Validated ((b.perform steady .init).2.after cs) := by
  obtain ⟨t, ht, -, hm⟩ := init_blank hb
  have hthresholds := thresholds_step (c := .init) trivial trivial
    (b := b) (by rw [ho]; exact nofun)
  unfold wp at hthresholds
  change exec Call.init.run (b.under steady) = (some false, t) at ht
  rw [ht] at hthresholds
  have hstart : Bounded t :=
    ⟨hm.self, in_range_same (fun i hi => (hm.same i hi).symm) default_in_range, hthresholds⟩
  rw [show (b.perform steady .init).2 = t from congrArg Prod.snd ht]
  exact (bounded_run hstart hp hc).validated

/-- The cell count and the current limit written beyond their ranges, with a reset between. -/
theorem checked_writes_stay_valid_clamped :
    Validated ((blankBoard.perform steady .init).2.after
      [.writeField 1 (fun _ => 13) 4, .init, .writeField 30 (fun _ => 0x7F) 4]) := by
  have hfinite : loadFloat (fun _ => 0x7F) ≠ .notANumber := fun h =>
    absurd (congrArg (fun x => (value x).isSome) h) (by decide +kernel)
  apply checked_writes_stay_valid (fun _ _ _ => rfl) rfl
  · simp [Call.FromPacket, sizeofConfig]
  · intro c hc
    simp only [List.mem_cons, List.not_mem_nil, or_false] at hc
    rcases hc with rfl | rfl | rfl
    · refine ⟨fun _ => rfl, ?_⟩
      rintro f (rfl | rfl) ht
      · exact absurd ht.2 (by decide)
      · exact absurd ht.2 (by decide)
    · trivial
    · refine ⟨fun ht => absurd ht.1 (by decide), ?_⟩
      rintro f (rfl | rfl) ht
      · exact absurd ht.1 (by decide)
      · exact ⟨rfl, rfl, hfinite⟩

/-- A write of two bytes from CANDeviceID on stores 13 in numCells. -/
theorem unchecked_start_breaks_cells :
    ¬ ∀ (b : Board) (cs : List Call), BlankPages b.eeprom.flash.mem → b.overcurrent = [] →
      (∀ c ∈ cs, c.FromPacket) → Validated ((b.perform steady .init).2.after cs) := by
  intro h
  let write : Call := .writeField 0 (fun i => if i = 0 then 1 else 13) 2
  have hp : write.FromPacket := ⟨by decide, by decide, by decide⟩
  have hv := h blankBoard [write] (fun _ _ _ => rfl) rfl fun c hc => by
    rw [List.mem_singleton.mp hc]
    exact hp
  obtain ⟨t, ht, -, hm⟩ := init_blank (b := blankBoard) fun _ _ _ => rfl
  have hrun := mirror_run hm [write] fun c hc => by
    rw [List.mem_singleton.mp hc]
    exact from_packet_in_bounds hp
  rw [ht] at hv
  have hcells := (in_range_same hrun.same hv.range).numCells
  exact absurd hcells (by decide +kernel)

end Calls

end Battman
