import Battman.ConfigStore

/-! config_write_field on the fields as numbers, and the same on the bytes of the structure. -/
namespace Battman
open Float.Model Binary32

section Words

variable {p q data : ℕ → UInt8}

theorem decode_congr (f : Field) (h : ∀ i < f.size, p i = q i) :
    f.decode (loadWord p) = f.decode (loadWord q) := by
  have hword (h4 : f.size = 4) : loadWord p = loadWord q :=
    load_word_congr fun i hi => h i (h4 ▸ hi)
  cases f <;> first
    | exact congrArg number (hword rfl)
    | (change (loadWord p).toUInt8 = (loadWord q).toUInt8
       rw [load_word_byte, load_word_byte, h 0 (by decide)])
    | (change (loadWord p).toUInt16 = (loadWord q).toUInt16
       rw [load_word_half, load_word_half, h 0 (by decide), h 1 (by decide)])

end Words

section Fields

theorem mem_all_fields (f : Field) : f ∈ Field.all := by cases f <;> decide

theorem fields_apart : ∀ f ∈ Field.all, ∀ g ∈ Field.all, f ≠ g →
    f.offset + f.size ≤ g.offset ∨ g.offset + g.size ≤ f.offset := by decide +kernel

variable {config data : ℕ → UInt8}

theorem field_copied (f : Field) {i : ℕ} (hi : i < f.size) :
    fieldAt (copyBytes config f.offset f.size data) f i = data i := by
  have hin : f.offset ≤ f.offset + i ∧ f.offset + i < f.offset + f.size := by omega
  rw [fieldAt, copyBytes, if_pos hin, Nat.add_sub_cancel_left]

theorem field_not_copied {f g : Field} (hne : g ≠ f) {i : ℕ} (hi : i < g.size) :
    fieldAt (copyBytes config f.offset f.size data) g i = fieldAt config g i := by
  have hapart := fields_apart f (mem_all_fields f) g (mem_all_fields g) hne.symm
  have hout : ¬ (f.offset ≤ g.offset + i ∧ g.offset + i < f.offset + f.size) := by omega
  exact if_neg hout

end Fields

section Numbers

/-- `if (v > upper) v = upper; else if (v < lower) v = lower;` on numbers. -/
def limit (upper lower v : ℚ) : ℚ := if upper < v then upper else if v < lower then lower else v

namespace Config

def packLimit (c : Config) : ℚ := (c .numCells).toNat * c .highVoltageCutoff

def clamp (c : Config) : (f : Field) → f.Value → f.Value
  | .numCells, v => if 12 < v then 12 else v
  | .highVoltageCutoff, v => limit 5 0 v
  | .chargeVoltage, v => limit c.packLimit 0 v
  | .maxCurrentCutoff, v => limit 150 1 v
  | _, v => v

def writeField (c : Config) (f : Field) (v : f.Value) : Config := Function.update c f (c.clamp f v)

end Config

/-- A float that is this number and survives being stored. -/
structure Exact (x : UnpackedFloat) (q : ℚ) : Prop where
  value : value x = some q
  bits : ofBits (toBits x) = x

theorem exact_of_bits {x : UnpackedFloat} {q : ℚ} (w : UInt32) (hx : ofBits w = x)
    (hb : toBits x = w) (hv : value x = some q) : Exact x q := ⟨hv, by rw [hb, hx]⟩

theorem exact_float5 : Exact float5 5 :=
  exact_of_bits 0x40A00000 rfl (by decide +kernel) (by decide +kernel)

theorem exact_float0 : Exact float0 0 :=
  exact_of_bits 0 rfl (by decide +kernel) (by decide +kernel)

theorem exact_float150 : Exact float150 150 :=
  exact_of_bits 0x43160000 rfl (by decide +kernel) (by decide +kernel)

theorem exact_float1 : Exact float1 1 :=
  exact_of_bits 0x3F800000 rfl (by decide +kernel) (by decide +kernel)

variable {config data : ℕ → UInt8} {upper lower : UnpackedFloat} {u l v : ℚ}

theorem Exact.canonical (h : Exact upper u) : Canonical upper :=
  h.bits ▸ of_bits_canonical (toBits upper)

theorem Exact.stored (h : Exact upper u) :
    number (loadWord (overlay data (littleEndian (toBits upper)))) = u := by
  rw [load_word_little_endian, number, h.bits, h.value]
  rfl

theorem clamp_float_number (hu : Exact upper u) (hl : Exact lower l)
    (hv : value (loadFloat data) = some v) :
    number (loadWord (overlay data ((clampFloat upper lower data).getD []))) = limit u l v := by
  have hc := of_bits_canonical (loadWord data)
  have hupper := lt_iff hu.canonical hc hu.value hv
  have hlower := lt_iff hc hl.canonical hv hl.value
  rw [clampFloat, limit]
  by_cases h : u < v
  · rw [if_pos (hupper.mpr h), if_pos h]
    exact hu.stored
  rw [if_neg (mt hupper.mp h), if_neg h]
  by_cases h' : v < l
  · rw [if_pos (hlower.mpr h'), if_pos h']
    exact hl.stored
  · rw [if_neg (mt hlower.mp h'), if_neg h']
    change number (loadWord data) = v
    rw [number, hv]
    rfl

def Field.checked : List Field := [.numCells, .highVoltageCutoff, .chargeVoltage, .maxCurrentCutoff]

theorem clamp_value_unchecked {f : Field} (hf : f ∉ Field.checked) :
    clampValue config f.offset data = none := by
  have hoffset : ∀ f ∈ Field.all, f ∉ Field.checked → ∀ g ∈ Field.checked, f.offset ≠ g.offset := by
    decide +kernel
  have h := hoffset f (mem_all_fields f) hf
  rw [clampValue, if_neg (h .numCells (by decide)), if_neg (h .highVoltageCutoff (by decide)),
    if_neg (h .chargeVoltage (by decide)), if_neg (h .maxCurrentCutoff (by decide))]

theorem clamp_unchecked {c : Config} {f : Field} (hf : f ∉ Field.checked) (v : f.Value) :
    c.clamp f v = v := by
  cases f <;> first | rfl | exact absurd (by decide) hf

theorem clamp_num_cells :
    Field.decode .numCells (loadWord (overlay data
      ((clampValue config Field.numCells.offset data).getD []))) =
      (Config.ofBytes config).clamp .numCells (Field.decode .numCells (loadWord data)) := by
  change (loadWord _).toUInt8 =
    if 12 < (loadWord data).toUInt8 then 12 else (loadWord data).toUInt8
  rw [load_word_byte, load_word_byte, clampValue, if_pos rfl]
  by_cases h : 12 < data 0
  · rw [if_pos h, if_pos h]
    rfl
  · rw [if_neg h, if_neg h]
    rfl

theorem clamp_number (f : Field) (hfinite : f.size = 4 → (value (loadFloat data)).isSome)
    (hlimit : f = .chargeVoltage → Exact (packLimit config) (Config.ofBytes config).packLimit) :
    f.decode (loadWord (overlay data ((clampValue config f.offset data).getD []))) =
      (Config.ofBytes config).clamp f (f.decode (loadWord data)) := by
  by_cases hf : f ∈ Field.checked
  · have hfloat {upper lower : UnpackedFloat} {u l : ℚ} (hu : Exact upper u) (hl : Exact lower l)
        (h4 : f.size = 4) :
        number (loadWord (overlay data ((clampFloat upper lower data).getD []))) =
          limit u l (number (loadWord data)) := by
      obtain ⟨v, hv⟩ := Option.isSome_iff_exists.mp (hfinite h4)
      have hn : number (loadWord data) = v := by
        rw [number, hv]
        rfl
      rw [hn]
      exact clamp_float_number hu hl hv
    simp only [Field.checked, List.mem_cons, List.not_mem_nil, or_false] at hf
    rcases hf with rfl | rfl | rfl | rfl
    · exact clamp_num_cells
    · exact hfloat exact_float5 exact_float0 rfl
    · exact hfloat (hlimit rfl) exact_float0 rfl
    · exact hfloat exact_float150 exact_float1 rfl
  · rw [clamp_value_unchecked hf, clamp_unchecked hf]
    rfl

theorem field_offset_toNat (f : Field) : (UInt16.ofNat f.offset).toNat = f.offset := by
  cases f <;> decide

theorem field_size_toNat (f : Field) : (UInt8.ofNat f.size).toNat = f.size := by
  cases f <;> decide

/-- On a whole field, the byte-wise config_write_field is the one on numbers. -/
theorem field_written_numbers (f : Field)
    (hfinite : f.size = 4 → (value (loadFloat data)).isSome)
    (hlimit : f = .chargeVoltage → Exact (packLimit config) (Config.ofBytes config).packLimit) :
    Config.ofBytes (fieldWritten config (UInt16.ofNat f.offset) data (UInt8.ofNat f.size)) =
      (Config.ofBytes config).writeField f (f.decode (loadWord data)) := by
  funext g
  rw [fieldWritten, field_offset_toNat, field_size_toNat, Config.ofBytes, Config.writeField]
  by_cases hg : g = f
  · subst hg
    rw [Function.update_self, ← clamp_number g hfinite hlimit]
    exact decode_congr g fun i hi => field_copied g hi
  · rw [Function.update_of_ne hg]
    exact decode_congr g fun i hi => field_not_copied hg hi

end Numbers

end Battman
