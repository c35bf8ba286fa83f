import Battman.FieldNumbers

/-! The charge voltage and the limit of the pack under any order of field writes. -/
namespace Battman

abbrev FieldWrite := (f : Field) × f.Value

namespace Config

def after (c : Config) (writes : List FieldWrite) : Config :=
  writes.foldl (fun c w => c.writeField w.1 w.2) c

def InLimit (c : Config) : Prop := 0 ≤ c .chargeVoltage ∧ c .chargeVoltage ≤ c.packLimit

/-- A write to one of the factors of the limit does not bring it below the charge voltage. -/
def KeepsLimit (c : Config) : FieldWrite → Prop
  | ⟨.numCells, n⟩ => c .chargeVoltage ≤ (c.clamp .numCells n).toNat * c .highVoltageCutoff
  | ⟨.highVoltageCutoff, v⟩ =>
    c .chargeVoltage ≤ (c .numCells).toNat * c.clamp .highVoltageCutoff v
  | _ => True

end Config

variable {c : Config} {w : FieldWrite} {writes : List FieldWrite}

theorem limit_mem {upper lower : ℚ} (h : lower ≤ upper) (v : ℚ) :
    lower ≤ limit upper lower v ∧ limit upper lower v ≤ upper := by
  unfold limit
  split_ifs with hu hl
  · exact ⟨h, le_rfl⟩
  · exact ⟨le_rfl, h⟩
  · exact ⟨not_lt.mp hl, not_lt.mp hu⟩

theorem write_self (c : Config) (f : Field) (v : f.Value) : c.writeField f v f = c.clamp f v :=
  Function.update_self ..

theorem write_other (c : Config) {f g : Field} (h : g ≠ f) (v : f.Value) :
    c.writeField f v g = c g := Function.update_of_ne h ..

theorem cutoff_step (h : 0 ≤ c .highVoltageCutoff) :
    0 ≤ c.writeField w.1 w.2 .highVoltageCutoff := by
  rcases w with ⟨f, v⟩
  by_cases hf : f = .highVoltageCutoff
  · subst hf
    rw [write_self]
    exact (limit_mem (by norm_num) v).1
  · rw [write_other c (Ne.symm hf)]
    exact h

theorem limit_step (hc : 0 ≤ c .highVoltageCutoff) (h : c.InLimit) :
    (c.writeField w.1 w.2).InLimit ↔ c.KeepsLimit w := by
  rcases w with ⟨f, v⟩
  change (c.writeField f v).InLimit ↔ _
  cases f with
  | numCells =>
    rw [Config.InLimit, Config.packLimit, write_self, write_other c (by decide),
      write_other c (by decide)]
    exact and_iff_right h.1
  | highVoltageCutoff =>
    rw [Config.InLimit, Config.packLimit, write_self, write_other c (by decide),
      write_other c (by decide)]
    exact and_iff_right h.1
  | chargeVoltage =>
    have hlimit : 0 ≤ c.packLimit := mul_nonneg (Nat.cast_nonneg _) hc
    rw [Config.InLimit, Config.packLimit, write_self, write_other c (by decide),
      write_other c (by decide)]
    exact iff_of_true (limit_mem hlimit v) trivial
  | _ =>
    rw [Config.InLimit, Config.packLimit, write_other c (by decide), write_other c (by decide),
      write_other c (by decide)]
    exact iff_of_true h trivial

theorem after_append (c : Config) (writes : List FieldWrite) (w : FieldWrite) :
    c.after (writes ++ [w]) = (c.after writes).writeField w.1 w.2 := by
  rw [Config.after, List.foldl_append]
  rfl

theorem cutoff_run (h : 0 ≤ c .highVoltageCutoff) : 0 ≤ c.after writes .highVoltageCutoff := by
  induction writes using List.reverseRecOn with
  | nil => exact h
  | append_singleton writes w ih =>
    rw [after_append]
    exact cutoff_step ih

theorem limit_run (hc : 0 ≤ c .highVoltageCutoff) (h : c.InLimit)
    (hw : ∀ before w after, writes = before ++ w :: after → (c.after before).KeepsLimit w) :
    (c.after writes).InLimit := by
  induction writes using List.reverseRecOn with
  | nil => exact h
  | append_singleton writes w ih =>
    rw [after_append]
    apply (limit_step (cutoff_run hc) (ih ?_)).mpr
    · exact hw writes w [] rfl
    · intro before w' after hs
      exact hw before w' (after ++ [w]) (by rw [hs, List.append_assoc, List.cons_append])

theorem default_cutoff : 0 ≤ Config.default .highVoltageCutoff := by decide +kernel

theorem default_in_limit : Config.default.InLimit := by
  constructor <;> decide +kernel

/-- In every state of a run from the defaults the charge voltage is between 0 and the limit, if
and only if every write to numCells or highVoltageCutoff leaves the limit at or above the
charge voltage of the time. -/
theorem charge_limit_iff (writes : List FieldWrite) :
    (∀ before after, writes = before ++ after → (Config.default.after before).InLimit) ↔
      ∀ before w after, writes = before ++ w :: after →
        (Config.default.after before).KeepsLimit w := by
  constructor
  · intro h before w after hs
    have hbefore := h before (w :: after) hs
    have hafter := h (before ++ [w]) after (by rw [hs, List.append_assoc, List.singleton_append])
    rw [after_append] at hafter
    exact (limit_step (cutoff_run default_cutoff) hbefore).mp hafter
  · rintro h before after rfl
    apply limit_run default_cutoff default_in_limit
    rintro before' w after' rfl
    exact h before' w (after' ++ after) (by rw [List.append_assoc, List.cons_append])

/-- One cell where there were twelve: the charge voltage of 25.2 V stays. -/
theorem one_cell_keeps_charge_voltage :
    ¬ ∀ writes : List FieldWrite, (Config.default.after writes).InLimit := by
  intro h
  exact absurd (h [⟨.numCells, (1 : UInt8)⟩]).2 (by decide +kernel)

end Battman
