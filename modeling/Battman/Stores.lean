import Mathlib

/-! Stores that are changed a piece at a time: an append-only log of records, read from its newest
record back; a log of bounded length, replaced by a new one when it is full; and a map that takes
the values of another on more and more places, in any order. -/
namespace RecordLog

variable {κ ν : Type} [DecidableEq κ]

/-- The value of a key: appending gives the appended key its value and leaves every other alone. -/
def latest (k : κ) (log : List (κ × ν)) : Option ν := log.reverse.lookup k

@[simp] theorem latest_nil (k : κ) : latest k ([] : List (κ × ν)) = none := rfl

theorem latest_concat (k : κ) (log : List (κ × ν)) (r : κ × ν) :
    latest k (log ++ [r]) = if k = r.1 then some r.2 else latest k log := by
  unfold latest
  rw [List.reverse_append, List.reverse_singleton, List.singleton_append, List.lookup_cons]
  by_cases h : k = r.1
  · simp [h]
  · have hb : (k == r.1) = false := beq_eq_false_iff_ne.mpr h
    rw [hb, if_neg h]

theorem latest_concat_of_ne {k k' : κ} (h : k ≠ k') (log : List (κ × ν)) (v : ν) :
    latest k (log ++ [(k', v)]) = latest k log := by
  rw [latest_concat, if_neg h]

theorem latest_eq_none {k : κ} {log : List (κ × ν)} (h : ∀ r ∈ log, r.1 ≠ k) :
    latest k log = none := by
  unfold latest
  rw [List.lookup_eq_none_iff]
  intro r hr
  simpa using fun he => h r (List.mem_reverse.mp hr) he.symm

theorem latest_eq_of_forall {k : κ} {v : ν} {log : List (κ × ν)}
    (hall : ∀ r ∈ log, r.1 = k → r.2 = v) (hmem : ∃ r ∈ log, r.1 = k) :
    latest k log = some v := by
  induction log using List.reverseRecOn with
  | nil =>
    obtain ⟨r, hr, _⟩ := hmem
    exact absurd hr List.not_mem_nil
  | append_singleton log r ih =>
    rw [latest_concat]
    split_ifs with h
    · rw [hall r (by simp) h.symm]
    · refine ih (fun r' hr' => hall r' (List.mem_append_left _ hr')) ?_
      obtain ⟨r', hr', hk⟩ := hmem
      rcases List.mem_append.mp hr' with hr' | hr'
      · exact ⟨r', hr', hk⟩
      · rw [List.mem_singleton] at hr'
        exact absurd (hr' ▸ hk).symm h

end RecordLog

namespace CompactingLog

/-- How many records the log has, and how often it was replaced: only the records still needed
are copied to the new one. -/
structure Level where
  used : ℕ
  compactions : ℕ

/-- One more record in a log with room for `slots`; a new log starts with `live` records. -/
def Level.write (slots live : ℕ) (l : Level) : Level :=
  if l.used < slots then { l with used := l.used + 1 } else ⟨live, l.compactions + 1⟩

theorem writes_room {slots live used : ℕ} (n k : ℕ) (h : used + n ≤ slots) :
    (Level.write slots live)^[n] ⟨used, k⟩ = ⟨used + n, k⟩ := by
  induction n with
  | zero => rfl
  | succ n ih =>
    rw [Function.iterate_succ_apply', ih (by omega), Level.write, if_pos (by dsimp only; omega)]
    rfl

/-- Every `slots - live + 1` records cost one compaction, neither more nor less. -/
theorem writes_level {slots live : ℕ} (h : live ≤ slots) (n : ℕ) :
    (Level.write slots live)^[n] ⟨live, 0⟩ =
      ⟨live + n % (slots - live + 1), n / (slots - live + 1)⟩ := by
  have hpos : 0 < slots - live + 1 := by omega
  induction n with
  | zero => simp
  | succ n ih =>
    have hlt := Nat.mod_lt n hpos
    have hsplit := Nat.mod_add_div n (slots - live + 1)
    rw [Function.iterate_succ_apply', ih, Level.write]
    by_cases hroom : n % (slots - live + 1) + 1 < slots - live + 1
    · obtain ⟨hd, hm⟩ := (Nat.div_mod_unique hpos).mpr
        ⟨(by omega : n % (slots - live + 1) + 1 + (slots - live + 1) * (n / (slots - live + 1)) =
          n + 1), hroom⟩
      rw [if_pos (by dsimp only; omega), hd, hm]
      rfl
    · obtain ⟨hd, hm⟩ := (Nat.div_mod_unique hpos).mpr
        ⟨(by rw [mul_add]; omega : 0 + (slots - live + 1) * (n / (slots - live + 1) + 1) = n + 1),
          hpos⟩
      rw [if_neg (by dsimp only; omega), hd, hm]
      rfl

end CompactingLog

namespace Overlay

variable {ι κ β : Type} {S T : Set ι} {f g m m' m'' : ι → β}

/-- `m'` is `f` on `S` and `m` elsewhere. -/
structure Overlaid (S : Set ι) (f m m' : ι → β) : Prop where
  inside : Set.EqOn m' f S
  outside : Set.EqOn m' m Sᶜ

theorem overlaid_nothing (f m : ι → β) : Overlaid ∅ f m m where
  inside := Set.eqOn_empty m f
  outside := fun _ _ => rfl

theorem overlaid_update [DecidableEq ι] (f m : ι → β) (i : ι) :
    Overlaid {i} f m (Function.update m i (f i)) where
  inside := by
    intro j hj
    obtain rfl : j = i := hj
    exact Function.update_self ..
  outside := fun _ hj => Function.update_of_ne hj ..

theorem Overlaid.congr (h : Overlaid S f m m') (hfg : Set.EqOn f g S) : Overlaid S g m m' where
  inside := h.inside.trans hfg
  outside := h.outside

theorem Overlaid.comap (h : Overlaid S f m m') (e : κ → ι) :
    Overlaid (Set.preimage e S) (f ∘ e) (m ∘ e) (m' ∘ e) where
  inside := fun _ hk => h.inside hk
  outside := fun _ hk => h.outside hk

theorem Overlaid.trans (h : Overlaid S f m m') (h' : Overlaid T f m' m'') :
    Overlaid (S ∪ T) f m m'' where
  inside := by
    intro i hi
    by_cases hT : i ∈ T
    · exact h'.inside hT
    · rw [h'.outside hT]
      exact h.inside (hi.resolve_right hT)
  outside := by
    intro i hi
    rw [h'.outside fun hT => hi (Or.inr hT)]
    exact h.outside fun hS => hi (Or.inl hS)

end Overlay
