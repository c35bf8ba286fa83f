import Battman.Config

/-! soc.c: the charge that has left the pack, counted from the current and the clock, with
exact numbers. -/
namespace Battman
open Finset

/-- What a call of soc_update reads: the clock for the interval that ends, the clock for the
one that begins, and the current. -/
structure SocInput where
  time : UInt32
  nextTime : UInt32
  current : ℚ

structure Soc where
  coulombCount : ℚ
  prevTime : UInt32

def socInit (time : UInt32) : Soc := ⟨0, time⟩

def Soc.dt (s : Soc) (x : SocInput) : ℚ := (st2us (x.time - s.prevTime)).toNat / 1000000

def socUpdate (s : Soc) (x : SocInput) : Soc where
  coulombCount := s.coulombCount - x.current * s.dt x
  prevTime := x.nextTime

def socGetRelativeSoc (s : Soc) (config : Config) : ℚ :=
  s.coulombCount * 3600 * 1000 / config .packCapacity

/-- Calls after soc_init, with their readings in ticks since the counter was last zero: the
interval of call `n` is opened by `opened n` and closed by `closed n`. -/
structure SocRun where
  opened : ℕ → ℕ
  closed : ℕ → ℕ
  current : ℕ → ℚ
  within : ∀ n, opened n ≤ closed n ∧ closed n < opened n + 2 ^ 32
  between : ∀ n, closed n ≤ opened (n + 1) ∧ opened (n + 1) < closed n + 2 ^ 32

namespace SocRun

variable (run : SocRun) (n : ℕ)

def input : SocInput where
  time := UInt32.ofNat (run.closed n)
  nextTime := UInt32.ofNat (run.opened (n + 1))
  current := run.current n

def state : ℕ → Soc
  | 0 => socInit (UInt32.ofNat (run.opened 0))
  | n + 1 => socUpdate (state n) (run.input n)

def dt : ℚ := (run.state n).dt (run.input n)

def closedBefore : ℕ → ℕ
  | 0 => run.opened 0
  | n + 1 => run.closed n

def elapsed : ℚ := ((run.closed n : ℚ) - run.closedBefore n) / 10000

/-- The intervals of the calls up to `n` are all of the time since soc_init. -/
structure CountsTime : Prop where
  time : ∑ k ∈ range (n + 1), run.dt k = ((run.closed n : ℚ) - run.opened 0) / 10000
  count : (run.state (n + 1)).coulombCount =
    -∑ k ∈ range (n + 1), run.current k * run.elapsed k

/-- Relative to the pack, after `n` calls: amperes and seconds against mAh. -/
structure InPackUnits (config : Config) : Prop where
  relative : socGetRelativeSoc (run.state n) config =
    -(∑ k ∈ range n, run.current k * run.dt k) * 1000 / 3600 / config .packCapacity
  full : (∑ k ∈ range n, run.current k * run.dt k) * 1000 / 3600 = config .packCapacity →
    socGetRelativeSoc (run.state n) config = -1

end SocRun

variable {run : SocRun} {n : ℕ}

section Intervals

theorem st2us_toNat {ticks : ℕ} :
    (st2us (UInt32.ofNat ticks)).toNat = (1000000 * ticks + 9999) % 2 ^ 32 / 10000 := by
  simp only [st2us, UInt32.toNat_div, UInt32.toNat_add, UInt32.toNat_mul, UInt32.toNat_ofNat',
    UInt32.reduceToNat]
  omega

theorem st2us_le (ticks : ℕ) :
    (st2us (UInt32.ofNat ticks)).toNat ≤ 100 * ticks ∧
      ((st2us (UInt32.ofNat ticks)).toNat = 100 * ticks ↔ ticks ≤ 4294) := by
  rw [st2us_toNat]
  constructor
  · omega
  · constructor
    · intro h
      omega
    · intro h
      omega

theorem prev_time (run : SocRun) (n : ℕ) :
    (run.state n).prevTime = UInt32.ofNat (run.opened n) := by
  cases n <;> rfl

theorem dt_eq (run : SocRun) (n : ℕ) :
    run.dt n = (st2us (UInt32.ofNat (run.closed n - run.opened n))).toNat / 1000000 := by
  rw [SocRun.dt, Soc.dt, prev_time, SocRun.input, UInt32.ofNat_sub (run.within n).1]

theorem dt_le (run : SocRun) (n : ℕ) :
    run.dt n ≤ ((run.closed n : ℚ) - run.opened n) / 10000 ∧
      (run.dt n = ((run.closed n : ℚ) - run.opened n) / 10000 ↔
        run.closed n - run.opened n ≤ 4294) := by
  obtain ⟨hle, heq⟩ := st2us_le (run.closed n - run.opened n)
  have hcast : ((run.closed n : ℚ) - run.opened n) / 10000 =
      ((100 * (run.closed n - run.opened n) : ℕ) : ℚ) / 1000000 := by
    push_cast [Nat.cast_sub (run.within n).1]
    ring
  rw [dt_eq, hcast, ← heq]
  constructor
  · gcongr
  · exact (div_left_inj' (by norm_num)).trans Nat.cast_inj

theorem intervals_and_gaps (run : SocRun) (n : ℕ) :
    ∑ k ∈ range (n + 1), ((run.closed k : ℚ) - run.opened k) / 10000 +
        ∑ k ∈ range n, ((run.opened (k + 1) : ℚ) - run.closed k) / 10000 =
      ((run.closed n : ℚ) - run.opened 0) / 10000 := by
  induction n with
  | zero => simp
  | succ n ih =>
    rw [sum_range_succ, sum_range_succ fun k => ((run.opened (k + 1) : ℚ) - run.closed k) / 10000]
    linear_combination ih

theorem time_counted_iff (run : SocRun) (n : ℕ) :
    ∑ k ∈ range (n + 1), run.dt k = ((run.closed n : ℚ) - run.opened 0) / 10000 ↔
      (∀ k ≤ n, run.closed k - run.opened k ≤ 4294) ∧
        ∀ k < n, run.opened (k + 1) = run.closed k := by
  have htotal := intervals_and_gaps run n
  have hlost (k : ℕ) (_ : k ∈ range (n + 1)) :
      0 ≤ ((run.closed k : ℚ) - run.opened k) / 10000 - run.dt k := sub_nonneg.mpr (dt_le run k).1
  have hgap (k : ℕ) (_ : k ∈ range n) :
      0 ≤ ((run.opened (k + 1) : ℚ) - run.closed k) / 10000 :=
    div_nonneg (sub_nonneg.mpr (by exact_mod_cast (run.between k).1)) (by norm_num)
  constructor
  · intro h
    have hsum : ∑ k ∈ range (n + 1), (((run.closed k : ℚ) - run.opened k) / 10000 - run.dt k) +
        ∑ k ∈ range n, ((run.opened (k + 1) : ℚ) - run.closed k) / 10000 = 0 := by
      rw [sum_sub_distrib]
      linear_combination htotal - h
    have hl := sum_nonneg hlost
    have hg := sum_nonneg hgap
    have hlost' := (sum_eq_zero_iff_of_nonneg hlost).mp (by linarith)
    have hgap' := (sum_eq_zero_iff_of_nonneg hgap).mp (by linarith)
    constructor
    · intro k hk
      have hk := hlost' k (mem_range.mpr (by omega))
      exact (dt_le run k).2.mp (by linarith)
    · intro k hk
      have hk := hgap' k (mem_range.mpr hk)
      have heq : (run.opened (k + 1) : ℚ) = run.closed k := by linarith
      exact_mod_cast heq
  · rintro ⟨hshort, hclose⟩
    have hdt : ∑ k ∈ range (n + 1), run.dt k =
        ∑ k ∈ range (n + 1), ((run.closed k : ℚ) - run.opened k) / 10000 :=
      sum_congr rfl fun k hk =>
        (dt_le run k).2.mpr (hshort k (Nat.lt_succ_iff.mp (mem_range.mp hk)))
    have hzero : ∑ k ∈ range n, ((run.opened (k + 1) : ℚ) - run.closed k) / 10000 = 0 := by
      apply sum_eq_zero
      intro k hk
      rw [hclose k (mem_range.mp hk), sub_self, zero_div]
    rw [hdt, ← htotal, hzero, add_zero]

end Intervals

section Counting

theorem coulomb_count_eq (run : SocRun) (n : ℕ) :
    (run.state n).coulombCount = -∑ k ∈ range n, run.current k * run.dt k := by
  induction n with
  | zero => simp [SocRun.state, socInit]
  | succ n ih =>
    have hstep : (run.state (n + 1)).coulombCount =
        (run.state n).coulombCount - run.current n * run.dt n := rfl
    rw [hstep, ih, sum_range_succ]
    ring

/-- The intervals are all of the time exactly when none is longer than 4294 ticks, where ST2US
leaves 32 bits, and the clock has not moved between the two readings of any call before. -/
theorem counts_time_iff (run : SocRun) (n : ℕ) :
    run.CountsTime n ↔
      (∀ k ≤ n, run.closed k - run.opened k ≤ 4294) ∧
        ∀ k < n, run.opened (k + 1) = run.closed k := by
  constructor
  · exact fun h => (time_counted_iff run n).mp h.time
  · intro h
    refine ⟨(time_counted_iff run n).mpr h, ?_⟩
    have helapsed (k : ℕ) (hk : k ≤ n) : run.elapsed k = run.dt k := by
      rw [(dt_le run k).2.mpr (h.1 k hk)]
      cases k with
      | zero => rfl
      | succ k => rw [SocRun.elapsed, SocRun.closedBefore, h.2 k hk]
    rw [coulomb_count_eq]
    refine congrArg _ (sum_congr rfl fun k hk => ?_)
    rw [helapsed k (Nat.lt_succ_iff.mp (mem_range.mp hk))]

/-- Every call takes 10 ticks from the last one and one tick between its readings. -/
def straddlingRun : SocRun where
  opened n := 11 * n
  closed n := 11 * n + 10
  current _ := 1
  within _ := by omega
  between _ := by omega

theorem straddled_tick_lost : ¬ ∀ (run : SocRun) (n : ℕ), run.CountsTime n := by
  intro h
  exact absurd ((time_counted_iff straddlingRun 1).mp (h straddlingRun 1).time).2 (by decide)

/-- The factor 3600 * 1000 of the getter stands where 1000 / 3600 converts the units. -/
theorem relative_soc_eq (run : SocRun) (n : ℕ) (config : Config) :
    socGetRelativeSoc (run.state n) config = 3600 * 3600 *
      (-(∑ k ∈ range n, run.current k * run.dt k) * 1000 / 3600 / config .packCapacity) := by
  rw [socGetRelativeSoc, coulomb_count_eq]
  ring

/-- For a pack with a capacity, the getter is in units of it exactly when as much charge has
entered the pack as has left it. -/
theorem in_pack_units_iff (run : SocRun) (n : ℕ) (config : Config)
    (hcapacity : 0 < config .packCapacity) :
    run.InPackUnits n config ↔ ∑ k ∈ range n, run.current k * run.dt k = 0 := by
  have hsoc := relative_soc_eq run n config
  constructor
  · intro h
    have hzero : -(∑ k ∈ range n, run.current k * run.dt k) * 1000 / 3600 /
        config .packCapacity = 0 := by linarith [h.relative]
    have hnum := (div_eq_zero_iff.mp hzero).resolve_right hcapacity.ne'
    linarith
  · intro h
    constructor
    · rw [hsoc, h]
      simp
    · intro hfull
      rw [h, zero_mul, zero_div] at hfull
      exact absurd hfull hcapacity.ne

theorem in_pack_units_iff_first_call :
    straddlingRun.InPackUnits 1 Config.default ↔
      ∑ k ∈ range 1, straddlingRun.current k * straddlingRun.dt k = 0 :=
  in_pack_units_iff straddlingRun 1 Config.default (by decide +kernel)

theorem first_call_not_in_pack_units :
    ¬ ∀ (run : SocRun) (n : ℕ) (config : Config), 0 < config .packCapacity →
      run.InPackUnits n config := by
  intro h
  exact absurd (h straddlingRun 1 Config.default (by decide +kernel)).relative (by decide +kernel)

end Counting

end Battman
