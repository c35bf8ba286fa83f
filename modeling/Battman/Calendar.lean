import Mathlib

/-! The Gregorian calendar by its successor function, and the first date after a given one that
falls on a given day of a month. -/
namespace Calendar

def leap (year : ℕ) : Bool := year % 4 = 0 && (year % 100 ≠ 0 || year % 400 = 0)

def monthLength (year month : ℕ) : ℕ :=
  if month = 2 then if leap year then 29 else 28
  else if month = 4 ∨ month = 6 ∨ month = 9 ∨ month = 11 then 30
  else 31

theorem month_length_bounds (year month : ℕ) :
    28 ≤ monthLength year month ∧ monthLength year month ≤ 31 := by
  rw [monthLength]
  split_ifs <;> decide

@[ext] structure Date where
  year : ℕ
  month : ℕ
  day : ℕ
  monthValid : 1 ≤ month ∧ month ≤ 12
  dayValid : 1 ≤ day ∧ day ≤ monthLength year month

namespace Date

variable {d e : Date} {n j k : ℕ}

def length (d : Date) : ℕ := monthLength d.year d.month

theorem length_bounds (d : Date) : 28 ≤ d.length ∧ d.length ≤ 31 :=
  month_length_bounds d.year d.month

def onDay (d : Date) (n : ℕ) (h : 1 ≤ n ∧ n ≤ d.length) : Date :=
  { d with day := n, dayValid := h }

def firstOfNext (d : Date) : Date :=
  if h : d.month = 12 then
    ⟨d.year + 1, 1, 1, by decide, le_rfl, (month_length_bounds _ _).1.trans' (by decide)⟩
  else
    ⟨d.year, d.month + 1, 1, ⟨Nat.le_add_left _ _, by have := d.monthValid; omega⟩, le_rfl,
      (month_length_bounds _ _).1.trans' (by decide)⟩

def tomorrow (d : Date) : Date :=
  if h : d.day < d.length then d.onDay (d.day + 1) ⟨Nat.le_add_left _ _, h⟩ else d.firstOfNext

/-- `e` is the first date after `d` on day `n` of a month. -/
def FirstAfter (d : Date) (n : ℕ) (e : Date) : Prop :=
  ∃ k, 0 < k ∧ tomorrow^[k] d = e ∧ e.day = n ∧ ∀ j, 0 < j → j < k → (tomorrow^[j] d).day ≠ n

theorem first_of_next_day : d.firstOfNext.day = 1 := by
  rw [firstOfNext]
  split_ifs <;> rfl

/-- The year of the next month does not matter, as January is never the short one. -/
theorem first_of_next_length :
    d.firstOfNext.length = monthLength d.year (if d.month = 12 then 1 else d.month + 1) := by
  rw [firstOfNext]
  split_ifs <;> rfl

theorem tomorrow_iterate (h : 1 ≤ d.day + j ∧ d.day + j ≤ d.length) :
    tomorrow^[j] d = d.onDay (d.day + j) h := by
  induction j with
  | zero => rfl
  | succ j ih =>
    have hday := d.dayValid.1
    have hlt : d.day + j < d.length := by omega
    rw [Function.iterate_succ_apply', ih ⟨by omega, hlt.le⟩, tomorrow]
    exact dif_pos hlt

theorem tomorrow_iterate_next (h : 1 ≤ n ∧ n ≤ d.firstOfNext.length) :
    tomorrow^[d.length - d.day + n] d = d.firstOfNext.onDay n h := by
  have hday := d.dayValid
  change 1 ≤ d.day ∧ d.day ≤ d.length at hday
  have hlast : tomorrow^[d.length - d.day] d = d.onDay d.length ⟨by omega, le_rfl⟩ := by
    rw [tomorrow_iterate ⟨by omega, by omega⟩]
    ext
    · rfl
    · rfl
    · exact Nat.add_sub_cancel' hday.2
  have hfirst : (d.onDay d.length ⟨by omega, le_rfl⟩).tomorrow = d.firstOfNext :=
    dif_neg (lt_irrefl d.length)
  have hone := first_of_next_day (d := d)
  rw [show d.length - d.day + n = n - 1 + 1 + (d.length - d.day) by omega,
    Function.iterate_add_apply, hlast, Function.iterate_succ_apply, hfirst,
    tomorrow_iterate (by omega)]
  ext
  · rfl
  · rfl
  · change d.firstOfNext.day + (n - 1) = n
    omega

theorem first_in_month (hn : d.day < n) (h : 1 ≤ n ∧ n ≤ d.length) :
    d.FirstAfter n (d.onDay n h) := by
  refine ⟨n - d.day, by omega, ?_, rfl, fun j hj hlt => ?_⟩
  · rw [tomorrow_iterate ⟨by omega, by omega⟩]
    ext
    · rfl
    · rfl
    · exact Nat.add_sub_cancel' hn.le
  · rw [tomorrow_iterate ⟨by omega, by omega⟩]
    change d.day + j ≠ n
    omega

theorem first_in_next (hn : n ≤ d.day) (h : 1 ≤ n ∧ n ≤ d.firstOfNext.length) :
    d.FirstAfter n (d.firstOfNext.onDay n h) := by
  refine ⟨d.length - d.day + n, by omega, tomorrow_iterate_next h, rfl, fun j hj hlt => ?_⟩
  by_cases hin : d.day + j ≤ d.length
  · rw [tomorrow_iterate ⟨by omega, hin⟩]
    change d.day + j ≠ n
    omega
  · have hsplit : j = d.length - d.day + (j - (d.length - d.day)) := by omega
    rw [hsplit, tomorrow_iterate_next ⟨by omega, by omega⟩]
    change j - (d.length - d.day) ≠ n
    omega

end Date

end Calendar
