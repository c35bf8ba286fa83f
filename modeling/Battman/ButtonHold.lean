import Battman.PowerButton

/-! Runs of power_update up to a power-off by button: whether the button was held all the time
from the recorded start on. -/
namespace Battman
open Interference Prog

/-- Calls of power_update one after another, after a start that was not the alarm's. Before each
step the others may have written what is theirs; the ticks do not decrease. -/
structure ButtonRun where
  boot : Power
  see : ℕ → ℕ → Scene
  notAlarm : boot.powerOnEvent ≠ .rtcc
  notReleased : boot.powerButtonReleased = false
  notStarted : boot.shutdownStarted = false
  notShutdown : boot.shutdown = false
  within : ∀ n i, (see n i).ticks ≤ (see n (i + 1)).ticks
  across : ∀ n i, (see n i).ticks ≤ (see (n + 1) 0).ticks

namespace ButtonRun

variable (run : ButtonRun) (n : ℕ)

def state : ℕ → Power
  | 0 => run.boot
  | n + 1 => (powerUpdate.watch scene (run.see n) (state n)).2.2

def begins : List (Place × Scene) × Course × Power :=
  course.watch scene (run.see n) (run.state n)

def courseOf : Course := (run.begins n).2.1

def buttonAt : ℕ := (run.begins n).1.length

/-- What the call `n` reads of the button, the charger and USB, if it comes to that. -/
def reads : Option Scene :=
  if run.courseOf n = .button then some (run.see n (run.buttonAt n)) else none

def noteAt : ℕ := (switching.watch scene (run.see n) (run.state n)).1.length

def Released : Prop :=
  run.courseOf n ≠ .shorted ∧ (run.see n (run.noteAt n)).outside.pwrBtn = true

def Records : Prop :=
  (run.state n).shutdownStarted = false ∧ (run.state (n + 1)).shutdownStarted = true

/-- The ticks that are recorded: the clock is read after the tests of the button and of
shutdownStarted. -/
def recordedAt : ℕ := (run.see n (run.buttonAt n + 2)).ticks

def measured : Scene :=
  run.see n (run.buttonAt n + if (run.state n).shutdownStarted then 2 else 4)

/-- The call `n` sets shutdown in the branch of the button. -/
def ShutsDown : Prop := run.courseOf n = .button ∧ (run.state (n + 1)).shutdown = true

/-- Call `m` is the last that records the time, up to call `n`. From there to call `n` every call
reads the button held, for longer than the delay of 10 ticks a millisecond, and before the record
the button was read released. -/
structure HeldThrough (m n : ℕ) : Prop where
  records : run.Records m
  last : ∀ k, m < k → k ≤ n → ¬ run.Records k
  held : ∀ k, m ≤ k → k ≤ n → ∃ o, run.reads k = some o ∧ o.Held
  span : run.recordedAt m + 10 * ((run.measured n).outside.config .shutdownDelay).toNat <
    (run.measured n).ticks
  released : ∃ j ≤ m, run.Released j

/-- A hold is recorded before the call `k` and still before the call `n`. -/
def Holding (k n : ℕ) : Prop := ∀ i, k ≤ i → i ≤ n → (run.state i).shutdownStarted = true

def noted : HoldTimer := (run.begins n).2.2.holdTimer

def timer : HoldTimer := (run.state n).holdTimer

end ButtonRun

section Calls

variable (run : ButtonRun) (n : ℕ)

namespace ButtonRun

theorem begins_eq : (run.begins n).2 =
    let w := switching.watch scene (run.see n) (run.state n)
    if w.2.1 then (.shorted, w.2.2)
    else (noting.watch scene (fun i => run.see n (run.noteAt n + i)) w.2.2).2 := by
  rw [begins, course_eq, watch_bind]
  dsimp only [noteAt]
  split_ifs <;> rfl

theorem noted_shorted (h : run.courseOf n = .shorted) : run.noted n = run.timer n := by
  have hbegins := run.begins_eq n
  dsimp only at hbegins
  split_ifs at hbegins with hshort
  · rw [noted, hbegins]
    exact switching_timer (run.see n) (run.state n)
  · rw [courseOf, hbegins] at h
    exact absurd h (noting_watch _ _).1

theorem noted_read (h : run.courseOf n ≠ .shorted) :
    run.noted n = (run.timer n).note (run.see n (run.noteAt n)) ∧
      (run.courseOf n = .button → (run.timer n).shutdown = false) := by
  have hbegins := run.begins_eq n
  have hsame := switching_timer (run.see n) (run.state n)
  dsimp only at hbegins
  split_ifs at hbegins with hshort
  · rw [courseOf, hbegins] at h
    exact absurd rfl h
  · obtain ⟨-, hnote, hoff⟩ := noting_watch (fun i => run.see n (run.noteAt n + i))
      (switching.watch scene (run.see n) (run.state n)).2.2
    rw [hsame] at hnote
    rw [noted, courseOf, hbegins]
    exact ⟨hnote, fun hb => (congrArg HoldTimer.shutdown hsame).symm.trans (hoff hb)⟩

theorem state_succ : run.state (n + 1) =
    ((run.courseOf n).rest.watch scene (fun i => run.see n (run.buttonAt n + i))
      (run.begins n).2.2).2.2 := by
  rw [state, power_update_course, watch_bind]
  rfl

theorem noted_same : (run.noted n).powerOnEvent = (run.timer n).powerOnEvent ∧
    (run.noted n).shutdownStarted = (run.timer n).shutdownStarted ∧
    (run.noted n).shutdown = (run.timer n).shutdown ∧
    (run.noted n).shutdownStartTime = (run.timer n).shutdownStartTime := by
  by_cases h : run.courseOf n = .shorted
  · rw [run.noted_shorted n h]
    exact ⟨rfl, rfl, rfl, rfl⟩
  · rw [(run.noted_read n h).1]
    exact ⟨rfl, rfl, rfl, rfl⟩

def nextTimer : HoldTimer :=
  match run.courseOf n with
  | .shorted => run.noted n
  | .off => { run.noted n with shutdown := true }
  | .button =>
    if (run.noted n).powerButtonReleased = true ∧ (run.see n (run.buttonAt n)).Held then
      ((run.noted n).record (run.see n (run.buttonAt n + 2))).measure (run.measured n)
    else (run.noted n).release

theorem timer_succ_of (hs : (run.timer n).powerOnEvent ≠ .rtcc) :
    run.timer (n + 1) = run.nextTimer n := by
  rw [timer, state_succ, nextTimer]
  cases h : run.courseOf n with
  | shorted => rfl
  | off => exact switch_off_timer _ _
  | button =>
    obtain ⟨hevent, hstarted, -, -⟩ := run.noted_same n
    have hbutton := button_update_timer (fun i => run.see n (run.buttonAt n + i))
      (run.begins n).2.2 (by rw [← hevent] at hs; exact hs)
    refine hbutton.trans ?_
    change (if _ then _ else _) = if _ then _ else _
    have hmeasured : run.see n (run.buttonAt n +
        if (run.begins n).2.2.shutdownStarted then 2 else 4) = run.measured n := by
      rw [measured]
      exact congrArg (fun b : Bool => run.see n (run.buttonAt n + if b then 2 else 4)) hstarted
    rw [hmeasured]
    rfl

theorem event_ne : (run.timer n).powerOnEvent ≠ .rtcc := by
  induction n with
  | zero => exact run.notAlarm
  | succ n ih =>
    have hnoted := (run.noted_same n).1
    rw [run.timer_succ_of n ih, nextTimer]
    split
    · rwa [hnoted]
    · rwa [← hnoted] at ih
    · split_ifs
      · rw [HoldTimer.measure_eq, HoldTimer.record_eq]
        rwa [← hnoted] at ih
      · rwa [← hnoted] at ih

theorem timer_succ : run.timer (n + 1) = run.nextTimer n := run.timer_succ_of n (run.event_ne n)

theorem button_held (hc : run.courseOf n = .button)
    (h : (run.timer (n + 1)).shutdownStarted = true ∨ (run.timer (n + 1)).shutdown = true) :
    ((run.noted n).powerButtonReleased = true ∧ (run.see n (run.buttonAt n)).Held) ∧
      run.timer (n + 1) =
        ((run.noted n).record (run.see n (run.buttonAt n + 2))).measure (run.measured n) := by
  have hnext := run.timer_succ n
  rw [nextTimer, hc] at hnext
  dsimp only at hnext
  split_ifs at hnext with hheld
  · exact ⟨hheld, hnext⟩
  · rw [hnext] at h
    rcases h with h | h
    · cases h
    · cases h

theorem noted_released (h : (run.noted n).powerButtonReleased = true) :
    (run.timer n).powerButtonReleased = true ∨ run.Released n := by
  by_cases hc : run.courseOf n = .shorted
  · rw [run.noted_shorted n hc] at h
    exact Or.inl h
  · rw [(run.noted_read n hc).1] at h
    exact (Bool.or_eq_true _ _ ▸ h).imp id fun hb => ⟨hc, hb⟩

theorem timer_released (h : (run.timer n).powerButtonReleased = true) :
    ∃ j < n, run.Released j := by
  induction n with
  | zero => exact absurd (run.notReleased.symm.trans h) Bool.false_ne_true
  | succ n ih =>
    have hnoted : (run.noted n).powerButtonReleased = true := by
      rw [timer_succ, nextTimer] at h
      split at h
      · exact h
      · exact h
      · split_ifs at h
        · rw [HoldTimer.measure_eq, HoldTimer.record_eq] at h
          exact h
        · exact h
    rcases run.noted_released n hnoted with hbefore | hnow
    · obtain ⟨j, hj, hr⟩ := ih hbefore
      exact ⟨j, hj.trans (Nat.lt_succ_self n), hr⟩
    · exact ⟨n, Nat.lt_succ_self n, hnow⟩

theorem shutdown_stays (h : (run.timer n).shutdown = true) :
    (run.timer (n + 1)).shutdown = true := by
  rw [timer_succ, nextTimer]
  cases hc : run.courseOf n with
  | shorted => exact (run.noted_same n).2.2.1.trans h
  | off => rfl
  | button =>
    have hoff := (run.noted_read n (by rw [hc]; exact nofun)).2 hc
    exact absurd (h.symm.trans hoff) (by decide)

theorem running_before (h : (run.timer n).shutdown = false) {i : ℕ} (hi : i ≤ n) :
    (run.timer i).shutdown = false := by
  induction n, hi using Nat.le_induction with
  | base => exact h
  | succ n _ ih =>
    refine ih (Bool.eq_false_iff.mpr fun hon => ?_)
    exact absurd (h.symm.trans (run.shutdown_stays n hon)) Bool.false_ne_true

end ButtonRun

end Calls

section Holds

/-- Where `p` holds after it has not, there is a last time when it did not. -/
theorem exists_rise {p : ℕ → Prop} {n : ℕ} (h₀ : ¬ p 0) (hn : p n) :
    ∃ m < n, ¬ p m ∧ ∀ i, m < i → i ≤ n → p i := by
  induction n with
  | zero => exact absurd hn h₀
  | succ n ih =>
    by_cases h : p n
    · obtain ⟨m, hm, hnot, hall⟩ := ih h
      refine ⟨m, hm.trans (Nat.lt_succ_self n), hnot, fun i hi hin => ?_⟩
      rcases Nat.le_succ_iff.mp hin with hin | rfl
      · exact hall i hi hin
      · exact hn
    · refine ⟨n, Nat.lt_succ_self n, h, fun i hi hin => ?_⟩
      rwa [show i = n + 1 by omega]

namespace ButtonRun

variable {run : ButtonRun} {m n : ℕ}

/-- The hold was recorded in call `m`, and the record has been kept to call `n`. -/
structure HoldSince (run : ButtonRun) (m n : ℕ) : Prop where
  before : m < n
  records : run.Records m
  kept : run.Holding (m + 1) n

theorem hold_since (h : (run.timer n).shutdownStarted = true) : ∃ m, run.HoldSince m n := by
  have hstart : ¬ (run.timer 0).shutdownStarted = true := fun h₀ =>
    Bool.false_ne_true (run.notStarted.symm.trans h₀)
  obtain ⟨m, hm, hnot, hkept⟩ :=
    exists_rise (p := fun i => (run.timer i).shutdownStarted = true) hstart h
  refine ⟨m, hm, ⟨Bool.eq_false_iff.mpr hnot, hkept (m + 1) (Nat.lt_succ_self m) hm⟩, ?_⟩
  exact fun i hi hin => hkept i hi hin

theorem course_running (hoff : (run.timer n).shutdown = false) {i : ℕ} (hin : i < n) :
    run.courseOf i = .shorted ∨ run.courseOf i = .button := by
  cases hc : run.courseOf i with
  | shorted => exact Or.inl rfl
  | button => exact Or.inr rfl
  | off =>
    have hnext := run.timer_succ i
    rw [nextTimer, hc] at hnext
    have hon := run.running_before n hoff hin
    rw [hnext] at hon
    cases hon

theorem records_button (h : run.Records m) : run.courseOf m = .button := by
  have hsame := (run.noted_same m).2.1
  have hstarted : (run.timer m).shutdownStarted = false := h.1
  have hnext := run.timer_succ m
  rw [nextTimer] at hnext
  cases hc : run.courseOf m with
  | button => rfl
  | _ =>
    rw [hc] at hnext
    have hrecorded : (run.timer (m + 1)).shutdownStarted = true := h.2
    rw [hnext] at hrecorded
    exact absurd (hrecorded.symm.trans (hsame.trans hstarted)) (by decide)

theorem records_held (h : run.Records m) :
    ((run.noted m).powerButtonReleased = true ∧ (run.see m (run.buttonAt m)).Held) ∧
      run.timer (m + 1) =
        ((run.noted m).record (run.see m (run.buttonAt m + 2))).measure (run.measured m) :=
  run.button_held m (records_button h) (Or.inl h.2)

theorem records_released (h : run.Records m) : ∃ j ≤ m, run.Released j := by
  rcases run.noted_released m (records_held h).1.1 with hbefore | hnow
  · obtain ⟨j, hj, hr⟩ := run.timer_released m hbefore
    exact ⟨j, hj.le, hr⟩
  · exact ⟨m, le_rfl, hnow⟩

theorem reads_button (hc : run.courseOf n = .button) :
    run.reads n = some (run.see n (run.buttonAt n)) := if_pos hc

namespace HoldSince

theorem last (h : run.HoldSince m n) {k : ℕ} (hk : m < k) (hkn : k ≤ n) : ¬ run.Records k :=
  fun hrec => Bool.false_ne_true (hrec.1.symm.trans (h.kept k hk hkn))

theorem reads (h : run.HoldSince m n) (hoff : (run.timer n).shutdown = false) {i : ℕ}
    (hi : m ≤ i) (hin : i < n) :
    run.courseOf i = .shorted ∨ ∃ o, run.reads i = some o ∧ o.Held := by
  refine (course_running hoff hin).imp id fun hc => ?_
  have hstarted : (run.timer (i + 1)).shutdownStarted = true := h.kept (i + 1) (by omega) hin
  exact ⟨_, reads_button hc, (run.button_held i hc (Or.inl hstarted)).1.2⟩

theorem start_time (h : run.HoldSince m n) (hoff : (run.timer n).shutdown = false) {i : ℕ}
    (hi : m + 1 ≤ i) (hin : i ≤ n) :
    (run.timer i).shutdownStartTime = UInt32.ofNat (run.recordedAt m) := by
  induction i, hi using Nat.le_induction with
  | base =>
    have hstarted : (run.noted m).shutdownStarted = false :=
      (run.noted_same m).2.1.trans h.records.1
    rw [(records_held h.records).2, HoldTimer.measure_eq]
    exact HoldTimer.record_start_time hstarted
  | succ i hi ih =>
    obtain ⟨-, hstarted, -, htime⟩ := run.noted_same i
    have hnow : (run.noted i).shutdownStarted = true :=
      hstarted.trans (h.kept i hi (by omega))
    rcases course_running hoff hin with hc | hc
    · have hnext := run.timer_succ i
      rw [nextTimer, hc] at hnext
      rw [hnext]
      exact htime.trans (ih (by omega))
    · have hkept : (run.timer (i + 1)).shutdownStarted = true := h.kept (i + 1) (by omega) hin
      rw [(run.button_held i hc (Or.inl hkept)).2, HoldTimer.measure_eq,
        HoldTimer.record_kept hnow]
      exact htime.trans (ih (by omega))

end HoldSince

theorem see_ticks (run : ButtonRun) (n : ℕ) {i j : ℕ} (hij : i ≤ j) :
    (run.see n i).ticks ≤ (run.see n j).ticks := monotone_nat_of_le_succ (run.within n) hij

theorem calls_ticks (run : ButtonRun) {m n : ℕ} (hmn : m < n) (i j : ℕ) :
    (run.see m i).ticks ≤ (run.see n j).ticks := by
  induction n, hmn using Nat.le_induction generalizing j with
  | base => exact (run.across m i).trans (run.see_ticks _ (Nat.zero_le j))
  | succ n _ ih => exact (ih 0).trans ((run.across n 0).trans (run.see_ticks _ (Nat.zero_le j)))

/-- A delay that the counter finds over is over in truth. -/
theorem delay_passed {start now : ℕ} (hle : start ≤ now) (delay : UInt16)
    (h : delay.toUInt32 < st2ms (UInt32.ofNat now - UInt32.ofNat start)) :
    start + 10 * delay.toNat < now := by
  rw [← UInt32.ofNat_sub hle, UInt32.lt_iff_toNat_lt, st2ms_toNat, msOf,
    UInt16.toNat_toUInt32] at h
  have hmod := Nat.mod_le (1000 * (now - start) + 9999) (2 ^ 32)
  omega

theorem shuts_down (h : run.ShutsDown n) :
    (run.timer n).shutdown = false ∧ (run.see n (run.buttonAt n)).Held ∧
      (run.timer (n + 1)).shutdownStarted = true ∧
      ((run.noted n).record (run.see n (run.buttonAt n + 2))).Over (run.measured n) := by
  obtain ⟨hc, hon⟩ := h
  have hoff := (run.noted_read n (by rw [hc]; exact nofun)).2 hc
  obtain ⟨⟨-, hheld⟩, hnext⟩ := run.button_held n hc (Or.inr hon)
  have hnoted : ((run.noted n).record (run.see n (run.buttonAt n + 2))).shutdown = false := by
    rw [HoldTimer.record_eq]
    exact (run.noted_same n).2.2.1.trans hoff
  have hover : (run.timer (n + 1)).shutdown = true := hon
  rw [hnext, HoldTimer.measure_shutdown hnoted] at hover
  refine ⟨hoff, hheld, ?_, hover⟩
  rw [hnext, HoldTimer.measure_eq, HoldTimer.record_eq]

theorem held_in_call (h : run.ShutsDown n) (hs : (run.timer n).shutdownStarted = false) :
    run.HeldThrough n n := by
  obtain ⟨-, hheld, hrecorded, hover⟩ := shuts_down h
  have hstarted : (run.noted n).shutdownStarted = false := (run.noted_same n).2.1.trans hs
  have hrec : run.Records n := ⟨hs, hrecorded⟩
  constructor
  · exact hrec
  · intro k hk hkn
    omega
  · intro k hk hkn
    obtain rfl : k = n := by omega
    exact ⟨_, reads_button h.1, hheld⟩
  · rw [HoldTimer.Over, HoldTimer.record_start_time hstarted] at hover
    refine delay_passed ?_ _ hover
    exact run.see_ticks n (by split_ifs <;> omega)
  · exact records_released hrec

theorem HoldSince.held_through (hsince : run.HoldSince m n) (h : run.ShutsDown n)
    (hno : ∀ k < n, run.Holding k n → run.courseOf k ≠ .shorted) : run.HeldThrough m n := by
  obtain ⟨hoff, hheld, -, hover⟩ := shuts_down h
  obtain ⟨-, hsame, -, htime⟩ := run.noted_same n
  have hstarted : (run.noted n).shutdownStarted = true :=
    hsame.trans (hsince.kept n hsince.before le_rfl)
  constructor
  · exact hsince.records
  · exact fun k hk hkn => hsince.last hk hkn
  · intro k hk hkn
    rcases hkn.lt_or_eq with hlt | rfl
    · refine (hsince.reads hoff hk hlt).resolve_left fun hshort => ?_
      rcases hk.lt_or_eq with hmk | rfl
      · exact hno k hlt (fun i hi hin => hsince.kept i (by omega) hin) hshort
      · exact absurd (hshort.symm.trans (records_button hsince.records)) (by decide)
    · exact ⟨_, reads_button h.1, hheld⟩
  · rw [HoldTimer.Over, HoldTimer.record_kept hstarted, htime,
      hsince.start_time hoff hsince.before le_rfl] at hover
    exact delay_passed (run.calls_ticks hsince.before _ _) _ hover
  · exact records_released hsince.records

end ButtonRun

end Holds

/-- A power-off by button has been held throughout if and only if no call of the hold returned
early because of a short. -/
theorem button_hold_uninterrupted_iff (run : ButtonRun) (n : ℕ) (h : run.ShutsDown n) :
    (∃ m ≤ n, run.HeldThrough m n) ↔
      ∀ k < n, run.Holding k n → run.courseOf k ≠ .shorted := by
  constructor
  · rintro ⟨m, hmn, hm⟩ k hk hhold hshort
    have hmk : m < k := by
      by_contra hle
      have hstarted := hhold m (not_lt.mp hle) hmn
      exact Bool.false_ne_true (hm.records.1.symm.trans hstarted)
    obtain ⟨o, ho, -⟩ := hm.held k hmk.le hk.le
    rw [ButtonRun.reads, hshort, if_neg nofun] at ho
    cases ho
  · intro hno
    cases hs : (run.timer n).shutdownStarted with
    | true =>
      obtain ⟨m, hsince⟩ := ButtonRun.hold_since hs
      exact ⟨m, hsince.before.le, hsince.held_through h hno⟩
    | false => exact ⟨n, le_rfl, ButtonRun.held_in_call h hs⟩

def Scene.quiet (ticks : ℕ) (pressed : Bool) (dischargeVoltage : ℚ) (faults : UInt8) : Scene where
  ticks
  dischargeEnabled := true
  faults
  chargerInputVoltage := 0
  dischargeVoltage
  thermistor := 25
  current := 0
  voltage := 40
  dsgSw := false
  outside := { Surroundings.quiet Config.default dischargeVoltage 40 with pwrBtn := !pressed }

def ButtonRun.still (board : ℕ → Scene) (h : ∀ n, (board n).ticks ≤ (board (n + 1)).ticks) :
    ButtonRun where
  boot := .boot .switch (board 0).outside
  see n _ := board n
  notAlarm := nofun
  notReleased := rfl
  notStarted := rfl
  notShutdown := rfl
  within _ _ := le_refl _
  across n _ := h n

/-- The button is up, and from 0.1 s on down, which the call at 0.4 s finds as well. -/
def heldDown : ℕ → Scene
  | 0 => .quiet 0 false 0 0
  | 1 => .quiet 1000 true 20 0
  | 2 => .quiet 4000 true 20 0
  | _ => .quiet 7000 true 20 0

theorem held_down_ticks : ∀ n, (heldDown n).ticks ≤ (heldDown (n + 1)).ticks
  | 0 | 1 | 2 => by decide
  | _ + 3 => le_rfl

theorem button_hold_uninterrupted_iff_held :
    ∃ m ≤ 3, (ButtonRun.still heldDown held_down_ticks).HeldThrough m 3 := by
  have hdown : (ButtonRun.still heldDown held_down_ticks).ShutsDown 3 :=
    ⟨by decide +kernel, by decide +kernel⟩
  apply (button_hold_uninterrupted_iff _ _ hdown).mpr
  intro k hk _
  interval_cases k <;> decide +kernel

/-- The call at 0.4 s finds the output shorted and the button up, if it read it. -/
def heldApart : ℕ → Scene
  | 0 => .quiet 0 false 0 0
  | 1 => .quiet 1000 true 20 0
  | 2 => .quiet 4000 false 0 0
  | _ => .quiet 7000 true 0 Fault.turnOnShort.bit

theorem held_apart_ticks : ∀ n, (heldApart n).ticks ≤ (heldApart (n + 1)).ticks
  | 0 | 1 | 2 => by decide
  | _ + 3 => le_rfl

/-- The board goes off although the button was up in between. -/
theorem interrupted_hold_shuts_down :
    ¬ ∀ (run : ButtonRun) (n : ℕ), run.ShutsDown n → ∃ m ≤ n, run.HeldThrough m n := by
  intro h
  obtain ⟨m, hm, hheld⟩ := h (.still heldApart held_apart_ticks) 3
    ⟨by decide +kernel, by decide +kernel⟩
  obtain ⟨hbefore, hafter⟩ := hheld.records
  interval_cases m
  · exact absurd hafter (by decide +kernel)
  · obtain ⟨o, ho, -⟩ := hheld.held 2 (by decide) (by decide)
    have hcourse : (ButtonRun.still heldApart held_apart_ticks).courseOf 2 = .shorted := by
      decide +kernel
    rw [ButtonRun.reads, hcourse, if_neg nofun] at ho
    cases ho
  · exact absurd hbefore (by decide +kernel)
  · exact absurd hbefore (by decide +kernel)

end Battman
