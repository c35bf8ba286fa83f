import Battman.Calendar

/-! rtcc.c: the shutdown alarm, a month less a day ahead. -/
namespace Battman
open Calendar

structure Time where
  second : UInt8
  minute : UInt8
  hour : UInt8
  day : UInt8
  month : UInt8
  year : UInt8

/-- `((rx[0] >> 4) & mask) * 10 + (rx[0] & 0x0F)`. -/
def bcdField (mask rx : UInt8) : UInt8 := ((rx >>> 4) &&& mask) * 10 + (rx &&& 0x0F)

/-- rtcc_update on the registers of the clock; nothing is masked out of the year. -/
def rtccUpdate (register : UInt8 → UInt8) : Time where
  second := bcdField 0x07 (register 0x01)
  minute := bcdField 0x07 (register 0x02)
  hour := bcdField 0x03 (register 0x03)
  day := bcdField 0x03 (register 0x04)
  month := bcdField 0x01 (register 0x06)
  year := (register 0x07 >>> 4) * 10 + (register 0x07 &&& 0x0F)

def hexToBcd (x : UInt8) : UInt8 := ((x / 10) <<< 4) ||| (x % 10)

def alarmMonth (time : Time) : UInt8 :=
  if time.day = 1 then time.month else UInt8.ofNat ((time.month.toNat + 1) % 12)

def alarmNumDays (time : Time) : UInt8 :=
  let month := alarmMonth time
  if month = 1 ∨ month = 3 ∨ month = 5 ∨ month = 8 ∨ month = 10 ∨ month = 12 then 31
  else if month = 2 then if time.year % 4 = 0 then 29 else 28
  else 30

def alarmDay (time : Time) : UInt8 :=
  if time.day = 1 then alarmNumDays time
  else if ((alarmNumDays time).toNat : ℤ) < (time.day.toNat : ℤ) - 1 then alarmNumDays time
  else time.day - 1

/-- The memory from `tx` on, the offsets at which it is accessed, and the messages to the clock,
the last one last. -/
structure AlarmState where
  tx : ℕ → UInt8
  accesses : List ℕ
  sent : List (List UInt8)

def txSize : ℕ := 1

def setTx (i : ℕ) (value : UInt8) : StateM AlarmState Unit :=
  modify fun s =>
    { s with tx := Function.update s.tx i value, accesses := s.accesses ++ [i] }

def transmitTx (n : ℕ) : StateM AlarmState Unit :=
  modify fun s =>
    { s with
      accesses := s.accesses ++ List.range n
      sent := s.sent ++ [(List.range n).map s.tx] }

def rtccEnableAlarm (time : Time) : StateM AlarmState Unit := do
  setTx 0 0x0B
  setTx 1 (hexToBcd (alarmDay time))
  transmitTx 2
  setTx 0 0x10
  setTx 1 0x08
  transmitTx 2

def alarmRun (time : Time) (tx : ℕ → UInt8) : AlarmState :=
  (rtccEnableAlarm time { tx, accesses := [], sent := [] }).2

def Time.at (time : Time) (today : Date) : Time :=
  { time with
    day := UInt8.ofNat today.day
    month := UInt8.ofNat today.month
    year := UInt8.ofNat (today.year % 100) }

/-- When the alarm should go off: on the last of the month if today is the first, otherwise a
month less a day ahead, or on the last of a next month that is too short. -/
def alarmDate (today : Date) : Date :=
  if h : today.day = 1 then
    today.onDay today.length ⟨today.length_bounds.1.trans' (by decide), le_rfl⟩
  else
    today.firstOfNext.onDay (min (today.day - 1) today.firstOfNext.length)
      ⟨le_min (by have := today.dayValid.1; omega)
        (today.firstOfNext.length_bounds.1.trans' (by decide)), min_le_right _ _⟩

structure AlarmRight (today : Date) (time : Time) (tx : ℕ → UInt8) : Prop where
  date : today.FirstAfter (alarmDay time).toNat (alarmDate today)
  message : (alarmRun time tx).sent.head? = some [0x0B, hexToBcd (alarmDay time)]
  inside : ∀ i ∈ (alarmRun time tx).accesses, i < txSize
  decoded : ∀ register : UInt8 → UInt8, register 0x04 = hexToBcd (alarmDay time) →
    (rtccUpdate register).day = alarmDay time

section Days

variable {today : Date} {time : Time} {m y : ℕ}

theorem alarm_date_first (today : Date) :
    today.FirstAfter (alarmDate today).day (alarmDate today) := by
  have hlength := today.length_bounds
  rw [alarmDate]
  split_ifs with h
  · refine Date.first_in_month ?_ _
    change today.day < today.length
    omega
  · exact Date.first_in_next ((min_le_left _ _).trans (Nat.sub_le _ _)) _

theorem time_day (time : Time) (today : Date) : (time.at today).day.toNat = today.day := by
  have hday := today.dayValid
  have hlength := month_length_bounds today.year today.month
  exact UInt8.toNat_ofNat_of_lt' (by change _ < 256; omega)

theorem time_year (h : 2000 ≤ today.year ∧ today.year ≤ 2099) :
    (time.at today).year % 4 = 0 ↔ leap today.year = true := by
  have hyear : (time.at today).year.toNat = today.year % 100 :=
    UInt8.toNat_ofNat_of_lt' (by change _ < 256; omega)
  have hfour : (4 : UInt8).toNat = 4 := rfl
  have hzero : (0 : UInt8).toNat = 0 := rfl
  rw [← UInt8.toNat_inj, UInt8.toNat_mod, hyear, hfour, hzero]
  simp only [leap, Bool.and_eq_true, Bool.or_eq_true, decide_eq_true_eq]
  omega

/-- July is missing from the months with 31 days. -/
theorem num_days_length (hmonth : alarmMonth time = UInt8.ofNat m) (hm : 1 ≤ m ∧ m ≤ 12)
    (hyear : time.year % 4 = 0 ↔ leap y = true) :
    (alarmNumDays time).toNat = if m = 7 then 30 else monthLength y m := by
  obtain ⟨hlo, hhi⟩ := hm
  simp only [alarmNumDays, hmonth, monthLength, hyear]
  cases leap y <;> interval_cases m <;> rfl

theorem time_first (time : Time) (today : Date) :
    (time.at today).day = 1 ↔ today.day = 1 := by
  rw [← UInt8.toNat_inj, time_day]
  rfl

theorem alarm_day_first (h : 2000 ≤ today.year ∧ today.year ≤ 2099) (hd : today.day = 1) :
    (alarmDay (time.at today)).toNat =
      if today.month = 7 then 30 else today.length := by
  have hfirst := (time_first time today).mpr hd
  rw [alarmDay, if_pos hfirst]
  exact num_days_length (if_pos hfirst) today.monthValid (time_year h)

/-- On the other days of a month the missing day of July, and of December, does not count: the
month before has only 30. -/
theorem num_days_next (time : Time) (h : 2000 ≤ today.year ∧ today.year ≤ 2099)
    (hd : today.day ≠ 1) : min (today.day - 1) (alarmNumDays (time.at today)).toNat =
      min (today.day - 1) today.firstOfNext.length := by
  have hmonth := today.monthValid
  have hdays := today.dayValid
  have halarm : alarmMonth (time.at today) = UInt8.ofNat ((today.month + 1) % 12) := by
    have hnat : (time.at today).month.toNat = today.month :=
      UInt8.toNat_ofNat_of_lt' (by change _ < 256; omega)
    rw [alarmMonth, if_neg (mt (time_first time today).mp hd), hnat]
  by_cases hnov : today.month = 11
  · have hthirty : alarmNumDays (time.at today) = 30 := by
      rw [alarmNumDays, halarm, hnov]
      rfl
    have hnum : (30 : UInt8).toNat = 30 := rfl
    have hless : monthLength today.year 11 = 30 := rfl
    have hmore : today.firstOfNext.length = 31 := by
      rw [Date.first_of_next_length, hnov]
      rfl
    rw [hnov, hless] at hdays
    rw [hthirty, hnum, hmore]
    omega
  · have hmod : (today.month + 1) % 12 = if today.month = 12 then 1 else today.month + 1 := by
      split_ifs <;> omega
    rw [num_days_length halarm (by omega) (time_year h), Date.first_of_next_length, ← hmod]
    split_ifs with hjuly
    · have hjune : today.month = 6 := by omega
      have hless : monthLength today.year 6 = 30 := rfl
      have hmore : monthLength today.year 7 = 31 := rfl
      rw [hjune, hless] at hdays
      rw [hjuly, hmore]
      omega
    · rfl

theorem alarm_day_next (h : 2000 ≤ today.year ∧ today.year ≤ 2099) (hd : today.day ≠ 1) :
    (alarmDay (time.at today)).toNat = min (today.day - 1) today.firstOfNext.length := by
  have hday := time_day time today
  have hpos := today.dayValid.1
  rw [← num_days_next time h hd, alarmDay, if_neg (mt (time_first time today).mp hd)]
  split_ifs with hlt
  · omega
  · have hone : (1 : UInt8).toNat = 1 := rfl
    have hle : (1 : UInt8) ≤ (time.at today).day := by
      rw [UInt8.le_iff_toNat_le]
      omega
    rw [UInt8.toNat_sub_of_le _ _ hle]
    omega

theorem alarm_day_iff (h : 2000 ≤ today.year ∧ today.year ≤ 2099) :
    today.FirstAfter (alarmDay (time.at today)).toNat (alarmDate today) ↔
      ¬ (today.month = 7 ∧ today.day = 1) := by
  have hfirst := alarm_date_first today
  have hsame : (alarmDay (time.at today)).toNat = (alarmDate today).day ↔
      ¬ (today.month = 7 ∧ today.day = 1) := by
    by_cases hd : today.day = 1
    · rw [alarm_day_first h hd, alarmDate, dif_pos hd]
      change (if today.month = 7 then 30 else today.length) = today.length ↔ _
      split_ifs with hjuly
      · have hlength : today.length = 31 := by
          rw [Date.length, hjuly]
          rfl
        simp [hlength, hjuly, hd]
      · simp [hjuly]
    · rw [alarm_day_next h hd, alarmDate, dif_neg hd]
      simp [Date.onDay, hd]
  rw [← hsame]
  constructor
  · rintro ⟨k, -, -, hday, -⟩
    exact hday.symm
  · intro heq
    rwa [heq]

theorem bcd_decodes : ∀ day : ℕ, day < 40 →
    bcdField 0x03 (hexToBcd (UInt8.ofNat day)) = UInt8.ofNat day := by
  decide

theorem alarm_day_le (time : Time) (h : 2000 ≤ today.year ∧ today.year ≤ 2099) :
    (alarmDay (time.at today)).toNat < 40 := by
  by_cases hd : today.day = 1
  · have hlength := today.length_bounds
    rw [alarm_day_first h hd]
    split_ifs <;> omega
  · have hlength := today.firstOfNext.length_bounds
    rw [alarm_day_next h hd]
    omega

theorem alarm_day_decoded (h : 2000 ≤ today.year ∧ today.year ≤ 2099) (register : UInt8 → UInt8)
    (hday : register 0x04 = hexToBcd (alarmDay (time.at today))) :
    (rtccUpdate register).day = alarmDay (time.at today) := by
  have hdecode := bcd_decodes _ (alarm_day_le time h)
  rw [UInt8.ofNat_toNat, ← hday] at hdecode
  exact hdecode

end Days

theorem alarm_accesses (time : Time) (tx : ℕ → UInt8) :
    (alarmRun time tx).accesses = [0, 1, 0, 1, 0, 1, 0, 1] := rfl

theorem alarm_sent (time : Time) (tx : ℕ → UInt8) :
    (alarmRun time tx).sent = [[0x0B, hexToBcd (alarmDay time)], [0x10, 0x08]] := rfl

theorem alarm_outside (time : Time) (tx : ℕ → UInt8) :
    ¬ ∀ i ∈ (alarmRun time tx).accesses, i < txSize := by
  rw [alarm_accesses]
  decide

/-- No alarm is set as it should be, since all of them leave the buffer. But for that the message
and the decoding are right, and the day is except on the first of July. -/
theorem alarm_never_right (today : Date) (time : Time) (tx : ℕ → UInt8)
    (h : 2000 ≤ today.year ∧ today.year ≤ 2099) :
    ¬ AlarmRight today (time.at today) tx ∧
      (today.FirstAfter (alarmDay (time.at today)).toNat (alarmDate today) ↔
        ¬ (today.month = 7 ∧ today.day = 1)) ∧
      (alarmRun (time.at today) tx).sent =
        [[0x0B, hexToBcd (alarmDay (time.at today))], [0x10, 0x08]] ∧
      ∀ register : UInt8 → UInt8, register 0x04 = hexToBcd (alarmDay (time.at today)) →
        (rtccUpdate register).day = alarmDay (time.at today) :=
  ⟨fun hright => alarm_outside _ tx hright.inside, alarm_day_iff h, alarm_sent _ tx,
    alarm_day_decoded h⟩

def firstOfJuly : Date := ⟨2024, 7, 1, by decide, by decide⟩

def midnight : Time := ⟨0, 0, 0, 0, 0, 0⟩

theorem alarm_never_right_july :
    ¬ AlarmRight firstOfJuly (midnight.at firstOfJuly) (fun _ => 0) ∧
      ¬ firstOfJuly.FirstAfter (alarmDay (midnight.at firstOfJuly)).toNat
        (alarmDate firstOfJuly) := by
  obtain ⟨hright, hday, -⟩ := alarm_never_right firstOfJuly midnight (fun _ => 0) (by decide)
  exact ⟨hright, fun hfirst => hday.mp hfirst ⟨rfl, rfl⟩⟩

/-- On the first of July the alarm is set for the 30th, with a write behind the buffer. -/
theorem july_alarm_wrong :
    ¬ ∀ (today : Date) (time : Time) (tx : ℕ → UInt8), 2000 ≤ today.year ∧ today.year ≤ 2099 →
      AlarmRight today (time.at today) tx := by
  intro h
  have hright := h firstOfJuly midnight (fun _ => 0) (by decide)
  obtain ⟨k, -, -, hday, -⟩ := hright.date
  exact absurd hday (by decide)

end Battman
