import Battman.Charger

/-! The balance decision of charger_update. -/
namespace Battman

variable {cells : ℕ → ℚ} {n numCells : ℕ} {c : Charger} {x : ChargerInput}

section Scanning

/-- After the first `n` cells: the lowest is one of them below 999 V, or there is none. -/
structure Scanned (cells : ℕ → ℚ) (n : ℕ) (s : Scan) : Prop where
  lowest : ∀ i < n, s.lowestCellV ≤ cells i
  limit : s.lowestCellV ≤ 999
  found : ∀ j, s.lowestCellNum = some j → j < n ∧ cells j = s.lowestCellV ∧ cells j < 999
  missing : s.lowestCellNum = none → s.lowestCellV = 999
  highest : ∀ i < n, cells i ≤ s.highestCellV

theorem scan_cell_values (cells : ℕ → ℚ) (s : Scan) (i : ℕ) :
    (s.cell cells i).lowestCellV = min s.lowestCellV (cells i) ∧
      (s.cell cells i).lowestCellNum =
        (if cells i < s.lowestCellV then some i else s.lowestCellNum) ∧
      (s.cell cells i).highestCellV = max s.highestCellV (cells i) := by
  unfold Scan.cell
  by_cases hh : s.highestCellV < cells i <;> by_cases hl : cells i < s.lowestCellV
  · simp [hh, hl, hh.le, hl.le]
  · simp [hh, hl, hh.le, not_lt.mp hl]
  · simp [hh, hl, not_lt.mp hh, hl.le]
  · simp [hh, hl, not_lt.mp hh, not_lt.mp hl]

theorem Scanned.cell {s : Scan} (h : Scanned cells n s) :
    Scanned cells (n + 1) (s.cell cells n) := by
  obtain ⟨hl, hn, hh⟩ := scan_cell_values cells s n
  constructor
  · intro i hi
    rw [hl]
    rcases Nat.lt_succ_iff_lt_or_eq.mp hi with hi | rfl
    · exact (min_le_left _ _).trans (h.lowest i hi)
    · exact min_le_right _ _
  · rw [hl]
    exact (min_le_left _ _).trans h.limit
  · intro j hj
    rw [hn] at hj
    rw [hl]
    by_cases hlt : cells n < s.lowestCellV
    · rw [if_pos hlt] at hj
      obtain rfl := Option.some_inj.mp hj
      exact ⟨Nat.lt_succ_self _, (min_eq_right hlt.le).symm, hlt.trans_le h.limit⟩
    · rw [if_neg hlt] at hj
      obtain ⟨hjn, hjv, hj⟩ := h.found j hj
      exact ⟨hjn.trans (Nat.lt_succ_self n), by rw [hjv, min_eq_left (not_lt.mp hlt)], hj⟩
  · intro hj
    rw [hn] at hj
    by_cases hlt : cells n < s.lowestCellV
    · rw [if_pos hlt] at hj
      cases hj
    · rw [if_neg hlt] at hj
      rw [hl, min_eq_left (not_lt.mp hlt), h.missing hj]
  · intro i hi
    rw [hh]
    rcases Nat.lt_succ_iff_lt_or_eq.mp hi with hi | rfl
    · exact (h.highest i hi).trans (le_max_left _ _)
    · exact le_max_right _ _

theorem scanned (cells : ℕ → ℚ) (n : ℕ) : Scanned cells n (scanCells cells n) := by
  induction n with
  | zero => exact ⟨nofun, le_rfl, nofun, fun _ => rfl, nofun⟩
  | succ n ih =>
    rw [scanCells, List.range_succ, List.foldl_append]
    exact ih.cell

theorem scan_found_iff : (scanCells cells n).lowestCellNum.isSome ↔ ∃ i < n, cells i < 999 := by
  have h := scanned cells n
  constructor
  · intro hs
    obtain ⟨j, hj⟩ := Option.isSome_iff_exists.mp hs
    obtain ⟨hjn, -, hlt⟩ := h.found j hj
    exact ⟨j, hjn, hlt⟩
  · rintro ⟨i, hi, hlt⟩
    by_contra hnone
    have hmissing := h.missing (Option.not_isSome_iff_eq_none.mp hnone)
    exact absurd (h.lowest i hi) (by rw [hmissing]; exact not_le.mpr hlt)

theorem scan_least {j : ℕ} (hj : (scanCells cells n).lowestCellNum = some j) :
    IsLeast (cells '' Set.Iio n) (cells j) := by
  have h := scanned cells n
  obtain ⟨hjn, hjv, -⟩ := h.found j hj
  refine ⟨Set.mem_image_of_mem cells hjn, ?_⟩
  rintro _ ⟨i, hi, rfl⟩
  rw [hjv]
  exact h.lowest i hi

end Scanning

section Deciding

variable {ltc : Ltc6803} {lowest : ℚ}

structure Decided (cells : ℕ → ℚ) (lowest : ℚ) (n : ℕ) (r : Ltc6803 × Bool) : Prop where
  unlocked : r.1.lock = false
  bits : ∀ i < n, r.1.discharging (i + 1) = decide (lowest < cells i)
  any : r.2 = true ↔ ∃ i < n, lowest < cells i

theorem Decided.cell {r : Ltc6803 × Bool} (h : Decided cells lowest n r) (hn : n < numCells)
    (hcells : numCells ≤ 12) :
    Decided cells lowest (n + 1) (balanceCell cells numCells lowest r n) := by
  have hcell : 1 ≤ n + 1 ∧ n + 1 ≤ numCells := ⟨by omega, hn⟩
  have hother {i : ℕ} (hi : i < n + 1) : 1 ≤ i + 1 ∧ i + 1 ≤ 16 := by omega
  have hsame {i : ℕ} (hi : i < n + 1) : i + 1 = n + 1 ∨ i + 1 ≠ n + 1 ∧ i < n := by omega
  rcases r with ⟨l, continueBalance⟩
  by_cases hlow : lowest < cells n
  · rw [balanceCell, if_pos hlow]
    constructor
    · rw [enable_lock, h.unlocked]
    · intro i hi
      rw [discharging_enable h.unlocked hcell (hother hi)]
      rcases hsame hi with heq | ⟨hne, hlt⟩
      · obtain rfl : i = n := by omega
        rw [if_pos rfl, decide_eq_true hlow]
      · rw [if_neg hne]
        exact h.bits i hlt
    · exact iff_of_true rfl ⟨n, Nat.lt_succ_self n, hlow⟩
  · rw [balanceCell, if_neg hlow]
    constructor
    · rw [disable_lock, h.unlocked]
    · intro i hi
      rw [discharging_disable h.unlocked hcell (hother hi)]
      rcases hsame hi with heq | ⟨hne, hlt⟩
      · obtain rfl : i = n := by omega
        rw [if_pos rfl, decide_eq_false hlow]
      · rw [if_neg hne]
        exact h.bits i hlt
    · refine h.any.trans ⟨?_, ?_⟩
      · rintro ⟨i, hi, hlt⟩
        exact ⟨i, hi.trans (Nat.lt_succ_self n), hlt⟩
      · rintro ⟨i, hi, hlt⟩
        rcases Nat.lt_succ_iff_lt_or_eq.mp hi with hi | rfl
        · exact ⟨i, hi, hlt⟩
        · exact absurd hlt hlow

theorem decided (hl : ltc.lock = false) (hn : n ≤ numCells) (hcells : numCells ≤ 12) :
    Decided cells lowest n
      ((List.range n).foldl (balanceCell cells numCells lowest) (ltc, false)) := by
  induction n with
  | zero => exact ⟨hl, nofun, by simp⟩
  | succ n ih =>
    rw [List.range_succ, List.foldl_append]
    exact (ih (by omega)).cell (by omega) hcells

end Deciding

structure Decides (c : Charger) (x : ChargerInput) : Prop where
  present : 6 < x.inputVoltage
  enabled : c.chargeEnabled = true
  notComplete : c.chargeComplete = false
  balancing : (c.started x).balancing = true
  due : (c.started x).decisionDue x = true

/-- The cells above the lowest are discharged and no other, the balancing goes on while there
is one, and the index of the lowest cell was assigned from the voltages. -/
structure RightDecision (c : Charger) (x : ChargerInput) : Prop where
  assigned : (c.scan x).lowestCellNum.isSome
  bits : ∃ m, IsLeast (x.cells '' Set.Iio x.numCells) m ∧
    ∀ i < x.numCells, (chargerUpdate c x).ltc.discharging (i + 1) = true ↔ m < x.cells i
  balancing : (chargerUpdate c x).balancing = true ↔
    ∃ i < x.numCells, (chargerUpdate c x).ltc.discharging (i + 1) = true

theorem started_ltc : (c.started x).ltc = c.ltc := by
  unfold Charger.started
  split_ifs <;> rfl

theorem started_sense : (c.sense x).started x = (c.started x).sense x := by
  have h : (c.sense x).startsBalancing x = c.startsBalancing x := rfl
  rw [Charger.started, Charger.started, h]
  split_ifs <;> rfl

theorem balance_due {c : Charger} {lowest : ℚ} (h : c.decisionDue x = true) :
    (c.balance x lowest).ltc = (balanceCells x.cells x.numCells lowest c.ltc).1 ∧
      (c.balance x lowest).balancing = (balanceCells x.cells x.numCells lowest c.ltc).2 := by
  have hdue : ({ c with chgSw := false, balancing := true } : Charger).decisionDue x = true := h
  simp [Charger.balance, hdue]

theorem update_decides (h : Decides c x) :
    (chargerUpdate c x).ltc = (balanceCells x.cells x.numCells (c.lowestCell x) c.ltc).1 ∧
      (chargerUpdate c x).balancing =
        (balanceCells x.cells x.numCells (c.lowestCell x) c.ltc).2 := by
  have hcharge : ((c.sense x).chargeEnabled && (c.sense x).isCharging &&
      !(c.sense x).chargeComplete) = true := by
    simp [Charger.sense, h.present, h.enabled, h.notComplete]
  have hbal : ((c.started x).sense x).balancing = true := h.balancing
  have hlow : (c.sense x).lowestCell x = c.lowestCell x := rfl
  have hdue : ((c.started x).sense x).decisionDue x = true := h.due
  have hltc : ((c.started x).sense x).ltc = c.ltc := started_ltc
  simp only [chargerUpdate, hcharge, if_true, Charger.charge, started_sense, hbal, hlow]
  rw [← hltc]
  exact balance_due hdue

theorem decision_right_iff (h : Decides c x) (hlock : c.ltc.lock = false)
    (hn : x.numCells ≤ 12) :
    RightDecision c x ↔ c.balancing = false ∧ ∃ i < x.numCells, x.cells i < 999 := by
  obtain ⟨hltc, hbal⟩ := update_decides h
  constructor
  · intro hr
    cases hb : c.balancing with
    | true =>
      have hs := hr.assigned
      rw [Charger.scan, if_pos hb] at hs
      cases hs
    | false =>
      have hs := hr.assigned
      rw [Charger.scan, if_neg (by simp [hb]), scan_found_iff] at hs
      exact ⟨rfl, hs⟩
  · rintro ⟨hb, hex⟩
    have hscan : c.scan x = scanCells x.cells x.numCells := if_neg (by simp [hb])
    have hsome := scan_found_iff.mpr hex
    obtain ⟨j, hj⟩ := Option.isSome_iff_exists.mp hsome
    have hlow : c.lowestCell x = x.cells j := by
      rw [Charger.lowestCell, hscan, hj]
      rfl
    have hd : Decided x.cells (x.cells j) x.numCells
        (balanceCells x.cells x.numCells (x.cells j) c.ltc) := decided hlock le_rfl hn
    rw [hlow] at hltc hbal
    have hbit (i : ℕ) (hi : i < x.numCells) :
        (chargerUpdate c x).ltc.discharging (i + 1) = true ↔ x.cells j < x.cells i := by
      rw [hltc, hd.bits i hi, decide_eq_true_iff]
    refine ⟨by rw [hscan]; exact hsome, ⟨x.cells j, scan_least hj, hbit⟩, ?_⟩
    rw [hbal, hd.any]
    exact exists_congr fun i => and_congr_right fun hi => (hbit i hi).symm

/-- A balance decision is right if and only if it falls in the call that starts the balancing,
which is the only one with a scan, and a cell is below the 999 V that the scan starts from. -/
theorem balance_decision_right_iff (config : Config) (t₁ t₂ : UInt32) (calls : List ChargerCall)
    (x : ChargerInput) (hd : Decides ((chargerInit config t₁ t₂).after calls) x)
    (hlock : ((chargerInit config t₁ t₂).after calls).ltc.lock = false)
    (hn : 1 ≤ x.numCells ∧ x.numCells ≤ 12) :
    RightDecision ((chargerInit config t₁ t₂).after calls) x ↔
      ((chargerInit config t₁ t₂).after calls).balancing = false ∧
        ∃ i < x.numCells, x.cells i < 999 :=
  decision_right_iff hd hlock hn.2

/-- Twelve cells, the first above the others, 20 s after the last balance update; the clock is
read `late` ticks later for the decision. -/
def firstCellHigh (late : UInt32) : ChargerInput where
  inputVoltage := 20
  cells i := if i = 0 then 4 else 39 / 10
  current := 0
  busVoltage := 47
  config := Config.default
  configLater := Config.default
  stack := 0
  dtTime := 200000
  startTime := 200000
  startedTime := 200000
  decideTime := 200000 + late
  decidedTime := 200000 + late
  lastTime := 200000 + late

/-- The first call after the initialisation is held up for 0.6 s where it decides. -/
theorem balance_decision_right_iff_held_up :
    RightDecision ((chargerInit Config.default 0 0).after []) (firstCellHigh 6000) ↔
      ((chargerInit Config.default 0 0).after []).balancing = false ∧
        ∃ i < (firstCellHigh 6000).numCells, (firstCellHigh 6000).cells i < 999 :=
  balance_decision_right_iff Config.default 0 0 [] (firstCellHigh 6000)
    (by constructor <;> decide +kernel) rfl (by decide +kernel)

/-- The second call decides with what is on the stack, here the number of the highest cell: that
cell is not discharged, and the balancing ends. -/
theorem highest_cell_not_discharged :
    ∃ c, c = (chargerInit Config.default 0 0).after [.update (firstCellHigh 0)] ∧
      Decides c (firstCellHigh 10000) ∧ c.ltc.lock = false ∧
      (1 ≤ (firstCellHigh 10000).numCells ∧ (firstCellHigh 10000).numCells ≤ 12) ∧
      (firstCellHigh 10000).cells 1 < (firstCellHigh 10000).cells 0 ∧
      (chargerUpdate c (firstCellHigh 10000)).ltc.discharging 1 = false ∧
      (chargerUpdate c (firstCellHigh 10000)).balancing = false ∧
      ¬ RightDecision c (firstCellHigh 10000) := by
  refine ⟨_, rfl, by constructor <;> decide +kernel, by decide +kernel, by decide +kernel,
    by decide +kernel, by decide +kernel, by decide +kernel, ?_⟩
  intro h
  exact absurd h.assigned (by decide +kernel)

end Battman
