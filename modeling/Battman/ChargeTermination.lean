import Battman.ChargeSwitch

/-! The end of a charge: what charger_update has found before it sets chargeComplete, and what
it does until the charger is disconnected. -/
namespace Battman

variable {c : Charger} {x : ChargerInput} {y : ChargerCall} {calls : List ChargerCall}
  {rs : List Bool}

def ChargerInput.Full (x : ChargerInput) : Prop :=
  x.configLater .chargeVoltage ≤ x.busVoltage ∧ |x.current| < x.configLater .chargeCurrent / 10

structure Charger.Tests (c : Charger) (x : ChargerInput) : Prop where
  enabled : c.chargeEnabled = true
  connected : 6 < x.inputVoltage
  incomplete : c.chargeComplete = false
  notBalancing : (c.started x).balancing = false
  low : (c.scan x).highestCellV < x.config .highVoltageCutoff

instance instDecidableFull (x : ChargerInput) : Decidable x.Full :=
  inferInstanceAs (Decidable (_ ∧ _))

instance instDecidableTests (c : Charger) (x : ChargerInput) : Decidable (c.Tests x) :=
  decidable_of_iff (c.chargeEnabled = true ∧ 6 < x.inputVoltage ∧ c.chargeComplete = false ∧
      (c.started x).balancing = false ∧ (c.scan x).highestCellV < x.config .highVoltageCutoff)
    ⟨fun ⟨h₁, h₂, h₃, h₄, h₅⟩ => ⟨h₁, h₂, h₃, h₄, h₅⟩,
      fun h => ⟨h.enabled, h.connected, h.incomplete, h.notBalancing, h.low⟩⟩

def ChargerCall.Connected : ChargerCall → Prop
  | .update x => 6 < x.inputVoltage
  | _ => True

/-- The results of the tests since the charger was last seen disconnected, the last one first. -/
def Charger.results (c : Charger) (rs : List Bool) : ChargerCall → List Bool
  | .update x => if 6 < x.inputVoltage then if c.Tests x then decide x.Full :: rs else rs else []
  | _ => rs

def Charger.history (c : Charger) (rs : List Bool) : List ChargerCall → List Bool
  | [] => rs
  | call :: calls => (c.call call).history (c.results rs call) calls

/-- charger_update always writes CHG_SW; the other calls drive it high if it was low before. -/
def Charger.DrivesHigh (c : Charger) (call : ChargerCall) : Prop :=
  (c.call call).chgSw = true ∧ (c.chgSw = false ∨ ∃ x, call = .update x)

section Update

theorem regulate_termination (c : Charger) (x : ChargerInput) :
    (c.regulate x).chargeComplete = c.chargeComplete ∧
      (c.regulate x).chargeCompleteCounter = c.chargeCompleteCounter := by
  unfold Charger.regulate
  split_ifs <;> exact ⟨rfl, rfl⟩

theorem started_termination (c : Charger) (x : ChargerInput) :
    (c.started x).chargeComplete = c.chargeComplete ∧
      (c.started x).chargeCompleteCounter = c.chargeCompleteCounter := by
  unfold Charger.started
  split_ifs <;> exact ⟨rfl, rfl⟩

theorem balance_termination (c : Charger) (x : ChargerInput) (lowest : ℚ) :
    (c.balance x lowest).chargeComplete = c.chargeComplete ∧
      (c.balance x lowest).chargeCompleteCounter = c.chargeCompleteCounter := by
  simp only [Charger.balance]
  split_ifs <;> exact ⟨rfl, rfl⟩

theorem update_disconnected (h : ¬ 6 < x.inputVoltage) :
    (chargerUpdate c x).chargeComplete = false ∧
      (chargerUpdate c x).chargeCompleteCounter = 0 := by
  have habsent : (c.sense x).isCharging = false := decide_eq_false h
  simp only [chargerUpdate, habsent, Bool.and_false, Bool.false_and, Bool.false_eq_true, if_false]
  simp [Charger.idle, habsent]

theorem update_charges (h : 6 < x.inputVoltage) (he : c.chargeEnabled = true)
    (hi : c.chargeComplete = false) :
    chargerUpdate c x = { (c.sense x).charge x with lastTime := x.lastTime } := by
  have hcharge : ((c.sense x).chargeEnabled && (c.sense x).isCharging &&
      !(c.sense x).chargeComplete) = true := by
    simp [Charger.sense, h, he, hi]
  rw [chargerUpdate, if_pos hcharge]

theorem update_idles (h : ¬ (c.chargeEnabled = true ∧ c.chargeComplete = false)) :
    chargerUpdate c x = { (c.sense x).idle with lastTime := x.lastTime } := by
  have hidle : ¬ ((c.sense x).chargeEnabled && (c.sense x).isCharging &&
      !(c.sense x).chargeComplete) = true := by
    intro hcharge
    simp only [Bool.and_eq_true, Bool.not_eq_true'] at hcharge
    exact h ⟨hcharge.1.1, hcharge.2⟩
  rw [chargerUpdate, if_neg hidle]

def Charger.regulated (c : Charger) (x : ChargerInput) : Charger :=
  ({ c.sense x with chgSw := true } : Charger).regulate x

theorem update_tests (ht : c.Tests x) :
    chargerUpdate c x = { (c.regulated x).countComplete x with lastTime := x.lastTime } := by
  have hbalancing : ¬ ((c.sense x).started x).balancing = true := by
    rw [started_sense]
    exact Bool.not_eq_true _ ▸ ht.notBalancing
  have hlow : ((c.sense x).scan x).highestCellV < x.config .highVoltageCutoff := ht.low
  rw [update_charges ht.connected ht.enabled ht.incomplete, Charger.charge, if_neg hbalancing,
    if_pos hlow]
  rfl

theorem count_full (h : x.Full) : c.countComplete x =
    { c with
      chargeCompleteCounter := c.chargeCompleteCounter + 1
      chargeComplete := if 100 < c.chargeCompleteCounter + 1 then true else c.chargeComplete } :=
  if_pos h

theorem count_not_full (h : ¬ x.Full) :
    c.countComplete x = { c with chargeCompleteCounter := 0 } := if_neg h

theorem update_tested (ht : c.Tests x) :
    (x.Full → (chargerUpdate c x).chargeCompleteCounter = c.chargeCompleteCounter + 1 ∧
      ((chargerUpdate c x).chargeComplete = true ↔ 100 < c.chargeCompleteCounter + 1)) ∧
    (¬ x.Full → (chargerUpdate c x).chargeCompleteCounter = 0 ∧
      (chargerUpdate c x).chargeComplete = false) := by
  obtain ⟨hcomplete, hcounter⟩ := regulate_termination { c.sense x with chgSw := true } x
  have hincomplete : (c.regulated x).chargeComplete = false := hcomplete.trans ht.incomplete
  have hcount : (c.regulated x).chargeCompleteCounter = c.chargeCompleteCounter := hcounter
  rw [update_tests ht]
  constructor
  · intro hfull
    rw [count_full hfull, hcount, hincomplete]
    refine ⟨rfl, ?_⟩
    by_cases hmany : 100 < c.chargeCompleteCounter + 1
    · simp [hmany]
    · simp [hmany]
  · intro hfull
    rw [count_not_full hfull]
    exact ⟨rfl, hincomplete⟩

theorem update_untested (h : 6 < x.inputVoltage) (ht : ¬ c.Tests x) :
    (chargerUpdate c x).chargeComplete = c.chargeComplete ∧
      (chargerUpdate c x).chargeCompleteCounter = c.chargeCompleteCounter := by
  by_cases hc : c.chargeEnabled = true ∧ c.chargeComplete = false
  · rw [update_charges h hc.1 hc.2, Charger.charge]
    by_cases hbalancing : ((c.sense x).started x).balancing = true
    · rw [if_pos hbalancing]
      obtain ⟨hcomplete, hcounter⟩ := balance_termination ((c.sense x).started x) x
        ((c.sense x).lowestCell x)
      obtain ⟨hcomplete', hcounter'⟩ := started_termination (c.sense x) x
      exact ⟨hcomplete.trans hcomplete', hcounter.trans hcounter'⟩
    · have hhigh : ¬ ((c.sense x).scan x).highestCellV < x.config .highVoltageCutoff := by
        intro hlow
        rw [started_sense, Bool.not_eq_true] at hbalancing
        exact ht ⟨hc.1, h, hc.2, hbalancing, hlow⟩
      rw [if_neg hbalancing, if_neg hhigh]
      exact ⟨rfl, rfl⟩
  · have hpresent : (c.sense x).isCharging = true := decide_eq_true h
    rw [update_idles hc, Charger.idle]
    simp only [hpresent, if_true]
    exact ⟨rfl, rfl⟩

theorem update_complete_low (h : 6 < x.inputVoltage) (hc : c.chargeComplete = true) :
    (chargerUpdate c x).chgSw = false := by
  have hpresent : (c.sense x).isCharging = true := decide_eq_true h
  rw [update_idles fun hboth => Bool.false_ne_true (hboth.2.symm.trans hc)]
  exact idle_low hpresent

end Update

section Counting

/-- The counter counts the tests passed one after another, up to the last one. -/
structure Counted (c : Charger) (rs : List Bool) : Prop where
  counter : c.chargeCompleteCounter.toNat = (rs.takeWhile id).length
  running : c.chargeComplete = false → c.chargeCompleteCounter.toNat ≤ 100
  complete : c.chargeComplete = true → c.chargeCompleteCounter.toNat = 101

theorem Counted.le (h : Counted c rs) : c.chargeCompleteCounter.toNat ≤ 101 := by
  cases hc : c.chargeComplete with
  | false => exact (h.running hc).trans (by norm_num)
  | true => exact (h.complete hc).le

theorem Counted.next (h : Counted c rs) (hc : c.chargeComplete = false) :
    (c.chargeCompleteCounter + 1).toNat = c.chargeCompleteCounter.toNat + 1 := by
  have hle := h.running hc
  rw [UInt8.toNat_add]
  exact Nat.mod_eq_of_lt (by simpa using by omega)

theorem Counted.of_eq {d : Charger} (h : Counted c rs)
    (hcomplete : d.chargeComplete = c.chargeComplete)
    (hcounter : d.chargeCompleteCounter = c.chargeCompleteCounter) : Counted d rs := by
  constructor
  · exact hcounter ▸ h.counter
  · exact fun hd => hcounter ▸ h.running (hcomplete ▸ hd)
  · exact fun hd => hcounter ▸ h.complete (hcomplete ▸ hd)

theorem Counted.tested (h : Counted c rs) (ht : c.Tests x) :
    Counted (chargerUpdate c x) (decide x.Full :: rs) := by
  obtain ⟨hpass, hfail⟩ := update_tested ht
  by_cases hfull : x.Full
  · obtain ⟨hcounter, hcomplete⟩ := hpass hfull
    have hnext := h.next ht.incomplete
    have hle := h.running ht.incomplete
    rw [UInt8.lt_iff_toNat_lt, hnext] at hcomplete
    constructor
    · rw [hcounter, hnext, h.counter, decide_eq_true hfull]
      rfl
    · intro hd
      rw [hcounter, hnext]
      have hnot : ¬ (100 : UInt8).toNat < c.chargeCompleteCounter.toNat + 1 := fun hlt =>
        Bool.false_ne_true (hd.symm.trans (hcomplete.mpr hlt))
      exact not_lt.mp hnot
    · intro hd
      have hlt : 100 < c.chargeCompleteCounter.toNat + 1 := hcomplete.mp hd
      rw [hcounter, hnext]
      omega
  · obtain ⟨hcounter, hcomplete⟩ := hfail hfull
    constructor
    · rw [hcounter, decide_eq_false hfull]
      rfl
    · intro _
      rw [hcounter]
      exact Nat.zero_le _
    · exact fun hd => absurd (hcomplete.symm.trans hd) Bool.false_ne_true

theorem Counted.call (h : Counted c rs) (call : ChargerCall) :
    Counted (c.call call) (c.results rs call) := by
  cases call with
  | update x =>
    by_cases hp : 6 < x.inputVoltage
    · by_cases ht : c.Tests x
      · simp only [Charger.results, if_pos hp, if_pos ht]
        exact h.tested ht
      · simp only [Charger.results, if_pos hp, if_neg ht]
        obtain ⟨hcomplete, hcounter⟩ := update_untested hp ht
        exact h.of_eq hcomplete hcounter
    · simp only [Charger.results, if_neg hp]
      obtain ⟨hcomplete, hcounter⟩ := update_disconnected (c := c) hp
      constructor
      · exact congrArg UInt8.toNat hcounter
      · intro _
        exact (congrArg UInt8.toNat hcounter).trans_le (Nat.zero_le 100)
      · exact fun hd => absurd (hcomplete.symm.trans hd) Bool.false_ne_true
  | enable | disable | enableDrain _ | disableDrain => exact h.of_eq rfl rfl

theorem Counted.after (h : Counted c rs) (calls : List ChargerCall) :
    Counted (c.after calls) (c.history rs calls) := by
  induction calls generalizing c rs with
  | nil => exact h
  | cons call calls ih => exact ih (h.call call)

end Counting

section Termination

/-- What has been found when a call completes the charge. -/
structure FullRun (c : Charger) (rs : List Bool) (x : ChargerInput) : Prop where
  tests : c.Tests x
  full : x.Full
  before : 100 ≤ rs.length
  passed : ∀ r ∈ rs.take 100, r = true

theorem passed_of_counter (h : 100 ≤ (rs.takeWhile id).length) :
    100 ≤ rs.length ∧ ∀ r ∈ rs.take 100, r = true := by
  have hpre : rs.takeWhile id <+: rs := List.takeWhile_prefix id
  refine ⟨h.trans hpre.length_le, fun r hr => ?_⟩
  have htake : rs.take 100 = (rs.takeWhile id).take 100 := by
    obtain ⟨rest, hrest⟩ := hpre
    conv_lhs => rw [← hrest]
    exact List.take_append_of_le_length h
  rw [htake] at hr
  exact List.mem_takeWhile_imp (List.mem_of_mem_take hr)

theorem Counted.full_run (h : Counted c rs) (hc : c.chargeComplete = false)
    (hd : (chargerUpdate c x).chargeComplete = true) : FullRun c rs x := by
  by_cases hp : 6 < x.inputVoltage
  · by_cases ht : c.Tests x
    · obtain ⟨hpass, hfail⟩ := update_tested ht
      by_cases hfull : x.Full
      · have hlt := (hpass hfull).2.mp hd
        rw [UInt8.lt_iff_toNat_lt, h.next hc] at hlt
        have hle : 100 ≤ (rs.takeWhile id).length := h.counter ▸ Nat.lt_succ_iff.mp hlt
        obtain ⟨hbefore, hpassed⟩ := passed_of_counter hle
        exact ⟨ht, hfull, hbefore, hpassed⟩
      · exact absurd ((hfail hfull).2.symm.trans hd) Bool.false_ne_true
    · exact absurd (hc.symm.trans ((update_untested hp ht).1.symm.trans hd)) Bool.false_ne_true
  · exact absurd ((update_disconnected hp).1.symm.trans hd) Bool.false_ne_true

theorem complete_call (hc : c.chargeComplete = true) (hy : y.Connected) :
    (c.call y).chargeComplete = true := by
  cases y with
  | update x =>
    have ht : ¬ c.Tests x := fun ht => Bool.false_ne_true (ht.incomplete.symm.trans hc)
    exact (update_untested hy ht).1.trans hc
  | enable | disable | enableDrain _ | disableDrain => exact hc

theorem complete_after (hc : c.chargeComplete = true) (hcalls : ∀ call ∈ calls, call.Connected) :
    (c.after calls).chargeComplete = true := by
  induction calls generalizing c with
  | nil => exact hc
  | cons call calls ih =>
    obtain ⟨hcall, hrest⟩ := List.forall_mem_cons.mp hcalls
    exact ih (complete_call hc hcall) hrest

theorem complete_not_driven (hc : c.chargeComplete = true) (hy : y.Connected) :
    ¬ c.DrivesHigh y := by
  rintro ⟨hhigh, hcause⟩
  cases y with
  | update x => exact Bool.false_ne_true ((update_complete_low hy hc).symm.trans hhigh)
  | disable => exact Bool.false_ne_true hhigh
  | enable | enableDrain _ | disableDrain =>
    rcases hcause with hlow | ⟨x, hx⟩
    · exact Bool.false_ne_true (hlow.symm.trans hhigh)
    · exact nomatch hx

structure SoundTermination (c : Charger) (rs : List Bool) : Prop where
  evidence : ∀ x, c.chargeComplete = false → (chargerUpdate c x).chargeComplete = true →
    FullRun c rs x
  counter : c.chargeCompleteCounter.toNat ≤ 101
  exact : ∀ x, c.Tests x → x.Full →
    (chargerUpdate c x).chargeCompleteCounter.toNat = c.chargeCompleteCounter.toNat + 1
  stays : c.chargeComplete = true → ∀ later, (∀ call ∈ later, call.Connected) →
    (c.after later).chargeComplete = true ∧
      ∀ call, call.Connected → ¬ (c.after later).DrivesHigh call

/-- After any calls from charger_init on. -/
theorem charge_termination_sound (config : Config) (t₁ t₂ : UInt32) (calls : List ChargerCall) :
    SoundTermination ((chargerInit config t₁ t₂).after calls)
      ((chargerInit config t₁ t₂).history [] calls) := by
  have hinit : Counted (chargerInit config t₁ t₂) [] := ⟨rfl, fun _ => Nat.zero_le 100, nofun⟩
  have h := hinit.after calls
  constructor
  · exact fun x hc hd => h.full_run hc hd
  · exact h.le
  · intro x ht hfull
    rw [((update_tested ht).1 hfull).1]
    exact h.next ht.incomplete
  · intro hc later hlater
    have hcomplete := complete_after hc hlater
    exact ⟨hcomplete, fun call hcall => complete_not_driven hcomplete hcall⟩

end Termination

end Battman
