import Battman.DischargeSwitches

/-! What woke the board, and what power_init makes of it. -/
namespace Battman
open Interference Prog

/-- BATTMAN_3_0 to BATTMAN_4_2. -/
inductive Hardware where
  | v30
  | v40
  | v41
  | v42
  deriving DecidableEq, Repr

def Hardware.hasRtccInt : Hardware → Bool
  | .v41 | .v42 => true
  | _ => false

def Hardware.hasUsbDetect : Hardware → Bool
  | .v42 => true
  | _ => false

structure WakePins where
  pwrBtn : Bool
  rtccInt : Bool
  usbDetect : Bool
  deriving DecidableEq, Repr

def setPowerOnEvent (powerOnEvent : PowerOnEvent) : PowerM Unit :=
  act .elsewhere fun s => { s with powerOnEvent }

/-- The sources are tried one after another; without any, the variable stays as it was. -/
def detectPowerOn (hardware : Hardware) (pins : WakePins) : PowerM Unit := do
  if !pins.pwrBtn then setPowerOnEvent .switch
  else if ← test .elsewhere (6 < ·.chargerInputVoltage) then setPowerOnEvent .charger
  else if hardware.hasRtccInt && !pins.rtccInt then setPowerOnEvent .rtcc
  else if hardware.hasUsbDetect && pins.usbDetect then setPowerOnEvent .usb

def enableAfterDelay : PowerM Unit := do
  if ← test .elsewhere (·.powerOnEvent = .switch) then
    skip                -- chThdSleepMilliseconds(config->turnOnDelay)
    act .elsewhere fun s => { s with dischargeEnabled := true }

def powerInit (hardware : Hardware) (pins : WakePins) : PowerM Unit := do
  setDsgSw false .elsewhere
  setPchgSw false
  detectPowerOn hardware pins
  enableAfterDelay
  if ← test .elsewhere (·.powerOnEvent ≠ .usb) then setPwrSw true

def Power.reset (outside : Surroundings) (chargerInputVoltage dischargeVoltage : ℚ) : Power where
  dischargeEnabled := false
  precharged := false
  prechargeStartTime := 0
  powerOnEvent := .switch
  powerButtonReleased := false
  shutdownStarted := false
  shutdown := false
  shutdownStartTime := 0
  faults := 0
  chargerInputVoltage := chargerInputVoltage
  dischargeVoltage := dischargeVoltage
  thermistor := 0
  current := 0
  voltage := 0
  dsgSw := false
  pchgSw := false
  pwrSw := false
  outside := outside

structure Wake where
  hardware : Hardware
  pins : WakePins
  chargerInputVoltage : ℚ
  dischargeVoltage : ℚ
  outside : Surroundings

def Wake.boot (w : Wake) : Loop where
  rest := powerInit w.hardware w.pins >>= fun _ => pure true
  state := Power.reset w.outside w.chargerInputVoltage w.dischargeVoltage

/-- Some input that power_init reads on this hardware is active. -/
def Wake.Detected (w : Wake) : Prop :=
  6 < w.chargerInputVoltage ∨ (w.hardware.hasRtccInt = true ∧ w.pins.rtccInt = false) ∨
    (w.hardware.hasUsbDetect = true ∧ w.pins.usbDetect = true)

instance instDecidableDetected (w : Wake) : Decidable w.Detected :=
  inferInstanceAs (Decidable (_ ∨ _ ∧ _ ∨ _ ∧ _))

def NotEnabled (moves : List PowerMove) : Prop := ∀ x ∈ moves, x ≠ .event .enableDischarge

theorem not_enabled_of_quiet {moves : List PowerMove} (h : ∀ x ∈ moves, PowerMove.Quiet x) :
    NotEnabled moves := by
  rintro x hx rfl
  exact h _ hx

section Detected

def Dark (s : Power) : Prop := s.dischargeEnabled = false ∧ PathsOff s

def StaysDark (s : Power) : Prop := Dark s ∧ s.powerOnEvent ≠ .switch

theorem indifferent_stays_dark : Indifferent StaysDark where
  measured _ _ _ _ _ _ h := h
  faults _ _ h := h
  disabled _ h := ⟨⟨rfl, h.1.2⟩, h.2⟩
  opened _ h := ⟨⟨h.1.1, rfl, h.1.2.2⟩, h.2⟩

theorem unnoted_stays_dark : Unnoted StaysDark := fun _ _ _ _ _ h => h

theorem plain_switches_off : Plain .elsewhere StaysDark switchesOff := by
  apply Plain.bind
  · exact plain_act indifferent_stays_dark.opened
  · exact fun _ => plain_act fun _ h => ⟨⟨h.1.1, h.1.2.1, rfl⟩, h.2⟩

theorem steady_power_update : Steady StaysDark powerUpdate := by
  have hno : Plain .elsewhere StaysDark noDischarge :=
    plain_switches_off.bind fun _ => plain_act fun _ h => h
  have hrest := hno.bind fun _ =>
    plain_shutdown_update indifferent_stays_dark unnoted_stays_dark fun _ _ h => h
  apply (plain_hold_power unnoted_stays_dark).steady.bind
  intro _
  rw [dischargeGuard, bind_assoc]
  exact steady_test (b := false) (fun _ h => h.1.1) hrest.steady

theorem steady_main_loop : Steady StaysDark mainLoop := by
  have hskip : Steady StaysDark skip := plain_skip.steady
  apply (plain_analog_update indifferent_stays_dark).steady.bind
  refine fun _ => hskip.bind fun _ => ?_
  apply (plain_current_monitor_update indifferent_stays_dark).steady.bind
  refine fun _ => hskip.bind fun _ => hskip.bind fun _ => ?_
  apply steady_power_update.bind
  refine fun _ => hskip.bind fun _ => hskip.bind fun _ => hskip.bind fun _ => ?_
  exact (plain_look ..).steady

theorem event_keeps_dark {e : PowerEvent} {s : Power} (he : e ≠ .enableDischarge)
    (h : Dark s) : Dark (e.happen s) := by
  cases e with
  | currAlert => exact ⟨rfl, rfl, h.2.2⟩
  | surroundings outside => exact h
  | disableDischarge => exact ⟨rfl, rfl, h.2.2⟩
  | enableDischarge => exact absurd rfl he
  | clearFaults faults => exact h

theorem event_keeps_source (e : PowerEvent) (s : Power) :
    (e.happen s).powerOnEvent = s.powerOnEvent ∧
      (e.happen s).chargerInputVoltage = s.chargerInputVoltage := by
  cases e <;> exact ⟨rfl, rfl⟩

variable {w : Wake}

def Wake.Undecided (w : Wake) (s : Power) : Prop :=
  Dark s ∧ s.chargerInputVoltage = w.chargerInputVoltage

theorem settles_set_power_on_event {powerOnEvent : PowerOnEvent} (h : powerOnEvent ≠ .switch) :
    Settles w.Undecided StaysDark (setPowerOnEvent powerOnEvent) :=
  fun _ hs => ⟨⟨hs.1, h⟩, trivial⟩

theorem detected_pin (hd : w.Detected) (hcharger : ¬ 6 < w.chargerInputVoltage) :
    ∃ powerOnEvent, powerOnEvent ≠ .switch ∧
      (if w.hardware.hasRtccInt && !w.pins.rtccInt then setPowerOnEvent .rtcc
        else if w.hardware.hasUsbDetect && w.pins.usbDetect then setPowerOnEvent .usb
        else pure ()) = setPowerOnEvent powerOnEvent := by
  rcases hd.resolve_left hcharger with ⟨hhas, hlow⟩ | ⟨hhas, hhigh⟩
  · refine ⟨.rtcc, nofun, ?_⟩
    rw [hhas, hlow]
    rfl
  · by_cases hrtcc : (w.hardware.hasRtccInt && !w.pins.rtccInt) = true
    · exact ⟨.rtcc, nofun, if_pos hrtcc⟩
    · refine ⟨.usb, nofun, (if_neg hrtcc).trans ?_⟩
      rw [hhas, hhigh]
      rfl

theorem settles_detect (hreleased : w.pins.pwrBtn = true) (hd : w.Detected) :
    Settles w.Undecided StaysDark (detectPowerOn w.hardware w.pins) := by
  rw [detectPowerOn, hreleased]
  by_cases hcharger : 6 < w.chargerInputVoltage
  · apply settles_test (b := true)
    · exact fun s hs => decide_eq_true (hs.2.symm ▸ hcharger)
    · exact settles_set_power_on_event nofun
    · exact fun s hs => hs
  · obtain ⟨powerOnEvent, hne, heq⟩ := detected_pin hd hcharger
    apply settles_test (b := false)
    · exact fun s hs => decide_eq_false (hs.2.symm ▸ hcharger)
    · rw [if_neg Bool.false_ne_true, heq]
      exact settles_set_power_on_event hne
    · rw [if_neg Bool.false_ne_true, heq]
      exact fun s hs => hs

theorem steady_init_switches : Steady w.Undecided (setDsgSw false .elsewhere >>= fun _ =>
    setPchgSw false) := by
  apply Plain.steady
  apply Plain.bind
  · exact plain_act fun s hs => ⟨⟨hs.1.1, rfl, hs.1.2.2⟩, hs.2⟩
  · exact fun _ => plain_act fun s hs => ⟨⟨hs.1.1, hs.1.2.1, rfl⟩, hs.2⟩

theorem steady_init_rest : Steady StaysDark (enableAfterDelay >>= fun _ =>
    test .elsewhere (·.powerOnEvent ≠ .usb) >>= fun b => if b then setPwrSw true else pure ()) := by
  rw [enableAfterDelay, bind_assoc]
  apply steady_test (b := false) fun s hs => decide_eq_false hs.2
  apply Plain.steady
  exact plain_when (plain_act fun _ h => h)

theorem boot_stays_dark (hreleased : w.pins.pwrBtn = true) (hd : w.Detected)
    {moves : List PowerMove} (hne : NotEnabled moves) : PathsOff (w.boot.after moves).state := by
  have hphases : w.boot.rest = ((setDsgSw false .elsewhere >>= fun _ => setPchgSw false) >>=
      fun _ => detectPowerOn w.hardware w.pins) >>= fun _ =>
        (enableAfterDelay >>= fun _ => test .elsewhere (·.powerOnEvent ≠ .usb) >>= fun b =>
          if b then setPwrSw true else pure ()) >>= fun _ => pure true := by
    simp only [Wake.boot, powerInit, bind_assoc]
  have hboot : w.boot = ⟨w.boot.rest, w.boot.state⟩ := rfl
  rw [hboot, hphases]
  apply settles_run steady_main_loop (I := w.Undecided) (R := StaysDark)
  · exact fun _ => steady_init_rest.bind fun _ => trivial
  · intro e he s
    have hdark (h : Dark s) : Dark (e.happen s) :=
      event_keeps_dark (fun heq => hne _ he (heq ▸ rfl)) h
    obtain ⟨hevent, hcharger⟩ := event_keeps_source e s
    exact ⟨fun h => ⟨hdark h.1, hcharger.trans h.2⟩, fun h => ⟨hdark h.1, hevent ▸ h.2⟩⟩
  · exact fun s h => h.1.2
  · exact fun s h => h.1.2
  · apply steady_init_switches.settles_bind
    · exact fun _ => settles_detect hreleased hd
    · intro _ s hs
      rw [detectPowerOn, hreleased]
      exact hs
  · exact ⟨⟨rfl, rfl, rfl⟩, rfl⟩

end Detected

section Undetected

variable {w : Wake} {s : Power} {g : Unit → PowerM Bool}

theorem closes_skip (h : Loop.Closes ⟨g (), s⟩) : Loop.Closes ⟨skip >>= g, s⟩ :=
  Loop.Closes.act h

theorem closes_hold_power
    (h : ∀ pwrSw, Loop.Closes ⟨g (), { s with pwrSw }⟩) : Loop.Closes ⟨holdPower >>= g, s⟩ := by
  rw [holdPower, bind_assoc]
  by_cases hhold : ¬ s.shutdown ∧ s.powerOnEvent ≠ .usb
  · apply Loop.Closes.test (decide_eq_true hhold)
    exact Loop.Closes.act (h true)
  · apply Loop.Closes.test (decide_eq_false hhold)
    exact h s.pwrSw

theorem closes_guard {f : Bool → PowerM Bool} (he : s.dischargeEnabled = true)
    (hf : s.faults = 0) (h : Loop.Closes ⟨f true, s⟩) :
    Loop.Closes ⟨dischargeGuard >>= f, s⟩ := by
  rw [dischargeGuard, bind_assoc]
  exact Loop.Closes.test he (Loop.Closes.test (decide_eq_true hf) h)

theorem closes_discharge {f : Bool → PowerM Bool} : Loop.Closes ⟨discharge >>= f, s⟩ := by
  rw [discharge, bind_assoc]
  apply closes_start_precharge
  intro s hp
  rw [bind_assoc]
  exact closes_precharged_again hp fun _ => closes_connect

/-- With discharge enabled and no fault, power_update begins a precharge that can end. -/
theorem closes_power_update (he : s.dischargeEnabled = true) (hf : s.faults = 0) :
    Loop.Closes ⟨powerUpdate >>= g, s⟩ := by
  rw [powerUpdate, bind_assoc]
  apply closes_hold_power
  intro pwrSw
  rw [bind_assoc]
  apply closes_guard (s := { s with pwrSw }) he hf
  rw [if_pos rfl, bind_assoc]
  exact closes_discharge

theorem closes_main_loop (he : s.dischargeEnabled = true) (hf : s.faults = 0) :
    Loop.Closes ⟨mainLoop, s⟩ := by
  apply Loop.Closes.move (x := .event (.surroundings idleSurroundings)) trivial
  change Loop.Closes ⟨mainLoop, { s with outside := idleSurroundings }⟩
  simp only [mainLoop, analogUpdate, currentMonitorUpdate, bind_assoc]
  apply Loop.Closes.act
  apply Loop.Closes.act
  apply Loop.Closes.test (b := false)
  · exact decide_eq_false (by norm_num [idleSurroundings])
  apply closes_skip
  apply Loop.Closes.act
  apply Loop.Closes.act
  apply Loop.Closes.test (b := false)
  · have hcurrent : ¬ (idleSurroundings.config .maxCurrentCutoff <
        idleSurroundings.shuntCurrent ∨ ¬ idleSurroundings.currAlert) := by decide +kernel
    exact decide_eq_false hcurrent
  apply closes_skip
  apply closes_skip
  exact closes_power_update he hf

theorem detect_undetected (hreleased : w.pins.pwrBtn = true) (hd : ¬ w.Detected) :
    detectPowerOn w.hardware w.pins = test .elsewhere (6 < ·.chargerInputVoltage) >>=
      fun b => if b then setPowerOnEvent .charger else pure () := by
  have hrtcc : ¬ (w.hardware.hasRtccInt && !w.pins.rtccInt) = true := by
    rw [Bool.and_eq_true, Bool.not_eq_true']
    exact fun h => hd (Or.inr (Or.inl h))
  have husb : ¬ (w.hardware.hasUsbDetect && w.pins.usbDetect) = true := by
    rw [Bool.and_eq_true]
    exact fun h => hd (Or.inr (Or.inr h))
  rw [detectPowerOn, hreleased, if_neg hrtcc, if_neg husb]
  rfl

theorem closes_enable_after_delay (hs : s.powerOnEvent = .switch)
    (h : Loop.Closes ⟨g (), { s with dischargeEnabled := true }⟩) :
    Loop.Closes ⟨enableAfterDelay >>= g, s⟩ := by
  rw [enableAfterDelay, bind_assoc]
  apply Loop.Closes.test (decide_eq_true hs)
  rw [if_pos rfl, bind_assoc]
  exact closes_skip (Loop.Closes.act h)

/-- The variable still has the value of EVENT_SWITCH. -/
theorem boot_closes (hreleased : w.pins.pwrBtn = true) (hd : ¬ w.Detected) : w.boot.Closes := by
  have hcharger : ¬ 6 < w.chargerInputVoltage := fun h => hd (Or.inl h)
  rw [Wake.boot, powerInit, detect_undetected hreleased hd]
  simp only [bind_assoc]
  apply Loop.Closes.act
  apply Loop.Closes.act
  apply Loop.Closes.test (b := false)
  · exact decide_eq_false hcharger
  rw [if_neg Bool.false_ne_true, pure_bind]
  apply closes_enable_after_delay rfl
  apply Loop.Closes.test (b := true)
  · rfl
  rw [if_pos rfl]
  apply Loop.Closes.act
  apply Loop.Closes.move (x := .advance) trivial
  exact closes_main_loop rfl rfl

end Undetected

/-- With the button released, the output stays off in every run without power_enable_discharge
if and only if power_init finds another source. -/
theorem output_stays_off_iff (w : Wake) (hreleased : w.pins.pwrBtn = true) :
    (∀ moves, NotEnabled moves → PathsOff (w.boot.after moves).state) ↔ w.Detected := by
  constructor
  · intro h
    by_contra hd
    obtain ⟨moves, hquiet, hclosed⟩ := boot_closes hreleased hd
    exact Bool.false_ne_true ((h moves (not_enabled_of_quiet hquiet)).1.symm.trans hclosed)
  · exact fun hd moves hne => boot_stays_dark hreleased hd hne

def afterReset : Wake where
  hardware := .v42
  pins := ⟨true, true, false⟩
  chargerInputVoltage := 0
  dischargeVoltage := 0
  outside := idleSurroundings

def chargerPlugged : Wake := { afterReset with chargerInputVoltage := 24 }

theorem output_stays_off_iff_charger :
    (∀ moves, NotEnabled moves → PathsOff (chargerPlugged.boot.after moves).state) ↔
      chargerPlugged.Detected :=
  output_stays_off_iff chargerPlugged rfl

theorem reset_switches_on : ¬ ∀ w : Wake, w.pins.pwrBtn = true →
    ∀ moves, NotEnabled moves → PathsOff (w.boot.after moves).state := by
  intro h
  have hd : ¬ afterReset.Detected := by decide +kernel
  obtain ⟨moves, hquiet, hclosed⟩ := boot_closes (w := afterReset) rfl hd
  have hoff := h afterReset rfl moves (not_enabled_of_quiet hquiet)
  exact Bool.false_ne_true (hoff.1.symm.trans hclosed)

end Battman
