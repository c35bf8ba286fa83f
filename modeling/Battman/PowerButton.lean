import Battman.PowerRuns

/-! One call of power_update around which everything else may happen: how far it comes, and what
it makes of the variables that belong to the button. -/
namespace Battman
open Interference Prog

/-- What a step of power_update finds that others may have written, this many ticks after the
counter was zero. -/
structure Scene where
  ticks : ℕ
  dischargeEnabled : Bool
  faults : UInt8
  chargerInputVoltage : ℚ
  dischargeVoltage : ℚ
  thermistor : ℚ
  current : ℚ
  voltage : ℚ
  dsgSw : Bool
  outside : Surroundings

def scene (o : Scene) (s : Power) : Power :=
  { s with
    dischargeEnabled := o.dischargeEnabled
    faults := o.faults
    chargerInputVoltage := o.chargerInputVoltage
    dischargeVoltage := o.dischargeVoltage
    thermistor := o.thermistor
    current := o.current
    voltage := o.voltage
    dsgSw := o.dsgSw
    outside := { o.outside with systemTime := UInt32.ofNat o.ticks } }

/-- The button reads pressed, the charger input is below 6 V and USB is absent. -/
structure Scene.Held (o : Scene) : Prop where
  pressed : o.outside.pwrBtn = false
  charger : o.chargerInputVoltage < 6
  usb : o.outside.usbDetect = false

instance instDecidableHeld (o : Scene) : Decidable o.Held :=
  decidable_of_iff
    (o.outside.pwrBtn = false ∧ o.chargerInputVoltage < 6 ∧ o.outside.usbDetect = false)
    ⟨fun ⟨h₁, h₂, h₃⟩ => ⟨h₁, h₂, h₃⟩, fun ⟨h₁, h₂, h₃⟩ => ⟨h₁, h₂, h₃⟩⟩

section Parts

def switching : PowerM Bool := do
  holdPower
  if ← dischargeGuard then discharge
  else
    noDischarge
    pure false

def findsOff : PowerM Bool := test .elsewhere fun s => s.shutdown ∨
  s.outside.config .chargerDisconnectShutdown ≠ 0 ∧ s.powerOnEvent = .charger ∧
    s.chargerInputVoltage < 6

def switchOff : PowerM Unit := do
  act .elsewhere fun s => { s with shutdown := true }
  powerDown

def delayOver : PowerM Unit := do
  if ← test .elsewhere fun s =>
      (s.outside.config .shutdownDelay).toUInt32 < s.elapsedMs s.shutdownStartTime then
    powerDown
    act .elsewhere fun s => { s with shutdown := true }

def letGo : PowerM Unit := do
  act .elsewhere fun s => { s with shutdown := false }
  act .elsewhere fun s => { s with shutdownStarted := false }

/-- The rest of shutdownUpdate, from the test of the button on. -/
def buttonUpdate : PowerM Unit := do
  if ← test .elsewhere fun s =>
      (¬ s.outside.pwrBtn ∧ s.powerButtonReleased) ∧ s.chargerInputVoltage < 6 ∧
        ¬ s.outside.usbDetect ∨ s.powerOnEvent = .rtcc then
    startShutdown
    delayOver
  else letGo

/-- How a call of power_update goes: it returns where the output is found shorted, it finds
shutdown decided, or it comes to the test of the button. -/
inductive Course where
  | shorted
  | off
  | button
  deriving DecidableEq

def course : PowerM Course := do
  if ← switching then pure .shorted
  else
    noteButton
    if ← findsOff then pure .off else pure .button

def Course.rest : Course → PowerM Unit
  | .shorted => pure ()
  | .off => switchOff
  | .button => buttonUpdate

theorem power_update_course : powerUpdate = course >>= Course.rest := by
  have hshutdown : shutdownUpdate = (do
      noteButton
      if ← findsOff then pure Course.off else pure Course.button) >>= Course.rest := by
    rw [bind_assoc]
    refine congrArg (noteButton >>= ·) (funext fun _ => ?_)
    rw [bind_assoc]
    refine congrArg (findsOff >>= ·) (funext fun b => ?_)
    cases b <;> rfl
  rw [powerUpdate, course, switching, bind_assoc, bind_assoc]
  refine congrArg (holdPower >>= ·) (funext fun _ => ?_)
  rw [bind_assoc]
  refine congrArg (dischargeGuard >>= ·) (funext fun b => ?_)
  cases b with
  | true =>
    refine congrArg (discharge >>= ·) (funext fun b => ?_)
    cases b
    · exact hshutdown
    · rfl
  | false =>
    change (noDischarge >>= fun _ => shutdownUpdate) =
      (noDischarge >>= fun _ => pure false) >>= _
    rw [bind_assoc]
    exact congrArg (noDischarge >>= ·) (funext fun _ => hshutdown)

end Parts

section Timer

/-- What power_update keeps of the button from call to call. -/
structure HoldTimer where
  powerOnEvent : PowerOnEvent
  powerButtonReleased : Bool
  shutdownStarted : Bool
  shutdown : Bool
  shutdownStartTime : UInt32

def Power.holdTimer (s : Power) : HoldTimer where
  powerOnEvent := s.powerOnEvent
  powerButtonReleased := s.powerButtonReleased
  shutdownStarted := s.shutdownStarted
  shutdown := s.shutdown
  shutdownStartTime := s.shutdownStartTime

namespace HoldTimer

variable (h : HoldTimer)

def note (o : Scene) : HoldTimer :=
  { h with powerButtonReleased := h.powerButtonReleased || o.outside.pwrBtn }

def record (o : Scene) : HoldTimer :=
  if h.shutdownStarted then h
  else { h with shutdownStartTime := UInt32.ofNat o.ticks, shutdownStarted := true }

def Over (o : Scene) : Prop :=
  (o.outside.config .shutdownDelay).toUInt32 <
    st2ms (UInt32.ofNat o.ticks - h.shutdownStartTime)

instance instDecidableOver (o : Scene) : Decidable (h.Over o) :=
  inferInstanceAs (Decidable (_ < _))

def measure (o : Scene) : HoldTimer := if h.Over o then { h with shutdown := true } else h

def release : HoldTimer := { h with shutdown := false, shutdownStarted := false }

variable {h} {o : Scene}

theorem record_eq : h.record o =
    { h with
      shutdownStarted := true
      shutdownStartTime :=
        if h.shutdownStarted then h.shutdownStartTime else UInt32.ofNat o.ticks } := by
  rw [record]
  split_ifs with hs
  · rw [← hs]
  · rfl

theorem measure_eq : h.measure o = { h with shutdown := h.shutdown || decide (h.Over o) } := by
  rw [measure]
  split_ifs with hover
  · rw [decide_eq_true hover, Bool.or_true]
  · rw [decide_eq_false hover, Bool.or_false]

theorem record_kept (hs : h.shutdownStarted = true) : h.record o = h := if_pos hs

theorem record_start_time (hs : h.shutdownStarted = false) :
    (h.record o).shutdownStartTime = UInt32.ofNat o.ticks := by
  rw [record, if_neg (by rw [hs]; exact Bool.false_ne_true)]

theorem measure_shutdown (hoff : h.shutdown = false) :
    (h.measure o).shutdown = true ↔ h.Over o := by
  rw [measure_eq, hoff, Bool.false_or]
  exact decide_eq_true_iff

end HoldTimer

variable {s : Power} {see : ℕ → Scene}

theorem scene_timer (o : Scene) (s : Power) : (scene o s).holdTimer = s.holdTimer := rfl

theorem steady_switching (h : HoldTimer) : Steady (·.holdTimer = h) switching := by
  have hdsg (on : Bool) (l : Place) : Steady (·.holdTimer = h) (setDsgSw on l) :=
    steady_act fun _ hs => hs
  have hpchg (on : Bool) : Steady (·.holdTimer = h) (setPchgSw on) := steady_act fun _ hs => hs
  have hoff : Steady (·.holdTimer = h) switchesOff := (hdsg _ _).bind fun _ => hpchg _
  have hhold : Steady (·.holdTimer = h) holdPower :=
    steady_cases (steady_act fun _ hs => hs) trivial
  have hguard : Steady (·.holdTimer = h) dischargeGuard :=
    steady_cases (steady_look _ _) trivial
  have hstart : Steady (·.holdTimer = h) startPrecharge := by
    apply steady_cases
    · apply Steady.bind
      · exact steady_act fun _ hs => hs
      · exact fun _ => steady_act fun _ hs => hs
    · trivial
  have hshort : Steady (·.holdTimer = h) turnOnShort := steady_cases (steady_look _ _) trivial
  have hselect : Steady (·.holdTimer = h) selectSwitch := by
    have hover : Steady (·.holdTimer = h) prechargeOver :=
      steady_cases trivial (steady_look _ _)
    apply hover.bind
    intro b
    cases b
    · exact (hpchg _).bind fun _ => hdsg _ _
    · exact (hdsg _ _).bind fun _ => hpchg _
  have hfault : Steady (·.holdTimer = h) (faultsSetFault .turnOnShort) := by
    apply Steady.bind
    · exact steady_look _ _
    · exact fun _ => steady_act fun _ hs => hs
  have hno : Steady (·.holdTimer = h) noDischarge := by
    apply hoff.bind
    exact fun _ => steady_act fun _ hs => hs
  have hconnect : Steady (·.holdTimer = h) connect := by
    apply hshort.bind
    intro b
    cases b
    · exact hselect.bind fun _ => trivial
    · exact hoff.bind fun _ => hfault.bind fun _ => trivial
  apply hhold.bind
  intro _
  apply hguard.bind
  intro b
  cases b
  · exact hno.bind fun _ => trivial
  · exact hstart.bind fun _ => steady_cases hconnect (hoff.bind fun _ => trivial)

theorem switching_timer (see : ℕ → Scene) (s : Power) :
    (switching.watch scene see s).2.2.holdTimer = s.holdTimer :=
  (steady_switching s.holdTimer).watch (fun o t ht => (scene_timer o t).trans ht) rfl see

def noting : PowerM Course := do
  noteButton
  if ← findsOff then pure .off else pure .button

theorem course_eq : course = switching >>= fun short =>
    if short then pure .shorted else noting := rfl

theorem note_button_timer (see : ℕ → Scene) (s : Power) :
    (noteButton.watch scene see s).2.2.holdTimer = s.holdTimer.note (see 0) := by
  have hbutton : (scene (see 0) s).outside.pwrBtn = (see 0).outside.pwrBtn := rfl
  rw [noteButton, watch_cases, hbutton, HoldTimer.note]
  cases (see 0).outside.pwrBtn with
  | true =>
    rw [Bool.or_true]
    rfl
  | false =>
    rw [Bool.or_false]
    rfl

theorem noting_watch (see : ℕ → Scene) (s : Power) :
    (noting.watch scene see s).2.1 ≠ .shorted ∧
      (noting.watch scene see s).2.2.holdTimer = s.holdTimer.note (see 0) ∧
      ((noting.watch scene see s).2.1 = .button → s.shutdown = false) := by
  rw [noting, watch_bind]
  have hnote := note_button_timer see s
  generalize noteButton.watch scene see s = r at hnote ⊢
  rw [findsOff, watch_cases]
  split_ifs with hoff
  · exact ⟨nofun, hnote, nofun⟩
  · have hs : r.2.2.shutdown = s.shutdown := congrArg HoldTimer.shutdown hnote
    refine ⟨nofun, hnote, fun _ => hs.symm.trans (Bool.eq_false_iff.mpr fun h => hoff ?_)⟩
    exact decide_eq_true (Or.inl h)

theorem start_shutdown_timer (see : ℕ → Scene) (s : Power) :
    (startShutdown.watch scene see s).1.length = (if s.shutdownStarted then 1 else 3) ∧
      (startShutdown.watch scene see s).2.2.holdTimer = s.holdTimer.record (see 1) := by
  have hstarted : (scene (see 0) s).shutdownStarted = s.holdTimer.shutdownStarted := rfl
  have hsame : s.shutdownStarted = s.holdTimer.shutdownStarted := rfl
  rw [startShutdown, watch_cases, HoldTimer.record, hsame, hstarted]
  cases s.holdTimer.shutdownStarted with
  | true => exact ⟨rfl, rfl⟩
  | false => exact ⟨rfl, rfl⟩

theorem delay_over_timer (see : ℕ → Scene) (s : Power) :
    (delayOver.watch scene see s).2.2.holdTimer = s.holdTimer.measure (see 0) := by
  rw [delayOver, watch_cases]
  split_ifs with h
  · have hover : s.holdTimer.Over (see 0) := of_decide_eq_true h
    rw [HoldTimer.measure, if_pos hover]
    rfl
  · have hover : ¬ s.holdTimer.Over (see 0) := fun hover => h (decide_eq_true hover)
    rw [HoldTimer.measure, if_neg hover]
    rfl

theorem held_iff (o : Scene) (s : Power) (hs : s.powerOnEvent ≠ .rtcc) :
    ((¬ (scene o s).outside.pwrBtn = true ∧ (scene o s).powerButtonReleased = true) ∧
        (scene o s).chargerInputVoltage < 6 ∧ ¬ (scene o s).outside.usbDetect = true ∨
          (scene o s).powerOnEvent = .rtcc) ↔
      s.powerButtonReleased = true ∧ o.Held := by
  have hevent : (scene o s).powerOnEvent ≠ .rtcc := hs
  rw [or_iff_left hevent, Bool.not_eq_true, Bool.not_eq_true]
  constructor
  · rintro ⟨⟨hbutton, hreleased⟩, hcharger, husb⟩
    exact ⟨hreleased, hbutton, hcharger, husb⟩
  · rintro ⟨hreleased, hbutton, hcharger, husb⟩
    exact ⟨⟨hbutton, hreleased⟩, hcharger, husb⟩

theorem button_update_timer (see : ℕ → Scene) (s : Power) (hs : s.powerOnEvent ≠ .rtcc) :
    (buttonUpdate.watch scene see s).2.2.holdTimer =
      if s.powerButtonReleased = true ∧ (see 0).Held then
        (s.holdTimer.record (see 2)).measure (see (if s.shutdownStarted then 2 else 4))
      else s.holdTimer.release := by
  rw [buttonUpdate, watch_cases]
  have hheld := held_iff (see 0) s hs
  by_cases h : s.powerButtonReleased = true ∧ (see 0).Held
  · obtain ⟨hlength, hstart⟩ := start_shutdown_timer (fun n => see (n + 1)) (scene (see 0) s)
    rw [if_pos h, if_pos (decide_eq_true (hheld.mpr h)), watch_bind, delay_over_timer, hstart,
      hlength]
    change ((scene (see 0) s).holdTimer.record (see 2)).measure
      (see ((if s.shutdownStarted then 1 else 3) + 0 + 1)) = _
    cases s.shutdownStarted <;> rfl
  · rw [if_neg h, if_neg fun hfound => h (hheld.mp (of_decide_eq_true hfound))]
    rfl

theorem switch_off_timer (see : ℕ → Scene) (s : Power) :
    (switchOff.watch scene see s).2.2.holdTimer = { s.holdTimer with shutdown := true } := rfl

end Timer

end Battman
