import Battman.Power

/-! The interrupt of the current monitor in the middle of the main loop. -/
namespace Battman
open Interference Prog

/-- What happens beside the main loop: the interrupt, the surroundings, and calls from other
threads. -/
inductive PowerEvent where
  | currAlert
  | surroundings (outside : Surroundings)
  | disableDischarge
  | enableDischarge
  | clearFaults (faults : UInt8)

def PowerEvent.happen : PowerEvent → Power → Power
  | .currAlert, s => (Battman.currAlert.exec s).2
  | .surroundings outside, s => { s with outside }
  | .disableDischarge, s => (powerDisableDischarge.exec s).2
  | .enableDischarge, s => { s with dischargeEnabled := true }
  | .clearFaults faults, s => { s with faults := s.faults &&& ~~~faults }

/-- Neither power_enable_discharge nor a clearing of faults. -/
def PowerEvent.Quiet : PowerEvent → Prop
  | .enableDischarge | .clearFaults _ => False
  | _ => True

abbrev PowerMove := Move PowerEvent

def PowerMove.Quiet : PowerMove → Prop
  | .advance => True
  | .event e => e.Quiet

abbrev Loop := Interference.Machine Power Place

def Loop.after (m : Loop) (moves : List PowerMove) : Loop :=
  m.run mainLoop PowerEvent.happen moves

/-- From here, with the guard found true, power_update can still set DSG_SW: it has neither
found a short nor written the switches. -/
def Committed : Place → Power → Prop
  | .elsewhere, _ | .guardFaults, _ => False
  | .prechargedAgain, s => s.precharged = true
  | .shortTest, s => 1 / 2 ≤ s.dischargeVoltage
  | _, _ => True

def Loop.Committed (m : Loop) : Prop := ∃ l, m.rest.place = some l ∧ Battman.Committed l m.state

def Off (s : Power) : Prop := s.dischargeEnabled = false ∧ s.dsgSw = false

def Tripped (l : Place) (s : Power) : Prop :=
  Off s ∧ ¬ Committed l s ∧ (l = .guardFaults → s.faults ≠ 0)

/-- Programs that leave the trip as it is, at any of their steps. -/
abbrev KeepsOff {α : Type} (p : PowerM α) : Prop := Plain .elsewhere Off p

theorem tripped_elsewhere (s : Power) : Tripped .elsewhere s ↔ Off s := by
  simp [Tripped, Committed]

/-- What others measure, find or switch off has no part in it. -/
structure Indifferent (I : Power → Prop) : Prop where
  measured : ∀ s chargerInputVoltage dischargeVoltage thermistor current voltage, I s →
    I { s with chargerInputVoltage, dischargeVoltage, thermistor, current, voltage }
  faults : ∀ s faults, I s → I { s with faults }
  disabled : ∀ s, I s → I { s with dischargeEnabled := false }
  opened : ∀ s, I s → I { s with dsgSw := false }

/-- Nor what power_update notes for itself, and the switch of its own supply. -/
def Unnoted (I : Power → Prop) : Prop :=
  ∀ s powerButtonReleased shutdownStarted shutdownStartTime pwrSw, I s →
    I { s with powerButtonReleased, shutdownStarted, shutdownStartTime, pwrSw }

section Others

variable {I : Power → Prop}

theorem plain_set_fault (hI : Indifferent I) (fault : Fault) :
    Plain .elsewhere I (faultsSetFault fault) :=
  (plain_look ..).bind fun _ => plain_act fun s => hI.faults s _

theorem plain_disable_discharge (hI : Indifferent I) :
    Plain .elsewhere I powerDisableDischarge := by
  apply Plain.bind
  · exact plain_act hI.disabled
  · exact fun _ => plain_act hI.opened

theorem plain_analog_update (hI : Indifferent I) : Plain .elsewhere I analogUpdate := by
  apply Plain.bind
  · exact plain_act fun s => hI.measured s _ _ _ _ _
  intro _
  apply Plain.bind
  · exact plain_act fun s => hI.measured s _ _ _ _ _
  · exact fun _ => plain_when (plain_set_fault hI _)

theorem plain_current_monitor_update (hI : Indifferent I) :
    Plain .elsewhere I currentMonitorUpdate := by
  apply Plain.bind
  · exact plain_act fun s => hI.measured s _ _ _ _ _
  intro _
  apply Plain.bind
  · exact plain_act fun s => hI.measured s _ _ _ _ _
  · exact fun _ => plain_when ((plain_disable_discharge hI).bind fun _ => plain_set_fault hI _)

theorem plain_skip : Plain .elsewhere I skip := plain_act fun _ h => h

theorem plain_pwr_sw (hn : Unnoted I) (on : Bool) : Plain .elsewhere I (setPwrSw on) :=
  plain_act fun s h => hn s _ _ _ _ h

theorem plain_hold_power (hn : Unnoted I) : Plain .elsewhere I holdPower :=
  plain_when (plain_pwr_sw hn _)

theorem plain_note_button (hn : Unnoted I) : Plain .elsewhere I noteButton :=
  plain_when (plain_act fun s h => hn s _ _ _ _ h)

theorem plain_start_shutdown (hn : Unnoted I) : Plain .elsewhere I startShutdown := by
  apply plain_when
  apply Plain.bind
  · exact plain_act fun s h => hn s _ _ _ _ h
  · exact fun _ => plain_act fun s h => hn s _ _ _ _ h

theorem plain_power_down (hI : Indifferent I) (hn : Unnoted I) :
    Plain .elsewhere I powerDown := by
  apply plain_skip.bind
  intro _
  apply Plain.bind
  · exact plain_act hI.opened
  · exact fun _ => plain_pwr_sw hn _

theorem plain_shutdown_update (hI : Indifferent I) (hn : Unnoted I)
    (hs : ∀ s shutdown, I s → I { s with shutdown }) : Plain .elsewhere I shutdownUpdate := by
  apply (plain_note_button hn).bind
  intro _
  apply plain_cases
  · apply Plain.bind
    · exact plain_act fun s h => hs s _ h
    · exact fun _ => plain_power_down hI hn
  apply plain_cases
  · apply (plain_start_shutdown hn).bind
    intro _
    apply plain_when
    apply (plain_power_down hI hn).bind
    exact fun _ => plain_act fun s h => hs s _ h
  · apply Plain.bind
    · exact plain_act fun s h => hs s _ h
    · exact fun _ => plain_act fun s h => hn s _ _ _ _ h

end Others

section Parts

theorem indifferent_off : Indifferent Off where
  measured _ _ _ _ _ _ h := h
  faults _ _ h := h
  disabled _ h := ⟨rfl, h.2⟩
  opened _ h := ⟨h.1, rfl⟩

theorem keeps_dsg_sw_off : KeepsOff (setDsgSw false .elsewhere) :=
  plain_act indifferent_off.opened

theorem keeps_pchg_sw (on : Bool) : KeepsOff (setPchgSw on) := plain_act fun _ h => h

theorem keeps_switches_off : KeepsOff switchesOff :=
  keeps_dsg_sw_off.bind fun _ => keeps_pchg_sw _

theorem keeps_switch_precharge : KeepsOff switchPrecharge :=
  (keeps_pchg_sw _).bind fun _ => keeps_dsg_sw_off

theorem keeps_no_discharge : KeepsOff noDischarge :=
  keeps_switches_off.bind fun _ => plain_act fun _ h => h

theorem unnoted_off : Unnoted Off := fun _ _ _ _ _ h => h

theorem keeps_hold_power : KeepsOff holdPower := plain_hold_power unnoted_off

theorem keeps_shutdown_update : KeepsOff shutdownUpdate :=
  plain_shutdown_update indifferent_off unnoted_off fun _ _ h => h

theorem keeps_short : KeepsOff (switchesOff >>= fun _ => faultsSetFault .turnOnShort >>= fun _ =>
    (pure true : PowerM Bool)) :=
  keeps_switches_off.bind fun _ => (plain_set_fault indifferent_off _).bind fun _ => trivial

theorem keeps_not_precharged :
    KeepsOff (switchesOff >>= fun _ => (pure false : PowerM Bool)) :=
  keeps_switches_off.bind fun _ => trivial

theorem keeps_after_power_update : KeepsOff (skip >>= fun _ => skip >>= fun _ => skip >>= fun _ =>
    test .elsewhere (! ·.shutdown)) :=
  plain_skip.bind fun _ => plain_skip.bind fun _ => plain_skip.bind fun _ => plain_look ..

end Parts

section Guarded

variable {α : Type} {S : α → Power → Prop} {l : Place}

theorem outline_test {c : Power → Bool} {f : Bool → PowerM α}
    (h : ∀ s, Tripped l s → Stands Tripped S (f (c s)) s) (hf : ∀ b, Outline Tripped S (f b)) :
    Outline Tripped S (test l c >>= f) := ⟨h, fun s => hf (c s)⟩

theorem outline_act {g : Power → Power} {f : Unit → PowerM α}
    (h : ∀ s, Tripped l s → Stands Tripped S (f ()) (g s)) (hf : Outline Tripped S (f ())) :
    Outline Tripped S (act l g >>= f) := ⟨h, fun _ => hf⟩

theorem outline_guard : Outline Tripped (fun b s => Off s ∧ b = false) dischargeGuard := by
  apply outline_test
  · intro s hs
    have hoff : s.dischargeEnabled = false := hs.1.1
    rw [hoff]
    exact ⟨hs.1, rfl⟩
  · intro b
    cases b
    · trivial
    · refine ⟨fun s hs => ⟨hs.1, ?_⟩, fun _ => trivial⟩
      exact decide_eq_false (hs.2.2 rfl)

theorem outline_test_committed {c : Power → Bool} {f : Bool → PowerM α}
    (hl : ∀ s, Committed l s) (hf : ∀ b, Outline Tripped S (f b)) :
    Outline Tripped S (test l c >>= f) :=
  outline_test (fun s hs => absurd (hl s) hs.2.1) hf

theorem outline_act_committed {g : Power → Power} {f : Unit → PowerM α}
    (hl : ∀ s, Committed l s) (hf : Outline Tripped S (f ())) :
    Outline Tripped S (act l g >>= f) :=
  outline_act (fun s hs => absurd (hl s) hs.2.1) hf

theorem outline_start_precharge {f : Unit → PowerM α} (hf : Outline Tripped S (f ())) :
    Outline Tripped S (startPrecharge >>= f) := by
  rw [startPrecharge, bind_assoc]
  apply outline_test_committed
  · exact fun _ => trivial
  intro b
  cases b
  · exact hf
  · rw [if_pos rfl, bind_assoc]
    apply outline_act_committed
    · exact fun _ => trivial
    · exact outline_act_committed (fun _ => trivial) hf

theorem outline_turn_on_short {f : Bool → PowerM α}
    (hshort : ∀ s, Off s → Stands Tripped S (f true) s) (hf : ∀ b, Outline Tripped S (f b)) :
    Outline Tripped S (turnOnShort >>= f) := by
  rw [turnOnShort, bind_assoc]
  apply outline_test_committed
  · exact fun _ => trivial
  intro b
  cases b
  · exact hf false
  · rw [if_pos rfl]
    apply outline_test
    · intro s hs
      rw [decide_eq_true (not_le.mp hs.2.1)]
      exact hshort s hs.1
    · exact hf

theorem outline_precharge_over {f : Bool → PowerM α} (hf : ∀ b, Outline Tripped S (f b)) :
    Outline Tripped S (prechargeOver >>= f) := by
  rw [prechargeOver, bind_assoc]
  apply outline_test_committed
  · exact fun _ => trivial
  intro b
  cases b
  · exact outline_test_committed (fun _ => trivial) hf
  · exact hf true

theorem outline_select_switch : Outline Tripped (fun _ => Off) selectSwitch := by
  apply outline_precharge_over
  intro b
  cases b
  · exact (keeps_switch_precharge.keeps tripped_elsewhere).outline
  · apply outline_act_committed
    · exact fun _ => trivial
    · exact ((keeps_pchg_sw _).keeps tripped_elsewhere).outline

theorem outline_connect : Outline Tripped (fun _ => Off) connect := by
  have hshort := keeps_short.keeps tripped_elsewhere
  apply outline_turn_on_short
  · exact hshort.start
  intro b
  cases b
  · exact outline_bind outline_select_switch fun _ => trivial
  · exact hshort.outline

theorem outline_discharge : Outline Tripped (fun _ => Off) discharge := by
  have hoff := keeps_not_precharged.keeps tripped_elsewhere
  apply outline_start_precharge
  apply outline_test
  · intro s hs
    have hp : s.precharged = false := Bool.not_eq_true _ ▸ hs.2.1
    rw [hp]
    exact hoff.start s hs.1
  intro b
  cases b
  · exact hoff.outline
  · exact outline_connect

theorem keeps_power_update : Keeps Tripped Off powerUpdate := by
  apply (keeps_hold_power.keeps tripped_elsewhere).bind
  intro _
  have hrest := keeps_shutdown_update.keeps tripped_elsewhere
  have hoff := (keeps_no_discharge.bind fun _ => keeps_shutdown_update).keeps tripped_elsewhere
  constructor
  · apply outline_bind
    · apply outline_guard.mono
      rintro b s ⟨hs, rfl⟩
      exact hoff.start s hs
    intro b
    cases b
    · exact hoff.outline
    apply outline_bind
    · apply outline_discharge.mono
      intro b s hs
      cases b
      · exact hrest.start s hs
      · exact hs
    intro b
    cases b
    · exact hrest.outline
    · trivial
  · exact fun s hs => (tripped_elsewhere s).mpr hs

theorem keeps_main_loop : Keeps Tripped Off mainLoop := by
  have h {α : Type} {p : PowerM α} (hp : KeepsOff p) := hp.keeps tripped_elsewhere
  apply (h (plain_analog_update indifferent_off)).bind
  refine fun _ => (h plain_skip).bind fun _ =>
    (h (plain_current_monitor_update indifferent_off)).bind fun _ => ?_
  refine (h plain_skip).bind fun _ => (h plain_skip).bind fun _ => ?_
  exact keeps_power_update.bind fun _ => h keeps_after_power_update

end Guarded

section Trip

variable {m : Loop} {s : Power}

def Power.trip (s : Power) : Power :=
  { s with dischargeEnabled := false, dsgSw := false, faults := s.faults ||| Fault.overcurrent.bit }

theorem curr_alert_happens (s : Power) : PowerEvent.currAlert.happen s = s.trip := rfl

theorem committed_trip {l : Place} : Committed l s.trip ↔ Committed l s := by cases l <;> rfl

theorem faults_trip (s : Power) : s.trip.faults ≠ 0 := by
  intro h
  have hbit : Fault.overcurrent.bit = 0 := (UInt8.or_eq_zero_iff.mp h).2
  exact absurd hbit (by decide)

theorem kept_off {moves : List PowerMove} (hq : ∀ x ∈ moves, PowerMove.Quiet x) :
    Kept PowerEvent.happen Tripped (fun _ : Bool => Off) moves := by
  intro e he s
  have hquiet : e.Quiet := hq _ he
  cases e with
  | currAlert =>
    rw [curr_alert_happens]
    refine ⟨fun l h => ⟨⟨rfl, rfl⟩, ?_, fun _ => faults_trip s⟩, fun _ _ => ⟨rfl, rfl⟩⟩
    rw [committed_trip]
    exact h.2.1
  | surroundings outside =>
    refine ⟨fun l h => ⟨h.1, ?_, h.2.2⟩, fun _ h => h⟩
    have hc := h.2.1
    cases l <;> exact hc
  | disableDischarge =>
    refine ⟨fun l h => ⟨⟨rfl, rfl⟩, ?_, h.2.2⟩, fun _ _ => ⟨rfl, rfl⟩⟩
    have hc := h.2.1
    cases l <;> exact hc
  | enableDischarge => exact hquiet.elim
  | clearFaults faults => exact hquiet.elim

theorem off_after_trip (hm : Outline Tripped (fun _ => Off) m.rest) (hc : ¬ m.Committed)
    {moves : List PowerMove} (hq : ∀ x ∈ moves, PowerMove.Quiet x) :
    (m.after (.event .currAlert :: moves)).state.dsgSw = false := by
  have hplace : Stands Tripped (fun _ => Off) m.rest m.state.trip := by
    cases hr : m.rest with
    | done b => exact ⟨rfl, rfl⟩
    | step l g next =>
      refine ⟨⟨rfl, rfl⟩, ?_, fun _ => faults_trip _⟩
      rw [committed_trip]
      exact fun h => hc ⟨l, by rw [hr]; rfl, h⟩
  have hstands := stands_run (m := ⟨m.rest, m.state.trip⟩) keeps_main_loop.outline
    (fun s hs => keeps_main_loop.start s hs) (kept_off hq) hm hplace
  have hoff : ∀ p s, Stands Tripped (fun _ : Bool => Off) p s → s.dsgSw = false := by
    intro p s h
    cases p with
    | done b => exact h.2
    | step l g next => exact h.1.2
  exact hoff _ _ hstands

end Trip

section Closing

def Loop.Closes (m : Loop) : Prop :=
  ∃ moves, (∀ x ∈ moves, PowerMove.Quiet x) ∧ (m.after moves).state.dsgSw = true

variable {s : Power} {k : Bool → PowerM Bool} {f : Bool → PowerM Bool}
  {g : Unit → PowerM Bool} {p : PowerM Bool}

theorem Loop.Closes.move {m : Loop} {x : PowerMove} (hx : x.Quiet)
    (h : Loop.Closes (m.move mainLoop PowerEvent.happen x)) : m.Closes := by
  obtain ⟨moves, hq, hs⟩ := h
  exact ⟨x :: moves, List.forall_mem_cons.mpr ⟨hx, hq⟩, hs⟩

theorem Loop.Closes.test {l : Place} {c : Power → Bool} {b : Bool} (hc : c s = b)
    (h : Loop.Closes ⟨f b, s⟩) : Loop.Closes ⟨Prog.test l c >>= f, s⟩ := by
  subst hc
  exact Loop.Closes.move (x := .advance) trivial h

theorem Loop.Closes.act {l : Place} {a : Power → Power} (h : Loop.Closes ⟨g (), a s⟩) :
    Loop.Closes ⟨Prog.act l a >>= g, s⟩ :=
  Loop.Closes.move (x := .advance) trivial h

def Power.atTime (s : Power) (systemTime : UInt32) : Power :=
  { s with outside := { s.outside with systemTime } }

theorem Loop.Closes.clock (systemTime : UInt32) (h : Loop.Closes ⟨p, s.atTime systemTime⟩) :
    Loop.Closes ⟨p, s⟩ :=
  Loop.Closes.move (x := .event (.surroundings { s.outside with systemTime })) trivial h

theorem closes_main_switch : Loop.Closes ⟨setDsgSw true .mainSwitch >>= g, s⟩ :=
  ⟨[.advance], by simp [PowerMove.Quiet], rfl⟩

theorem start_at_time (t : UInt32) : (s.atTime t).prechargeStartTime = s.prechargeStartTime :=
  rfl

theorem elapsed_at_time (ticks : UInt32) (start : UInt32) :
    (s.atTime (start + ticks)).elapsedMs start = st2ms ticks := by
  change st2ms (start + ticks - start) = st2ms ticks
  rw [UInt32.add_comm, UInt32.add_sub_cancel]

theorem timeout_passes (timeout : UInt16) : timeout.toUInt32 < st2ms 660000 := by
  have hlt := timeout.toNat_lt
  rw [UInt32.lt_iff_toNat_lt, UInt16.toNat_toUInt32]
  exact hlt.trans (by decide)

theorem closes_timeout (h : ∀ s, Loop.Closes ⟨f true, s⟩) :
    Loop.Closes ⟨(test .timeoutTest fun s =>
      (s.outside.config .prechargeTimeout).toUInt32 < s.elapsedMs s.prechargeStartTime) >>= f,
      s⟩ := by
  apply Loop.Closes.clock (s.prechargeStartTime + 660000)
  apply Loop.Closes.test (b := true)
  · apply decide_eq_true
    rw [start_at_time, elapsed_at_time]
    exact timeout_passes _
  · exact h _

theorem closes_precharge_over (h : ∀ s, Loop.Closes ⟨f true, s⟩) :
    Loop.Closes ⟨prechargeOver >>= f, s⟩ := by
  rw [prechargeOver, bind_assoc]
  by_cases hv : s.voltage - 5 ≤ s.dischargeVoltage
  · exact Loop.Closes.test (decide_eq_true hv) (h _)
  · exact Loop.Closes.test (decide_eq_false hv) (closes_timeout h)

theorem closes_select_switch : Loop.Closes ⟨selectSwitch >>= g, s⟩ := by
  rw [selectSwitch, bind_assoc]
  apply closes_precharge_over
  intro s
  rw [if_pos rfl, switchOn, bind_assoc]
  exact closes_main_switch

theorem closes_short_test (hv : 1 / 2 ≤ s.dischargeVoltage)
    (h : ∀ s, Loop.Closes ⟨f false, s⟩) :
    Loop.Closes ⟨test .shortTest (·.dischargeVoltage < 1 / 2) >>= f, s⟩ :=
  Loop.Closes.test (decide_eq_false (not_lt.mpr hv)) (h _)

theorem closes_turn_on_short (h : ∀ s, Loop.Closes ⟨f false, s⟩) :
    Loop.Closes ⟨turnOnShort >>= f, s⟩ := by
  rw [turnOnShort, bind_assoc]
  apply Loop.Closes.clock (s.prechargeStartTime + 0)
  apply Loop.Closes.test (b := false)
  · apply decide_eq_false
    rw [start_at_time, elapsed_at_time]
    decide
  · exact h _

theorem closes_precharged_again (hp : s.precharged = true)
    (h : ∀ s, Loop.Closes ⟨f true, s⟩) :
    Loop.Closes ⟨test .prechargedAgain (·.precharged) >>= f, s⟩ :=
  Loop.Closes.test hp (h _)

theorem closes_precharged_set (h : ∀ s, s.precharged = true → Loop.Closes ⟨g (), s⟩) :
    Loop.Closes ⟨(act .prechargedSet fun s => { s with precharged := true }) >>= g, s⟩ := by
  apply Loop.Closes.act
  exact h _ rfl

theorem closes_start_precharge (h : ∀ s, s.precharged = true → Loop.Closes ⟨g (), s⟩) :
    Loop.Closes ⟨startPrecharge >>= g, s⟩ := by
  rw [startPrecharge, bind_assoc]
  cases hp : s.precharged with
  | true => exact Loop.Closes.test (b := false) (by rw [hp]; rfl) (h s hp)
  | false =>
    apply Loop.Closes.test (b := true) (by rw [hp]; rfl)
    rw [if_pos rfl, bind_assoc]
    exact Loop.Closes.act (closes_precharged_set h)

/-- From a committed place the switch can still be set. -/
def Sets (p : PowerM Bool) : Prop :=
  ∀ l s, p.place = some l → Committed l s → Loop.Closes ⟨p, s⟩

theorem sets_of_closes (h : ∀ s, Loop.Closes ⟨p, s⟩) : Sets p := fun _ s _ _ => h s

theorem along_plain {α : Type} {p : PowerM α} {k : α → PowerM Bool} (h : KeepsOff p) :
    Along Sets k p :=
  h.along fun _ _ _ _ hl hc => by
    obtain rfl := Option.some_inj.mp hl
    exact hc.elim

theorem along_test {α : Type} {l : Place} {c : Power → Bool} {f : Bool → PowerM α}
    {k : α → PowerM Bool} (h : Sets (test l c >>= fun b => f b >>= k))
    (hf : ∀ b, Along Sets k (f b)) : Along Sets k (test l c >>= f) :=
  ⟨h, fun s => hf (c s)⟩

theorem along_act {α : Type} {l : Place} {act : Power → Power} {f : Unit → PowerM α}
    {k : α → PowerM Bool} (h : Sets (Prog.act l act >>= fun b => f b >>= k))
    (hf : Along Sets k (f ())) : Along Sets k (Prog.act l act >>= f) :=
  ⟨h, fun _ => hf⟩

theorem along_start_precharge {k : Unit → PowerM Bool}
    (h : ∀ s, s.precharged = true → Loop.Closes ⟨k (), s⟩) : Along Sets k startPrecharge := by
  apply along_test
  · exact sets_of_closes fun _ => closes_start_precharge h
  intro b
  cases b
  · trivial
  · apply along_act
    · exact sets_of_closes fun _ => Loop.Closes.act (closes_precharged_set h)
    · exact ⟨sets_of_closes fun _ => closes_precharged_set h, fun _ => trivial⟩

theorem along_turn_on_short {k : Bool → PowerM Bool} (h : ∀ s, Loop.Closes ⟨k false, s⟩) :
    Along Sets k turnOnShort := by
  apply along_test
  · exact sets_of_closes fun _ => closes_turn_on_short h
  intro b
  cases b
  · trivial
  · refine ⟨fun l s hl hv => ?_, fun _ => trivial⟩
    obtain rfl := Option.some_inj.mp hl
    exact closes_short_test hv h

theorem along_select_switch (k : Unit → PowerM Bool) : Along Sets k selectSwitch := by
  have htrue (s : Power) : Loop.Closes ⟨switchOn >>= k, s⟩ := by
    rw [switchOn, bind_assoc]
    exact closes_main_switch
  apply along_bind
  · apply along_test
    · exact sets_of_closes fun _ => closes_precharge_over htrue
    intro b
    cases b
    · exact ⟨sets_of_closes fun _ => closes_timeout htrue, fun _ => trivial⟩
    · trivial
  intro b
  cases b
  · exact along_plain keeps_switch_precharge
  · apply along_act
    · exact sets_of_closes fun _ => closes_main_switch
    · exact along_plain (keeps_pchg_sw _)

theorem closes_connected : Loop.Closes ⟨selectSwitch >>= (fun _ => pure false) >>= k, s⟩ := by
  rw [bind_assoc]
  exact closes_select_switch

theorem closes_connect : Loop.Closes ⟨connect >>= k, s⟩ := by
  rw [connect, bind_assoc]
  exact closes_turn_on_short fun _ => closes_connected

theorem along_connect (k : Bool → PowerM Bool) : Along Sets k connect := by
  apply along_bind
  · exact along_turn_on_short fun _ => closes_connected
  intro b
  cases b
  · exact along_bind (along_select_switch _) fun _ => trivial
  · exact along_plain keeps_short

theorem along_discharge (k : Bool → PowerM Bool) : Along Sets k discharge := by
  have hagain {s : Power} (hp : s.precharged = true) : Loop.Closes ⟨(test .prechargedAgain
      (·.precharged) >>= fun b => (if b then connect else
        switchesOff >>= fun _ => pure false) >>= k), s⟩ :=
    closes_precharged_again hp fun _ => closes_connect
  apply along_bind
  · apply along_start_precharge
    intro s hp
    rw [bind_assoc]
    exact hagain hp
  intro _
  apply along_test
  · intro l s hl hp
    obtain rfl := Option.some_inj.mp hl
    exact hagain hp
  intro b
  cases b
  · exact along_plain keeps_not_precharged
  · exact along_connect k

theorem along_guard (k : Bool → PowerM Bool) : Along Sets k dischargeGuard := by
  have hguard {l : Place} (hl : l = .elsewhere ∨ l = .guardFaults) (act : Power → Power)
      (next : Power → PowerM Bool) : Sets (.step l act next) := by
    intro l' s hl' hc
    obtain rfl := Option.some_inj.mp hl'
    rcases hl with rfl | rfl <;> exact hc.elim
  apply along_test
  · exact hguard (Or.inl rfl) _ _
  intro b
  cases b
  · trivial
  · exact ⟨hguard (Or.inr rfl) _ _, fun _ => trivial⟩

theorem along_power_update (k : Unit → PowerM Bool) : Along Sets k powerUpdate := by
  apply along_bind
  · exact along_plain keeps_hold_power
  intro _
  apply along_bind
  · exact along_guard _
  intro b
  cases b
  · exact along_plain (keeps_no_discharge.bind fun _ => keeps_shutdown_update)
  apply along_bind
  · exact along_discharge _
  intro b
  cases b
  · exact along_plain keeps_shutdown_update
  · trivial

theorem along_main_loop : Along Sets .done mainLoop := by
  apply along_bind (along_plain (plain_analog_update indifferent_off))
  intro _
  apply along_bind (along_plain plain_skip)
  intro _
  apply along_bind (along_plain (plain_current_monitor_update indifferent_off))
  intro _
  apply along_bind (along_plain plain_skip)
  intro _
  apply along_bind (along_plain plain_skip)
  intro _
  apply along_bind (along_power_update _)
  exact fun _ => along_plain keeps_after_power_update

end Closing

def Power.start (s : Power) : Loop := ⟨mainLoop, s⟩

/-- After any moves, an interrupt is followed by an open DSG_SW for ever, if and only if it
did not come between the found guard and the writing of the switches. -/
theorem trip_final_iff (s : Power) (before : List PowerMove) :
    (∀ after, (∀ x ∈ after, PowerMove.Quiet x) →
      (s.start.after (before ++ .event .currAlert :: after)).state.dsgSw = false) ↔
      ¬ (s.start.after before).Committed := by
  have hrun (after : List PowerMove) : s.start.after (before ++ .event .currAlert :: after) =
      (s.start.after before).after (.event .currAlert :: after) := run_append
  constructor
  · rintro h ⟨l, hl, hc⟩
    have hsets : Sets (s.start.after before).rest := by
      apply along_run
      · exact fun again l s hl => nomatch hl
      · exact along_main_loop
      · exact along_main_loop
    obtain ⟨after, hq, hclosed⟩ :=
      hsets l (s.start.after before).state.trip hl (committed_trip.mpr hc)
    have hopen := h after hq
    rw [hrun] at hopen
    exact Bool.false_ne_true (hopen.symm.trans hclosed)
  · intro hc after hq
    rw [hrun]
    exact off_after_trip (outline_run keeps_main_loop.outline keeps_main_loop.outline) hc hq

def idleSurroundings : Surroundings where
  systemTime := 0
  chargerInput := 0
  dischargeSense := 40
  temperature := 25
  shuntCurrent := 0
  busVoltage := 40
  pwrBtn := true
  currAlert := true
  usbDetect := false
  config := Config.default

/-- As power_init leaves it when the button is pressed. -/
def switchedOn : Power where
  dischargeEnabled := true
  precharged := false
  prechargeStartTime := 0
  powerOnEvent := .switch
  powerButtonReleased := false
  shutdownStarted := false
  shutdown := false
  shutdownStartTime := 0
  faults := 0
  chargerInputVoltage := 0
  dischargeVoltage := 0
  thermistor := 0
  current := 0
  voltage := 0
  dsgSw := false
  pchgSw := false
  pwrSw := true
  outside := idleSurroundings

/-- The interrupt comes in the first round, before the twentieth step, which sets DSG_SW. -/
theorem interrupt_before_switch_lost :
    ¬ ∀ before after : List PowerMove, (∀ x ∈ before ++ after, PowerMove.Quiet x) →
      (switchedOn.start.after (before ++ .event .currAlert :: after)).state.dsgSw = false := by
  intro h
  have hquiet : ∀ x ∈ List.replicate 19 .advance ++ [.advance], PowerMove.Quiet x := by
    intro x hx
    rw [← List.replicate_succ'] at hx
    rw [List.eq_of_mem_replicate hx]
    trivial
  exact absurd (h (List.replicate 19 .advance) [.advance] hquiet) (by decide +kernel)

end Battman
