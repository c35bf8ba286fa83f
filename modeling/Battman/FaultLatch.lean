import Battman.Overcurrent
import Battman.SharedRegister

/-! The fault register over every run of the main loop and the interrupt of the current
monitor. Nothing that is called clears a fault; but the main loop sets one by a load and a
store, and a fault set between the two is overwritten. -/
namespace Battman
open Interference Prog

def faultsCheckFault (faults : UInt8) (fault : Fault) : Bool := faults &&& fault.bit ≠ 0

inductive Fault.Used : Fault → Prop
  | overcurrent : Used .overcurrent
  | boardTemp : Used .boardTemp
  | turnOnShort : Used .turnOnShort

def PowerMove.Keeps : PowerMove → Prop
  | .event (.clearFaults _) => False
  | _ => True

def putFaults (faults : UInt8) (s : Power) : Power := { s with faults }

def SetsFault (f : UInt8 → UInt8) : Prop := ∃ fault : Fault, fault.Used ∧ f = (· ||| fault.bit)

/-- The main loop stands before the store of a value without the overcurrent fault. -/
def Loop.Torn (m : Loop) : Prop :=
  ∃ faults, AtStore putFaults m faults ∧ faultsCheckFault faults .overcurrent = false

variable {α : Type} {m : Loop} {fault fault' : Fault} {faults : UInt8} {moves : List PowerMove}

section Bits

theorem check_or (x y : UInt8) (fault : Fault) :
    faultsCheckFault (x ||| y) fault = true ↔
      faultsCheckFault x fault = true ∨ faultsCheckFault y fault = true := by
  have hdistrib : (x ||| y) &&& fault.bit = x &&& fault.bit ||| y &&& fault.bit :=
    UInt8.toBitVec_inj.mp BitVec.and_or_distrib_right
  simp only [faultsCheckFault, decide_eq_true_eq, hdistrib, ne_eq, UInt8.or_eq_zero_iff]
  exact not_and_or

theorem check_bit (fault fault' : Fault) :
    faultsCheckFault fault.bit fault' = true ↔ fault = fault' := by
  cases fault <;> cases fault' <;> decide

theorem check_set (x : UInt8) (fault fault' : Fault) :
    faultsCheckFault (x ||| fault.bit) fault' = true ↔
      faultsCheckFault x fault' = true ∨ fault = fault' := by
  rw [check_or, check_bit]

end Bits

section Program

abbrev ModifiesFaults (p : PowerM α) : Prop := Modifies Power.faults putFaults SetsFault p

theorem modifies_set_fault (h : fault.Used) : ModifiesFaults (faultsSetFault fault) := by
  have hset : SetsFault (· ||| fault.bit) := ⟨fault, h, rfl⟩
  exact .modify hset fun _ _ => .done _

theorem modifies_disable : ModifiesFaults powerDisableDischarge :=
  Modifies.bind (modifies_act fun _ => by rfl) fun _ => modifies_act fun _ => by rfl

theorem modifies_when {l : Place} {c : Power → Bool} {p : PowerM Unit} (h : ModifiesFaults p) :
    ModifiesFaults (test l c >>= fun b => if b then p else pure ()) :=
  modifies_cases h (.done _)

theorem modifies_skip : ModifiesFaults skip := modifies_act fun _ => rfl

theorem modifies_analog_update : ModifiesFaults analogUpdate :=
  Modifies.bind (modifies_act fun _ => by rfl) fun _ =>
    Modifies.bind (modifies_act fun _ => by rfl) fun _ =>
    modifies_when (modifies_set_fault .boardTemp)

theorem modifies_current_monitor_update : ModifiesFaults currentMonitorUpdate :=
  Modifies.bind (modifies_act fun _ => by rfl) fun _ =>
    Modifies.bind (modifies_act fun _ => by rfl) fun _ =>
    modifies_when (Modifies.bind modifies_disable fun _ => modifies_set_fault .overcurrent)

theorem modifies_switches_off : ModifiesFaults switchesOff :=
  Modifies.bind (modifies_act fun _ => by rfl) fun _ => modifies_act fun _ => by rfl

theorem modifies_select_switch : ModifiesFaults selectSwitch := by
  have hover : ModifiesFaults prechargeOver := modifies_cases (.done _) (modifies_look ..)
  apply hover.bind
  intro isOver
  cases isOver
  · exact Modifies.bind (modifies_act fun _ => by rfl) fun _ => modifies_act fun _ => by rfl
  · exact Modifies.bind (modifies_act fun _ => by rfl) fun _ => modifies_act fun _ => by rfl

theorem modifies_connect : ModifiesFaults connect := by
  have hshort : ModifiesFaults turnOnShort := modifies_cases (modifies_look ..) (.done _)
  apply hshort.bind
  intro found
  cases found
  · exact Modifies.bind modifies_select_switch fun _ => .done _
  · exact Modifies.bind modifies_switches_off fun _ =>
      Modifies.bind (modifies_set_fault .turnOnShort) fun _ => .done _

theorem modifies_discharge : ModifiesFaults discharge := by
  have hstart : ModifiesFaults startPrecharge :=
    modifies_when (Modifies.bind (modifies_act fun _ => by rfl) fun _ =>
      modifies_act fun _ => by rfl)
  apply hstart.bind
  intro _
  apply modifies_cases modifies_connect
  exact Modifies.bind modifies_switches_off fun _ => .done _

theorem modifies_power_down : ModifiesFaults powerDown :=
  Modifies.bind modifies_skip fun _ => Modifies.bind (modifies_act fun _ => by rfl) fun _ =>
    modifies_act fun _ => by rfl

theorem modifies_shutdown_update : ModifiesFaults shutdownUpdate := by
  have hnote : ModifiesFaults noteButton := modifies_when (modifies_act fun _ => by rfl)
  have hstart : ModifiesFaults startShutdown :=
    modifies_when (Modifies.bind (modifies_act fun _ => by rfl) fun _ =>
      modifies_act fun _ => by rfl)
  apply hnote.bind
  intro _
  apply modifies_cases
  · exact Modifies.bind (modifies_act fun _ => by rfl) fun _ => modifies_power_down
  apply modifies_cases
  · apply hstart.bind
    intro _
    exact modifies_when (Modifies.bind modifies_power_down fun _ => modifies_act fun _ => by rfl)
  · exact Modifies.bind (modifies_act fun _ => by rfl) fun _ => modifies_act fun _ => by rfl

theorem modifies_power_update : ModifiesFaults powerUpdate := by
  have hhold : ModifiesFaults holdPower := modifies_when (modifies_act fun _ => by rfl)
  have hguard : ModifiesFaults dischargeGuard := modifies_cases (modifies_look ..) (.done _)
  have hnone : ModifiesFaults noDischarge :=
    Modifies.bind modifies_switches_off fun _ => modifies_act fun _ => by rfl
  apply hhold.bind
  intro _
  apply hguard.bind
  intro on
  cases on
  · exact hnone.bind fun _ => modifies_shutdown_update
  · apply Modifies.bind modifies_discharge
    intro early
    cases early
    · exact modifies_shutdown_update
    · exact .done _

theorem modifies_after_power_update :
    ModifiesFaults (skip >>= fun _ => skip >>= fun _ => skip >>= fun _ =>
      test .elsewhere (! ·.shutdown)) :=
  Modifies.bind modifies_skip fun _ => Modifies.bind modifies_skip fun _ =>
    Modifies.bind modifies_skip fun _ => modifies_look ..

theorem modifies_main_loop : ModifiesFaults mainLoop := by
  apply Modifies.bind modifies_analog_update
  intro _
  apply Modifies.bind modifies_skip
  intro _
  apply Modifies.bind modifies_current_monitor_update
  intro _
  apply Modifies.bind modifies_skip
  intro _
  apply Modifies.bind modifies_skip
  intro _
  apply Modifies.bind modifies_power_update
  exact fun _ => modifies_after_power_update

end Program

section Runs

abbrev Loop.Linked (m : Loop) (I : UInt8 → Prop) (Q : UInt8 → UInt8 → Prop) : Prop :=
  Interference.Linked Power.faults putFaults SetsFault I Q m

theorem keeps_faults {e : PowerEvent} (h : PowerMove.Keeps (.event e)) (s : Power) :
    (e.happen s).faults = s.faults ∨
      (e.happen s).faults = s.faults ||| Fault.overcurrent.bit := by
  cases e with
  | currAlert => exact Or.inr rfl
  | surroundings outside => exact Or.inl rfl
  | disableDischarge => exact Or.inl rfl
  | enableDischarge => exact Or.inl rfl
  | clearFaults faults => exact h.elim

theorem linked_after {I : UInt8 → Prop} {Q : UInt8 → UInt8 → Prop} (hQ : Links SetsFault I Q)
    (hI : ∀ x, I x → I (x ||| Fault.overcurrent.bit))
    (halert : ∀ x y, Q x y → Q x (y ||| Fault.overcurrent.bit))
    (hk : ∀ x ∈ moves, PowerMove.Keeps x) (hm : m.Linked I Q) : (m.after moves).Linked I Q := by
  refine linked_run (fun _ _ => rfl) modifies_main_loop hQ (fun e he s => ?_) hm
  rcases keeps_faults (hk _ he) s with h | h
  · rw [h]
    exact ⟨fun h => h, fun _ h => h⟩
  · rw [h]
    exact ⟨hI _, fun x => halert x _⟩

/-- A fault that is set, also in a value about to be stored, stays. -/
theorem check_after (hm : m.Linked (faultsCheckFault · fault = true)
      fun x _ => faultsCheckFault x fault = true)
    (hk : ∀ x ∈ moves, PowerMove.Keeps x) :
    faultsCheckFault (m.after moves).state.faults fault = true := by
  have hlinks : Links SetsFault (faultsCheckFault · fault = true)
      fun x _ => faultsCheckFault x fault = true := by
    refine ⟨?_, fun _ _ h => h⟩
    rintro f x ⟨fault', -, rfl⟩ hx
    exact (check_set ..).mpr (Or.inl hx)
  exact (linked_after hlinks (fun x hx => (check_set ..).mpr (Or.inl hx)) (fun _ _ h => h) hk
    hm).1

def OnlyUsed (faults : UInt8) : Prop := faults &&& 0xCB = 0

theorem only_used_set {x : UInt8} (hx : OnlyUsed x) (h : fault.Used) :
    OnlyUsed (x ||| fault.bit) := by
  have hbit : fault.bit &&& 0xCB = 0 := by cases h <;> decide
  have hdistrib : (x ||| fault.bit) &&& 0xCB = x &&& 0xCB ||| fault.bit &&& 0xCB :=
    UInt8.toBitVec_inj.mp BitVec.and_or_distrib_right
  rw [OnlyUsed, hdistrib, hbit, hx]
  rfl

/-- The faults that are set, and those in a value about to be stored: none but an overcurrent
can be missing from it. -/
def Latched (x y : UInt8) : Prop :=
  OnlyUsed x ∧
    ∀ fault ≠ .overcurrent, faultsCheckFault y fault = true → faultsCheckFault x fault = true

theorem links_latched : Links SetsFault OnlyUsed Latched := by
  refine ⟨?_, fun _ _ h => h.1⟩
  rintro f x ⟨fault, hused, rfl⟩ hx
  exact ⟨only_used_set hx hused, fun fault' _ h => (check_set ..).mpr (Or.inl h)⟩

/-- No fault is ever set but three, and of these a short or the board's temperature, once set,
stays for good, in every run with interrupts anywhere. -/
theorem faults_latched (s : Power) (hs : s.faults = 0) (pre post : List PowerMove)
    (hpre : ∀ x ∈ pre, PowerMove.Keeps x) (hpost : ∀ x ∈ post, PowerMove.Keeps x) (m : Loop)
    (hm : m = Loop.after ⟨mainLoop, s⟩ pre) :
    OnlyUsed m.state.faults ∧
      ∀ fault ≠ .overcurrent, faultsCheckFault m.state.faults fault = true →
        faultsCheckFault (m.after post).state.faults fault = true := by
  have hstart : Loop.Linked ⟨mainLoop, s⟩ OnlyUsed Latched :=
    ⟨congrArg (· &&& 0xCB) hs, Or.inl modifies_main_loop⟩
  have hlinked : m.Linked OnlyUsed Latched := by
    rw [hm]
    refine linked_after links_latched (fun x hx => only_used_set hx .overcurrent)
      (fun x y h => ?_) hpre hstart
    refine ⟨h.1, fun fault hne hy => h.2 fault hne ?_⟩
    exact ((check_set ..).mp hy).resolve_right hne.symm
  refine ⟨hlinked.1, fun fault hne hset => check_after ⟨hset, hlinked.2.imp_right ?_⟩ hpost⟩
  rintro ⟨l, x, next, he, hn, hx⟩
  exact ⟨l, x, next, he, hn, hx.2 fault hne hset⟩

def hotBoard : Power :=
  { switchedOn with outside := { idleSurroundings with temperature := 120 } }

/-- The board is hot in the first round and an interrupt follows: a round later its fault is set. -/
theorem faults_latched_hot_board :
    faultsCheckFault (Loop.after (Loop.after ⟨mainLoop, hotBoard⟩ (List.replicate 5 .advance))
      (.event .currAlert :: List.replicate 20 .advance)).state.faults .boardTemp = true :=
  (faults_latched hotBoard rfl (List.replicate 5 .advance)
    (.event .currAlert :: List.replicate 20 .advance) (by simp [PowerMove.Keeps])
    (by simp [PowerMove.Keeps]) _ rfl).2 .boardTemp (by decide) rfl

/-- The fault of an interrupt is kept in every run from there exactly when the main loop was
not about to store a value loaded before it. -/
theorem alert_recorded_iff (s : Power) (pre : List PowerMove)
    (hpre : ∀ x ∈ pre, PowerMove.Keeps x) (m : Loop) (hm : m = Loop.after ⟨mainLoop, s⟩ pre) :
    (∀ post, (∀ x ∈ post, PowerMove.Keeps x) →
        faultsCheckFault (m.after (.event .currAlert :: post)).state.faults .overcurrent = true) ↔
      ¬ m.Torn := by
  have hlinked : m.Linked (fun _ => True) fun _ _ => True := by
    rw [hm]
    refine linked_after ⟨fun _ _ _ _ => trivial, fun _ _ _ => trivial⟩ (fun _ _ => trivial)
      (fun _ _ _ => trivial) hpre ⟨trivial, Or.inl modifies_main_loop⟩
  constructor
  · rintro h ⟨x, ⟨l, next, he⟩, hx⟩
    have hlost := h [.advance] (by simp [PowerMove.Keeps])
    obtain ⟨rest, t⟩ := m
    subst he
    exact Bool.false_ne_true (hx.symm.trans hlost)
  · intro hnot post hpost
    have halert : Loop.Linked { m with state := PowerEvent.currAlert.happen m.state }
        (faultsCheckFault · .overcurrent = true)
        fun x _ => faultsCheckFault x .overcurrent = true := by
      refine ⟨(check_set ..).mpr (Or.inr rfl), hlinked.2.imp_right ?_⟩
      rintro ⟨l, x, next, he, hn, -⟩
      refine ⟨l, x, next, he, hn, ?_⟩
      by_contra hx
      exact hnot ⟨x, ⟨l, next, he⟩, Bool.eq_false_iff.mpr hx⟩
    change faultsCheckFault
      (Loop.after { m with state := PowerEvent.currAlert.happen m.state } post).state.faults _ = _
    exact check_after halert hpost

/-- An interrupt while the board's temperature is being reported is forgotten. -/
theorem alert_recorded_iff_hot_board :
    ¬ ∀ post, (∀ x ∈ post, PowerMove.Keeps x) →
      faultsCheckFault ((Loop.after ⟨mainLoop, hotBoard⟩ (List.replicate 4 .advance)).after
        (.event .currAlert :: post)).state.faults .overcurrent = true := by
  rw [alert_recorded_iff hotBoard (List.replicate 4 .advance) (by simp [PowerMove.Keeps]) _ rfl,
    not_not]
  exact ⟨0x10, ⟨.elsewhere, _, rfl⟩, rfl⟩

end Runs

end Battman
