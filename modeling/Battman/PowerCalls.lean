import Battman.Overcurrent

/-! One call of power_update in which only the surroundings move: what it sees where it
matters, and what it makes of the variables that the switches depend on. -/
namespace Battman
open Interference Prog

/-- What a step sees of the surroundings, this many ticks after the counter was zero. -/
structure Sight where
  ticks : ℕ
  outside : Surroundings

def Sight.systemTime (o : Sight) : UInt32 := UInt32.ofNat o.ticks

def Sight.prechargeTimeout (o : Sight) : UInt16 := o.outside.config .prechargeTimeout

def sight (o : Sight) (s : Power) : Power :=
  { s with outside := { o.outside with systemTime := o.systemTime } }

abbrev Trace := List (Place × Sight)

def keys (os : Trace) : Trace :=
  os.filter fun x => x.1 ∈ [Place.prechargeStart, .settleTest, .timeoutTest, .mainSwitch]

/-- The variables and pins that the switches depend on. -/
structure Core where
  dischargeEnabled : Bool
  precharged : Bool
  prechargeStartTime : UInt32
  faults : UInt8
  dischargeVoltage : ℚ
  voltage : ℚ
  dsgSw : Bool
  pchgSw : Bool
  shutdown : Bool

def Power.core (s : Power) : Core where
  dischargeEnabled := s.dischargeEnabled
  precharged := s.precharged
  prechargeStartTime := s.prechargeStartTime
  faults := s.faults
  dischargeVoltage := s.dischargeVoltage
  voltage := s.voltage
  dsgSw := s.dsgSw
  pchgSw := s.pchgSw
  shutdown := s.shutdown

namespace Core

variable (c : Core)

def Guard : Prop := c.dischargeEnabled = true ∧ c.faults = 0

instance instDecidableGuard : Decidable c.Guard := inferInstanceAs (Decidable (_ ∧ _))

def elapsedMs (o : Sight) : UInt32 := st2ms (o.systemTime - c.prechargeStartTime)

def opened : Core := { c with dsgSw := false, pchgSw := false }

def switched : Core := { c with dsgSw := true, pchgSw := false }

def precharging : Core := { c with dsgSw := false, pchgSw := true }

def withFault (fault : Fault) : Core := { c with faults := c.faults ||| fault.bit }

def ending (shutdown : Bool) : Core := { c with dsgSw := c.dsgSw && !shutdown, shutdown }

end Core

inductive Started (c : Core) : Trace → Core → Prop
  | before (hp : c.precharged = true) : Started c [] c
  | now (o : Sight) (hp : c.precharged = false) :
      Started c [(.prechargeStart, o)]
        { c with prechargeStartTime := o.systemTime, precharged := true }

inductive Selected (c : Core) : Trace → Core → Prop
  | voltage (o : Sight) (hv : c.voltage - 5 ≤ c.dischargeVoltage) :
      Selected c [(.mainSwitch, o)] c.switched
  | timeout (o o' : Sight) (hv : c.dischargeVoltage < c.voltage - 5)
      (ht : o.prechargeTimeout.toUInt32 < c.elapsedMs o) :
      Selected c [(.timeoutTest, o), (.mainSwitch, o')] c.switched
  | precharge (o : Sight) (hv : c.dischargeVoltage < c.voltage - 5)
      (ht : c.elapsedMs o ≤ o.prechargeTimeout.toUInt32) :
      Selected c [(.timeoutTest, o)] c.precharging

/-- connect, and whether power_update returns there. -/
inductive Connected (c : Core) : Trace → Bool → Core → Prop
  | short (o : Sight) (hs : 8 < c.elapsedMs o) (hv : c.dischargeVoltage < 1 / 2) :
      Connected c [(.settleTest, o)] true (c.opened.withFault .turnOnShort)
  | select {os : Trace} {c' : Core} (o : Sight)
      (hs : 8 < c.elapsedMs o → 1 / 2 ≤ c.dischargeVoltage) (h : Selected c os c') :
      Connected c ((.settleTest, o) :: os) false c'

inductive CallStep (c : Core) : Trace → Core → Prop
  | noDischarge (shutdown : Bool) (hg : ¬ c.Guard) (hs : c.shutdown = true → shutdown = true) :
      CallStep c [] ({ c.opened with precharged := false }.ending shutdown)
  | early {os os' : Trace} {c₁ c₂ : Core} (hg : c.Guard) (hp : Started c os c₁)
      (h : Connected c₁ os' true c₂) : CallStep c (os ++ os') c₂
  | late {os os' : Trace} {c₁ c₂ : Core} (shutdown : Bool) (hg : c.Guard)
      (hp : Started c os c₁) (h : Connected c₁ os' false c₂)
      (hs : c.shutdown = true → shutdown = true) :
      CallStep c (os ++ os') (c₂.ending shutdown)

/-- From every state with this core, what the program sees where it matters, its result and
the core that it leaves. -/
def Steers {α : Type} (p : PowerM α) (c : Core) (Q : Trace → α → Core → Prop) : Prop :=
  ∀ s : Power, s.core = c → Ensures sight p (fun os a t => Q (keys os) a t.core) s

section Steering

variable {α β : Type} {c : Core} {l : Place} {p : PowerM α} {f : α → PowerM β} {os os' : Trace}
  {Q Q' : Trace → α → Core → Prop} {R : Trace → β → Core → Prop}

theorem keys_append : keys (os ++ os') = keys os ++ keys os' := List.filter_append ..

theorem mem_keys {o : Sight}
    (hl : l ∈ [Place.prechargeStart, .settleTest, .timeoutTest, .mainSwitch]) :
    (l, o) ∈ keys os ↔ (l, o) ∈ os := by
  rw [keys, List.mem_filter, decide_eq_true hl]
  exact and_iff_left rfl

theorem keys_plain (h : ∀ x ∈ os, x.1 = .elsewhere) : keys os = [] := by
  apply List.filter_eq_nil_iff.mpr
  intro x hx
  rw [h x hx]
  decide

theorem Steers.mono (h : Steers p c Q) (hQ : ∀ ks a c', Q ks a c' → Q' ks a c') :
    Steers p c Q' :=
  fun s hs => (h s hs).mono fun os a t => hQ (keys os) a t.core

theorem Steers.bind (hp : Steers p c Q)
    (hf : ∀ ks a c', Q ks a c' → Steers (f a) c' fun ks' => R (ks ++ ks')) :
    Steers (p >>= f) c R := by
  intro s hs
  apply (hp s hs).bind
  intro os a t h
  apply (hf _ a _ h t rfl).mono
  intro os' b u hu
  rw [keys_append]
  exact hu

theorem steers_done {a : α} (h : Q [] a c) : Steers (.done a) c Q := by
  intro s hs
  subst hs
  exact ensures_done h

theorem steers_test {g : Power → Bool} {f : Bool → PowerM β} (b : Sight → Bool)
    (hg : ∀ s o, s.core = c → g (sight o s) = b o)
    (h : ∀ o, Steers (f (b o)) c fun ks => R (keys [(l, o)] ++ ks)) :
    Steers (test l g >>= f) c R := by
  intro s hs o
  have hf : Ensures sight (f (g (sight o s)))
      (fun os b t => R (keys [(l, o)] ++ keys os) b t.core) (sight o s) := by
    rw [hg s o hs]
    exact h o _ hs
  simp only [← keys_append] at hf
  exact hf

/-- A test of something else, of whose result `P` is known. -/
theorem steers_plain_test {g : Power → Bool} {f : Bool → PowerM β} {P : Bool → Prop}
    (hg : ∀ s : Power, s.core = c → P (g s)) (h : ∀ b, P b → Steers (f b) c R) :
    Steers (test .elsewhere g >>= f) c R :=
  fun s hs o => h _ (hg (sight o s) hs) (sight o s) hs

theorem steers_plain_act {g : Power → Power} (d : Core → Core)
    (hd : ∀ s : Power, (g s).core = d s.core) :
    Steers (act .elsewhere g) c fun ks _ c' => ks = [] ∧ c' = d c := by
  rintro s rfl o
  exact ⟨rfl, hd (sight o s)⟩

theorem steers_plain (h : Plain .elsewhere (·.core = c) p) :
    Steers p c fun ks _ c' => ks = [] ∧ c' = c := by
  intro s hs
  have hp : Ensures sight p (fun os _ t => (∀ x ∈ os, x.1 = .elsewhere) ∧ t.core = c) s :=
    h.ensures (fun _ _ ht => ht) hs
  exact hp.mono fun _ _ _ ht => ⟨keys_plain ht.1, ht.2⟩

end Steering

section Calls

variable {c c' : Core}

theorem steers_start_precharge : Steers startPrecharge c fun ks _ => Started c ks := by
  apply steers_test fun _ => !c.precharged
  · rintro s o rfl
    rfl
  intro o
  cases hp : c.precharged with
  | true => exact steers_done (Started.before hp)
  | false =>
    rintro s rfl o₁ o₂
    exact Started.now o₁ hp

theorem Started.precharged {ks : Trace} (h : Started c ks c') : c'.precharged = true := by
  cases h with
  | before hp => exact hp
  | now o hp => rfl

theorem steers_turn_on_short : Steers turnOnShort c fun ks found c' =>
    c' = c ∧ ∃ o, ks = [(.settleTest, o)] ∧
      found = decide (8 < c.elapsedMs o ∧ c.dischargeVoltage < 1 / 2) := by
  apply steers_test fun o => decide (8 < c.elapsedMs o)
  · rintro s o rfl
    rfl
  intro o
  by_cases hs : 8 < c.elapsedMs o
  · rw [decide_eq_true hs]
    rintro s rfl o'
    refine ⟨rfl, o, rfl, ?_⟩
    simp only [hs, true_and]
    rfl
  · rw [decide_eq_false hs]
    apply steers_done
    exact ⟨rfl, o, rfl, by simp [hs]⟩

theorem steers_switch_on : Steers switchOn c fun ks _ c' =>
    c' = c.switched ∧ ∃ o, ks = [(.mainSwitch, o)] := by
  rintro s rfl o o'
  exact ⟨rfl, o, rfl⟩

theorem steers_switches_off : Steers switchesOff c fun ks _ c' => ks = [] ∧ c' = c.opened := by
  rintro s rfl o o'
  exact ⟨rfl, rfl⟩

theorem steers_switch_precharge :
    Steers switchPrecharge c fun ks _ c' => ks = [] ∧ c' = c.precharging := by
  rintro s rfl o o'
  exact ⟨rfl, rfl⟩

theorem steers_set_fault (fault : Fault) :
    Steers (faultsSetFault fault) c fun ks _ c' => ks = [] ∧ c' = c.withFault fault := by
  rintro s rfl o o'
  exact ⟨rfl, rfl⟩

theorem steers_select_switch : Steers selectSwitch c fun ks _ => Selected c ks := by
  rw [selectSwitch, prechargeOver, bind_assoc]
  apply steers_test fun _ => decide (c.voltage - 5 ≤ c.dischargeVoltage)
  · rintro s o rfl
    rfl
  intro o
  by_cases hv : c.voltage - 5 ≤ c.dischargeVoltage
  · rw [decide_eq_true hv]
    apply steers_switch_on.mono
    rintro _ _ _ ⟨rfl, o', rfl⟩
    exact Selected.voltage o' hv
  rw [decide_eq_false hv]
  apply steers_test fun o => decide (o.prechargeTimeout.toUInt32 < c.elapsedMs o)
  · rintro s o rfl
    rfl
  intro o
  by_cases ht : o.prechargeTimeout.toUInt32 < c.elapsedMs o
  · rw [decide_eq_true ht]
    apply steers_switch_on.mono
    rintro _ _ _ ⟨rfl, o', rfl⟩
    exact Selected.timeout o o' (not_le.mp hv) ht
  · rw [decide_eq_false ht]
    apply steers_switch_precharge.mono
    rintro _ _ _ ⟨rfl, rfl⟩
    exact Selected.precharge o (not_le.mp hv) (UInt32.not_lt.mp ht)

theorem steers_connect : Steers connect c fun ks early => Connected c ks early := by
  apply steers_turn_on_short.bind
  rintro _ _ c ⟨rfl, o, rfl, rfl⟩
  by_cases hshort : 8 < c.elapsedMs o ∧ c.dischargeVoltage < 1 / 2
  · rw [decide_eq_true hshort]
    apply steers_switches_off.bind
    rintro _ _ _ ⟨rfl, rfl⟩
    apply (steers_set_fault .turnOnShort).bind
    rintro _ _ _ ⟨rfl, rfl⟩
    exact steers_done (Connected.short o hshort.1 hshort.2)
  · rw [decide_eq_false hshort]
    apply steers_select_switch.bind
    intro ks _ c' hsel
    apply steers_done
    rw [List.append_nil]
    exact Connected.select o (fun hs => not_lt.mp fun hv => hshort ⟨hs, hv⟩) hsel

theorem steers_discharge : Steers discharge c fun ks early c' =>
    ∃ ks₁ ks₂ c₁, ks = ks₁ ++ ks₂ ∧ Started c ks₁ c₁ ∧ Connected c₁ ks₂ early c' := by
  apply steers_start_precharge.bind
  intro ks₁ _ c₁ hp
  apply steers_test fun _ => true
  · rintro s o rfl
    exact hp.precharged
  intro o
  apply steers_connect.mono
  intro ks₂ early c' hc
  exact ⟨ks₁, ks₂, c₁, rfl, hp, hc⟩

theorem steers_no_discharge : Steers noDischarge c fun ks _ c' =>
    ks = [] ∧ c' = { c.opened with precharged := false } := by
  rintro s rfl o o' o''
  exact ⟨rfl, rfl⟩

theorem unnoted_core : Unnoted (·.core = c) := fun _ _ _ _ _ h => h

theorem steers_guard : Steers dischargeGuard c fun ks found c' =>
    ks = [] ∧ c' = c ∧ found = decide c.Guard := by
  apply steers_test fun _ => c.dischargeEnabled
  · rintro s o rfl
    rfl
  intro o
  cases he : c.dischargeEnabled with
  | false =>
    apply steers_done
    refine ⟨rfl, rfl, (decide_eq_false fun h => ?_).symm⟩
    exact Bool.false_ne_true (he.symm.trans h.1)
  | true =>
    rintro s rfl o'
    refine ⟨rfl, rfl, ?_⟩
    exact decide_eq_decide.mpr ⟨fun h => ⟨he, h⟩, fun h => h.2⟩

theorem steers_power_down :
    Steers powerDown c fun ks _ c' => ks = [] ∧ c' = { c with dsgSw := false } := by
  rintro s rfl o o' o''
  exact ⟨rfl, rfl⟩

theorem ending_true (c : Core) : c.ending true = { c with dsgSw := false, shutdown := true } := by
  rw [Core.ending, Bool.not_true, Bool.and_false]

theorem ending_false (c : Core) : c.ending false = { c with shutdown := false } := by
  rw [Core.ending, Bool.not_false, Bool.and_true]

/-- Shutdown is only taken back where it has not been found. -/
theorem steers_shutdown_update : Steers shutdownUpdate c fun ks _ c' =>
    ks = [] ∧ ∃ shutdown, (c.shutdown = true → shutdown = true) ∧ c' = c.ending shutdown := by
  apply (steers_plain (plain_note_button unnoted_core)).bind
  rintro _ _ c ⟨rfl, rfl⟩
  apply steers_plain_test (P := fun b => c.shutdown = true → b = true)
  · rintro s rfl hs
    exact decide_eq_true (Or.inl hs)
  intro b hb
  cases b with
  | true =>
    apply (steers_plain_act (fun c => { c with shutdown := true }) fun _ => rfl).bind
    rintro _ _ _ ⟨rfl, rfl⟩
    apply steers_power_down.mono
    rintro _ _ _ ⟨rfl, rfl⟩
    exact ⟨rfl, true, fun _ => rfl, (ending_true c).symm⟩
  | false =>
    have hs : c.shutdown = false := Bool.eq_false_iff.mpr fun h => Bool.false_ne_true (hb h)
    have hno : c.shutdown = true → false = true := fun h => hs.symm.trans h
    apply steers_plain_test (P := fun _ => True) (fun _ _ => trivial)
    intro b _
    cases b with
    | true =>
      apply (steers_plain (plain_start_shutdown unnoted_core)).bind
      rintro _ _ c ⟨rfl, rfl⟩
      apply steers_plain_test (P := fun _ => True) (fun _ _ => trivial)
      intro b _
      cases b with
      | true =>
        apply steers_power_down.bind
        rintro _ _ _ ⟨rfl, rfl⟩
        apply (steers_plain_act (fun c => { c with shutdown := true }) fun _ => rfl).mono
        rintro _ _ _ ⟨rfl, rfl⟩
        exact ⟨rfl, true, fun _ => rfl, (ending_true c).symm⟩
      | false =>
        apply steers_done
        refine ⟨rfl, false, hno, ?_⟩
        rw [ending_false, ← hs]
    | false =>
      apply (steers_plain_act (fun c => { c with shutdown := false }) fun _ => rfl).bind
      rintro _ _ _ ⟨rfl, rfl⟩
      refine Steers.mono (steers_plain_act id ?_) ?_
      · exact fun _ => rfl
      rintro _ _ _ ⟨rfl, rfl⟩
      exact ⟨rfl, false, hno, (ending_false c).symm⟩

theorem Connected.shutdown {ks ks' : Trace} {early : Bool} {c₁ : Core} (hp : Started c ks c₁)
    (h : Connected c₁ ks' early c') : c'.shutdown = c.shutdown := by
  have hc : c₁.shutdown = c.shutdown := by cases hp <;> rfl
  cases h with
  | short o hs hv => exact hc
  | select o hs hsel => cases hsel <;> exact hc

theorem steers_power_update : Steers powerUpdate c fun ks _ => CallStep c ks := by
  apply (steers_plain (plain_hold_power unnoted_core)).bind
  rintro _ _ c ⟨rfl, rfl⟩
  apply steers_guard.bind
  rintro _ _ c ⟨rfl, rfl, rfl⟩
  by_cases hg : c.Guard
  · rw [decide_eq_true hg]
    apply steers_discharge.bind
    rintro _ early c' ⟨ks, ks', c₁, rfl, hp, hc⟩
    cases early with
    | true =>
      apply steers_done
      simp only [List.nil_append, List.append_nil]
      exact CallStep.early hg hp hc
    | false =>
      apply steers_shutdown_update.mono
      rintro _ _ _ ⟨rfl, shutdown, hs, rfl⟩
      simp only [List.nil_append, List.append_nil]
      exact CallStep.late shutdown hg hp hc (hc.shutdown hp ▸ hs)
  · rw [decide_eq_false hg]
    apply steers_no_discharge.bind
    rintro _ _ _ ⟨rfl, rfl⟩
    apply steers_shutdown_update.mono
    rintro _ _ _ ⟨rfl, shutdown, hs, rfl⟩
    exact CallStep.noDischarge shutdown hg hs

end Calls

end Battman
