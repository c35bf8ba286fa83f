import Battman.PowerCalls

/-! Runs of the main loop, with the true time in ticks beside the counter of 32 bits. -/
namespace Battman
open Interference Prog

section Rounds

def beforePower : PowerM Unit := do
  analogUpdate
  skip
  currentMonitorUpdate
  skip
  skip

def afterPower : PowerM Bool := do
  skip
  skip
  skip
  test .elsewhere (! ·.shutdown)

theorem main_loop_eq : mainLoop = (do beforePower; powerUpdate; afterPower) := by
  simp only [mainLoop, beforePower, afterPower, bind_assoc]

def meanwhile (es : List PowerEvent) (s : Power) : Power := es.foldl (fun s e => e.happen s) s

/-- A round of the main loop: what happens before each of its steps, and what the steps of
power_update see. -/
structure Round where
  before : ℕ → List PowerEvent
  see : ℕ → Sight
  after : ℕ → List PowerEvent

namespace Round

variable (r : Round) (s : Power)

def enter : Power := (beforePower.watch meanwhile r.before s).2.2

def seen : Trace := (powerUpdate.watch sight r.see (r.enter s)).1

def leave : Power := (powerUpdate.watch sight r.see (r.enter s)).2.2

def next : Power := (afterPower.watch meanwhile r.after (r.leave s)).2.2

theorem call_step : CallStep (r.enter s).core (keys (r.seen s)) (r.leave s).core :=
  (steers_power_update (r.enter s) rfl).watch r.see

end Round

structure Own where
  precharged : Bool
  prechargeStartTime : UInt32
  shutdown : Bool
  pchgSw : Bool

def Power.own (s : Power) : Own where
  precharged := s.precharged
  prechargeStartTime := s.prechargeStartTime
  shutdown := s.shutdown
  pchgSw := s.pchgSw

variable {s : Power} {k : Own}

theorem indifferent_own : Indifferent fun s => s.own = k where
  measured _ _ _ _ _ _ h := h
  faults _ _ h := h
  disabled _ h := h
  opened _ h := h

theorem own_happen (e : PowerEvent) (s : Power) : (e.happen s).own = s.own := by
  cases e <;> rfl

theorem own_meanwhile (es : List PowerEvent) (s : Power) : (meanwhile es s).own = s.own := by
  induction es generalizing s with
  | nil => rfl
  | cons e es ih => exact (ih (e.happen s)).trans (own_happen e s)

theorem own_watch {α : Type} {p : PowerM α} (hp : Plain .elsewhere (·.own = s.own) p)
    (es : ℕ → List PowerEvent) : (p.watch meanwhile es s).2.2.own = s.own := by
  have h : Ensures meanwhile p (fun os _ t => (∀ x ∈ os, x.1 = .elsewhere) ∧ t.own = s.own) s :=
    hp.ensures (fun es t ht => (own_meanwhile es t).trans ht) rfl
  exact (h.watch es).2

theorem own_enter (r : Round) (s : Power) : (r.enter s).own = s.own := by
  apply own_watch
  apply (plain_analog_update indifferent_own).bind
  intro _
  apply plain_skip.bind
  intro _
  apply (plain_current_monitor_update indifferent_own).bind
  exact fun _ => plain_skip.bind fun _ => plain_skip

theorem own_next (r : Round) (s : Power) : (r.next s).own = (r.leave s).own := by
  apply own_watch
  exact plain_skip.bind fun _ => plain_skip.bind fun _ => plain_skip.bind fun _ => plain_look ..

end Rounds

/-- The time of the last precharge start of a call, if it has one. -/
def startTicks : Trace → ℕ → ℕ
  | [], d => d
  | x :: os, d => startTicks os (if x.1 = .prechargeStart then x.2.ticks else d)

/-- Rounds one after another, also where main would leave its loop; the ticks do not decrease. -/
structure Run where
  boot : Power
  round : ℕ → Round
  notPrecharged : boot.precharged = false
  within : ∀ n i, ((round n).see i).ticks ≤ ((round n).see (i + 1)).ticks
  across : ∀ n i, ((round n).see i).ticks ≤ ((round (n + 1)).see 0).ticks

namespace Run

variable (run : Run)

def state : ℕ → Power
  | 0 => run.boot
  | n + 1 => (run.round n).next (state n)

def called (n : ℕ) : Power := (run.round n).enter (run.state n)

def calledAt (n : ℕ) : ℕ := ((run.round n).see 0).ticks

def seen (n : ℕ) : Trace := (run.round n).seen (run.state n)

def returned (n : ℕ) : Power := (run.round n).leave (run.state n)

def started : ℕ → ℕ
  | 0 => 0
  | n + 1 => startTicks (run.seen n) (started n)

/-- The ticks from the precharge start, which may be in the call `n`, to what it sees. -/
def elapsed (n : ℕ) (o : Sight) : ℕ := o.ticks - run.started (n + 1)

def ready (n : ℕ) : Core :=
  { (run.called n).core with
    precharged := true, prechargeStartTime := UInt32.ofNat (run.started (n + 1)) }

end Run

section Times

variable {run : Run} {n : ℕ} {c c' : Core} {ks ks' os : Trace} {d : ℕ}

theorem start_ticks_keys (os : Trace) (d : ℕ) : startTicks (keys os) d = startTicks os d := by
  induction os generalizing d with
  | nil => rfl
  | cons x os ih =>
    obtain ⟨l, o⟩ := x
    cases l <;> exact ih _

theorem start_ticks_append : startTicks (ks ++ ks') d = startTicks ks' (startTicks ks d) := by
  induction ks generalizing d with
  | nil => rfl
  | cons x ks ih => exact ih

theorem Started.place_eq (h : Started c ks c') {l : Place} {o : Sight} (ho : (l, o) ∈ ks) :
    l = .prechargeStart := by
  cases h with
  | before hp => exact absurd ho List.not_mem_nil
  | now o' hp => exact (Prod.mk.inj (List.mem_singleton.mp ho)).1

theorem Connected.start_ticks {early : Bool} (h : Connected c ks early c') :
    startTicks ks d = d := by
  cases h with
  | short o hs hv => rfl
  | select o hs hsel => cases hsel <;> rfl

def Timed (c : Core) (d : ℕ) : Prop :=
  c.precharged = true → c.prechargeStartTime = UInt32.ofNat d

theorem Started.timed (h : Started c ks c') (ht : Timed c d) :
    c'.prechargeStartTime = UInt32.ofNat (startTicks ks d) := by
  cases h with
  | before hp => exact ht hp
  | now o hp => rfl

theorem Connected.start_time {early : Bool} (h : Connected c ks early c') :
    c'.prechargeStartTime = c.prechargeStartTime := by
  cases h with
  | short o hs hv => rfl
  | select o hs hsel => cases hsel <;> rfl

theorem CallStep.timed (h : CallStep c ks c') (ht : Timed c d) : Timed c' (startTicks ks d) := by
  intro hp
  cases h with
  | noDischarge shutdown hg hs => exact (Bool.false_ne_true hp).elim
  | early hg hst hc =>
    rw [hc.start_time, hst.timed ht, start_ticks_append, hc.start_ticks]
  | late shutdown hg hst hc hs =>
    rw [start_ticks_append, hc.start_ticks, ← hst.timed ht]
    exact hc.start_time

theorem timed_of_own {s t : Power} (h : s.own = t.own) (ht : Timed t.core d) : Timed s.core d := by
  intro hp
  have hpt : t.precharged = true := (congrArg Own.precharged h).symm.trans hp
  exact (congrArg Own.prechargeStartTime h).trans (ht hpt)

theorem start_ticks_le {b : ℕ} (hos : ∀ x ∈ os, x.2.ticks ≤ b) (hd : d ≤ b) :
    startTicks os d ≤ b := by
  induction os generalizing d with
  | nil => exact hd
  | cons x os ih =>
    apply ih
    · exact fun y hy => hos y (List.mem_cons_of_mem _ hy)
    · split
      · exact hos x List.mem_cons_self
      · exact hd

namespace Run

theorem call (run : Run) (n : ℕ) :
    CallStep (run.called n).core (keys (run.seen n)) (run.returned n).core :=
  (run.round n).call_step (run.state n)

theorem own_called (run : Run) (n : ℕ) : (run.called n).own = (run.state n).own := own_enter ..

theorem own_state (run : Run) (n : ℕ) : (run.state (n + 1)).own = (run.returned n).own :=
  own_next ..

theorem timed (run : Run) (n : ℕ) : Timed (run.called n).core (run.started n) := by
  apply timed_of_own (run.own_called n)
  induction n with
  | zero =>
    intro hp
    exact (Bool.false_ne_true (run.notPrecharged.symm.trans hp)).elim
  | succ n ih =>
    apply timed_of_own (run.own_state n)
    have h := (run.call n).timed (timed_of_own (run.own_called n) ih)
    rw [start_ticks_keys] at h
    exact h

theorem see_mono (run : Run) (n : ℕ) {i j : ℕ} (hij : i ≤ j) :
    ((run.round n).see i).ticks ≤ ((run.round n).see j).ticks :=
  monotone_nat_of_le_succ (run.within n) hij

theorem seen_le {b : ℕ} (h : ∀ i, ((run.round n).see i).ticks ≤ b) :
    ∀ x ∈ run.seen n, x.2.ticks ≤ b :=
  watch_seen (P := fun o : Sight => o.ticks ≤ b) powerUpdate h

theorem le_seen {b : ℕ} (h : ∀ i, b ≤ ((run.round n).see i).ticks) :
    ∀ x ∈ run.seen n, b ≤ x.2.ticks :=
  watch_seen (P := fun o : Sight => b ≤ o.ticks) powerUpdate h

theorem seen_pairwise (run : Run) (n : ℕ) :
    (run.seen n).Pairwise fun x y => x.2.ticks ≤ y.2.ticks :=
  watch_pairwise (P := fun o o' : Sight => o.ticks ≤ o'.ticks) powerUpdate fun _ _ hij =>
    run.see_mono n hij.le

theorem started_le (run : Run) (n : ℕ) : run.started n ≤ run.calledAt n := by
  induction n with
  | zero => exact Nat.zero_le _
  | succ n ih =>
    apply start_ticks_le
    · exact seen_le (run.across n)
    · exact ih.trans (run.across n 0)

theorem started_next {early : Bool} (hks : keys (run.seen n) = ks ++ ks')
    (hc : Connected c ks' early c') : run.started (n + 1) = startTicks ks (run.started n) := by
  rw [started, ← start_ticks_keys, hks, start_ticks_append, hc.start_ticks]

theorem started_le_seen {early : Bool} (hks : keys (run.seen n) = ks ++ ks')
    (hst : Started (run.called n).core ks c) (hc : Connected c ks' early c') :
    ∀ x ∈ ks', run.started (n + 1) ≤ x.2.ticks := by
  intro x hx
  have hmem : x ∈ keys (run.seen n) := hks ▸ List.mem_append_right ks hx
  rw [started_next hks hc]
  cases hst with
  | before hp =>
    apply (run.started_le n).trans
    exact le_seen (fun i => run.see_mono n (Nat.zero_le i)) x (List.mem_of_mem_filter hmem)
  | now o hp =>
    have hsorted : (keys (run.seen n)).Pairwise fun x y => x.2.ticks ≤ y.2.ticks :=
      (run.seen_pairwise n).filter _
    rw [hks] at hsorted
    exact (List.pairwise_cons.mp hsorted).1 x hx

theorem started_ready {early : Bool} (hks : keys (run.seen n) = ks ++ ks')
    (hst : Started (run.called n).core ks c) (hc : Connected c ks' early c') : c = run.ready n := by
  have htime := hst.timed (run.timed n)
  rw [← started_next hks hc] at htime
  have hp := hst.precharged
  cases hst with
  | before _ => rw [ready, ← htime, ← hp]
  | now o _ => exact congrArg (fun t => { (run.called n).core with
      precharged := true, prechargeStartTime := t }) htime

/-- What a call with a found guard does once the precharge has started, with the time that has
passed in truth. -/
structure Connects (run : Run) (n : ℕ) (os : Trace) (early : Bool) (c : Core) : Prop where
  connected : Connected (run.ready n) os early c
  mem : ∀ l o, l ∈ [Place.settleTest, .timeoutTest, .mainSwitch] →
    ((l, o) ∈ run.seen n ↔ (l, o) ∈ os)
  elapsed : ∀ l o, (l, o) ∈ os →
    (run.ready n).elapsedMs o = st2ms (UInt32.ofNat (run.elapsed n o))

theorem connects {early : Bool} (hks : keys (run.seen n) = ks ++ ks')
    (hst : Started (run.called n).core ks c) (hc : Connected c ks' early c') :
    run.Connects n ks' early c' := by
  obtain rfl := started_ready hks hst hc
  constructor
  · exact hc
  · intro l o hl
    have hkeys : (l, o) ∈ keys (run.seen n) ↔ (l, o) ∈ run.seen n :=
      mem_keys (List.mem_cons_of_mem _ hl)
    rw [← hkeys, hks, List.mem_append]
    apply or_iff_right
    intro hmem
    obtain rfl := hst.place_eq hmem
    simp at hl
  · intro l o ho
    have hle := started_le_seen hks hst hc _ ho
    rw [Core.elapsedMs, ready, elapsed, UInt32.ofNat_sub hle]
    rfl

inductive Outcome (run : Run) (n : ℕ) : Prop
  | noDischarge (shutdown : Bool) (hg : ¬ (run.called n).core.Guard)
      (hk : keys (run.seen n) = [])
      (hr : (run.returned n).core =
        { (run.called n).core.opened with precharged := false }.ending shutdown)
  | early (os : Trace) (c : Core) (hg : (run.called n).core.Guard)
      (h : run.Connects n os true c) (hr : (run.returned n).core = c)
  | late (os : Trace) (c : Core) (shutdown : Bool) (hg : (run.called n).core.Guard)
      (h : run.Connects n os false c) (hr : (run.returned n).core = c.ending shutdown)

theorem outcome (run : Run) (n : ℕ) : run.Outcome n := by
  have h := run.call n
  generalize hr : (run.returned n).core = r at h
  generalize hk : keys (run.seen n) = k at h
  cases h with
  | noDischarge shutdown hg hs => exact Outcome.noDischarge shutdown hg hk hr
  | early hg hst hc => exact Outcome.early _ _ hg (connects hk hst hc) hr
  | late shutdown hg hst hc hs => exact Outcome.late _ _ shutdown hg (connects hk hst hc) hr

end Run

/-- What ST2MS makes of a number of ticks: it starts again at 0 when the product leaves 32
bits. -/
def msOf (ticks : ℕ) : ℕ := (1000 * ticks + 9999) % 2 ^ 32 / 10000

theorem st2ms_toNat (ticks : ℕ) : (st2ms (UInt32.ofNat ticks)).toNat = msOf ticks := by
  simp only [st2ms, msOf, UInt32.toNat_div, UInt32.toNat_add, UInt32.toNat_mul,
    UInt32.toNat_ofNat', UInt32.reduceToNat]
  omega

namespace Run.Connects

variable {early : Bool} {l : Place} {o : Sight}

theorem lt_elapsed (h : run.Connects n os early c) (ho : (l, o) ∈ os) (k : UInt32) :
    k < (run.ready n).elapsedMs o ↔ k.toNat < msOf (run.elapsed n o) := by
  rw [h.elapsed l o ho, UInt32.lt_iff_toNat_lt, st2ms_toNat]

theorem elapsed_le (h : run.Connects n os early c) (ho : (l, o) ∈ os) (k : UInt32) :
    (run.ready n).elapsedMs o ≤ k ↔ msOf (run.elapsed n o) ≤ k.toNat := by
  rw [h.elapsed l o ho, UInt32.le_iff_toNat_le, st2ms_toNat]

end Run.Connects

end Times

def Power.boot (powerOnEvent : PowerOnEvent) (outside : Surroundings) : Power where
  dischargeEnabled := powerOnEvent = .switch
  precharged := false
  prechargeStartTime := 0
  powerOnEvent := powerOnEvent
  powerButtonReleased := false
  shutdownStarted := false
  shutdown := false
  shutdownStartTime := 0
  faults := 0
  chargerInputVoltage := 0
  dischargeVoltage := 0
  thermistor := 0
  current := 0
  voltage := 0
  dsgSw := false
  pchgSw := false
  pwrSw := powerOnEvent ≠ .usb
  outside := outside

/-- No button, alert, charger or USB, at these voltages. -/
def Surroundings.quiet (config : Config) (dischargeSense busVoltage : ℚ) : Surroundings where
  systemTime := 0
  chargerInput := 0
  dischargeSense := dischargeSense
  temperature := 25
  shuntCurrent := 0
  busVoltage := busVoltage
  pwrBtn := true
  currAlert := true
  usbDetect := false
  config := config

/-- After power on by `powerOnEvent` the round `n` begins with `events n`, and what is seen
changes only from round to round. -/
def Run.still (powerOnEvent : PowerOnEvent) (events : ℕ → List PowerEvent) (board : ℕ → Sight)
    (h : ∀ n, (board n).ticks ≤ (board (n + 1)).ticks) : Run where
  boot := .boot powerOnEvent (board 0).outside
  round n :=
    { before := fun i => if i = 0 then .surroundings (board n).outside :: events n else []
      see := fun _ => board n
      after := fun _ => [] }
  notPrecharged := rfl
  within _ _ := le_refl _
  across n _ := h n

end Battman
