import Battman.SharedBus

/-! The I2C bus between the main loop and the thread that processes the packets of the host,
which have one priority and no time slices. A call of i2cMasterTransmitTimeout is a transfer,
i2cAcquireBus and i2cReleaseBus take and give back the lock. -/
namespace Battman.I2c
open SharedBus

inductive Thread where
  | main
  | serialProcess
  deriving DecidableEq, Repr

instance fintypeThread : Fintype Thread where
  elems := {.main, .serialProcess}
  complete t := by cases t <;> decide

inductive Site where
  | currentMonitorUpdate
  | setVoltage
  | rtccEnableAlarm
  | rtccUpdate
  | currentMonitorSetOvercurrent
  deriving DecidableEq, Repr

def Site.code (site : Site) : List (Action Site) :=
  match site with
  | .currentMonitorUpdate => [.acquire, .transfer site, .transfer site, .release]
  | .setVoltage => [.acquire, .transfer site, .release]
  | .rtccEnableAlarm => [.transfer site, .transfer site]
  | .rtccUpdate => .acquire :: List.replicate 6 (.transfer site) ++ [.release]
  | .currentMonitorSetOvercurrent => [.acquire, .transfer site, .release]

/-- A round of the main loop: whether charger_update comes to set_voltage and power_update to
rtcc_enable_alarm is up to what they read. The latter shuts down, and main leaves its loop. -/
def mainLoop (charging shutdown : Bool) : List (Action Site) :=
  .block ::                                   -- the converters of analog.c and ltc6803.c
    (Site.currentMonitorUpdate.code ++
    (if charging then Site.setVoltage.code else []) ++
    (if shutdown then Site.rtccEnableAlarm.code else []) ++
    Site.rtccUpdate.code ++
    if shutdown then [.stop] else [])

def serialProcessThread (code : List (Action Site)) : Prop :=
  code = Site.currentMonitorSetOvercurrent.code ∨ code = [.block]

def program : Thread → List (Action Site) → Prop
  | .main, code => ∃ charging shutdown, code = mainLoop charging shutdown
  | .serialProcess, code => serialProcessThread code

def start : State Thread Site where
  running := some .main
  owner := none
  code _ := []
  status
    | .main => .ready
    | .serialProcess => .asleep

/-- No transfer of rtcc_enable_alarm begins while the other thread has the bus for
current_monitor_set_overcurrent, and that one's does not begin during one of those. -/
def AlarmApart (s : State Thread Site) : SharedBus.Event Thread Site → Prop
  | .transfer .main .rtccEnableAlarm => s.owner ≠ some .serialProcess
  | .transfer .serialProcess .currentMonitorSetOvercurrent =>
    s.status .main ≠ .transferring .rtccEnableAlarm
  | _ => True

instance decidableProgram (t : Thread) (code : List (Action Site)) : Decidable (program t code) :=
  match t with
  | .main => inferInstanceAs (Decidable (∃ _ _, _))
  | .serialProcess => inferInstanceAs (Decidable (_ ∨ _))

/-- The one site that makes transfers without the lock. -/
def Free (site : Site) : Prop := site = .rtccEnableAlarm

def Site.Of (site : Site) : Thread → Prop
  | .main => site ≠ .currentMonitorSetOvercurrent
  | .serialProcess => site = .currentMonitorSetOvercurrent

theorem discipline : Discipline program Free fun t site => site.Of t := by
  constructor
  · intro t code h
    cases t with
    | main =>
      obtain ⟨charging, shutdown, rfl⟩ := h
      cases charging <;> cases shutdown <;>
        simp [mainLoop, Site.code, Bracketed, Free, List.replicate]
    | serialProcess =>
      rcases h with rfl | rfl <;> simp [Site.code, Bracketed, Free]
  · intro t code h i hi
    cases t with
    | main =>
      obtain ⟨charging, shutdown, rfl⟩ := h
      rintro rfl
      cases charging <;> cases shutdown <;> revert hi <;> decide
    | serialProcess =>
      rcases h with rfl | rfl <;> simp_all [Site.code, Site.Of]

theorem start_invariant : SharedBus.Invariant Free (fun t site => site.Of t) start := by
  intro t
  cases t with
  | main => exact fits_ready rfl nofun
  | serialProcess => exact ⟨rfl, nofun, nofun, nofun⟩

theorem clear_iff_alarm_apart {s : State Thread Site} {e : SharedBus.Event Thread Site}
    (h : SharedBus.Invariant Free (fun t site => site.Of t) s) (he : Enabled program s e) :
    SharedBus.Clear Free s e ↔ AlarmApart s e := by
  cases e with
  | transfer t i =>
    have hsite : i.Of t := (h.at he).sites i (Or.inl List.mem_cons_self)
    cases t with
    | main =>
      have hother (j : Site) (hj : s.status .serialProcess = .transferring j) : ¬ Free j := by
        have hof : j.Of .serialProcess := (h .serialProcess).sites j (Or.inr hj)
        rintro rfl
        cases hof
      by_cases hi : i = .rtccEnableAlarm
      · subst hi
        constructor
        · exact fun hc => (hc .serialProcess (by decide)).1 rfl
        · intro hap u hu
          cases u with
          | main => exact absurd rfl hu
          | serialProcess => exact ⟨fun _ => hap, hother⟩
      · have htrivial : AlarmApart s (.transfer .main i) := by
          cases i <;> trivial
        apply iff_of_true _ htrivial
        intro u hu
        cases u with
        | main => exact absurd rfl hu
        | serialProcess => exact ⟨fun hf => absurd hf hi, hother⟩
    | serialProcess =>
      obtain rfl : i = .currentMonitorSetOvercurrent := hsite
      constructor
      · exact fun hc hs => (hc .main (by decide)).2 _ hs rfl
      · intro hap u hu
        cases u with
        | main =>
          refine ⟨nofun, fun j hj hf => hap ?_⟩
          rw [hj, show j = .rtccEnableAlarm from hf]
        | serialProcess => exact absurd rfl hu
  | _ => exact Iff.rfl

/-- In every schedule no transfer begins while the other thread has the bus or is in a transfer,
if and only if the two functions that can meet, rtcc_enable_alarm and
current_monitor_set_overcurrent, stay apart. -/
theorem i2c_bus_exclusive_iff (σ : Schedule program start) :
    Always Exclusive start σ.events ↔ Always AlarmApart start σ.events := by
  apply always_iff discipline start_invariant σ.legal
  intro s e h he
  exact (exclusive_iff_clear h he).trans (clear_iff_alarm_apart h he)

/-- The host sets maxCurrentCutoff while the main loop, in the round of the shutdown, is in
current_monitor_update; its thread gets the bus there. -/
def cutoffDuringShutdown : List (SharedBus.Event Thread Site) :=
  [.proceed .main (mainLoop false true), .block .main, .wake .main, .dispatch .main,
    .acquire .main, .transfer .main .currentMonitorUpdate,
    .wake .serialProcess, .dispatch .serialProcess,
    .proceed .serialProcess Site.currentMonitorSetOvercurrent.code, .wait .serialProcess,
    .wake .main, .dispatch .main, .transfer .main .currentMonitorUpdate,
    .wake .main, .dispatch .main, .release .main (some .serialProcess),
    .transfer .main .rtccEnableAlarm]

theorem alarm_set_on_owned_bus :
    ¬ ∀ σ : Schedule program start, Always Exclusive start σ.events := by
  intro h
  have hlegal : Always (Enabled program) start cutoffDuringShutdown := by decide
  have hshared : ¬ Always Exclusive start cutoffDuringShutdown := by decide
  exact hshared (h ⟨cutoffDuringShutdown, hlegal⟩)

end Battman.I2c
