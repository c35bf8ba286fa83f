import Battman.BalanceSet
import Battman.CellMonitor

/-! From the charger and the drain commands to the switches of the monitor: whatever is done to
the discharge bits and whenever ltc6803_update runs, the monitor discharges the set of cells
that the bits stood for at the last update. -/
namespace Battman
open BitSerial

inductive DrainStep where
  | op (op : BalanceOp)
  | update (now started : UInt32)

/-- The bits and the readings of the driver, and the wires to the monitor. -/
structure DrainRun (τ : Type) where
  balancer : Balancer
  readings : Readings
  wires : Wires (Shifting τ)

def Ltc6803.regBytes (l : Ltc6803) (i : ℕ) : UInt8 := if h : i < 6 then l.configReg ⟨i, h⟩ else 0

variable {τ : Type}

def DrainRun.step (C : ByteChip τ) (x : DrainRun τ) : DrainStep → DrainRun τ
  | .op op => { x with balancer := x.balancer.apply op }
  | .update now started =>
    let next := ltc6803Update (softPort C.serial) ⟨now, started, x.balancer.ltc.regBytes⟩
      x.readings x.wires
    { x with readings := next.1, wires := next.2 }

def drainedBy (config : List UInt8) : Finset ℕ :=
  (Finset.Icc 1 12).filter fun cell =>
    if cell ≤ 8 then (config.getD 1 0).toBitVec.getLsbD (cell - 1) = true
    else (config.getD 2 0).toBitVec.getLsbD (cell - 9) = true

/-- The set that the bits stand for, and the one that the monitor was told last. -/
structure Drained where
  bits : BalanceSet
  told : Finset ℕ

def Drained.step (d : Drained) : DrainStep → Drained
  | .op op => { d with bits := d.bits.apply op }
  | .update _ _ => { d with told := d.bits.cells }

variable {C : ByteChip τ} {config : τ → List UInt8} {conversions : τ → ℕ}
  {samples : ℕ → ℕ → BitVec 12} {x : DrainRun τ} {d : Drained}

structure DrainRun.Shows (config : τ → List UInt8) (x : DrainRun τ) (d : Drained) : Prop where
  mirrors : Mirrors x.balancer d.bits
  sck : x.wires.sck = true
  got : x.wires.far.got = []
  told : drainedBy (config x.wires.far.state) = d.told

theorem told_discharge_set {bytes : List UInt8} {l : Ltc6803}
    (h : bytes = (List.range 6).map l.regBytes) : drainedBy bytes = l.dischargeSet := by
  have hlow : bytes.getD 1 0 = l.configReg 1 := by rw [h]; rfl
  have hhigh : bytes.getD 2 0 = l.configReg 2 := by rw [h]; rfl
  rw [drainedBy, Ltc6803.dischargeSet, hlow, hhigh]
  apply Finset.filter_congr
  intro cell _
  rw [Ltc6803.discharging]
  split_ifs
  · rfl
  · rfl

theorem update_tells (h : MonitorSpec C config conversions samples) (c : UpdateCall) (r : Readings)
    {w : Wires (Shifting τ)} (hsck : w.sck = true) (hgot : w.far.got = []) :
    let next := (ltc6803Update (softPort C.serial) c r w).2
    next.sck = true ∧ next.far.got = [] ∧
      config next.far.state = (List.range 6).map c.configReg := by
  obtain ⟨-, hhigh, hchip, hempty⟩ := alike_update (soft_port_alike C) c r w w.far.state
    ⟨hsck, rfl, hgot⟩
  rw [update_chip] at hchip
  have hconfig := (in_frames_monitor h c r w.far.state).1
  rw [← hchip] at hconfig
  exact ⟨hhigh, hempty, hconfig⟩

theorem shows_step (hm : MonitorSpec C config conversions samples) (h : x.Shows config d)
    (s : DrainStep) : (x.step C s).Shows config (d.step s) := by
  cases s with
  | op op => exact ⟨h.mirrors.apply op, h.sck, h.got, h.told⟩
  | update now started =>
    have htells := update_tells hm ⟨now, started, x.balancer.ltc.regBytes⟩ x.readings h.sck h.got
    have hnext (next : Readings × Wires (Shifting τ))
        (hw : next.2.sck = true ∧ next.2.far.got = [] ∧
          config next.2.far.state = (List.range 6).map x.balancer.ltc.regBytes) :
        DrainRun.Shows config ⟨x.balancer, next.1, next.2⟩ (d.step (.update now started)) :=
      ⟨h.mirrors, hw.1, hw.2.1, (told_discharge_set hw.2.2).trans h.mirrors.cells⟩
    exact hnext _ htells

/-- The monitor discharges the cells of the set at the last update, in every run of operations
and updates. -/
theorem monitor_discharges_set (C : ByteChip τ) (config : τ → List UInt8) (conversions : τ → ℕ)
    (samples : ℕ → ℕ → BitVec 12) (hm : MonitorSpec C config conversions samples) (numCells : ℕ)
    (hn : numCells ≤ 12) (r : Readings) (t : τ) (mosi : Bool) (pending : List Bool)
    (steps : List DrainStep) :
    let run := steps.foldl (DrainRun.step C)
      ⟨.init numCells, r, ⟨true, mosi, t, pending, []⟩⟩
    let set := steps.foldl Drained.step ⟨.init numCells, drainedBy (config t)⟩
    drainedBy (config run.wires.far.state) = set.told ∧
      run.balancer.ltc.dischargeSet = set.bits.cells := by
  have hrun (x : DrainRun τ) (d : Drained) (h : x.Shows config d) :
      (steps.foldl (DrainRun.step C) x).Shows config (steps.foldl Drained.step d) := by
    induction steps generalizing x d with
    | nil => exact h
    | cons s steps ih => exact ih _ _ (shows_step hm h s)
  have hall := hrun ⟨.init numCells, r, ⟨true, mosi, t, pending, []⟩⟩
    ⟨.init numCells, drainedBy (config t)⟩ ⟨Mirrors.init hn, rfl, rfl, rfl⟩
  exact ⟨hall.told, hall.mirrors.cells⟩

/-- What is released between two updates is still discharged until the second. -/
theorem monitor_discharges_set_draining :
    let run (steps : List DrainStep) := steps.foldl (DrainRun.step (cellMonitor fun _ _ => 512))
      ⟨.init 12, ⟨fun _ => 0, 0⟩, ⟨true, true, ⟨[], [], 0⟩, [], []⟩⟩
    let drain : List DrainStep := [.op .enableDrain, .update 0 0, .op .disableDrain]
    drainedBy (run drain).wires.far.state.config = Finset.Icc 1 12 ∧
      drainedBy (run (drain ++ [.update 1 1])).wires.far.state.config = ∅ := by
  have hset (steps : List DrainStep) := (monitor_discharges_set _ _ _ _
    (cell_monitor_spec fun _ _ => 512) 12 le_rfl ⟨fun _ => 0, 0⟩ ⟨[], [], 0⟩ true [] steps).1
  exact ⟨(hset _).trans (by decide), (hset _).trans (by decide)⟩

end Battman
