import Battman.CellCodes
import Battman.CellWires

/-! The cell monitor at the end of the wires: it takes a configuration whose checksum matches,
samples the cells when a conversion is started and sends the codes when it is read. The cells
of the driver are then those of the conversion before the last. -/
namespace Battman
open BitSerial

/-- A frame that writes the configuration, with the checksum of its six bytes. -/
def ConfigFrame (frame : List UInt8) : Prop :=
  frame.take 2 = [0x01, 0xC7] ∧ frame.length = 9 ∧
    pec8Calc 6 (fun i => frame.getD (i + 2) 0) = frame.getD 8 0

instance (frame : List UInt8) : Decidable (ConfigFrame frame) :=
  inferInstanceAs (Decidable (_ ∧ _ ∧ _))

/-- What the driver relies on of the LTC6803, a part that is not in the sources: `config` is its
configuration register, `conversions` counts the conversions that it was told to start, and
`samples n` are the codes of conversion `n`. A conversion that is read is over, as
`conversions_have_their_time` says. -/
structure MonitorSpec {τ : Type} (C : ByteChip τ) (config : τ → List UInt8) (conversions : τ → ℕ)
    (samples : ℕ → ℕ → BitVec 12) : Prop where
  wrcfg : ∀ frame t, ConfigFrame frame →
    config (C.frame frame t).2 = (frame.drop 2).take 6 ∧
      conversions (C.frame frame t).2 = conversions t
  stcvad : ∀ t, config (C.frame [0x10, 0xB0] t).2 = config t ∧
    conversions (C.frame [0x10, 0xB0] t).2 = conversions t + 1
  rdcv : ∀ t, config (C.frame ([0x04, 0xDC] ++ List.replicate 19 0xFF) t).2 = config t ∧
    conversions (C.frame ([0x04, 0xDC] ++ List.replicate 19 0xFF) t).2 = conversions t
  codes : ∀ t, (C.frame ([0x04, 0xDC] ++ List.replicate 19 0xFF) t).1.drop 2 =
    (List.range 19).map (chipResponse (samples (conversions t)))

def codeVolts (code : BitVec 12) : ℚ := ((code.toNat : ℤ) - 512 : ℤ) * 1.5 / 1000

section Driver

variable {τ : Type} {C : ByteChip τ} {config : τ → List UInt8} {conversions : τ → ℕ}
  {samples : ℕ → ℕ → BitVec 12}

theorem config_frame (configReg : ℕ → UInt8) :
    ConfigFrame ((List.range 9).map (wrcfgCommand configReg)) := by
  have hget (i : ℕ) (hi : i < 9) :
      ((List.range 9).map (wrcfgCommand configReg)).getD i 0 = wrcfgCommand configReg i := by
    rw [List.getD_eq_getElem _ _ (by simpa using hi), List.getElem_map, List.getElem_range]
  have hpec : PecPasses 6 fun i => wrcfgCommand configReg (i + 2) := wrcfg_passes configReg
  refine ⟨rfl, by simp, ?_⟩
  rw [pec8_calc_congr fun i hi => hget (i + 2) (by omega), hget 8 (by decide)]
  exact hpec.symm

theorem configured_monitor (h : MonitorSpec C config conversions samples) (c : UpdateCall)
    (t : τ) : config (c.configured C t) = (List.range 6).map c.configReg ∧
      conversions (c.configured C t) = conversions t :=
  h.wrcfg _ t (config_frame c.configReg)

theorem answer_monitor (h : MonitorSpec C config conversions samples) (c : UpdateCall) (t : τ) :
    (c.answer C t).1 = (List.range 19).map (chipResponse (samples (conversions t))) ∧
      config (c.answer C t).2 = (List.range 6).map c.configReg ∧
      conversions (c.answer C t).2 = conversions t := by
  obtain ⟨hconfig, hconversions⟩ := configured_monitor h c t
  obtain ⟨hsame, hcount⟩ := h.rdcv (c.configured C t)
  have hcodes := h.codes (c.configured C t)
  rw [hconversions] at hcodes hcount
  exact ⟨hcodes, hsame.trans hconfig, hcount⟩

theorem in_frames_monitor (h : MonitorSpec C config conversions samples) (c : UpdateCall)
    (r : Readings) (t : τ) :
    let next := c.inFrames C r t
    config next.2 = (List.range 6).map c.configReg ∧
      (conversions next.2 = conversions t ∧ next.1 = r ∨
        conversions next.2 = conversions t + 1 ∧
          ∀ k < 12, next.1.cells k = codeVolts (samples (conversions t) k)) := by
  obtain ⟨hanswer, hconfig, hconversions⟩ := answer_monitor h c t
  by_cases hdue : c.due r
  · obtain ⟨hsame, hcount⟩ := h.stcvad (c.answer C t).2
    have hstarted : (c.inFrames C r t).2 = (C.frame [0x10, 0xB0] (c.answer C t).2).2 :=
      if_pos hdue
    have hcells : (c.inFrames C r t).1.cells =
        (ltc6803Rdcv ((c.answer C t).1.getD · 0) r.cells).cells := by
      have hupdate (rx : ℕ → UInt8) : r.update ⟨c.now, c.started, rx⟩ =
          ⟨(ltc6803Rdcv rx r.cells).cells, c.started⟩ := if_pos hdue
      rw [UpdateCall.inFrames, hupdate]
    refine ⟨by rw [hstarted, hsame, hconfig],
      Or.inr ⟨by rw [hstarted, hcount, hconversions], fun k hk => ?_⟩⟩
    have hbyte (i : ℕ) (hi : i < 19) : (c.answer C t).1.getD i 0 =
        chipResponse (samples (conversions t)) i := by
      rw [hanswer, List.getD_eq_getElem _ _ (by simpa using hi), List.getElem_map,
        List.getElem_range]
    have hreading : reading ((c.answer C t).1.getD · 0) k =
        reading (chipResponse (samples (conversions t))) k := by
      simp only [reading, packedPair]
      rw [hbyte _ (by omega), hbyte _ (by omega), hbyte _ (by omega)]
    rw [hcells, rdcv_cell, if_pos hk, hreading, reading_code _ hk, codeVolts]
  · obtain ⟨hconfig, hconversions⟩ := configured_monitor h c t
    have hkept : (c.inFrames C r t).2 = c.configured C t := if_neg hdue
    have hupdate (rx : ℕ → UInt8) : r.update ⟨c.now, c.started, rx⟩ = r := if_neg hdue
    rw [← hkept] at hconfig hconversions
    refine ⟨hconfig, Or.inl ⟨hconversions, ?_⟩⟩
    rw [UpdateCall.inFrames, hupdate]

theorem all_in_frames_monitor (h : MonitorSpec C config conversions samples)
    (calls : List UpdateCall) (r : Readings) (t : τ) :
    let last := UpdateCall.allInFrames C calls r t
    conversions t ≤ conversions last.2 ∧
      (conversions last.2 = conversions t → last.1 = r) ∧
      (conversions t < conversions last.2 →
        ∀ k < 12, last.1.cells k = codeVolts (samples (conversions last.2 - 1) k)) ∧
      ∀ c ∈ calls.getLast?, config last.2 = (List.range 6).map c.configReg := by
  induction calls generalizing r t with
  | nil => exact ⟨le_rfl, fun _ => rfl, fun h => absurd h (lt_irrefl _), by simp⟩
  | cons c calls ih =>
    obtain ⟨hconfig, hstep⟩ := in_frames_monitor h c r t
    obtain ⟨hle, hsame, hcells, hlast⟩ := ih (c.inFrames C r t).1 (c.inFrames C r t).2
    have hrun : UpdateCall.allInFrames C (c :: calls) r t =
        UpdateCall.allInFrames C calls (c.inFrames C r t).1 (c.inFrames C r t).2 := rfl
    have hlatest : ∀ c' ∈ (c :: calls).getLast?,
        config (UpdateCall.allInFrames C (c :: calls) r t).2 =
          (List.range 6).map c'.configReg := by
      intro c' hc'
      cases calls with
      | nil =>
        obtain rfl : c = c' := by simpa using hc'
        exact hconfig
      | cons d calls => exact hlast c' (by simpa [List.getLast?_cons_cons] using hc')
    rw [hrun] at hlatest ⊢
    rcases hstep with ⟨hconversions, hr⟩ | ⟨hconversions, hvolts⟩
    · rw [hconversions] at hle hsame hcells
      exact ⟨hle, fun h => (hsame h).trans hr, hcells, hlatest⟩
    · rw [hconversions] at hle hsame hcells
      refine ⟨by omega, fun h => absurd h (by omega), fun h k hk => ?_, hlatest⟩
      by_cases hmore : conversions t + 1 < conversions (UpdateCall.allInFrames C calls
          (c.inFrames C r t).1 (c.inFrames C r t).2).2
      · exact hcells hmore k hk
      · have heq := le_antisymm (not_lt.mp hmore) hle
        rw [hsame heq, heq, Nat.add_sub_cancel]
        exact hvolts k hk

/-- Over the pads, the monitor has the configuration of the last call, and the cells are those of
the conversion before the last, if any was started. -/
theorem cells_over_wires (C : ByteChip τ) (config : τ → List UInt8) (conversions : τ → ℕ)
    (samples : ℕ → ℕ → BitVec 12) (h : MonitorSpec C config conversions samples)
    (calls : List UpdateCall) (r : Readings) (t : τ) (mosi : Bool) (pending : List Bool) :
    let run := ltc6803Updates (softPort C.serial) calls r ⟨true, mosi, t, pending, []⟩
    let chip := run.2.far.state
    conversions t ≤ conversions chip ∧
      (conversions chip = conversions t → run.1 = r) ∧
      (conversions t < conversions chip →
        ∀ k < 12, run.1.cells k = codeVolts (samples (conversions chip - 1) k)) ∧
      ∀ c ∈ calls.getLast?, config chip = (List.range 6).map c.configReg := by
  obtain ⟨hr, ht⟩ := soft_in_frames C calls r t mosi pending
  simp only [hr, ht]
  exact all_in_frames_monitor h calls r t

end Driver

section Instance

/-- A chip that converts at once: the frame so far, the configuration and the conversions. -/
structure CellMonitor where
  frame : List UInt8
  config : List UInt8
  conversions : ℕ

def cellMonitor (samples : ℕ → ℕ → BitVec 12) : ByteChip CellMonitor where
  ready m :=
    if m.frame.take 2 = [0x04, 0xDC] then
      chipResponse (samples m.conversions) (m.frame.length - 2)
    else 0xFF
  take x m := { m with frame := m.frame ++ [x] }
  select m := { m with frame := [] }
  unselect m :=
    if m.frame = [0x10, 0xB0] then { m with conversions := m.conversions + 1 }
    else if ConfigFrame m.frame then { m with config := (m.frame.drop 2).take 6 }
    else m

variable (samples : ℕ → ℕ → BitVec 12) {m : CellMonitor}

theorem frame_taken (xs : List UInt8) (m : CellMonitor) :
    ((cellMonitor samples).exchange xs m).2 = { m with frame := m.frame ++ xs } := by
  induction xs generalizing m with
  | nil => simp [BytePeer.exchange]
  | cons x xs ih =>
    refine (ih _).trans ?_
    simp [cellMonitor]

theorem response_sent (xs pre : List UInt8) (hm : m.frame = [0x04, 0xDC] ++ pre) :
    ((cellMonitor samples).exchange xs m).1 =
      (List.range' pre.length xs.length).map (chipResponse (samples m.conversions)) := by
  induction xs generalizing m pre with
  | nil => rfl
  | cons x xs ih =>
    have hready : (cellMonitor samples).ready m =
        chipResponse (samples m.conversions) pre.length := by
      have htake : m.frame.take 2 = [0x04, 0xDC] := by rw [hm]; rfl
      have hlength : m.frame.length - 2 = pre.length := by rw [hm]; simp
      simp only [cellMonitor, if_pos htake, hlength]
    have hrest := ih (m := (cellMonitor samples).take x m) (pre ++ [x])
      (by simp [cellMonitor, hm])
    rw [List.length_append] at hrest
    exact congrArg₂ List.cons hready hrest

theorem frame_done (xs : List UInt8) (m : CellMonitor) :
    ((cellMonitor samples).frame xs m).2 =
      (cellMonitor samples).unselect { m with frame := xs } := by
  have htaken := frame_taken samples xs { m with frame := [] }
  exact congrArg (cellMonitor samples).unselect htaken

theorem cell_monitor_spec :
    MonitorSpec (cellMonitor samples) CellMonitor.config CellMonitor.conversions samples where
  wrcfg frame m hframe := by
    have hne : frame ≠ [0x10, 0xB0] := fun h => absurd hframe.2.1 (by rw [h]; decide)
    have hconfigures : ((cellMonitor samples).frame frame m).2 =
        { m with frame, config := (frame.drop 2).take 6 } := by
      rw [frame_done]
      simp only [cellMonitor, if_neg hne, if_pos hframe]
    rw [hconfigures]
    exact ⟨rfl, rfl⟩
  stcvad m := by
    have hconverts : ((cellMonitor samples).frame [0x10, 0xB0] m).2 =
        { m with frame := [0x10, 0xB0], conversions := m.conversions + 1 } := by
      rw [frame_done]
      simp only [cellMonitor, if_true]
    rw [hconverts]
    exact ⟨rfl, rfl⟩
  rdcv m := by
    have hread : ¬ ConfigFrame ([0x04, 0xDC] ++ List.replicate 19 0xFF) := by decide
    have hne : ([0x04, 0xDC] ++ List.replicate 19 0xFF : List UInt8) ≠ [0x10, 0xB0] := by decide
    have hkeeps : ((cellMonitor samples).frame ([0x04, 0xDC] ++ List.replicate 19 0xFF) m).2 =
        { m with frame := [0x04, 0xDC] ++ List.replicate 19 0xFF } := by
      rw [frame_done]
      simp only [cellMonitor, if_neg hne, if_neg hread]
    rw [hkeeps]
    exact ⟨rfl, rfl⟩
  codes m := by
    have hsent := response_sent samples (List.replicate 19 0xFF) []
      (m := { m with frame := [0x04, 0xDC] }) rfl
    rw [List.length_replicate, List.length_nil, ← List.range_eq_range'] at hsent
    exact hsent

/-- Two calls that are due: cell 4 is what the first conversion gave. -/
theorem cells_over_wires_second_call :
    (ltc6803Updates (softPort (cellMonitor fun n k => BitVec.ofNat 12 (1000 * n + k)).serial)
      [⟨200, 200, fun _ => 0⟩, ⟨400, 400, fun _ => 0⟩] ⟨fun _ => 0, 0⟩
      ⟨true, true, ⟨[], [], 0⟩, [], []⟩).1.cells 4 = 0.738 := by
  obtain ⟨-, hchip⟩ := soft_in_frames (cellMonitor fun n k => BitVec.ofNat 12 (1000 * n + k))
    [⟨200, 200, fun _ => 0⟩, ⟨400, 400, fun _ => 0⟩] ⟨fun _ => 0, 0⟩ ⟨[], [], 0⟩ true []
  obtain ⟨-, -, hcells, -⟩ := cells_over_wires _ _ _ _
    (cell_monitor_spec fun n k => BitVec.ofNat 12 (1000 * n + k))
    [⟨200, 200, fun _ => 0⟩, ⟨400, 400, fun _ => 0⟩] ⟨fun _ => 0, 0⟩ ⟨[], [], 0⟩ true []
  have hcount := congrArg CellMonitor.conversions hchip
  have htwo : (UpdateCall.allInFrames (cellMonitor fun n k => BitVec.ofNat 12 (1000 * n + k))
      [⟨200, 200, fun _ => 0⟩, ⟨400, 400, fun _ => 0⟩] ⟨fun _ => 0, 0⟩
      ⟨[], [], 0⟩).2.conversions = 2 := by decide +kernel
  rw [hcount, htwo] at hcells
  rw [hcells (by decide) 4 (by decide)]
  norm_num [codeVolts]

end Instance

section Times

/-- Calls of ltc6803_update one after the other, at true times in ticks. -/
structure UpdateRun where
  clock : ℕ → ℕ
  started : ℕ → ℕ
  configReg : ℕ → ℕ → UInt8
  ordered : ∀ n, clock n ≤ started n ∧ started n ≤ clock (n + 1)

variable {τ : Type}

namespace UpdateRun

variable (run : UpdateRun) (C : ByteChip τ) (r : Readings) (t : τ)

def call (n : ℕ) : UpdateCall where
  now := UInt32.ofNat (run.clock n)
  started := UInt32.ofNat (run.started n)
  configReg := run.configReg n

def readings (n : ℕ) : Readings :=
  (ltc6803Updates (softPort C.serial) ((List.range n).map run.call) r ⟨true, true, t, [], []⟩).1

/-- Call `n` reads the cells and starts the next conversion. -/
def Reads (n : ℕ) : Prop := (run.call n).due (run.readings C r t n)

instance (n : ℕ) : Decidable (run.Reads C r t n) :=
  inferInstanceAs (Decidable ((run.call n).due (run.readings C r t n)))

end UpdateRun

variable {run : UpdateRun} {C : ByteChip τ} {r : Readings} {t : τ} {i j n : ℕ}

theorem st2ms_ticks (x : UInt32) :
    (st2ms x).toNat = (x.toNat * 1000 + 9999) % 2 ^ 32 / 10000 := by
  rw [st2ms, UInt32.toNat_div, UInt32.toNat_add, UInt32.toNat_mul, Nat.mod_add_mod]
  rfl

theorem late_of_due {x : UInt32} (h : 13 < st2ms x) : 130 < x.toNat := by
  have hms := UInt32.lt_iff_toNat_lt.mp h
  rw [st2ms_ticks] at hms
  change 13 < _ at hms
  by_contra hearly
  have hsmall : (x.toNat * 1000 + 9999) % 2 ^ 32 = x.toNat * 1000 + 9999 :=
    Nat.mod_eq_of_lt (by omega)
  omega

/-- Only after some minutes does the product overflow. -/
theorem due_of_late {x : UInt32} (h : 130 < x.toNat) (hx : x.toNat ≤ 4294957) :
    13 < st2ms x := by
  apply UInt32.lt_iff_toNat_lt.mpr
  rw [st2ms_ticks, Nat.mod_eq_of_lt (by omega)]
  change 13 < _
  omega

theorem snoc_in_frames (calls : List UpdateCall) (c : UpdateCall) (r : Readings) (t : τ) :
    UpdateCall.allInFrames C (calls ++ [c]) r t =
      c.inFrames C (UpdateCall.allInFrames C calls r t).1
        (UpdateCall.allInFrames C calls r t).2 := by
  induction calls generalizing r t with
  | nil => rfl
  | cons d calls ih => exact ih _ _

theorem readings_succ (n : ℕ) :
    (run.readings C r t (n + 1)).conversionStart =
      if run.Reads C r t n then UInt32.ofNat (run.started n)
      else (run.readings C r t n).conversionStart := by
  have hframes (n : ℕ) : run.readings C r t n =
      (UpdateCall.allInFrames C ((List.range n).map run.call) r t).1 :=
    (soft_in_frames C _ r t true []).1
  have hstep : run.readings C r t (n + 1) = ((run.call n).inFrames C (run.readings C r t n)
      (UpdateCall.allInFrames C ((List.range n).map run.call) r t).2).1 := by
    rw [hframes, hframes, List.range_succ, List.map_append, List.map_singleton, snoc_in_frames]
  rw [hstep]
  by_cases h : run.Reads C r t n
  · rw [if_pos h]
    exact congrArg Readings.conversionStart (if_pos h)
  · rw [if_neg h]
    exact congrArg Readings.conversionStart (if_neg h)

theorem started_monotone (run : UpdateRun) (h : i ≤ j) : run.started i ≤ run.started j := by
  induction h with
  | refl => rfl
  | step _ ih => exact ih.trans ((run.ordered _).2.trans (run.ordered _).1)

theorem started_before (run : UpdateRun) (h : i < j) : run.started i ≤ run.clock j := by
  obtain ⟨j, rfl⟩ : ∃ k, j = k + 1 := ⟨j - 1, by omega⟩
  exact (started_monotone run (Nat.lt_succ_iff.mp h)).trans (run.ordered j).2

theorem last_started (hi : run.Reads C r t i) (hn : i < n) :
    ∃ k, i ≤ k ∧ k < n ∧ run.Reads C r t k ∧ (∀ l, k < l → l < n → ¬ run.Reads C r t l) ∧
      (run.readings C r t n).conversionStart = UInt32.ofNat (run.started k) := by
  induction hn with
  | refl =>
    refine ⟨i, le_rfl, Nat.lt_succ_self i, hi, fun l h h' => by omega, ?_⟩
    rw [readings_succ, if_pos hi]
  | @step n hn ih =>
    by_cases h : run.Reads C r t n
    · refine ⟨n, by omega, Nat.lt_succ_self n, h, fun l h h' => by omega, ?_⟩
      rw [readings_succ, if_pos h]
    · obtain ⟨k, hik, hkn, hk, hnone, hstart⟩ := ih
      refine ⟨k, hik, by omega, hk, fun l hl hl' => ?_, by rw [readings_succ, if_neg h, hstart]⟩
      by_cases hln : l = n
      · exact hln ▸ h
      · exact hnone l hl (by omega)

theorem elapsed_ticks {a s : ℕ} (h : s ≤ a) :
    (UInt32.ofNat a - UInt32.ofNat s).toNat = (a - s) % 2 ^ 32 := by
  rw [← UInt32.ofNat_sub h, UInt32.toNat_ofNat']

/-- No conversion is read in its first 13 ms, however long the run; and it is read by the first
call after that, unless the calls pause for seven minutes. -/
theorem conversions_have_their_time (run : UpdateRun) (C : ByteChip τ) (r : Readings) (t : τ) :
    (∀ i j, i < j → run.Reads C r t i → run.Reads C r t j →
      run.started i + 130 < run.clock j) ∧
    ∀ i j, i < j → run.Reads C r t i → (∀ k, i < k → k < j → ¬ run.Reads C r t k) →
      run.clock j ≤ run.started i + 4294957 →
        (run.Reads C r t j ↔ run.started i + 130 < run.clock j) := by
  have hearly : ∀ i j, i < j → run.Reads C r t i → run.Reads C r t j →
      run.started i + 130 < run.clock j := by
    intro i j hij hi hj
    obtain ⟨k, hik, hkj, -, -, hstart⟩ := last_started hi hij
    have hlate := late_of_due hj
    rw [hstart] at hlate
    have hticks := elapsed_ticks (started_before run hkj)
    have hmono := started_monotone run hik
    have hle := Nat.mod_le (run.clock j - run.started k) (2 ^ 32)
    change 130 < (UInt32.ofNat (run.clock j) - UInt32.ofNat (run.started k)).toNat at hlate
    omega
  refine ⟨hearly, fun i j hij hi hnone hpause => ⟨hearly i j hij hi, fun hlate => ?_⟩⟩
  obtain ⟨k, hik, hkj, hk, -, hstart⟩ := last_started hi hij
  obtain rfl : i = k := by
    by_contra hne
    exact hnone k (by omega) hkj hk
  have hticks := elapsed_ticks (started_before run hij)
  rw [Nat.mod_eq_of_lt (by omega)] at hticks
  have hdue := due_of_late (x := UInt32.ofNat (run.clock j) - UInt32.ofNat (run.started i))
    (by omega) (by omega)
  change 13 < st2ms (UInt32.ofNat (run.clock j) - (run.readings C r t j).conversionStart)
  rwa [hstart]

end Times

end Battman
