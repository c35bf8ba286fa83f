import Mathlib
import Battman.Balancing

/-! The discharge bits as a set of cells, over any sequence of the operations on them. -/
namespace Battman

def ltc6803Lock (l : Ltc6803) : Ltc6803 := { l with lock := true }

def ltc6803Unlock (l : Ltc6803) : Ltc6803 := { l with lock := false }

/-- The operations of ltc6803.c, the console's drain commands, and a new configuration. -/
inductive BalanceOp where
  | enable (cell : ℕ) (counted : 1 ≤ cell)
  | disable (cell : ℕ) (counted : 1 ≤ cell)
  | disableAll
  | lock
  | unlock
  | enableDrain
  | disableDrain
  | setNumCells (numCells : ℕ) (bounded : numCells ≤ 12)

def BalanceOp.ofCharger : BalanceOp → Bool
  | .enable _ _ | .disable _ _ | .disableAll => true
  | _ => false

def BalanceOp.releases : BalanceOp → Bool
  | .unlock | .disableDrain => true
  | _ => false

structure Balancer where
  ltc : Ltc6803
  numCells : ℕ

def Balancer.apply (b : Balancer) : BalanceOp → Balancer
  | .enable cell _ => { b with ltc := b.ltc.enableBalance b.numCells cell }
  | .disable cell _ => { b with ltc := b.ltc.disableBalance b.numCells cell }
  | .disableAll => { b with ltc := b.ltc.disableBalanceAll }
  | .lock => { b with ltc := ltc6803Lock b.ltc }
  | .unlock => { b with ltc := ltc6803Unlock b.ltc }
  | .enableDrain => { b with ltc := b.ltc.enableDrain b.numCells }
  | .disableDrain => { b with ltc := b.ltc.disableDrain }
  | .setNumCells numCells _ => { b with numCells }

def Balancer.run (b : Balancer) (ops : List BalanceOp) : Balancer := ops.foldl Balancer.apply b

def Balancer.init (numCells : ℕ) : Balancer := ⟨Ltc6803.init, numCells⟩

structure BalanceSet where
  cells : Finset ℕ
  locked : Bool
  numCells : ℕ

namespace BalanceSet

def edit (s : BalanceSet) (f : Finset ℕ → Finset ℕ) : BalanceSet :=
  if s.locked then s else { s with cells := f s.cells }

def apply (s : BalanceSet) : BalanceOp → BalanceSet
  | .enable cell _ => if cell ≤ s.numCells then s.edit (insert cell) else s
  | .disable cell _ => if cell ≤ s.numCells then s.edit (Finset.erase · cell) else s
  | .disableAll => s.edit fun _ => ∅
  | .lock => { s with locked := true }
  | .unlock => { s with locked := false }
  | .enableDrain => { s.edit (· ∪ Finset.Icc 1 s.numCells) with locked := true }
  | .disableDrain => { s with cells := ∅, locked := false }
  | .setNumCells numCells _ => { s with numCells }

def run (s : BalanceSet) (ops : List BalanceOp) : BalanceSet := ops.foldl apply s

def init (numCells : ℕ) : BalanceSet := ⟨∅, false, numCells⟩

end BalanceSet

def Ltc6803.dischargeSet (l : Ltc6803) : Finset ℕ :=
  (Finset.Icc 1 12).filter fun cell => l.discharging cell = true

/-- A bit of the configuration that discharges a cell. -/
def DischargeBit (i : Fin 6) (bit : ℕ) : Prop := i.val = 1 ∨ i.val = 2 ∧ bit < 4

def Ltc6803.Untouched (l : Ltc6803) : Prop :=
  ∀ i : Fin 6, ∀ bit < 8, ¬ DischargeBit i bit →
    (l.configReg i).toBitVec.getLsbD bit = (Ltc6803.init.configReg i).toBitVec.getLsbD bit

/-- The register holds the set, under the same lock and the same number of cells. -/
structure Mirrors (b : Balancer) (s : BalanceSet) : Prop where
  cells : b.ltc.dischargeSet = s.cells
  locked : b.ltc.lock = s.locked
  numCells : b.numCells = s.numCells
  bounded : b.numCells ≤ 12
  untouched : b.ltc.Untouched

variable {l l' : Ltc6803} {b : Balancer} {s : BalanceSet} {cell numCells : ℕ}

section Bytes

theorem set_reg_config (i : Fin 6) (value : UInt8) :
    (l.setReg i value).configReg = Function.update l.configReg i value := rfl

theorem mem_discharge_set {c : ℕ} :
    c ∈ l.dischargeSet ↔ (1 ≤ c ∧ c ≤ 12) ∧ l.discharging c = true := by
  rw [Ltc6803.dischargeSet, Finset.mem_filter, Finset.mem_Icc]

theorem untouched_set_reg (lo hi : UInt8) (hcell : cell ≤ 12)
    (hhi : ∀ i < 8, i ≠ cell - 9 → hi.toBitVec.getLsbD i = (l.configReg 2).toBitVec.getLsbD i)
    (h : l.Untouched) : (if cell ≤ 8 then l.setReg 1 lo else l.setReg 2 hi).Untouched := by
  intro i bit hbit hother
  split_ifs
  · have hi : i ≠ 1 := fun hi => hother (Or.inl (congrArg Fin.val hi))
    rw [set_reg_config, Function.update_of_ne hi]
    exact h i bit hbit hother
  · by_cases hi : i = 2
    · have hne : bit ≠ cell - 9 := fun hb => hother (Or.inr ⟨congrArg Fin.val hi, by omega⟩)
      rw [hi, set_reg_config, Function.update_self, hhi bit hbit hne]
      exact h 2 bit hbit (hi ▸ hother)
    · rw [set_reg_config, Function.update_of_ne hi]
      exact h i bit hbit hother

theorem untouched_enable (hn : numCells ≤ 12) (h : l.Untouched) :
    (l.enableBalance numCells cell).Untouched := by
  rw [Ltc6803.enableBalance]
  split_ifs with hl hcell h8
  · exact h
  · exact h
  all_goals
    have hset := untouched_set_reg (l.configReg 1 ||| bitMask (cell - 1))
      (l.configReg 2 ||| bitMask (cell - 9)) (by omega : cell ≤ 12)
      (fun i hi hne => by rw [set_bit hi, decide_eq_false hne, Bool.or_false]) h
  · rwa [if_pos h8] at hset
  · rwa [if_neg h8] at hset

theorem untouched_disable (hn : numCells ≤ 12) (h : l.Untouched) :
    (l.disableBalance numCells cell).Untouched := by
  rw [Ltc6803.disableBalance]
  split_ifs with hl hcell h8
  · exact h
  · exact h
  all_goals
    have hset := untouched_set_reg (l.configReg 1 &&& ~~~bitMask (cell - 1))
      (l.configReg 2 &&& ~~~bitMask (cell - 9)) (by omega : cell ≤ 12)
      (fun i hi hne => by rw [clear_bit hi, decide_eq_true hne, Bool.and_true]) h
  · rwa [if_pos h8] at hset
  · rwa [if_neg h8] at hset

theorem untouched_disable_all (h : l.Untouched) : l.disableBalanceAll.Untouched := by
  rw [Ltc6803.disableBalanceAll]
  split_ifs
  · exact h
  intro i bit hbit hother
  have hi : i ≠ 1 := fun hi => hother (Or.inl (congrArg Fin.val hi))
  rw [set_reg_config, set_reg_config]
  by_cases h2 : i = 2
  · rw [h2, Function.update_self]
    rfl
  · rw [Function.update_of_ne h2, Function.update_of_ne hi]
    exact h i bit hbit hother

theorem discharge_set_enable (hl : l.lock = false) (hcell : 1 ≤ cell ∧ cell ≤ numCells)
    (hn : numCells ≤ 12) :
    (l.enableBalance numCells cell).dischargeSet = insert cell l.dischargeSet := by
  ext c
  rw [Finset.mem_insert, mem_discharge_set, mem_discharge_set]
  by_cases hc : 1 ≤ c ∧ c ≤ 12
  · rw [discharging_enable hl hcell ⟨hc.1, by omega⟩]
    by_cases heq : c = cell
    · subst heq
      simp [hc]
    · simp [heq]
  · have hne : c ≠ cell := by omega
    simp [hc, hne]

theorem discharge_set_disable (hl : l.lock = false) (hcell : 1 ≤ cell ∧ cell ≤ numCells) :
    (l.disableBalance numCells cell).dischargeSet = l.dischargeSet.erase cell := by
  ext c
  rw [Finset.mem_erase, mem_discharge_set, mem_discharge_set]
  by_cases hc : 1 ≤ c ∧ c ≤ 12
  · rw [discharging_disable hl hcell ⟨hc.1, by omega⟩]
    by_cases heq : c = cell
    · simp [heq]
    · simp [heq]
  · simp [hc]

theorem discharge_set_disable_all (hl : l.lock = false) :
    l.disableBalanceAll.dischargeSet = ∅ := by
  rw [Ltc6803.disableBalanceAll, if_neg (by simp [hl])]
  refine Finset.eq_empty_of_forall_notMem fun c hc => ?_
  have hbit : Ltc6803.discharging ((l.setReg 1 0).setReg 2 0) c = false := by
    rw [Ltc6803.discharging]
    split_ifs <;> simp [set_reg_config]
  rw [mem_discharge_set, hbit] at hc
  exact Bool.false_ne_true hc.2

end Bytes

section Steps

theorem Mirrors.init (hn : numCells ≤ 12) :
    Mirrors (Balancer.init numCells) (BalanceSet.init numCells) :=
  ⟨(by decide : Ltc6803.init.dischargeSet = ∅), rfl, rfl, hn, fun _ _ _ _ => rfl⟩

theorem Mirrors.edit {f : Finset ℕ → Finset ℕ} (h : Mirrors b s)
    (hlocked : b.ltc.lock = true → l' = b.ltc)
    (hset : b.ltc.lock = false → l'.dischargeSet = f b.ltc.dischargeSet ∧ l'.lock = false)
    (huntouched : l'.Untouched) : Mirrors { b with ltc := l' } (s.edit f) := by
  rw [BalanceSet.edit]
  cases hl : b.ltc.lock with
  | true =>
    obtain rfl := hlocked hl
    rw [if_pos (by rw [← h.locked, hl])]
    exact h
  | false =>
    obtain ⟨hcells, hlock⟩ := hset hl
    rw [if_neg (by rw [← h.locked, hl]; exact Bool.false_ne_true)]
    refine ⟨by rw [hcells, h.cells], ?_, h.numCells, h.bounded, huntouched⟩
    change l'.lock = s.locked
    rw [hlock, ← h.locked, hl]

theorem Mirrors.edit_cell {f : Finset ℕ → Finset ℕ} (h : Mirrors b s)
    (hlocked : b.ltc.lock = true → l' = b.ltc) (habove : b.numCells < cell → l' = b.ltc)
    (hset : b.ltc.lock = false → cell ≤ b.numCells →
      l'.dischargeSet = f b.ltc.dischargeSet ∧ l'.lock = false)
    (huntouched : l'.Untouched) :
    Mirrors { b with ltc := l' } (if cell ≤ s.numCells then s.edit f else s) := by
  rw [← h.numCells]
  by_cases hle : cell ≤ b.numCells
  · rw [if_pos hle]
    exact h.edit hlocked (fun hl => hset hl hle) huntouched
  · rw [if_neg hle, habove (by omega)]
    exact h

theorem Mirrors.enable (h : Mirrors b s) (hcell : 1 ≤ cell) :
    Mirrors (b.apply (.enable cell hcell)) (s.apply (.enable cell hcell)) := by
  refine h.edit_cell (f := insert cell) (fun hl => if_pos hl) (fun hlt => ?_)
    (fun hl hle => ⟨?_, ?_⟩) (untouched_enable h.bounded h.untouched)
  · rw [Ltc6803.enableBalance, if_pos hlt, ite_self]
  · exact discharge_set_enable hl ⟨hcell, hle⟩ h.bounded
  · rw [enable_lock, hl]

theorem Mirrors.disable (h : Mirrors b s) (hcell : 1 ≤ cell) :
    Mirrors (b.apply (.disable cell hcell)) (s.apply (.disable cell hcell)) := by
  refine h.edit_cell (f := (Finset.erase · cell)) (fun hl => if_pos hl) (fun hlt => ?_)
    (fun hl hle => ⟨?_, ?_⟩) (untouched_disable h.bounded h.untouched)
  · rw [Ltc6803.disableBalance, if_pos hlt, ite_self]
  · exact discharge_set_disable hl ⟨hcell, hle⟩
  · rw [disable_lock, hl]

theorem Mirrors.disable_all (h : Mirrors b s) :
    Mirrors (b.apply .disableAll) (s.apply .disableAll) := by
  refine h.edit (f := fun _ => ∅) (fun hl => if_pos hl) (fun hl => ?_)
    (untouched_disable_all h.untouched)
  refine ⟨discharge_set_disable_all hl, ?_⟩
  rw [Ltc6803.disableBalanceAll, if_neg (by simp [hl])]
  exact hl

theorem Mirrors.set_lock (h : Mirrors b s) (locked : Bool) :
    Mirrors { b with ltc := { b.ltc with lock := locked } } { s with locked } :=
  ⟨h.cells, rfl, h.numCells, h.bounded, h.untouched⟩

theorem Mirrors.fill (h : Mirrors b s) {n : ℕ} (hn : n ≤ s.numCells) :
    Mirrors
      { b with
        ltc := (List.range n).foldl (fun l i => l.enableBalance b.numCells (i + 1)) b.ltc }
      (s.edit (· ∪ Finset.Icc 1 n)) := by
  induction n with
  | zero =>
    have hsame : s.edit (· ∪ Finset.Icc 1 0) = s := by simp [BalanceSet.edit]
    rwa [hsame]
  | succ n ih =>
    have hstep := (ih (by omega)).enable (Nat.le_add_left 1 n)
    have hset : (s.edit (· ∪ Finset.Icc 1 n)).apply (.enable (n + 1) (by omega)) =
        s.edit (· ∪ Finset.Icc 1 (n + 1)) := by
      cases hl : s.locked with
      | true => simp [BalanceSet.edit, BalanceSet.apply, hl]
      | false =>
        have hIcc : Finset.Icc 1 (n + 1) = insert (n + 1) (Finset.Icc 1 n) :=
          (Finset.insert_Icc_right_eq_Icc_add_one (by omega)).symm
        simp [BalanceSet.edit, BalanceSet.apply, hl, hn, hIcc]
    rw [hset] at hstep
    rwa [List.range_succ, List.foldl_append]

theorem Mirrors.apply (h : Mirrors b s) (op : BalanceOp) : Mirrors (b.apply op) (s.apply op) := by
  cases op with
  | enable cell hcell => exact h.enable hcell
  | disable cell hcell => exact h.disable hcell
  | disableAll => exact h.disable_all
  | lock => exact h.set_lock true
  | unlock => exact h.set_lock false
  | enableDrain =>
    have hfill := (h.fill h.numCells.le).set_lock true
    change Mirrors _ { s.edit (· ∪ Finset.Icc 1 s.numCells) with locked := true }
    rw [← h.numCells]
    exact hfill
  | disableDrain => exact (h.set_lock false).disable_all
  | setNumCells numCells hn => exact ⟨h.cells, h.locked, rfl, hn, h.untouched⟩

theorem Mirrors.run (h : Mirrors b s) (ops : List BalanceOp) :
    Mirrors (b.run ops) (s.run ops) := by
  induction ops generalizing b s with
  | nil => exact h
  | cons op ops ih => exact ih (h.apply op)

end Steps

section Locked

theorem locked_apply (op : BalanceOp) (hop : op.releases = false) (hl : s.locked = true) :
    (s.apply op).locked = true ∧ (s.apply op).cells = s.cells := by
  cases op with
  | enable cell _ | disable cell _ =>
    rw [BalanceSet.apply]
    split_ifs <;> simp [BalanceSet.edit, hl]
  | unlock | disableDrain => cases hop
  | _ => simp [BalanceSet.apply, BalanceSet.edit, hl]

theorem locked_run (ops : List BalanceOp) (hops : ∀ op ∈ ops, op.releases = false)
    (hl : s.locked = true) : (s.run ops).locked = true ∧ (s.run ops).cells = s.cells := by
  induction ops generalizing s with
  | nil => exact ⟨hl, rfl⟩
  | cons op ops ih =>
    obtain ⟨hlock, hcells⟩ := locked_apply op (hops op List.mem_cons_self) hl
    obtain ⟨hrun, hset⟩ := ih (fun op' h => hops op' (List.mem_cons_of_mem _ h)) hlock
    exact ⟨hrun, hset.trans hcells⟩

def balanceOp (cells : ℕ → ℚ) (lowest : ℚ) (i : ℕ) : BalanceOp :=
  if lowest < cells i then .enable (i + 1) (Nat.le_add_left 1 i)
  else .disable (i + 1) (Nat.le_add_left 1 i)

theorem balance_cells_ops (cells : ℕ → ℚ) (lowest : ℚ) (is : List ℕ) (r : Ltc6803 × Bool) :
    (is.foldl (balanceCell cells numCells lowest) r).1 =
      (Balancer.run ⟨r.1, numCells⟩ (is.map (balanceOp cells lowest))).ltc := by
  induction is generalizing r with
  | nil => rfl
  | cons i is ih =>
    have hstep : Balancer.apply ⟨r.1, numCells⟩ (balanceOp cells lowest i) =
        ⟨(balanceCell cells numCells lowest r i).1, numCells⟩ := by
      rcases r with ⟨l, continueBalance⟩
      by_cases h : lowest < cells i
      · rw [balanceOp, balanceCell, if_pos h, if_pos h, Balancer.apply]
      · rw [balanceOp, balanceCell, if_neg h, if_neg h, Balancer.apply]
    rw [List.foldl_cons, ih, List.map_cons, Balancer.run, Balancer.run, List.foldl_cons, hstep]

variable {c : Charger} {x : ChargerInput}

theorem regulate_ltc : (c.regulate x).ltc = c.ltc := by
  rw [Charger.regulate]
  split_ifs <;> rfl

theorem count_complete_ltc : (c.countComplete x).ltc = c.ltc := by
  rw [Charger.countComplete]
  split_ifs <;> rfl

theorem charger_update_ops (c : Charger) (x : ChargerInput) :
    ∃ ops : List BalanceOp, (∀ op ∈ ops, op.ofCharger = true) ∧
      (chargerUpdate c x).ltc = (Balancer.run ⟨c.ltc, x.numCells⟩ ops).ltc := by
  have hnone {l : Ltc6803} (h : l = c.ltc) : ∃ ops : List BalanceOp,
      (∀ op ∈ ops, op.ofCharger = true) ∧ l = (Balancer.run ⟨c.ltc, x.numCells⟩ ops).ltc :=
    ⟨[], nofun, h⟩
  simp only [chargerUpdate]
  split_ifs with hcharge
  · rw [Charger.charge]
    split_ifs with hbal hcut
    · rw [Charger.balance]
      dsimp only
      split_ifs with hdue
      · refine ⟨(List.range x.numCells).map (balanceOp x.cells ((c.sense x).lowestCell x)),
          fun op hop => ?_, ?_⟩
        · obtain ⟨i, -, rfl⟩ := List.mem_map.mp hop
          rw [balanceOp]
          split_ifs <;> rfl
        · change (balanceCells _ _ _ ((c.sense x).started x).ltc).1 = _
          rw [started_ltc]
          exact balance_cells_ops _ _ _ _
      · exact hnone started_ltc
    · refine hnone ?_
      rw [count_complete_ltc, regulate_ltc]
      rfl
    · exact hnone rfl
  · refine ⟨[.disableAll], fun op hop => ?_, ?_⟩
    · rw [List.mem_singleton.mp hop]
      rfl
    · simp only [Charger.idle]
      split_ifs <;> rfl

theorem locked_charger_ops (ops : List BalanceOp) (hops : ∀ op ∈ ops, op.ofCharger = true)
    (hl : b.ltc.lock = true) : b.run ops = b := by
  induction ops with
  | nil => rfl
  | cons op ops ih =>
    have hsame : b.apply op = b := by
      have hop := hops op List.mem_cons_self
      cases op with
      | enable cell _ => rw [Balancer.apply, Ltc6803.enableBalance, if_pos hl]
      | disable cell _ => rw [Balancer.apply, Ltc6803.disableBalance, if_pos hl]
      | disableAll => rw [Balancer.apply, Ltc6803.disableBalanceAll, if_pos hl]
      | _ => cases hop
    rw [Balancer.run, List.foldl_cons, hsame]
    exact ih fun op' h => hops op' (List.mem_cons_of_mem _ h)

theorem charger_update_locked (hl : c.ltc.lock = true) : (chargerUpdate c x).ltc = c.ltc := by
  obtain ⟨ops, hops, hltc⟩ := charger_update_ops c x
  rw [hltc, locked_charger_ops ops hops hl]

end Locked

/-- After any operations the register mirrors the set. What enable_drain leaves stays until the
register is unlocked, also through charger_update. -/
theorem balance_register_mirrors_set (numCells : ℕ) (hn : numCells ≤ 12) (ops : List BalanceOp) :
    Mirrors ((Balancer.init numCells).run ops) ((BalanceSet.init numCells).run ops) ∧
      ∀ before between : List BalanceOp, ops = before ++ .enableDrain :: between →
        (∀ op ∈ between, op.releases = false) →
        ((Balancer.init numCells).run ops).ltc.dischargeSet =
            ((Balancer.init numCells).run (before ++ [.enableDrain])).ltc.dischargeSet ∧
          ∀ (c : Charger) (x : ChargerInput), c.ltc = ((Balancer.init numCells).run ops).ltc →
            (chargerUpdate c x).ltc = c.ltc := by
  have hall := (Mirrors.init hn).run ops
  refine ⟨hall, fun before between hops hbetween => ?_⟩
  have hdrain := (Mirrors.init hn).run (before ++ [.enableDrain])
  have hsplit : (BalanceSet.init numCells).run ops =
      ((BalanceSet.init numCells).run (before ++ [.enableDrain])).run between := by
    rw [hops, BalanceSet.run, BalanceSet.run, BalanceSet.run, ← List.foldl_append,
      List.append_assoc, List.singleton_append]
  have hlocked : ((BalanceSet.init numCells).run (before ++ [.enableDrain])).locked = true := by
    rw [BalanceSet.run, List.foldl_append]
    rfl
  obtain ⟨hlock, hcells⟩ := locked_run between hbetween hlocked
  rw [← hsplit] at hlock hcells
  refine ⟨by rw [hall.cells, hdrain.cells, hcells], fun c x hc => charger_update_locked ?_⟩
  rw [hc, hall.locked, hlock]

/-- Twelve cells are drained, which a balance decision for cell 3 does not stop. -/
theorem balance_register_mirrors_set_draining :
    (Mirrors ((Balancer.init 12).run [.enableDrain, .disable 3 (by decide)])
        ((BalanceSet.init 12).run [.enableDrain, .disable 3 (by decide)])) ∧
      ((Balancer.init 12).run [.enableDrain, .disable 3 (by decide)]).ltc.dischargeSet =
        ((Balancer.init 12).run [.enableDrain]).ltc.dischargeSet := by
  obtain ⟨hmirrors, hdrain⟩ := balance_register_mirrors_set 12 le_rfl
    [.enableDrain, .disable 3 (by decide)]
  refine ⟨hmirrors, (hdrain [] [.disable 3 (by decide)] rfl ?_).1⟩
  intro op hop
  rw [List.mem_singleton.mp hop]
  rfl

/-- An ltc6803_unlock before disable_drain gives the set back to charger_update. -/
theorem unlocked_drain_changes :
    ¬ ∀ (numCells : ℕ) (before between : List BalanceOp) (op : BalanceOp), numCells ≤ 12 →
      .disableDrain ∉ between → op.ofCharger = true →
      ((Balancer.init numCells).run
          (before ++ .enableDrain :: (between ++ [op]))).ltc.dischargeSet =
        ((Balancer.init numCells).run (before ++ .enableDrain :: between)).ltc.dischargeSet := by
  intro h
  have hset := h 12 [] [.unlock] .disableAll le_rfl (by simp) rfl
  exact absurd hset (by decide +kernel)

end Battman
