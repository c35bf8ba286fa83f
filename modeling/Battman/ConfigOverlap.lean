import Battman.ConfigPowerCut

/-! A run that loses the configuration: fill a page, cut the transfer, and cut its recovery
between marking the new page valid and erasing the old one. -/
namespace Battman
open CutLogic RecordLog

/-- The power goes before the first operation that finds page 1 receiving. -/
def cutReceiving : Fates := fun mem _ =>
  if mem Page.page1.base = receiveData then .cut else .completes

/-- The power goes before the first operation that finds both pages valid. -/
def cutOverlapped : Fates := fun mem _ =>
  if mem Page.page0.base = validPage ∧ mem Page.page1.base = validPage then .cut
  else .completes

def setDeviceID : Call := .writeField 0 (fun _ => 7) 1

/-- The device ID is set to 7 until the page of 511 records is full, the next write is cut
in its transfer, and the reset is cut in the recovery. -/
def lostRun : List Event :=
  List.replicate 473 (setDeviceID, steady) ++
    [(setDeviceID, cutReceiving), (.init, cutOverlapped)]

def Fill (n : ℕ) (A : Pages) : Prop :=
  (∃ V, Normal V .page0 A) ∧ (A .page0).log.length = n

def Filled (n : ℕ) (b : Board) : Prop := ∃ A, Holds b.eeprom.flash.mem A ∧ Fill n A

variable {fates : Fates} {V W : Values} {b t : Board} {e : Eeprom} {A : Pages} {n : ℕ}
  {x d : UInt16} {is : List ℕ}

theorem cut_receiving_sound : cutReceiving.Sound := by
  intro mem history
  unfold cutReceiving
  split_ifs
  · exact Or.inr rfl
  · exact Or.inl rfl

theorem cut_overlapped_sound : cutOverlapped.Sound := by
  intro mem history
  unfold cutOverlapped
  split_ifs
  · exact Or.inr rfl
  · exact Or.inl rfl

theorem cut_receiving_iff {mem : Memory} {history : List FlashOp} (h : Holds mem A) :
    cutReceiving mem history = .cut ↔ (A .page1).header = receiveData := by
  rw [← (h .page1).header, cutReceiving]
  split_ifs with hc <;> simp [hc]

theorem cut_overlapped_iff {mem : Memory} {history : List FlashOp} (h : Holds mem A) :
    cutOverlapped mem history = .cut ↔ BothValid A := by
  have hb : BothValid A ↔
      mem Page.page0.base = validPage ∧ mem Page.page1.base = validPage := by
    rw [(h .page0).header, (h .page1).header]
    exact ⟨fun hA => ⟨hA _, hA _⟩, fun hA p => by cases p; exacts [hA.1, hA.2]⟩
  rw [hb, cutOverlapped]
  split_ifs with hc <;> simp [hc]

section Filling

theorem write_fill (hx : x ≠ erased) (hn : n < slots) :
    Spec fates (eeWriteVariable x d) (Fill n) (Done (Fill (n + 1))) fun _ => True := by
  rintro A e ⟨⟨V, hA⟩, hlen⟩ he
  simp only [eeWriteVariable, eeVerifyPageFullWriteVariable, wp_bind, wp_get,
    hA.find_write he.pages]
  refine wp_mono (wp_verify he hA.ne_erased hx d (hlen ▸ hn)) ?_
    fun t ht => ht.mono fun _ _ => trivial
  rintro st t ⟨rfl, ht⟩
  rw [if_neg (by decide), wp_pure]
  refine ⟨_, ⟨rfl, ⟨_, hA.append (x, d)⟩, ?_⟩, ht⟩
  rw [append_self, List.length_append, hlen, List.length_singleton]

theorem wp_store_each_fill (hr : Ready fates A b.eeprom) (hA : Fill n A)
    (ha : Addressable is) (hn : n + is.length ≤ slots) :
    wp (storeEach is) (fun _ t => ∃ B, Ready fates B t.eeprom ∧ Fill (n + is.length) B)
      (fun t => fates t.eeprom.flash.mem t.eeprom.flash.history = .cut) b := by
  induction is generalizing n A b with
  | nil => exact ⟨A, hr, hA⟩
  | cons i is ih =>
    rw [List.length_cons] at hn
    simp only [storeEach, storeHalfWord, wp_bind, wp_get, wp_onCut, wp_onPart, wp_modify,
      wp_pure]
    refine wp_mono (write_fill (virt_addr_ne_erased (ha i List.mem_cons_self)) (by omega) A _
      hA hr) ?_ fun t ht => ht.1
    rintro st e ⟨B, ⟨rfl, hB⟩, he⟩
    rw [if_pos rfl, if_pos rfl]
    rw [List.length_cons, show n + (is.length + 1) = n + 1 + is.length by omega]
    exact ih he hB (fun j hj => ha j (List.mem_cons_of_mem _ hj)) (by omega)

theorem first_boot_filled (hb : BlankPages b.eeprom.flash.mem) :
    Filled 38 (firstBoot b).board := by
  have hinit : Spec steady eeInit (· = fun _ => ⟨erased, []⟩) (Done Formatted) fun _ => True :=
    init_erased.mono (fun B hB p => by rw [hB]) (fun _ _ h => h) fun _ h => h
  have hrun : wp configInit (fun _ t => Filled 38 t)
      (fun t => steady t.eeprom.flash.mem t.eeprom.flash.history = .cut)
      (b.under steady).powerUp := by
    refine wp_config_init hinit (ready_cleared steady_sound (holds_blank hb) rfl rfl) ?_
      fun e he => he.1
    rintro st B e ⟨-, hB⟩ he
    have hN := hB.normal
    have hmissing : eeReadVariable e.flash.mem (virtAddr 0) = .notFound := read_variable
      ⟨B, .page0, he.pages, hN.header, hN.header_ne, hN.stores⟩ (virt_addr_mem (by decide))
    apply wp_read_all_defaults ⟨0, by decide, fun d => by rw [hmissing]; nofun⟩
    have hready : Ready steady B
        { e with flash := { e.flash with status := .complete } } :=
      ⟨he.pages, he.flash.clear⟩
    simp only [configWriteAll, utilsSysLockCnt, utilsSysUnlockCnt, wp_bind, wp_modify,
      wp_clear_flag, wp_pure]
    refine wp_mono (wp_store_each_fill (n := 0) hready ⟨⟨_, hN⟩, by rw [hB]; rfl⟩
      addressable_range (by simp [sizeofConfig, slots])) ?_ fun _ h => h
    rintro isOk t ⟨D, ht, hD⟩
    exact ⟨D, ht.pages, by simpa [sizeofConfig] using hD⟩
  obtain ⟨r, t, he, ht⟩ := steady_returns hrun
  rwa [show (firstBoot b).board = t from congrArg Prod.snd he]

end Filling

section Losing

/-- The half-word with the device ID has the value 7 in the ledger, whether or not its last
write was interrupted. -/
def Named (interrupted : ℕ) (b : Board) : Prop :=
  ∃ w is, b.ledger (virtAddr 0) = ⟨some w, is⟩ ∧ hiByte w = 7 ∧ is.length = interrupted ∧
    ∀ w' ∈ is, hiByte w' = 7

theorem device_id_written (config : ℕ → UInt8) :
    hiByte (halfWordAt (fieldWritten config 0 (fun _ => 7) 1) 0) = 7 := by
  rw [halfWordAt, hi_byte_word, fieldWritten, copyBytes, if_pos (by decide)]
  rfl

theorem write_fills (h : Filled n b) (hn : n < slots) :
    ∃ t, b.perform steady setDeviceID = (some true, t) ∧ Filled (n + 1) t ∧ Named 0 t := by
  obtain ⟨A, hold, hA⟩ := h
  have hr : Ready steady A (b.under steady).cleared.eeprom :=
    ready_cleared steady_sound hold rfl rfl
  obtain ⟨V, hN⟩ := hA.1
  have hfill : wp setDeviceID.run (fun _ t => Filled (n + 1) t)
      (fun t => steady t.eeprom.flash.mem t.eeprom.flash.history = .cut) (b.under steady) := by
    simp only [setDeviceID, Call.run, configWriteField, utilsSysLockCnt, utilsSysUnlockCnt,
      wp_map, wp_bind, wp_get, wp_modify, wp_clear_flag, wp_pure]
    refine wp_mono (wp_store_each_fill hr hA (addressable_field 0 1) hn) ?_ fun _ h => h
    rintro isOk t ⟨D, ht, hD⟩
    exact ⟨D, ht.pages, hD⟩
  have hwrite := wp_mono (wp_call_write_field (b := b.under steady) ⟨A, .page0, hr, hN⟩ 0
    (fun _ => 7) 1) (fun _ _ h => h) fun t (ht : CutSafe steady V _ t) => ht.1
  obtain ⟨r, t, he, hf, rfl, W, -, hs⟩ :=
    steady_returns (wp_mono (wp_and hfill hwrite) (fun _ _ h => h) fun _ h => h.1)
  refine ⟨t, he, hf, _, [], hs.ledger 0 (List.mem_singleton_self 0), ?_, rfl, by simp⟩
  exact device_id_written _

theorem fill_run {m : Machine} (hr : m.running = true) (h : Filled n m.board)
    (hN : n = 38 ∨ Named 0 m.board) (k : ℕ) (hk : n + k ≤ slots) :
    (m.run (List.replicate k (setDeviceID, steady))).running = true ∧
      Filled (n + k) (m.run (List.replicate k (setDeviceID, steady))).board ∧
      (n + k = 38 ∨ Named 0 (m.run (List.replicate k (setDeviceID, steady))).board) := by
  induction k generalizing m n with
  | zero => exact ⟨hr, h, hN⟩
  | succ k ih =>
    obtain ⟨t, ht, hf, hn⟩ := write_fills h (by omega)
    have hstep : m.step (setDeviceID, steady) = ⟨t, true⟩ := by
      rw [Machine.step_eq (Or.inl hr), ht]
      rfl
    rw [List.replicate_succ, Machine.run, List.foldl_cons, hstep,
      show n + (k + 1) = n + 1 + k by omega]
    exact ih rfl hf (Or.inr hn) (by omega)

theorem write_cut_receiving (he : Ready cutReceiving A e) (hA : Fill slots A) :
    wp (eeWriteVariable x d) (fun _ _ => False)
      (fun t => ∃ B, Holds t.flash.mem B ∧
        ∃ V, Moving V V .page0 B ∧ (B .page1).log = []) e := by
  obtain ⟨⟨V, hN⟩, hfull⟩ := hA
  simp only [eeWriteVariable, eeVerifyPageFullWriteVariable, wp_bind, wp_get,
    hN.find_write he.pages]
  refine wp_verify_full he hN.ne_erased x d hfull ?_
  simp only [if_true, eePageTransfer, wp_bind, wp_get,
    find_read he.pages hN.header hN.header_ne]
  refine wp_seq (receive_spec A e hN he) ?_ ?_
  · rintro st t ⟨B, ⟨rfl, hB, hlog⟩, ht⟩
    have hcut : cutReceiving t.flash.mem t.flash.history = .cut :=
      (cut_receiving_iff ht.pages).mpr hB.receiving
    simp only [if_true, checked, eeVerifyPageFullWriteVariable, wp_bind, wp_get,
      hB.find_write ht.pages]
    refine wp_mono (wp_verify_cut (Q := fun _ _ => False) ht hB.ne_erased x d
      (by rw [hlog]; decide) hcut)
      (fun _ _ h => h.elim) ?_
    rintro u ⟨-, D, rfl, hold⟩
    exact ⟨D, hold, V, hB, hlog⟩
  · rintro t ⟨hcut, B, hB, hold⟩
    have := (cut_receiving_iff hold).mp hcut
    rw [show B .page1 = ⟨erased, []⟩ from hB.other] at this
    exact absurd this erased_ne_receive

/-- The recovery goes on to mark page 1 valid, and is cut before it erases page 0. -/
theorem init_cut_overlapped (he : Ready cutOverlapped A e) (hA : Moving V V .page0 A)
    (hlog : (A .page1).log = []) :
    wp eeInit (fun _ _ => False) (fun t => ∃ B, Holds t.flash.mem B ∧ BothValid B) e := by
  have hnever {B : Pages} {t : Eeprom} (hB : Moving V V .page0 B) :
      ¬ (cutOverlapped t.flash.mem t.flash.history = .cut ∧ Holds t.flash.mem B) := by
    rintro ⟨hcut, hold⟩
    exact hB.header_ne ((cut_overlapped_iff hold).mp hcut Page.page1)
  rw [wp_init_moving he.pages hA.header hA.receiving]
  refine wp_seq (recover_loop (List.Subset.refl _) (by decide) 160 A e
    ⟨carrying_start hA, ?_⟩ he) ?_ ?_
  · rw [show (A Page.page0.other).log = [] from hlog, virt_add_var_tab_length]
    rfl
  · rintro st t ⟨B, ⟨rfl, hB⟩ | ⟨-, -, -, hlt⟩, ht⟩
    · rw [if_pos rfl]
      refine wp_seq (overlap_spec B t hB ht) ?_ ?_
      · rintro st u ⟨D, ⟨rfl, hD⟩, hu⟩
        rw [if_pos rfl]
        refine wp_mono (wp_erase_cut (Q := fun _ _ => False) hu _
          ((cut_overlapped_iff hu.pages).mpr hD.both)) (fun _ _ h => h.elim) ?_
        rintro v ⟨-, E, rfl, hold⟩
        exact ⟨E, hold, hD.both⟩
      · rintro u ⟨hcut, D, hD, hold⟩
        exact absurd ⟨hcut, hold⟩ (hnever hD)
    · exact absurd hlt (by decide)
  · rintro t ⟨hcut, B, hB, hold⟩
    exact absurd ⟨hcut, hold⟩ (hnever hB)

theorem wp_cut {σ α : Type} {x : Cuttable σ α} {C : σ → Prop} {s : σ}
    (h : wp x (fun _ _ => False) C s) : ∃ t, exec x s = (none, t) ∧ C t := by
  unfold wp at h
  rcases he : exec x s with ⟨_ | a, t⟩ <;> rw [he] at h
  · exact ⟨t, rfl, h⟩
  · exact h.elim

theorem interrupt_ledger (b : Board) (v d : UInt16) : (b.interrupt v d).ledger v =
    ⟨(b.ledger v).written, d :: (b.ledger v).interrupted⟩ := Function.update_self ..

theorem transfer_cut (h : Filled slots b) (hN : Named 0 b) :
    ∃ t, b.perform cutReceiving setDeviceID = (none, t) ∧ Named 1 t ∧
      ∃ B, Holds t.eeprom.flash.mem B ∧ ∃ V, Moving V V .page0 B ∧ (B .page1).log = [] := by
  obtain ⟨A, hold, hA⟩ := h
  obtain ⟨w, is, hl, hw, his, hall⟩ := hN
  have hr : Ready cutReceiving A (b.under cutReceiving).cleared.eeprom :=
    ready_cleared cut_receiving_sound hold rfl rfl
  refine wp_cut (x := setDeviceID.run) ?_
  simp only [setDeviceID, Call.run, configWriteField, utilsSysLockCnt, utilsSysUnlockCnt,
    wp_map, wp_bind, wp_get, wp_modify, wp_clear_flag]
  change wp (storeEach [0]) _ _ _
  simp only [storeEach, storeHalfWord, wp_bind, wp_get, wp_onCut, wp_onPart, wp_modify, wp_pure]
  refine wp_mono (write_cut_receiving hr hA)
    (fun _ _ h => h.elim) ?_
  rintro e ⟨B, hB⟩
  let w' := halfWordAt (fieldWritten b.config 0 (fun _ => 7) 1) 0
  refine ⟨⟨w, w' :: is, ?_, hw, by rw [List.length_cons, his], ?_⟩, B, hB⟩
  · refine (interrupt_ledger _ _ w').trans ?_
    exact congrArg (fun l => Ledger.mk l.written (w' :: l.interrupted)) hl
  · rintro d hd
    rcases List.mem_cons.mp hd with rfl | hd
    · exact device_id_written _
    · exact hall d hd

theorem recovery_cut {k : ℕ} (hN : Named k b)
    (h : ∃ B, Holds b.eeprom.flash.mem B ∧ ∃ V, Moving V V .page0 B ∧ (B .page1).log = []) :
    ∃ t, b.perform cutOverlapped .init = (none, t) ∧ Named k t ∧ Doubled t := by
  obtain ⟨B, hold, V, hB, hlog⟩ := h
  refine wp_cut (x := Call.init.run) ?_
  rw [Call.run, wp_bind, wp_modify]
  simp only [configInit, wp_bind, wp_clear_flag, wp_onPart]
  refine wp_mono (init_cut_overlapped (ready_cleared (b := (b.under cutOverlapped).powerUp)
    cut_overlapped_sound hold rfl rfl) hB hlog) (fun _ _ h => h.elim) ?_
  exact fun e he => ⟨hN, he⟩

/-- The configuration is lost: the next reset loads the defaults, although the device ID
was never written but with 7. -/
theorem cut_recovery_loses_configuration :
    (∀ e ∈ lostRun, e.2.Sound) ∧
      ∃ t, ((firstBoot blankBoard).run lostRun).board.perform steady .init =
          (some false, t) ∧ t.config 0 = 1 ∧
        ¬ Allowed ((firstBoot blankBoard).run lostRun).board.ledger (virtAddr 0)
          (some (halfWordAt t.config 0)) := by
  constructor
  · intro e he
    rcases List.mem_append.mp he with he | he
    · rw [List.eq_of_mem_replicate he]
      exact steady_sound
    · simp only [List.mem_cons, List.not_mem_nil, or_false] at he
      rcases he with rfl | rfl
      · exact cut_receiving_sound
      · exact cut_overlapped_sound
  · obtain ⟨hr, hf, hN⟩ := fill_run (m := firstBoot blankBoard) rfl
      (first_boot_filled fun _ _ _ => rfl) (Or.inl rfl) 473 (by decide)
    rw [lostRun, Machine.run_append]
    generalize (firstBoot blankBoard).run (List.replicate 473 (setDeviceID, steady)) = m at *
    obtain ⟨t, ht, hN, hB⟩ := transfer_cut hf (hN.resolve_left (by decide))
    obtain ⟨u, hu, ⟨w, is, hl, hw, -, hall⟩, hd⟩ := recovery_cut hN hB
    have hstep : m.step (setDeviceID, cutReceiving) = ⟨t, false⟩ := by
      rw [Machine.step_eq (Or.inl hr), ht]
      rfl
    have hstep' : Machine.step ⟨t, false⟩ (.init, cutOverlapped) = ⟨u, false⟩ := by
      rw [Machine.step_eq (Or.inr rfl), hu]
      rfl
    rw [Machine.run, List.foldl_cons, List.foldl_cons, List.foldl_nil, hstep, hstep']
    obtain ⟨v, hv, hs⟩ := hd.reset
    have hzero : v.config 0 = 1 := by
      rw [hs 0 (by decide)]
      rfl
    refine ⟨v, hv, hzero, ?_⟩
    rintro ⟨d, hd, hdl⟩
    have hseven : hiByte d = 7 := by
      rw [hl] at hdl
      rcases hdl with hdl | hdl
      · rw [← Option.some.inj hdl, hw]
      · exact hall d hdl
    rw [← Option.some.inj hd, halfWordAt, hi_byte_word, Nat.mul_zero, hzero] at hseven
    exact absurd hseven (by decide)

end Losing

end Battman
