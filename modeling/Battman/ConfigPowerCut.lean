import Battman.ConfigMirror

/-! Runs of calls in which the power may be cut before any flash operation. The next
config_init that returns has loaded each half-word with its last complete value or one whose
write was interrupted, unless a cut fell where both pages are marked valid: then it loads
the defaults. -/
namespace Battman
open CutLogic RecordLog

structure Machine where
  board : Board
  running : Bool

abbrev Event := Call × Fates

/-- Without power nothing happens but a reset. -/
def Machine.step (m : Machine) (e : Event) : Machine :=
  match m.running, e.1 with
  | false, .writeField .. => m
  | false, .writeAll => m
  | _, c => ⟨(m.board.perform e.2 c).2, (m.board.perform e.2 c).1.isSome⟩

def Machine.run (m : Machine) (es : List Event) : Machine := es.foldl Machine.step m

/-- Both page headers read VALID_PAGE: EE_Init is between marking the new page and erasing
the old one. -/
def Overlapped (b : Board) : Prop := ∀ p : Page, b.eeprom.flash.mem p.base = validPage

/-- No cut of the run falls where both pages are valid. -/
def Clear : Machine → List Event → Prop
  | _, [] => True
  | m, e :: es =>
    ((m.step e).running = false → ¬ Overlapped (m.step e).board) ∧ Clear (m.step e) es

def firstBoot (b : Board) : Machine := ⟨(b.perform steady .init).2, true⟩

/-- The next config_init that returns finds the configuration, and each half-word is one
that the ledger accounts for. -/
def Survives (b : Board) : Prop :=
  ∀ fates : Fates, fates.Sound → ∀ isOk t, b.perform fates .init = (some isOk, t) →
    isOk = true ∧
      ∀ i < sizeofConfig / 2, Allowed b.ledger (virtAddr i) (some (halfWordAt t.config i))

def Operable (b : Board) : Prop :=
  ∃ A, Holds b.eeprom.flash.mem A ∧ Settled (Allowed b.ledger) A

def Recoverable (b : Board) : Prop :=
  ∃ A, Holds b.eeprom.flash.mem A ∧ Safe (Allowed b.ledger) A

def Doubled (b : Board) : Prop := ∃ A, Holds b.eeprom.flash.mem A ∧ BothValid A

def Invariant (m : Machine) : Prop :=
  (m.running = true → Operable m.board) ∧ (m.running = false → Recoverable m.board)

variable {fates : Fates} {V W : Values} {b t : Board} {A : Pages} {p : Page} {is : List ℕ}

theorem Operable.recoverable (h : Operable b) : Recoverable b := by
  obtain ⟨A, hold, hA⟩ := h
  exact ⟨A, hold, hA.safe⟩

theorem Recoverable.not_overlapped (h : Recoverable b) : ¬ Overlapped b := by
  obtain ⟨A, hold, hA⟩ := h
  intro ho
  have hb (p : Page) : (A p).header = validPage := by rw [← (hold p).header, ho p]
  cases hA with
  | @normal V p h _ => exact h.header_ne (hb p.other)
  | @moving V W p h _ _ => exact h.header_ne (hb p.other)
  | @moved W p h _ => exact receive_ne_valid (h.receiving.symm.trans (hb p.other))

theorem Doubled.overlapped (h : Doubled b) : Overlapped b := by
  obtain ⟨A, hold, hA⟩ := h
  intro p
  rw [(hold p).header, hA p]

theorem wp_store_each_stuck (hr : Ready fates A b.eeprom) (hA : Moving V W p A)
    (hfull : (A p.other).log.length = slots) (hV : Agrees (Allowed b.ledger) V)
    (hW : Agrees (Allowed b.ledger) W) :
    wp (storeEach is) (fun _ t => Operable t) Operable b := by
  cases is with
  | nil => exact ⟨A, hr.pages, .stuck hA hfull hV hW⟩
  | cons i is =>
    simp only [storeEach, storeHalfWord, wp_bind, wp_get, wp_onCut, wp_onPart, wp_modify,
      wp_pure]
    refine wp_mono (write_stuck hr hA hfull) ?_ ?_
    · rintro st e ⟨hst, hold⟩
      rw [if_neg hst, if_neg hst, wp_pure]
      exact ⟨A, hold, .stuck hA hfull hV hW⟩
    · exact fun e hold =>
        ⟨A, hold, .stuck hA hfull (agrees_interrupt hV).1 (agrees_interrupt hW).1⟩

theorem wp_store_each_settled (hr : Ready fates A b.eeprom)
    (hA : Settled (Allowed b.ledger) A) (ha : Addressable is) :
    wp (storeEach is) (fun _ t => Operable t) Recoverable b := by
  cases hA with
  | @normal V p hA hV =>
    refine wp_mono (wp_store_each ⟨A, p, hr, hA⟩ ha) ?_ ?_
    · rintro isOk t ⟨-, W, ⟨B, q, ht, hB⟩, hs⟩
      exact ⟨B, ht.pages, .normal hB (hs.agrees hV)⟩
    · rintro t ⟨-, hsafe⟩
      obtain ⟨B, hB, hold⟩ := hsafe hV
      exact ⟨B, hold, hB⟩
  | stuck hA hfull hV hW =>
    exact wp_mono (wp_store_each_stuck hr hA hfull hV hW) (fun _ _ h => h)
      fun _ h => h.recoverable

theorem wp_write (hs : fates.Sound) (h : Operable b) {c : Call} (hc : c ≠ .init) :
    wp c.run (fun _ t => Operable t) Recoverable (b.under fates) := by
  obtain ⟨A, hold, hA⟩ := h
  have hr : Ready fates A (b.under fates).cleared.eeprom := ready_cleared hs hold rfl rfl
  cases c with
  | init => exact absurd rfl hc
  | writeField addr data size =>
    simp only [Call.run, configWriteField, utilsSysLockCnt, utilsSysUnlockCnt, wp_map, wp_bind,
      wp_get, wp_modify, wp_clear_flag, wp_pure]
    exact wp_store_each_settled hr hA (addressable_field addr size)
  | writeAll =>
    simp only [Call.run, configWriteAll, utilsSysLockCnt, utilsSysUnlockCnt, wp_bind,
      wp_modify, wp_clear_flag, wp_pure]
    exact wp_store_each_settled hr hA addressable_range

theorem wp_reset (hs : fates.Sound) (h : Recoverable b) :
    wp Call.init.run
      (fun isOk t => isOk = true ∧ Operable t ∧
        ∀ i < sizeofConfig / 2, Allowed b.ledger (virtAddr i) (some (halfWordAt t.config i)))
      (fun t => Recoverable t ∨ Doubled t) (b.under fates) := by
  obtain ⟨A, hold, hA⟩ := h
  have hrun := wp_init_safe (b := (b.under fates).powerUp) hs hold rfl rfl hA
  rw [Call.run, wp_bind, wp_modify]
  refine wp_mono hrun ?_ ?_
  · rintro isOk t ⟨hok, hl, ⟨B, hB, hold'⟩, hv⟩
    exact ⟨hok, ⟨B, hold', hl ▸ hB⟩, hv⟩
  · rintro t ⟨hl, B, hB | hB, hold'⟩
    · exact Or.inl ⟨B, hold', hl ▸ hB⟩
    · exact Or.inr ⟨B, hold', hB⟩

theorem Machine.run_append (m : Machine) (es es' : List Event) :
    m.run (es ++ es') = (m.run es).run es' := List.foldl_append

theorem Machine.step_eq {m : Machine} {e : Event} (h : m.running = true ∨ e.1 = .init) :
    m.step e = ⟨(m.board.perform e.2 e.1).2, (m.board.perform e.2 e.1).1.isSome⟩ := by
  rcases m with ⟨b, _ | _⟩ <;> rcases e with ⟨_ | _ | _, fates⟩ <;> simp_all [Machine.step]

theorem Machine.step_off {m : Machine} {e : Event} (h : m.running = false) (he : e.1 ≠ .init) :
    m.step e = m := by
  rcases m with ⟨b, _ | _⟩ <;> rcases e with ⟨_ | _ | _, fates⟩ <;> simp_all [Machine.step]

theorem invariant_or_doubled {c : Call}
    (h : wp c.run (fun _ t => Operable t) (fun t => Recoverable t ∨ Doubled t)
      (b.under fates)) :
    Invariant ⟨(b.perform fates c).2, (b.perform fates c).1.isSome⟩ ∨
      (b.perform fates c).1.isSome = false ∧ Doubled (b.perform fates c).2 := by
  unfold wp at h
  unfold Board.perform
  rcases he : exec c.run (b.under fates) with ⟨_ | isOk, t⟩ <;> rw [he] at h
  · exact h.imp (fun h => ⟨nofun, fun _ => h⟩) fun h => ⟨rfl, h⟩
  · exact Or.inl ⟨fun _ => h, nofun⟩

theorem Invariant.recoverable {m : Machine} (h : Invariant m) : Recoverable m.board := by
  cases hr : m.running with
  | true => exact (h.1 hr).recoverable
  | false => exact h.2 hr

/-- One event: the invariant stays, or the power was cut between two valid pages. -/
theorem step_outcome {m : Machine} {e : Event} (h : Invariant m) (hs : e.2.Sound) :
    Invariant (m.step e) ∨ (m.step e).running = false ∧ Doubled (m.step e).board := by
  obtain ⟨c, fates⟩ := e
  by_cases hc : c = .init
  · subst hc
    rw [Machine.step_eq (Or.inr rfl)]
    exact invariant_or_doubled (wp_mono (wp_reset hs h.recoverable) (fun _ _ h => h.2.1)
      fun _ h => h)
  · cases hr : m.running with
    | true =>
      rw [Machine.step_eq (Or.inl hr)]
      exact invariant_or_doubled (wp_mono (wp_write hs (h.1 hr) hc) (fun _ _ h => h)
        fun _ h => Or.inl h)
    | false =>
      rw [Machine.step_off hr hc]
      exact Or.inl h

theorem invariant_step {m : Machine} {e : Event} (h : Invariant m) (hs : e.2.Sound)
    (ho : (m.step e).running = false → ¬ Overlapped (m.step e).board) :
    Invariant (m.step e) := by
  rcases step_outcome h hs with h' | ⟨hr, hd⟩
  · exact h'
  · exact absurd hd.overlapped (ho hr)

theorem invariant_run {m : Machine} (h : Invariant m) {es : List Event}
    (hs : ∀ e ∈ es, e.2.Sound) (hc : Clear m es) : Invariant (m.run es) := by
  induction es generalizing m with
  | nil => exact h
  | cons e es ih =>
    exact ih (invariant_step h (hs e List.mem_cons_self) hc.1)
      (fun e' he' => hs e' (List.mem_cons_of_mem _ he')) hc.2

theorem invariant_first_boot (hb : BlankPages b.eeprom.flash.mem) : Invariant (firstBoot b) := by
  have hrun := wp_init_format (b := (b.under steady).powerUp) steady_sound (holds_blank hb) rfl
    rfl (Or.inl fun _ => rfl)
  obtain ⟨r, t, he, -, -, W, ⟨A, p, hr, hA⟩, hst⟩ := steady_returns hrun
  have hboard : (firstBoot b).board = t := congrArg Prod.snd he
  refine ⟨fun _ => ?_, nofun⟩
  rw [hboard]
  refine ⟨A, hr.pages, .normal hA fun v hv => ?_⟩
  obtain ⟨i, hi, rfl⟩ := mem_config_vars.mp hv
  have hmem := List.mem_range.mpr hi
  exact ⟨_, hst.values i hmem, Or.inl (by rw [hst.ledger i hmem])⟩

theorem Recoverable.survives (h : Recoverable b) : Survives b := by
  intro fates hf isOk t ht
  have hw := wp_reset hf h
  rw [wp, ← Board.perform, ht] at hw
  exact ⟨hw.1, hw.2.2⟩

theorem Doubled.reset (h : Doubled b) :
    ∃ t, b.perform steady .init = (some false, t) ∧
      SameBytes t.config (overlay (fun _ => 0) defaultConfiguration) := by
  obtain ⟨A, hold, hA⟩ := h
  have hrun := wp_init_format (b := (b.under steady).powerUp) steady_sound hold rfl rfl
    (Or.inr hA)
  obtain ⟨r, t, he, rfl, hc, -⟩ := steady_returns hrun
  exact ⟨t, he, fun i _ => congrFun hc i⟩

theorem Doubled.not_survives (h : Doubled b) : ¬ Survives b := by
  intro hs
  obtain ⟨t, ht, -⟩ := h.reset
  exact Bool.false_ne_true (hs steady steady_sound false t ht).1

theorem clear_append {m : Machine} {es es' : List Event} :
    Clear m (es ++ es') ↔ Clear m es ∧ Clear (m.run es) es' := by
  induction es generalizing m with
  | nil => exact (and_iff_right trivial).symm
  | cons e es ih => exact (and_congr_right fun _ => ih).trans and_assoc.symm

theorem clear_of_survives {m : Machine} (h : Invariant m) {es : List Event}
    (hs : ∀ e ∈ es, e.2.Sound)
    (hall : ∀ pre post, es = pre ++ post → Survives (m.run pre).board) : Clear m es := by
  induction es generalizing m with
  | nil => trivial
  | cons e es ih =>
    have he : Survives (m.step e).board := hall [e] es rfl
    have hinv : Invariant (m.step e) :=
      (step_outcome h (hs e List.mem_cons_self)).resolve_right fun hd => hd.2.not_survives he
    refine ⟨fun hr => (hinv.2 hr).not_overlapped, ?_⟩
    refine ih hinv (fun e' he' => hs e' (List.mem_cons_of_mem _ he')) fun pre post hp => ?_
    exact hall (e :: pre) post (by rw [hp, List.cons_append])

/-- From the first config_init on, the configuration survives at every point of a run
exactly when no cut of the run falls where both pages are marked valid. -/
theorem configuration_survives_iff (b : Board) (hb : BlankPages b.eeprom.flash.mem)
    (es : List Event) (hs : ∀ e ∈ es, e.2.Sound) :
    (∀ pre post, es = pre ++ post → Survives ((firstBoot b).run pre).board) ↔
      Clear (firstBoot b) es := by
  constructor
  · exact clear_of_survives (invariant_first_boot hb) hs
  · rintro hc pre post rfl
    exact (invariant_run (invariant_first_boot hb)
      (fun e he => hs e (List.mem_append_left _ he)) (clear_append.mp hc).1).recoverable.survives

/-- A field write cut before its first flash operation, then a reset. -/
theorem configuration_survives_iff_cut_write :
    (∀ pre post, [(Call.writeField 0 (fun _ => 7) 1, fun _ _ => Fate.cut), (.init, steady)] =
        pre ++ post → Survives ((firstBoot blankBoard).run pre).board) ↔
      Clear (firstBoot blankBoard)
        [(Call.writeField 0 (fun _ => 7) 1, fun _ _ => Fate.cut), (.init, steady)] :=
  configuration_survives_iff blankBoard (fun _ _ _ => rfl) _ (by
    intro e he
    rcases List.mem_cons.mp he with rfl | he
    · exact fun _ _ => Or.inr rfl
    · rw [List.mem_singleton.mp he]
      exact steady_sound)

end Battman
