import Battman.FlashTenants

/-! Runs of configuration calls and firmware packets in any order, with power cuts anywhere:
the program in flash stays as it is, and the stored configuration is what the configuration
calls alone make of it. -/
namespace Battman
open CutLogic RecordLog

inductive FwPacket where
  | eraseNewFw
  | writeNewFw (data : ℕ → UInt8) (len : UInt32)

def FwPacket.Fits : FwPacket → Prop
  | .eraseNewFw => True
  | .writeNewFw data len => FitsStaging data len

/-- The rounds of a write that fits are fewer than `len`. -/
def FwPacket.run : FwPacket → BoardM (Option (List UInt8))
  | .eraseNewFw => some <$> processEraseNewFw
  | .writeNewFw data len => processWriteNewFw len.toNat data len

/-- A configuration call or a packet, with what becomes of its flash operations. -/
inductive Served where
  | config (e : Event)
  | firmware (packet : FwPacket) (fates : Fates)

def Served.Fits : Served → Prop
  | .config _ => True
  | .firmware packet _ => packet.Fits

/-- Without power nothing happens but a reset. -/
def Machine.serve (m : Machine) : Served → Machine
  | .config e => m.step e
  | .firmware packet fates =>
    if m.running then
      ⟨(exec packet.run (m.board.under fates)).2, (exec packet.run (m.board.under fates)).1.isSome⟩
    else m

def Machine.serveAll (m : Machine) (xs : List Served) : Machine := xs.foldl Machine.serve m

/-- No flash operation of a configuration call fails by itself; those of a packet may. -/
def Served.Sound : Served → Prop
  | .config e => e.2.Sound
  | .firmware .. => True

def Served.Steady : Served → Prop
  | .config e => e.2 = steady ∧ e.1.InBounds
  | .firmware .. => True

def ServedClear : Machine → List Served → Prop
  | _, [] => True
  | m, .config e :: xs =>
    ((m.step e).running = false → ¬ Overlapped (m.step e).board) ∧ ServedClear (m.step e) xs
  | m, .firmware packet fates :: xs => ServedClear (m.serve (.firmware packet fates)) xs

def plainAfter : Machine → List Served → (ℕ → UInt8) → ℕ → UInt8
  | _, [], a => a
  | m, .config e :: xs, a => plainAfter (m.step e) xs (if m.running then e.1.plain a else a)
  | m, .firmware packet fates :: xs, a => plainAfter (m.serve (.firmware packet fates)) xs a

def interruptedUpload : List Served :=
  [.firmware (.writeNewFw (fun _ => 0) 6) fun _ _ => .cut, .config (.init, steady),
    .config (.writeField 0 (fun _ => 7) 1, steady)]

variable {m : Machine} {b t : Board} {a : ℕ → UInt8} {x : Served} {xs : List Served}
  {packet : FwPacket} {fates : Fates}

section Step

theorem interrupted_fits : ∀ x ∈ interruptedUpload, x.Fits := by
  simp only [interruptedUpload, List.forall_mem_cons, Served.Fits, FwPacket.Fits]
  exact ⟨⟨by decide, by decide, by decide⟩, trivial, trivial, fun _ => nofun⟩

theorem preserves_packet (h : packet.Fits) : Preserves Board.beside packet.run := by
  cases packet with
  | eraseNewFw => exact preserves_erase_new_fw.map _
  | writeNewFw data len => exact preserves_write_new_fw h _

theorem serve_firmware_beside (h : packet.Fits) :
    (m.serve (.firmware packet fates)).board.beside = m.board.beside := by
  rw [Machine.serve]
  by_cases hr : m.running = true
  · rw [if_pos hr]
    exact (preserves_packet h).exec (m.board.under fates)
  · rw [if_neg hr]

theorem step_outside (m : Machine) (e : Event) :
    (m.step e).board.outside pagesArea = m.board.outside pagesArea := by
  by_cases h : m.running = true ∨ e.1 = .init
  · rw [Machine.step_eq h]
    exact (preserves_call e.1).exec (m.board.under e.2)
  · obtain ⟨hr, hc⟩ := not_or.mp h
    rw [Machine.step_off (Bool.eq_false_iff.mpr hr) hc]

theorem outside_at {S : Set ℕ} (h : t.outside S = b.outside S) {a : ℕ} (ha : a ∉ S) :
    t.eeprom.flash.mem a = b.eeprom.flash.mem a := congrFun h ⟨a, ha⟩

theorem page_not_staged {p : Page} {a : ℕ} (h : InPage p a) : a ∉ stagingArea := by
  have hbase : newFwAddr.toNat = 134316032 := rfl
  have hstart : eepromStartAddress = 134219776 := rfl
  rintro ⟨hlow, -⟩
  cases p <;> (simp only [InPage, Page.base, pageSize] at h; omega)

end Step

section Program

/-- Whatever is served, and whatever becomes of it, no half-word outside the two areas
changes. -/
theorem program_kept (m : Machine) (xs : List Served) (hxs : ∀ x ∈ xs, x.Fits) {a : ℕ}
    (ha : a ∉ pagesArea ∪ stagingArea) :
    (m.serveAll xs).board.eeprom.flash.mem a = m.board.eeprom.flash.mem a := by
  induction xs generalizing m with
  | nil => rfl
  | cons x xs ih =>
    have hstep : (m.serve x).board.eeprom.flash.mem a = m.board.eeprom.flash.mem a := by
      cases x with
      | config e => exact outside_at (step_outside m e) fun h => ha (Or.inl h)
      | firmware packet fates =>
        have hkept : (m.serve (.firmware packet fates)).board.beside = m.board.beside :=
          serve_firmware_beside (hxs (.firmware packet fates) List.mem_cons_self)
        exact outside_at (congrArg Prod.fst hkept) fun h => ha (Or.inr h)
    rw [← hstep]
    exact ih (m.serve x) fun y hy => hxs y (List.mem_cons_of_mem x hy)

end Program

section Surviving

theorem holds_beside {A : Pages} (h : t.beside = b.beside) (hold : Holds b.eeprom.flash.mem A) :
    Holds t.eeprom.flash.mem A := fun p =>
  (hold p).congr fun _ ha => outside_at (congrArg Prod.fst h) (page_not_staged ha)

theorem operable_beside (h : t.beside = b.beside) (hb : Operable b) : Operable t := by
  obtain ⟨A, hold, hA⟩ := hb
  have hl : t.ledger = b.ledger := congrArg (fun k => k.2.2) h
  exact ⟨A, holds_beside h hold, hl ▸ hA⟩

theorem invariant_firmware (h : Invariant m) (hp : packet.Fits) :
    Invariant (m.serve (.firmware packet fates)) := by
  by_cases hr : m.running = true
  · have hop : Operable (m.serve (.firmware packet fates)).board :=
      operable_beside (serve_firmware_beside hp) (h.1 hr)
    exact ⟨fun _ => hop, fun _ => hop.recoverable⟩
  · rw [Machine.serve, if_neg hr]
    exact h

/-- With firmware packets between the configuration calls, cut off anywhere, the configuration
survives at every point exactly when no configuration call is cut where both pages are
valid. -/
theorem configuration_survives_uploads (b : Board) (hb : BlankPages b.eeprom.flash.mem)
    (xs : List Served) (hs : ∀ x ∈ xs, x.Sound) (hf : ∀ x ∈ xs, x.Fits) :
    (∀ pre post, xs = pre ++ post → Survives ((firstBoot b).serveAll pre).board) ↔
      ServedClear (firstBoot b) xs := by
  have hrun (m : Machine) (hm : Invariant m) :
      (∀ pre post, xs = pre ++ post → Survives (m.serveAll pre).board) ↔ ServedClear m xs := by
    induction xs generalizing m with
    | nil =>
      refine iff_of_true (fun pre post h => ?_) trivial
      rw [(List.append_eq_nil_iff.mp h.symm).1]
      exact hm.recoverable.survives
    | cons x xs ih =>
      have hs' : ∀ y ∈ xs, y.Sound := fun y hy => hs y (List.mem_cons_of_mem x hy)
      have hf' : ∀ y ∈ xs, y.Fits := fun y hy => hf y (List.mem_cons_of_mem x hy)
      have hsplit : (∀ pre post, x :: xs = pre ++ post → Survives (m.serveAll pre).board) ↔
          ∀ pre post, xs = pre ++ post → Survives ((m.serve x).serveAll pre).board := by
        constructor
        · intro h pre post he
          exact h (x :: pre) post (by rw [he, List.cons_append])
        · intro h pre post he
          cases pre with
          | nil => exact hm.recoverable.survives
          | cons y pre =>
            obtain ⟨rfl, hrest⟩ := List.cons.inj he
            exact h pre post hrest
      rw [hsplit]
      cases x with
      | config e =>
        constructor
        · intro h
          have hinv : Invariant (m.step e) :=
            (step_outcome hm (hs (.config e) List.mem_cons_self)).resolve_right fun hd =>
              hd.2.not_survives (h [] xs rfl)
          exact ⟨fun hr => (hinv.2 hr).not_overlapped, (ih hs' hf' _ hinv).mp h⟩
        · rintro ⟨hcut, hclear⟩
          have hinv := invariant_step hm (hs (.config e) List.mem_cons_self) hcut
          exact (ih hs' hf' _ hinv).mpr hclear
      | firmware packet fates =>
        exact ih hs' hf' _
          (invariant_firmware hm (hf (.firmware packet fates) List.mem_cons_self))
  exact hrun _ (invariant_first_boot hb)

theorem configuration_survives_uploads_interrupted :
    (∀ pre post, interruptedUpload = pre ++ post →
        Survives ((firstBoot blankBoard).serveAll pre).board) ↔
      ServedClear (firstBoot blankBoard) interruptedUpload := by
  refine configuration_survives_uploads blankBoard (fun _ _ _ => rfl) _ ?_ interrupted_fits
  simp only [interruptedUpload, List.forall_mem_cons]
  exact ⟨trivial, steady_sound, steady_sound, fun _ => nofun⟩

end Surviving

section Refining

/-- The pages hold the array `a`; so does the RAM while the power is on. -/
structure KeepsArray (a : ℕ → UInt8) (m : Machine) : Prop where
  pages : ∃ config, Mirror a { m.board with config := config }
  ram : m.running = true → Mirror a m.board

theorem Mirror.beside (h : Mirror a b) (ht : t.beside = b.beside) : Mirror a t := by
  obtain ⟨A, p, V, hold, hA, hV⟩ := h.pages
  have hc : t.config = b.config := congrArg (fun k => k.2.1) ht
  exact ⟨⟨A, p, V, holds_beside ht hold, hA, hc ▸ hV⟩, hc ▸ h.same⟩

theorem Mirror.keeps (h : Mirror a m.board) : KeepsArray a m := ⟨⟨_, h⟩, fun _ => h⟩

theorem KeepsArray.firmware (h : KeepsArray a m) (hp : packet.Fits) :
    KeepsArray a (m.serve (.firmware packet fates)) := by
  by_cases hr : m.running = true
  · exact ((h.ram hr).beside (serve_firmware_beside hp)).keeps
  · rw [Machine.serve, if_neg hr]
    exact h

theorem perform_init_config (b : Board) (config : ℕ → UInt8) :
    Board.perform { b with config := config } fates .init = b.perform fates .init := rfl

theorem KeepsArray.config (h : KeepsArray a m) {c : Call} (hc : c.InBounds) :
    KeepsArray (if m.running then c.plain a else a) (m.step (c, steady)) := by
  by_cases hr : m.running = true
  · obtain ⟨t, ht, -, hm⟩ := mirror_step (h.ram hr) hc
    rw [Machine.step_eq (Or.inl hr), if_pos hr]
    exact Mirror.keeps (by rwa [ht])
  · rw [if_neg hr]
    by_cases hi : c = .init
    · obtain ⟨config, hm⟩ := h.pages
      obtain ⟨t, ht, -, hm⟩ := mirror_step hm (c := c) hc
      subst hi
      rw [perform_init_config] at ht
      rw [Machine.step_eq (Or.inr rfl)]
      exact Mirror.keeps (by rwa [ht])
    · rw [Machine.step_off (Bool.eq_false_iff.mpr hr) hi]
      exact h

theorem keeps_run (h : KeepsArray a m) (xs : List Served) (hs : ∀ x ∈ xs, x.Steady)
    (hf : ∀ x ∈ xs, x.Fits) : KeepsArray (plainAfter m xs a) (m.serveAll xs) := by
  induction xs generalizing m a with
  | nil => exact h
  | cons x xs ih =>
    have hs' : ∀ y ∈ xs, y.Steady := fun y hy => hs y (List.mem_cons_of_mem x hy)
    have hf' : ∀ y ∈ xs, y.Fits := fun y hy => hf y (List.mem_cons_of_mem x hy)
    cases x with
    | config e =>
      obtain ⟨c, fates⟩ := e
      obtain ⟨rfl, hc⟩ := hs (.config (c, fates)) List.mem_cons_self
      exact ih (h.config hc) hs' hf'
    | firmware packet fates =>
      exact ih (h.firmware (hf (.firmware packet fates) List.mem_cons_self)) hs' hf'

/-- While the configuration calls find steady power, a run with firmware packets, refused or
cut off anywhere, leaves the array that these calls make: in RAM while the power is on, and
after the next reset. The program and the bootloader, in the rest of the flash, stay as they
are. -/
theorem configuration_beside_firmware (b : Board) (hb : BlankPages b.eeprom.flash.mem)
    (xs : List Served) (hs : ∀ x ∈ xs, x.Steady) (hf : ∀ x ∈ xs, x.Fits) (m : Machine)
    (hm : m = (firstBoot b).serveAll xs) :
    let a := plainAfter (firstBoot b) xs (overlay (fun _ => 0) defaultConfiguration)
    (m.running = true → SameBytes m.board.config a) ∧
      (∃ t, m.board.perform steady .init = (some true, t) ∧ t.Clean ∧ SameBytes t.config a) ∧
      ∀ i ∉ pagesArea ∪ stagingArea,
        m.board.eeprom.flash.mem i = b.eeprom.flash.mem i := by
  obtain ⟨s, hboot, -, hmirror⟩ := init_blank hb
  have hfirst : firstBoot b = ⟨s, true⟩ := by rw [firstBoot, hboot]
  have hkeeps := keeps_run (Mirror.keeps (m := firstBoot b) (by rwa [hfirst])) xs hs hf
  subst hm
  refine ⟨fun hr => (hkeeps.ram hr).same, ?_, fun i hi => ?_⟩
  · obtain ⟨config, hpages⟩ := hkeeps.pages
    obtain ⟨t, ht, hclean, hmt⟩ := mirror_step hpages (c := .init) trivial
    rw [perform_init_config] at ht
    exact ⟨t, ht, hclean, hmt.same⟩
  · rw [program_kept _ xs hf hi]
    exact outside_at ((preserves_call .init).exec (b.under steady)) fun h => hi (Or.inl h)

theorem configuration_beside_firmware_interrupted :
    let m := (firstBoot blankBoard).serveAll interruptedUpload
    let a := plainAfter (firstBoot blankBoard) interruptedUpload
      (overlay (fun _ => 0) defaultConfiguration)
    (m.running = true → SameBytes m.board.config a) ∧
      (∃ t, m.board.perform steady .init = (some true, t) ∧ t.Clean ∧ SameBytes t.config a) ∧
      ∀ i ∉ pagesArea ∪ stagingArea,
        m.board.eeprom.flash.mem i = blankBoard.eeprom.flash.mem i := by
  refine configuration_beside_firmware blankBoard (fun _ _ _ => rfl) _ ?_ interrupted_fits _ rfl
  simp only [interruptedUpload, List.forall_mem_cons]
  exact ⟨trivial, ⟨rfl, trivial⟩, ⟨rfl, by simp [Call.InBounds, sizeofConfig]⟩, fun _ => nofun⟩

end Refining

end Battman
