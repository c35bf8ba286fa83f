import Battman.EepromPages

/-! Specifications of the operations of eeprom.c over headers and logs. A cut leaves the
pages as they were, or with the data half-word of a record already written. -/
namespace Battman
open CutLogic RecordLog

/-- The flash is between operations and its pages are `A`. -/
structure Ready (fates : Fates) (A : Pages) (e : Eeprom) : Prop where
  pages : Holds e.flash.mem A
  flash : Serviceable fates e.flash

/-- What a power cut leaves: pages that satisfy `C`. -/
def Left (fates : Fates) (C : Pages → Prop) (e : Eeprom) : Prop :=
  fates e.flash.mem e.flash.history = .cut ∧ ∃ A, C A ∧ Holds e.flash.mem A

/-- From pages in `P`, a run returns with status and pages in `Q`, or is cut with pages
in `C`. -/
def Spec (fates : Fates) (x : EepromM EeStatus) (P : Pages → Prop)
    (Q : EeStatus → Pages → Prop) (C : Pages → Prop) : Prop :=
  ∀ A e, P A → Ready fates A e →
    wp x (fun st t => ∃ B, Q st B ∧ Ready fates B t) (Left fates C) e

def Done (Q : Pages → Prop) (st : EeStatus) (B : Pages) : Prop := st = .complete ∧ Q B

variable {fates : Fates} {x y : EepromM EeStatus} {P P' C C' : Pages → Prop}
  {Q R : EeStatus → Pages → Prop}

theorem Left.mono {e : Eeprom} (h : Left fates C e) (hc : ∀ A, C A → C' A) :
    Left fates C' e := by
  obtain ⟨hs, A, hA, hm⟩ := h
  exact ⟨hs, A, hc A hA, hm⟩

theorem Spec.mono (h : Spec fates x P Q C) (hP : ∀ A, P' A → P A)
    (hQ : ∀ st B, Q st B → R st B) (hC : ∀ A, C A → C' A) : Spec fates x P' R C' := by
  intro A e hA he
  refine wp_mono (h A e (hP A hA) he) ?_ fun t ht => ht.mono hC
  rintro st t ⟨B, hB, ht⟩
  exact ⟨B, hQ st B hB, ht⟩

theorem Spec.done (h : ∀ A, P A → Q .complete A) : Spec fates (pure .complete) P Q C := by
  intro A e hA he
  rw [wp_pure]
  exact ⟨A, h A hA, he⟩

theorem Spec.checked (hx : Spec fates x P Q C) (hy : Spec fates y (Q .complete) R C)
    (hr : ∀ st B, st ≠ .complete → Q st B → R st B) :
    Spec fates (checked x y) P R C := by
  intro A e hA he
  refine wp_seq (hx A e hA he) ?_ fun _ ht => ht
  rintro st t ⟨B, hB, ht⟩
  by_cases hst : st = .complete
  · rw [if_pos hst]
    exact hy B t (hst ▸ hB) ht
  · rw [if_neg hst, wp_pure]
    exact ⟨B, hr st B hst hB, ht⟩

theorem Spec.checked_done {S : Pages → Prop} (hx : Spec fates x P (Done S) C)
    (hy : Spec fates y S R C) : Spec fates (Battman.checked x y) P R C :=
  hx.checked (hy.mono (fun _ h => h.2) (fun _ _ h => h) fun _ h => h)
    fun _ _ hst h => absurd h.1 hst

section Operations

variable {A : Pages} {p : Page} {e : Eeprom}

theorem wp_erase (h : Ready fates A e) (p : Page) :
    wp (erase p) (fun st t => st = .complete ∧ Ready fates (A.erase p) t)
      (Left fates (· = A)) e := by
  simp only [erase, wp_map, wp_onPart]
  refine wp_mono (wp_flash_erase_page h.flash p.base) ?_ ?_
  · rintro st t ⟨rfl, hm, ht⟩
    refine ⟨rfl, ?_, ht⟩
    have := holds_erase h.pages p
    rwa [← hm] at this
  · rintro t ⟨hs, hm⟩
    refine ⟨hs, A, rfl, ?_⟩
    have := h.pages
    rwa [← hm] at this

theorem wp_erase_cut (h : Ready fates A e) (p : Page)
    (hc : fates e.flash.mem e.flash.history = .cut) {Q : EeStatus → Eeprom → Prop} :
    wp (erase p) Q (Left fates (· = A)) e := by
  simp only [erase, wp_map, wp_onPart]
  exact wp_flash_cut h.flash hc ⟨hc, A, rfl, h.pages⟩

theorem wp_program_cut (h : Ready fates A e) (address : ℕ) (data : UInt16)
    (hc : fates e.flash.mem e.flash.history = .cut) {Q : EeStatus → Eeprom → Prop} :
    wp (program address data) Q (Left fates (· = A)) e := by
  simp only [program, wp_map, wp_onPart]
  exact wp_flash_cut h.flash hc ⟨hc, A, rfl, h.pages⟩

theorem wp_program (h : Ready fates A e) {address : ℕ} {data : UInt16}
    (ha : e.flash.mem address = erased ∨ data = 0 ∧ pageSize ∣ address) :
    wp (program address data)
      (fun st t => st = .complete ∧ Serviceable fates t.flash ∧
        t.flash.mem = Function.update e.flash.mem address data)
      (Left fates (· = A)) e := by
  simp only [program, wp_map, wp_onPart]
  refine wp_mono (wp_flash_program h.flash ha) ?_ ?_
  · rintro st t ⟨rfl, hm, ht⟩
    exact ⟨rfl, ht, hm⟩
  · rintro t ⟨hs, hm⟩
    refine ⟨hs, A, rfl, ?_⟩
    have := h.pages
    rwa [← hm] at this

theorem wp_mark (h : Ready fates A e) {status : UInt16}
    (ha : (A p).header = erased ∨ status = 0) :
    wp (program p.base status)
      (fun st t => st = .complete ∧ Ready fates (A.mark p status) t)
      (Left fates (· = A)) e := by
  have hbase : pageSize ∣ p.base := by cases p <;> decide
  have hh : e.flash.mem p.base = erased ∨ status = 0 ∧ pageSize ∣ p.base := by
    rw [(h.pages p).header]
    exact ha.imp_right (And.intro · hbase)
  refine wp_mono (wp_program h hh) ?_ fun _ ht => ht
  rintro st t ⟨hst, ht, hm⟩
  refine ⟨hst, ?_, ht⟩
  rw [hm]
  exact holds_mark h.pages p status

theorem spec_erase {S : Pages → Prop} (p : Page) (hS : ∀ A, P A → S (A.erase p))
    (hC : ∀ A, P A → C A) : Spec fates (erase p) P (Done S) C := by
  intro A e hA he
  refine wp_mono (wp_erase he p) ?_ fun t ht => ht.mono ?_
  · rintro st t ⟨rfl, ht⟩
    exact ⟨_, ⟨rfl, hS A hA⟩, ht⟩
  · rintro B rfl
    exact hC B hA

theorem spec_mark {S : Pages → Prop} {status : UInt16}
    (ha : ∀ A, P A → (A p).header = erased ∨ status = 0) (hS : ∀ A, P A → S (A.mark p status))
    (hC : ∀ A, P A → C A) : Spec fates (program p.base status) P (Done S) C := by
  intro A e hA he
  refine wp_mono (wp_mark he (ha A hA)) ?_ fun t ht => ht.mono ?_
  · rintro st t ⟨rfl, ht⟩
    exact ⟨_, ⟨rfl, hS A hA⟩, ht⟩
  · rintro B rfl
    exact hC B hA

theorem verify_loop_skip {mem : Memory} {s : PageState} (h : PageIs mem p s)
    (he : e.flash.mem = mem) (virtAddress data : UInt16) {Q : EeStatus → Eeprom → Prop}
    {C : Eeprom → Prop} (k n : ℕ) (hk : k ≤ s.log.length) :
    wp (verifyLoop virtAddress data (k + n) (p.base + 4 * (s.log.length + 1 - k))) Q C e ↔
      wp (verifyLoop virtAddress data n (p.base + 4 * (s.log.length + 1))) Q C e := by
  induction k with
  | zero => simp
  | succ k ih =>
    rw [← ih (by omega)]
    have hfit := h.fits
    have hi : s.log.length - (k + 1) < s.log.length := by omega
    have hslot : p.base + 4 * (s.log.length + 1 - (k + 1)) =
        p.base + 4 * (s.log.length - (k + 1) + 1) := by omega
    have hused : ¬ (mem (p.base + 4 * (s.log.length - (k + 1) + 1)) = erased ∧
        mem (p.base + 4 * (s.log.length - (k + 1) + 1) + 2) = erased) := by
      rw [h.address _ (by omega), h.data _ (by omega), List.getD_eq_getElem _ _ hi]
      rintro ⟨hd, ha⟩
      exact h.used _ (List.getElem_mem hi) (Prod.ext ha hd)
    rw [show k + 1 + n = k + n + 1 by omega, verifyLoop, wp_bind, wp_get, he, hslot,
      if_neg hused, show p.base + 4 * (s.log.length - (k + 1) + 1) + 4 =
        p.base + 4 * (s.log.length + 1 - k) by omega]

/-- With a status in the header, the search starts at the first slot and stops behind the
log. -/
theorem verify_loop_start (h : Ready fates A e) (hh : (A p).header ≠ erased)
    (virtAddress data : UInt16) {Q : EeStatus → Eeprom → Prop} {C : Eeprom → Prop} :
    wp (verifyLoop virtAddress data (slots + 1) p.base) Q C e ↔
      wp (verifyLoop virtAddress data (slots - (A p).log.length)
        (p.base + 4 * ((A p).log.length + 1))) Q C e := by
  have hfit := (h.pages p).fits
  rw [← verify_loop_skip (h.pages p) rfl virtAddress data _ _ (le_refl _), verifyLoop, wp_bind,
    wp_get, if_neg (fun hb => hh (by rw [← (h.pages p).header]; exact hb.1)),
    show (A p).log.length + (slots - (A p).log.length) = slots by omega,
    show p.base + 4 * ((A p).log.length + 1 - (A p).log.length) = p.base + 4 by omega]

theorem slot_blank (h : Ready fates A e) (hlen : (A p).log.length < slots) :
    e.flash.mem (p.base + 4 * ((A p).log.length + 1)) = erased ∧
      e.flash.mem (p.base + 4 * ((A p).log.length + 1) + 2) = erased := by
  have hblank : (A p).log.getD (A p).log.length blank = blank :=
    List.getD_eq_default _ _ (le_refl _)
  constructor
  · rw [(h.pages p).data _ hlen, hblank]
    rfl
  · rw [(h.pages p).address _ hlen, hblank]
    rfl

theorem wp_verify (h : Ready fates A e) (hh : (A p).header ≠ erased) {virtAddress : UInt16}
    (hv : virtAddress ≠ erased) (data : UInt16) (hlen : (A p).log.length < slots) :
    wp (verifyLoop virtAddress data (slots + 1) p.base)
      (fun st t => st = .complete ∧ Ready fates (A.append p (virtAddress, data)) t)
      (Left fates fun B => B = A ∨ B = A.append p (erased, data)) e := by
  obtain ⟨hd, ha⟩ := slot_blank h hlen
  obtain ⟨n, hn⟩ : ∃ n, slots - (A p).log.length = n + 1 :=
    ⟨slots - (A p).log.length - 1, by omega⟩
  rw [verify_loop_start h hh, hn, verifyLoop, wp_bind, wp_get, if_pos ⟨hd, ha⟩]
  refine wp_seq (wp_program h (Or.inl hd)) ?_ fun t ht => ht.mono fun _ hB => Or.inl hB
  rintro st t ⟨rfl, ht, hm⟩
  -- the data half-word is there; a cut now leaves the record without its address
  obtain ⟨B, hB, hold⟩ : ∃ B, (B = A ∨ B = A.append p (erased, data)) ∧
      Holds t.flash.mem B := by
    rcases holds_half h.pages data hlen with ⟨-, hh⟩ | hh
    · exact ⟨_, Or.inr rfl, hm ▸ hh⟩
    · exact ⟨_, Or.inl rfl, hm ▸ hh⟩
  rw [if_pos rfl]
  refine wp_mono (wp_program ⟨hold, ht⟩ (Or.inl ?_)) ?_ fun u hu => hu.mono fun _ he => he ▸ hB
  · rw [hm, Function.update_of_ne (by omega), ha]
  · rintro st u ⟨rfl, hu, hmu⟩
    refine ⟨rfl, ?_, hu⟩
    rw [hmu, hm]
    exact holds_append h.pages (fun he => hv (Prod.mk.inj he).1) hlen

theorem wp_verify_cut (h : Ready fates A e) (hh : (A p).header ≠ erased)
    (virtAddress data : UInt16) (hlen : (A p).log.length < slots)
    (hc : fates e.flash.mem e.flash.history = .cut) {Q : EeStatus → Eeprom → Prop} :
    wp (verifyLoop virtAddress data (slots + 1) p.base) Q (Left fates (· = A)) e := by
  obtain ⟨n, hn⟩ : ∃ n, slots - (A p).log.length = n + 1 :=
    ⟨slots - (A p).log.length - 1, by omega⟩
  rw [verify_loop_start h hh, hn, verifyLoop, wp_bind, wp_get, if_pos (slot_blank h hlen),
    checked, wp_bind]
  exact wp_program_cut h _ _ hc

theorem wp_verify_full (h : Ready fates A e) (hh : (A p).header ≠ erased)
    (virtAddress data : UInt16) (hlen : (A p).log.length = slots)
    {Q : EeStatus → Eeprom → Prop} {C : Eeprom → Prop} (hQ : Q .pageFull e) :
    wp (verifyLoop virtAddress data (slots + 1) p.base) Q C e := by
  rw [verify_loop_start h hh, hlen, Nat.sub_self, verifyLoop, wp_pure]
  exact hQ

theorem read_latest {mem : Memory} (h : Holds mem A) {virtAddress : UInt16}
    (hv : virtAddress ≠ erased) (hp : eeFindValidPage .readFromValidPage mem = some p) :
    eeReadVariable mem virtAddress = .ofOption (latest virtAddress (A p).log) := by
  rw [eeReadVariable, hp]
  change readLoop mem virtAddress p.base slots = _
  rw [read_loop_latest (h p) hv slots (le_refl _), List.take_of_length_le (h p).fits]

end Operations

end Battman
