import Battman.EepromShapes

/-! What writing a variable, EE_Init and EE_Format do to the stored values. -/
namespace Battman
open CutLogic RecordLog

variable {fates : Fates} {V W : Values} {p : Page} {x d : UInt16} {C : Pages → Prop}
  {ok : UInt16 → Option UInt16 → Prop}

theorem receive_ne_valid : receiveData ≠ validPage := by decide
theorem erased_ne_valid : erased ≠ validPage := by decide
theorem erased_ne_receive : erased ≠ receiveData := by decide

theorem Moving.header_ne (h : Moving V W p A) : (A p.other).header ≠ validPage := by
  rw [h.receiving]
  exact receive_ne_valid

theorem Normal.header_ne {A : Pages} (h : Normal V p A) : (A p.other).header ≠ validPage := by
  rw [h.other]
  exact erased_ne_valid

section Verify

variable {A : Pages} {mem : Memory}

theorem Normal.ne_erased (h : Normal V p A) : (A p).header ≠ erased := by
  rw [h.header]
  exact erased_ne_valid.symm

theorem Moving.ne_erased (h : Moving V W p A) : (A p.other).header ≠ erased := by
  rw [h.receiving]
  exact erased_ne_receive.symm

theorem Normal.find_write (h : Normal V p A) (hold : Holds mem A) :
    eeFindValidPage .writeInValidPage mem = some p := by
  rw [Battman.find_write hold h.header h.header_ne, if_neg]
  rw [h.other]
  exact erased_ne_receive

theorem Moving.find_write (h : Moving V W p A) (hold : Holds mem A) :
    eeFindValidPage .writeInValidPage mem = some p.other := by
  rw [Battman.find_write hold h.header h.header_ne, if_pos h.receiving]

theorem verify_normal (hx : x ≠ erased) :
    Spec fates (eeVerifyPageFullWriteVariable x d) (Normal V p)
      (fun st A => st = .complete ∧ Normal (Function.update V x (some d)) p A ∨
        st = .pageFull ∧ Normal V p A) (Normal V p) := by
  intro A e hA he
  simp only [eeVerifyPageFullWriteVariable, wp_bind, wp_get, hA.find_write he.pages]
  rcases Nat.lt_or_ge (A p).log.length slots with hlen | hlen
  · refine wp_mono (wp_verify he hA.ne_erased hx d hlen) ?_ fun t ht => ht.mono ?_
    · rintro st t ⟨hst, ht⟩
      exact ⟨_, Or.inl ⟨hst, hA.append (x, d)⟩, ht⟩
    · rintro B (rfl | rfl)
      · exact hA
      · exact hA.append_half d
  · have hfull := le_antisymm (he.pages p).fits hlen
    exact wp_verify_full he hA.ne_erased x d hfull ⟨A, Or.inr ⟨rfl, hA⟩, he⟩

theorem wp_verify_moving {e : Eeprom} (h : Ready fates A e) (hA : Moving V W p A)
    (hx : x ≠ erased) {Q : EeStatus → Eeprom → Prop} {C : Eeprom → Prop}
    (hroom : (A p.other).log.length < slots →
      ∀ t, Ready fates (A.append p.other (x, d)) t → Q .complete t)
    (hfull : (A p.other).log.length = slots → Q .pageFull e)
    (hcut : ∀ t, Left fates (Moving V W p) t → C t) :
    wp (eeVerifyPageFullWriteVariable x d) Q C e := by
  simp only [eeVerifyPageFullWriteVariable, wp_bind, wp_get, hA.find_write h.pages]
  rcases Nat.lt_or_ge (A p.other).log.length slots with hlen | hlen
  · refine wp_mono (wp_verify h hA.ne_erased hx d hlen) ?_ fun t ht => hcut t (ht.mono ?_)
    · rintro st t ⟨rfl, ht⟩
      exact hroom hlen t ht
    · rintro B (rfl | rfl)
      · exact hA
      · exact hA.append_half d
  · have hlen := le_antisymm (h.pages p.other).fits hlen
    exact wp_verify_full h hA.ne_erased x d hlen (hfull hlen)

end Verify

section Copy

/-- The receiving page has a record of `v`, unless `v` has no value. -/
def Copied (W : Values) (log : List Record) (v : UInt16) : Prop :=
  W v = none ∨ ∃ r ∈ log, r.1 = v

theorem Copied.append {log : List Record} {v : UInt16} (h : Copied W log v)
    (l : List Record) : Copied W (log ++ l) v :=
  h.imp id fun ⟨r, hr, he⟩ => ⟨r, List.mem_append_left _ hr, he⟩

theorem copied_first {log : List Record} {v : UInt16} (h : firstAddress log = some v) :
    Copied W log v := by
  cases log with
  | nil => cases h
  | cons r log => exact Or.inr ⟨r, List.mem_cons_self, Option.some.inj h⟩

theorem wp_copy {A : Pages} {e : Eeprom} {next : EepromM EeStatus} {v : UInt16}
    {Q : EeStatus → Eeprom → Prop} (h : Ready fates A e) (hA : Moving V W p A)
    (hv : v ∈ virtAddVarTab)
    (hfirst : v ∈ configVars → firstAddress (A p.other).log ≠ some v)
    (hnext : ∀ l B t, Ready fates B t → Moving V W p B → l.length ≤ 1 →
      (B p.other).log = (A p.other).log ++ l →
      (v ∈ configVars → Copied W (B p.other).log v) →
      wp next Q (Left fates (Moving V W p)) t)
    (hfull : (A p.other).log.length = slots → ∀ t, Ready fates A t → Q .pageFull t) :
    wp (copyVariable v next) Q (Left fates (Moving V W p)) e := by
  have hne := ne_erased_of_mem hv
  have hread := read_latest h.pages hne (find_read h.pages hA.header hA.header_ne)
  simp only [copyVariable, wp_bind, wp_get, hread]
  cases hl : latest v (A p).log with
  | none =>
    refine hnext [] A e h hA (Nat.zero_le _) (List.append_nil _).symm fun hv => Or.inl ?_
    rw [hA.same v hv (hfirst hv), ← hA.stores v hv, hl]
  | some data =>
    have hw (hv : v ∈ configVars) : W v = some data := by
      rw [hA.same v hv (hfirst hv), ← hA.stores v hv, hl]
    have h' : Ready fates A { e with dataVar := data } := ⟨h.pages, h.flash⟩
    simp only [ReadResult.ofOption, wp_bind, wp_set, checked]
    refine wp_verify_moving h' hA hne (fun _ t ht => ?_) (fun hlen => ?_) fun t ht => ht
    · rw [if_pos rfl]
      refine hnext [(v, data)] _ t ht (hA.append (r := (v, data)) hw) (le_refl _) ?_ ?_
      · rw [append_self]
      · intro _
        exact Or.inr ⟨(v, data), by rw [append_self]; exact List.mem_append_right _ (by simp),
          rfl⟩
    · rw [if_neg (by decide), wp_pure]
      exact hfull hlen _ h'

/-- Everything but the variables `todo` is copied. -/
structure Carrying (V W : Values) (p : Page) (todo : List UInt16) (A : Pages) : Prop where
  moving : Moving V W p A
  copied : ∀ v ∈ configVars, v ∉ todo → Copied W (A p.other).log v

theorem Carrying.next {todo : List UInt16} {A B : Pages} {v : UInt16} {l : List Record}
    (h : Carrying V W p (v :: todo) A) (hB : Moving V W p B)
    (hl : (B p.other).log = (A p.other).log ++ l)
    (hv : v ∈ configVars → Copied W (B p.other).log v) : Carrying V W p todo B where
  moving := hB
  copied w hw hn := by
    by_cases he : w = v
    · subst he
      exact hv hw
    · rw [hl]
      refine (h.copied w hw fun hm => ?_).append l
      rcases List.mem_cons.mp hm with rfl | hm
      · exact he rfl
      · exact hn hm

theorem Carrying.stores {A : Pages} (h : Carrying V W p [] A) :
    Stores W (A p.other).log :=
  stores_of_carried h.moving.carried fun v hv =>
    h.copied v hv List.not_mem_nil

theorem transfer_loop {vs : List UInt16} (hvs : vs ⊆ virtAddVarTab) :
    Spec fates (transferLoop x vs)
      (fun A => Carrying V W p vs A ∧ firstAddress (A p.other).log = some x ∧
        (A p.other).log.length + vs.length ≤ slots)
      (Done (Carrying V W p [])) (Moving V W p) := by
  induction vs with
  | nil => exact Spec.done fun A hA => ⟨rfl, hA.1⟩
  | cons v vs ih =>
    rw [List.cons_subset] at hvs
    rintro A e ⟨hA, hx, hlen⟩ he
    rw [List.length_cons] at hlen
    rw [transferLoop]
    split_ifs with hv
    · refine wp_copy he hA.moving hvs.1 (fun _ => by rw [hx]; simpa using hv.symm) ?_ ?_
      · intro l B t ht hB hl hlog hcopied
        refine ih hvs.2 B t ⟨hA.next hB hlog hcopied, ?_, ?_⟩ ht
        · rw [hlog]
          cases hlA : (A p.other).log with
          | nil => rw [hlA] at hx; cases hx
          | cons r log => rwa [hlA] at hx
        · rw [hlog, List.length_append]
          omega
      · intro hfull
        omega
    · rw [not_not] at hv
      refine ih hvs.2 A e ⟨hA.next hA.moving (List.append_nil _).symm fun _ => ?_, hx, ?_⟩ he
      · exact copied_first (hv ▸ hx)
      · omega

/-- What a recovery that may add `n` records ends with: all variables copied, or the
receiving page full. -/
def Recovered (V W : Values) (p : Page) (n : ℕ) (st : EeStatus) (A : Pages) : Prop :=
  st = .complete ∧ Carrying V W p [] A ∨
    st = .pageFull ∧ Moving V W p A ∧ (A p.other).log.length = slots ∧ slots < n

theorem first_slot {mem : Memory} {s : PageState} (h : PageIs mem p s) {v : UInt16}
    (hv : v ≠ erased) : mem (p.base + 6) = v ↔ firstAddress s.log = some v := by
  rw [show p.base + 6 = p.base + 4 * (0 + 1) + 2 by omega, h.address 0 (by decide)]
  cases s.log with
  | nil => simpa [firstAddress, blank] using hv.symm
  | cons r log => simp [firstAddress]

theorem recover_loop {vs : List UInt16} (hvs : vs ⊆ virtAddVarTab) {varIdx i : ℤ}
    (hi : i < varIdx) (n : ℕ) :
    Spec fates (recoverLoop p.other vs varIdx i)
      (fun A => Carrying V W p vs A ∧ (A p.other).log.length + vs.length ≤ n)
      (Recovered V W p n) (Moving V W p) := by
  induction vs generalizing varIdx i with
  | nil => exact Spec.done fun A hA => Or.inl ⟨rfl, hA.1⟩
  | cons v vs ih =>
    rw [List.cons_subset] at hvs
    rintro A e ⟨hA, hlen⟩ he
    rw [List.length_cons] at hlen
    simp only [recoverLoop, wp_bind, wp_get,
      first_slot (he.pages p.other) (ne_erased_of_mem hvs.1)]
    by_cases hv : firstAddress (A p.other).log = some v
    · -- the record the interrupted transfer began with is the newest of its variable
      rw [if_pos hv, if_neg (not_not.mpr rfl)]
      exact ih hvs.2 (by omega) A e
        ⟨hA.next hA.moving (List.append_nil _).symm fun _ => copied_first hv, by omega⟩ he
    · rw [if_neg hv, if_pos (by omega)]
      refine wp_copy he hA.moving hvs.1 (fun _ => hv) ?_ ?_
      · intro l B t ht hB hl hlog hcopied
        refine ih hvs.2 (by omega) B t ⟨hA.next hB hlog hcopied, ?_⟩ ht
        rw [hlog, List.length_append]
        omega
      · intro hfull t ht
        exact ⟨A, Or.inr ⟨rfl, hA.moving, hfull, by omega⟩, ht⟩

theorem carrying_start {A : Pages} (h : Moving V W p A) : Carrying V W p virtAddVarTab A :=
  ⟨h, fun _ hv hn => absurd (mem_virt_add_var_tab.mpr (Or.inl hv)) hn⟩

end Copy

section Transfer

theorem receive_spec : Spec fates (program p.other.base receiveData) (Normal V p)
    (Done fun A => Moving V V p A ∧ (A p.other).log = []) (Normal V p) := by
  apply spec_mark
  · exact fun A hA => Or.inl (by rw [hA.other])
  · intro A hA
    have hlog : (A.mark p.other receiveData p.other).log = [] := by rw [mark_self, hA.other]
    refine ⟨⟨?_, ?_, ?_, ?_, fun _ _ _ => rfl⟩, hlog⟩
    · rw [mark_other, hA.header]
    · rw [mark_other]
      exact hA.stores
    · rw [mark_self]
    · rw [hlog]
      exact fun r hr => absurd hr List.not_mem_nil
  · exact fun _ hA => hA

theorem first_spec (hx : x ≠ erased) :
    Spec fates (eeVerifyPageFullWriteVariable x d)
      (fun A => Moving V V p A ∧ (A p.other).log = [])
      (Done fun A => Moving V (Function.update V x (some d)) p A ∧
        (A p.other).log = [(x, d)]) (Moving V V p) := by
  rintro A e ⟨hA, hlog⟩ he
  refine wp_verify_moving he hA hx (fun _ t ht => ?_) (fun hlen => ?_) fun t ht => ht
  · refine ⟨_, ⟨rfl, hA.append_first hlog (x, d), ?_⟩, ht⟩
    rw [append_self, hlog]
    rfl
  · rw [hlog] at hlen
    cases hlen

theorem erase_spec : Spec fates (erase p) (Carrying V W p []) (Done (Moved W p))
    (Carrying V W p []) := by
  apply spec_erase
  · intro A hA
    constructor
    · rw [erase_self]
    · rw [erase_to_other, hA.moving.receiving]
    · rw [erase_to_other]
      exact hA.stores
  · exact fun _ hA => hA

theorem valid_spec : Spec fates (program p.other.base validPage) (Moved W p)
    (Done (Normal W p.other)) (Moved W p) := by
  apply spec_mark
  · exact fun _ _ => Or.inr rfl
  · intro A hA
    constructor
    · rw [mark_self]
    · rw [mark_self]
      exact hA.stores
    · rw [other_other, mark_other, hA.gone]
  · exact fun _ hA => hA

theorem page_transfer (hx : x ≠ erased) (hV : Agrees ok V)
    (hW : Agrees ok (Function.update V x (some d))) :
    Spec fates (eePageTransfer x d) (Normal V p)
      (Done (Normal (Function.update V x (some d)) p.other)) (Safe ok) := by
  intro A e hA he
  simp only [eePageTransfer, wp_bind, wp_get, find_read he.pages hA.header hA.header_ne]
  have hloop : Spec fates (transferLoop x virtAddVarTab) _
      (Done (Carrying V (Function.update V x (some d)) p []))
      (Moving V (Function.update V x (some d)) p) :=
    transfer_loop (List.Subset.refl virtAddVarTab)
  refine Spec.checked_done (receive_spec.mono (fun _ h => h) (fun _ _ h => h)
    fun B hB => Safe.normal hB hV) ?_ A e hA he
  refine Spec.checked_done ((first_spec hx).mono (fun _ h => h) (fun _ _ h => h)
    fun B hB => Safe.moving hB hV hV) ?_
  refine Spec.checked_done (hloop.mono ?_ (fun _ _ h => h)
    fun B hB => Safe.moving hB hV hW) ?_
  · rintro B ⟨hB, hlog⟩
    refine ⟨carrying_start hB, by rw [hlog]; rfl, ?_⟩
    rw [hlog, virt_add_var_tab_length, List.length_singleton, slots]
    omega
  refine Spec.checked_done (erase_spec.mono (fun _ h => h) (fun _ _ h => h)
    fun B hB => Safe.moving hB.moving hV hW) ?_
  exact valid_spec.mono (fun _ h => h) (fun _ _ h => h) fun B hB => Safe.moved hB hW

theorem write_variable (hx : x ≠ erased) (hV : Agrees ok V)
    (hW : Agrees ok (Function.update V x (some d))) :
    Spec fates (eeWriteVariable x d) (fun A => ∃ p, Normal V p A)
      (Done fun A => ∃ p, Normal (Function.update V x (some d)) p A) (Safe ok) := by
  rintro A e ⟨p, hA⟩ he
  refine wp_seq (verify_normal hx A e hA he) ?_ fun t ht =>
    ht.mono fun B hB => Safe.normal hB hV
  rintro st t ⟨B, ⟨rfl, hB⟩ | ⟨rfl, hB⟩, ht⟩
  · rw [if_neg (by decide), wp_pure]
    exact ⟨B, ⟨rfl, p, hB⟩, ht⟩
  · rw [if_pos rfl]
    refine wp_mono (page_transfer hx hV hW B t hB ht) ?_ fun _ h => h
    rintro st u ⟨D, ⟨hst, hD⟩, hu⟩
    exact ⟨D, ⟨hst, _, hD⟩, hu⟩

end Transfer

end Battman
