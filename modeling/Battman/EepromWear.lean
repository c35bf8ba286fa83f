import Battman.Stores
import Battman.ConfigMirror
import Battman.EepromFrames

/-! How often the pages of the emulated EEPROM are erased while no flash operation fails. -/
namespace Battman
open CutLogic RecordLog CompactingLog

def FlashOp.erases (q : Page) : FlashOp → Bool
  | .erasePage pageAddress result => pageAddress = q.base && result = .complete
  | .programHalfWord .. => false

def erasures (q : Page) (f : Flash) : ℕ := f.history.countP (FlashOp.erases q)

variable {fates : Fates} {V W : Values} {p q : Page} {A B : Pages} {e : Eeprom}
  {x d v : UInt16}

section Erasing

theorem erasures_spared (q : Page) : Spared fun e => erasures q e.flash where
  programs p a d _ := by
    intro e
    simp only [program, wp_map, wp_onPart]
    refine wp_mono wp_flash_recorded (fun st t ht => ?_) fun t ht => ?_
    · exact (congrArg (List.countP _) ht).trans (List.countP_cons_of_neg Bool.false_ne_true)
    · exact congrArg (List.countP _) ht
  dataVar _ _ := rfl

theorem base_injective : Function.Injective Page.base := by
  intro p q h
  cases p <;> cases q <;> first | rfl | cases h

theorem wp_erase_counted (q p : Page) (e : Eeprom) :
    wp (erase p)
      (fun st t => st = .complete →
        erasures q t.flash = erasures q e.flash + if q = p then 1 else 0)
      (fun _ => True) e := by
  simp only [erase, wp_map, wp_onPart]
  refine wp_mono wp_flash_recorded (fun st t ht => ?_) fun _ _ => trivial
  intro hst
  obtain rfl : st = .complete := by injection hst
  change t.history.countP _ = e.flash.history.countP _ + _
  rw [ht, List.countP_cons]
  congr 1
  by_cases hq : q = p
  · simp [FlashOp.erases, hq]
  · have hbase : p.base ≠ q.base := fun h => hq (base_injective h).symm
    simp [FlashOp.erases, hq, hbase]

theorem wp_transfer_counted (h : eeFindValidPage .readFromValidPage e.flash.mem = some p)
    (q : Page) (x d : UInt16) :
    wp (eePageTransfer x d)
      (fun st t => st = .complete →
        erasures q t.flash = erasures q e.flash + if q = p then 1 else 0)
      (fun _ => True) e := by
  have hspared := erasures_spared q
  have hseq {op next : EepromM EeStatus} {n : ℕ} {e : Eeprom}
      (hop : Preserves (fun e => erasures q e.flash) op) (hn : erasures q e.flash = n)
      (hnext : ∀ t, erasures q t.flash = n → wp next
        (fun st t => st = .complete → erasures q t.flash = n + if q = p then 1 else 0)
        (fun _ => True) t) :
      wp (checked op next)
        (fun st t => st = .complete → erasures q t.flash = n + if q = p then 1 else 0)
        (fun _ => True) e := by
    refine wp_seq (hop e) (fun st t ht => ?_) fun _ _ => trivial
    by_cases hst : st = .complete
    · rw [if_pos hst]
      exact hnext t (ht.trans hn)
    · rw [if_neg hst]
      exact fun h => absurd h hst
  simp only [eePageTransfer, wp_bind, wp_get, h]
  refine hseq (hspared.mark _ _) rfl fun t ht => ?_
  refine hseq (hspared.verify _ _) ht fun t ht => ?_
  refine hseq (hspared.transfer_loop _ _) ht fun t ht => ?_
  refine wp_seq (wp_erase_counted q p t) (fun st u hu => ?_) fun _ _ => trivial
  by_cases hst : st = .complete
  · rw [if_pos hst]
    refine wp_mono (hspared.mark _ _ u) (fun _ w hw _ => ?_) fun _ _ => trivial
    rw [hw, hu hst, ht]
  · rw [if_neg hst]
    exact fun h => absurd h hst

end Erasing

section Addresses

/-- The memory determines the header and the log of a page. -/
theorem page_unique {mem : Memory} {s s' : PageState} (h : PageIs mem p s)
    (h' : PageIs mem p s') : s = s' := by
  have hslot (i : ℕ) (hi : i < slots) : s.log.getD i blank = s'.log.getD i blank := by
    apply Prod.ext
    · rw [← h.address i hi, h'.address i hi]
    · rw [← h.data i hi, h'.data i hi]
  have hle {s s' : PageState} (h' : PageIs mem p s')
      (hslot : ∀ i < slots, s.log.getD i blank = s'.log.getD i blank) :
      s'.log.length ≤ s.log.length := by
    by_contra hlt
    push Not at hlt
    have hused := h'.used _ (List.getElem_mem hlt)
    have := hslot s.log.length (by have := h'.fits; omega)
    rw [List.getD_eq_default _ _ le_rfl, List.getD_eq_getElem _ _ hlt] at this
    exact hused this.symm
  have hlen := le_antisymm (hle h fun i hi => (hslot i hi).symm) (hle h' hslot)
  have hlog : s.log = s'.log := by
    apply List.ext_getElem hlen
    intro i hi hi'
    have := hslot i (by have := h.fits; omega)
    rwa [List.getD_eq_getElem _ _ hi, List.getD_eq_getElem _ _ hi'] at this
  cases s
  cases s'
  have hheader := h.header.symm.trans h'.header
  simp only at hlog hheader
  rw [hlog, hheader]

theorem abstraction_unique {mem : Memory} (h : Holds mem A) (h' : Holds mem B) : A = B :=
  funext fun p => page_unique (h p) (h' p)

def addresses (s : PageState) : List UInt16 := s.log.map Prod.fst

def OnlyConfig (s : PageState) : Prop := ∀ v ∈ addresses s, v ∈ configVars

def Full (V : Values) : Prop := ∀ v ∈ configVars, V v ≠ none

theorem addresses_append (A : Pages) (p : Page) (r : Record) :
    addresses (A.append p r p) = addresses (A p) ++ [r.1] := by
  rw [append_self, addresses, addresses, List.map_append]
  rfl

theorem wp_transfer_addresses {vs : List UInt16} (hvs : vs ⊆ virtAddVarTab)
    (h : Ready fates A e) (hA : Moving V W p A) (hold : OnlyConfig (A p)) (hV : Full V)
    (hW : ∀ v ∈ configVars, v ≠ x → W v = V v)
    (hfit : (addresses (A p.other)).length + vs.length ≤ slots) :
    wp (transferLoop x vs)
      (fun _ t => ∃ B, Ready fates B t ∧ addresses (B p.other) =
        addresses (A p.other) ++ vs.filter fun v => v ∈ configVars ∧ v ≠ x)
      (fun _ => True) e := by
  induction vs generalizing A e with
  | nil => exact ⟨A, h, (List.append_nil _).symm⟩
  | cons v vs ih =>
    rw [List.cons_subset] at hvs
    rw [List.length_cons] at hfit
    rw [transferLoop]
    by_cases hv : v ≠ x
    · have hne := ne_erased_of_mem hvs.1
      have hread := read_latest h.pages hne (find_read h.pages hA.header hA.header_ne)
      rw [if_pos hv]
      simp only [copyVariable, wp_bind, wp_get, hread]
      by_cases hvar : v ∈ configVars
      · obtain ⟨data, hdata⟩ := Option.ne_none_iff_exists'.mp (hV v hvar)
        have h' : Ready fates A { e with dataVar := data } := ⟨h.pages, h.flash⟩
        have hlen : (A p.other).log.length = (addresses (A p.other)).length :=
          (List.length_map _).symm
        rw [hA.stores v hvar, hdata]
        simp only [ReadResult.ofOption, wp_bind, wp_set, checked]
        refine wp_verify_moving h' hA hne (fun _ t ht => ?_) (fun _ => ?_) fun _ _ => trivial
        · have hlog : addresses (A.append p.other (v, data) p.other) =
              addresses (A p.other) ++ [v] := addresses_append ..
          rw [if_pos rfl]
          refine wp_mono (ih hvs.2 ht (hA.append fun _ => ?_) ?_ ?_) ?_ fun _ h => h
          · rw [hW v hvar hv, hdata]
          · rwa [append_other]
          · rw [hlog, List.length_append, List.length_singleton]
            omega
          · rintro _ u ⟨B, hB, hlogB⟩
            refine ⟨B, hB, ?_⟩
            rw [hlogB, hlog, List.filter_cons_of_pos (by simpa using ⟨hvar, hv⟩), List.append_assoc]
            rfl
        · omega
      · have hnone : latest v (A p).log = none := latest_eq_none fun r hr hrv =>
          hvar (hold v (List.mem_map.mpr ⟨r, hr, hrv⟩))
        rw [hnone, List.filter_cons_of_neg (by simp [hvar])]
        exact ih hvs.2 h hA hold (by omega)
    · rw [if_neg hv, List.filter_cons_of_neg (by simpa using fun _ => not_not.mp hv)]
      exact ih hvs.2 h hA hold (by omega)

theorem copied_length (hx : x ∈ configVars) :
    (virtAddVarTab.filter fun v => v ∈ configVars ∧ v ≠ x).length + 1 = sizeofConfig / 2 := by
  have hzeros : (List.replicate (160 - sizeofConfig / 2) (0 : UInt16)).filter
      (fun v => v ∈ configVars ∧ v ≠ x) = [] := by
    rw [List.filter_eq_nil_iff]
    intro v hv
    rw [List.eq_of_mem_replicate hv]
    have : (0 : UInt16) ∉ configVars := by decide
    simp [this]
  have hvars : configVars.filter (fun v => v ∈ configVars ∧ v ≠ x) = configVars.erase x := by
    rw [List.Nodup.erase_eq_filter (by decide)]
    apply List.filter_congr
    intro v hv
    by_cases he : v = x <;> simp [hv, he]
  rw [virtAddVarTab, List.filter_append, hzeros, hvars, List.append_nil,
    List.length_erase_of_mem hx]
  rfl

theorem wp_page_transfer_addresses (hx : x ∈ configVars) (h : Ready fates A e)
    (hA : Normal V p A) (hold : OnlyConfig (A p)) (hV : Full V) :
    wp (eePageTransfer x d)
      (fun st t => st = .complete → ∃ B, Ready fates B t ∧ addresses (B p.other) =
        x :: virtAddVarTab.filter fun v => v ∈ configVars ∧ v ≠ x)
      (fun _ => True) e := by
  have hstop {st : EeStatus} {t : Eeprom} {P : Prop} (hst : st ≠ .complete) :
      st = .complete → P := fun he => absurd he hst
  simp only [eePageTransfer, wp_bind, wp_get, find_read h.pages hA.header hA.header_ne]
  have hlog : (A.mark p.other receiveData p.other).log = [] := by rw [mark_self, hA.other]
  refine wp_seq (wp_mark h (Or.inl (by rw [hA.other]))) ?_ fun _ _ => trivial
  rintro st t ⟨rfl, ht⟩
  have hmoving : Moving V V p (A.mark p.other receiveData) := by
    refine ⟨?_, ?_, ?_, ?_, fun _ _ _ => rfl⟩
    · rw [mark_other, hA.header]
    · rw [mark_other]
      exact hA.stores
    · rw [mark_self]
    · rw [hlog]
      exact fun r hr => absurd hr List.not_mem_nil
  rw [if_pos rfl, checked, wp_bind]
  refine wp_verify_moving ht hmoving (config_var_ne_erased hx) (fun _ u hu => ?_)
    (fun hfull => ?_) fun _ _ => trivial
  · have haddr : addresses ((A.mark p.other receiveData).append p.other (x, d) p.other) = [x] := by
      rw [addresses_append, addresses, hlog]
      rfl
    rw [if_pos rfl, checked, wp_bind]
    refine wp_mono (wp_transfer_addresses (List.Subset.refl _) hu
      (hmoving.append_first hlog (x, d)) ?_ hV ?_ ?_) ?_ fun _ _ => trivial
    · rwa [append_other, mark_other]
    · exact fun v _ hne => Function.update_of_ne hne ..
    · rw [haddr, virt_add_var_tab_length, List.length_singleton, slots]
      omega
    · rintro st w ⟨B, hB, hlogB⟩
      by_cases hst : st = .complete
      · rw [if_pos hst, checked, wp_bind]
        refine wp_mono (wp_erase hB p) ?_ fun _ _ => trivial
        rintro st w ⟨rfl, hw⟩
        rw [if_pos rfl]
        refine wp_mono (wp_mark hw (Or.inr rfl)) ?_ fun _ _ => trivial
        rintro st w ⟨rfl, hw⟩
        refine fun _ => ⟨_, hw, ?_⟩
        rw [mark_self, erase_to_other, addresses]
        change addresses (B p.other) = _
        rw [hlogB, haddr]
        rfl
      · rw [if_neg hst]
        exact hstop (t := w) hst
  · rw [hlog] at hfull
    cases hfull

end Addresses

section Levels

def inUse (l : Level) : Page := if l.compactions % 2 = 0 then .page0 else .page1

/-- The transfers that have left page `q` and erased it. -/
def transfersFrom (q : Page) (l : Level) : ℕ :=
  match q with
  | .page0 => (l.compactions + 1) / 2
  | .page1 => l.compactions / 2

def liveVars : ℕ := sizeofConfig / 2

def afterWrite (l : Level) : Level := l.write slots liveVars

theorem in_use_compacted (l : Level) (n : ℕ) :
    inUse ⟨n, l.compactions + 1⟩ = (inUse l).other := by
  unfold inUse
  by_cases h : l.compactions % 2 = 0
  · rw [if_pos h, if_neg (by dsimp only; omega)]
    rfl
  · rw [if_neg h, if_pos (by dsimp only; omega)]
    rfl

theorem transfers_compacted (q : Page) (l : Level) (n : ℕ) :
    transfersFrom q ⟨n, l.compactions + 1⟩ =
      transfersFrom q l + if q = inUse l then 1 else 0 := by
  unfold inUse
  by_cases h : l.compactions % 2 = 0
  · rw [if_pos h]
    cases q <;> simp [transfersFrom] <;> omega
  · rw [if_neg h]
    cases q <;> simp [transfersFrom] <;> omega

/-- The pages are those of the level: one is in use, with that many records of the
configuration. -/
structure AtLevel (V : Values) (l : Level) (A : Pages) : Prop where
  normal : Normal V (inUse l) A
  only : OnlyConfig (A (inUse l))
  used : (addresses (A (inUse l))).length = l.used

theorem wp_write_level {l : Level} (hx : x ∈ configVars) (h : Ready fates A e)
    (hA : AtLevel V l A) (hV : l.used = slots → Full V) :
    wp (eeWriteVariable x d)
      (fun st t => st = .complete ∧
        (∃ B, Ready fates B t ∧ AtLevel (Function.update V x (some d)) (afterWrite l) B) ∧
        ∀ q, erasures q t.flash + transfersFrom q l =
          erasures q e.flash + transfersFrom q (afterWrite l))
      (fun t => fates t.flash.mem t.flash.history = .cut) e := by
  have hne := config_var_ne_erased hx
  have hlen : (A (inUse l)).log.length = l.used := (List.length_map _).symm.trans hA.used
  have hfits := (h.pages (inUse l)).fits
  unfold eeWriteVariable
  by_cases hroom : l.used < slots
  · have hwritten : afterWrite l = { l with used := l.used + 1 } := if_pos hroom
    have hverify : wp (eeVerifyPageFullWriteVariable x d)
        (fun st t => st = .complete ∧ Ready fates (A.append (inUse l) (x, d)) t)
        (fun t => fates t.flash.mem t.flash.history = .cut) e := by
      simp only [eeVerifyPageFullWriteVariable, wp_bind, wp_get, hA.normal.find_write h.pages]
      exact wp_mono (wp_verify h hA.normal.ne_erased hne d (by omega)) (fun _ _ ht => ht)
        fun _ ht => ht.1
    refine wp_seq (wp_and hverify (wp_all fun q => (erasures_spared q).verify x d e)) ?_
      fun _ ht => ht.1
    rintro st t ⟨⟨rfl, ht⟩, hcount⟩
    rw [if_neg (by decide), wp_pure, hwritten]
    refine ⟨rfl, ⟨_, ht, ⟨hA.normal.append (x, d), ?_, ?_⟩⟩, fun q => ?_⟩
    · change OnlyConfig (A.append (inUse l) (x, d) (inUse l))
      rw [OnlyConfig, addresses_append]
      intro v hv
      rcases List.mem_append.mp hv with hv | hv
      · exact hA.only v hv
      · rwa [List.mem_singleton.mp hv]
    · change (addresses (A.append (inUse l) (x, d) (inUse l))).length = _
      rw [addresses_append, List.length_append, hA.used, List.length_singleton]
    · rw [hcount q]
      cases q <;> rfl
  · have hfull : l.used = slots := by omega
    have hwritten : afterWrite l = ⟨liveVars, l.compactions + 1⟩ := if_neg hroom
    have hverify : wp (eeVerifyPageFullWriteVariable x d) (fun st t => st = .pageFull ∧ t = e)
        (fun t => fates t.flash.mem t.flash.history = .cut) e := by
      simp only [eeVerifyPageFullWriteVariable, wp_bind, wp_get, hA.normal.find_write h.pages]
      exact wp_verify_full h hA.normal.ne_erased x d (by omega) ⟨rfl, rfl⟩
    have hok : Agrees (fun _ _ => True) V := fun _ _ => trivial
    have htransfer := wp_and (page_transfer (d := d) hne hok (fun _ _ => trivial) A e hA.normal h)
      (wp_and (wp_page_transfer_addresses (d := d) hx h hA.normal hA.only (hV hfull))
        (wp_all fun q => wp_transfer_counted
          (find_read h.pages hA.normal.header hA.normal.header_ne) q x d))
    refine wp_seq hverify ?_ fun _ ht => ht
    rintro st t ⟨rfl, rfl⟩
    rw [if_pos rfl]
    refine wp_mono htransfer ?_ fun _ ht => ht.1.1
    rintro st t ⟨⟨B, ⟨rfl, hB⟩, ht⟩, haddr, hcount⟩
    obtain ⟨B', ht', hlog⟩ := haddr rfl
    obtain rfl : B = B' := abstraction_unique ht.pages ht'.pages
    rw [hwritten]
    refine ⟨rfl, ⟨B, ht, ?_⟩, fun q => ?_⟩
    · constructor
      · rwa [in_use_compacted]
      · rw [in_use_compacted, OnlyConfig, hlog]
        intro v hv
        rcases List.mem_cons.mp hv with rfl | hv
        · exact hx
        · exact (by simpa using (List.mem_filter.mp hv).2 : v ∈ configVars ∧ v ≠ x).1
      · rw [in_use_compacted, hlog, List.length_cons, copied_length hx]
        rfl
    · rw [hcount q rfl, transfers_compacted]
      omega

end Levels

section Boards

variable {b t : Board} {l : Level} {i : ℕ} {is : List ℕ} {var : UInt16}

structure Keeping (fates : Fates) (V : Values) (l : Level) (b : Board) : Prop where
  pages : ∃ A, Ready fates A b.eeprom ∧ AtLevel V l A

/-- From level `l` to level `l'`, the pages that transfers left were erased. -/
def Accounts (l l' : Level) (b t : Board) : Prop :=
  ∀ q, erasures q t.eeprom.flash + transfersFrom q l =
    erasures q b.eeprom.flash + transfersFrom q l'

def CutOff (fates : Fates) (t : Board) : Prop :=
  fates t.eeprom.flash.mem t.eeprom.flash.history = .cut

theorem wp_store_level (hi : i < liveVars) (h : Keeping fates V l b)
    (hV : l.used = slots → Full V) :
    wp (storeHalfWord i var)
      (fun st t => st = .complete ∧
        Keeping fates (Function.update V (virtAddr i) (some var)) (afterWrite l) t ∧
        Accounts l (afterWrite l) b t)
      (CutOff fates) b := by
  obtain ⟨A, hr, hA⟩ := h.pages
  simp only [storeHalfWord, wp_bind, wp_onCut, wp_onPart, wp_modify, wp_pure]
  refine wp_mono (wp_write_level (d := var) (virt_addr_mem hi) hr hA hV) ?_ fun _ ht => ht
  rintro st e ⟨rfl, hpages, hcount⟩
  rw [if_pos rfl]
  exact ⟨rfl, ⟨hpages⟩, hcount⟩

/-- Storing half-words wears as many records; `V` must be full if a transfer may come. -/
theorem wp_store_each_level (his : ∀ i ∈ is, i < liveVars) (h : Keeping fates V l b)
    (hV : Full V ∨ l.used + is.length ≤ slots) :
    wp (storeEach is)
      (fun isOk t => isOk = true ∧ Accounts l (afterWrite^[is.length] l) b t ∧
        ∃ W, Keeping fates W (afterWrite^[is.length] l) t ∧ (∀ v, V v ≠ none → W v ≠ none) ∧
          ∀ i ∈ is, W (virtAddr i) ≠ none)
      (CutOff fates) b := by
  induction is generalizing V l b with
  | nil => exact ⟨rfl, fun _ => rfl, V, h, fun _ hv => hv, fun _ hi => absurd hi List.not_mem_nil⟩
  | cons i is ih =>
    have hkeep (var : UInt16) (v : UInt16) (hv : V v ≠ none) :
        Function.update V (virtAddr i) (some var) v ≠ none := by
      rw [Function.update_apply]
      split
      · exact Option.some_ne_none _
      · exact hv
    rw [List.length_cons] at hV
    simp only [storeEach, wp_bind, wp_get]
    refine wp_mono (wp_store_level (his i List.mem_cons_self) h fun hfull => ?_) ?_ fun _ ht => ht
    · exact hV.resolve_right (by omega)
    · rintro st t ⟨rfl, ht, hcount⟩
      rw [if_pos rfl]
      refine wp_mono (ih (fun j hj => his j (List.mem_cons_of_mem i hj)) ht ?_) ?_ fun _ h => h
      · refine hV.imp (fun hV v hv => hkeep _ v (hV v hv)) fun hfits => ?_
        have : (afterWrite l).used = l.used + 1 := by
          rw [afterWrite, Level.write, if_pos (by omega)]
        omega
      · rintro isOk u ⟨rfl, hcount', W, hW, hvalues, his'⟩
        refine ⟨rfl, fun q => ?_, W, hW, fun v hv => hvalues v (hkeep _ v hv), fun j hj => ?_⟩
        · have := hcount q
          have := hcount' q
          rw [List.length_cons, Function.iterate_succ_apply]
          omega
        · rcases List.mem_cons.mp hj with rfl | hj
          · apply hvalues
            rw [Function.update_self]
            exact Option.some_ne_none _
          · exact his' j hj

def Worn (l : Level) (b : Board) : Prop :=
  ∃ A V, Holds b.eeprom.flash.mem A ∧ AtLevel V l A ∧ Full V

theorem Keeping.worn (h : Keeping fates V l b) (hV : Full V) : Worn l b := by
  obtain ⟨A, hr, hA⟩ := h.pages
  exact ⟨A, V, hr.pages, hA, hV⟩

def Call.halfWords : Call → ℕ
  | .init => 0
  | .writeField addr _ size => (addr.toNat % 2 + size.toNat + 1) / 2
  | .writeAll => liveVars

/-- A reset erases the page that is not in use once more. -/
def Call.blanks (q : Page) (l : Level) : Call → ℕ
  | .init => if q = (inUse l).other then 1 else 0
  | _ => 0

def Call.level (l : Level) (c : Call) : Level := afterWrite^[c.halfWords] l

def CallAccounts (l : Level) (c : Call) (t : Board) : Prop :=
  ∀ q, erasures q t.eeprom.flash + transfersFrom q l =
    c.blanks q l + transfersFrom q (c.level l)

theorem stored_full {n : ℕ} (hV : Full V)
    (h : Accounts l (afterWrite^[n] l) b t) (hb : b.eeprom.flash.history = [])
    (hW : Keeping fates W (afterWrite^[n] l) t) (hvalues : ∀ v, V v ≠ none → W v ≠ none) :
    (∀ q, erasures q t.eeprom.flash + transfersFrom q l =
      0 + transfersFrom q (afterWrite^[n] l)) ∧ Worn (afterWrite^[n] l) t := by
  refine ⟨fun q => ?_, hW.worn fun v hv => hvalues v (hV v hv)⟩
  have hnone : erasures q b.eeprom.flash = 0 := by rw [erasures, hb]; rfl
  rw [h q, hnone]

theorem wp_write_all_level (h : Keeping fates V l b.cleared)
    (hV : Full V ∨ l.used + liveVars ≤ slots) :
    wp configWriteAll
      (fun _ t => Accounts l (afterWrite^[liveVars] l) b.cleared t ∧
        ∃ W, Keeping fates W (afterWrite^[liveVars] l) t ∧ (∀ v, V v ≠ none → W v ≠ none) ∧ Full W)
      (CutOff fates) b := by
  simp only [configWriteAll, utilsSysLockCnt, utilsSysUnlockCnt, wp_bind, wp_modify,
    wp_clear_flag, wp_pure]
  have hrange : (List.range (sizeofConfig / 2)).length = liveVars := List.length_range
  have hmem : ∀ i ∈ List.range (sizeofConfig / 2), i < sizeofConfig / 2 :=
    fun i hi => List.mem_range.mp hi
  have hstore := wp_store_each_level (b := { b with lockCnt := b.lockCnt + 1 }.cleared) hmem
    ⟨h.pages⟩ (by rwa [hrange])
  rw [hrange] at hstore
  refine wp_mono hstore ?_ fun _ ht => ht
  rintro isOk t ⟨rfl, hcount, W, hW, hvalues, his⟩
  refine ⟨hcount, W, ⟨hW.pages⟩, hvalues, fun v hv => ?_⟩
  obtain ⟨i, hi, rfl⟩ := mem_config_vars.mp hv
  exact his i (List.mem_range.mpr hi)

theorem wp_write_field_level (h : Keeping fates V l b.cleared) (hV : Full V) {addr : UInt16}
    {size : UInt8} (hc : addr.toNat + size.toNat ≤ sizeofConfig) (data : ℕ → UInt8) :
    wp (configWriteField addr data size)
      (fun _ t => Accounts l (afterWrite^[(addr.toNat % 2 + size.toNat + 1) / 2] l) b.cleared t ∧
        ∃ W, Keeping fates W (afterWrite^[(addr.toNat % 2 + size.toNat + 1) / 2] l) t ∧
          ∀ v, V v ≠ none → W v ≠ none)
      (CutOff fates) b := by
  simp only [configWriteField, utilsSysLockCnt, utilsSysUnlockCnt, wp_bind, wp_get, wp_modify,
    wp_clear_flag, wp_pure]
  have hlength : (fieldHalfWords addr.toNat size.toNat).length =
      (addr.toNat % 2 + size.toNat + 1) / 2 := List.length_range'
  rw [← hlength]
  refine wp_mono (wp_store_each_level (V := V) (fun i hi => ?_) ⟨h.pages⟩ (Or.inl hV)) ?_
    fun _ ht => ht
  · have := (mem_field_half_words.mp hi).2
    unfold liveVars
    unfold sizeofConfig at *
    omega
  · rintro isOk t ⟨rfl, hcount, W, hW, hvalues, -⟩
    exact ⟨hcount, W, ⟨hW.pages⟩, hvalues⟩

theorem wp_init_level (hr : Ready fates A b.cleared.eeprom) (hb : b.eeprom.flash.history = [])
    (hA : AtLevel V l A) (hV : Full V) :
    wp configInit
      (fun _ t => Worn l t ∧
        ∀ q, erasures q t.eeprom.flash = if q = (inUse l).other then 1 else 0)
      (CutOff fates) b := by
  have hnone (q : Page) : erasures q b.cleared.eeprom.flash = 0 := by
    change b.eeprom.flash.history.countP _ = 0
    rw [hb]
    rfl
  have hsame : A.erase (inUse l).other = A := by
    rw [Pages.erase, ← hA.normal.other, Function.update_eq_self]
  simp only [configInit, wp_bind, wp_clear_flag, wp_onPart]
  change wp eeInit _ _ b.cleared.eeprom
  rw [wp_init_normal hr.pages hA.normal.header (by rw [hA.normal.other])]
  refine wp_mono (wp_and (wp_erase hr (inUse l).other)
    (wp_all fun q => wp_erase_counted q (inUse l).other b.cleared.eeprom)) ?_ fun _ ht => ht.1.1
  rintro st e ⟨⟨rfl, he⟩, hcount⟩
  rw [hsame] at he
  have hd (i : ℕ) (hi : i < sizeofConfig / 2) :
      V (virtAddr i) = some ((V (virtAddr i)).getD 0) := by
    obtain ⟨x, hx⟩ := Option.ne_none_iff_exists'.mp (hV _ (virt_addr_mem hi))
    rw [hx]
    rfl
  refine wp_mono (wp_read_all_found (b := { b.cleared with eeprom := e })
    ⟨A, inUse l, he.pages, hA.normal.header, hA.normal.header_ne, hA.normal.stores⟩ hd) ?_
    fun _ h => h
  rintro isOk t ⟨-, ht, -⟩
  rw [Loaded] at ht
  refine ⟨⟨A, V, ?_, hA, hV⟩, fun q => ?_⟩
  · rw [ht]
    exact he.pages
  · rw [ht]
    rw [hcount q rfl, hnone, Nat.zero_add]

theorem wp_format_counted (h : Ready fates A e) (hnone : ∀ q, erasures q e.flash = 0) :
    wp eeFormat
      (fun _ t => ∃ B, Ready fates B t ∧ Formatted B ∧ ∀ q, erasures q t.flash = 1)
      (fun t => fates t.flash.mem t.flash.history = .cut) e := by
  have hcounted {A : Pages} {e : Eeprom} (h : Ready fates A e) (p : Page) :=
    wp_and (wp_erase h p) (wp_all fun q => wp_erase_counted q p e)
  unfold eeFormat checked
  refine wp_seq (hcounted h .page0) ?_ fun _ ht => ht.1.1
  rintro st t ⟨⟨rfl, ht⟩, h₀⟩
  rw [if_pos rfl]
  refine wp_seq (wp_and (wp_mark (p := .page0) ht (Or.inr rfl))
    (wp_all fun q => (erasures_spared q).mark _ _ t)) ?_ fun _ ht => ht.1.1
  rintro st u ⟨⟨rfl, hu⟩, hsame⟩
  rw [if_pos rfl]
  refine wp_mono (hcounted hu .page1) ?_ fun _ ht => ht.1.1
  rintro st w ⟨⟨rfl, hw⟩, h₁⟩
  refine ⟨_, hw, ?_, fun q => ?_⟩
  · funext p
    cases p <;> rfl
  · rw [h₁ q rfl, hsame q, h₀ q rfl, hnone q]
    cases q <;> rfl

theorem formatted_level (h : Formatted A) : AtLevel (fun _ => none) ⟨0, 0⟩ A where
  normal := h.normal
  only := by
    subst h
    exact fun v hv => absurd hv List.not_mem_nil
  used := by
    subst h
    rfl

theorem wp_first_init (hs : fates.Sound) (hblank : BlankPages b.eeprom.flash.mem)
    (hf : b.eeprom.flash.fates = fates) (hb : b.eeprom.flash.history = []) :
    wp configInit
      (fun _ t => Worn ⟨liveVars, 0⟩ t ∧ ∀ q, erasures q t.eeprom.flash = 1)
      (CutOff fates) b := by
  have hr := ready_cleared hs (holds_blank hblank) hf hb
  have hnone (q : Page) : erasures q b.cleared.eeprom.flash = 0 := by
    change b.eeprom.flash.history.countP _ = 0
    rw [hb]
    rfl
  simp only [configInit, wp_bind, wp_clear_flag, wp_onPart]
  change wp eeInit _ _ b.cleared.eeprom
  rw [wp_init_same hr.pages (Or.inl rfl) fun _ => rfl]
  refine wp_mono (wp_format_counted hr hnone) ?_ fun _ ht => ht
  rintro st e ⟨B, he, hB, hcount⟩
  have hlevel := formatted_level hB
  have hmissing : ∃ i ∈ List.range (sizeofConfig / 2),
      ∀ d, eeReadVariable e.flash.mem (virtAddr i) ≠ .found d := by
    refine ⟨0, by decide, fun d hd => ?_⟩
    rw [read_variable ⟨B, .page0, he.pages, hB.normal.header, hB.normal.header_ne,
      hB.normal.stores⟩ (virt_addr_mem (by decide))] at hd
    cases hd
  simp only [configReadAll, wp_bind]
  refine wp_mono (wp_load_missing (b := { b.cleared with eeprom := e }) hmissing) ?_
    fun _ h => h.elim
  rintro isOk t ⟨rfl, ht, -⟩
  rw [Loaded] at ht
  have heeprom : t.eeprom = e := by rw [ht]
  rw [if_neg (by decide), configLoadDefaultConfiguration]
  simp only [wp_bind, wp_modify, wp_pure]
  have hkeep : Keeping fates (fun _ => none) ⟨0, 0⟩
      ({ t with config := overlay t.config defaultConfiguration } : Board).cleared := by
    refine ⟨⟨B, ⟨?_, ?_⟩, hlevel⟩⟩
    · exact heeprom ▸ he.pages
    · have := he.flash
      rw [← heeprom] at this
      exact this.clear
  have hwritten : afterWrite^[liveVars] ⟨0, 0⟩ = ⟨liveVars, 0⟩ :=
    (writes_room liveVars 0 (by decide)).trans (by rw [Nat.zero_add])
  refine wp_mono (wp_write_all_level hkeep (Or.inr (by decide))) ?_ fun _ h => h
  rintro isOk u ⟨hu, W, hW, -, hfull⟩
  rw [hwritten] at hu hW
  refine ⟨hW.worn hfull, fun q => ?_⟩
  have hq : erasures q u.eeprom.flash + transfersFrom q ⟨0, 0⟩ =
      erasures q t.eeprom.flash + transfersFrom q ⟨liveVars, 0⟩ := hu q
  rw [heeprom, hcount q] at hq
  cases q <;> exact hq

theorem worn_ready (h : Worn l b) : ∃ A V, Ready steady A (b.under steady).cleared.eeprom ∧
    AtLevel V l A ∧ Full V := by
  obtain ⟨A, V, hold, hA, hV⟩ := h
  exact ⟨A, V, ready_cleared steady_sound hold rfl rfl, hA, hV⟩

theorem worn_step (h : Worn l b) {c : Call} (hc : c.InBounds) :
    Worn (c.level l) (b.perform steady c).2 ∧ CallAccounts l c (b.perform steady c).2 := by
  obtain ⟨A, V, hr, hA, hV⟩ := worn_ready h
  have hrun : wp c.run (fun _ t => Worn (c.level l) t ∧ CallAccounts l c t)
      (CutOff steady) (b.under steady) := by
    cases c with
    | init =>
      rw [Call.run, wp_bind, wp_modify]
      refine wp_mono (wp_init_level (b := (b.under steady).powerUp)
        ⟨hr.pages, hr.flash⟩ rfl hA hV)
        ?_ fun _ h => h
      rintro isOk t ⟨ht, hcount⟩
      refine ⟨ht, fun q => ?_⟩
      rw [hcount q]
      rfl
    | writeField addr data size =>
      rw [Call.run, wp_map]
      refine wp_mono (wp_write_field_level ⟨A, hr, hA⟩ hV hc data) ?_ fun _ h => h
      rintro r t ⟨hcount, W, hW, hvalues⟩
      exact (stored_full hV hcount rfl hW hvalues).symm
    | writeAll =>
      refine wp_mono (wp_write_all_level ⟨A, hr, hA⟩ (Or.inl hV)) ?_ fun _ h => h
      rintro isOk t ⟨hcount, W, hW, hvalues, -⟩
      exact (stored_full hV hcount rfl hW hvalues).symm
  obtain ⟨r, t, he, ht⟩ := steady_returns hrun
  rw [Board.perform, he]
  exact ht

def Board.erasuresOver (q : Page) : Board → List Call → ℕ
  | _, [] => 0
  | b, c :: cs =>
    let t := (b.perform steady c).2
    erasures q t.eeprom.flash + t.erasuresOver q cs

def resets (cs : List Call) : ℕ :=
  cs.countP fun c => match c with
    | .init => true
    | _ => false

def storedBy (cs : List Call) : ℕ := (cs.map Call.halfWords).sum

/-- The erasures of page `q` by resets. -/
def blanksOver (q : Page) : Level → List Call → ℕ
  | _, [] => 0
  | l, c :: cs => c.blanks q l + blanksOver q (c.level l) cs

theorem blanks_over_sum (l : Level) (cs : List Call) :
    blanksOver .page0 l cs + blanksOver .page1 l cs = resets cs := by
  induction cs generalizing l with
  | nil => rfl
  | cons c cs ih =>
    have hone : c.blanks .page0 l + c.blanks .page1 l = resets [c] := by
      cases c with
      | init =>
        unfold Call.blanks
        cases inUse l <;> rfl
      | writeField => rfl
      | writeAll => rfl
    have hcons : resets (c :: cs) = resets [c] + resets cs := by
      rw [resets, resets, resets, ← List.countP_append]
      rfl
    have := ih (c.level l)
    rw [blanksOver, blanksOver, hcons]
    omega

theorem worn_run (h : Worn l b) (cs : List Call) (hcs : ∀ c ∈ cs, c.InBounds) (q : Page) :
    b.erasuresOver q cs + transfersFrom q l =
      blanksOver q l cs + transfersFrom q (afterWrite^[storedBy cs] l) := by
  induction cs generalizing b l with
  | nil => rfl
  | cons c cs ih =>
    obtain ⟨hnext, hcount⟩ := worn_step h (hcs c List.mem_cons_self)
    have hrest := ih hnext fun d hd => hcs d (List.mem_cons_of_mem c hd)
    have hlevel : afterWrite^[storedBy (c :: cs)] l = afterWrite^[storedBy cs] (c.level l) := by
      rw [storedBy, List.map_cons, List.sum_cons, Nat.add_comm, Function.iterate_add_apply]
      rfl
    have := hcount q
    rw [Board.erasuresOver, blanksOver, hlevel]
    omega

/-- From erased pages, config_init and any calls after it while no flash operation fails: the
first start erases each page once, every reset once more the page that is not in use, and every
474 half-words stored after the first start cost one page transfer. Transfers leave the two pages
in turn. -/
theorem erasures_exact (b : Board) (hb : BlankPages b.eeprom.flash.mem) (cs : List Call)
    (hcs : ∀ c ∈ cs, c.InBounds) :
    b.erasuresOver .page0 (.init :: cs) =
        1 + blanksOver .page0 ⟨liveVars, 0⟩ cs + (storedBy cs / 474 + 1) / 2 ∧
      b.erasuresOver .page1 (.init :: cs) =
        1 + blanksOver .page1 ⟨liveVars, 0⟩ cs + storedBy cs / 474 / 2 ∧
      b.erasuresOver .page0 (.init :: cs) + b.erasuresOver .page1 (.init :: cs) =
        2 + resets cs + storedBy cs / 474 := by
  have hfirst : wp Call.init.run
      (fun _ t => Worn ⟨liveVars, 0⟩ t ∧ ∀ q, erasures q t.eeprom.flash = 1)
      (CutOff steady) (b.under steady) := by
    rw [Call.run, wp_bind, wp_modify]
    exact wp_first_init (b := (b.under steady).powerUp) steady_sound hb rfl rfl
  obtain ⟨r, t, he, ht, hcount⟩ := steady_returns hfirst
  have hlevel : afterWrite^[storedBy cs] ⟨liveVars, 0⟩ =
      ⟨liveVars + storedBy cs % 474, storedBy cs / 474⟩ :=
    writes_level (by decide : liveVars ≤ slots) (storedBy cs)
  have hrun (q : Page) : b.erasuresOver q (.init :: cs) =
      1 + blanksOver q ⟨liveVars, 0⟩ cs +
        transfersFrom q ⟨liveVars + storedBy cs % 474, storedBy cs / 474⟩ := by
    have := worn_run ht cs hcs q
    have hnone : transfersFrom q ⟨liveVars, 0⟩ = 0 := by cases q <;> rfl
    rw [hlevel, hnone] at this
    rw [Board.erasuresOver, Board.perform, he]
    change erasures q t.eeprom.flash + t.erasuresOver q cs = _
    rw [hcount q]
    omega
  have hblanks := blanks_over_sum ⟨liveVars, 0⟩ cs
  have h₀ := hrun .page0
  have h₁ := hrun .page1
  simp only [transfersFrom] at h₀ h₁
  exact ⟨h₀, h₁, by omega⟩

/-- Thirteen writes of everything fill page 0, which the transfer and the reset erase. -/
theorem erasures_exact_transfer :
    blankBoard.erasuresOver .page0 (.init :: (List.replicate 13 .writeAll ++ [.init])) = 3 ∧
      blankBoard.erasuresOver .page1 (.init :: (List.replicate 13 .writeAll ++ [.init])) = 1 := by
  have hbounds : ∀ c ∈ List.replicate 13 Call.writeAll ++ [.init], c.InBounds := by
    simp [Call.InBounds]
  obtain ⟨h₀, h₁, -⟩ := erasures_exact blankBoard (fun _ _ _ => rfl)
    (List.replicate 13 .writeAll ++ [.init]) hbounds
  rw [h₀, h₁]
  decide +kernel

end Boards

end Battman
