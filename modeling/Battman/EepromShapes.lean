import Battman.EepromOps

/-! What the two pages store between operations. A page holds the values, or is being
copied to the other page, or has been copied and erased while the copy is still marked as
receiving. -/
namespace Battman
open CutLogic RecordLog

abbrev Values := UInt16 → Option UInt16

def Stores (V : Values) (log : List Record) : Prop := ∀ v ∈ configVars, latest v log = V v

structure Normal (V : Values) (p : Page) (A : Pages) : Prop where
  header : (A p).header = validPage
  stores : Stores V (A p).log
  other : A p.other = ⟨erased, []⟩

def firstAddress (log : List Record) : Option UInt16 := log.head?.map Prod.fst

/-- Page `p` is being copied. The other page is to hold `W`, which differs from `V` at
most in the address of its first record. -/
structure Moving (V W : Values) (p : Page) (A : Pages) : Prop where
  header : (A p).header = validPage
  stores : Stores V (A p).log
  receiving : (A p.other).header = receiveData
  carried : ∀ r ∈ (A p.other).log, r.1 ∈ configVars → W r.1 = some r.2
  same : ∀ v ∈ configVars, firstAddress (A p.other).log ≠ some v → W v = V v

structure Moved (W : Values) (p : Page) (A : Pages) : Prop where
  gone : A p = ⟨erased, []⟩
  receiving : (A p.other).header = receiveData
  stores : Stores W (A p.other).log

def Agrees (ok : UInt16 → Option UInt16 → Prop) (V : Values) : Prop :=
  ∀ v ∈ configVars, ok v (V v)

/-- The pages a power cut may leave and EE_Init recovers from. -/
inductive Safe (ok : UInt16 → Option UInt16 → Prop) (A : Pages) : Prop
  | normal {V : Values} {p : Page} (h : Normal V p A) (hV : Agrees ok V)
  | moving {V W : Values} {p : Page} (h : Moving V W p A) (hV : Agrees ok V) (hW : Agrees ok W)
  | moved {W : Values} {p : Page} (h : Moved W p A) (hW : Agrees ok W)

theorem Safe.mono {ok ok' : UInt16 → Option UInt16 → Prop} {A : Pages} (h : Safe ok A)
    (hok : ∀ v o, ok v o → ok' v o) : Safe ok' A := by
  have hmono {V : Values} (hV : Agrees ok V) : Agrees ok' V := fun v hv => hok v _ (hV v hv)
  cases h with
  | normal h hV => exact .normal h (hmono hV)
  | moving h hV hW => exact .moving h (hmono hV) (hmono hW)
  | moved h hW => exact .moved h (hmono hW)

def BothValid (A : Pages) : Prop := ∀ p, (A p).header = validPage

theorem virt_addr_toNat {i : ℕ} (hi : eepromBase + i < 65536) :
    (virtAddr i).toNat = eepromBase + i := UInt16.toNat_ofNat_of_lt' hi

theorem virt_addr_ne_erased {i : ℕ} (hi : eepromBase + i < 65535) : virtAddr i ≠ erased := by
  intro he
  have hn := virt_addr_toNat (i := i) (by omega)
  rw [he] at hn
  have : erased.toNat = 65535 := rfl
  omega

theorem mem_config_vars {v : UInt16} :
    v ∈ configVars ↔ ∃ i < sizeofConfig / 2, virtAddr i = v := by
  simp [configVars]

theorem config_var_ne_erased {v : UInt16} (h : v ∈ configVars) : v ≠ erased := by
  obtain ⟨i, hi, rfl⟩ := mem_config_vars.mp h
  exact virt_addr_ne_erased (by unfold sizeofConfig at hi; unfold eepromBase; omega)

theorem mem_virt_add_var_tab {v : UInt16} : v ∈ virtAddVarTab ↔ v ∈ configVars ∨ v = 0 := by
  unfold virtAddVarTab
  rw [List.mem_append, List.mem_replicate]
  exact or_congr_right (and_iff_right (by decide))

theorem ne_erased_of_mem {v : UInt16} (h : v ∈ virtAddVarTab) : v ≠ erased := by
  rcases mem_virt_add_var_tab.mp h with h | rfl
  · exact config_var_ne_erased h
  · decide

theorem virt_add_var_tab_length : virtAddVarTab.length = 160 := by
  simp [virtAddVarTab, configVars, sizeofConfig]

theorem Stores.append {V : Values} {log : List Record} (h : Stores V log) (r : Record) :
    Stores (Function.update V r.1 (some r.2)) (log ++ [r]) := by
  intro v hv
  rw [latest_concat, Function.update_apply, h v hv]

/-- A record whose address was not written yet stores nothing. -/
theorem Stores.append_half {V : Values} {log : List Record} (h : Stores V log) (d : UInt16) :
    Stores V (log ++ [(erased, d)]) := by
  intro v hv
  rw [latest_concat_of_ne (config_var_ne_erased hv), h v hv]

/-- A log in which every record of a configuration address carries its value, and every
address that has a value has a record, stores the values. -/
theorem stores_of_carried {W : Values} {log : List Record}
    (hc : ∀ r ∈ log, r.1 ∈ configVars → W r.1 = some r.2)
    (hall : ∀ v ∈ configVars, W v = none ∨ ∃ r ∈ log, r.1 = v) : Stores W log := by
  intro v hv
  by_cases hm : ∃ r ∈ log, r.1 = v
  · obtain ⟨r, hr, rfl⟩ := hm
    rw [hc r hr hv]
    refine latest_eq_of_forall (fun r' hr' he => ?_) ⟨r, hr, rfl⟩
    exact Option.some.inj ((hc r' hr' (he ▸ hv)).symm.trans (he ▸ hc r hr hv))
  · rcases hall v hv with hn | he
    · rw [hn]
      exact latest_eq_none fun r hr he => hm ⟨r, hr, he⟩
    · exact absurd he hm

section Append

variable {V W : Values} {p : Page} {A : Pages}

theorem Normal.append (h : Normal V p A) (r : Record) :
    Normal (Function.update V r.1 (some r.2)) p (A.append p r) where
  header := by rw [append_self, h.header]
  stores := by
    rw [append_self]
    exact h.stores.append r
  other := by rw [append_to_other, h.other]

theorem Normal.append_half (h : Normal V p A) (d : UInt16) :
    Normal V p (A.append p (erased, d)) where
  header := by rw [append_self, h.header]
  stores := by
    rw [append_self]
    exact h.stores.append_half d
  other := by rw [append_to_other, h.other]

theorem Moving.append (h : Moving V W p A) {r : Record}
    (hw : r.1 ∈ configVars → W r.1 = some r.2) : Moving V W p (A.append p.other r) where
  header := by rw [append_other, h.header]
  stores := by
    rw [append_other]
    exact h.stores
  receiving := by rw [append_self, h.receiving]
  carried r' hr' hv := by
    rw [append_self, List.mem_append, List.mem_singleton] at hr'
    rcases hr' with hr' | rfl
    · exact h.carried r' hr' hv
    · exact hw hv
  same v hv hf := by
    rw [append_self] at hf
    refine h.same v hv ?_
    cases hl : (A p.other).log with
    | nil => simp [firstAddress]
    | cons s log =>
      rw [hl] at hf
      exact hf

theorem Moving.append_half (h : Moving V W p A) (d : UInt16) :
    Moving V W p (A.append p.other (erased, d)) :=
  h.append fun hv => absurd rfl (config_var_ne_erased hv)

theorem Moving.append_first (h : Moving V V p A) (he : (A p.other).log = []) (r : Record) :
    Moving V (Function.update V r.1 (some r.2)) p (A.append p.other r) where
  header := by rw [append_other, h.header]
  stores := by
    rw [append_other]
    exact h.stores
  receiving := by rw [append_self, h.receiving]
  carried r' hr' _ := by
    rw [append_self, he] at hr'
    rw [List.mem_singleton.mp hr', Function.update_self]
  same v hv hf := by
    rw [append_self, he] at hf
    refine Function.update_of_ne (fun hvr => hf ?_) ..
    rw [hvr]
    rfl

end Append

section Find

variable {mem : Memory} {A : Pages} {p : Page}

theorem find_read (h : Holds mem A) (hp : (A p).header = validPage)
    (ho : (A p.other).header ≠ validPage) :
    eeFindValidPage .readFromValidPage mem = some p := by
  rw [← (h p).header] at hp
  rw [← (h p.other).header] at ho
  cases p
  · simp only [eeFindValidPage, hp, if_true]
  · simp only [eeFindValidPage, hp, if_true]
    exact if_neg ho

theorem find_write (h : Holds mem A) (hp : (A p).header = validPage)
    (ho : (A p.other).header ≠ validPage) :
    eeFindValidPage .writeInValidPage mem =
      some (if (A p.other).header = receiveData then p.other else p) := by
  rw [← (h p).header] at hp
  rw [← (h p.other).header] at ho ⊢
  cases p
  · simp only [Page.other] at ho ⊢
    simp only [eeFindValidPage, hp, if_true, if_neg ho]
    exact (apply_ite some _ _ _).symm
  · simp only [Page.other] at ho ⊢
    simp only [eeFindValidPage, hp, if_true]
    exact (apply_ite some _ _ _).symm

end Find

end Battman
