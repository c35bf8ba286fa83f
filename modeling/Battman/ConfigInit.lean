import Battman.ConfigStore

/-! config_init on erased pages, on pages in use, on what a power cut left, and on two
valid pages. -/
namespace Battman
open CutLogic RecordLog

variable {fates : Fates} {V W : Values} {b : Board} {d : ℕ → UInt16} {A : Pages}

/-- The stored values are the half-words of the configuration. -/
def Mirrored (config : ℕ → UInt8) (V : Values) : Prop :=
  ∀ i < sizeofConfig / 2, V (virtAddr i) = some (halfWordAt config i)

theorem virt_addr_mem {i : ℕ} (hi : i < sizeofConfig / 2) : virtAddr i ∈ configVars :=
  mem_config_vars.mpr ⟨i, hi, rfl⟩

theorem wp_config_init {P : EeStatus → Pages → Prop} {S : Pages → Prop}
    {Q : Bool → Board → Prop} {C : Board → Prop} (hinit : Spec fates eeInit (· = A) P S)
    (hr : Ready fates A b.cleared.eeprom)
    (hread : ∀ st B e, P st B → Ready fates B e → wp configReadAll Q C { b with eeprom := e })
    (hcut : ∀ e, Left fates S e → C { b with eeprom := e }) : wp configInit Q C b := by
  simp only [configInit, wp_bind, wp_clear_flag, wp_onPart]
  refine wp_mono (hinit A _ rfl hr) ?_ fun e he => hcut e he
  rintro st e ⟨B, hB, he⟩
  exact hread st B e hB he

theorem wp_read_all_loaded {C : Board → Prop}
    (hd : ∀ i < sizeofConfig / 2, eeReadVariable b.eeprom.flash.mem (virtAddr i) = .found (d i)) :
    wp configReadAll
      (fun isOk t => isOk = true ∧ Loaded b t ∧
        ∀ i < sizeofConfig / 2, halfWordAt t.config i = d i) C b := by
  simp only [configReadAll, wp_bind]
  refine wp_mono (wp_load_each fun i hi => hd i (List.mem_range.mp hi)) ?_ fun _ hf => hf.elim
  rintro isOk t ⟨rfl, ht, hv⟩
  rw [if_pos rfl, wp_pure]
  exact ⟨rfl, ht, fun i hi => (hv i).1 (List.mem_range.mpr hi)⟩

theorem wp_read_all_found {C : Board → Prop} (h : Readable V b.eeprom.flash.mem)
    (hd : ∀ i < sizeofConfig / 2, V (virtAddr i) = some (d i)) :
    wp configReadAll
      (fun isOk t => isOk = true ∧ Loaded b t ∧
        ∀ i < sizeofConfig / 2, halfWordAt t.config i = d i) C b := by
  apply wp_read_all_loaded
  intro i hi
  rw [read_variable h (virt_addr_mem hi), hd i hi]
  rfl

theorem default_configuration_length : defaultConfiguration.length = sizeofConfig := by decide

/-- The defaults cover the whole structure, so nothing of what was loaded is left. -/
theorem overlay_default_congr {config config' : ℕ → UInt8}
    (h : ∀ k, sizeofConfig ≤ k → config k = config' k) :
    overlay config defaultConfiguration = overlay config' defaultConfiguration := by
  funext k
  rcases Nat.lt_or_ge k sizeofConfig with hk | hk
  · rw [← default_configuration_length] at hk
    rw [overlay, overlay, List.getD_eq_getElem _ _ hk, List.getD_eq_getElem _ _ hk]
  · have hlen := default_configuration_length
    rw [overlay, overlay, List.getD_eq_default _ _ (by omega), List.getD_eq_default _ _ (by omega)]
    exact h k hk

theorem wp_read_all_defaults {Q : Bool → Board → Prop} {C : Board → Prop}
    (h : ∃ i < sizeofConfig / 2, ∀ d, eeReadVariable b.eeprom.flash.mem (virtAddr i) ≠ .found d)
    (hwrite : wp configWriteAll (fun _ t => Q false t) C
      { b with config := overlay b.config defaultConfiguration }) : wp configReadAll Q C b := by
  obtain ⟨i, hi, hmiss⟩ := h
  simp only [configReadAll, wp_bind]
  refine wp_mono (wp_load_missing ⟨i, List.mem_range.mpr hi, hmiss⟩) ?_ fun _ hf => hf.elim
  rintro isOk t ⟨rfl, ht, hk⟩
  have hover : overlay t.config defaultConfiguration = overlay b.config defaultConfiguration := by
    apply overlay_default_congr
    intro k hlarge
    apply hk
    rw [List.mem_range]
    unfold sizeofConfig at *
    omega
  rw [Loaded] at ht
  simp only [Bool.false_eq_true, if_false, configLoadDefaultConfiguration, wp_bind, wp_modify,
    wp_pure, hover]
  rw [ht]
  exact hwrite

theorem wp_read_all_missing (h : InUse fates (fun _ => none) b) :
    wp configReadAll
      (fun isOk t => isOk = false ∧ t.config = overlay b.config defaultConfiguration ∧
        ∃ W, InUse fates W t ∧
          Stored t.config (List.range (sizeofConfig / 2)) (fun _ => none) W
            { b with config := t.config } t)
      (fun t => fates t.eeprom.flash.mem t.eeprom.flash.history = .cut) b := by
  obtain ⟨A, p, hr, hA⟩ := h
  have hread : Readable (fun _ => none) b.eeprom.flash.mem :=
    ⟨A, p, hr.pages, hA.header, hA.header_ne, hA.stores⟩
  let c := overlay b.config defaultConfiguration
  have hready : Ready fates A ({ b with config := c } : Board).cleared.eeprom :=
    ⟨hr.pages, hr.flash.clear⟩
  have hmissing : eeReadVariable b.eeprom.flash.mem (virtAddr 0) = .notFound :=
    read_variable hread (virt_addr_mem (by decide))
  apply wp_read_all_defaults ⟨0, by decide, fun d => by rw [hmissing]; nofun⟩
  refine wp_mono (wp_write_all (b := { b with config := c }) ⟨A, p, hready, hA⟩) ?_
    fun t ht => ht.1
  rintro isOk t ⟨-, W, ht, hs⟩
  refine ⟨rfl, hs.config, W, ht, ?_⟩
  rw [hs.config]
  exact hs

/-- A first access, or two valid pages taken for an invalid state: the defaults. -/
theorem wp_init_format (hs : fates.Sound) (hold : Holds b.eeprom.flash.mem A)
    (hf : b.eeprom.flash.fates = fates) (hh : b.eeprom.flash.history = [])
    (hA : (∀ p, (A p).header = erased) ∨ BothValid A) :
    wp configInit
      (fun isOk t => isOk = false ∧ t.config = overlay b.config defaultConfiguration ∧
        ∃ W, InUse fates W t ∧
          Stored t.config (List.range (sizeofConfig / 2)) (fun _ => none) W
            { b with config := t.config } t)
      (fun t => fates t.eeprom.flash.mem t.eeprom.flash.history = .cut) b := by
  have hinit : Spec fates eeInit (· = A) (Done Formatted) (fun _ => True) := by
    rcases hA with hA | hA
    · exact init_erased.mono (fun B hB => hB ▸ hA) (fun _ _ h => h) fun _ h => h
    · exact init_both_valid.mono (fun B hB => hB ▸ hA) (fun _ _ h => h) fun _ h => h
  refine wp_config_init hinit (ready_cleared hs hold hf hh) ?_ fun e he => he.1
  rintro st B e ⟨-, hB⟩ he
  refine wp_mono (wp_read_all_missing (b := { b with eeprom := e }) ⟨B, .page0, he, hB.normal⟩)
    ?_ fun _ h => h
  rintro isOk t ⟨hok, hc, W, ht, hst⟩
  exact ⟨hok, hc, W, ht, hst.values, hst.others, hst.ledger, hst.ledgerOthers, hst.config⟩

theorem wp_init_found (h : AtRest fates V b) (hs : fates.Sound)
    (hd : ∀ i < sizeofConfig / 2, V (virtAddr i) = some (d i)) :
    wp configInit
      (fun isOk t => isOk = true ∧ InUse fates V t ∧
        ∀ i < sizeofConfig / 2, halfWordAt t.config i = d i)
      (fun t => fates t.eeprom.flash.mem t.eeprom.flash.history = .cut) b := by
  obtain ⟨A, p, hold, hA⟩ := h.pages
  refine wp_config_init (init_normal.mono (fun B hB => hB ▸ hA) (fun _ _ h => h) fun _ h => h)
    (ready_cleared hs hold h.fates_eq h.history) ?_ fun e he => he.1
  rintro st B e ⟨-, hB⟩ he
  refine wp_mono (wp_read_all_found (b := { b with eeprom := e })
    ⟨B, p, he.pages, hB.header, hB.header_ne, hB.stores⟩ hd) ?_ fun _ h => h
  rintro isOk t ⟨hok, ht, hv⟩
  rw [Loaded] at ht
  refine ⟨hok, ⟨B, p, ?_, hB⟩, hv⟩
  rw [ht]
  exact he

theorem Settled.readable {ok : UInt16 → Option UInt16 → Prop} {mem : Memory}
    (h : Settled ok A) (hold : Holds mem A) : ∃ V, Readable V mem ∧ Agrees ok V := by
  cases h with
  | @normal V p h hV => exact ⟨V, ⟨A, p, hold, h.header, h.header_ne, h.stores⟩, hV⟩
  | @stuck V W p h hfull hV hW => exact ⟨V, ⟨A, p, hold, h.header, h.header_ne, h.stores⟩, hV⟩

theorem wp_init_safe (hs : fates.Sound) (hold : Holds b.eeprom.flash.mem A)
    (hf : b.eeprom.flash.fates = fates) (hh : b.eeprom.flash.history = [])
    (hA : Safe (Allowed b.ledger) A) :
    wp configInit
      (fun isOk t => isOk = true ∧ t.ledger = b.ledger ∧
        (∃ B, Settled (Allowed b.ledger) B ∧ Holds t.eeprom.flash.mem B) ∧
        ∀ i < sizeofConfig / 2, Allowed b.ledger (virtAddr i) (some (halfWordAt t.config i)))
      (fun t => t.ledger = b.ledger ∧
        ∃ B, (Safe (Allowed b.ledger) B ∨ BothValid B) ∧ Holds t.eeprom.flash.mem B) b := by
  refine wp_config_init (init_safe.mono (fun B hB => hB ▸ hA) (fun _ _ h => h) fun _ h => h)
    (ready_cleared hs hold hf hh) ?_ fun e he => ⟨rfl, he.2⟩
  rintro st B e hB he
  obtain ⟨V, hread, hV⟩ := hB.readable he.pages
  have hsome (i : ℕ) (hi : i < sizeofConfig / 2) :
      V (virtAddr i) = some ((V (virtAddr i)).getD 0) := by
    obtain ⟨x, hx, -⟩ := hV _ (virt_addr_mem hi)
    rw [hx]
    rfl
  refine wp_mono (wp_read_all_found (b := { b with eeprom := e }) hread hsome) ?_ fun _ h => h
  rintro isOk t ⟨hok, ht, hv⟩
  rw [Loaded] at ht
  refine ⟨hok, by rw [ht], ⟨B, hB, by rw [ht]; exact he.pages⟩, fun i hi => ?_⟩
  rw [hv i hi, ← hsome i hi]
  exact hV _ (virt_addr_mem hi)

end Battman
