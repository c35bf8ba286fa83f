import Battman.ConfigMirror
import Battman.EepromCuts

/-! config_read_all on pages with any content: the stored configuration or the defaults, never
a mixture, and the defaults it stores are what is loaded next. -/
namespace Battman
open CutLogic RecordLog

def defaults : ℕ → UInt8 := overlay (fun _ => 0) defaultConfiguration

def slotAt (mem : Memory) (p : Page) (i : ℕ) : Record :=
  (mem (p.base + 4 * (i + 1) + 2), mem (p.base + 4 * (i + 1)))

def NewestBelow (mem : Memory) (p : Page) (v d : UInt16) (n : ℕ) : Prop :=
  ∃ i < n, slotAt mem p i = (v, d) ∧ ∀ j, i < j → j < n → (slotAt mem p j).1 ≠ v

/-- The valid page has records of `v`, the newest with the data `d`. -/
def StoredAs (mem : Memory) (v d : UInt16) : Prop :=
  ∃ p, eeFindValidPage .readFromValidPage mem = some p ∧ NewestBelow mem p v d slots

def LoadedFrom (mem : Memory) (config : ℕ → UInt8) : Prop :=
  ∀ i < sizeofConfig / 2, StoredAs mem (virtAddr i) (halfWordAt config i)

def Complete (mem : Memory) : Prop :=
  ∃ p, eeFindValidPage .readFromValidPage mem = some p ∧
    ∀ i < sizeofConfig / 2, ∃ s < slots, (slotAt mem p s).1 = virtAddr i

/-- Page `p` is the one valid page, with its used slots before the blank ones, and the other
page is erased. -/
structure OneValid (mem : Memory) (p : Page) : Prop where
  header : mem p.base = validPage
  used : ∀ i j, i < j → j < slots → slotAt mem p i = blank → slotAt mem p j = blank
  other : ∀ k < pageSize / 2, mem (p.other.base + 2 * k) = erased

variable {b : Board} {mem : Memory} {p : Page} {v d : UInt16} {n : ℕ}

section Reading

theorem newest_below_succ : NewestBelow mem p v d (n + 1) ↔
    if (slotAt mem p n).1 = v then (slotAt mem p n).2 = d else NewestBelow mem p v d n := by
  by_cases hv : (slotAt mem p n).1 = v
  · rw [if_pos hv]
    constructor
    · rintro ⟨i, hi, hs, hlast⟩
      have hin : ¬ i < n := fun hlt => hlast n hlt (by omega) hv
      obtain rfl : i = n := by omega
      rw [hs]
    · intro hd
      exact ⟨n, by omega, Prod.ext hv hd, fun j hj hjn => absurd hj (by omega)⟩
  · rw [if_neg hv]
    constructor
    · rintro ⟨i, hi, hs, hlast⟩
      have hne : i ≠ n := by
        rintro rfl
        exact hv (by rw [hs])
      exact ⟨i, by omega, hs, fun j hj hjn => hlast j hj (by omega)⟩
    · rintro ⟨i, hi, hs, hlast⟩
      refine ⟨i, by omega, hs, fun j hj hjn => ?_⟩
      by_cases he : j = n
      · rwa [he]
      · exact hlast j hj (by omega)

theorem read_loop_found_iff (n : ℕ) :
    readLoop mem v p.base n = .found d ↔ NewestBelow mem p v d n := by
  induction n with
  | zero =>
    constructor
    · nofun
    · rintro ⟨i, hi, -⟩
      exact absurd hi (Nat.not_lt_zero i)
  | succ n ih =>
    rw [readLoop, newest_below_succ, ← ih]
    change (if (slotAt mem p n).1 = v then ReadResult.found (slotAt mem p n).2 else _) = _ ↔ _
    by_cases hv : (slotAt mem p n).1 = v
    · rw [if_pos hv, if_pos hv, ReadResult.found.injEq]
    · rw [if_neg hv, if_neg hv]

theorem read_variable_found_iff : eeReadVariable mem v = .found d ↔ StoredAs mem v d := by
  unfold eeReadVariable StoredAs
  cases hp : eeFindValidPage .readFromValidPage mem with
  | none =>
    constructor
    · nofun
    · rintro ⟨p, hp, -⟩
      cases hp
  | some p =>
    constructor
    · intro h
      exact ⟨p, rfl, (read_loop_found_iff slots).mp h⟩
    · rintro ⟨q, hq, h⟩
      obtain rfl := Option.some.inj hq
      exact (read_loop_found_iff slots).mpr h

theorem exists_newest_below_iff :
    (∃ d, NewestBelow mem p v d n) ↔ ∃ i < n, (slotAt mem p i).1 = v := by
  constructor
  · rintro ⟨d, i, hi, hs, -⟩
    exact ⟨i, hi, by rw [hs]⟩
  · induction n with
    | zero =>
      rintro ⟨i, hi, -⟩
      exact absurd hi (Nat.not_lt_zero i)
    | succ n ih =>
      rintro ⟨i, hi, hs⟩
      simp only [newest_below_succ]
      by_cases hv : (slotAt mem p n).1 = v
      · exact ⟨_, by rw [if_pos hv]⟩
      · have hne : i ≠ n := by
          rintro rfl
          exact hv hs
        obtain ⟨d, hd⟩ := ih ⟨i, by omega, hs⟩
        exact ⟨d, by rwa [if_neg hv]⟩

theorem complete_iff :
    Complete mem ↔ ∀ i < sizeofConfig / 2, ∃ d, eeReadVariable mem (virtAddr i) = .found d := by
  simp only [read_variable_found_iff, StoredAs]
  constructor
  · rintro ⟨p, hp, hall⟩ i hi
    obtain ⟨d, hd⟩ := exists_newest_below_iff.mpr (hall i hi)
    exact ⟨d, p, hp, hd⟩
  · intro h
    obtain ⟨_, p, hp, -⟩ := h 0 (by decide)
    refine ⟨p, hp, fun i hi => ?_⟩
    obtain ⟨d, q, hq, hd⟩ := h i hi
    obtain rfl := Option.some.inj (hp.symm.trans hq)
    exact exists_newest_below_iff.mp ⟨d, hd⟩

end Reading

section Pages

theorem exists_used (h : ∀ i j, i < j → j < n → slotAt mem p i = blank → slotAt mem p j = blank) :
    ∃ m ≤ n, (∀ i < m, slotAt mem p i ≠ blank) ∧ ∀ i, m ≤ i → i < n → slotAt mem p i = blank := by
  by_cases hb : ∃ i, i < n ∧ slotAt mem p i = blank
  · obtain ⟨hlt, hblank⟩ := Nat.find_spec hb
    refine ⟨Nat.find hb, hlt.le, fun i hi he => ?_, fun i hi hin => ?_⟩
    · exact Nat.find_min hb hi ⟨hi.trans hlt, he⟩
    · by_cases he : Nat.find hb = i
      · rwa [← he]
      · exact h _ i (by omega) hin hblank
  · exact ⟨n, le_rfl, fun i hi he => hb ⟨i, hi, he⟩, fun i hi hin => absurd hin (by omega)⟩

theorem OneValid.page_is (h : OneValid mem p) : ∃ log, PageIs mem p ⟨validPage, log⟩ := by
  obtain ⟨m, hm, hused, hblank⟩ := exists_used h.used
  have hslot {i : ℕ} (hi : i < slots) :
      ((List.range m).map (slotAt mem p)).getD i blank = slotAt mem p i := by
    rcases Nat.lt_or_ge i m with him | him
    · rw [List.getD_eq_getElem _ _ (by simpa using him), List.getElem_map, List.getElem_range]
    · rw [List.getD_eq_default _ _ (by simpa using him), hblank i him hi]
  refine ⟨(List.range m).map (slotAt mem p), h.header, by simpa using hm, fun i hi => ?_,
    fun i hi => ?_, fun r hr => ?_⟩
  · rw [hslot hi]
    rfl
  · rw [hslot hi]
    rfl
  · obtain ⟨i, hi, rfl⟩ := List.mem_map.mp hr
    exact hused i (List.mem_range.mp hi)

/-- Such pages are between two writes, with the values of their newest records. -/
theorem OneValid.at_rest (h : OneValid b.flash.mem p) : ∃ V, AtRest steady V (b.under steady) := by
  obtain ⟨log, hpage⟩ := h.page_is
  let A : Pages := Function.update (fun _ => ⟨erased, []⟩) p ⟨validPage, log⟩
  have hp : A p = ⟨validPage, log⟩ := Function.update_self ..
  have ho : A p.other = ⟨erased, []⟩ := Function.update_of_ne (other_ne p) ..
  have hold : Holds b.flash.mem A := by
    intro q
    rcases eq_or_other p q with rfl | rfl
    · rwa [hp]
    · rw [ho]
      exact page_erased h.other
  refine ⟨fun v => latest v log, ⟨A, p, hold, ?_, fun v _ => ?_, ho⟩, rfl, rfl⟩
  · rw [hp]
  · rw [hp]

end Pages

section Loading

theorem load_complete (h : Complete b.flash.mem) :
    ∃ t, exec configReadAll b = (some true, t) ∧ Loaded b t ∧ LoadedFrom b.flash.mem t.config := by
  choose! d hd using complete_iff.mp h
  obtain ⟨isOk, t, he, rfl, ht, hv⟩ := wp_returns (wp_read_all_loaded hd)
  refine ⟨t, he, ht, fun i hi => ?_⟩
  rw [hv i hi]
  exact read_variable_found_iff.mp (hd i hi)

theorem not_complete (h : ¬ Complete mem) :
    ∃ i < sizeofConfig / 2, ∀ d, eeReadVariable mem (virtAddr i) ≠ .found d := by
  by_contra hall
  refine h (complete_iff.mpr fun i hi => ?_)
  by_contra hd
  exact hall ⟨i, hi, fun d he => hd ⟨d, he⟩⟩

theorem overlay_defaults (config : ℕ → UInt8) :
    SameBytes (overlay config defaultConfiguration) defaults := by
  intro k hk
  rw [← default_configuration_length] at hk
  rw [defaults, overlay, overlay, List.getD_eq_getElem _ _ hk, List.getD_eq_getElem _ _ hk]

theorem wp_load_incomplete (h : ¬ Complete b.flash.mem) :
    wp configReadAll (fun isOk t => isOk = false ∧ SameBytes t.config defaults)
      (fun t => b.flash.fates t.flash.mem t.flash.history = .cut ∧ SameBytes t.config defaults)
      b := by
  apply wp_read_all_defaults (not_complete h)
  refine wp_mono (wp_and (aside_config.write_all (fun _ _ => rfl) _) (cut_write_all _)) ?_ ?_
  · rintro isOk t ⟨ht, -⟩
    rw [ht]
    exact ⟨rfl, overlay_defaults b.config⟩
  · rintro t ⟨ht, hcut⟩
    rw [ht]
    exact ⟨hcut, overlay_defaults b.config⟩

theorem load_incomplete_stored (hp : OneValid b.flash.mem p) (h : ¬ Complete b.flash.mem) :
    ∃ t, exec configReadAll (b.under steady) = (some false, t) ∧ SameBytes t.config defaults ∧
      LoadedFrom t.flash.mem t.config := by
  obtain ⟨V, hrest⟩ := hp.at_rest
  obtain ⟨A, q, hold, hA⟩ := hrest.pages
  let c := overlay b.config defaultConfiguration
  have hready : Ready steady A ({ b.under steady with config := c } : Board).cleared.eeprom :=
    ready_cleared steady_sound hold rfl rfl
  have hrun : wp configReadAll
      (fun isOk t => isOk = false ∧ t.config = c ∧ LoadedFrom t.flash.mem t.config)
      (fun t => steady t.eeprom.flash.mem t.eeprom.flash.history = .cut) (b.under steady) := by
    apply wp_read_all_defaults (b := b.under steady) (not_complete h)
    refine wp_mono (wp_write_all ⟨A, q, hready, hA⟩) ?_ fun t ht => ht.1
    rintro isOk t ⟨-, W, ⟨B, r, ht, hB⟩, hs⟩
    refine ⟨rfl, hs.config, fun i hi => ?_⟩
    rw [hs.config, ← read_variable_found_iff,
      read_variable ⟨B, r, ht.pages, hB.header, hB.header_ne, hB.stores⟩ (virt_addr_mem hi),
      hs.values i (List.mem_range.mpr hi)]
    rfl
  obtain ⟨isOk, t, he, rfl, hc, hstored⟩ := steady_returns hrun
  refine ⟨t, he, ?_, hstored⟩
  rw [hc]
  exact overlay_defaults b.config

theorem load_stored {config : ℕ → UInt8} (h : LoadedFrom b.flash.mem config) :
    ∃ t, exec configReadAll b = (some true, t) ∧ SameBytes t.config config := by
  obtain ⟨isOk, t, he, rfl, -, hv⟩ :=
    wp_returns (wp_read_all_loaded fun i hi => read_variable_found_iff.mpr (h i hi))
  exact ⟨t, he, same_of_half_words hv⟩

/-- config_read_all loads what is stored for every variable, or else the defaults in every byte.
With one valid page and a flash that works these are stored, and loaded the next time. -/
theorem configuration_loaded_whole (b : Board) :
    (Complete b.flash.mem → ∃ t, exec configReadAll b = (some true, t) ∧ Loaded b t ∧
      LoadedFrom b.flash.mem t.config) ∧
    (¬ Complete b.flash.mem →
      wp configReadAll (fun isOk t => isOk = false ∧ SameBytes t.config defaults)
        (fun t => b.flash.fates t.flash.mem t.flash.history = .cut ∧ SameBytes t.config defaults)
        b) ∧
    ∀ p, OneValid b.flash.mem p → ¬ Complete b.flash.mem →
      ∃ t, exec configReadAll (b.under steady) = (some false, t) ∧ SameBytes t.config defaults ∧
        LoadedFrom t.flash.mem t.config ∧
        ∀ fates, ∃ u, exec configReadAll (t.under fates) = (some true, u) ∧
          SameBytes u.config t.config := by
  refine ⟨load_complete, wp_load_incomplete, fun p hp h => ?_⟩
  obtain ⟨t, he, ht, hstored⟩ := load_incomplete_stored hp h
  exact ⟨t, he, ht, hstored, fun fates => load_stored hstored⟩

/-- Page 0 is valid and has a record without an address and one of address zero. -/
def twoRecords : Memory := fun a =>
  if a = Page.page0.base then validPage
  else if a = Page.page0.base + 4 then 5
  else if a = Page.page0.base + 8 then 7
  else if a = Page.page0.base + 10 then 0
  else erased

def twoRecordsBoard : Board :=
  { blankBoard with eeprom := ⟨⟨twoRecords, .complete, steady, []⟩, 0⟩ }

theorem two_records_behind {a : ℕ} (h : Page.page0.base + 10 < a) : twoRecords a = erased := by
  unfold twoRecords
  rw [if_neg (by omega), if_neg (by omega), if_neg (by omega), if_neg (by omega)]

theorem two_records_slot {i : ℕ} (hi : 2 ≤ i) : slotAt twoRecords .page0 i = blank :=
  Prod.ext (two_records_behind (by omega)) (two_records_behind (by omega))

theorem two_records_one_valid : OneValid twoRecords .page0 where
  header := rfl
  used i j hij hj hi := by
    apply two_records_slot
    have h₀ : i ≠ 0 := by
      rintro rfl
      exact absurd hi (by decide)
    omega
  other k hk := by
    apply two_records_behind
    change _ < Page.page0.base + pageSize + 2 * k
    unfold pageSize
    omega

theorem two_records_not_complete : ¬ Complete twoRecords := by
  rintro ⟨p, hp, hall⟩
  obtain rfl : Page.page0 = p := Option.some.inj hp
  obtain ⟨s, -, hs⟩ := hall 0 (by decide)
  rcases Nat.lt_or_ge s 2 with hlt | hge
  · interval_cases s <;> exact absurd hs (by decide)
  · rw [two_records_slot hge] at hs
    exact absurd hs (by decide)

theorem configuration_loaded_whole_two_records :
    ∃ t, exec configReadAll (twoRecordsBoard.under steady) = (some false, t) ∧
      SameBytes t.config defaults ∧ LoadedFrom t.flash.mem t.config ∧
      ∀ fates, ∃ u, exec configReadAll (t.under fates) = (some true, u) ∧
        SameBytes u.config t.config :=
  (configuration_loaded_whole twoRecordsBoard).2.2 .page0 two_records_one_valid
    two_records_not_complete

end Loading

end Battman
