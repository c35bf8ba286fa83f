import Battman.EepromStore

/-! EE_Init on each pair of pages a power cut may leave. A transfer that it finishes passes
through two valid pages; cut there, the next EE_Init formats both. -/
namespace Battman
open CutLogic RecordLog

variable {fates : Fates} {V W : Values} {p : Page} {x d : UInt16}
  {ok : UInt16 → Option UInt16 → Prop} {A : Pages} {e : Eeprom}

section Cases

variable {Q : EeStatus → Eeprom → Prop} {C : Eeprom → Prop}

theorem wp_init_normal (h : Holds e.flash.mem A) (hp : (A p).header = validPage)
    (ho : (A p.other).header = erased) :
    wp eeInit Q C e ↔ wp (erase p.other) Q C e := by
  rw [← (h p).header] at hp
  rw [← (h p.other).header] at ho
  cases p <;> simp only [Page.other] at ho <;>
    simp [eeInit, hp, ho, erased_ne_valid, erased_ne_valid.symm, receive_ne_valid.symm, Page.other]

theorem wp_init_moving (h : Holds e.flash.mem A) (hp : (A p).header = validPage)
    (ho : (A p.other).header = receiveData) :
    wp eeInit Q C e ↔ wp (eeFinishTransfer p.other) Q C e := by
  rw [← (h p).header] at hp
  rw [← (h p.other).header] at ho
  cases p <;> simp only [Page.other] at ho <;>
    simp [eeInit, hp, ho, erased_ne_valid.symm, receive_ne_valid, receive_ne_valid.symm,
      erased_ne_receive.symm, Page.other]

theorem wp_init_moved (h : Holds e.flash.mem A) (hp : (A p).header = erased)
    (ho : (A p.other).header = receiveData) :
    wp eeInit Q C e ↔ wp (checked (erase p) (program p.other.base validPage)) Q C e := by
  rw [← (h p).header] at hp
  rw [← (h p.other).header] at ho
  cases p <;> simp only [Page.other] at ho <;>
    simp [eeInit, hp, ho, erased_ne_valid, receive_ne_valid, erased_ne_receive.symm, Page.other]

/-- Two erased pages are a first access; two valid pages are formatted like them. -/
theorem wp_init_same {header : UInt16} (h : Holds e.flash.mem A)
    (hh : header = erased ∨ header = validPage) (hA : ∀ p, (A p).header = header) :
    wp eeInit Q C e ↔ wp eeFormat Q C e := by
  have h₀ : e.flash.mem Page.page0.base = header := by rw [(h .page0).header, hA]
  have h₁ : e.flash.mem Page.page1.base = header := by rw [(h .page1).header, hA]
  rcases hh with rfl | rfl <;>
    simp [eeInit, h₀, h₁, erased_ne_valid, erased_ne_valid.symm, erased_ne_receive,
      receive_ne_valid.symm]

end Cases

def Formatted (A : Pages) : Prop := A = fun | .page0 => ⟨validPage, []⟩ | .page1 => ⟨erased, []⟩

theorem Formatted.normal (h : Formatted A) : Normal (fun _ => none) .page0 A := by
  subst h
  exact ⟨rfl, fun _ _ => rfl, rfl⟩

theorem format_spec : Spec fates eeFormat (fun _ => True) (Done Formatted) fun _ => True := by
  have h₁ : Spec fates (erase .page0) (fun _ => True)
      (Done fun A => A .page0 = ⟨erased, []⟩) fun _ => True := by
    apply spec_erase
    · exact fun A _ => erase_self ..
    · exact fun _ _ => trivial
  have h₂ : Spec fates (program Page.page0.base validPage) (fun A => A .page0 = ⟨erased, []⟩)
      (Done fun A => A .page0 = ⟨validPage, []⟩) fun _ => True := by
    apply spec_mark
    · exact fun _ _ => Or.inr rfl
    · exact fun A hA => (mark_self ..).trans (by rw [hA])
    · exact fun _ _ => trivial
  refine h₁.checked_done (h₂.checked_done ?_)
  apply spec_erase
  · intro A hA
    funext p
    cases p with
    | page0 => exact (erase_to_other A Page.page1).trans hA
    | page1 => exact erase_self A Page.page1
  · exact fun _ _ => trivial

theorem init_erased : Spec fates eeInit (fun A => ∀ p, (A p).header = erased)
    (Done Formatted) fun _ => True := by
  intro A e hA he
  rw [wp_init_same he.pages (Or.inl rfl) hA]
  exact format_spec A e trivial he

theorem init_both_valid : Spec fates eeInit BothValid (Done Formatted) fun _ => True := by
  intro A e hA he
  rw [wp_init_same he.pages (Or.inr rfl) hA]
  exact format_spec A e trivial he

theorem init_normal : Spec fates eeInit (Normal V p) (Done (Normal V p)) (Normal V p) := by
  have herase : Spec fates (erase p.other) (Normal V p) (Done (Normal V p)) (Normal V p) := by
    apply spec_erase
    · intro A hA
      constructor
      · rw [erase_other, hA.header]
      · rw [erase_other]
        exact hA.stores
      · rw [erase_self]
    · exact fun _ hA => hA
  intro A e hA he
  rw [wp_init_normal he.pages hA.header (by rw [hA.other])]
  exact herase A e hA he

theorem init_moved : Spec fates eeInit (Moved W p) (Done (Normal W p.other)) (Moved W p) := by
  intro A e hA he
  have herase : Spec fates (erase p) (Moved W p) (Done (Moved W p)) (Moved W p) := by
    apply spec_erase
    · intro A hA
      constructor
      · rw [erase_self]
      · rw [erase_to_other, hA.receiving]
      · rw [erase_to_other]
        exact hA.stores
    · exact fun _ hA => hA
  rw [wp_init_moved he.pages (by rw [hA.gone]) hA.receiving]
  exact herase.checked_done valid_spec A e hA he

/-- Both pages are marked valid while the copied one is still there. -/
structure Overlap (W : Values) (p : Page) (A : Pages) : Prop where
  both : BothValid A
  stores : Stores W (A p.other).log

theorem overlap_spec : Spec fates (program p.other.base validPage) (Carrying V W p [])
    (Done (Overlap W p)) (Moving V W p) := by
  apply spec_mark
  · exact fun _ _ => Or.inr rfl
  · intro A hA
    constructor
    · intro q
      rcases eq_or_other p q with rfl | rfl
      · rw [mark_other, hA.moving.header]
      · rw [mark_self]
    · rw [mark_self]
      exact hA.stores
  · exact fun _ hA => hA.moving

theorem finish_transfer (n : ℕ) : Spec fates (eeFinishTransfer p.other)
    (fun A => Moving V W p A ∧ (A p.other).log.length + 160 ≤ n)
    (fun st A => st = .complete ∧ Normal W p.other A ∨
      st = .pageFull ∧ Moving V W p A ∧ (A p.other).log.length = slots ∧ slots < n)
    (fun A => Moving V W p A ∨ BothValid A) := by
  have hloop : Spec fates (recoverLoop p.other virtAddVarTab 0 (-1))
      (fun A => Moving V W p A ∧ (A p.other).log.length + 160 ≤ n)
      (Recovered V W p n) (fun A => Moving V W p A ∨ BothValid A) := by
    refine (recover_loop (List.Subset.refl _) (by decide) n).mono ?_ (fun _ _ h => h)
      fun _ h => Or.inl h
    rintro A ⟨hA, hlen⟩
    rw [virt_add_var_tab_length]
    exact ⟨carrying_start hA, hlen⟩
  have herase : Spec fates (erase p) (Overlap W p) (Done (Normal W p.other))
      (fun A => Moving V W p A ∨ BothValid A) := by
    apply spec_erase
    · intro A hA
      constructor
      · rw [erase_to_other, hA.both]
      · rw [erase_to_other]
        exact hA.stores
      · rw [other_other, erase_self]
    · exact fun _ hA => Or.inr hA.both
  have htail : Spec fates (checked (program p.other.base validPage) (erase p))
      (Carrying V W p []) (Done (Normal W p.other)) (fun A => Moving V W p A ∨ BothValid A) :=
    (overlap_spec.mono (fun _ h => h) (fun _ _ h => h) fun _ h => Or.inl h).checked_done herase
  unfold eeFinishTransfer
  rw [other_other]
  refine hloop.checked (htail.mono ?_ (fun _ _ h => Or.inl h) fun _ h => h) ?_
  · rintro A (⟨-, hA⟩ | ⟨hst, -⟩)
    · exact hA
    · cases hst
  · rintro st A hne (⟨hst, -⟩ | h)
    · exact absurd hst hne
    · exact Or.inr h

/-- What a completed EE_Init leaves: one page in use, or a transfer that has no room left to
be finished in and will be refused for good. -/
inductive Settled (ok : UInt16 → Option UInt16 → Prop) (A : Pages) : Prop
  | normal {V : Values} {p : Page} (h : Normal V p A) (hV : Agrees ok V)
  | stuck {V W : Values} {p : Page} (h : Moving V W p A)
      (hfull : (A p.other).log.length = slots) (hV : Agrees ok V) (hW : Agrees ok W)

theorem Settled.safe (h : Settled ok A) : Safe ok A := by
  cases h with
  | normal h hV => exact .normal h hV
  | stuck h _ hV hW => exact .moving h hV hW

theorem init_safe : Spec fates eeInit (Safe ok) (fun _ A => Settled ok A)
    (fun A => Safe ok A ∨ BothValid A) := by
  intro A e hA he
  cases hA with
  | normal h hV =>
    refine (init_normal.mono (fun _ h => h) ?_ ?_) A e h he
    · exact fun _ B hB => .normal hB.2 hV
    · exact fun B hB => Or.inl (.normal hB hV)
  | @moving V W p h hV hW =>
    rw [wp_init_moving he.pages h.header h.receiving]
    refine ((finish_transfer _).mono (fun _ h => h) ?_ ?_) A e ⟨h, le_refl _⟩ he
    · rintro _ B (⟨-, hB⟩ | ⟨-, hB, hfull, -⟩)
      · exact .normal hB hW
      · exact .stuck hB hfull hV hW
    · exact fun B hB => hB.imp (fun hB => .moving hB hV hW) id
  | moved h hW =>
    refine (init_moved.mono (fun _ h => h) ?_ ?_) A e h he
    · exact fun _ B hB => .normal hB.2 hW
    · exact fun B hB => Or.inl (.moved hB hW)

theorem write_stuck (he : Ready fates A e) (hA : Moving V W p A)
    (hfull : (A p.other).log.length = slots) :
    wp (eeWriteVariable x d) (fun st t => st ≠ .complete ∧ Holds t.flash.mem A)
      (fun t => Holds t.flash.mem A) e := by
  have hrefused : programHalfWord p.other.base receiveData e.flash.mem = none := by
    rw [programHalfWord, (he.pages p.other).header, hA.receiving]
    exact if_neg (by decide)
  simp only [eeWriteVariable, eeVerifyPageFullWriteVariable, wp_bind, wp_get,
    hA.find_write he.pages]
  refine wp_verify_full he hA.ne_erased x d hfull ?_
  simp only [if_true, eePageTransfer, wp_bind, wp_get,
    find_read he.pages hA.header hA.header_ne, checked, program, wp_map, wp_onPart]
  refine wp_mono (wp_flash_refused he.flash hrefused) ?_ ?_
  · rintro st t ⟨rfl, hm⟩
    rw [if_neg (by decide), wp_pure]
    exact ⟨by decide, hm ▸ he.pages⟩
  · intro t hm
    exact hm ▸ he.pages

end Battman
