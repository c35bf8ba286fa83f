import Battman.EepromPages

/-! What the functions of eeprom.c leave alone, from what its flash operations do. -/
namespace Battman
open CutLogic

variable {γ : Type} {f : Eeprom → γ} {p : Page}

/-- `f` does not depend on DataVar, and programming half-words of the two pages leaves it
alone. -/
structure Spared (f : Eeprom → γ) : Prop where
  programs : ∀ p a d, InPage p a → Preserves f (program a d)
  dataVar : ∀ e d, f { e with dataVar := d } = f e

theorem preserves_checked {op next : EepromM EeStatus} (hop : Preserves f op)
    (hnext : Preserves f next) : Preserves f (checked op next) := by
  apply hop.bind
  intro status
  by_cases h : status = .complete
  · rw [if_pos h]
    exact hnext
  · rw [if_neg h]
    exact preserves_pure _

namespace Spared

theorem mark (hf : Spared f) (p : Page) (status : UInt16) :
    Preserves f (program p.base status) := hf.programs p _ _ (in_page_base p)

/-- The search ends where the page does. -/
theorem verify_loop (hf : Spared f) (x d : UInt16) (n address : ℕ) (hlow : p.base ≤ address)
    (hend : address + 4 * n = p.base + pageSize) : Preserves f (verifyLoop x d n address) := by
  induction n generalizing address with
  | zero => exact preserves_pure _
  | succ n ih =>
    have hin : InPage p address ∧ InPage p (address + 2) := by
      unfold InPage
      omega
    apply preserves_get
    intro e
    by_cases hb : e.flash.mem address = erased ∧ e.flash.mem (address + 2) = erased
    · rw [if_pos hb]
      exact preserves_checked (hf.programs p _ _ hin.1) (hf.programs p _ _ hin.2)
    · rw [if_neg hb]
      exact ih _ (by omega) (by omega)

theorem verify (hf : Spared f) (x d : UInt16) :
    Preserves f (eeVerifyPageFullWriteVariable x d) := by
  apply preserves_get
  intro e
  cases eeFindValidPage .writeInValidPage e.flash.mem with
  | none => exact preserves_pure _
  | some page => exact hf.verify_loop x d _ _ le_rfl rfl

theorem copy (hf : Spared f) {next : EepromM EeStatus} (hnext : Preserves f next) (v : UInt16) :
    Preserves f (copyVariable v next) := by
  intro e
  simp only [copyVariable, wp_bind, wp_get]
  cases eeReadVariable e.flash.mem v with
  | notFound => exact hnext e
  | found data =>
    rw [wp_bind, wp_set, ← hf.dataVar e data]
    exact preserves_checked (hf.verify v data) hnext { e with dataVar := data }
  | noValidPage => exact preserves_checked (hf.verify v e.dataVar) hnext e

theorem transfer_loop (hf : Spared f) (x : UInt16) (vs : List UInt16) :
    Preserves f (transferLoop x vs) := by
  induction vs with
  | nil => exact preserves_pure _
  | cons v vs ih =>
    rw [transferLoop]
    by_cases hv : v ≠ x
    · rw [if_pos hv]
      exact hf.copy ih v
    · rw [if_neg hv]
      exact ih

theorem recover_loop (hf : Spared f) (vs : List UInt16) (varIdx x : ℤ) :
    Preserves f (recoverLoop p vs varIdx x) := by
  induction vs generalizing varIdx x with
  | nil => exact preserves_pure _
  | cons v vs ih =>
    apply preserves_get
    intro e
    by_cases hx : varIdx ≠ if e.flash.mem (p.base + 6) = v then varIdx else x
    · rw [if_pos hx]
      exact hf.copy (ih _ _) v
    · rw [if_neg hx]
      exact ih _ _

end Spared

section Erasing

variable (hf : Spared f) (he : ∀ p, Preserves f (erase p))
include hf he

theorem preserves_write_variable (x d : UInt16) : Preserves f (eeWriteVariable x d) := by
  apply (hf.verify x d).bind
  intro status
  by_cases h : status = .pageFull
  · rw [if_pos h]
    apply preserves_get
    intro e
    cases eeFindValidPage .readFromValidPage e.flash.mem with
    | none => exact preserves_pure _
    | some old =>
      exact preserves_checked (hf.mark _ _) <| preserves_checked (hf.verify x d) <|
        preserves_checked (hf.transfer_loop x _) <| preserves_checked (he old) (hf.mark _ _)
  · rw [if_neg h]
    exact preserves_pure _

theorem preserves_init : Preserves f eeInit := by
  have hformat : Preserves f eeFormat :=
    preserves_checked (he _) <| preserves_checked (hf.mark _ _) (he _)
  have hfinish (p : Page) : Preserves f (eeFinishTransfer p) :=
    preserves_checked (hf.recover_loop _ _ _) <| preserves_checked (hf.mark _ _) (he _)
  apply preserves_get
  intro e
  -- the nine combinations of the two headers
  dsimp only
  split_ifs
  · exact he _
  · exact preserves_checked (he _) (hf.mark _ _)
  · exact hformat
  · exact hfinish _
  · exact preserves_checked (he _) (hf.mark _ _)
  · exact hformat
  · exact hformat
  · exact he _
  · exact hfinish _
  · exact hformat

end Erasing

end Battman
