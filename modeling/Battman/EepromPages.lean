import Battman.Eeprom
import Battman.Stores

/-! The two pages as headers and logs of records, and what the page operations of eeprom.c
do to them. A record is a virtual address and a data half-word; a cut between the two
leaves a record whose address is still erased. -/
namespace Battman
open CutLogic RecordLog

abbrev Record := UInt16 × UInt16

def blank : Record := (erased, erased)

structure PageState where
  header : UInt16
  log : List Record

/-- The memory of page `p` is the header and the log, and blank behind the log. -/
structure PageIs (mem : Memory) (p : Page) (s : PageState) : Prop where
  header : mem p.base = s.header
  fits : s.log.length ≤ slots
  address : ∀ i, i < slots → mem (p.base + 4 * (i + 1) + 2) = (s.log.getD i blank).1
  data : ∀ i, i < slots → mem (p.base + 4 * (i + 1)) = (s.log.getD i blank).2
  used : ∀ r ∈ s.log, r ≠ blank

abbrev Pages := Page → PageState

def ReadResult.ofOption : Option UInt16 → ReadResult
  | some data => .found data
  | none => .notFound

def Holds (mem : Memory) (A : Pages) : Prop := ∀ p, PageIs mem p (A p)

def Pages.append (A : Pages) (p : Page) (r : Record) : Pages :=
  Function.update A p { A p with log := (A p).log ++ [r] }

def Pages.mark (A : Pages) (p : Page) (header : UInt16) : Pages :=
  Function.update A p { A p with header }

def Pages.erase (A : Pages) (p : Page) : Pages :=
  Function.update A p ⟨erased, []⟩

def InPage (p : Page) (a : ℕ) : Prop := p.base ≤ a ∧ a < p.base + pageSize

@[simp] theorem other_other (p : Page) : p.other.other = p := by cases p <;> rfl

theorem other_ne (p : Page) : p.other ≠ p := by cases p <;> decide

theorem eq_or_other (p q : Page) : q = p ∨ q = p.other := by
  cases p <;> cases q <;> decide

@[simp] theorem append_self (A : Pages) (p : Page) (r : Record) :
    A.append p r p = { A p with log := (A p).log ++ [r] } := Function.update_self ..
@[simp] theorem append_other (A : Pages) (p : Page) (r : Record) :
    A.append p.other r p = A p := Function.update_of_ne (other_ne p).symm ..
@[simp] theorem append_to_other (A : Pages) (p : Page) (r : Record) :
    A.append p r p.other = A p.other := Function.update_of_ne (other_ne p) ..
@[simp] theorem mark_self (A : Pages) (p : Page) (h : UInt16) :
    A.mark p h p = { A p with header := h } := Function.update_self ..
@[simp] theorem mark_other (A : Pages) (p : Page) (h : UInt16) :
    A.mark p.other h p = A p := Function.update_of_ne (other_ne p).symm ..
@[simp] theorem mark_to_other (A : Pages) (p : Page) (h : UInt16) :
    A.mark p h p.other = A p.other := Function.update_of_ne (other_ne p) ..
@[simp] theorem erase_self (A : Pages) (p : Page) : A.erase p p = ⟨erased, []⟩ :=
  Function.update_self ..
@[simp] theorem erase_other (A : Pages) (p : Page) : A.erase p.other p = A p :=
  Function.update_of_ne (other_ne p).symm ..
@[simp] theorem erase_to_other (A : Pages) (p : Page) : A.erase p p.other = A p.other :=
  Function.update_of_ne (other_ne p) ..

theorem in_page_unique {p q : Page} {a : ℕ} (hp : InPage p a) (hq : InPage q a) : p = q := by
  unfold InPage pageSize at *
  cases p <;> cases q <;> first | rfl | (simp only [Page.base, pageSize] at *; omega)

theorem in_page_slot (p : Page) {i : ℕ} (hi : i < slots) :
    InPage p (p.base + 4 * (i + 1)) ∧ InPage p (p.base + 4 * (i + 1) + 2) := by
  unfold InPage slots pageSize at *
  omega

theorem in_page_base (p : Page) : InPage p p.base := by
  unfold InPage pageSize
  omega

theorem PageIs.congr {mem mem' : Memory} {p : Page} {s : PageState} (h : PageIs mem p s)
    (he : ∀ a, InPage p a → mem' a = mem a) : PageIs mem' p s where
  header := by rw [he _ (in_page_base p), h.header]
  fits := h.fits
  address i hi := by rw [he _ (in_page_slot p hi).2, h.address i hi]
  data i hi := by rw [he _ (in_page_slot p hi).1, h.data i hi]
  used := h.used

section Memory

variable {mem : Memory} {A : Pages} {p : Page}

/-- A change inside page `p` that gives it the state `s` leaves the other page alone. -/
theorem Holds.update {mem' : Memory} {s : PageState} (h : Holds mem A)
    (hp : PageIs mem' p s) (he : ∀ a, ¬ InPage p a → mem' a = mem a) :
    Holds mem' (Function.update A p s) := by
  intro q
  by_cases hq : q = p
  · subst hq
    rwa [Function.update_self]
  · rw [Function.update_of_ne hq]
    exact (h q).congr fun a ha => he a fun hpa => hq (in_page_unique ha hpa)

theorem holds_erase (h : Holds mem A) (p : Page) :
    Holds (erasePage p.base mem) (A.erase p) := by
  have hin (a : ℕ) (ha : InPage p a) : erasePage p.base mem a = erased := if_pos ha
  refine h.update ⟨hin _ (in_page_base p), Nat.zero_le _, ?_, ?_, by simp⟩
    fun a ha => if_neg ha
  · intro i hi
    rw [hin _ (in_page_slot p hi).2]
    rfl
  · intro i hi
    rw [hin _ (in_page_slot p hi).1]
    rfl

theorem holds_mark (h : Holds mem A) (p : Page) (header : UInt16) :
    Holds (Function.update mem p.base header) (A.mark p header) := by
  have hs (i : ℕ) : p.base + 4 * (i + 1) ≠ p.base ∧ p.base + 4 * (i + 1) + 2 ≠ p.base := by
    omega
  refine h.update ⟨Function.update_self .., (h p).fits, ?_, ?_, (h p).used⟩ ?_
  · intro i hi
    rw [Function.update_of_ne (hs i).2, (h p).address i hi]
  · intro i hi
    rw [Function.update_of_ne (hs i).1, (h p).data i hi]
  · intro a ha
    have hne : a ≠ p.base := by
      rintro rfl
      exact ha (in_page_base p)
    rw [Function.update_of_ne hne]

theorem getD_append_record {log : List Record} {r : Record} (i : ℕ) :
    (log ++ [r]).getD i blank = if i = log.length then r else log.getD i blank := by
  rcases Nat.lt_trichotomy i log.length with hi | hi | hi
  · rw [if_neg (by omega), List.getD_append _ _ _ _ hi]
  · subst hi
    simp
  · rw [if_neg (by omega), List.getD_eq_default _ _ (by simp; omega),
      List.getD_eq_default _ _ (by omega)]

/-- Writing both half-words of the first blank slot appends a record. -/
theorem holds_append (h : Holds mem A) {r : Record} (hr : r ≠ blank)
    (hlen : (A p).log.length < slots) :
    Holds (Function.update (Function.update mem (p.base + 4 * ((A p).log.length + 1)) r.2)
      (p.base + 4 * ((A p).log.length + 1) + 2) r.1) (A.append p r) := by
  generalize hn : (A p).log.length = n at hlen
  refine h.update ⟨?_, ?_, ?_, ?_, ?_⟩ ?_
  · rw [Function.update_of_ne (by omega), Function.update_of_ne (by omega), (h p).header]
  · simp only [List.length_append, List.length_singleton, hn]
    omega
  · intro i hi
    simp only [getD_append_record, hn]
    by_cases he : i = n
    · subst he
      rw [Function.update_self, if_pos rfl]
    · rw [Function.update_of_ne (by omega), Function.update_of_ne (by omega), if_neg he,
        (h p).address i hi]
  · intro i hi
    simp only [getD_append_record, hn]
    by_cases he : i = n
    · subst he
      rw [Function.update_of_ne (by omega), Function.update_self, if_pos rfl]
    · rw [Function.update_of_ne (by omega), Function.update_of_ne (by omega), if_neg he,
        (h p).data i hi]
  · intro r' hr'
    rcases List.mem_append.mp hr' with hr' | hr'
    · exact (h p).used r' hr'
    · rw [List.mem_singleton] at hr'
      rwa [hr']
  · intro a ha
    have hs := in_page_slot p hlen
    have h₁ : a ≠ p.base + 4 * (n + 1) := by
      rintro rfl
      exact ha hs.1
    have h₂ : a ≠ p.base + 4 * (n + 1) + 2 := by
      rintro rfl
      exact ha hs.2
    rw [Function.update_of_ne h₂, Function.update_of_ne h₁]

/-- Writing only the data half-word leaves a record without an address, or nothing at all
when the data are an erased half-word. -/
theorem holds_half (h : Holds mem A) (data : UInt16) (hlen : (A p).log.length < slots) :
    (data ≠ erased ∧
      Holds (Function.update mem (p.base + 4 * ((A p).log.length + 1)) data)
        (A.append p (erased, data))) ∨
    Holds (Function.update mem (p.base + 4 * ((A p).log.length + 1)) data) A := by
  have hblank : (A p).log.getD (A p).log.length blank = blank :=
    List.getD_eq_default _ _ (le_refl _)
  by_cases hd : data = erased
  · right
    rw [hd, show erased = mem (p.base + 4 * ((A p).log.length + 1)) by
      rw [(h p).data _ hlen, hblank]; rfl, Function.update_eq_self]
    exact h
  · left
    refine ⟨hd, ?_⟩
    have hr : ((erased, data) : Record) ≠ blank := fun he => hd (Prod.mk.inj he).2
    have := holds_append h hr hlen
    rwa [Function.update_eq_self_iff.mpr] at this
    rw [Function.update_of_ne (by omega), (h p).address _ hlen, hblank]
    rfl

theorem read_loop_latest {s : PageState} (h : PageIs mem p s) {v : UInt16} (hv : v ≠ erased)
    (n : ℕ) (hn : n ≤ slots) :
    readLoop mem v p.base n = .ofOption (latest v (s.log.take n)) := by
  induction n with
  | zero => rfl
  | succ n ih =>
    have ih := ih (by omega)
    have ha := h.address n (by omega)
    have hd := h.data n (by omega)
    rw [readLoop, Nat.add_sub_cancel, ha, hd]
    rcases Nat.lt_or_ge n s.log.length with hlt | hge
    · have hget : s.log.getD n blank = s.log[n] := by simp [hlt]
      rw [List.take_succ_eq_append_getElem hlt, latest_concat, hget]
      by_cases he : s.log[n].1 = v
      · rw [if_pos he, if_pos he.symm]
        rfl
      · rw [if_neg he, if_neg (Ne.symm he), ih]
    · rw [List.getD_eq_default _ _ hge, if_neg (fun he => hv he.symm), ih,
        List.take_of_length_le hge, List.take_of_length_le (by omega)]

end Memory

end Battman
