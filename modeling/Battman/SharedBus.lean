import Mathlib

/-! Threads on one processor that share a bus with a lock. A thread gives up the processor
where it blocks and nowhere else: waiting for the lock, in a transfer, or in any other call
that blocks. Transfers at some sites, the free ones, are made without the lock. -/
namespace SharedBus

variable {τ ι : Type}

/-- `stop` leaves the program for good and keeps the processor. -/
inductive Action (ι : Type) where
  | acquire
  | transfer (site : ι)
  | release
  | block
  | stop
  deriving DecidableEq, Repr

inductive Status (ι : Type) where
  | ready
  | waiting
  | transferring (site : ι)
  | asleep
  | stopped
  deriving DecidableEq, Repr

structure State (τ ι : Type) where
  running : Option τ
  owner : Option τ
  code : τ → List (Action ι)
  status : τ → Status ι

/-- A release hands the lock to a thread that waits for it, if there is one. `proceed` begins
the next part of the thread's program. -/
inductive Event (τ ι : Type) where
  | dispatch (t : τ)
  | proceed (t : τ) (code : List (Action ι))
  | acquire (t : τ)
  | wait (t : τ)
  | transfer (t : τ) (site : ι)
  | release (t : τ) (heir : Option τ)
  | block (t : τ)
  | wake (t : τ)
  | stop (t : τ)

def At (s : State τ ι) (t : τ) (a : Action ι) : Prop :=
  s.running = some t ∧ s.status t = .ready ∧ (s.code t).head? = some a

/-- `program t` are the parts that the program of `t` is made of. -/
def Enabled (program : τ → List (Action ι) → Prop) (s : State τ ι) : Event τ ι → Prop
  | .dispatch t => s.running = none ∧ s.status t = .ready
  | .proceed t code => s.running = some t ∧ s.status t = .ready ∧ s.code t = [] ∧ program t code
  | .acquire t => At s t .acquire ∧ s.owner = none
  | .wait t => At s t .acquire ∧ s.owner ≠ none
  | .transfer t i => At s t (.transfer i)
  | .release t none => At s t .release ∧ ∀ u, s.status u ≠ .waiting
  | .release t (some u) => At s t .release ∧ s.status u = .waiting
  | .block t => At s t .block
  | .wake t => s.status t = .asleep ∨ ∃ i, s.status t = .transferring i
  | .stop t => At s t .stop

variable [DecidableEq τ]

def State.advance (s : State τ ι) (t : τ) : State τ ι :=
  { s with code := Function.update s.code t (s.code t).tail }

def State.put (s : State τ ι) (t : τ) (status : Status ι) : State τ ι :=
  { s with status := Function.update s.status t status }

def next (s : State τ ι) : Event τ ι → State τ ι
  | .dispatch t => { s with running := some t }
  | .proceed t code => { s with code := Function.update s.code t code }
  | .acquire t => { s.advance t with owner := some t }
  | .wait t => { s.put t .waiting with running := none }
  | .transfer t i => { (s.advance t).put t (.transferring i) with running := none }
  | .release t none => { s.advance t with owner := none }
  | .release t (some u) => { ((s.advance t).advance u).put u .ready with owner := some u }
  | .block t => { (s.advance t).put t .asleep with running := none }
  | .wake t => s.put t .ready
  | .stop t => { s.put t .stopped with code := Function.update s.code t [] }

/-- From the lock held or not, the rest of a part takes it and gives it back, and makes with
it the transfers that are not free, and without it those that are. -/
def Bracketed (free : ι → Prop) : Bool → List (Action ι) → Prop
  | held, [] => held = false
  | held, .acquire :: c => held = false ∧ Bracketed free true c
  | held, .transfer i :: c => (free i ↔ held = false) ∧ Bracketed free held c
  | held, .release :: c => held = true ∧ Bracketed free false c
  | held, .block :: c => Bracketed free held c
  | held, .stop :: _ => held = false

/-- The parts are bracketed, and those of a thread have only its sites. -/
structure Discipline (program : τ → List (Action ι) → Prop) (free : ι → Prop)
    (site : τ → ι → Prop) : Prop where
  bracketed : ∀ t c, program t c → Bracketed free false c
  sites : ∀ t c, program t c → ∀ i, .transfer i ∈ c → site t i

/-- What is left of a thread's part, and its status, fit whether it holds the lock. -/
structure Fits (free site : ι → Prop) (held : Bool) (code : List (Action ι))
    (status : Status ι) : Prop where
  bracketed : Bracketed free held code
  waiting : status = .waiting → code.head? = some .acquire
  transferring : ∀ i, status = .transferring i → (free i ↔ held = false)
  sites : ∀ i, .transfer i ∈ code ∨ status = .transferring i → site i

def State.holds (s : State τ ι) (t : τ) : Bool := decide (s.owner = some t)

def Invariant (free : ι → Prop) (site : τ → ι → Prop) (s : State τ ι) : Prop :=
  ∀ t, Fits free (site t) (s.holds t) (s.code t) (s.status t)

section Threads

variable {free site : ι → Prop} {held : Bool} {a : Action ι} {c : List (Action ι)}
  {status : Status ι} {i : ι}

theorem fits_ready (hb : Bracketed free held c) (hs : ∀ i, .transfer i ∈ c → site i) :
    Fits free site held c .ready where
  bracketed := hb
  waiting := nofun
  transferring := nofun
  sites _ h := hs _ (h.resolve_right nofun)

theorem Fits.wakes (h : Fits free site held c status) : Fits free site held c .ready :=
  fits_ready h.bracketed fun i hi => h.sites i (Or.inl hi)

theorem Fits.acquires (h : Fits free site held (.acquire :: c) status) :
    held = false ∧ Fits free site true c .ready :=
  ⟨h.bracketed.1, fits_ready h.bracketed.2 fun i hi => h.sites i (Or.inl (.tail _ hi))⟩

theorem Fits.waits (h : Fits free site held (.acquire :: c) status) :
    Fits free site held (.acquire :: c) .waiting where
  bracketed := h.bracketed
  waiting _ := rfl
  transferring := nofun
  sites i hi := h.sites i (Or.inl (hi.resolve_right nofun))

theorem Fits.transfers (h : Fits free site held (.transfer i :: c) status) :
    Fits free site held c (.transferring i) where
  bracketed := h.bracketed.2
  waiting := nofun
  transferring j hj := by
    obtain rfl := Status.transferring.inj hj
    exact h.bracketed.1
  sites j hj := by
    rcases hj with hj | hj
    · exact h.sites j (Or.inl (.tail _ hj))
    · obtain rfl := Status.transferring.inj hj
      exact h.sites i (Or.inl (.head _))

theorem Fits.releases (h : Fits free site held (.release :: c) status) :
    held = true ∧ Fits free site false c .ready :=
  ⟨h.bracketed.1, fits_ready h.bracketed.2 fun i hi => h.sites i (Or.inl (.tail _ hi))⟩

theorem Fits.blocks (h : Fits free site held (.block :: c) status) :
    Fits free site held c .asleep where
  bracketed := h.bracketed
  waiting := nofun
  transferring := nofun
  sites i hi := h.sites i (Or.inl (.tail _ (hi.resolve_right nofun)))

theorem Fits.stops (h : Fits free site held (.stop :: c) status) :
    Fits free site held [] .stopped where
  bracketed := h.bracketed
  waiting := nofun
  transferring := nofun
  sites _ hi := absurd (hi.resolve_right nofun) List.not_mem_nil

end Threads

variable {program : τ → List (Action ι) → Prop} {free : ι → Prop} {site : τ → ι → Prop}
  {s : State τ ι} {e : Event τ ι} {t u : τ} {i : ι} {a : Action ι}

omit [DecidableEq τ] in
theorem At.code_eq (h : At s t a) : s.code t = a :: (s.code t).tail :=
  List.eq_cons_of_mem_head? h.2.2

@[simp] theorem advance_self (s : State τ ι) (t : τ) :
    (s.advance t).code t = (s.code t).tail := Function.update_self ..

@[simp] theorem advance_other (s : State τ ι) (h : u ≠ t) :
    (s.advance t).code u = s.code u := Function.update_of_ne h ..

theorem Invariant.at (h : Invariant free site s) (ha : At s t a) :
    Fits free (site t) (s.holds t) (a :: (s.code t).tail) .ready := by
  have ht := h t
  rw [ha.code_eq, ha.2.1] at ht
  exact ht

theorem Invariant.thread (h : Invariant free site s) {c : List (Action ι)} {status : Status ι}
    (hf : Fits free (site t) (s.holds t) c status) (u : τ) :
    Fits free (site u) (s.holds u) (Function.update s.code t c u)
      (Function.update s.status t status u) := by
  by_cases ht : u = t
  · subst ht
    rw [Function.update_self, Function.update_self]
    exact hf
  · rw [Function.update_of_ne ht, Function.update_of_ne ht]
    exact h u

theorem holds_unique (ht : s.holds t = true) (hu : u ≠ t) : s.holds u = false := by
  have howner : s.owner = some t := of_decide_eq_true ht
  rw [State.holds, howner]
  exact decide_eq_false fun h => hu (Option.some.inj h).symm

theorem release_preserves {heir : Option τ} (h : Invariant free site s)
    (he : Enabled program s (.release t heir)) :
    Invariant free site (next s (.release t heir)) := by
  intro u
  cases heir with
  | none =>
    obtain ⟨hheld, hfit⟩ := (h.at he.1).releases
    change Fits free (site u) false (Function.update s.code t _ u) (s.status u)
    by_cases ht : u = t
    · subst ht
      rw [Function.update_self, he.1.2.1]
      exact hfit
    · rw [Function.update_of_ne ht, ← holds_unique hheld ht]
      exact h u
  | some v =>
    obtain ⟨ha, hwait⟩ := he
    obtain ⟨hheld, hfit⟩ := (h.at ha).releases
    have hvt : v ≠ t := by
      rintro rfl
      rw [ha.2.1] at hwait
      cases hwait
    change Fits free (site u) (decide (some v = some u))
      (Function.update (s.advance t).code v _ u) (Function.update s.status v _ u)
    by_cases hv : u = v
    · subst hv
      have hcode := List.eq_cons_of_mem_head? ((h u).waiting hwait)
      have hu := h u
      rw [hcode] at hu
      rw [Function.update_self, Function.update_self, advance_other _ hvt, decide_eq_true rfl]
      exact hu.acquires.2
    · rw [Function.update_of_ne hv, Function.update_of_ne hv,
        decide_eq_false fun hs => hv (Option.some.inj hs).symm]
      by_cases ht : u = t
      · subst ht
        rw [advance_self, ha.2.1]
        exact hfit
      · rw [advance_other _ ht, ← holds_unique hheld ht]
        exact h u

theorem step_preserves_invariant (hd : Discipline program free site) (h : Invariant free site s)
    (he : Enabled program s e) : Invariant free site (next s e) := by
  intro u
  have hu := h u
  cases e with
  | dispatch t => exact hu
  | proceed t code =>
    obtain ⟨-, hready, hcode, hprogram⟩ := he
    change Fits free (site u) (s.holds u) (Function.update s.code t code u) (s.status u)
    by_cases ht : u = t
    · subst ht
      rw [hcode] at hu
      rw [Function.update_self, hready, show s.holds u = false from hu.bracketed]
      exact fits_ready (hd.bracketed u code hprogram) (hd.sites u code hprogram)
    · rw [Function.update_of_ne ht]
      exact hu
  | acquire t =>
    obtain ⟨ha, howner⟩ := he
    change Fits free (site u) (decide (some t = some u)) (Function.update s.code t _ u) (s.status u)
    by_cases ht : u = t
    · subst ht
      rw [Function.update_self, ha.2.1, decide_eq_true rfl]
      exact (h.at ha).acquires.2
    · have hfree : s.holds u = decide (some t = some u) := by
        rw [State.holds, howner, decide_eq_false nofun,
          decide_eq_false fun hs => ht (Option.some.inj hs).symm]
      rw [Function.update_of_ne ht, ← hfree]
      exact hu
  | wait t =>
    change Fits free (site u) (s.holds u) (s.code u) (Function.update s.status t _ u)
    by_cases ht : u = t
    · subst ht
      rw [Function.update_self, he.1.code_eq]
      exact (h.at he.1).waits
    · rw [Function.update_of_ne ht]
      exact hu
  | transfer t i => exact h.thread (h.at he).transfers u
  | release t heir => exact release_preserves h he u
  | block t => exact h.thread (h.at he).blocks u
  | wake t =>
    change Fits free (site u) (s.holds u) (s.code u) (Function.update s.status t _ u)
    by_cases ht : u = t
    · subst ht
      rw [Function.update_self]
      exact hu.wakes
    · rw [Function.update_of_ne ht]
      exact hu
  | stop t => exact h.thread (h.at he).stops u

section Transfers

def Busy (s : State τ ι) (t : τ) : Prop := s.owner = some t ∨ ∃ i, s.status t = .transferring i

def Exclusive (s : State τ ι) : Event τ ι → Prop
  | .transfer t _ => ∀ u ≠ t, ¬ Busy s u
  | _ => True

/-- No free transfer begins while another thread has the lock, and none begins during the free
transfer of another thread. -/
def Clear (free : ι → Prop) (s : State τ ι) : Event τ ι → Prop
  | .transfer t i => ∀ u ≠ t,
      (free i → s.owner ≠ some u) ∧ ∀ j, s.status u = .transferring j → ¬ free j
  | _ => True

theorem exclusive_iff_clear (h : Invariant free site s) (he : Enabled program s e) :
    Exclusive s e ↔ Clear free s e := by
  cases e with
  | transfer t i =>
    have hfit := h.at he
    constructor
    · intro hex u hu
      exact ⟨fun _ ho => hex u hu (Or.inl ho), fun j hj _ => hex u hu (Or.inr ⟨j, hj⟩)⟩
    · intro hclear u hu hbusy
      obtain ⟨howner, hfree⟩ := hclear u hu
      have hnot : s.owner ≠ some u := by
        intro ho
        have hheld : s.holds t = true := by
          by_contra hno
          exact howner (hfit.bracketed.1.mpr (Bool.eq_false_of_not_eq_true hno)) ho
        exact absurd (decide_eq_true ho) (Bool.eq_false_iff.mp (holds_unique hheld hu))
      rcases hbusy with ho | ⟨j, hj⟩
      · exact hnot ho
      · exact hfree j hj (((h u).transferring j hj).mpr (decide_eq_false hnot))
  | _ => exact Iff.rfl

end Transfers

def Always (P : State τ ι → Event τ ι → Prop) : State τ ι → List (Event τ ι) → Prop
  | _, [] => True
  | s, e :: es => P s e ∧ Always P (next s e) es

structure Schedule (program : τ → List (Action ι) → Prop) (start : State τ ι) where
  events : List (Event τ ι)
  legal : Always (Enabled program) start events

/-- What is the same of every event under the invariant is the same of a schedule. -/
theorem always_iff {P Q : State τ ι → Event τ ι → Prop} {es : List (Event τ ι)}
    (hd : Discipline program free site) (h : Invariant free site s)
    (hl : Always (Enabled program) s es)
    (hPQ : ∀ s e, Invariant free site s → Enabled program s e → (P s e ↔ Q s e)) :
    Always P s es ↔ Always Q s es := by
  induction es generalizing s with
  | nil => exact Iff.rfl
  | cons e es ih =>
    obtain ⟨he, hl⟩ := hl
    exact and_congr (hPQ s e h he) (ih (step_preserves_invariant hd h he) hl)

section Decidable

variable [DecidableEq ι] [Fintype τ] [∀ t c, Decidable (program t c)]

instance decidableAt (s : State τ ι) (t : τ) (a : Action ι) : Decidable (At s t a) :=
  inferInstanceAs (Decidable (_ ∧ _ ∧ _))

instance decidableTransferring (x : Status ι) : Decidable (∃ i, x = .transferring i) :=
  match x with
  | .transferring i => isTrue ⟨i, rfl⟩
  | .ready | .waiting | .asleep | .stopped => isFalse nofun

instance decidableEnabled (s : State τ ι) : (e : Event τ ι) → Decidable (Enabled program s e)
  | .dispatch _ | .acquire _ | .wait _ | .release _ (some _) =>
    inferInstanceAs (Decidable (_ ∧ _))
  | .wake _ => inferInstanceAs (Decidable (_ ∨ _))
  | .proceed _ _ => inferInstanceAs (Decidable (_ ∧ _ ∧ _ ∧ _))
  | .release _ none => inferInstanceAs (Decidable (_ ∧ ∀ _, _))
  | .transfer _ _ | .block _ | .stop _ => inferInstanceAs (Decidable (At _ _ _))

instance decidableExclusive (s : State τ ι) : (e : Event τ ι) → Decidable (Exclusive s e)
  | .transfer t _ =>
    inferInstanceAs (Decidable (∀ u ≠ t, ¬ (s.owner = some u ∨ ∃ i, s.status u = .transferring i)))
  | .dispatch _ | .proceed _ _ | .acquire _ | .wait _ | .release _ _ | .block _ | .wake _
  | .stop _ => isTrue trivial

instance decidableAlways (P : State τ ι → Event τ ι → Prop) [∀ s e, Decidable (P s e)] :
    (s : State τ ι) → (es : List (Event τ ι)) → Decidable (Always P s es)
  | _, [] => isTrue trivial
  | s, e :: es =>
    have := decidableAlways P (next s e) es
    inferInstanceAs (Decidable (_ ∧ _))

end Decidable

end SharedBus
