import Mathlib.Data.List.Sort
import Mathlib.Data.List.Nodup

/-! Fixed priorities without time slices on one processor, and runs of a machine over a list of
events. A thread keeps the processor until it blocks or one of a higher priority is ready; threads
of one priority take turns. The queue is the running thread with the ready ones behind it. -/
namespace ReadyList

structure Cpu (τ : Type) where
  running : Option τ
  ready : List τ
  deriving DecidableEq, Repr

variable {τ : Type} {cpu : Cpu τ} {r t u : τ} {l : List τ}

section Operations

variable (prio : τ → ℕ)

def behind (t : τ) (l : List τ) : List τ := l.orderedInsert (fun a b => prio b < prio a) t

def ahead (t : τ) (l : List τ) : List τ := l.orderedInsert (fun a b => prio b ≤ prio a) t

def Cpu.queue (cpu : Cpu τ) : List τ := cpu.running.toList ++ cpu.ready

def Cpu.sleep (cpu : Cpu τ) : Cpu τ := ⟨cpu.ready.head?, cpu.ready.tail⟩

/-- A ready thread of a higher priority takes the processor, and the one that had it goes ahead
of its peers. -/
def Cpu.reschedule (cpu : Cpu τ) : Cpu τ :=
  match cpu.running, cpu.ready with
  | some r, t :: l => if prio r < prio t then ⟨some t, ahead prio r l⟩ else cpu
  | none, t :: l => ⟨some t, l⟩
  | _, [] => cpu

/-- A thread that is not asleep is not woken. -/
def Cpu.wake [DecidableEq τ] (t : τ) (cpu : Cpu τ) : Cpu τ :=
  if t ∈ cpu.queue then cpu
  else Cpu.reschedule prio { cpu with ready := behind prio t cpu.ready }

/-- The running thread creates `t`, and goes behind its peers when `t` is above it. A thread
that is there is not created again. -/
def Cpu.create [DecidableEq τ] (t : τ) (cpu : Cpu τ) : Cpu τ :=
  if t ∈ cpu.queue then cpu
  else
    match cpu.running with
    | some r =>
      if prio t ≤ prio r then { cpu with ready := behind prio t cpu.ready }
      else ⟨some t, behind prio r cpu.ready⟩
    | none => ⟨some t, cpu.ready⟩

structure Cpu.Ordered (cpu : Cpu τ) : Prop where
  idle : cpu.running = none → cpu.ready = []
  sorted : cpu.queue.Pairwise fun a b => prio b ≤ prio a
  nodup : cpu.queue.Nodup

end Operations

section Insertion

variable {prio : τ → ℕ}

theorem behind_cons : behind prio t (u :: l) =
    if prio u < prio t then t :: u :: l else u :: behind prio t l :=
  List.orderedInsert_cons _ _ _ _

theorem mem_behind : u ∈ behind prio t l ↔ u = t ∨ u ∈ l := List.mem_orderedInsert _

theorem behind_perm : (behind prio t l).Perm (t :: l) := List.perm_orderedInsert _ _ _

theorem sublist_behind : l.Sublist (behind prio t l) := List.sublist_orderedInsert _ _

theorem behind_sorted (h : l.Pairwise fun a b => prio b ≤ prio a) :
    (behind prio t l).Pairwise fun a b => prio b ≤ prio a := by
  induction l with
  | nil => simp [behind]
  | cons a l ih =>
    obtain ⟨ha, hl⟩ := List.pairwise_cons.mp h
    rw [behind_cons]
    by_cases hlt : prio a < prio t
    · rw [if_pos hlt]
      refine List.pairwise_cons.mpr ⟨fun b hb => ?_, h⟩
      rcases List.mem_cons.mp hb with rfl | hb
      · exact hlt.le
      · exact (ha b hb).trans hlt.le
    · rw [if_neg hlt]
      refine List.pairwise_cons.mpr ⟨fun b hb => ?_, ih hl⟩
      rcases mem_behind.mp hb with rfl | hb
      · exact not_lt.mp hlt
      · exact ha b hb

theorem before_behind (h : l.Pairwise fun a b => prio b ≤ prio a) (hu : u ∈ l)
    (hprio : prio t ≤ prio u) : [u, t].Sublist (behind prio t l) := by
  induction l with
  | nil => exact absurd hu List.not_mem_nil
  | cons a l ih =>
    obtain ⟨ha, hl⟩ := List.pairwise_cons.mp h
    have hge : prio u ≤ prio a := by
      rcases List.mem_cons.mp hu with rfl | hu
      · exact le_rfl
      · exact ha u hu
    rw [behind_cons, if_neg (not_lt.mpr (hprio.trans hge))]
    rcases List.mem_cons.mp hu with rfl | hu
    · exact (List.singleton_sublist.mpr (mem_behind.mpr (Or.inl rfl))).cons_cons _
    · exact (ih hl hu).cons _

theorem behind_eq_cons (h : ∀ a ∈ l, prio a < prio t) : behind prio t l = t :: l := by
  cases l with
  | nil => rfl
  | cons a l => rw [behind_cons, if_pos (h a List.mem_cons_self)]

theorem ahead_eq_cons (h : ∀ a ∈ l, prio a ≤ prio t) : ahead prio t l = t :: l := by
  cases l with
  | nil => rfl
  | cons a l => exact (List.orderedInsert_cons ..).trans (if_pos (h a List.mem_cons_self))

end Insertion

section Queue

variable {prio : τ → ℕ}

theorem queue_running (h : cpu.running = some r) : cpu.queue = r :: cpu.ready := by
  rw [Cpu.queue, h]
  rfl

theorem mem_running (h : cpu.running = some r) : r ∈ cpu.queue := by
  rw [queue_running h]
  exact List.mem_cons_self

theorem queue_sleep (h : cpu.running = some r) : cpu.queue = r :: cpu.sleep.queue := by
  rw [queue_running h, Cpu.sleep, Cpu.queue]
  cases cpu.ready <;> rfl

theorem Cpu.Ordered.sleep (ho : cpu.Ordered prio) (h : cpu.running = some r) :
    cpu.sleep.Ordered prio := by
  have hsorted := ho.sorted
  have hnodup := ho.nodup
  rw [queue_sleep h] at hsorted hnodup
  constructor
  · intro hnone
    rw [Cpu.sleep] at hnone ⊢
    rw [List.head?_eq_none_iff.mp hnone, List.tail_nil]
  · exact hsorted.of_cons
  · exact hnodup.of_cons

theorem reschedule_behind (ho : cpu.Ordered prio) :
    let cpu' := Cpu.reschedule prio { cpu with ready := behind prio t cpu.ready }
    cpu'.running ≠ none ∧ cpu'.queue = behind prio t cpu.queue := by
  cases hr : cpu.running with
  | none => simp [Cpu.reschedule, Cpu.queue, hr, ho.idle hr, behind]
  | some r =>
    have hsorted := ho.sorted
    rw [queue_running hr] at hsorted ⊢
    obtain ⟨hle, -⟩ := List.pairwise_cons.mp hsorted
    rw [behind_cons]
    by_cases hlt : prio r < prio t
    · have hfirst : behind prio t cpu.ready = t :: cpu.ready :=
        behind_eq_cons fun a ha => (hle a ha).trans_lt hlt
      simp [Cpu.reschedule, hfirst, hlt, ahead_eq_cons hle, Cpu.queue]
    · have hkeep (a : τ) (ha : a ∈ behind prio t cpu.ready) : ¬ prio r < prio a := by
        rcases mem_behind.mp ha with rfl | ha
        · exact hlt
        · exact not_lt.mpr (hle a ha)
      rw [if_neg hlt, Cpu.reschedule]
      cases hb : behind prio t cpu.ready with
      | nil => simp [Cpu.queue]
      | cons a l =>
        have ha := hkeep a (hb ▸ List.mem_cons_self)
        simp [ha, Cpu.queue]

/-- A woken thread is inserted behind its peers, the running thread among them. -/
theorem queue_wake [DecidableEq τ] (ho : cpu.Ordered prio) (ht : t ∉ cpu.queue) :
    (cpu.wake prio t).queue = behind prio t cpu.queue := by
  rw [Cpu.wake, if_neg ht]
  exact (reschedule_behind ho).2

theorem Cpu.Ordered.wake [DecidableEq τ] (ho : cpu.Ordered prio) :
    (cpu.wake prio t).Ordered prio := by
  by_cases ht : t ∈ cpu.queue
  · rwa [Cpu.wake, if_pos ht]
  · constructor
    · intro hnone
      rw [Cpu.wake, if_neg ht] at hnone
      exact absurd hnone (reschedule_behind ho).1
    · rw [queue_wake ho ht]
      exact behind_sorted ho.sorted
    · rw [queue_wake ho ht]
      exact behind_perm.nodup_iff.mpr (List.nodup_cons.mpr ⟨ht, ho.nodup⟩)

theorem queue_create [DecidableEq τ] (hr : cpu.running = some r) (ht : t ∉ cpu.queue) :
    (cpu.create prio t).queue =
      if prio t ≤ prio r then behind prio t cpu.queue else t :: behind prio r cpu.ready := by
  rw [Cpu.create, if_neg ht, hr]
  by_cases hle : prio t ≤ prio r
  · simp only [if_pos hle, queue_running hr, behind_cons, if_neg (not_lt.mpr hle)]
    rfl
  · simp only [if_neg hle]
    rfl

theorem Cpu.Ordered.create [DecidableEq τ] (ho : cpu.Ordered prio) (hr : cpu.running = some r) :
    (cpu.create prio t).Ordered prio := by
  by_cases ht : t ∈ cpu.queue
  · rwa [Cpu.create, if_pos ht]
  have hqueue : (cpu.create prio t).queue =
      if prio t ≤ prio r then behind prio t cpu.queue else t :: behind prio r cpu.ready :=
    queue_create hr ht
  have hsorted := ho.sorted
  have hnodup := ho.nodup
  rw [queue_running hr] at hsorted hnodup ht
  obtain ⟨hle, hrest⟩ := List.pairwise_cons.mp hsorted
  constructor
  · intro hnone
    rw [Cpu.create, if_neg (queue_running hr ▸ ht), hr] at hnone
    by_cases hprio : prio t ≤ prio r <;> simp [hprio] at hnone
  · rw [hqueue]
    split
    · exact behind_sorted ho.sorted
    · next hlt =>
      refine List.pairwise_cons.mpr ⟨fun a ha => ?_, behind_sorted hrest⟩
      rcases mem_behind.mp ha with rfl | ha
      · exact (not_le.mp hlt).le
      · exact (hle a ha).trans (not_le.mp hlt).le
  · rw [hqueue]
    split
    · rw [queue_running hr]
      exact behind_perm.nodup_iff.mpr (List.nodup_cons.mpr ⟨ht, hnodup⟩)
    · refine List.nodup_cons.mpr ⟨fun h => ht ?_, behind_perm.nodup_iff.mpr hnodup⟩
      rcases mem_behind.mp h with rfl | h
      · exact List.mem_cons_self
      · exact List.mem_cons_of_mem _ h

end Queue

section Order

variable {prio : τ → ℕ}

def Cpu.Before (cpu : Cpu τ) (t u : τ) : Prop := [t, u].Sublist cpu.queue

theorem mem_wake [DecidableEq τ] (ho : cpu.Ordered prio) :
    u ∈ (cpu.wake prio t).queue ↔ u = t ∨ u ∈ cpu.queue := by
  by_cases ht : t ∈ cpu.queue
  · rw [Cpu.wake, if_pos ht]
    exact ⟨Or.inr, fun h => h.elim (fun h => h ▸ ht) id⟩
  · rw [queue_wake ho ht]
    exact mem_behind

theorem mem_create [DecidableEq τ] (hr : cpu.running = some r) :
    u ∈ (cpu.create prio t).queue ↔ u = t ∨ u ∈ cpu.queue := by
  by_cases ht : t ∈ cpu.queue
  · rw [Cpu.create, if_pos ht]
    exact ⟨Or.inr, fun h => h.elim (fun h => h ▸ ht) id⟩
  · rw [queue_create hr ht]
    split
    · exact mem_behind
    · rw [List.mem_cons, mem_behind, queue_running hr, List.mem_cons]

theorem mem_sleep (ho : cpu.Ordered prio) (hr : cpu.running = some r) :
    u ∈ cpu.sleep.queue ↔ u ∈ cpu.queue ∧ u ≠ r := by
  have hnodup := ho.nodup
  rw [queue_sleep hr] at hnodup ⊢
  constructor
  · exact fun h => ⟨List.mem_cons_of_mem _ h, fun heq => (List.nodup_cons.mp hnodup).1 (heq ▸ h)⟩
  · exact fun h => (List.mem_cons.mp h.1).resolve_left h.2

theorem Cpu.Before.left (h : cpu.Before t u) : t ∈ cpu.queue := h.subset List.mem_cons_self

theorem Cpu.Before.right (h : cpu.Before t u) : u ∈ cpu.queue :=
  h.subset (List.mem_cons_of_mem _ List.mem_cons_self)

/-- A thread above all others runs once it is ready. -/
theorem Cpu.Ordered.top_runs (ho : cpu.Ordered prio) (hu : u ∈ cpu.queue)
    (htop : ∀ t, t ≠ u → prio t < prio u) : cpu.running = some u := by
  cases hr : cpu.running with
  | none =>
    rw [Cpu.queue, hr, ho.idle hr] at hu
    exact absurd hu List.not_mem_nil
  | some r =>
    have hsorted := ho.sorted
    rw [queue_running hr] at hsorted hu
    by_contra hne
    have hru : r ≠ u := fun heq => hne (congrArg some heq)
    have hready : u ∈ cpu.ready := (List.mem_cons.mp hu).resolve_left (Ne.symm hru)
    exact absurd (List.rel_of_pairwise_cons hsorted hready) (not_le.mpr (htop r hru))

theorem Cpu.Before.not_running (h : cpu.Before t u) (ho : cpu.Ordered prio) :
    cpu.running ≠ some u := by
  intro hr
  have hnodup := ho.nodup
  rw [Cpu.Before, queue_running hr] at h
  rw [queue_running hr] at hnodup
  have hrest : u ∈ cpu.ready := by
    cases h with
    | cons _ h => exact h.subset (List.mem_cons_of_mem _ List.mem_cons_self)
    | cons_cons _ h => exact h.subset List.mem_cons_self
  exact (List.nodup_cons.mp hnodup).1 hrest

theorem Cpu.Before.sleep (h : cpu.Before t u) (hr : cpu.running = some r) (hne : t ≠ r) :
    cpu.sleep.Before t u := by
  rw [Cpu.Before, queue_sleep hr] at h
  cases h with
  | cons _ h => exact h
  | cons_cons _ h => exact absurd rfl hne

theorem Cpu.Before.wake [DecidableEq τ] {v : τ} (h : cpu.Before t u) (ho : cpu.Ordered prio) :
    (cpu.wake prio v).Before t u := by
  by_cases hv : v ∈ cpu.queue
  · rwa [Cpu.wake, if_pos hv]
  · rw [Cpu.Before, queue_wake ho hv]
    exact h.trans sublist_behind

theorem Cpu.Before.create [DecidableEq τ] {v : τ} (h : cpu.Before t u)
    (hr : cpu.running = some r) (hne : t ≠ r ∨ prio v ≤ prio r) :
    (cpu.create prio v).Before t u := by
  by_cases hv : v ∈ cpu.queue
  · rwa [Cpu.create, if_pos hv]
  · rw [Cpu.Before, queue_create hr hv]
    split
    · exact h.trans sublist_behind
    · next hlt =>
      rw [Cpu.Before, queue_running hr] at h
      cases h with
      | cons _ h => exact (h.trans sublist_behind).cons _
      | cons_cons _ h => exact absurd rfl (hne.resolve_right hlt)

theorem before_wake [DecidableEq τ] (ho : cpu.Ordered prio) (hu : u ∈ cpu.queue)
    (ht : t ∉ cpu.queue) (hprio : prio t ≤ prio u) : (cpu.wake prio t).Before u t := by
  rw [Cpu.Before, queue_wake ho ht]
  exact before_behind ho.sorted hu hprio

theorem before_create [DecidableEq τ] (ho : cpu.Ordered prio) (hr : cpu.running = some r)
    (hu : u ∈ cpu.queue) (ht : t ∉ cpu.queue) (hle : prio t ≤ prio r) (hprio : prio t ≤ prio u) :
    (cpu.create prio t).Before u t := by
  rw [Cpu.Before, queue_create hr ht, if_pos hle]
  exact before_behind ho.sorted hu hprio

end Order

section Moves

variable [DecidableEq τ] {prio : τ → ℕ} {who whom : τ → Prop} {cpu' : Cpu τ}

/-- What happens to the processor when it is threads of `who` that run, and threads of `whom`
that are woken or created. -/
inductive Cpu.Moves (prio : τ → ℕ) (who whom : τ → Prop) (cpu : Cpu τ) : Cpu τ → Prop where
  | keep : Moves prio who whom cpu cpu
  | wake {t : τ} (ht : whom t) : Moves prio who whom cpu (cpu.wake prio t)
  | create {r t : τ} (hr : cpu.running = some r) (hwho : who r) (ht : whom t) :
      Moves prio who whom cpu (cpu.create prio t)
  | sleep {r : τ} (hr : cpu.running = some r) (hwho : who r) : Moves prio who whom cpu cpu.sleep

theorem Cpu.Moves.ordered (h : cpu.Moves prio who whom cpu') (ho : cpu.Ordered prio) :
    cpu'.Ordered prio := by
  cases h with
  | keep => exact ho
  | wake _ => exact ho.wake
  | create hr _ _ => exact ho.create hr
  | sleep hr _ => exact ho.sleep hr

theorem Cpu.Moves.mem (h : cpu.Moves prio who whom cpu') (ho : cpu.Ordered prio)
    (hwho : ¬ who u) (hwhom : ¬ whom u) : u ∈ cpu'.queue ↔ u ∈ cpu.queue := by
  cases h with
  | keep => exact Iff.rfl
  | wake ht => exact (mem_wake ho).trans (or_iff_right fun heq => hwhom (heq ▸ ht))
  | create hr _ ht => exact (mem_create hr).trans (or_iff_right fun heq => hwhom (heq ▸ ht))
  | sleep hr hr' => exact (mem_sleep ho hr).trans (and_iff_left fun heq => hwho (heq ▸ hr'))

theorem Cpu.Moves.before (h : cpu.Moves prio who whom cpu') (ho : cpu.Ordered prio)
    (ht : ¬ who t) (hb : cpu.Before t u) : cpu'.Before t u := by
  cases h with
  | keep => exact hb
  | wake _ => exact hb.wake ho
  | create hr hwho _ => exact hb.create hr (Or.inl fun heq => ht (heq ▸ hwho))
  | sleep hr hwho => exact hb.sleep hr fun heq => ht (heq ▸ hwho)

end Moves

end ReadyList

namespace Runs

variable {σ ε : Type} {next : σ → ε → σ}

/-- `P` holds of every event, with the state before it. -/
def Always (next : σ → ε → σ) (P : σ → ε → Prop) : σ → List ε → Prop
  | _, [] => True
  | s, e :: es => P s e ∧ Always next P (next s e) es

/-- What an invariant gives at every event that is `Legal` and `Calm`, and such an event leaves
the invariant true. -/
theorem always_of_invariant {Legal Calm P : σ → ε → Prop} {I : σ → Prop}
    (hstep : ∀ s e, I s → Legal s e → Calm s e → P s e ∧ I (next s e)) {s : σ} {es : List ε}
    (hs : I s) (hlegal : Always next Legal s es) (hcalm : Always next Calm s es) :
    Always next P s es := by
  induction es generalizing s with
  | nil => trivial
  | cons e es ih =>
    obtain ⟨hP, hnext⟩ := hstep s e hs hlegal.1 hcalm.1
    exact ⟨hP, ih hnext hlegal.2 hcalm.2⟩

theorem always_append {P : σ → ε → Prop} {s : σ} {es es' : List ε} :
    Always next P s (es ++ es') ↔ Always next P s es ∧ Always next P (es.foldl next s) es' := by
  induction es generalizing s with
  | nil => exact (and_iff_right trivial).symm
  | cons e es ih => exact (and_congr_right fun _ => ih).trans and_assoc.symm

theorem invariant_after {Legal Calm : σ → ε → Prop} {I : σ → Prop}
    (hstep : ∀ s e, I s → Legal s e → Calm s e → I (next s e)) {s : σ} {es : List ε}
    (hs : I s) (hlegal : Always next Legal s es) (hcalm : Always next Calm s es) :
    I (es.foldl next s) := by
  induction es generalizing s with
  | nil => exact hs
  | cons e es ih => exact ih (hstep s e hs hlegal.1 hcalm.1) hlegal.2 hcalm.2

instance decidableAlways (P : σ → ε → Prop) [∀ s e, Decidable (P s e)] :
    (s : σ) → (es : List ε) → Decidable (Always next P s es)
  | _, [] => isTrue trivial
  | s, e :: es =>
    have := decidableAlways P (next s e) es
    inferInstanceAs (Decidable (_ ∧ _))

end Runs
