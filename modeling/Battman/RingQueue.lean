import Mathlib

/-! A ring buffer between a producer and a consumer that sleeps on an event.
Each side owns one index and wraps it after the access; the consumer may stay in the handling
of an item for any time. `received` records what the producer has been handed, `stored` and
`handled` what has gone through the buffer; no step reads them. -/
namespace RingQueue

variable {α : Type}

inductive Consumer (α : Type) where
  | waiting
  | testing
  | handling (item : α)

structure Queue (α : Type) where
  buffer : ℕ → α
  readPos : ℕ
  writePos : ℕ
  signalled : Bool
  consumer : Consumer α
  stored : List α
  handled : List α

inductive Action (α : Type) where
  | idle
  | store (item : α)
  | signal

def Action.stored : Action α → List α
  | .store item => [item]
  | _ => []

def wrap (size pos : ℕ) : ℕ := if pos = size then 0 else pos

namespace Queue

def empty (buffer : ℕ → α) : Queue α := ⟨buffer, 0, 0, false, .waiting, [], []⟩

def act (size : ℕ) (q : Queue α) : Action α → Queue α
  | .idle => q
  | .store item =>
    { q with
      buffer := Function.update q.buffer q.writePos item
      writePos := wrap size (q.writePos + 1)
      stored := q.stored ++ [item] }
  | .signal => { q with signalled := true }

def consume (size : ℕ) (q : Queue α) : Queue α :=
  match q.consumer with
  | .waiting => if q.signalled then { q with signalled := false, consumer := .testing } else q
  | .testing =>
    if q.readPos ≠ q.writePos then
      { q with
        readPos := q.readPos + 1
        consumer := .handling (q.buffer q.readPos)
        handled := q.handled ++ [q.buffer q.readPos] }
    else { q with consumer := .waiting }
  | .handling _ => { q with readPos := wrap size q.readPos, consumer := .testing }

def unread (q : Queue α) : ℕ := q.stored.length - q.handled.length

end Queue

def ReadAt (size n : ℕ) (q : Queue α) : Prop :=
  match q.consumer with
  | .handling _ => ∃ k, n = k + 1 ∧ q.readPos = k % size + 1
  | _ => q.readPos = n % size

/-- The buffer holds the unread items in their places. -/
structure Ordered (size : ℕ) (q : Queue α) : Prop where
  inOrder : q.stored.take q.handled.length = q.handled
  write : q.writePos = q.stored.length % size
  read : ReadAt size q.handled.length q
  slots : ∀ i, q.handled.length ≤ i → i < q.stored.length →
    q.stored[i]? = some (q.buffer (i % size))

variable {size : ℕ} {q : Queue α} {item : α}

section Indices

theorem wrap_succ (hsize : 0 < size) (n : ℕ) : wrap size (n % size + 1) = (n + 1) % size := by
  have hlt := Nat.mod_lt n hsize
  rw [← Nat.mod_add_mod]
  by_cases h : n % size + 1 = size
  · rw [wrap, if_pos h, h, Nat.mod_self]
  · rw [wrap, if_neg h, Nat.mod_eq_of_lt (show n % size + 1 < size by omega)]

theorem mod_ne {i j : ℕ} (hij : i < j) (hj : j < i + size) : i % size ≠ j % size := by
  intro h
  have hzero := Nat.sub_mod_eq_zero_of_mod_eq h.symm
  rw [Nat.mod_eq_of_lt (by omega)] at hzero
  omega

end Indices

namespace Ordered

theorem handled_le (h : Ordered size q) : q.handled.length ≤ q.stored.length := by
  have hlen := congrArg List.length h.inOrder
  rw [List.length_take] at hlen
  omega

theorem empty (buffer : ℕ → α) : Ordered size (Queue.empty buffer) :=
  ⟨rfl, (Nat.zero_mod size).symm, (Nat.zero_mod size).symm,
    fun _ _ hi => absurd hi (Nat.not_lt_zero _)⟩

theorem store (h : Ordered size q) (hroom : q.unread + 1 < size) (item : α) :
    Ordered size (q.act size (.store item)) := by
  have hle := h.handled_le
  unfold Queue.unread at hroom
  constructor
  · change (q.stored ++ [item]).take q.handled.length = q.handled
    rw [List.take_append_of_le_length hle]
    exact h.inOrder
  · change wrap size (q.writePos + 1) = (q.stored ++ [item]).length % size
    rw [h.write, wrap_succ (by omega), List.length_append, List.length_singleton]
  · exact h.read
  · intro i hlow hi
    change (q.stored ++ [item])[i]? = some (Function.update q.buffer q.writePos item (i % size))
    change i < (q.stored ++ [item]).length at hi
    change q.handled.length ≤ i at hlow
    rw [List.length_append, List.length_singleton] at hi
    by_cases hnew : i = q.stored.length
    · subst hnew
      rw [h.write, Function.update_self, List.getElem?_concat_length]
    · have hne : i % size ≠ q.writePos := by
        rw [h.write]
        exact mod_ne (by omega) (by omega)
      rw [Function.update_of_ne hne, List.getElem?_append_left (by omega)]
      exact h.slots i hlow (by omega)

theorem read_eq_write (h : Ordered size q) (hroom : q.unread < size)
    (hr : q.readPos = q.handled.length % size) (heq : q.readPos = q.writePos) :
    q.handled.length = q.stored.length := by
  have hle := h.handled_le
  unfold Queue.unread at hroom
  by_contra hne
  apply mod_ne (show q.handled.length < q.stored.length by omega)
    (show q.stored.length < q.handled.length + size by omega)
  rw [← hr, heq, h.write]

theorem take (h : Ordered size q) (hc : q.consumer = .testing) (hne : q.readPos ≠ q.writePos) :
    Ordered size
      { q with
        readPos := q.readPos + 1
        consumer := .handling (q.buffer q.readPos)
        handled := q.handled ++ [q.buffer q.readPos] } := by
  have hr : q.readPos = q.handled.length % size := by
    have hread := h.read
    unfold ReadAt at hread
    rw [hc] at hread
    exact hread
  have hlt : q.handled.length < q.stored.length := by
    apply lt_of_le_of_ne h.handled_le
    intro heq
    apply hne
    rw [hr, h.write, heq]
  have hnext := h.slots _ le_rfl hlt
  rw [← hr] at hnext
  constructor
  · change q.stored.take (q.handled ++ [q.buffer q.readPos]).length = _
    rw [List.length_append, List.length_singleton, List.take_add_one, h.inOrder, hnext]
    rfl
  · exact h.write
  · exact ⟨q.handled.length, by simp, congrArg (· + 1) hr⟩
  · intro i hlow hi
    change (q.handled ++ [q.buffer q.readPos]).length ≤ i at hlow
    rw [List.length_append, List.length_singleton] at hlow
    exact h.slots i (by omega) hi

theorem consume (h : Ordered size q) (hroom : q.unread < size) : Ordered size (q.consume size) := by
  have hsize : 0 < size := Nat.zero_lt_of_lt hroom
  have hread := h.read
  unfold ReadAt at hread
  unfold Queue.consume
  cases hc : q.consumer with
  | waiting =>
    rw [hc] at hread
    by_cases hs : q.signalled = true
    · rw [if_pos hs]
      exact ⟨h.inOrder, h.write, hread, h.slots⟩
    · rw [if_neg hs]
      exact h
  | testing =>
    rw [hc] at hread
    by_cases hne : q.readPos ≠ q.writePos
    · rw [if_pos hne]
      exact h.take hc hne
    · rw [if_neg hne]
      exact ⟨h.inOrder, h.write, hread, h.slots⟩
  | handling item =>
    rw [hc] at hread
    obtain ⟨k, hk, hpos⟩ := hread
    refine ⟨h.inOrder, h.write, ?_, h.slots⟩
    change wrap size q.readPos = q.handled.length % size
    rw [hpos, hk, wrap_succ hsize]

end Ordered

/-- A thread that is handed items, stores each and signals. `delivers` are the items that an event
hands it, `pending` those that it has yet to store; `owes` tells that it has stored since it last
signalled. -/
structure Producer (α : Type) where
  State : Type
  Event : Type
  start : State
  step : State → Event → State × Action α
  delivers : State → Event → List α
  pending : State → List α
  owes : State → Bool
  pending_start : pending start = []
  pending_step : ∀ s e,
    (step s e).2.stored ++ pending (step s e).1 = pending s ++ delivers s e
  owes_start : owes start = false
  owes_step : ∀ s e, owes (step s e).1 =
    match (step s e).2 with
    | .idle => owes s
    | .store _ => true
    | .signal => false

inductive Move (P : Producer α) where
  | produce (e : P.Event)
  | consume

structure Link (P : Producer α) where
  producer : P.State
  queue : Queue α
  received : List α

variable {P : Producer α} {l : Link P}

namespace Link

def start (P : Producer α) (buffer : ℕ → α) : Link P := ⟨P.start, .empty buffer, []⟩

def step (size : ℕ) (l : Link P) : Move P → Link P
  | .produce e =>
    { producer := (P.step l.producer e).1
      queue := l.queue.act size (P.step l.producer e).2
      received := l.received ++ P.delivers l.producer e }
  | .consume => { l with queue := l.queue.consume size }

def run (size : ℕ) (l : Link P) (moves : List (Move P)) : Link P := moves.foldl (step size) l

def NeverFull (size : ℕ) (l : Link P) (moves : List (Move P)) : Prop :=
  ∀ before after, moves = before ++ after → (l.run size before).queue.unread < size

/-- The consumer sleeps with nothing to wake it, and the producer has nothing to signal. -/
structure Blocked (l : Link P) : Prop where
  waiting : l.queue.consumer = .waiting
  unsignalled : l.queue.signalled = false
  paid : P.owes l.producer = false

/-- Nor has the producer anything left to store. -/
structure Quiet (l : Link P) : Prop extends l.Blocked where
  nothingPending : P.pending l.producer = []

end Link

/-- What holds in every state: all that the producer was handed is in the queue or still with it,
the order, and that no item is left to a sleeping consumer. -/
structure Sound (size : ℕ) (l : Link P) : Prop where
  kept : l.queue.stored ++ P.pending l.producer = l.received
  ordered : Ordered size l.queue
  awake : l.Blocked → l.queue.handled.length = l.queue.stored.length

theorem run_concat (moves : List (Move P)) (m : Move P) :
    l.run size (moves ++ [m]) = (l.run size moves).step size m := by
  rw [Link.run, List.foldl_append]
  rfl

theorem sound_start (buffer : ℕ → α) : Sound size (Link.start P buffer) :=
  ⟨P.pending_start, .empty buffer, fun _ => rfl⟩

theorem act_stored (a : Action α) : (q.act size a).stored = q.stored ++ a.stored := by
  cases a with
  | store item => rfl
  | idle => exact (List.append_nil _).symm
  | signal => exact (List.append_nil _).symm

theorem consume_stored : (q.consume size).stored = q.stored := by
  unfold Queue.consume
  split
  · split <;> rfl
  · split <;> rfl
  · rfl

theorem sound_produce (h : Sound size l) (e : P.Event)
    (hroom : (l.step size (.produce e)).queue.unread < size) :
    Sound size (l.step size (.produce e)) := by
  have howes := P.owes_step l.producer e
  refine ⟨?_, ?_, ?_⟩
  · change (l.queue.act size (P.step l.producer e).2).stored ++ P.pending (P.step l.producer e).1 =
      l.received ++ P.delivers l.producer e
    rw [act_stored, List.append_assoc, P.pending_step, ← List.append_assoc, h.kept]
  · change Ordered size (l.queue.act size (P.step l.producer e).2)
    change (l.queue.act size (P.step l.producer e).2).unread < size at hroom
    cases ha : (P.step l.producer e).2 with
    | idle => exact h.ordered
    | signal => exact ⟨h.ordered.inOrder, h.ordered.write, h.ordered.read, h.ordered.slots⟩
    | store item =>
      apply h.ordered.store
      have hle := h.ordered.handled_le
      rw [ha] at hroom
      change (l.queue.stored ++ [item]).length - l.queue.handled.length < size at hroom
      rw [List.length_append, List.length_singleton] at hroom
      unfold Queue.unread
      omega
  · intro hq
    have hpaid : P.owes (P.step l.producer e).1 = false := hq.paid
    have hwait : (l.queue.act size (P.step l.producer e).2).consumer = .waiting := hq.waiting
    have hquiet : (l.queue.act size (P.step l.producer e).2).signalled = false := hq.unsignalled
    change (l.queue.act size (P.step l.producer e).2).handled.length =
      (l.queue.act size (P.step l.producer e).2).stored.length
    cases ha : (P.step l.producer e).2 with
    | idle =>
      rw [ha] at howes hwait hquiet
      exact h.awake ⟨hwait, hquiet, howes.symm.trans hpaid⟩
    | signal =>
      rw [ha] at hquiet
      cases hquiet
    | store item =>
      rw [ha] at howes
      rw [howes] at hpaid
      cases hpaid

theorem sound_consume (h : Sound size l) (hroom : l.queue.unread < size) :
    Sound size (l.step size .consume) := by
  refine ⟨(congrArg (· ++ _) consume_stored).trans h.kept, h.ordered.consume hroom, fun hq => ?_⟩
  have hwait : (l.queue.consume size).consumer = .waiting := hq.waiting
  have hquiet : (l.queue.consume size).signalled = false := hq.unsignalled
  change (l.queue.consume size).handled.length = (l.queue.consume size).stored.length
  unfold Queue.consume at *
  cases hc : l.queue.consumer with
  | waiting =>
    rw [hc] at hwait hquiet
    by_cases hs : l.queue.signalled = true
    · simp only [if_pos hs] at hwait
      cases hwait
    · simp only [if_neg hs] at hquiet ⊢
      exact h.awake ⟨hc, hquiet, hq.paid⟩
  | testing =>
    rw [hc] at hwait
    by_cases hne : l.queue.readPos ≠ l.queue.writePos
    · simp only [if_pos hne] at hwait
      cases hwait
    · simp only [if_neg hne]
      have hread := h.ordered.read
      unfold ReadAt at hread
      rw [hc] at hread
      exact h.ordered.read_eq_write hroom hread (not_not.mp hne)
  | handling item =>
    rw [hc] at hwait
    cases hwait

theorem sound_run (buffer : ℕ → α) (moves : List (Move P))
    (hroom : (Link.start P buffer).NeverFull size moves) :
    Sound size ((Link.start P buffer).run size moves) := by
  induction moves using List.reverseRecOn with
  | nil => exact sound_start buffer
  | append_singleton moves m ih =>
    have hbefore : (Link.start P buffer).NeverFull size moves := by
      intro before after hs
      apply hroom before (after ++ [m])
      rw [hs, List.append_assoc]
    have hprev := hroom moves [m] rfl
    have hnext := hroom (moves ++ [m]) [] (List.append_nil _).symm
    rw [run_concat] at hnext ⊢
    cases m with
    | produce e => exact sound_produce (ih hbefore) e hnext
    | consume => exact sound_consume (ih hbefore) hprev

theorem unread_step (m : Move P) : (l.step size m).queue.unread ≤ l.queue.unread + 1 := by
  have hact (a : Action α) : (l.queue.act size a).unread ≤ l.queue.unread + 1 := by
    cases a with
    | store item =>
      change (l.queue.stored ++ [item]).length - l.queue.handled.length ≤ _
      rw [List.length_append, List.length_singleton]
      unfold Queue.unread
      omega
    | _ => exact Nat.le_succ _
  have hconsume : (l.queue.consume size).unread ≤ l.queue.unread := by
    unfold Queue.consume
    split
    · split <;> exact le_rfl
    · split
      · change l.queue.stored.length - (l.queue.handled ++ [_]).length ≤ _
        rw [List.length_append]
        exact Nat.sub_le_sub_left (Nat.le_add_right ..) _
      · exact le_rfl
    · exact le_rfl
  cases m with
  | produce e => exact hact _
  | consume => exact hconsume.trans (Nat.le_succ _)

theorem never_full (buffer : ℕ → α) (moves : List (Move P)) (h : moves.length < size) :
    (Link.start P buffer).NeverFull size moves := by
  rintro before after rfl
  rw [List.length_append] at h
  have hunread : ((Link.start P buffer).run size before).queue.unread ≤ before.length := by
    clear h
    induction before using List.reverseRecOn with
    | nil => exact le_rfl
    | append_singleton before m ih =>
      rw [run_concat, List.length_append]
      exact (unread_step m).trans (Nat.succ_le_succ ih)
  omega

/-- The items handled are the first ones received, none is left to a sleeping consumer, and all
are handled when nothing is to come. -/
theorem Sound.fifo (h : Sound size l) :
    l.queue.handled <+: l.received ∧ (l.Blocked → l.queue.unread = 0) ∧
      (l.Quiet → l.queue.handled = l.received) := by
  have hserved : l.queue.handled <+: l.queue.stored := by
    rw [← h.ordered.inOrder]
    exact List.take_prefix _ _
  have hkept := h.kept
  refine ⟨hserved.trans ⟨_, hkept⟩, fun hb => ?_, fun hq => ?_⟩
  · unfold Queue.unread
    rw [h.awake hb, Nat.sub_self]
  · rw [hq.nothingPending, List.append_nil] at hkept
    rw [hserved.eq_of_length (h.awake hq.toBlocked), hkept]

section Done

variable {done : List α}

/-- The items done with: those handled, but for the one in hand. -/
def Queue.Done (q : Queue α) (done : List α) : Prop :=
  q.handled = match q.consumer with
    | .handling item => done ++ [item]
    | _ => done

theorem done_act (h : q.Done done) (a : Action α) : (q.act size a).Done done := by
  cases a with
  | idle => exact h
  | store item => exact h
  | signal => exact h

theorem done_consume (h : q.Done done) :
    (q.consume size).Done (match q.consumer with
      | .handling item => done ++ [item]
      | _ => done) := by
  obtain ⟨buffer, readPos, writePos, signalled, consumer, stored, handled⟩ := q
  cases consumer with
  | waiting =>
    cases signalled
    · exact h
    · exact h
  | testing =>
    obtain rfl : handled = done := h
    by_cases hne : readPos ≠ writePos
    · simp [Queue.Done, Queue.consume, hne]
    · simp [Queue.Done, Queue.consume, hne]
  | handling item => exact h

theorem Sound.done_received (h : Sound size l) (hd : l.queue.Done done) :
    done <+: l.received ∧ (l.Quiet → done = l.received) := by
  obtain ⟨hfirst, -, hall⟩ := h.fifo
  constructor
  · refine List.IsPrefix.trans ?_ hfirst
    rw [hd]
    split
    · exact List.prefix_append _ _
    · exact List.prefix_rfl
  · intro hq
    rw [← hall hq, hd, hq.waiting]

end Done

end RingQueue
