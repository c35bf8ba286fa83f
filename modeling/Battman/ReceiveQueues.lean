import Battman.RingQueue

/-! The receive queues of comm_usb.c and comm_can.c: the reading threads step by step, and the
processing threads, which are the same but for the size of the buffer and what they do with an
item. -/
namespace Battman
open RingQueue

def serialRxBufferSize : ℕ := 2048
def rxFramesSize : ℕ := 100

/-- What can_process_thread looks at in a frame. -/
structure CANRxFrame where
  ide : Bool
  eid : UInt32
  data8 : Fin 8 → UInt8

/-- serial_read_thread: in chSequentialStreamRead, or in the loop over what it has read. -/
inductive SerialReadThread where
  | reading
  | storing (buffer : List UInt8) (hadData : Bool)

def SerialReadThread.step : SerialReadThread → List UInt8 → SerialReadThread × Action UInt8
  | .reading, bytes => (.storing bytes false, .idle)
  | .storing (b :: bs) _, _ => (.storing bs true, .store b)
  | .storing [] true, _ => (.reading, .signal)
  | .storing [] false, _ => (.reading, .idle)

def SerialReadThread.delivers : SerialReadThread → List UInt8 → List UInt8
  | .reading, bytes => bytes
  | .storing _ _, _ => []

def SerialReadThread.pending : SerialReadThread → List UInt8
  | .reading => []
  | .storing buffer _ => buffer

def SerialReadThread.hadData : SerialReadThread → Bool
  | .reading => false
  | .storing _ hadData => hadData

inductive CanReadThread where
  | receiving
  | stored
  deriving DecidableEq

def CanReadThread.step : CanReadThread → Option CANRxFrame → CanReadThread × Action CANRxFrame
  | .receiving, some rxmsg => (.stored, .store rxmsg)
  | .receiving, none => (.receiving, .idle)
  | .stored, _ => (.receiving, .signal)

def CanReadThread.delivers : CanReadThread → Option CANRxFrame → List CANRxFrame
  | .receiving, result => result.toList
  | .stored, _ => []

def serialReader : Producer UInt8 where
  State := SerialReadThread
  Event := List UInt8
  start := .reading
  step := SerialReadThread.step
  delivers := SerialReadThread.delivers
  pending := SerialReadThread.pending
  owes := SerialReadThread.hadData
  pending_start := rfl
  pending_step := by
    rintro (_ | ⟨_ | _, _ | _⟩) e <;> simp [SerialReadThread.step, SerialReadThread.delivers,
      SerialReadThread.pending, Action.stored]
  owes_start := rfl
  owes_step := by
    rintro (_ | ⟨_ | _, _ | _⟩) e <;> rfl

def canReader : Producer CANRxFrame where
  State := CanReadThread
  Event := Option CANRxFrame
  start := .receiving
  step := CanReadThread.step
  delivers := CanReadThread.delivers
  pending := fun _ => []
  owes := fun s => decide (s = .stored)
  pending_start := rfl
  pending_step := by
    rintro (_ | _) (_ | _) <;> rfl
  owes_start := rfl
  owes_step := by
    rintro (_ | _) (_ | _) <;> rfl

def serialAfter (buffer : ℕ → UInt8) (moves : List (Move serialReader)) :
    RingQueue.Link serialReader :=
  (RingQueue.Link.start serialReader buffer).run serialRxBufferSize moves

def canAfter (buffer : ℕ → CANRxFrame) (moves : List (Move canReader)) :
    RingQueue.Link canReader :=
  (RingQueue.Link.start canReader buffer).run rxFramesSize moves

/-- The items handled are the first of those that the reads delivered. None is unread when the
reader has nothing to signal and the processing thread is blocked with no event pending, and all
are handled when nothing read is still to be stored. -/
def LossFree {α : Type} {P : Producer α} (l : RingQueue.Link P) : Prop :=
  l.queue.handled <+: l.received ∧ (l.Blocked → l.queue.unread = 0) ∧
    (l.Quiet → l.queue.handled = l.received)

/-- Both queues in every state of every interleaving in which one place stays free. -/
theorem receive_queues_loss_free (serialBuffer : ℕ → UInt8) (serialMoves : List (Move serialReader))
    (canBuffer : ℕ → CANRxFrame) (canMoves : List (Move canReader))
    (hs : ∀ before after, serialMoves = before ++ after →
      (serialAfter serialBuffer before).queue.unread ≤ serialRxBufferSize - 1)
    (hc : ∀ before after, canMoves = before ++ after →
      (canAfter canBuffer before).queue.unread ≤ rxFramesSize - 1) :
    LossFree (serialAfter serialBuffer serialMoves) ∧ LossFree (canAfter canBuffer canMoves) := by
  constructor
  · exact (sound_run serialBuffer serialMoves fun before after h =>
      Nat.lt_of_le_pred (by decide) (hs before after h)).fifo
  · exact (sound_run canBuffer canMoves fun before after h =>
      Nat.lt_of_le_pred (by decide) (hc before after h)).fifo

/-- A byte and a frame that are read, stored, signalled and handled. -/
theorem receive_queues_loss_free_short :
    (serialAfter (fun _ => 0)
      (.produce [7] :: .produce [] :: .produce [] :: List.replicate 4 .consume)).queue.handled =
        [7] ∧
    (canAfter (fun _ => ⟨true, 0, fun _ => 0⟩)
      (.produce (some ⟨true, 1, fun _ => 2⟩) :: .produce none ::
        List.replicate 4 .consume)).queue.handled = [⟨true, 1, fun _ => 2⟩] := by
  obtain ⟨⟨-, -, hserial⟩, -, -, hcan⟩ := receive_queues_loss_free (fun _ => 0)
    (.produce [7] :: .produce [] :: .produce [] :: List.replicate 4 .consume)
    (fun _ => ⟨true, 0, fun _ => 0⟩)
    (.produce (some ⟨true, 1, fun _ => 2⟩) :: .produce none :: List.replicate 4 .consume)
    (fun before after h => Nat.le_pred_of_lt (never_full _ _ (by decide) before after h))
    (fun before after h => Nat.le_pred_of_lt (never_full _ _ (by decide) before after h))
  exact ⟨hserial ⟨⟨rfl, rfl, rfl⟩, rfl⟩, hcan ⟨⟨rfl, rfl, rfl⟩, rfl⟩⟩

end Battman
