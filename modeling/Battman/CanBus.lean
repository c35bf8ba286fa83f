import Battman.ReceiveQueues

/-! The addresses on the CAN bus, and the current that the motor controller reports: in every
order of steps of the reading and the processing thread it is that of the last status frame
for this board. -/
namespace Battman
open RingQueue

def canBroadcast : UInt8 := 0xFF

def eidField (x : UInt32) : UInt32 := x &&& 0x1FFFFFFF

def transmitEid (deviceID receiver : UInt8) (packetID : UInt32) : UInt32 :=
  eidField (deviceID.toUInt32 ||| (receiver.toUInt32 <<< 8) ||| (packetID <<< 16))

def eidSender (eid : UInt32) : UInt8 := (eid &&& 0xFF).toUInt8

def eidReceiver (eid : UInt32) : UInt8 := ((eid >>> 8) &&& 0xFF).toUInt8

/-- The frame that comm_can_transmit sends; what `data` does not fill is left on the stack. -/
def transmitFrame (deviceID receiver : UInt8) (packetID : UInt32) (data : List UInt8)
    (stack : Fin 8 → UInt8) : CANRxFrame where
  ide := true
  eid := transmitEid deviceID receiver packetID
  data8 i := data.getD i (stack i)

section Process

/- CANPacketID and its constants, and the float parser, are declared in files that are absent:
`packetID` is the conversion to the enumeration, `parseFloat32` gives the bits of a float and
the index behind it. -/
variable (packetID : UInt32 → ℕ) (status : ℕ)
  (parseFloat32 : (Fin 8 → UInt8) → ℕ → UInt32 × ℕ)

def canProcess (deviceID : UInt8) (current : UInt32) (rxmsg : CANRxFrame) : UInt32 :=
  if rxmsg.ide then
    let sender := eidSender rxmsg.eid
    let receiver := eidReceiver rxmsg.eid
    let id := packetID (rxmsg.eid >>> 16)
    if (receiver = canBroadcast ∨ receiver = deviceID) ∧ sender ≠ deviceID then
      if id = status then
        let (_rpm, ind) := parseFloat32 rxmsg.data8 0
        (parseFloat32 rxmsg.data8 ind).1
      else current
    else current
  else current

/-- A step of the reading thread with what canReceive gives, or one of the processing thread
while the configuration has this device ID. -/
inductive CanMove where
  | read (result : Option CANRxFrame)
  | process (deviceID : UInt8)

def CanMove.move : CanMove → Move canReader
  | .read result => .produce result
  | .process _ => .consume

/-- The two threads and infinity_current; `ids` records the device ID at each frame done with,
and is read by no step. -/
structure CanNode where
  link : RingQueue.Link canReader
  current : UInt32
  ids : List UInt8

def CanNode.start (buffer : ℕ → CANRxFrame) : CanNode := ⟨.start canReader buffer, 0x42C60000, []⟩

def CanNode.step (n : CanNode) (m : CanMove) : CanNode :=
  let link := n.link.step rxFramesSize m.move
  match m, n.link.queue.consumer with
  | .process deviceID, .handling rxmsg =>
    { link
      current := canProcess packetID status parseFloat32 deviceID n.current rxmsg
      ids := n.ids ++ [deviceID] }
  | _, _ => { n with link }

def CanNode.run (buffer : ℕ → CANRxFrame) (moves : List CanMove) : CanNode :=
  moves.foldl (CanNode.step packetID status parseFloat32) (.start buffer)

/-- A status frame of another device, for this one or for all. -/
def StatusFor (deviceID : UInt8) (rxmsg : CANRxFrame) : Prop :=
  rxmsg.ide = true ∧
    (eidReceiver rxmsg.eid = canBroadcast ∨ eidReceiver rxmsg.eid = deviceID) ∧
    eidSender rxmsg.eid ≠ deviceID ∧ packetID (rxmsg.eid >>> 16) = status

instance (deviceID : UInt8) (rxmsg : CANRxFrame) :
    Decidable (StatusFor packetID status deviceID rxmsg) :=
  inferInstanceAs (Decidable (_ ∧ _ ∧ _ ∧ _))

def reportedCurrent (rxmsg : CANRxFrame) : UInt32 :=
  (parseFloat32 rxmsg.data8 (parseFloat32 rxmsg.data8 0).2).1

/-- The current of the last status frame in `done`, with the device IDs at the time. -/
def lastReported (done : List (CANRxFrame × UInt8)) : UInt32 :=
  ((done.filter fun x => StatusFor packetID status x.2 x.1).getLast?.map
    fun x => reportedCurrent parseFloat32 x.1).getD 0x42C60000

end Process

section Addresses

variable {deviceID receiver : UInt8} {id : UInt32}

theorem transmit_sender : eidSender (transmitEid deviceID receiver id) = deviceID := by
  apply UInt8.toBitVec_inj.mp
  apply BitVec.eq_of_getLsbD_eq
  intro i hi
  interval_cases i <;> simp [eidSender, transmitEid, eidField]

theorem transmit_receiver : eidReceiver (transmitEid deviceID receiver id) = receiver := by
  apply UInt8.toBitVec_inj.mp
  apply BitVec.eq_of_getLsbD_eq
  intro i hi
  interval_cases i <;> simp [eidReceiver, transmitEid, eidField]

/-- The field has 13 bits for the packet. -/
theorem transmit_id : transmitEid deviceID receiver id >>> 16 = id &&& 0x1FFF := by
  apply UInt32.toBitVec_inj.mp
  apply BitVec.eq_of_getLsbD_eq
  intro i hi
  interval_cases i <;> simp [transmitEid, eidField]

end Addresses

section Delivery

variable (packetID : UInt32 → ℕ) (status : ℕ)
  (parseFloat32 : (Fin 8 → UInt8) → ℕ → UInt32 × ℕ)

theorem can_process_status (deviceID : UInt8) (current : UInt32) (rxmsg : CANRxFrame) :
    canProcess packetID status parseFloat32 deviceID current rxmsg =
      if StatusFor packetID status deviceID rxmsg then reportedCurrent parseFloat32 rxmsg
      else current := by
  by_cases h : StatusFor packetID status deviceID rxmsg
  · obtain ⟨hide, hreceiver, hsender, hid⟩ := id h
    rw [if_pos h, canProcess, if_pos hide]
    simp only [if_pos (And.intro hreceiver hsender), if_pos hid]
    rfl
  · rw [if_neg h, canProcess]
    by_cases hide : rxmsg.ide = true
    · rw [if_pos hide]
      by_cases haddress : (eidReceiver rxmsg.eid = canBroadcast ∨
          eidReceiver rxmsg.eid = deviceID) ∧ eidSender rxmsg.eid ≠ deviceID
      · have hid : packetID (rxmsg.eid >>> 16) ≠ status := fun hid =>
          h ⟨hide, haddress.1, haddress.2, hid⟩
        simp only [if_pos haddress, if_neg hid]
      · simp only [if_neg haddress]
    · rw [if_neg hide]

/-- What a board sends reaches the current of exactly those that it is addressed to, itself
left out; of the packet's number 13 bits arrive. -/
theorem transmitted_reaches (sender receiver deviceID : UInt8) (id : UInt32) (data : List UInt8)
    (stack : Fin 8 → UInt8) (current : UInt32) :
    canProcess packetID status parseFloat32 deviceID current
        (transmitFrame sender receiver id data stack) =
      if (receiver = 0xFF ∨ receiver = deviceID) ∧ sender ≠ deviceID ∧
          packetID (id &&& 0x1FFF) = status then
        reportedCurrent parseFloat32 (transmitFrame sender receiver id data stack)
      else current := by
  rw [can_process_status]
  refine if_congr ?_ rfl rfl
  simp only [StatusFor, transmitFrame, transmit_sender, transmit_receiver, transmit_id,
    canBroadcast, true_and]

variable {packetID status parseFloat32}

theorem last_reported_concat (done : List (CANRxFrame × UInt8)) (rxmsg : CANRxFrame)
    (deviceID : UInt8) :
    lastReported packetID status parseFloat32 (done ++ [(rxmsg, deviceID)]) =
      canProcess packetID status parseFloat32 deviceID
        (lastReported packetID status parseFloat32 done) rxmsg := by
  rw [can_process_status, lastReported, List.filter_append]
  by_cases h : StatusFor packetID status deviceID rxmsg
  · rw [if_pos h, List.filter_singleton]
    simp [h]
  · rw [if_neg h, List.filter_singleton]
    simp [h, lastReported]

structure CanNode.Holds (packetID : UInt32 → ℕ) (status : ℕ)
    (parseFloat32 : (Fin 8 → UInt8) → ℕ → UInt32 × ℕ) (n : CanNode) (done : List CANRxFrame) :
    Prop where
  ids : done.length = n.ids.length
  current : n.current = lastReported packetID status parseFloat32 (done.zip n.ids)
  handled : n.link.queue.Done done

variable {n : CanNode} {done : List CANRxFrame}

theorem holds_read (h : n.Holds packetID status parseFloat32 done)
    (result : Option CANRxFrame) :
    (n.step packetID status parseFloat32 (.read result)).Holds packetID status parseFloat32
      done :=
  ⟨h.ids, h.current, done_act h.handled _⟩

theorem holds_process (h : n.Holds packetID status parseFloat32 done) (deviceID : UInt8) :
    ∃ done', (n.step packetID status parseFloat32 (.process deviceID)).Holds packetID status
      parseFloat32 done' := by
  obtain ⟨⟨producer, queue, received⟩, current, ids⟩ := n
  obtain ⟨hids, hcurrent, hhandled⟩ := h
  obtain ⟨buffer, readPos, writePos, signalled, consumer, stored, handled⟩ := queue
  cases consumer with
  | waiting => exact ⟨done, hids, hcurrent, done_consume hhandled⟩
  | testing => exact ⟨done, hids, hcurrent, done_consume hhandled⟩
  | handling rxmsg =>
    have hids : done.length = ids.length := hids
    have hcurrent : current = lastReported packetID status parseFloat32 (done.zip ids) := hcurrent
    have hlast : canProcess packetID status parseFloat32 deviceID current rxmsg =
        lastReported packetID status parseFloat32 ((done ++ [rxmsg]).zip (ids ++ [deviceID])) := by
      rw [List.zip_append hids, List.zip_cons_cons, List.zip_nil_left, last_reported_concat,
        hcurrent]
    have hlength : (done ++ [rxmsg]).length = (ids ++ [deviceID]).length := by
      rw [List.length_append, List.length_append, hids]
      rfl
    exact ⟨done ++ [rxmsg], hlength, hlast, hhandled⟩

theorem run_concat_can (buffer : ℕ → CANRxFrame) (moves : List CanMove) (m : CanMove) :
    CanNode.run packetID status parseFloat32 buffer (moves ++ [m]) =
      (CanNode.run packetID status parseFloat32 buffer moves).step packetID status parseFloat32
        m := by
  rw [CanNode.run, List.foldl_append]
  rfl

theorem run_holds (buffer : ℕ → CANRxFrame) (moves : List CanMove) :
    ∃ done, (CanNode.run packetID status parseFloat32 buffer moves).Holds packetID status
      parseFloat32 done := by
  induction moves using List.reverseRecOn with
  | nil => exact ⟨[], rfl, rfl, rfl⟩
  | append_singleton moves m ih =>
    obtain ⟨done, h⟩ := ih
    rw [run_concat_can]
    cases m with
    | read result => exact ⟨done, holds_read h result⟩
    | process deviceID => exact holds_process h deviceID

theorem step_link (m : CanMove) :
    (n.step packetID status parseFloat32 m).link = n.link.step rxFramesSize m.move := by
  unfold CanNode.step
  split <;> rfl

theorem run_link (buffer : ℕ → CANRxFrame) (moves : List CanMove) :
    (CanNode.run packetID status parseFloat32 buffer moves).link =
      canAfter buffer (moves.map CanMove.move) := by
  induction moves using List.reverseRecOn with
  | nil => rfl
  | append_singleton moves m ih =>
    rw [run_concat_can, List.map_append, List.map_singleton, canAfter, run_concat, ← canAfter,
      ← ih]
    exact step_link m

/-- In every order of steps in which one place of rx_frames stays free, infinity_current is that
of the last status frame for the board among the frames done with, which are the first of those
that canReceive gave, and all of them when both threads have nothing left to do. -/
theorem current_last_reported (packetID : UInt32 → ℕ) (status : ℕ)
    (parseFloat32 : (Fin 8 → UInt8) → ℕ → UInt32 × ℕ) (buffer : ℕ → CANRxFrame)
    (moves : List CanMove)
    (hroom : ∀ before after, moves = before ++ after →
      (CanNode.run packetID status parseFloat32 buffer before).link.queue.unread ≤
        rxFramesSize - 1) :
    let n := CanNode.run packetID status parseFloat32 buffer moves
    ∃ done, done <+: n.link.received ∧ done.length = n.ids.length ∧
      n.current = lastReported packetID status parseFloat32 (done.zip n.ids) ∧
      (n.link.Quiet → done = n.link.received) := by
  obtain ⟨done, hids, hcurrent, hhandled⟩ : ∃ done, (CanNode.run packetID status parseFloat32
    buffer moves).Holds packetID status parseFloat32 done := run_holds buffer moves
  have hsound :
      Sound rxFramesSize (CanNode.run packetID status parseFloat32 buffer moves).link := by
    rw [run_link]
    apply sound_run
    intro before after hsplit
    obtain ⟨xs, ys, hmoves, rfl, -⟩ := List.map_eq_append_iff.mp hsplit
    have hfree := hroom xs ys hmoves
    rw [run_link] at hfree
    exact Nat.lt_of_le_pred (by decide) hfree
  obtain ⟨hfirst, hall⟩ := hsound.done_received hhandled
  exact ⟨done, hfirst, hids, hcurrent, hall⟩

theorem few_moves_room (buffer : ℕ → CANRxFrame) (moves : List CanMove)
    (h : moves.length < rxFramesSize) :
    ∀ before after, moves = before ++ after →
      (CanNode.run packetID status parseFloat32 buffer before).link.queue.unread ≤
        rxFramesSize - 1 := by
  intro before after hsplit
  rw [run_link]
  have hmapped : (moves.map CanMove.move).length < rxFramesSize := by rwa [List.length_map]
  exact Nat.le_pred_of_lt (never_full buffer _ hmapped (before.map CanMove.move)
    (after.map CanMove.move) (by rw [hsplit, List.map_append]))

/-- A status frame for all, a second one and one for another board: the second value counts. -/
theorem current_last_reported_once :
    (CanNode.run UInt32.toNat 9 (fun data i => ((data ⟨i % 8, by omega⟩).toUInt32, i + 4))
      (fun _ => ⟨true, 0, 0⟩)
      (.read (some ⟨true, 0x9FF01, fun _ => 3⟩) :: .read none ::
        .read (some ⟨true, 0x9FF01, fun _ => 5⟩) :: .read none ::
        .read (some ⟨true, 0x90701, fun _ => 8⟩) :: .read none ::
        List.replicate 8 (.process 2))).current = 5 := by
  obtain ⟨done, -, -, hcurrent, hall⟩ := current_last_reported UInt32.toNat 9
    (fun data i => ((data ⟨i % 8, by omega⟩).toUInt32, i + 4)) (fun _ => ⟨true, 0, 0⟩)
    (.read (some ⟨true, 0x9FF01, fun _ => 3⟩) :: .read none ::
      .read (some ⟨true, 0x9FF01, fun _ => 5⟩) :: .read none ::
      .read (some ⟨true, 0x90701, fun _ => 8⟩) :: .read none ::
      List.replicate 8 (.process 2)) (few_moves_room _ _ (by decide))
  rw [hcurrent, hall ⟨⟨rfl, rfl, rfl⟩, rfl⟩]
  decide

end Delivery

end Battman
