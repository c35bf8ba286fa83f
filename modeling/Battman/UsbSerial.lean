import Battman.ReceiveQueues
import Battman.RemoteCalls

/-! Requests over USB: the thread that reads bytes, the one that runs packet_process_byte on
them and all others take their steps in any order. The board answers as if each request came
alone. -/
namespace Battman
open RingQueue

/-- A step of serial_read_thread with what the stream gives, one of serial_process_thread with
what the packet code would find, or what another thread does to the device. -/
inductive UsbMove where
  | read (bytes : List UInt8)
  | process (env : PacketEnv)
  | other (change : Device → Device)

/-- A byte done with: how others changed the device before it, and what it found. -/
structure SerialItem where
  change : Device → Device
  env : PacketEnv
  value : UInt8

/-- The threads and the board. `items` and `since`, the changes after the last of them, are
records that no step reads. -/
structure UsbBoard where
  link : RingQueue.Link serialReader
  node : Node
  items : List SerialItem
  since : Device → Device

def KeepsHalted (change : Device → Device) : Prop := ∀ d, (change d).halted = d.halted

def changes (xs : List SerialItem) (d : Device) : Device := xs.foldl (fun d x => x.change d) d

section Board

variable (crc16 : List UInt8 → UInt16) (leaves : (ℕ → UInt8) → UInt32 → ℕ → UInt8)
  (vsnprintf : Print → List UInt8) (appendFloat32 : UInt32 → List UInt8)

def UsbBoard.step (b : UsbBoard) : UsbMove → UsbBoard
  | .read bytes => { b with link := b.link.step serialRxBufferSize (.produce bytes) }
  | .process env =>
    let link := b.link.step serialRxBufferSize .consume
    match b.link.queue.consumer with
    | .handling value =>
      { link
        node := b.node.byte crc16 leaves vsnprintf appendFloat32 env value
        items := b.items ++ [⟨b.since, env, value⟩]
        since := id }
    | _ => { b with link }
  | .other change =>
    { b with
      node := { b.node with device := change b.node.device }
      since := change ∘ b.since }

def UsbBoard.start (buffer : ℕ → UInt8) (d : Device) : UsbBoard :=
  ⟨.start serialReader buffer, ⟨d, .initial, []⟩, [], id⟩

def UsbBoard.run (buffer : ℕ → UInt8) (d : Device) (moves : List UsbMove) : UsbBoard :=
  moves.foldl (UsbBoard.step crc16 leaves vsnprintf appendFloat32) (.start buffer d)

def Node.serve (n : Node) (xs : List SerialItem) : Node :=
  xs.foldl (fun n x => Node.byte crc16 leaves vsnprintf appendFloat32 x.env
    { n with device := x.change n.device } x.value) n

/-- The requests that the bytes are the frames of: what happened during a frame comes before
it, and the packet finds what its last byte finds. -/
def requestsOf : List (List UInt8) → List SerialItem → List Request
  | [], _ => []
  | p :: ps, xs =>
    let frame := xs.take (packetFrame crc16 p).length
    ⟨changes frame, (frame.getLast?.map SerialItem.env).getD quietEnv, p⟩ ::
      requestsOf ps (xs.drop (packetFrame crc16 p).length)

end Board

variable {crc16 : List UInt8 → UInt16} {leaves : (ℕ → UInt8) → UInt32 → ℕ → UInt8}
  {vsnprintf : Print → List UInt8} {appendFloat32 : UInt32 → List UInt8} {n : Node}
  {d : Device} {p : List UInt8} {xs ys : List SerialItem} {buffer : ℕ → UInt8}

section Frames

theorem changes_append (xs ys : List SerialItem) (d : Device) :
    changes (xs ++ ys) d = changes ys (changes xs d) := List.foldl_append

theorem changes_halted (hk : ∀ x ∈ xs, KeepsHalted x.change) (d : Device) :
    (changes xs d).halted = d.halted := by
  induction xs generalizing d with
  | nil => rfl
  | cons x xs ih =>
    have hrest := ih (fun y hy => hk y (List.mem_cons_of_mem x hy)) (x.change d)
    exact hrest.trans (hk x List.mem_cons_self d)

theorem serve_append (xs ys : List SerialItem) :
    n.serve crc16 leaves vsnprintf appendFloat32 (xs ++ ys) =
      (n.serve crc16 leaves vsnprintf appendFloat32 xs).serve crc16 leaves vsnprintf
        appendFloat32 ys := List.foldl_append

theorem serve_halted (hk : ∀ x ∈ xs, KeepsHalted x.change) (hn : n.device.halted = true) :
    n.serve crc16 leaves vsnprintf appendFloat32 xs =
      { n with device := changes xs n.device } := by
  induction xs generalizing n with
  | nil => rfl
  | cons x xs ih =>
    have hx : (x.change n.device).halted = true := (hk x List.mem_cons_self _).trans hn
    have hbyte : Node.byte crc16 leaves vsnprintf appendFloat32 x.env
        { n with device := x.change n.device } x.value =
          { n with device := x.change n.device } := if_pos hx
    refine Eq.trans ?_ (ih (n := { n with device := x.change n.device })
      (fun y hy => hk y (List.mem_cons_of_mem x hy)) hx)
    exact congrArg (Node.serve crc16 leaves vsnprintf appendFloat32 · xs) hbyte

theorem serve_undispatched (hk : ∀ x ∈ xs, KeepsHalted x.change)
    (hn : n.device.halted = false)
    (h : dispatched (uses crc16 leaves n.receiver (xs.map SerialItem.value)) = []) :
    n.serve crc16 leaves vsnprintf appendFloat32 xs =
      { n with
        device := changes xs n.device
        receiver := feed crc16 leaves n.receiver (xs.map SerialItem.value) } := by
  induction xs generalizing n with
  | nil => rfl
  | cons x xs ih =>
    have hx : (x.change n.device).halted = false := (hk x List.mem_cons_self _).trans hn
    rw [List.map_cons, uses, dispatched_append, List.append_eq_nil_iff] at h
    have hbyte : [x.value].foldl (Node.byte crc16 leaves vsnprintf appendFloat32 x.env)
        { n with device := x.change n.device } = { n with
          device := x.change n.device
          receiver := feed crc16 leaves n.receiver [x.value] } :=
      bytes_undispatched hx _ (by simpa [uses] using h.1)
    refine Eq.trans ?_ (ih (n := { n with
      device := x.change n.device
      receiver := (packetProcessByte crc16 leaves n.receiver x.value).1 })
      (fun y hy => hk y (List.mem_cons_of_mem x hy)) hx h.2)
    exact congrArg (Node.serve crc16 leaves vsnprintf appendFloat32 · xs) hbyte

theorem serve_frame (hs : n.receiver.processState = .start)
    (hp : 1 ≤ p.length ∧ p.length ≤ packetBufferSize) (hk : ∀ x ∈ xs, KeepsHalted x.change)
    (hx : xs.map SerialItem.value = packetFrame crc16 p) :
    n.serve crc16 leaves vsnprintf appendFloat32 xs =
      n.call crc16 leaves vsnprintf appendFloat32
        ⟨changes xs, (xs.getLast?.map SerialItem.env).getD quietEnv, p⟩ := by
  cases hn : n.device.halted with
  | true =>
    have hall : (changes xs n.device).halted = true := (changes_halted hk _).trans hn
    rw [serve_halted hk hn]
    exact (halted_call (r := ⟨changes xs, (xs.getLast?.map SerialItem.env).getD quietEnv, p⟩)
      hall).symm
  | false =>
    obtain ⟨body, hframe, hnone, hdata, -⟩ := @well_formed_run crc16 leaves _ _ p hs
      (packet_frame_well_formed hp)
    obtain ⟨ys, zs, rfl, hys, hzs⟩ := List.map_eq_append_iff.mp (hx.trans hframe)
    obtain ⟨x, rfl, hvalue⟩ : ∃ x, zs = [x] ∧ x.value = packetEnd := by
      obtain ⟨x, zs, rfl, hvalue, hzs⟩ := List.map_eq_cons_iff.mp hzs
      exact ⟨x, by rw [List.map_eq_nil_iff.mp hzs], hvalue⟩
    have hall : (changes (ys ++ [x]) n.device).halted = false := (changes_halted hk _).trans hn
    have hbody : n.serve crc16 leaves vsnprintf appendFloat32 ys = { n with
        device := changes ys n.device
        receiver := feed crc16 leaves n.receiver body } := by
      rw [serve_undispatched (fun y hy => hk y (List.mem_append_left _ hy)) hn
        (by rw [hys]; exact hnone), hys]
    have hcall : body.foldl (Node.byte crc16 leaves vsnprintf appendFloat32 x.env)
        { n with device := changes (ys ++ [x]) n.device } = { n with
          device := changes (ys ++ [x]) n.device
          receiver := feed crc16 leaves n.receiver body } := bytes_undispatched hall _ hnone
    rw [serve_append, hbody, Node.call, hframe, List.foldl_append, List.getLast?_concat]
    refine Eq.trans ?_ (congrArg (List.foldl (Node.byte crc16 leaves vsnprintf appendFloat32
      x.env) · [packetEnd]) hcall.symm)
    rw [changes_append]
    change Node.byte crc16 leaves vsnprintf appendFloat32 x.env _ x.value = _
    rw [hvalue]
    rfl

theorem serve_frames (ps : List (List UInt8)) (hs : n.receiver.processState = .start)
    (hk : ∀ x ∈ xs, KeepsHalted x.change)
    (hx : xs.map SerialItem.value = ps.flatMap (packetFrame crc16))
    (hp : ProperRun vsnprintf appendFloat32 n.device (requestsOf crc16 ps xs)) :
    n.serve crc16 leaves vsnprintf appendFloat32 xs =
      n.calls crc16 leaves vsnprintf appendFloat32 (requestsOf crc16 ps xs) := by
  induction ps generalizing n xs with
  | nil =>
    obtain rfl := List.map_eq_nil_iff.mp hx
    rfl
  | cons p ps ih =>
    let k := (packetFrame crc16 p).length
    have htake : (xs.take k).map SerialItem.value = packetFrame crc16 p := by
      rw [List.map_take, hx, List.flatMap_cons, List.take_left']
      rfl
    have hdrop : (xs.drop k).map SerialItem.value = ps.flatMap (packetFrame crc16) := by
      rw [List.map_drop, hx, List.flatMap_cons, List.drop_left']
      rfl
    have hframe : n.serve crc16 leaves vsnprintf appendFloat32 (xs.take k) = n.call crc16 leaves
        vsnprintf appendFloat32
          ⟨changes (xs.take k), ((xs.take k).getLast?.map SerialItem.env).getD quietEnv, p⟩ :=
      serve_frame hs ⟨hp.1.long, hp.1.fits⟩ (fun x h => hk x (List.mem_of_mem_take h)) htake
    obtain ⟨hdevice, -, hstart⟩ := call_answered crc16 leaves hs hp.1
    have hrest := ih hstart (fun x h => hk x (List.mem_of_mem_drop h)) hdrop (hdevice ▸ hp.2)
    have hsplit : n.serve crc16 leaves vsnprintf appendFloat32 xs =
        (n.serve crc16 leaves vsnprintf appendFloat32 (xs.take k)).serve crc16 leaves vsnprintf
          appendFloat32 (xs.drop k) := by
      rw [← serve_append, List.take_append_drop]
    rw [hsplit, hframe]
    exact hrest

end Frames

section Runs

def UsbMove.move : UsbMove → Option (Move serialReader)
  | .read bytes => some (.produce bytes)
  | .process _ => some .consume
  | .other _ => none

def UsbMove.KeepsHalted : UsbMove → Prop
  | .other change => Battman.KeepsHalted change
  | _ => True

structure UsbBoard.Holds (crc16 : List UInt8 → UInt16)
    (leaves : (ℕ → UInt8) → UInt32 → ℕ → UInt8) (vsnprintf : Print → List UInt8)
    (appendFloat32 : UInt32 → List UInt8) (n : Node) (b : UsbBoard) : Prop where
  node : b.node =
    { n.serve crc16 leaves vsnprintf appendFloat32 b.items with
      device := b.since (n.serve crc16 leaves vsnprintf appendFloat32 b.items).device }
  handled : b.link.queue.Done (b.items.map SerialItem.value)
  items : ∀ x ∈ b.items, KeepsHalted x.change
  since : KeepsHalted b.since

variable {b : UsbBoard} {moves : List UsbMove}

theorem usb_read (h : b.Holds crc16 leaves vsnprintf appendFloat32 n) (bytes : List UInt8) :
    (b.step crc16 leaves vsnprintf appendFloat32 (.read bytes)).Holds crc16 leaves vsnprintf
      appendFloat32 n :=
  ⟨h.node, done_act h.handled _, h.items, h.since⟩

theorem usb_process (h : b.Holds crc16 leaves vsnprintf appendFloat32 n) (env : PacketEnv) :
    (b.step crc16 leaves vsnprintf appendFloat32 (.process env)).Holds crc16 leaves vsnprintf
      appendFloat32 n := by
  obtain ⟨⟨producer, queue, received⟩, node, items, since⟩ := b
  obtain ⟨hnode, hhandled, hitems, hsince⟩ := h
  obtain ⟨buffer, readPos, writePos, signalled, consumer, stored, handled⟩ := queue
  cases consumer with
  | waiting => exact ⟨hnode, done_consume hhandled, hitems, hsince⟩
  | testing => exact ⟨hnode, done_consume hhandled, hitems, hsince⟩
  | handling value =>
    have hnode : node = { n.serve crc16 leaves vsnprintf appendFloat32 items with
        device := since (n.serve crc16 leaves vsnprintf appendFloat32 items).device } := hnode
    have hhandled : handled = items.map SerialItem.value ++ [value] := hhandled
    refine ⟨?_, ?_, fun x hx => ?_, fun _ => rfl⟩
    · change node.byte crc16 leaves vsnprintf appendFloat32 env value =
        n.serve crc16 leaves vsnprintf appendFloat32 (items ++ [⟨since, env, value⟩])
      rw [serve_append, hnode]
      rfl
    · change handled = (items ++ [(⟨since, env, value⟩ : SerialItem)]).map SerialItem.value
      rw [hhandled, List.map_append]
      rfl
    · rcases List.mem_append.mp hx with hx | hx
      · exact hitems x hx
      · exact List.mem_singleton.mp hx ▸ hsince

theorem usb_other (h : b.Holds crc16 leaves vsnprintf appendFloat32 n)
    {change : Device → Device} (hc : KeepsHalted change) :
    (b.step crc16 leaves vsnprintf appendFloat32 (.other change)).Holds crc16 leaves vsnprintf
      appendFloat32 n where
  node := by
    rw [UsbBoard.step, h.node]
    rfl
  handled := h.handled
  items := h.items
  since d := (hc _).trans (h.since d)

theorem usb_concat (m : UsbMove) :
    UsbBoard.run crc16 leaves vsnprintf appendFloat32 buffer d (moves ++ [m]) =
      (UsbBoard.run crc16 leaves vsnprintf appendFloat32 buffer d moves).step crc16 leaves
        vsnprintf appendFloat32 m := by
  rw [UsbBoard.run, List.foldl_append]
  rfl

theorem usb_holds (hk : ∀ m ∈ moves, m.KeepsHalted) :
    (UsbBoard.run crc16 leaves vsnprintf appendFloat32 buffer d moves).Holds crc16 leaves
      vsnprintf appendFloat32 ⟨d, .initial, []⟩ := by
  induction moves using List.reverseRecOn with
  | nil => exact ⟨rfl, rfl, fun _ hx => absurd hx List.not_mem_nil, fun _ => rfl⟩
  | append_singleton moves m ih =>
    have h := ih fun m hm => hk m (List.mem_append_left _ hm)
    have hm := hk m (List.mem_append_right _ (List.mem_singleton_self m))
    rw [usb_concat]
    cases m with
    | read bytes => exact usb_read h bytes
    | process env => exact usb_process h env
    | other change => exact usb_other h hm

theorem usb_link :
    (UsbBoard.run crc16 leaves vsnprintf appendFloat32 buffer d moves).link =
      serialAfter buffer (moves.filterMap UsbMove.move) := by
  induction moves using List.reverseRecOn with
  | nil => rfl
  | append_singleton moves m ih =>
    rw [usb_concat, List.filterMap_append]
    cases m with
    | read bytes =>
      have hone : [UsbMove.read bytes].filterMap UsbMove.move = [.produce bytes] := rfl
      rw [hone, serialAfter, run_concat, ← serialAfter, ← ih]
      rfl
    | process env =>
      have hone : [UsbMove.process env].filterMap UsbMove.move = [.consume] := rfl
      rw [hone, serialAfter, run_concat, ← serialAfter, ← ih]
      unfold UsbBoard.step
      dsimp only
      split <;> rfl
    | other change =>
      have hone : [UsbMove.other change].filterMap UsbMove.move = [] := rfl
      rw [hone, List.append_nil, ← ih]
      rfl

/-- The frames of proper requests, read and processed in any order of steps in which one place
of serial_rx_buffer stays free, while other threads change the device but neither halt nor
restart it. When the serial threads have nothing left to do, the device is as process_packet on
the payloads alone leaves it, and a host gets the payloads of all replies, in order. -/
theorem served_over_usb (crc16 : List UInt8 → UInt16)
    (leaves hostLeaves : (ℕ → UInt8) → UInt32 → ℕ → UInt8) (vsnprintf : Print → List UInt8)
    (appendFloat32 : UInt32 → List UInt8) (hfloat : ∀ x, (appendFloat32 x).length = 4)
    (buffer : ℕ → UInt8) (d : Device) (moves : List UsbMove) (ps : List (List UInt8))
    (b : UsbBoard) (hb : b = UsbBoard.run crc16 leaves vsnprintf appendFloat32 buffer d moves)
    (hroom : ∀ before after, moves = before ++ after →
      (UsbBoard.run crc16 leaves vsnprintf appendFloat32 buffer d before).link.queue.unread ≤
        serialRxBufferSize - 1)
    (hk : ∀ m ∈ moves, m.KeepsHalted)
    (hreceived : b.link.received = ps.flatMap (packetFrame crc16)) (hquiet : b.link.Quiet)
    (hp : ProperRun vsnprintf appendFloat32 d (requestsOf crc16 ps b.items)) (host : Receiver)
    (hhost : host.processState = .start) :
    let (replies, d') := d.answers vsnprintf appendFloat32 (requestsOf crc16 ps b.items)
    b.node.device = b.since d' ∧
      dispatched (uses crc16 hostLeaves host b.node.sent) = replies := by
  have hsound : Sound serialRxBufferSize b.link := by
    rw [hb, usb_link]
    apply sound_run
    intro before after hsplit
    obtain ⟨xs, ys, hmoves, rfl, -⟩ := List.filterMap_eq_append_iff.mp hsplit
    have hfree := hroom xs ys hmoves
    rw [usb_link] at hfree
    exact Nat.lt_of_le_pred (by decide) hfree
  obtain ⟨hnode, hhandled, hitems, -⟩ : b.Holds crc16 leaves vsnprintf appendFloat32
    ⟨d, .initial, []⟩ := hb ▸ usb_holds hk
  have hvalues : b.items.map SerialItem.value = ps.flatMap (packetFrame crc16) := by
    rw [← hreceived]
    exact (hsound.done_received hhandled).2 hquiet
  have hserve : Node.serve crc16 leaves vsnprintf appendFloat32 ⟨d, .initial, []⟩ b.items =
      Node.calls crc16 leaves vsnprintf appendFloat32 ⟨d, .initial, []⟩
        (requestsOf crc16 ps b.items) := serve_frames ps rfl hitems hvalues hp
  obtain ⟨hdevice, hsent⟩ := calls_answered crc16 leaves (n := ⟨d, .initial, []⟩) rfl
    (requestsOf crc16 ps b.items) hp
  have hsendable := answers_sendable hfloat (requestsOf crc16 ps b.items) hp
  rw [hnode, hserve]
  refine ⟨congrArg b.since hdevice, ?_⟩
  rw [hsent]
  exact frames_received hhost _ hsendable

theorem few_moves_leave_room (h : moves.length < serialRxBufferSize) :
    ∀ before after, moves = before ++ after →
      (UsbBoard.run crc16 leaves vsnprintf appendFloat32 buffer d before).link.queue.unread ≤
        serialRxBufferSize - 1 := by
  intro before after hsplit
  rw [usb_link]
  have hfew : (moves.filterMap UsbMove.move).length < serialRxBufferSize :=
    (List.length_filterMap_le _ _).trans_lt h
  exact Nat.le_pred_of_lt (never_full buffer _ hfew (before.filterMap UsbMove.move)
    (after.filterMap UsbMove.move) (by rw [hsplit, List.filterMap_append]))

theorem connect_event_keeps_halted : KeepsHalted fun d => d.packetConnectEvent.2 := by
  intro d
  simp only [Device.packetConnectEvent]
  split <;> rfl

def connectMoves : List UsbMove :=
  .read (packetFrame (fun _ => 0) [packetConnect]) :: List.replicate 7 (.read []) ++
    .other (fun d => d.packetConnectEvent.2) :: List.replicate 14 (.process quietEnv)

theorem served_over_usb_connect :
    let b := UsbBoard.run (fun _ => 0) (fun buffer _ => buffer) (fun p => ascii p.1) littleEndian
      (fun _ => 0) ⟨blankBoard, .init, true, false⟩ connectMoves
    let (replies, d') := (Device.mk blankBoard .init true false).answers (fun p => ascii p.1)
      littleEndian (requestsOf (fun _ => 0) [[packetConnect]] b.items)
    b.node.device = b.since d' ∧
      dispatched (uses (fun _ => 0) (fun buffer _ => buffer) .initial b.node.sent) = replies := by
  intro b
  have hlink : b.link = serialAfter (fun _ => 0) (connectMoves.filterMap UsbMove.move) := usb_link
  have hreceived : b.link.received = [[packetConnect]].flatMap (packetFrame fun _ => 0) := by
    rw [hlink]
    rfl
  have hquiet : b.link.Quiet := by
    rw [hlink]
    exact ⟨⟨rfl, rfl, rfl⟩, rfl⟩
  have hkeep : ∀ m ∈ connectMoves, m.KeepsHalted := by
    simp only [connectMoves, List.cons_append, List.forall_mem_cons, List.forall_mem_append,
      List.forall_mem_replicate]
    exact ⟨trivial, Or.inr trivial, connect_event_keeps_halted, Or.inr trivial⟩
  have hproper (d : Device) : Proper d [packetConnect] :=
    ⟨by decide, by decide, fun h => absurd h (by decide), fun h => absurd h (by decide),
      fun h => absurd h (by decide), fun h => absurd h (by decide)⟩
  have hp : ProperRun (fun p => ascii p.1) littleEndian ⟨blankBoard, .init, true, false⟩
      (requestsOf (fun _ => 0) [[packetConnect]] b.items) := ⟨hproper _, trivial⟩
  exact served_over_usb _ _ _ _ _ (fun _ => rfl) _ _ connectMoves _ b rfl
    (few_moves_leave_room (by decide)) hkeep hreceived hquiet hp _ rfl

end Runs

end Battman
