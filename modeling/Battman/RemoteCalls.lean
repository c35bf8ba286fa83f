import Battman.Protocol
import Battman.Framing

/-! Requests and replies over the serial line. Whatever bytes earlier packets have left in the
buffers, the board does for each framed request what process_packet does for its payload alone,
and a host with the same receiver gets the payloads of the replies, in order. -/
namespace Battman
open CutLogic

structure Request where
  before : Device → Device
  env : PacketEnv
  payload : List UInt8

def payloadBuffer (p : List UInt8) : ℕ → UInt8 := fun i => p.getD i 0

/-- A payload that process_packet reads no further than it goes, and whose reply it has the
space for: the text of a command and its end fit the buffer, there are voltages for the cells,
a firmware part has an offset and whole half-words, and a field write an address and at most 4
bytes inside the structure. -/
structure Proper (d : Device) (p : List UInt8) : Prop where
  long : 1 ≤ p.length
  fits : p.length ≤ packetBufferSize
  console : payloadBuffer p 0 = packetConsole → p.length < packetBufferSize
  getCells : payloadBuffer p 0 = packetGetCells → d.numCells ≤ 12
  writeNewFw : payloadBuffer p 0 = packetWriteNewFw → 5 ≤ p.length ∧ p.length % 2 = 1
  setField : payloadBuffer p 0 = packetConfigSetField → 3 ≤ p.length ∧ p.length ≤ 7 ∧
    (word (payloadBuffer p 1) (payloadBuffer p 2)).toNat + (p.length - 3) ≤ sizeofConfig

structure Node where
  device : Device
  receiver : Receiver
  sent : List UInt8

section Calls

variable (crc16 : List UInt8 → UInt16) (leaves : (ℕ → UInt8) → UInt32 → ℕ → UInt8)
  (vsnprintf : Print → List UInt8) (appendFloat32 : UInt32 → List UInt8)

def Node.byte (env : PacketEnv) (n : Node) (b : UInt8) : Node :=
  if n.device.halted then n
  else
    let (receiver, used) := packetProcessByte crc16 leaves n.receiver b
    if dispatched used = [] then { n with receiver }
    else
      let (replies, device) := n.device.processPacket vsnprintf appendFloat32 env
        n.receiver.packetBuffer n.receiver.packetLength.toUInt32
      { device, receiver, sent := n.sent ++ replies.flatMap (packetFrame crc16) }

def Node.call (n : Node) (r : Request) : Node :=
  (packetFrame crc16 r.payload).foldl (Node.byte crc16 leaves vsnprintf appendFloat32 r.env)
    { n with device := r.before n.device }

def Node.calls (n : Node) (rs : List Request) : Node :=
  rs.foldl (Node.call crc16 leaves vsnprintf appendFloat32) n

/-- process_packet on the payload alone. -/
def Device.answer (d : Device) (r : Request) : List (List UInt8) × Device :=
  if (r.before d).halted then ([], r.before d)
  else (r.before d).processPacket vsnprintf appendFloat32 r.env (payloadBuffer r.payload)
    (UInt32.ofNat r.payload.length)

def Device.answers : Device → List Request → List (List UInt8) × Device
  | d, [] => ([], d)
  | d, r :: rs =>
    let (replies, d) := d.answer vsnprintf appendFloat32 r
    let (more, d) := d.answers rs
    (replies ++ more, d)

/-- Each request of a run is proper for the device that it finds. -/
def ProperRun : Device → List Request → Prop
  | _, [] => True
  | d, r :: rs => Proper (r.before d) r.payload ∧
    ProperRun (d.answer vsnprintf appendFloat32 r).2 rs

end Calls

variable {crc16 : List UInt8 → UInt16} {leaves : (ℕ → UInt8) → UInt32 → ℕ → UInt8}
  {vsnprintf : Print → List UInt8} {appendFloat32 : UInt32 → List UInt8} {d : Device}
  {p : List UInt8} {buffer : ℕ → UInt8} {env : PacketEnv} {n : Node} {r : Request}

section Payloads

def Begins (buffer : ℕ → UInt8) (p : List UInt8) : Prop :=
  ∀ i < p.length, buffer i = payloadBuffer p i

theorem begins_of_bytes {length : ℕ} (h : bytesAt buffer length = p) :
    p.length = length ∧ Begins buffer p := by
  subst h
  refine ⟨bytes_at_length _ _, fun i hi => ?_⟩
  rw [bytes_at_length] at hi
  simp [payloadBuffer, bytesAt, hi]

theorem length_pred (h : 1 ≤ p.length) (hmax : p.length ≤ packetBufferSize) :
    (UInt32.ofNat p.length - 1).toNat = p.length - 1 := by
  have hsize : packetBufferSize = 2048 := rfl
  have hlen : (UInt32.ofNat p.length).toNat = p.length := index_toNat (by omega)
  rw [UInt32.toNat_sub, hlen, show (1 : UInt32).toNat = 1 from rfl]
  omega

theorem write_loop_congr {offset len : UInt32} {data data' : ℕ → UInt8}
    (h : ∀ i < len.toNat, data i = data' i) (heven : len.toNat % 2 = 0) (fuel i : ℕ)
    (hi : i % 2 = 0) (hile : i ≤ len.toNat) :
    writeFirmwareLoop offset data len fuel (UInt32.ofNat i) =
      writeFirmwareLoop offset data' len fuel (UInt32.ofNat i) := by
  have hlen := len.toNat_lt
  induction fuel generalizing i with
  | zero => rfl
  | succ fuel ih =>
    rw [writeFirmwareLoop, writeFirmwareLoop]
    by_cases hlt : i < len.toNat
    · rw [if_pos ((index_lt (by omega)).mpr hlt), if_pos ((index_lt (by omega)).mpr hlt),
        show (1 : UInt32) = UInt32.ofNat 1 from rfl, show (2 : UInt32) = UInt32.ofNat 2 from rfl,
        index_add, index_add, index_toNat (by omega), index_toNat (by omega), h i hlt,
        h (i + 1) (by omega), ih (i + 2) (by omega) (by omega)]
    · rw [if_neg (by rw [index_lt (by omega)]; omega),
        if_neg (by rw [index_lt (by omega)]; omega)]

theorem write_new_fw_congr {len : UInt32} {data data' : ℕ → UInt8} (hlen : 4 ≤ len.toNat)
    (heven : len.toNat % 2 = 0) (h : ∀ i < len.toNat, data i = data' i) (fuel : ℕ) :
    processWriteNewFw fuel data len = processWriteNewFw fuel data' len := by
  have hword : parseWord data = parseWord data' := by
    rw [parseWord, parseWord, h 0 (by omega), h 1 (by omega), h 2 (by omega), h 3 (by omega)]
  have hdata := data_length hlen
  have hloop : writeFirmwareLoop (parseWord data) (fun i => data (4 + i)) (len - 4) fuel 0 =
      writeFirmwareLoop (parseWord data) (fun i => data' (4 + i)) (len - 4) fuel 0 :=
    write_loop_congr (fun i hi => h (4 + i) (by omega)) (by omega) fuel 0 rfl (Nat.zero_le _)
  simp only [processWriteNewFw, fwUpdaterWriteFirmware, ← hword, hloop]

theorem reverse_copy_congr {stack src src' : ℕ → UInt8} {len : ℕ}
    (h : ∀ i < len, src i = src' i) : reverseCopy stack src len = reverseCopy stack src' len := by
  funext i
  by_cases hi : i < len
  · rw [reverseCopy, reverseCopy, if_pos hi, if_pos hi, h _ (by omega)]
  · rw [reverseCopy, reverseCopy, if_neg hi, if_neg hi]

theorem set_field_congr {stack data data' : ℕ → UInt8} {len : UInt32}
    (h : ∀ i < 2 + (fieldSizes len).value.toNat, data i = data' i) :
    processConfigSetField stack data len = processConfigSetField stack data' len := by
  have hcopy : reverseCopy stack (fun i => data (2 + i)) (fieldSizes len).value.toNat =
      reverseCopy stack (fun i => data' (2 + i)) (fieldSizes len).value.toNat :=
    reverse_copy_congr fun i hi => h (2 + i) (by omega)
  simp only [processConfigSetField, h 0 (by omega), h 1 (by omega), hcopy]

theorem process_packet_congr (hp : Proper d p) (hb : Begins buffer p) :
    d.processPacket vsnprintf appendFloat32 env buffer (UInt32.ofNat p.length) =
      d.processPacket vsnprintf appendFloat32 env (payloadBuffer p) (UInt32.ofNat p.length) := by
  have hpred := length_pred hp.long hp.fits
  have hid : buffer 0 = payloadBuffer p 0 := hb 0 hp.long
  have htext : bytesAt (fun i => buffer (i + 1)) (UInt32.ofNat p.length - 1).toNat =
      bytesAt (fun i => payloadBuffer p (i + 1)) (UInt32.ofNat p.length - 1).toNat := by
    rw [hpred]
    apply List.map_congr_left
    intro i hi
    exact hb (i + 1) (by have := List.mem_range.mp hi; omega)
  have hwrite (h : payloadBuffer p 0 = packetWriteNewFw) :
      processWriteNewFw indexRounds (fun i => buffer (i + 1)) (UInt32.ofNat p.length - 1) =
        processWriteNewFw indexRounds (fun i => payloadBuffer p (i + 1))
          (UInt32.ofNat p.length - 1) := by
    obtain ⟨hlong, hodd⟩ := hp.writeNewFw h
    exact write_new_fw_congr (by omega) (by omega) (fun i hi => hb (i + 1) (by omega)) _
  have hconfig : processConfigPacket env.stack buffer (UInt32.ofNat p.length) =
      processConfigPacket env.stack (payloadBuffer p) (UInt32.ofNat p.length) := by
    rw [processConfigPacket, processConfigPacket, hid]
    by_cases h : payloadBuffer p 0 = packetConfigSetField
    · obtain ⟨hlong, hshort, -⟩ := hp.setField h
      have hvalue := field_sizes_toNat (UInt32.ofNat p.length)
      rw [index_toNat (by omega), if_pos hlong] at hvalue
      rw [if_pos h, if_pos h, set_field_congr fun i hi => hb (i + 1) (by omega)]
    · rw [if_neg h, if_neg h]
  by_cases h : payloadBuffer p 0 = packetWriteNewFw
  · simp only [Device.processPacket, hid, htext, hconfig, hwrite h]
  · simp only [Device.processPacket, hid, htext, hconfig, if_neg h]

def Sendable (reply : List UInt8) : Prop := 1 ≤ reply.length ∧ reply.length ≤ 506

theorem console_printf_sendable {text : List UInt8} (h : consolePrintf text = some p) :
    Sendable p := by
  unfold consolePrintf at h
  unfold Sendable
  split_ifs at h with hempty hshort
  · rw [← Option.some.inj h, List.length_cons]
    omega
  · rw [← Option.some.inj h]
    simp only [List.length_cons, List.length_append, List.length_take, List.length_nil]
    omega

theorem reply_sendable {α : Type} {x : BoardM α} {f : α → Option (List (List UInt8))}
    (h : ∀ b : Board, wp x (fun a _ => ∀ reply ∈ (f a).getD [], Sendable reply) (fun _ => True) b) :
    ∀ reply ∈ (d.reply env x f).1, Sendable reply := by
  unfold Device.reply
  rcases he : exec x (d.board.under env.fates) with ⟨_ | a, board⟩
  · exact nofun
  · exact wp_result (h _) he

theorem sendable_erase (b : Board) :
    wp processEraseNewFw (fun r _ => ∀ reply ∈ [r], Sendable reply) (fun _ => True) b := by
  refine wp_seq (wp_true _ b) (fun st t _ => ?_) fun _ _ => trivial
  simp [Sendable]

theorem sendable_write {fuel : ℕ} {data : ℕ → UInt8} {len : UInt32} (b : Board) :
    wp (processWriteNewFw fuel data len)
      (fun r _ => ∀ reply ∈ (r.map fun r => [r]).getD [], Sendable reply) (fun _ => True) b := by
  refine wp_seq (wp_true _ b) (fun st t _ => ?_) fun _ _ => trivial
  cases st with
  | none => simp
  | some st => simp [Sendable]

theorem sendable_config {stack data : ℕ → UInt8} {len : UInt32}
    (h : data 0 = packetConfigSetField → (fieldSizes (len - 1)).reply.toNat ≤ 4) (b : Board) :
    wp (processConfigPacket stack data len) (fun r _ => ∀ reply ∈ r.toList, Sendable reply)
      (fun _ => True) b := by
  rw [processConfigPacket]
  by_cases hset : data 0 = packetConfigSetField
  · have hsize := h hset
    simp only [if_pos hset, processConfigSetField, note, packetSendPacket, wp_map, wp_bind,
      wp_modify, wp_pure]
    refine wp_mono (wp_true _ _) (fun r t _ => ?_) fun _ _ => trivial
    simp only [Option.toList_some, List.mem_singleton, forall_eq, Sendable, List.length_cons,
      List.length_map, List.length_range]
    omega
  · rw [if_neg hset]
    by_cases hget : data 0 = packetConfigGetAll
    · simp [if_pos hget, processConfigGetAll, note, packetSendPacket, Sendable, sizeofConfig]
    · simp [if_neg hget]

theorem packet_sendable (hfloat : ∀ x, (appendFloat32 x).length = 4) (hp : Proper d p) :
    ∀ reply ∈ (d.processPacket vsnprintf appendFloat32 env (payloadBuffer p)
      (UInt32.ofNat p.length)).1, Sendable reply := by
  have hreply : payloadBuffer p 0 = packetConfigSetField →
      (fieldSizes (UInt32.ofNat p.length - 1)).reply.toNat ≤ 4 := fun h => by
    obtain ⟨hlong, hshort, -⟩ := hp.setField h
    have hvalue := field_sizes_toNat (UInt32.ofNat p.length)
    rw [index_toNat (by omega), if_pos hlong] at hvalue
    change (fieldSizes (UInt32.ofNat p.length - 1)).value.toNat ≤ 4
    omega
  rw [Device.processPacket]
  split_ifs with h₀ h₁ h₂ h₃ h₄ h₅ h₆
  · simp [Sendable]
  · intro reply hmem
    obtain ⟨print, -, hprint⟩ := List.mem_filterMap.mp hmem
    exact console_printf_sendable hprint
  · simp [Sendable, hfloat]
  · have hcells : d.numCells.toNat ≤ 12 := hp.getCells h₃
    simp only [List.mem_singleton, forall_eq, Sendable, List.length_cons, List.length_flatMap,
      hfloat, List.map_const', List.sum_replicate, List.length_range, smul_eq_mul]
    omega
  · exact reply_sendable (f := fun r => some [r]) sendable_erase
  · exact reply_sendable (f := fun r => Option.map (fun r => [r]) r) sendable_write
  · exact nofun
  · exact reply_sendable (f := fun r => some (Option.toList r)) (sendable_config hreply)

end Payloads

section Line

variable {s : Receiver} {b : UInt8}

theorem dispatched_bytes (h : dispatched (packetProcessByte crc16 leaves s b).2 = [p]) :
    bytesAt s.packetBuffer s.packetLength.toNat = p := by
  have hstate : s.processState = .endMark := by
    by_contra hne
    rw [no_dispatch hne] at h
    cases h
  simp only [packetProcessByte, hstate] at h
  split_ifs at h
  · simp only [dispatched, processPacketUses, List.filterMap_cons] at h
    exact (List.cons.inj h).1
  · cases h
  · cases h

theorem bytes_undispatched (hn : n.device.halted = false) (bs : List UInt8)
    (h : dispatched (uses crc16 leaves n.receiver bs) = []) :
    bs.foldl (Node.byte crc16 leaves vsnprintf appendFloat32 env) n =
      { n with receiver := feed crc16 leaves n.receiver bs } := by
  induction bs generalizing n with
  | nil => rfl
  | cons b bs ih =>
    rw [uses, dispatched_append, List.append_eq_nil_iff] at h
    have hstep : n.byte crc16 leaves vsnprintf appendFloat32 env b =
        { n with receiver := (packetProcessByte crc16 leaves n.receiver b).1 } := by
      rw [Node.byte, if_neg (by simp [hn])]
      exact if_pos h.1
    rw [List.foldl_cons, hstep]
    exact ih (n := { n with receiver := (packetProcessByte crc16 leaves n.receiver b).1 }) hn h.2

theorem byte_dispatched (hn : n.device.halted = false)
    (h : dispatched (packetProcessByte crc16 leaves n.receiver b).2 = [p]) :
    n.byte crc16 leaves vsnprintf appendFloat32 env b =
      { device := (n.device.processPacket vsnprintf appendFloat32 env n.receiver.packetBuffer
          n.receiver.packetLength.toUInt32).2
        receiver := (packetProcessByte crc16 leaves n.receiver b).1
        sent := n.sent ++ (n.device.processPacket vsnprintf appendFloat32 env
          n.receiver.packetBuffer n.receiver.packetLength.toUInt32).1.flatMap
            (packetFrame crc16) } := by
  rw [Node.byte, if_neg (by simp [hn])]
  exact if_neg fun he => List.cons_ne_nil _ _ (h.symm.trans he)

theorem halted_call (h : (r.before n.device).halted = true) :
    n.call crc16 leaves vsnprintf appendFloat32 r = { n with device := r.before n.device } := by
  rw [Node.call]
  generalize packetFrame crc16 r.payload = bs
  induction bs with
  | nil => rfl
  | cons b bs ih =>
    rw [List.foldl_cons, Node.byte, if_pos h]
    exact ih

theorem call_answered (crc16 : List UInt8 → UInt16)
    (leaves : (ℕ → UInt8) → UInt32 → ℕ → UInt8) (hs : n.receiver.processState = .start)
    (hp : Proper (r.before n.device) r.payload) :
    (n.call crc16 leaves vsnprintf appendFloat32 r).device =
        (n.device.answer vsnprintf appendFloat32 r).2 ∧
      (n.call crc16 leaves vsnprintf appendFloat32 r).sent = n.sent ++
        (n.device.answer vsnprintf appendFloat32 r).1.flatMap (packetFrame crc16) ∧
      (n.call crc16 leaves vsnprintf appendFloat32 r).receiver.processState = .start := by
  cases hh : (r.before n.device).halted with
  | true =>
    rw [halted_call hh, Device.answer, if_pos hh]
    exact ⟨rfl, (List.append_nil _).symm, hs⟩
  | false =>
    obtain ⟨body, hframe, hnone, hdata, hend⟩ := @well_formed_run crc16 leaves _ _ r.payload hs
      (packet_frame_well_formed ⟨hp.long, hp.fits⟩)
    let m : Node := { n with device := r.before n.device }
    have hbody : body.foldl (Node.byte crc16 leaves vsnprintf appendFloat32 r.env) m =
        { m with receiver := feed crc16 leaves n.receiver body } :=
      bytes_undispatched hh body hnone
    obtain ⟨hlength, hbegins⟩ := begins_of_bytes (dispatched_bytes hdata)
    have hpacket : (feed crc16 leaves n.receiver body).packetLength.toUInt32 =
        UInt32.ofNat r.payload.length := by
      rw [hlength, ← UInt16.toNat_toUInt32, UInt32.ofNat_toNat]
    have hcall : n.call crc16 leaves vsnprintf appendFloat32 r =
        { device := (n.device.answer vsnprintf appendFloat32 r).2
          receiver := feed crc16 leaves n.receiver (packetFrame crc16 r.payload)
          sent := n.sent ++
            (n.device.answer vsnprintf appendFloat32 r).1.flatMap (packetFrame crc16) } := by
      rw [Node.call, hframe, List.foldl_append, hbody, List.foldl_cons, List.foldl_nil,
        byte_dispatched hh hdata, hpacket, process_packet_congr hp hbegins, feed_concat,
        Device.answer, if_neg (by simp [hh])]
    rw [hcall]
    exact ⟨rfl, rfl, hend⟩

theorem calls_answered (crc16 : List UInt8 → UInt16)
    (leaves : (ℕ → UInt8) → UInt32 → ℕ → UInt8) (hs : n.receiver.processState = .start)
    (rs : List Request) (hp : ProperRun vsnprintf appendFloat32 n.device rs) :
    (n.calls crc16 leaves vsnprintf appendFloat32 rs).device =
        (n.device.answers vsnprintf appendFloat32 rs).2 ∧
      (n.calls crc16 leaves vsnprintf appendFloat32 rs).sent = n.sent ++
        (n.device.answers vsnprintf appendFloat32 rs).1.flatMap (packetFrame crc16) := by
  induction rs generalizing n with
  | nil => exact ⟨rfl, (List.append_nil _).symm⟩
  | cons r rs ih =>
    obtain ⟨hdevice, hsent, hstart⟩ := call_answered crc16 leaves hs hp.1
    obtain ⟨hdevice', hsent'⟩ := ih hstart (hdevice ▸ hp.2)
    rw [hdevice] at hdevice' hsent'
    rw [hsent] at hsent'
    refine ⟨hdevice', hsent'.trans ?_⟩
    rw [Device.answers, List.flatMap_append, List.append_assoc]

theorem answers_sendable (hfloat : ∀ x, (appendFloat32 x).length = 4) (rs : List Request)
    (hp : ProperRun vsnprintf appendFloat32 d rs) :
    ∀ reply ∈ (d.answers vsnprintf appendFloat32 rs).1, Sendable reply := by
  induction rs generalizing d with
  | nil => exact nofun
  | cons r rs ih =>
    intro reply hmem
    rw [Device.answers] at hmem
    rcases List.mem_append.mp hmem with h | h
    · rw [Device.answer] at h
      by_cases hh : (r.before d).halted = true
      · rw [if_pos hh] at h
        cases h
      · rw [if_neg hh] at h
        exact packet_sendable hfloat hp.1 reply h
    · exact ih hp.2 reply h

theorem frames_received (hs : s.processState = .start) (ps : List (List UInt8))
    (hps : ∀ p ∈ ps, Sendable p) :
    dispatched (uses crc16 leaves s (ps.flatMap (packetFrame crc16))) = ps := by
  have hsize : packetBufferSize = 2048 := rfl
  induction ps generalizing s with
  | nil => rfl
  | cons p ps ih =>
    obtain ⟨hlong, hshort⟩ := hps p List.mem_cons_self
    obtain ⟨body, hframe, hnone, hdata, hend⟩ := @well_formed_run crc16 leaves _ _ p hs
      (packet_frame_well_formed ⟨hlong, by omega⟩)
    have hrest := ih hend fun q hq => hps q (List.mem_cons_of_mem p hq)
    rw [List.flatMap_cons, uses_append, dispatched_append, hrest, hframe, uses_append,
      dispatched_append, hnone, uses, dispatched_append, hdata]
    rfl

/-- Proper requests, framed one after another, whatever was received before and whatever else
happens to the device between them: it ends as process_packet on the payloads alone leaves it,
every reply fits the send buffer, and a host that decodes the line as the board does gets the
payloads of all replies, in order, and nothing else. -/
theorem remote_calls_exact (crc16 : List UInt8 → UInt16)
    (leaves hostLeaves : (ℕ → UInt8) → UInt32 → ℕ → UInt8) (vsnprintf : Print → List UInt8)
    (appendFloat32 : UInt32 → List UInt8) (hfloat : ∀ x, (appendFloat32 x).length = 4) (n : Node)
    (hs : n.receiver.processState = .start) (rs : List Request)
    (hp : ProperRun vsnprintf appendFloat32 n.device rs) (host : Receiver)
    (hhost : host.processState = .start) :
    let m := n.calls crc16 leaves vsnprintf appendFloat32 rs
    let (replies, d) := n.device.answers vsnprintf appendFloat32 rs
    m.device = d ∧ (∀ reply ∈ replies, (packetFrame crc16 reply).length ≤ 512) ∧
      ∃ line, m.sent = n.sent ++ line ∧
        dispatched (uses crc16 hostLeaves host line) = replies := by
  obtain ⟨hdevice, hsent⟩ := calls_answered crc16 leaves hs rs hp
  have hsendable := answers_sendable hfloat rs hp
  exact ⟨hdevice, fun reply h => packet_frame_fits (hsendable reply h).2, _, hsent,
    frames_received hhost _ hsendable⟩

def quietEnv : PacketEnv where
  fates := steady
  stack := fun _ => 0
  readings := ⟨0, 0, 0, [], 0, fun _ => 0, 0, 0, 0, 0, .usb, ⟨0, 0, 0, 1, 1, 0⟩, 0⟩
  outputVoltage := 0
  faults := 0
  isCharging := false

def helloRequests : List Request :=
  [⟨id, quietEnv, [packetConnect]⟩, ⟨id, quietEnv, packetConsole :: ascii "ping"⟩,
    ⟨id, quietEnv, [packetConfigGetAll]⟩]

theorem remote_calls_exact_hello :
    let n : Node := ⟨⟨blankBoard, .init, false, false⟩, .initial, []⟩
    let m := n.calls (fun _ => 0) (fun buffer _ => buffer) (fun p => ascii p.1) littleEndian
      helloRequests
    let (replies, d) := n.device.answers (fun p => ascii p.1) littleEndian helloRequests
    m.device = d ∧ (∀ reply ∈ replies, (packetFrame (fun _ => 0) reply).length ≤ 512) ∧
      ∃ line, m.sent = n.sent ++ line ∧
        dispatched (uses (fun _ => 0) (fun buffer _ => buffer) .initial line) = replies := by
  have hproper (d : Device) (p : List UInt8) (hlong : 1 ≤ p.length) (hfits : p.length < 2048)
      (hid : payloadBuffer p 0 ≠ packetGetCells ∧ payloadBuffer p 0 ≠ packetWriteNewFw ∧
        payloadBuffer p 0 ≠ packetConfigSetField) : Proper d p :=
    ⟨hlong, hfits.le, fun _ => hfits, fun h => absurd h hid.1, fun h => absurd h hid.2.1,
      fun h => absurd h hid.2.2⟩
  have hrun : ProperRun (fun p => ascii p.1) littleEndian ⟨blankBoard, .init, false, false⟩
      helloRequests := by
    refine ⟨?_, ?_, ?_, trivial⟩
    · exact hproper _ _ (by decide) (by decide) (by decide)
    · exact hproper _ _ (by decide) (by decide) (by decide)
    · exact hproper _ _ (by decide) (by decide) (by decide)
  exact remote_calls_exact _ _ _ _ _ (fun _ => rfl) _ rfl _ hrun _ rfl

end Line

end Battman
