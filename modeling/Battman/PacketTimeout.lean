import Battman.FrameSoundness

/-! The receiver and the thread that drives its timeout. The thread function has no loop, so
packet_timeout is called once in the life of the device. -/
namespace Battman

inductive TimeoutThread where
  | ready
  | sleeping
  | exited
  deriving DecidableEq, Repr

structure Link where
  receiver : Receiver
  thread : TimeoutThread

def Link.initial : Link := ⟨.initial, .ready⟩

/-- A byte is processed, or a millisecond passes in which every ready thread gets to run. -/
inductive LinkEvent where
  | byte (b : UInt8)
  | tick
  deriving DecidableEq, Repr

def packetTimeoutThread (l : Link) : Link :=
  match l.thread with
  | .ready => { receiver := packetTimeout l.receiver, thread := .sleeping }
  | .sleeping => { l with thread := .exited }
  | .exited => l

def bytesOf (es : List LinkEvent) : List UInt8 :=
  es.filterMap fun
    | .byte b => some b
    | .tick => none

def silence (n : ℕ) : List LinkEvent := List.replicate n .tick

/-- Bytes that arrive, each after so many milliseconds. -/
def arrival (timed : List (ℕ × UInt8)) : List LinkEvent :=
  timed.flatMap fun p => silence p.1 ++ [.byte p.2]

section Definitions

variable (crc16 : List UInt8 → UInt16) (leaves : (ℕ → UInt8) → UInt32 → ℕ → UInt8)

def Link.step (l : Link) : LinkEvent → Link
  | .byte b => { l with receiver := (packetProcessByte crc16 leaves l.receiver b).1 }
  | .tick => packetTimeoutThread l

def linkAfter (es : List LinkEvent) : Link := es.foldl (Link.step crc16 leaves) .initial

/-- Whatever frame comes after a silence longer than the timeout, without such a silence
inside it, its payload is dispatched at its last byte. -/
def Recovers (es : List LinkEvent) : Prop :=
  ∀ n data (timed : List (ℕ × UInt8)) gap, packetTimeoutMs.toNat + 2 < n →
    (∀ p ∈ timed, p.1 ≤ packetTimeoutMs.toNat) → gap ≤ packetTimeoutMs.toNat →
    WellFormed crc16 (timed.map Prod.snd ++ [packetEnd]) data →
    .processPacket data ∈ (packetProcessByte crc16 leaves (linkAfter crc16 leaves
      (es ++ silence n ++ arrival timed ++ silence gap)).receiver packetEnd).2

end Definitions

variable {crc16 : List UInt8 → UInt16} {leaves : (ℕ → UInt8) → UInt32 → ℕ → UInt8}
  {s : Receiver} {es : List LinkEvent} {data : List UInt8}

section Timeout

def Receiver.untimed (s : Receiver) : Receiver := { s with processTimeout := 0 }

theorem step_untimed (s : Receiver) (b : UInt8) :
    (packetProcessByte crc16 leaves s.untimed b).1.untimed =
        (packetProcessByte crc16 leaves s b).1.untimed ∧
      (packetProcessByte crc16 leaves s.untimed b).2 = (packetProcessByte crc16 leaves s b).2 := by
  obtain ⟨index, buffer, state, timeout, length, crc⟩ := s
  cases state with
  | start =>
    simp only [packetProcessByte, Receiver.untimed]
    split_ifs <;> exact ⟨rfl, rfl⟩
  | lengthLow =>
    rw [length_low_step b rfl, length_low_step b rfl]
    exact ⟨rfl, rfl⟩
  | endMark =>
    by_cases hb : b = packetEnd
    · subst hb
      exact ⟨rfl, rfl⟩
    · simp only [packetProcessByte, Receiver.untimed, if_neg hb, and_self]
  | _ => exact ⟨rfl, rfl⟩

theorem step_timeout (h : s.processTimeout = packetTimeoutMs) (b : UInt8) :
    (packetProcessByte crc16 leaves s b).1.processTimeout = packetTimeoutMs := by
  cases hs : s.processState with
  | start =>
    simp only [packetProcessByte, hs]
    split
    · rfl
    · exact h
  | endMark =>
    simp only [packetProcessByte, hs]
    split
    · split <;> rfl
    · exact h
  | _ => simp [packetProcessByte, hs]

/-- The receiver of the link is the one that the bytes alone make, but for the countdown, and
the countdown is at its start until the thread has made its one call. -/
structure Driven (crc16 : List UInt8 → UInt16) (leaves : (ℕ → UInt8) → UInt32 → ℕ → UInt8)
    (es : List LinkEvent) (l : Link) : Prop where
  receiver : l.receiver.untimed = (received crc16 leaves (bytesOf es)).untimed
  countdown : l.thread = .ready → l.receiver.processTimeout = packetTimeoutMs

theorem bytes_append (es fs : List LinkEvent) : bytesOf (es ++ fs) = bytesOf es ++ bytesOf fs :=
  List.filterMap_append

theorem bytes_silence (n : ℕ) : bytesOf (silence n) = [] := by
  induction n with
  | zero => rfl
  | succ n ih => exact ih

theorem bytes_arrival (timed : List (ℕ × UInt8)) :
    bytesOf (arrival timed) = timed.map Prod.snd := by
  induction timed with
  | nil => rfl
  | cons p timed ih =>
    rw [arrival, List.flatMap_cons, bytes_append, bytes_append, bytes_silence]
    exact congrArg (p.2 :: ·) ih

theorem driven_run (es : List LinkEvent) : Driven crc16 leaves es (linkAfter crc16 leaves es) := by
  induction es using List.reverseRecOn with
  | nil => exact ⟨rfl, fun _ => rfl⟩
  | append_singleton es e ih =>
    have hrun : linkAfter crc16 leaves (es ++ [e]) =
        (linkAfter crc16 leaves es).step crc16 leaves e := by
      rw [linkAfter, List.foldl_append]
      rfl
    rw [hrun]
    generalize linkAfter crc16 leaves es = l at ih
    cases e with
    | byte b =>
      refine ⟨?_, fun ht => step_timeout (ih.countdown ht) b⟩
      rw [bytes_append, show bytesOf [.byte b] = [b] from rfl, received_concat]
      exact (step_untimed l.receiver b).1.symm.trans
        ((congrArg (fun r => (packetProcessByte crc16 leaves r b).1.untimed) ih.receiver).trans
          (step_untimed _ b).1)
    | tick =>
      have hbytes : bytesOf (es ++ [.tick]) = bytesOf es := by
        rw [bytes_append]
        exact List.append_nil _
      change Driven crc16 leaves (es ++ [.tick]) (packetTimeoutThread l)
      cases ht : l.thread with
      | ready =>
        -- the one call finds the countdown at its start
        have hcount : 0 < l.receiver.processTimeout := by
          rw [ih.countdown ht]
          decide
        simp only [packetTimeoutThread, ht, packetTimeout, gt_iff_lt, if_pos hcount]
        exact ⟨hbytes ▸ ih.receiver, nofun⟩
      | sleeping =>
        simp only [packetTimeoutThread, ht]
        exact ⟨hbytes ▸ ih.receiver, nofun⟩
      | exited =>
        simp only [packetTimeoutThread, ht]
        exact ⟨hbytes ▸ ih.receiver, ih.countdown⟩

theorem link_dispatch (es : List LinkEvent) (b : UInt8) :
    (packetProcessByte crc16 leaves (linkAfter crc16 leaves es).receiver b).2 =
      (packetProcessByte crc16 leaves (received crc16 leaves (bytesOf es)) b).2 := by
  rw [← (step_untimed _ b).2, (driven_run es).receiver, (step_untimed _ b).2]

theorem link_state (es : List LinkEvent) : (linkAfter crc16 leaves es).receiver.processState =
    (received crc16 leaves (bytesOf es)).processState := by
  have h := congrArg Receiver.processState (@driven_run crc16 leaves es).receiver
  exact h

end Timeout

section Stuck

def shortFrame (crc16 : List UInt8 → UInt16) (x : UInt8) : List UInt8 :=
  [packetStart, 1, x, hiByte (crc16 [x]), loByte (crc16 [x])]

theorem short_frame_well_formed (x : UInt8) :
    WellFormed crc16 (shortFrame crc16 x ++ [packetEnd]) [x] :=
  ⟨[packetStart, 1], .short 1, le_rfl, show 1 ≤ packetBufferSize by decide, rfl⟩

theorem unfinished_before {length : UInt16} {xs ys : List UInt8}
    (h : Unfinished length (xs ++ ys)) : Unfinished length xs := by
  unfold Unfinished at *
  rw [List.drop_append] at h
  exact fun hm => h (List.mem_append_left _ hm)

/-- In the middle of another frame, a short frame is not dispatched unless the first byte of
the payload stands in that other frame. -/
theorem short_frame_lost {h : List UInt8} {x : UInt8}
    (hs : (received crc16 leaves h).processState ≠ .start) (hstart : x ≠ packetStart) (hone : x ≠ 1)
    (hbuffer : x ≠ (received crc16 leaves h).packetBuffer 0) :
    ¬ Dispatches crc16 leaves (h ++ shortFrame crc16 x) packetEnd [x] := by
  intro hd
  obtain ⟨-, pre, b, got, hsplit, hh, hu⟩ := dispatch_frame hd
  rw [hsplit] at hd
  obtain ⟨⟨hk, -⟩, htake⟩ := (dispatches_iff hh hu).mp hd
  have hfirst : got.getD 0 0 = x ∧ (headerLength crc16 leaves pre b).toNat = 1 := by
    generalize headerLength crc16 leaves pre b = length at *
    have hpos := stored_pos length
    have hlen := congrArg List.length htake
    rw [List.length_singleton, List.length_take] at hlen
    have hone : length.toNat = 1 := by omega
    rw [hone] at htake
    cases got with
    | nil => cases htake
    | cons c got => exact ⟨(List.cons.inj htake).1.symm, hone⟩
  have hwide : 3 ≤ got.length := by
    have := stored_pos (headerLength crc16 leaves pre b)
    omega
  rcases List.append_eq_append_iff.mp hsplit with ⟨a, rfl, ha⟩ | ⟨c, rfl, hc⟩
  · -- the length field is completed by a byte of the short frame
    rcases a with _ | ⟨a₁, _ | ⟨a₂, a⟩⟩
    · obtain ⟨rfl, rfl⟩ := List.cons.inj ha
      exact hone hfirst.1.symm
    · obtain ⟨rfl, ha'⟩ := List.cons.inj ha
      obtain ⟨rfl, rfl⟩ := List.cons.inj ha'
      unfold Header headerLength at *
      rw [received_concat] at hh hfirst
      rcases step_length_low hh with ⟨hstate, -⟩ | hstate
      · exact hs hstate
      · have hlong := hfirst.2
        simp only [packetProcessByte, hstate] at hlong
        exact absurd hlong (by decide)
    · have := congrArg List.length ha
      simp only [shortFrame, List.cons_append, List.length_cons, List.length_append,
        List.length_nil] at this
      omega
  · -- the length field was complete before
    rcases c with _ | ⟨c, gh⟩
    · obtain ⟨rfl, rfl⟩ := List.cons.inj hc
      exact hone hfirst.1.symm
    · obtain ⟨rfl, rfl⟩ := List.cons.inj hc
      rcases gh with _ | ⟨g, gh⟩
      · exact hstart hfirst.1.symm
      · have hf := frame_progress hh (unfinished_before hu)
        have hpos := stored_pos (headerLength crc16 leaves pre b)
        have hg := hf.buffer 0 (by rw [List.length_cons]; omega)
        exact hbuffer (hfirst.1.symm.trans hg.symm)

theorem lost_payload (buffer : UInt8) :
    ∃ x : UInt8, x ≠ packetStart ∧ x ≠ 1 ∧ x ≠ buffer := by
  by_cases h : buffer = 0
  · exact ⟨2, by decide, by decide, by rw [h]; decide⟩
  · exact ⟨0, by decide, by decide, Ne.symm h⟩

theorem arrival_bytes (es : List LinkEvent) (n gap : ℕ) (timed : List (ℕ × UInt8)) :
    bytesOf (es ++ silence n ++ arrival timed ++ silence gap) =
      bytesOf es ++ timed.map Prod.snd := by
  simp only [bytes_append, bytes_silence, bytes_arrival, List.append_nil]

theorem stuck_forever (hs : (received crc16 leaves (bytesOf es)).processState ≠ .start) :
    ¬ Recovers crc16 leaves es := by
  intro h
  obtain ⟨x, hstart, hone, hbuffer⟩ :=
    lost_payload ((received crc16 leaves (bytesOf es)).packetBuffer 0)
  have hmap : ((shortFrame crc16 x).map fun b => ((0 : ℕ), b)).map Prod.snd =
      shortFrame crc16 x := by simp
  have hd := h 1003 [x] ((shortFrame crc16 x).map fun b => (0, b)) 0 (by decide) (by simp)
    (Nat.zero_le _) (by rw [hmap]; exact short_frame_well_formed x)
  rw [link_dispatch, arrival_bytes, hmap] at hd
  exact short_frame_lost hs hstart hone hbuffer hd

end Stuck

/-- After whatever bytes and times: a frame that follows a silence longer than the timeout is
sure to be dispatched if and only if the receiver was in START when the silence began. -/
theorem recovers_iff (crc16 : List UInt8 → UInt16) (leaves : (ℕ → UInt8) → UInt32 → ℕ → UInt8)
    (es : List LinkEvent) : Recovers crc16 leaves es ↔
      (linkAfter crc16 leaves es).receiver.processState = .start := by
  rw [link_state]
  constructor
  · intro h
    by_contra hs
    exact stuck_forever hs h
  · intro hs n data timed gap _ _ _ hw
    obtain ⟨body, hbody, -, hd, -⟩ := @well_formed_run crc16 leaves _ _ _ hs hw
    obtain rfl := List.append_cancel_right hbody
    rw [link_dispatch, arrival_bytes, ← mem_dispatched, received, feed_append]
    rw [received] at hd
    rw [hd]
    exact List.mem_singleton_self data

/-- After one start byte the next frame can be lost however long the silence is. -/
theorem lone_start_byte_stays :
    ¬ ∀ (crc16 : List UInt8 → UInt16) (leaves : (ℕ → UInt8) → UInt32 → ℕ → UInt8) es,
      Recovers crc16 leaves es :=
  fun h => @stuck_forever (fun _ => 0) (fun buffer _ => buffer) [.byte packetStart] nofun (h _ _ _)

end Battman
