import Mathlib

/-! A full-duplex serial line with a clock: for each period a bit goes out and one comes in, and
a byte goes most significant bit first. The far end sees the edges of the clock; one that works
by bytes sees the bytes. -/
namespace BitSerial

variable {σ τ : Type}

/-- The far end shifts at a falling edge and samples at a rising one. -/
structure Peer (σ : Type) where
  fall : σ → σ
  out : σ → Bool
  rise : Bool → σ → σ

def topBits (n : ℕ) (x : UInt8) : List Bool := (List.range n).map x.toBitVec.getMsbD

def push (x : UInt8) (b : Bool) : UInt8 := if b then (x <<< 1) ||| 1 else x <<< 1

namespace Peer

def shift (P : Peer σ) : List Bool → σ → List Bool × σ
  | [], s => ([], s)
  | b :: bs, s =>
    let r := P.shift bs (P.rise b (P.fall s))
    (P.out (P.fall s) :: r.1, r.2)

def exchangeByte (P : Peer σ) (x : UInt8) (s : σ) : UInt8 × σ :=
  let r := P.shift (topBits 8 x) s
  (r.1.foldl push 0, r.2)

def exchange (P : Peer σ) : List UInt8 → σ → List UInt8 × σ
  | [], s => ([], s)
  | x :: xs, s =>
    let r := P.exchangeByte x s
    let rs := P.exchange xs r.2
    (r.1 :: rs.1, rs.2)

end Peer

/-- A far end that works by bytes: the byte it sends next, and what it does with one. -/
structure BytePeer (τ : Type) where
  ready : τ → UInt8
  take : UInt8 → τ → τ

structure Shifting (τ : Type) where
  state : τ
  pending : List Bool
  got : List Bool

namespace BytePeer

/-- The far end at the edges: a byte is loaded at its first edge and taken at its last. -/
def serial (B : BytePeer τ) : Peer (Shifting τ) where
  fall s :=
    if s.got = [] then { s with pending := topBits 8 (B.ready s.state) }
    else { s with pending := s.pending.tail }
  out s := s.pending.headD true
  rise b s :=
    if s.got.length + 1 = 8 then
      { s with state := B.take ((s.got ++ [b]).foldl push 0) s.state, got := [] }
    else { s with got := s.got ++ [b] }

def exchange (B : BytePeer τ) : List UInt8 → τ → List UInt8 × τ
  | [], t => ([], t)
  | x :: xs, t =>
    let r := B.exchange xs (B.take x t)
    (B.ready t :: r.1, r.2)

end BytePeer

/-- A far end with a line that selects it. -/
structure Chip (σ : Type) extends Peer σ where
  select : σ → σ
  unselect : σ → σ

structure ByteChip (τ : Type) extends BytePeer τ where
  select : τ → τ
  unselect : τ → τ

namespace ByteChip

/-- Selecting the chip empties its shift register. -/
def serial (C : ByteChip τ) : Chip (Shifting τ) where
  toPeer := C.toBytePeer.serial
  select s := { s with state := C.select s.state, got := [] }
  unselect s := { s with state := C.unselect s.state, got := [] }

def frame (C : ByteChip τ) (xs : List UInt8) (t : τ) : List UInt8 × τ :=
  let r := C.exchange xs (C.select t)
  (r.1, C.unselect r.2)

end ByteChip

section Bits

variable {n : ℕ} {x : UInt8} {b : Bool}

theorem top_bits_succ :
    topBits (n + 1) x = x.toBitVec.getMsbD 0 :: topBits n (x <<< 1) := by
  have hshift (i : ℕ) : (x <<< 1).toBitVec.getMsbD i = x.toBitVec.getMsbD (i + 1) :=
    BitVec.getMsbD_shiftLeft x.toBitVec 1
  rw [topBits, List.range_succ_eq_map, List.map_cons, List.map_map]
  exact congrArg _ (List.map_congr_left fun i _ => (hshift i).symm)

theorem push_top_bits : (topBits 8 x).foldl push 0 = x := by
  have hall : ∀ n : Fin 256, (topBits 8 (UInt8.ofFin n)).foldl push 0 = UInt8.ofFin n := by
    decide +kernel
  exact hall x.toFin

end Bits

section Line

variable {P : Peer σ} {B : BytePeer τ} {s : σ}

theorem exchange_byte_serial (x : UInt8) {s : Shifting τ} (hs : s.got = []) :
    (B.serial.exchangeByte x s).1 = B.ready s.state ∧
      (B.serial.exchangeByte x s).2.state = B.take x s.state ∧
      (B.serial.exchangeByte x s).2.got = [] := by
  have htaken : [x.toBitVec.getMsbD 0, x.toBitVec.getMsbD 1, x.toBitVec.getMsbD 2,
      x.toBitVec.getMsbD 3, x.toBitVec.getMsbD 4, x.toBitVec.getMsbD 5, x.toBitVec.getMsbD 6,
      x.toBitVec.getMsbD 7].foldl push 0 = x := push_top_bits
  have hsent := push_top_bits (x := B.ready s.state)
  simp [Peer.exchangeByte, topBits, Peer.shift, BytePeer.serial, hs, List.range,
    List.range.loop] at hsent ⊢
  exact ⟨hsent, congrArg (B.take · s.state) htaken⟩

/-- At its edges, a far end that works by bytes does what it does by bytes. -/
theorem exchange_serial (xs : List UInt8) {s : Shifting τ} (hs : s.got = []) :
    (B.serial.exchange xs s).1 = (B.exchange xs s.state).1 ∧
      (B.serial.exchange xs s).2.state = (B.exchange xs s.state).2 ∧
      (B.serial.exchange xs s).2.got = [] := by
  induction xs generalizing s with
  | nil => exact ⟨rfl, rfl, hs⟩
  | cons x xs ih =>
    obtain ⟨hout, hstate, hgot⟩ := exchange_byte_serial (B := B) x hs
    obtain ⟨ihout, ihstate, ihgot⟩ := ih hgot
    rw [hstate] at ihout ihstate
    exact ⟨congrArg₂ List.cons hout ihout, ihstate, ihgot⟩

end Line

end BitSerial
