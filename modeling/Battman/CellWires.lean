import Battman.BitSerial
import Battman.PecRemainder

/-! The wires to the cell monitor. spi_sw_transfer moves the pads of the BATTMAN_4_0 by hand,
and the other boards have a peripheral that exchanges the bytes. In every run of
ltc6803_update a chip sees the same frames, and the cells are those of its answers. -/
namespace Battman
open BitSerial

/-- The pads SCK and MOSI, and the far end of the wires. -/
structure Wires (σ : Type) where
  sck : Bool
  mosi : Bool
  far : σ

structure SpiPort (β : Type) where
  select : StateM β Unit
  unselect : StateM β Unit
  transfer : (ℕ → UInt8) → ℕ → StateM β (List UInt8)

variable {α β γ σ τ : Type}

section Pads

variable (P : Peer σ)

def clearSck : StateM (Wires σ) Unit :=
  modify fun w => if w.sck then { w with sck := false, far := P.fall w.far } else w

def setSck : StateM (Wires σ) Unit :=
  modify fun w => if w.sck then w else { w with sck := true, far := P.rise w.mosi w.far }

def writeMosi (bit : UInt8) : StateM (Wires σ) Unit := modify fun w => { w with mosi := bit ≠ 0 }

def readMiso : StateM (Wires σ) Bool := do
  let w ← get
  pure (P.out w.far)

def transferBits : ℕ → UInt8 → UInt8 → StateM (Wires σ) UInt8
  | 0, _, recieve => pure recieve
  | n + 1, send, recieve => do
    clearSck P
    writeMosi (send >>> 7)
    let high ← readMiso P
    setSck P
    transferBits n (send <<< 1) (if high then (recieve <<< 1) ||| 0x1 else recieve <<< 1)

def transferBytes (outBuf : Option (ℕ → UInt8)) : ℕ → ℕ → StateM (Wires σ) (List UInt8)
  | 0, _ => pure []
  | n + 1, i => do
    let recieve ← transferBits P 8 (outBuf.elim 0 fun out => out i) 0
    let rest ← transferBytes outBuf n (i + 1)
    pure (recieve :: rest)

def spiSwTransfer (outBuf : Option (ℕ → UInt8)) (length : ℕ) : StateM (Wires σ) (List UInt8) := do
  setSck P
  transferBytes P outBuf length 0

end Pads

/-- BATTMAN_4_0. -/
def softPort (C : Chip σ) : SpiPort (Wires σ) where
  select := modify fun w => { w with far := C.select w.far }
  unselect := modify fun w => { w with far := C.unselect w.far }
  transfer out n := spiSwTransfer C.toPeer (some out) n

def chipPort (C : ByteChip τ) : SpiPort τ where
  select := modify C.select
  unselect := modify C.unselect
  transfer out n := fun t => C.toBytePeer.exchange ((List.range n).map out) t

/-- The other boards: spiExchange. -/
def spiPort (C : Chip σ) : SpiPort σ where
  select := modify C.select
  unselect := modify C.unselect
  transfer out n := fun s => C.toPeer.exchange ((List.range n).map out) s

section Driver

variable (p : SpiPort β)

def ltc6803Wrcfg (config : ℕ → UInt8) : StateM β Unit := do
  p.select
  let _ ← p.transfer (wrcfgCommand config) 9
  p.unselect

def ltc6803Stcvad : StateM β Unit := do
  p.select
  let _ ← p.transfer (fun i => if i = 0 then 0x10 else 0xB0) 2
  p.unselect

def receiveBytes : ℕ → StateM β (List UInt8)
  | 0 => pure []
  | n + 1 => do
    let rxbuf ← p.transfer (fun _ => 0xFF) 1
    let rest ← receiveBytes n
    pure (rxbuf.headD 0 :: rest)

def rdcvTransfer : StateM β (List UInt8) := do
  p.select
  let _ ← p.transfer (fun i => if i = 0 then 0x04 else 0xDC) 2
  let rxData ← receiveBytes p 19
  p.unselect
  pure rxData

/-- A call of ltc6803_update: its two clock readings, and the configuration register then. -/
structure UpdateCall where
  now : UInt32
  started : UInt32
  configReg : ℕ → UInt8

def UpdateCall.due (c : UpdateCall) (r : Readings) : Prop :=
  13 < st2ms (c.now - r.conversionStart)

instance (c : UpdateCall) (r : Readings) : Decidable (c.due r) :=
  inferInstanceAs (Decidable (_ < _))

def ltc6803Update (c : UpdateCall) (r : Readings) : StateM β Readings := do
  ltc6803Wrcfg p c.configReg
  if c.due r then
    let rxData ← rdcvTransfer p
    ltc6803Stcvad p
    pure { cells := (ltc6803Rdcv (rxData.getD · 0) r.cells).cells, conversionStart := c.started }
  else pure r

def ltc6803Updates : List UpdateCall → Readings → StateM β Readings
  | [], r => pure r
  | c :: cs, r => do
    let r ← ltc6803Update p c r
    ltc6803Updates cs r

end Driver

namespace UpdateCall

variable (C : ByteChip τ)

def configured (c : UpdateCall) (t : τ) : τ :=
  (C.frame ((List.range 9).map (wrcfgCommand c.configReg)) t).2

def answer (c : UpdateCall) (t : τ) : List UInt8 × τ :=
  let r := C.frame ([0x04, 0xDC] ++ List.replicate 19 0xFF) (c.configured C t)
  (r.1.drop 2, r.2)

def inFrames (c : UpdateCall) (r : Readings) (t : τ) : Readings × τ :=
  (r.update ⟨c.now, c.started, ((c.answer C t).1.getD · 0)⟩,
    if c.due r then (C.frame [0x10, 0xB0] (c.answer C t).2).2 else c.configured C t)

def allInFrames : List UpdateCall → Readings → τ → Readings × τ
  | [], r, t => (r, t)
  | c :: cs, r, t =>
    let next := c.inFrames C r t
    allInFrames cs next.1 next.2

end UpdateCall

section Transfer

variable {P : Peer σ} {w : Wires σ}

theorem top_bit (x : UInt8) : decide (x >>> 7 ≠ 0) = x.toBitVec.getMsbD 0 := by
  have hall : ∀ n : Fin 256,
      decide (UInt8.ofFin n >>> 7 ≠ 0) = (UInt8.ofFin n).toBitVec.getMsbD 0 := by
    decide +kernel
  exact hall x.toFin

theorem transfer_bits (n : ℕ) (send recieve : UInt8) (hw : w.sck = true) :
    (transferBits P n send recieve w).1 =
        (P.shift (topBits n send) w.far).1.foldl push recieve ∧
      (transferBits P n send recieve w).2.sck = true ∧
      (transferBits P n send recieve w).2.far = (P.shift (topBits n send) w.far).2 := by
  induction n generalizing send recieve w with
  | zero => exact ⟨rfl, hw, rfl⟩
  | succ n ih =>
    obtain ⟨sck, mosi, far⟩ := w
    subst hw
    have hround : transferBits P (n + 1) send recieve ⟨true, mosi, far⟩ =
        transferBits P n (send <<< 1) (push recieve (P.out (P.fall far)))
          ⟨true, send.toBitVec.getMsbD 0, P.rise (send.toBitVec.getMsbD 0) (P.fall far)⟩ := by
      rw [← top_bit]
      rfl
    rw [hround, top_bits_succ]
    exact ih _ _ rfl

theorem transfer_bytes (outBuf : Option (ℕ → UInt8)) (n i : ℕ) (hw : w.sck = true) :
    let out := (List.range' i n).map fun i => outBuf.elim 0 fun out => out i
    (transferBytes P outBuf n i w).1 = (P.exchange out w.far).1 ∧
      (transferBytes P outBuf n i w).2.sck = true ∧
      (transferBytes P outBuf n i w).2.far = (P.exchange out w.far).2 := by
  induction n generalizing i w with
  | zero => exact ⟨rfl, hw, rfl⟩
  | succ n ih =>
    obtain ⟨hbyte, hsck, hfar⟩ := transfer_bits (P := P) 8 (outBuf.elim 0 fun out => out i) 0 hw
    obtain ⟨hrest, hsck', hfar'⟩ := ih (i + 1) hsck
    rw [hfar] at hrest hfar'
    exact ⟨congrArg₂ List.cons hbyte hrest, hsck', hfar'⟩

/-- spi_sw_transfer is the exchange of a peripheral, for any far end; if the clock was low, the
far end sees a rising edge before it. -/
theorem sw_transfer_exchanges (P : Peer σ) (outBuf : Option (ℕ → UInt8)) (length : ℕ)
    (w : Wires σ) :
    let out := (List.range length).map fun i => outBuf.elim 0 fun out => out i
    let far := if w.sck then w.far else P.rise w.mosi w.far
    (spiSwTransfer P outBuf length w).1 = (P.exchange out far).1 ∧
      (spiSwTransfer P outBuf length w).2.sck = true ∧
      (spiSwTransfer P outBuf length w).2.far = (P.exchange out far).2 := by
  obtain ⟨sck, mosi, far⟩ := w
  simp only [List.range_eq_range']
  cases sck
  · exact transfer_bytes (w := ⟨true, mosi, P.rise mosi far⟩) outBuf length 0 rfl
  · exact transfer_bytes (w := ⟨true, mosi, far⟩) outBuf length 0 rfl

end Transfer

section Alike

/-- From related states, two programs return the same and leave related states. -/
def Alike (R : β → γ → Prop) (x : StateM β α) (y : StateM γ α) : Prop :=
  ∀ b c, R b c → (x b).1 = (y c).1 ∧ R (x b).2 (y c).2

structure SpiPort.Alike (R : β → γ → Prop) (p : SpiPort β) (q : SpiPort γ) : Prop where
  select : Battman.Alike R p.select q.select
  unselect : Battman.Alike R p.unselect q.unselect
  transfer : ∀ out n, Battman.Alike R (p.transfer out n) (q.transfer out n)

variable {R : β → γ → Prop} {p : SpiPort β} {q : SpiPort γ}

theorem alike_pure (a : α) : Alike R (pure a) (pure a) := fun _ _ h => ⟨rfl, h⟩

theorem alike_bind {δ : Type} {x : StateM β α} {y : StateM γ α} {f : α → StateM β δ}
    {g : α → StateM γ δ} (hx : Alike R x y) (hf : ∀ a, Alike R (f a) (g a)) :
    Alike R (x >>= f) (y >>= g) := by
  intro b c h
  obtain ⟨hvalue, hstate⟩ := hx b c h
  have hnext := hf (x b).1 (x b).2 (y c).2 hstate
  change (f (x b).1 (x b).2).1 = (g (y c).1 (y c).2).1 ∧
    R (f (x b).1 (x b).2).2 (g (y c).1 (y c).2).2
  rwa [← hvalue]

theorem alike_wrcfg (h : p.Alike R q) (config : ℕ → UInt8) :
    Alike R (ltc6803Wrcfg p config) (ltc6803Wrcfg q config) := by
  apply alike_bind h.select
  intro _
  apply alike_bind (h.transfer _ _)
  exact fun _ => h.unselect

theorem alike_stcvad (h : p.Alike R q) : Alike R (ltc6803Stcvad p) (ltc6803Stcvad q) := by
  apply alike_bind h.select
  intro _
  apply alike_bind (h.transfer _ _)
  exact fun _ => h.unselect

theorem alike_receive (h : p.Alike R q) (n : ℕ) :
    Alike R (receiveBytes p n) (receiveBytes q n) := by
  induction n with
  | zero => exact alike_pure []
  | succ n ih =>
    apply alike_bind (h.transfer _ _)
    intro _
    apply alike_bind ih
    exact fun _ => alike_pure _

theorem alike_rdcv (h : p.Alike R q) : Alike R (rdcvTransfer p) (rdcvTransfer q) := by
  apply alike_bind h.select
  intro _
  apply alike_bind (h.transfer _ _)
  intro _
  apply alike_bind (alike_receive h 19)
  intro _
  apply alike_bind h.unselect
  exact fun _ => alike_pure _

theorem alike_update (h : p.Alike R q) (c : UpdateCall) (r : Readings) :
    Alike R (ltc6803Update p c r) (ltc6803Update q c r) := by
  apply alike_bind (alike_wrcfg h _)
  intro _
  by_cases hdue : c.due r
  · simp only [if_pos hdue]
    apply alike_bind (alike_rdcv h)
    intro _
    apply alike_bind (alike_stcvad h)
    exact fun _ => alike_pure _
  · simp only [if_neg hdue]
    exact alike_pure _

theorem alike_updates (h : p.Alike R q) (calls : List UpdateCall) (r : Readings) :
    Alike R (ltc6803Updates p calls r) (ltc6803Updates q calls r) := by
  induction calls generalizing r with
  | nil => exact alike_pure r
  | cons c calls ih =>
    apply alike_bind (alike_update h c r)
    exact fun r => ih r

end Alike

section Ports

variable (C : ByteChip τ)

theorem spi_port_alike :
    (spiPort C.serial).Alike (fun s t => s.state = t ∧ s.got = []) (chipPort C) where
  select s t h := ⟨rfl, congrArg C.select h.1, rfl⟩
  unselect s t h := ⟨rfl, congrArg C.unselect h.1, rfl⟩
  transfer out n s t h := by
    obtain ⟨rfl, hgot⟩ := h
    exact exchange_serial _ hgot

/-- Between transfers the clock is high and the shift register empty. -/
theorem soft_port_alike :
    (softPort C.serial).Alike
      (fun w t => w.sck = true ∧ w.far.state = t ∧ w.far.got = []) (chipPort C) where
  select w t h := ⟨rfl, h.1, congrArg C.select h.2.1, rfl⟩
  unselect w t h := ⟨rfl, h.1, congrArg C.unselect h.2.1, rfl⟩
  transfer out n w t h := by
    obtain ⟨sck, mosi, far⟩ := w
    obtain ⟨hsck, hstate, hgot⟩ := h
    subst hsck hstate
    obtain ⟨hin, hsck, hfar⟩ := transfer_bytes (P := C.serial.toPeer) (w := ⟨true, mosi, far⟩)
      (some out) n 0 rfl
    obtain ⟨hbytes, hstate, hgot⟩ := exchange_serial (B := C.toBytePeer)
      ((List.range n).map out) hgot
    rw [← List.range_eq_range'] at hin hfar
    exact ⟨hin.trans hbytes, hsck, (congrArg Shifting.state hfar).trans hstate,
      (congrArg Shifting.got hfar).trans hgot⟩

end Ports

section Frames

variable (C : ByteChip τ)

theorem receive_bytes_chip (n : ℕ) (t : τ) :
    receiveBytes (chipPort C) n t = C.toBytePeer.exchange (List.replicate n 0xFF) t := by
  induction n generalizing t with
  | zero => rfl
  | succ n ih =>
    have hround : receiveBytes (chipPort C) (n + 1) t =
        (C.ready t :: (receiveBytes (chipPort C) n (C.take 0xFF t)).1,
          (receiveBytes (chipPort C) n (C.take 0xFF t)).2) := rfl
    rw [hround, ih]
    rfl

theorem update_chip (c : UpdateCall) (r : Readings) (t : τ) :
    ltc6803Update (chipPort C) c r t = c.inFrames C r t := by
  have hrdcv (t : τ) : rdcvTransfer (chipPort C) t =
      ((C.frame ([0x04, 0xDC] ++ List.replicate 19 0xFF) t).1.drop 2,
        (C.frame ([0x04, 0xDC] ++ List.replicate 19 0xFF) t).2) := by
    have hparts : rdcvTransfer (chipPort C) t =
        let rest := receiveBytes (chipPort C) 19 (C.take 0xDC (C.take 0x04 (C.select t)))
        (rest.1, C.unselect rest.2) := rfl
    rw [hparts, receive_bytes_chip]
    rfl
  by_cases hdue : c.due r
  · have hparts : ltc6803Update (chipPort C) c r t =
        let rx := rdcvTransfer (chipPort C) (c.configured C t)
        (⟨(ltc6803Rdcv (rx.1.getD · 0) r.cells).cells, c.started⟩,
          (C.frame [0x10, 0xB0] rx.2).2) := by
      simp only [ltc6803Update, if_pos hdue]
      rfl
    have hupdate (rx : ℕ → UInt8) : r.update ⟨c.now, c.started, rx⟩ =
        ⟨(ltc6803Rdcv rx r.cells).cells, c.started⟩ := if_pos hdue
    rw [hparts, hrdcv, UpdateCall.inFrames, if_pos hdue, hupdate]
    rfl
  · have hparts : ltc6803Update (chipPort C) c r t = (r, c.configured C t) := by
      simp only [ltc6803Update, if_neg hdue]
      rfl
    have hupdate (rx : ℕ → UInt8) : r.update ⟨c.now, c.started, rx⟩ = r := if_neg hdue
    rw [hparts, UpdateCall.inFrames, if_neg hdue, hupdate]

theorem updates_chip (calls : List UpdateCall) (r : Readings) (t : τ) :
    ltc6803Updates (chipPort C) calls r t = UpdateCall.allInFrames C calls r t := by
  induction calls generalizing r t with
  | nil => rfl
  | cons c calls ih =>
    have hstep : ltc6803Updates (chipPort C) (c :: calls) r t =
        ltc6803Updates (chipPort C) calls (ltc6803Update (chipPort C) c r t).1
          (ltc6803Update (chipPort C) c r t).2 := rfl
    rw [hstep, update_chip, ih]
    rfl

theorem soft_in_frames (calls : List UpdateCall) (r : Readings) (t : τ) (mosi : Bool)
    (pending : List Bool) :
    let soft := ltc6803Updates (softPort C.serial) calls r ⟨true, mosi, t, pending, []⟩
    soft.1 = (UpdateCall.allInFrames C calls r t).1 ∧
      soft.2.far.state = (UpdateCall.allInFrames C calls r t).2 := by
  obtain ⟨hr, -, ht, -⟩ := alike_updates (soft_port_alike C) calls r ⟨true, mosi, t, pending, []⟩ t
    ⟨rfl, rfl, rfl⟩
  rw [updates_chip] at hr ht
  exact ⟨hr, ht⟩

/-- Over the pads or over the peripheral, a run of ltc6803_update is the same frames to a chip,
and the readings are those of its answers. -/
theorem updates_in_frames (C : ByteChip τ) (calls : List UpdateCall) (r : Readings) (t : τ)
    (mosi : Bool) (pending : List Bool) :
    let soft := ltc6803Updates (softPort C.serial) calls r ⟨true, mosi, t, pending, []⟩
    let spi := ltc6803Updates (spiPort C.serial) calls r ⟨t, pending, []⟩
    let frames := UpdateCall.allInFrames C calls r t
    (soft.1 = frames.1 ∧ soft.2.far.state = frames.2) ∧
      spi.1 = frames.1 ∧ spi.2.state = frames.2 := by
  refine ⟨soft_in_frames C calls r t mosi pending, ?_⟩
  obtain ⟨hr, ht, -⟩ := alike_updates (spi_port_alike C) calls r ⟨t, pending, []⟩ t ⟨rfl, rfl⟩
  rw [updates_chip] at hr ht
  exact ⟨hr, ht⟩

end Frames

end Battman
