import Battman.ReadyList

/-! The threads that receive messages, from reset until they run. A reader signals the thread
that processes what it reads through process_tp, which that thread stores itself. -/
namespace Battman.StartUp

open ReadyList

inductive Thread where
  | main
  | canRead
  | canProcess
  | buzzerUpdate
  | ledUpdate
  | serialInit
  | serialRead
  | serialProcess
  | packetTimeout
  deriving DecidableEq, Repr

def normalPrio : ℕ := 64

def Thread.prio : Thread → ℕ
  | .canRead => normalPrio + 1
  | _ => normalPrio

inductive Call where
  | canStart
  | sleep
  | usbStart
  | create (t : Thread)
  deriving DecidableEq, Repr

def commCanInit : List Call := [.canStart, .create .canRead, .create .canProcess]

def commUsbInit : List Call := [.create .serialInit, .create .packetTimeout]

def mainThread : List Call :=
  commCanInit ++ [.create .buzzerUpdate, .create .ledUpdate] ++ commUsbInit

def serialInitThread : List Call :=
  [.sleep, .usbStart, .create .serialRead, .create .serialProcess]

/-- `polling` calls chEvtWaitAnyTimeout and is there while it waits; `receiving` calls canReceive,
`signalling` chEvtSignal. -/
inductive CanReadPc where
  | created
  | polling
  | receiving
  | signalling
  deriving DecidableEq, Repr

/-- `reading` is in chSequentialStreamRead and waits for data, `resting` calls
chThdSleepMilliseconds and `asleep` is in it. -/
inductive SerialReadPc where
  | created
  | reading
  | signalling
  | resting
  | asleep
  deriving DecidableEq, Repr

/-- `waiting` calls chEvtWaitAny and is there while it waits. -/
inductive ProcessPc where
  | created
  | waiting
  | processing
  deriving DecidableEq, Repr

structure Processor where
  pc : ProcessPc
  processTp : Option Thread
  pending : Bool
  deriving DecidableEq, Repr

/-- `main` and `serialInit` are the calls that the two threads have before them; `canIrq` is
FMPIE0, `canEvent` the event of the listener in can_read_thread. -/
structure State where
  cpu : Cpu Thread
  main : List Call
  serialInit : List Call
  canIrq : Bool
  canFrames : ℕ
  canEvent : Bool
  canRead : CanReadPc
  canProcess : Processor
  usbActive : Bool
  serialBytes : ℕ
  serialRead : SerialReadPc
  serialProcess : Processor
  deriving DecidableEq, Repr

def Processor.absent : Processor := ⟨.created, none, false⟩

def start : State where
  cpu := ⟨some .main, []⟩
  main := mainThread
  serialInit := serialInitThread
  canIrq := false
  canFrames := 0
  canEvent := false
  canRead := .created
  canProcess := .absent
  usbActive := false
  serialBytes := 0
  serialRead := .created
  serialProcess := .absent

/-- A frame gets into the receive FIFO, `n` bytes into the USB queue; the host configures the USB
device or suspends it; a thread that sleeps wakes; the running thread goes on or blocks. -/
inductive Event where
  | frame
  | bytes (n : ℕ)
  | usb (active : Bool)
  | wake (t : Thread)
  | act
  | block
  deriving DecidableEq, Repr

def State.sleep (s : State) : State := { s with cpu := s.cpu.sleep }

def State.wake (t : Thread) (s : State) : State := { s with cpu := s.cpu.wake Thread.prio t }

def State.call (s : State) : Call → State
  | .canStart => { s with canIrq := true }
  | .sleep => s.sleep
  | .usbStart => s
  | .create t => { s with cpu := s.cpu.create Thread.prio t }

def Processor.signal (p : Processor) (cpu : Cpu Thread) : Processor × Cpu Thread :=
  match p.processTp with
  | none => (p, cpu)
  | some t =>
    ({ p with pending := true }, if p.pc = .waiting then cpu.wake Thread.prio t else cpu)

def canReadThread (s : State) : State :=
  match s.canRead with
  | .created => { s with canRead := .polling }
  | .polling =>
    if s.canEvent then { s with canEvent := false, canRead := .receiving } else s.sleep
  | .receiving =>
    if s.canFrames = 0 then { s with canRead := .polling }
    -- the last frame enables the interrupt again
    else { s with canFrames := s.canFrames - 1, canIrq := s.canIrq || s.canFrames == 1,
                  canRead := .signalling }
  | .signalling =>
    let (canProcess, cpu) := s.canProcess.signal s.cpu
    { s with canProcess, cpu, canRead := .receiving }

def serialReadByte (s : State) : State :=
  if s.serialBytes = 0 then { s.sleep with serialRead := .reading }
  else { s with serialBytes := s.serialBytes - 1, serialRead := .signalling }

def serialReadThread (s : State) : State :=
  match s.serialRead with
  | .created | .asleep =>
    if s.usbActive then serialReadByte s else { s with serialRead := .resting }
  | .reading => serialReadByte s
  | .signalling =>
    let (serialProcess, cpu) := s.serialProcess.signal s.cpu
    { s with serialProcess, cpu, serialRead := .resting }
  | .resting => { s.sleep with serialRead := .asleep }

def processThread (self : Thread) (p : Processor) (cpu : Cpu Thread) : Processor × Cpu Thread :=
  match p.pc with
  | .created => ({ p with processTp := some self, pc := .waiting }, cpu)
  | .waiting =>
    if p.pending then ({ p with pending := false, pc := .processing }, cpu) else (p, cpu.sleep)
  | .processing => ({ p with pc := .waiting }, cpu)

def act (s : State) : State :=
  match s.cpu.running with
  | some .main =>
    match s.main with
    | [] => s
    | c :: main => State.call { s with main } c
  | some .serialInit =>
    match s.serialInit with
    | [] => s.sleep
    | c :: serialInit => State.call { s with serialInit } c
  | some .canRead => canReadThread s
  | some .serialRead => serialReadThread s
  | some .canProcess =>
    let (canProcess, cpu) := processThread .canProcess s.canProcess s.cpu
    { s with canProcess, cpu }
  | some .serialProcess =>
    let (serialProcess, cpu) := processThread .serialProcess s.serialProcess s.cpu
    { s with serialProcess, cpu }
  | _ => s

/-- The receive interrupt turns itself off; its event is lost without a listener. -/
def canLldRx0Handler (s : State) : State :=
  if s.canRead = .created then { s with canIrq := false }
  else State.wake .canRead { s with canIrq := false, canEvent := true }

def next (s : State) : Event → State
  | .frame =>
    let s := { s with canFrames := min 3 (s.canFrames + 1) }
    if s.canIrq then canLldRx0Handler s else s
  | .bytes n =>
    let s := { s with serialBytes := s.serialBytes + n }
    if s.serialRead = .reading then s.wake .serialRead else s
  | .usb usbActive =>
    let s := { s with usbActive, serialBytes := 0 }
    -- the queue is reset and a thread in it returns without data
    if s.serialRead = .reading ∧ .serialRead ∉ s.cpu.queue then
      State.wake .serialRead { s with serialRead := .resting }
    else s
  | .wake t => s.wake t
  | .act => act s
  | .block => s.sleep

/-- The calls a thread can be asleep in without waiting for a frame, a byte or a signal. -/
def State.Dozes (s : State) : Thread → Prop
  | .main => True
  | .canRead => s.canRead = .polling
  | .canProcess => s.canProcess.pc = .processing
  | .serialProcess => s.serialProcess.pc = .processing
  | .serialRead => s.serialRead = .asleep
  | .serialInit => s.serialInit.head? = some .usbStart
  | t => .create t ∉ s.main

/-- Before comm_can_init and in its loop the main thread may block. -/
def State.MayBlock (s : State) : Thread → Prop
  | .main => s.main = mainThread ∨ s.main = []
  | .canProcess => s.canProcess.pc = .processing
  | .serialProcess => s.serialProcess.pc = .processing
  | .canRead | .serialRead | .serialInit => False
  | _ => True

def Enabled (s : State) : Event → Prop
  | .frame => .canStart ∉ s.main
  | .bytes n => s.usbActive ∧ 0 < n
  | .usb _ => .usbStart ∉ s.serialInit
  | .wake t => s.Dozes t
  | .act => s.cpu.running ≠ none
  | .block => ∃ t, s.cpu.running = some t ∧ s.MayBlock t

/-- The processing thread has stored its handle when its reader signals it. -/
def SignalsThread (s : State) : Event → Prop
  | .act =>
    (s.cpu.running = some .canRead → s.canRead = .signalling →
      s.canProcess.processTp = some .canProcess) ∧
    (s.cpu.running = some .serialRead → s.serialRead = .signalling →
      s.serialProcess.processTp = some .serialProcess)
  | _ => True

/-- No frame interrupts between chEvtRegister in can_read_thread and the start of
can_process_thread, and serial_read_thread finds no byte the first time it reads. -/
def Undisturbed (s : State) : Event → Prop
  | .frame => s.canIrq → s.canRead ≠ .created → s.canProcess.processTp ≠ none
  | .act => s.cpu.running = some .serialRead → s.serialRead = .created → s.usbActive →
      s.serialBytes = 0
  | _ => True

section Processor

structure Processor.Sound (p : Processor) (tp : Thread) : Prop where
  first : p.processTp = none → p.pc = .created
  own : ∀ t, p.processTp = some t → t = tp

variable {p : Processor} {tp : Thread} {who whom : Thread → Prop}

theorem Processor.Sound.stored (h : p.Sound tp) (hp : p.processTp ≠ none) :
    p.processTp = some tp := by
  obtain ⟨t, ht⟩ := Option.ne_none_iff_exists'.mp hp
  rw [ht, h.own t ht]

theorem Processor.Sound.started (h : p.Sound tp) (hpc : p.pc ≠ .created) :
    p.processTp ≠ none := fun hnone => hpc (h.first hnone)

@[simp] theorem signal_process_tp (p : Processor) (cpu : Cpu Thread) :
    (p.signal cpu).1.processTp = p.processTp := by
  rw [Processor.signal]
  cases h : p.processTp <;> simp [h]

theorem Processor.Sound.signal (h : p.Sound tp) (cpu : Cpu Thread) :
    (p.signal cpu).1.Sound tp := by
  constructor
  · intro hnone
    rw [signal_process_tp] at hnone
    rw [Processor.signal, hnone]
    exact h.first hnone
  · intro t ht
    rw [signal_process_tp] at ht
    exact h.own t ht

theorem Processor.Sound.signal_moves (h : p.Sound tp) (htp : whom tp) (cpu : Cpu Thread) :
    cpu.Moves Thread.prio who whom (p.signal cpu).2 := by
  rw [Processor.signal]
  cases hstored : p.processTp with
  | none => exact .keep
  | some t =>
    rw [h.own t hstored]
    by_cases hw : p.pc = .waiting
    · simp only [if_pos hw]
      exact .wake htp
    · simp only [if_neg hw]
      exact .keep

theorem Processor.Sound.stores (h : p.Sound tp) (cpu : Cpu Thread) :
    (processThread tp p cpu).1.processTp = some tp := by
  have hstored (hpc : p.pc ≠ .created) : p.processTp = some tp := h.stored (h.started hpc)
  rw [processThread]
  cases hpc : p.pc with
  | created => rfl
  | waiting => cases hp : p.pending <;> exact hstored (hpc ▸ nofun)
  | processing => exact hstored (hpc ▸ nofun)

theorem Processor.Sound.thread (h : p.Sound tp) (cpu : Cpu Thread) :
    (processThread tp p cpu).1.Sound tp := by
  have hstores := h.stores cpu
  constructor
  · intro hnone
    exact absurd (hstores.symm.trans hnone) (Option.some_ne_none tp)
  · intro t ht
    exact (Option.some.inj (hstores.symm.trans ht)).symm

theorem process_thread_moves {cpu : Cpu Thread} (hr : cpu.running = some tp) (htp : who tp)
    (p : Processor) : cpu.Moves Thread.prio who whom (processThread tp p cpu).2 := by
  rw [processThread]
  cases hpc : p.pc with
  | waiting =>
    cases hp : p.pending
    · exact .sleep hr htp
    · exact .keep
  | _ => exact .keep

end Processor

section Phases

/-- Where serial_init_thread, serial_read_thread and serial_process_thread are while the last has
not run. -/
inductive SerialPhase (s : State) : Prop where
  | before (calls : List Call)
      (code : s.serialInit = calls ++ [.create .serialRead, .create .serialProcess])
      (others : ∀ t, .create t ∉ calls) (reader : s.serialRead = .created)
      (read : .serialRead ∉ s.cpu.queue) (process : .serialProcess ∉ s.cpu.queue)
  | reader (code : s.serialInit = [.create .serialProcess]) (reader : s.serialRead = .created)
      (process : .serialProcess ∉ s.cpu.queue) (order : s.cpu.Before .serialInit .serialRead)
  | both (code : s.serialInit = [])
      (reader : s.serialRead = .created ∨ s.serialRead = .resting)
      (order : s.cpu.Before .serialRead .serialProcess)
  | processor (code : s.serialInit = [])
      (reader : s.serialRead ≠ .created ∧ s.serialRead ≠ .signalling)
      (process : .serialProcess ∈ s.cpu.queue)
      (order : .serialRead ∈ s.cpu.queue → s.cpu.Before .serialProcess .serialRead)

def Thread.Serial (t : Thread) : Prop := t = .serialInit ∨ t = .serialRead ∨ t = .serialProcess

def Elsewhere (cpu cpu' : Cpu Thread) : Prop :=
  cpu.Moves Thread.prio (fun r => ¬ r.Serial) (fun t => t ≠ .serialRead ∧ t ≠ .serialProcess) cpu'

variable {s s' : State}

theorem SerialPhase.elsewhere (h : SerialPhase s) (ho : s.cpu.Ordered Thread.prio)
    (hcpu : Elsewhere s.cpu s'.cpu) (hinit : s'.serialInit = s.serialInit)
    (hread : s'.serialRead = s.serialRead) : SerialPhase s' := by
  have hserial (t : Thread) (ht : t.Serial) : ¬ ¬ t.Serial := not_not_intro ht
  have hreader := hcpu.mem ho (hserial .serialRead (Or.inr (Or.inl rfl))) fun h => h.1 rfl
  have hprocess := hcpu.mem ho (hserial .serialProcess (Or.inr (Or.inr rfl))) fun h => h.2 rfl
  cases h with
  | before calls code others reader read process =>
    exact .before calls (hinit.trans code) others (hread.trans reader)
      (fun h => read (hreader.mp h)) (fun h => process (hprocess.mp h))
  | reader code reader process order =>
    exact .reader (hinit.trans code) (hread.trans reader) (fun h => process (hprocess.mp h))
      (hcpu.before ho (hserial _ (Or.inl rfl)) order)
  | both code reader order =>
    exact .both (hinit.trans code) (hread ▸ reader)
      (hcpu.before ho (hserial _ (Or.inr (Or.inl rfl))) order)
  | processor code reader process order =>
    exact .processor (hinit.trans code) (hread ▸ reader) (hprocess.mpr process)
      fun h => hcpu.before ho (hserial _ (Or.inr (Or.inr rfl))) (order (hreader.mp h))

theorem SerialPhase.read_wakes (h : SerialPhase s) (ho : s.cpu.Ordered Thread.prio)
    (hwaits : s.serialRead = .reading ∨ s.serialRead = .asleep)
    (hcpu : s'.cpu = s.cpu.wake Thread.prio .serialRead) (hinit : s'.serialInit = s.serialInit)
    (hread : s'.serialRead ≠ .created ∧ s'.serialRead ≠ .signalling) : SerialPhase s' := by
  have hcreated : s.serialRead ≠ .created := by
    rcases hwaits with h | h <;> rw [h] <;> nofun
  have hresting : s.serialRead ≠ .resting := by
    rcases hwaits with h | h <;> rw [h] <;> nofun
  cases h with
  | before _ _ _ reader _ _ => exact absurd reader hcreated
  | reader _ reader _ _ => exact absurd reader hcreated
  | both _ reader _ => exact absurd reader (not_or.mpr ⟨hcreated, hresting⟩)
  | processor code _ process order =>
    refine .processor (hinit.trans code) hread ?_ fun _ => ?_
    · rw [hcpu]
      exact (mem_wake ho).mpr (Or.inr process)
    · rw [hcpu]
      by_cases hin : .serialRead ∈ s.cpu.queue
      · exact (order hin).wake ho
      · exact before_wake ho process hin le_rfl

/-- serial_init_thread creates the reader and then the processing thread without a break. -/
theorem SerialPhase.init_acts (h : SerialPhase s) (ho : s.cpu.Ordered Thread.prio)
    (hr : s.cpu.running = some .serialInit) : SerialPhase (act s) := by
  have hself : .serialInit ∈ s.cpu.queue := mem_running hr
  rw [act, hr]
  cases h with
  | before calls code others reader read process =>
    cases calls with
    | nil =>
      simp only [code, List.nil_append]
      refine .reader rfl reader (fun h => ?_) (before_create ho hr hself read le_rfl le_rfl)
      exact process (((mem_create hr).mp h).resolve_left nofun)
    | cons c calls =>
      simp only [code, List.cons_append]
      have hrest : ∀ t, .create t ∉ calls := fun t h => others t (List.mem_cons_of_mem _ h)
      have hasleep (t : Thread) (ht : t ∉ s.cpu.queue) : t ∉ s.cpu.sleep.queue :=
        fun h => ht ((mem_sleep ho hr).mp h).1
      cases c with
      | create t => exact absurd List.mem_cons_self (others t)
      | sleep => exact .before calls rfl hrest reader (hasleep _ read) (hasleep _ process)
      | canStart => exact .before calls rfl hrest reader read process
      | usbStart => exact .before calls rfl hrest reader read process
  | reader code reader process order =>
    simp only [code]
    exact .both rfl (Or.inl reader) (before_create ho hr order.right process le_rfl le_rfl)
  | both code reader order =>
    simp only [code]
    exact .both code reader (order.sleep hr nofun)
  | processor code reader process order =>
    simp only [code]
    refine .processor code reader ((mem_sleep ho hr).mpr ⟨process, nofun⟩) fun h => ?_
    exact (order ((mem_sleep ho hr).mp h).1).sleep hr nofun

/-- serial_read_thread runs before serial_process_thread only until it first waits, for a byte
or in chThdSleepMilliseconds. -/
theorem SerialPhase.read_acts (h : SerialPhase s) (ho : s.cpu.Ordered Thread.prio)
    (hr : s.cpu.running = some .serialRead)
    (hempty : s.serialRead = .created → s.usbActive → s.serialBytes = 0) :
    SerialPhase (act s) := by
  have hself : .serialRead ∈ s.cpu.queue := mem_running hr
  have hgone : .serialRead ∉ s.cpu.sleep.queue := fun h => ((mem_sleep ho hr).mp h).2 rfl
  rw [act, hr]
  cases h with
  | before _ _ _ _ read _ => exact absurd hself read
  | reader _ _ _ order => exact absurd hr (order.not_running ho)
  | processor _ _ _ order => exact absurd hr ((order hself).not_running ho)
  | both code reader order =>
    have hprocess : .serialProcess ∈ s.cpu.sleep.queue :=
      (mem_sleep ho hr).mpr ⟨order.right, nofun⟩
    rcases reader with hpc | hpc
    · simp only [serialReadThread, hpc]
      cases hactive : s.usbActive with
      | false => exact .both code (Or.inr rfl) order
      | true =>
        simp only [serialReadByte, hempty hpc hactive, if_true]
        exact .processor code ⟨nofun, nofun⟩ hprocess fun h => absurd h hgone
    · simp only [serialReadThread, hpc]
      exact .processor code ⟨nofun, nofun⟩ hprocess fun h => absurd h hgone

end Phases

section Steps

structure CanWaits (s : State) : Prop where
  event : s.canEvent = false
  reader : s.canRead = .created ∨ s.canRead = .polling

structure Invariant (s : State) : Prop where
  ordered : s.cpu.Ordered Thread.prio
  main : s.main <:+ mainThread
  canProcess : s.canProcess.Sound .canProcess
  serialProcess : s.serialProcess.Sound .serialProcess
  can : s.canProcess.processTp = none → CanWaits s
  serial : s.serialProcess.processTp = none → SerialPhase s
  begun : s.serialProcess.processTp ≠ none → s.serialRead ≠ .created

variable {s s' : State} {t : Thread}

theorem start_invariant : Invariant start where
  ordered := ⟨nofun, List.pairwise_singleton _ _, List.nodup_singleton _⟩
  main := List.suffix_rfl
  canProcess := ⟨fun _ => rfl, nofun⟩
  serialProcess := ⟨fun _ => rfl, nofun⟩
  can _ := ⟨rfl, Or.inl rfl⟩
  serial _ := .before [.sleep, .usbStart] rfl (by simp) rfl (by decide) (by decide)
  begun hstored := absurd rfl hstored

structure NoSerial (s s' : State) : Prop where
  cpu : Elsewhere s.cpu s'.cpu
  main : s'.main <:+ s.main
  init : s'.serialInit = s.serialInit
  read : s'.serialRead = s.serialRead
  process : s'.serialProcess = s.serialProcess

theorem Invariant.no_serial (h : Invariant s) (hs : NoSerial s s')
    (hprocess : s'.canProcess.Sound .canProcess)
    (hcan : s'.canProcess.processTp = none → CanWaits s') : Invariant s' where
  ordered := hs.cpu.ordered h.ordered
  main := hs.main.trans h.main
  canProcess := hprocess
  serialProcess := hs.process ▸ h.serialProcess
  can := hcan
  serial hnone := (h.serial (hs.process ▸ hnone)).elsewhere h.ordered hs.cpu hs.init hs.read
  begun hstored hcreated := h.begun (hs.process ▸ hstored) (hs.read ▸ hcreated)

theorem can_read_thread_no_serial (h : Invariant s) (hr : s.cpu.running = some .canRead) :
    NoSerial s (canReadThread s) := by
  have hsleep : Elsewhere s.cpu s.cpu.sleep := .sleep hr (by simp [Thread.Serial])
  rw [canReadThread]
  cases s.canRead with
  | created => exact ⟨.keep, List.suffix_rfl, rfl, rfl, rfl⟩
  | polling =>
    cases hevent : s.canEvent
    · exact ⟨hsleep, List.suffix_rfl, rfl, rfl, rfl⟩
    · exact ⟨.keep, List.suffix_rfl, rfl, rfl, rfl⟩
  | receiving =>
    by_cases hempty : s.canFrames = 0
    · simp only [if_pos hempty]
      exact ⟨.keep, List.suffix_rfl, rfl, rfl, rfl⟩
    · simp only [if_neg hempty]
      exact ⟨.keep, List.suffix_rfl, rfl, rfl, rfl⟩
  | signalling =>
    exact ⟨h.canProcess.signal_moves ⟨nofun, nofun⟩ s.cpu, List.suffix_rfl, rfl, rfl,
      rfl⟩

theorem can_read_thread_waits (h : CanWaits s) : CanWaits (canReadThread s) := by
  rw [canReadThread]
  rcases h.reader with hpc | hpc
  · simp only [hpc]
    exact ⟨h.event, Or.inr rfl⟩
  · simp only [hpc, h.event]
    exact ⟨h.event, Or.inr hpc⟩

theorem can_read_thread_process :
    (canReadThread s).canProcess = s.canProcess ∨
      (canReadThread s).canProcess = (s.canProcess.signal s.cpu).1 := by
  rw [canReadThread]
  cases s.canRead with
  | created => exact Or.inl rfl
  | polling => cases s.canEvent <;> exact Or.inl rfl
  | receiving => by_cases hempty : s.canFrames = 0 <;> simp [hempty]
  | signalling => exact Or.inr rfl

theorem can_read_acts (h : Invariant s) (hr : s.cpu.running = some .canRead) :
    Invariant (act s) := by
  rw [act, hr]
  have htp : (canReadThread s).canProcess.processTp = s.canProcess.processTp := by
    rcases can_read_thread_process with heq | heq <;> rw [heq]
    exact signal_process_tp _ _
  refine h.no_serial (can_read_thread_no_serial h hr) ?_ fun hnone => ?_
  · rcases can_read_thread_process with heq | heq <;> rw [heq]
    · exact h.canProcess
    · exact h.canProcess.signal s.cpu
  · exact can_read_thread_waits (h.can (htp ▸ hnone))

theorem can_process_acts (h : Invariant s) (hr : s.cpu.running = some .canProcess) :
    Invariant (act s) := by
  rw [act, hr]
  have hmoves : s.cpu.Moves Thread.prio (fun r => ¬ r.Serial)
      (fun t => t ≠ .serialRead ∧ t ≠ .serialProcess)
      (processThread .canProcess s.canProcess s.cpu).2 :=
    process_thread_moves hr (by simp [Thread.Serial]) s.canProcess
  refine h.no_serial ⟨hmoves, List.suffix_rfl, rfl, rfl, rfl⟩ (h.canProcess.thread s.cpu)
    fun hnone => ?_
  exact absurd ((h.canProcess.stores s.cpu).symm.trans hnone) (Option.some_ne_none _)

theorem main_acts (h : Invariant s) (hr : s.cpu.running = some .main) : Invariant (act s) := by
  have hother : ¬ Thread.Serial .main := by simp [Thread.Serial]
  cases hmain : s.main with
  | nil =>
    have hact : act s = s := by simp only [act, hr, hmain]
    rw [hact]
    exact h
  | cons c main =>
    have hmem : c ∈ mainThread := h.main.subset (hmain ▸ List.mem_cons_self)
    have hrest : main <:+ s.main := hmain ▸ List.suffix_cons c main
    have hact : act s = State.call { s with main } c := by simp only [act, hr, hmain]
    rw [hact]
    cases c with
    | canStart =>
      exact h.no_serial ⟨.keep, hrest, rfl, rfl, rfl⟩ h.canProcess fun hnone =>
        ⟨(h.can hnone).event, (h.can hnone).reader⟩
    | sleep => exact absurd hmem (by decide)
    | usbStart => exact absurd hmem (by decide)
    | create t =>
      have ht : t ≠ .serialRead ∧ t ≠ .serialProcess := by
        constructor <;> intro heq <;> rw [heq] at hmem <;> exact absurd hmem (by decide)
      exact h.no_serial ⟨.create hr hother ht, hrest, rfl, rfl, rfl⟩ h.canProcess fun hnone =>
        ⟨(h.can hnone).event, (h.can hnone).reader⟩

structure NoCan (s s' : State) : Prop where
  main : s'.main = s.main
  event : s'.canEvent = s.canEvent
  read : s'.canRead = s.canRead
  process : s'.canProcess = s.canProcess

theorem Invariant.no_can (h : Invariant s) (hs : NoCan s s')
    (ho : s'.cpu.Ordered Thread.prio) (hprocess : s'.serialProcess.Sound .serialProcess)
    (hserial : s'.serialProcess.processTp = none → SerialPhase s')
    (hbegun : s'.serialProcess.processTp ≠ none → s'.serialRead ≠ .created) : Invariant s' where
  ordered := ho
  main := hs.main ▸ h.main
  canProcess := hs.process ▸ h.canProcess
  serialProcess := hprocess
  can hnone := by
    obtain ⟨hevent, hreader⟩ := h.can (hs.process ▸ hnone)
    exact ⟨hs.event.trans hevent, hs.read ▸ hreader⟩
  serial := hserial
  begun := hbegun

theorem serial_init_acts (h : Invariant s) (hr : s.cpu.running = some .serialInit) :
    Invariant (act s) := by
  have hphase (hnone : s.serialProcess.processTp = none) : SerialPhase (act s) :=
    (h.serial hnone).init_acts h.ordered hr
  cases hinit : s.serialInit with
  | nil =>
    have hact : act s = s.sleep := by simp only [act, hr, hinit]
    rw [hact] at hphase ⊢
    exact h.no_can ⟨rfl, rfl, rfl, rfl⟩ (h.ordered.sleep hr) h.serialProcess hphase h.begun
  | cons c serialInit =>
    have hact : act s = State.call { s with serialInit } c := by simp only [act, hr, hinit]
    rw [hact] at hphase ⊢
    cases c with
    | sleep =>
      exact h.no_can ⟨rfl, rfl, rfl, rfl⟩ (h.ordered.sleep hr) h.serialProcess hphase h.begun
    | create t =>
      exact h.no_can ⟨rfl, rfl, rfl, rfl⟩ (h.ordered.create hr) h.serialProcess hphase h.begun
    | canStart | usbStart =>
      exact h.no_can ⟨rfl, rfl, rfl, rfl⟩ h.ordered h.serialProcess hphase h.begun

structure SerialReads (s s' : State) : Prop where
  can : NoCan s s'
  cpu : s.cpu.Moves Thread.prio (fun _ => True) (fun _ => True) s'.cpu
  process : s'.serialProcess = s.serialProcess ∨
    s'.serialProcess = (s.serialProcess.signal s.cpu).1
  begun : s'.serialRead ≠ .created

theorem serial_read_thread_reads (h : Invariant s) (hr : s.cpu.running = some .serialRead) :
    SerialReads s (serialReadThread s) := by
  have hbyte : SerialReads s (serialReadByte s) := by
    rw [serialReadByte]
    by_cases hempty : s.serialBytes = 0
    · rw [if_pos hempty]
      exact ⟨⟨rfl, rfl, rfl, rfl⟩, .sleep hr trivial, Or.inl rfl, nofun⟩
    · rw [if_neg hempty]
      exact ⟨⟨rfl, rfl, rfl, rfl⟩, .keep, Or.inl rfl, nofun⟩
  rw [serialReadThread]
  cases s.serialRead with
  | created | asleep =>
    cases hactive : s.usbActive
    · exact ⟨⟨rfl, rfl, rfl, rfl⟩, .keep, Or.inl rfl, nofun⟩
    · exact hbyte
  | reading => exact hbyte
  | signalling =>
    exact ⟨⟨rfl, rfl, rfl, rfl⟩, h.serialProcess.signal_moves trivial s.cpu, Or.inr rfl,
      nofun⟩
  | resting => exact ⟨⟨rfl, rfl, rfl, rfl⟩, .sleep hr trivial, Or.inl rfl, nofun⟩

theorem serial_read_acts (h : Invariant s) (hr : s.cpu.running = some .serialRead)
    (hempty : s.serialRead = .created → s.usbActive → s.serialBytes = 0) :
    Invariant (act s) := by
  have hact : act s = serialReadThread s := by simp only [act, hr]
  have hphase (hnone : s.serialProcess.processTp = none) : SerialPhase (act s) :=
    (h.serial hnone).read_acts h.ordered hr hempty
  obtain ⟨hcan, hcpu, hprocess, hbegun⟩ := serial_read_thread_reads h hr
  rw [hact] at hphase ⊢
  refine h.no_can hcan (hcpu.ordered h.ordered) ?_ (fun hnone => hphase ?_) fun _ => hbegun
  · rcases hprocess with heq | heq <;> rw [heq]
    · exact h.serialProcess
    · exact h.serialProcess.signal s.cpu
  · rcases hprocess with heq | heq <;> rw [heq] at hnone
    · exact hnone
    · exact (signal_process_tp _ _).symm.trans hnone

theorem serial_process_begun (h : Invariant s) (hr : s.cpu.running = some .serialProcess) :
    s.serialRead ≠ .created := by
  have hself : .serialProcess ∈ s.cpu.queue := mem_running hr
  by_cases hnone : s.serialProcess.processTp = none
  · cases h.serial hnone with
    | before _ _ _ _ _ process => exact absurd hself process
    | reader _ _ process _ => exact absurd hself process
    | both _ _ order => exact absurd hr (order.not_running h.ordered)
    | processor _ reader _ _ => exact reader.1
  · exact h.begun hnone

theorem serial_process_acts (h : Invariant s) (hr : s.cpu.running = some .serialProcess) :
    Invariant (act s) := by
  have hmoves : s.cpu.Moves Thread.prio (fun _ => True) (fun _ => True)
      (processThread .serialProcess s.serialProcess s.cpu).2 :=
    process_thread_moves hr trivial s.serialProcess
  have hbegun := serial_process_begun h hr
  rw [act, hr]
  refine h.no_can ⟨rfl, rfl, rfl, rfl⟩ (hmoves.ordered h.ordered)
    (h.serialProcess.thread s.cpu) (fun hnone => ?_) fun _ => hbegun
  exact absurd ((h.serialProcess.stores s.cpu).symm.trans hnone) (Option.some_ne_none _)

theorem act_preserves_invariant (h : Invariant s) (hquiet : Undisturbed s .act) :
    Invariant (act s) := by
  cases hr : s.cpu.running with
  | none =>
    have hact : act s = s := by simp only [act, hr]
    rwa [hact]
  | some t =>
    cases t with
    | main => exact main_acts h hr
    | canRead => exact can_read_acts h hr
    | canProcess => exact can_process_acts h hr
    | serialInit => exact serial_init_acts h hr
    | serialRead => exact serial_read_acts h hr (hquiet hr)
    | serialProcess => exact serial_process_acts h hr
    | buzzerUpdate | ledUpdate | packetTimeout =>
      have hact : act s = s := by simp only [act, hr]
      rwa [hact]

theorem frame_preserves_invariant (h : Invariant s) (hquiet : Undisturbed s .frame) :
    Invariant (next s .frame) := by
  rw [next]
  cases hirq : s.canIrq with
  | false =>
    simp only [Bool.false_eq_true, if_false]
    exact h.no_serial ⟨.keep, List.suffix_rfl, rfl, rfl, rfl⟩ h.canProcess fun hnone =>
      ⟨(h.can hnone).event, (h.can hnone).reader⟩
  | true =>
    simp only [if_true, canLldRx0Handler]
    by_cases hcreated : s.canRead = .created
    · rw [if_pos hcreated]
      exact h.no_serial ⟨.keep, List.suffix_rfl, rfl, rfl, rfl⟩ h.canProcess fun hnone =>
        ⟨(h.can hnone).event, (h.can hnone).reader⟩
    · rw [if_neg hcreated]
      exact h.no_serial ⟨.wake ⟨nofun, nofun⟩, List.suffix_rfl, rfl, rfl, rfl⟩ h.canProcess
        fun hnone => absurd hnone (hquiet hirq hcreated)

theorem bytes_preserves_invariant (h : Invariant s) (n : ℕ) : Invariant (next s (.bytes n)) := by
  rw [next]
  by_cases hreading : s.serialRead = .reading
  · have hread : SerialReadPc.reading ≠ .created ∧ SerialReadPc.reading ≠ .signalling :=
      ⟨nofun, nofun⟩
    simp only [hreading, if_true]
    exact h.no_can ⟨rfl, rfl, rfl, rfl⟩ h.ordered.wake h.serialProcess
      (fun hnone => (h.serial hnone).read_wakes h.ordered (Or.inl hreading) rfl rfl hread)
      fun _ => hread.1
  · simp only [hreading, if_false]
    exact h.no_can ⟨rfl, rfl, rfl, rfl⟩ h.ordered h.serialProcess
      (fun hnone => (h.serial hnone).elsewhere h.ordered .keep rfl rfl) h.begun

theorem usb_preserves_invariant (h : Invariant s) (active : Bool) :
    Invariant (next s (.usb active)) := by
  rw [next]
  by_cases hreading : s.serialRead = .reading ∧ .serialRead ∉ s.cpu.queue
  · simp only [hreading, not_false_eq_true, and_self, if_true]
    exact h.no_can ⟨rfl, rfl, rfl, rfl⟩ h.ordered.wake h.serialProcess
      (fun hnone => (h.serial hnone).read_wakes h.ordered (Or.inl hreading.1) rfl rfl
        ⟨nofun, nofun⟩)
      fun _ => nofun
  · simp only [hreading, if_false]
    exact h.no_can ⟨rfl, rfl, rfl, rfl⟩ h.ordered h.serialProcess
      (fun hnone => (h.serial hnone).elsewhere h.ordered .keep rfl rfl) h.begun

theorem wake_preserves_invariant (h : Invariant s) (hd : s.Dozes t) :
    Invariant (next s (.wake t)) := by
  refine ⟨h.ordered.wake, h.main, h.canProcess, h.serialProcess,
    fun hnone => ⟨(h.can hnone).event, (h.can hnone).reader⟩, fun hnone => ?_, h.begun⟩
  have hphase := h.serial hnone
  by_cases hread : t = .serialRead
  · subst hread
    have hasleep : s.serialRead = .asleep := hd
    have hread : s.serialRead ≠ .created ∧ s.serialRead ≠ .signalling := by
      rw [hasleep]
      exact ⟨nofun, nofun⟩
    exact hphase.read_wakes h.ordered (Or.inr hasleep) rfl rfl hread
  · by_cases hprocess : t = .serialProcess
    · subst hprocess
      exact nomatch (h.serialProcess.first hnone).symm.trans hd
    · exact hphase.elsewhere h.ordered (.wake ⟨hread, hprocess⟩) rfl rfl

theorem block_preserves_invariant (h : Invariant s) (hr : s.cpu.running = some t)
    (hb : s.MayBlock t) : Invariant (next s .block) := by
  refine ⟨h.ordered.sleep hr, h.main, h.canProcess, h.serialProcess,
    fun hnone => ⟨(h.can hnone).event, (h.can hnone).reader⟩, fun hnone => ?_, h.begun⟩
  by_cases hserial : t.Serial
  · rcases hserial with rfl | rfl | rfl
    · exact hb.elim
    · exact hb.elim
    · exact nomatch (h.serialProcess.first hnone).symm.trans hb
  · exact (h.serial hnone).elsewhere h.ordered (.sleep hr hserial) rfl rfl

theorem step_preserves_invariant {e : Event} (h : Invariant s) (he : Enabled s e)
    (hquiet : Undisturbed s e) : Invariant (next s e) := by
  cases e with
  | frame => exact frame_preserves_invariant h hquiet
  | bytes n => exact bytes_preserves_invariant h n
  | usb active => exact usb_preserves_invariant h active
  | wake t => exact wake_preserves_invariant h he
  | act => exact act_preserves_invariant h hquiet
  | block =>
    obtain ⟨t, hr, hb⟩ := he
    exact block_preserves_invariant h hr hb

theorem Invariant.signals_thread {e : Event} (h : Invariant s) : SignalsThread s e := by
  cases e with
  | act =>
    constructor
    · intro _ hpc
      refine h.canProcess.stored fun hnone => ?_
      rcases (h.can hnone).reader with hreader | hreader <;> exact nomatch hpc.symm.trans hreader
    · intro _ hpc
      refine h.serialProcess.stored fun hnone => ?_
      cases h.serial hnone with
      | before _ _ _ reader _ _ => exact nomatch hpc.symm.trans reader
      | reader _ reader _ _ => exact nomatch hpc.symm.trans reader
      | both _ reader _ =>
        rcases reader with reader | reader <;> exact nomatch hpc.symm.trans reader
      | processor _ reader _ _ => exact reader.2 hpc
  | _ => trivial

end Steps

section Disturbances

variable {s : State}

/-- The running thread has been left to itself until it signals no thread. -/
def SignalsNull (s : State) (acts : List Event) : Prop :=
  Runs.Always next Enabled s acts ∧ ¬ Runs.Always next SignalsThread s acts

theorem signals_null_cons {e : Event} {acts : List Event} (he : Enabled s e)
    (h : SignalsNull (next s e) acts) : SignalsNull s (e :: acts) :=
  ⟨⟨he, h.1⟩, fun hall => h.2 hall.2⟩

theorem act_enabled {t : Thread} (hr : s.cpu.running = some t) : Enabled s .act := by
  rw [Enabled, hr]
  nofun

theorem can_read_runs (ho : s.cpu.Ordered Thread.prio) (h : .canRead ∈ s.cpu.queue) :
    s.cpu.running = some .canRead := by
  refine ho.top_runs h fun t ht => ?_
  cases t with
  | canRead => exact absurd rfl ht
  | _ => decide

theorem event_signals_null (hr : s.cpu.running = some .canRead) (hpc : s.canRead = .polling)
    (hevent : s.canEvent = true) (hframe : s.canFrames ≠ 0)
    (hnone : s.canProcess.processTp = none) : SignalsNull s [.act, .act, .act] := by
  have hreceiving : act s = { s with canEvent := false, canRead := .receiving } := by
    simp only [act, hr, canReadThread, hpc, hevent, if_true]
  have hr' : (act s).cpu.running = some .canRead := by rw [hreceiving, hr]
  have hsignalling : (act (act s)).cpu = s.cpu ∧ (act (act s)).canRead = .signalling ∧
      (act (act s)).canProcess = s.canProcess := by
    rw [hreceiving]
    simp [act, hr, canReadThread, hframe]
  obtain ⟨hcpu, hpc'', hprocess⟩ := hsignalling
  have hr'' : (act (act s)).cpu.running = some .canRead := by rw [hcpu, hr]
  refine signals_null_cons (act_enabled hr) (signals_null_cons (act_enabled hr')
    ⟨⟨act_enabled hr'', trivial⟩, fun hall => ?_⟩)
  have hstored : (act (act s)).canProcess.processTp = some .canProcess := hall.1.1 hr'' hpc''
  rw [hprocess, hnone] at hstored
  nomatch hstored

theorem frame_signals_null (h : Invariant s) (he : Enabled s .frame)
    (hd : ¬ Undisturbed s .frame) : SignalsNull s [.frame, .act, .act, .act] := by
  obtain ⟨hirq, hcreated, hnone⟩ : s.canIrq = true ∧ s.canRead ≠ .created ∧
      s.canProcess.processTp = none := by
    simpa only [Undisturbed, Classical.not_imp, not_not] using hd
  have hpc : s.canRead = .polling := (h.can hnone).reader.resolve_left hcreated
  have hnext : next s .frame = State.wake .canRead
      { s with canFrames := min 3 (s.canFrames + 1), canIrq := false, canEvent := true } := by
    simp only [next, hirq, if_true, canLldRx0Handler, if_neg hcreated]
  have hcpu : (next s .frame).cpu = s.cpu.wake Thread.prio .canRead := by
    rw [hnext]
    rfl
  have hr : (next s .frame).cpu.running = some .canRead := by
    apply can_read_runs
    · rw [hcpu]
      exact h.ordered.wake
    · rw [hcpu]
      exact (mem_wake h.ordered).mpr (Or.inl rfl)
  refine signals_null_cons he (event_signals_null hr ?_ ?_ ?_ ?_) <;> rw [hnext]
  · exact hpc
  · rfl
  · change min 3 (s.canFrames + 1) ≠ 0
    omega
  · exact hnone

theorem byte_signals_null (h : Invariant s) (hd : ¬ Undisturbed s .act) :
    SignalsNull s [.act, .act] := by
  obtain ⟨hr, hpc, hactive, hbytes⟩ : s.cpu.running = some .serialRead ∧
      s.serialRead = .created ∧ s.usbActive = true ∧ s.serialBytes ≠ 0 := by
    simpa only [Undisturbed, Classical.not_imp] using hd
  have hnone : s.serialProcess.processTp = none := by
    by_contra hstored
    exact h.begun hstored hpc
  have hact : act s =
      { s with serialBytes := s.serialBytes - 1, serialRead := .signalling } := by
    simp only [act, hr, serialReadThread, hpc, hactive, if_true, serialReadByte, if_neg hbytes]
  refine signals_null_cons (act_enabled hr) ?_
  rw [next, hact]
  refine ⟨⟨act_enabled hr, trivial⟩, fun hall => ?_⟩
  have hstored : s.serialProcess.processTp = some .serialProcess := hall.1.2 hr rfl
  rw [hnone] at hstored
  nomatch hstored

theorem disturbance_signals_null {e : Event} (h : Invariant s) (he : Enabled s e)
    (hd : ¬ Undisturbed s e) : ∃ n, SignalsNull s (e :: List.replicate n .act) := by
  cases e with
  | frame => exact ⟨3, frame_signals_null h he hd⟩
  | act => exact ⟨1, byte_signals_null h hd⟩
  | _ => exact absurd trivial hd

end Disturbances

section Schedules

instance decidableDozes (s : State) : (t : Thread) → Decidable (s.Dozes t)
  | .main => isTrue trivial
  | .canRead | .canProcess | .serialProcess | .serialRead | .serialInit =>
    inferInstanceAs (Decidable (_ = _))
  | .buzzerUpdate | .ledUpdate | .packetTimeout => inferInstanceAs (Decidable (_ ∉ _))

instance decidableMayBlock (s : State) : (t : Thread) → Decidable (s.MayBlock t)
  | .main => inferInstanceAs (Decidable (_ ∨ _))
  | .canProcess | .serialProcess => inferInstanceAs (Decidable (_ = _))
  | .canRead | .serialRead | .serialInit => isFalse id
  | .buzzerUpdate | .ledUpdate | .packetTimeout => isTrue trivial

instance decidableEnabled (s : State) : (e : Event) → Decidable (Enabled s e)
  | .frame | .usb _ => inferInstanceAs (Decidable (_ ∉ _))
  | .bytes _ => inferInstanceAs (Decidable (_ ∧ _))
  | .wake t => inferInstanceAs (Decidable (s.Dozes t))
  | .act => inferInstanceAs (Decidable (_ ≠ _))
  | .block =>
    match hr : s.cpu.running with
    | none => isFalse fun ⟨_, h, _⟩ => nomatch hr.symm.trans h
    | some t => decidable_of_iff (s.MayBlock t)
        ⟨fun h => ⟨t, hr, h⟩, fun ⟨_, h, hb⟩ => Option.some.inj (hr.symm.trans h) ▸ hb⟩

instance decidableSignalsThread (s : State) : (e : Event) → Decidable (SignalsThread s e)
  | .act => inferInstanceAs (Decidable ((_ → _ → _) ∧ (_ → _ → _)))
  | .frame | .bytes _ | .usb _ | .wake _ | .block => isTrue trivial

instance decidableUndisturbed (s : State) : (e : Event) → Decidable (Undisturbed s e)
  | .frame => inferInstanceAs (Decidable (_ → _ → _))
  | .act => inferInstanceAs (Decidable (_ → _ → _ → _))
  | .bytes _ | .usb _ | .wake _ | .block => isTrue trivial

structure Schedule where
  events : List Event
  legal : Runs.Always next Enabled start events

/-- In every undisturbed schedule each signal finds the thread it is for. -/
theorem signals_started_threads (σ : Schedule)
    (hquiet : Runs.Always next Undisturbed start σ.events) :
    Runs.Always next SignalsThread start σ.events := by
  refine Runs.always_of_invariant (fun s e h he hq => ?_) start_invariant σ.legal hquiet
  exact ⟨h.signals_thread, step_preserves_invariant h he hq⟩

/-- All threads get to their loops, and then a frame and a byte come. -/
def quietStart : Schedule where
  events :=
    [.act, .act, .act, .act, .act, .act, .act, .act, .act, .block, .act, .act, .block, .block,
      .act, .block, .wake .serialInit, .act, .usb true, .act, .act, .act, .act, .act, .act,
      .frame, .act, .act, .act, .act, .act, .act, .act, .act, .bytes 1, .act, .act]
  legal := by decide

theorem signals_started_threads_quiet :
    Runs.Always next SignalsThread start quietStart.events :=
  signals_started_threads quietStart (by decide)

/-- No weaker condition will do: after the first disturbance the threads only have to go on. -/
theorem disturbed_signals_null (σ : Schedule) (hquiet : Runs.Always next Undisturbed start σ.events)
    {e : Event} (he : Enabled (σ.events.foldl next start) e)
    (hd : ¬ Undisturbed (σ.events.foldl next start) e) :
    ∃ n, ∃ τ : Schedule, τ.events = σ.events ++ e :: List.replicate n .act ∧
      ¬ Runs.Always next SignalsThread start τ.events := by
  have h : Invariant (σ.events.foldl next start) :=
    Runs.invariant_after (fun _ _ => step_preserves_invariant) start_invariant σ.legal hquiet
  obtain ⟨n, hlegal, hnull⟩ := disturbance_signals_null h he hd
  refine ⟨n, ⟨_, Runs.always_append.mpr ⟨σ.legal, hlegal⟩⟩, rfl, fun hall => ?_⟩
  exact hnull (Runs.always_append.mp hall).2

/-- The host has configured the USB device and sent a byte before serial_read_thread runs. -/
example : ∃ σ : Schedule, Runs.Always next Undisturbed start σ.events ∧
    Enabled (σ.events.foldl next start) .act ∧
      ¬ Undisturbed (σ.events.foldl next start) .act := by
  refine ⟨⟨[.act, .act, .act, .act, .act, .act, .act, .act, .act, .block, .act, .act, .block,
    .block, .act, .block, .wake .serialInit, .act, .usb true, .bytes 1, .act, .act, .act], ?_⟩,
    ?_, ?_, ?_⟩ <;> decide

/-- The bus is not silent while the board boots. -/
def busyBus : Schedule where
  events := [.act, .act, .act, .act, .frame, .act, .act, .act]
  legal := by decide

theorem frame_before_process_thread :
    ¬ ∀ σ : Schedule, Runs.Always next SignalsThread start σ.events := by
  intro h
  exact absurd (h busyBus) (by decide)

end Schedules

end Battman.StartUp
