import Mathlib.Data.Stream.Init
import Bcm2837.GpioDriver
import Bcm2837.I2cDriver
import Bcm2837.InterruptDriver

/-!
# The surroundings of an I2C transport

The three transports share one interface to the outside: the register blocks, the
status word seam, the caller's memory, the transfer record `m_xfer`, completion
callbacks, interrupts and the kernel. `Cmd` lists what they can do there, `World`
is a state of it. The BSC block is a parameter `δ`, so the same transport code
runs over plain storage and over a model of the controller. Whatever the
environment chooses (status words, interrupts, callback bodies, kernel replies)
comes from streams that statements quantify over.
-/
namespace Bcm2837

/-- An address in the caller's memory; 0 is the null pointer. -/
abbrev Ptr := ℕ

abbrev nullptr : Ptr := 0

/-- A completion callback, by its address. -/
abbrev Completion := Ptr

/-- Outcome of an I2C transfer. -/
inductive I2cResult
  | ok | badArg | timeout | nack | clockTimeout
  deriving DecidableEq

/-- The transfer record shared by the thread and the interrupt handler. -/
structure Xfer where
  tx : Ptr := nullptr
  tn : ℕ := 0
  ti : ℕ := 0
  rx : Ptr := nullptr
  rn : ℕ := 0
  ri : ℕ := 0
  reading : Bool := false
  done : Bool := false
  result : I2cResult := .timeout
  cb : Completion := nullptr
  user : Ptr := nullptr
  active : Bool := false
  deriving DecidableEq

/-- Assignments to the record; `fresh` is `m_xfer = Xfer{}`. -/
inductive Assign
  | fresh
  | tx (p : Ptr) | tn (n : ℕ) | ti (n : ℕ)
  | rx (p : Ptr) | rn (n : ℕ) | ri (n : ℕ)
  | reading (b : Bool) | done (b : Bool) | result (r : I2cResult)
  | cb (c : Completion) | user (p : Ptr) | active (b : Bool)
  deriving DecidableEq

def Assign.apply : Assign → Xfer → Xfer
  | fresh, _ => {}
  | tx p, x => { x with tx := p }
  | tn n, x => { x with tn := n }
  | ti n, x => { x with ti := n }
  | rx p, x => { x with rx := p }
  | rn n, x => { x with rn := n }
  | ri n, x => { x with ri := n }
  | reading b, x => { x with reading := b }
  | done b, x => { x with done := b }
  | result r, x => { x with result := r }
  | cb c, x => { x with cb := c }
  | user p, x => { x with user := p }
  | active b, x => { x with active := b }

/-- A call of one of the asynchronous entry points. -/
inductive AsyncCall
  | writeAsync (addr : Byte) (buf : Ptr) (len : ℕ) (cb : Completion) (user : Ptr)
  | readAsync (addr : Byte) (buf : Ptr) (len : ℕ) (cb : Completion) (user : Ptr)
  deriving DecidableEq

/-- What one invocation of a callback does: asynchronous calls, each chosen by the
results of those before it, and then a return. -/
abbrev CallbackBody := Prog AsyncCall (fun _ => I2cResult) Unit

/-- One message of a combined kernel transaction. -/
structure I2cMsg where
  addr : BitVec 16
  isRead : Bool
  len : BitVec 16
  buf : Ptr
  deriving DecidableEq

/-- Error numbers that the transport tells apart. -/
inductive Errno
  | enxio | eremoteio | other (n : ℕ)
  deriving DecidableEq

/-- The kernel's reply: an error, or the bytes it received from the slave. -/
abbrev IoctlReply := Except Errno (List Byte)

/-- Function pointers that reach the interrupt driver. -/
inductive Isr
  | dispatchTrampoline | bscIsrTrampoline
  deriving DecidableEq

/-- Everything a transport does outside its own variables. -/
inductive Cmd
  | bsc (a : Access Bsc.Register Word)
  | gpio (a : Access Gpio.Register Word)
  | irq (c : Interrupt.Cmd Isr)
  | status
  | loadByte (p : Ptr)
  | storeByte (p : Ptr) (b : Byte)
  | localArray (bs : List Byte)
  | xfer
  | assign (a : Assign)
  | enter (cb : Completion) (r : I2cResult) (user : Ptr)
  | interrupts
  | returned (c : AsyncCall) (r : I2cResult)
  | ioctl (msgs : List I2cMsg)

def Cmd.Ans : Cmd → Type
  | bsc a => a.Ans
  | gpio a => a.Ans
  | irq c => c.Ans
  | status => Word
  | loadByte _ => Byte
  | storeByte _ _ => Unit
  | localArray _ => Ptr
  | xfer => Xfer
  | assign _ => Unit
  | enter _ _ _ => CallbackBody
  | interrupts => ℕ
  | returned _ _ => Unit
  | ioctl _ => IoctlReply

/-- Transport code. -/
abbrev TransportM := Prog Cmd Cmd.Ans

/-- A state of a transport's surroundings over a BSC block in state `δ`. -/
structure World (δ : Type) where
  dev : δ
  gpio : Gpio.Register → Word
  irq : Interrupt.Controller Isr
  xfer : Xfer := {}
  mem : Ptr → Byte
  /-- Where the callee's local arrays are placed. -/
  frame : ℕ
  words : Stream' Word
  interrupts : Stream' ℕ
  bodies : Stream' CallbackBody
  replies : Stream' IoctlReply

/-- Bytes `bs` written at `p`. -/
def place (mem : Ptr → Byte) (p : Ptr) (bs : List Byte) : Ptr → Byte :=
  fun q => if p ≤ q then bs.getD (q - p) (mem q) else mem q

theorem place_outside (mem : Ptr → Byte) (bs : List Byte) {p q : ℕ}
    (hq : q < p ∨ p + bs.length ≤ q) : place mem p bs q = mem q := by
  unfold place
  split_ifs with h
  · have hle : p ≤ q := h
    have hlen : bs.length ≤ q - p := by omega
    rw [List.getD_eq_getElem?_getD, List.getElem?_eq_none hlen]
    rfl
  · rfl

/-- Writing one byte more. -/
theorem place_append (mem : Ptr → Byte) (bs : List Byte) (b : Byte) (p : ℕ) :
    place mem p (bs ++ [b]) = Function.update (place mem p bs) (p + bs.length) b := by
  funext q
  have hq : ∀ r : ℕ, place mem p (bs ++ [b]) r =
      Function.update (place mem p bs) (p + bs.length) b r := by
    intro r
    by_cases hr : r = p + bs.length
    · have hle : p ≤ r := by omega
      subst hr
      rw [Function.update_self, place, if_pos hle]
      simp
    · rw [Function.update_of_ne hr]
      unfold place
      split_ifs with hle
      · have hle' : p ≤ r := hle
        rcases Nat.lt_or_ge (r - p) bs.length with hlt | hge
        · rw [List.getD_eq_getElem?_getD, List.getElem?_append_left hlt,
            ← List.getD_eq_getElem?_getD]
        · have hlong : (bs ++ [b]).length ≤ r - p := by
            rw [List.length_append, List.length_singleton]
            omega
          rw [List.getD_eq_getElem?_getD, List.getD_eq_getElem?_getD,
            List.getElem?_eq_none hge, List.getElem?_eq_none hlong]
      · rfl
  exact hq q

/-- The kernel stores what it received into the buffers of the read messages. -/
def deliver (msgs : List I2cMsg) (reply : IoctlReply) (mem : Ptr → Byte) : Ptr → Byte :=
  match reply with
  | .error _ => mem
  | .ok data => msgs.foldl
      (fun mem m => if m.isRead then place mem m.buf (data.take m.len.toNat) else mem) mem

/-- A BSC block: how it takes accesses, and what the status seam shows of it when
the environment offers a word. -/
structure Device (δ : Type) where
  access : Prog.Handler (Access Bsc.Register Word) Access.Ans δ
  view : Word → δ → Word

/-- The block as plain storage, its status word left to the environment. -/
def Device.plain : Device (Bsc.Register → Word) := ⟨Access.storage, fun word _ => word⟩

variable {δ : Type}

/-- Surroundings after power-on: all registers and memory zero, a status word that
never changes, no interrupt while a thread waits, callbacks that return at once. -/
def World.powerOn (dev : δ) (word : Word) : World δ where
  dev := dev
  gpio := fun _ => 0
  irq := ⟨fun _ => 0, fun _ => 0, Interrupt.IVT.empty⟩
  mem := fun _ => 0
  frame := 0
  words := Stream'.const word
  interrupts := Stream'.const 0
  bodies := Stream'.const (Prog.ret ())
  replies := Stream'.const (.ok [])

/-- The status word the environment shows next. -/
def World.word (d : Device δ) (w : World δ) : Word := d.view w.words.head w.dev

/-- The surroundings once that word has been read. -/
def World.next (w : World δ) : World δ := { w with words := w.words.tail }

@[simp] theorem World.next_xfer (w : World δ) : w.next.xfer = w.xfer := rfl
@[simp] theorem World.next_dev (w : World δ) : w.next.dev = w.dev := rfl
@[simp] theorem World.next_mem (w : World δ) : w.next.mem = w.mem := rfl

/-- The surroundings in action. -/
def world (d : Device δ) : Prog.Handler Cmd Cmd.Ans (World δ)
  | .bsc a, w => ((d.access a w.dev).1, { w with dev := (d.access a w.dev).2 })
  | .gpio a, w => ((Access.storage a w.gpio).1, { w with gpio := (Access.storage a w.gpio).2 })
  | .irq c, w =>
    ((Interrupt.storage (fun _ c => c) c w.irq).1,
      { w with irq := (Interrupt.storage (fun _ c => c) c w.irq).2 })
  | .status, w => (w.word d, w.next)
  | .loadByte p, w => (w.mem p, w)
  | .storeByte p b, w => ((), { w with mem := Function.update w.mem p b })
  | .localArray bs, w => (w.frame + 1, { w with mem := place w.mem (w.frame + 1) bs })
  | .xfer, w => (w.xfer, w)
  | .assign a, w => ((), { w with xfer := a.apply w.xfer })
  | .enter _ _ _, w => (w.bodies.head, { w with bodies := w.bodies.tail })
  | .interrupts, w => (w.interrupts.head, { w with interrupts := w.interrupts.tail })
  | .returned _ _, w => ((), w)
  | .ioctl msgs, w =>
    (w.replies.head,
      { w with replies := w.replies.tail, mem := deliver msgs w.replies.head w.mem })

/-! ## Commands as code writes them -/

def i2c {α : Type} (p : I2c.Io α) : TransportM α := p.lift Cmd.bsc fun _ a => a

def gpio {α : Type} (p : Gpio.Io α) : TransportM α := p.lift Cmd.gpio fun _ a => a

def irq {α : Type} (p : Interrupt.Io Isr α) : TransportM α := p.lift Cmd.irq fun _ a => a

def readStatus : TransportM Word := Prog.call Cmd.status Prog.ret
def loadByte (p : Ptr) : TransportM Byte := Prog.call (Cmd.loadByte p) Prog.ret
def storeByte (p : Ptr) (b : Byte) : TransportM Unit := Prog.call (Cmd.storeByte p b) Prog.ret
def localArray (bs : List Byte) : TransportM Ptr := Prog.call (Cmd.localArray bs) Prog.ret
def xfer : TransportM Xfer := Prog.call Cmd.xfer Prog.ret
def assign (a : Assign) : TransportM Unit := Prog.call (Cmd.assign a) Prog.ret
def ioctl (msgs : List I2cMsg) : TransportM IoctlReply := Prog.call (Cmd.ioctl msgs) Prog.ret

/-- Orders accesses on the hardware; every run here is already in order. -/
def memBarrier : TransportM Unit := pure ()

section Run

variable (d : Device δ) (w : World δ) {α : Type}

theorem acts_bsc : Prog.Acts (world d) d.access Cmd.bsc (fun _ a => a) World.dev
    (fun s w => { w with dev := s }) :=
  ⟨fun _ _ => rfl, fun _ _ => rfl, fun _ _ => rfl, fun _ => rfl, fun _ _ _ => rfl⟩

theorem acts_gpio : Prog.Acts (world d) Access.storage Cmd.gpio (fun _ a => a) World.gpio
    (fun s w => { w with gpio := s }) :=
  ⟨fun _ _ => rfl, fun _ _ => rfl, fun _ _ => rfl, fun _ => rfl, fun _ _ _ => rfl⟩

theorem acts_irq : Prog.Acts (world d) (Interrupt.storage fun _ c => c) Cmd.irq (fun _ a => a)
    World.irq (fun s w => { w with irq := s }) :=
  ⟨fun _ _ => rfl, fun _ _ => rfl, fun _ _ => rfl, fun _ => rfl, fun _ _ _ => rfl⟩

@[simp] theorem run_i2c (p : I2c.Io α) :
    (i2c p).run (world d) w =
      ((p.run d.access w.dev).1, { w with dev := (p.run d.access w.dev).2 }) :=
  (acts_bsc d).run_lift p w

@[simp] theorem run_gpio (p : Gpio.Io α) :
    (gpio p).run (world d) w =
      ((p.run Access.storage w.gpio).1, { w with gpio := (p.run Access.storage w.gpio).2 }) :=
  (acts_gpio d).run_lift p w

@[simp] theorem run_irq (p : Interrupt.Io Isr α) :
    (irq p).run (world d) w =
      ((p.run (Interrupt.storage fun _ c => c) w.irq).1,
        { w with irq := (p.run (Interrupt.storage fun _ c => c) w.irq).2 }) :=
  (acts_irq d).run_lift p w

theorem history_i2c (p : I2c.Io α) :
    (i2c p).history (world d) w =
      (p.history d.access w.dev).map fun e => (.bsc e.1, { w with dev := e.2 }) :=
  (acts_bsc d).history_lift p w

@[simp] theorem history_readStatus : readStatus.history (world d) w = [(.status, w)] := rfl

@[simp] theorem history_loadByte (p : Ptr) :
    (loadByte p).history (world d) w = [(.loadByte p, w)] := rfl

@[simp] theorem history_storeByte (p : Ptr) (b : Byte) :
    (storeByte p b).history (world d) w = [(.storeByte p b, w)] := rfl

@[simp] theorem history_xfer : xfer.history (world d) w = [(.xfer, w)] := rfl

@[simp] theorem history_localArray (bs : List Byte) :
    (localArray bs).history (world d) w = [(.localArray bs, w)] := rfl

@[simp] theorem history_ioctl (msgs : List I2cMsg) :
    (ioctl msgs).history (world d) w = [(.ioctl msgs, w)] := rfl

@[simp] theorem history_assign (a : Assign) :
    (assign a).history (world d) w = [(.assign a, w)] := rfl

@[simp] theorem run_readStatus : readStatus.run (world d) w = (w.word d, w.next) := rfl

@[simp] theorem run_loadByte (p : Ptr) : (loadByte p).run (world d) w = (w.mem p, w) := rfl

@[simp] theorem run_storeByte (p : Ptr) (b : Byte) : (storeByte p b).run (world d) w =
    ((), { w with mem := Function.update w.mem p b }) := rfl

@[simp] theorem run_localArray (bs : List Byte) : (localArray bs).run (world d) w =
    (w.frame + 1, { w with mem := place w.mem (w.frame + 1) bs }) := rfl

@[simp] theorem run_xfer : xfer.run (world d) w = (w.xfer, w) := rfl

@[simp] theorem run_assign (a : Assign) : (assign a).run (world d) w =
    ((), { w with xfer := a.apply w.xfer }) := rfl

@[simp] theorem run_ioctl (msgs : List I2cMsg) : (ioctl msgs).run (world d) w =
    (w.replies.head,
      { w with replies := w.replies.tail, mem := deliver msgs w.replies.head w.mem }) := rfl

@[simp] theorem run_memBarrier : memBarrier.run (world d) w = ((), w) := rfl

end Run

end Bcm2837
