import Bcm2837.ConsoleLock
import Bcm2837.HandlerTable
import Bcm2837.NumberPrinting

/-!
# Bringing up the four cores

The main programs with what they set up on the way to their first interrupt: the translation
tables and the MMU, the vector base, the interrupt controller and its handler, the routing and
the timer of each core. A timer interrupt comes when the counter has reached the compare value,
and runs what `dispatch` calls.
-/
namespace Bcm2837.Bringup

open Console (Core Context)

inductive Action
  /-- An action of the console programs. -/
  | console (a : Console.Action)
  /-- `mmu_build_tables()` -/
  | buildTables
  /-- `mmu_enable()` -/
  | enableMmu
  /-- `set_active_irq(&irq)` -/
  | setActive
  /-- Setting `vbar_el1` to the vector table. -/
  | installVector
  /-- `irq.register_handler(IVT::kLocalBase + Src::CNTPNSIRQ, &timer_isr)` -/
  | registerHandler
  /-- `CORE_TIMER_IRQCNTL0 + core` gets bit `CNTPNSIRQ`; no other core reaches the register. -/
  | route
  /-- `timer_set_tval(interval())` -/
  | setTval
  /-- `timer_enable()` -/
  | enableTimer
  deriving DecidableEq

/-- What the boot messages show. -/
structure Setup where
  current_el : BitVec 64
  vector_table : BitVec 64
  timer_freq : BitVec 64
  /-- The addresses that the constructor of the interrupt registers prints. -/
  log : List Char

def CNTPNSIRQ : ℕ := 1

def CORE_TIMER_IRQCNTL0 : ArmLocal.Register := 0x40 / 4

/-! ## The programs -/

def chars (cs : List Char) : List Action := cs.map fun c => .console (.put c)

def uartPuts (s : String) : List Action := chars (Console.crlf s.toList)

def uartDec (v : BitVec 64) : List Action := chars (Console.decimal v)

/-- What `uart_hex` prints. -/
def hexadecimal (v : BitVec 64) : List Char :=
  ['0', 'x'] ++ Print.nibbleDigits.text (Numerals.Alphabet.places 16 16 v.toNat)

def uartLock : List Action := Console.uartLock.map .console

def uartUnlock : List Action := Console.uartUnlock.map .console

def timer_isr (core : Core) : List Action :=
  uartLock ++ uartPuts "[core " ++ uartDec core.val ++ uartPuts "] timer tick #" ++
    [.console .tick] ++ chars ['\n'] ++ uartUnlock ++ [.setTval]

def core_timer_start : List Action := [.route, .setTval, .enableTimer, .console .unmask]

def online (core : Core) : List Action :=
  uartLock ++ uartPuts "[core " ++ uartDec core.val ++ uartPuts "] online\n" ++ uartUnlock

/-- `kmain` up to `uart_enable_lock()`. -/
def boot (setup : Setup) : List Action :=
  [.console .work] ++
    uartPuts "\n=== bcm2837 bare-metal: AArch64 IVT / IRQ / MMU / SMP ===\n" ++
    uartPuts "core 0 running at EL" ++ uartDec setup.current_el ++ chars ['\n'] ++
    [.buildTables, .enableMmu] ++
    uartPuts "MMU enabled (RAM cacheable inner-shareable, MMIO device)\n" ++ chars setup.log ++
    [.setActive, .installVector] ++ uartPuts "VBAR_EL1 -> vector_table @ " ++
    chars (hexadecimal setup.vector_table) ++ chars ['\n'] ++ [.registerHandler] ++
    uartPuts "CNTFRQ=" ++ uartDec setup.timer_freq ++ uartPuts "  (~5 IRQs/s per core)\n"

/-- From `uart_enable_lock()` on. -/
def kmainRest : List Action :=
  [.console .enableLocking] ++ Console.smpReleaseSecondaries.map .console ++ core_timer_start ++
    uartLock ++ uartPuts "[core 0] online\n" ++ uartUnlock

def kmain (setup : Setup) : List Action := boot setup ++ kmainRest

def ksecondary (core : Core) : List Action :=
  [.enableMmu, .installVector] ++ core_timer_start ++ online core

/-- The main program of a core; a secondary starts in the spin table. -/
def mainProgram (setup : Setup) (core : Core) : List Action :=
  if core.val = 0 then kmain setup else .console .park :: ksecondary core

/-! ## The system -/

/-- The handlers that are registered. -/
inductive Isr
  | timer_isr

structure Timer where
  enabled : Bool
  cval : ℤ

structure Shared where
  console : Console.Shared
  /-- The tables are complete. -/
  tables : Bool
  mmu : Core → Bool
  /-- `vbar_el1` points to the vector table. -/
  vbar : Core → Bool
  /-- `g_active` is set. -/
  active : Bool
  ivt : Interrupt.IVT Isr
  /-- The legacy interrupt registers. -/
  memory : Interrupt.Register → Word
  armLocal : ArmLocal.Register → Word
  timer : Core → Timer
  counter : ℕ

namespace Shared

variable (s : Shared) (core : Core)

/-- The line of the core's timer is raised and goes to the core. -/
def fires : Bool :=
  (s.timer core).enabled && (s.timer core).cval ≤ s.counter &&
    (s.armLocal (CORE_TIMER_IRQCNTL0 + core)).getLsbD CNTPNSIRQ

/-- The interrupt controller as the core finds it: no source but the timer is raised. -/
def controller : Interrupt.Controller Isr where
  memory := s.memory
  armLocal := Function.update s.armLocal (ArmLocal.CORE_IRQ_SOURCE0 + core)
    (if s.fires core then 1 <<< CNTPNSIRQ else 0)
  ivt := s.ivt

/-- What `irq_handler_c` calls. -/
def irq_handler_c : List Isr :=
  if s.active then
    Interrupt.called ((Interrupt.dispatch core).history (Interrupt.storage fun _ c => c)
      (s.controller core))
  else []

/-- The compare value that `timer_set_tval` makes of its argument, a signed 32-bit number. -/
def compareValue (v : BitVec 64) : ℤ := s.counter + (v.setWidth 32).toInt

end Shared

structure System where
  program : Context → List Action
  /-- The cores whose interrupt is being serviced; it masks further ones. -/
  inIsr : Core → Bool
  /-- The cores that took an interrupt without a vector table. -/
  lost : Core → Bool
  shared : Shared

/-- `timer_freq() / 5` -/
def interval (setup : Setup) : BitVec 64 := setup.timer_freq / 5

/-- What is left to do after an action of the console programs. -/
def next (core : Core) (rest : List Action) (s : Console.Shared) : Console.Action → List Action
  | .park => if s.released core then rest else .console .park :: rest
  | .readLocking => if s.g_locking then rest else rest.tail
  | .exchange => if s.g_lock = 0 then rest else .console .exchange :: rest
  | .tick => uartDec (s.g_ticks core + 1) ++ rest
  | _ => rest

/-- One action of a core: what it has still to do and what it leaves. -/
def exec (setup : Setup) (core : Core) (rest : List Action) (s : Shared) :
    Action → List Action × Shared
  | .console a =>
    (next core rest s.console a, { s with console := (Console.exec core [] s.console a).2 })
  | .buildTables => (rest, { s with tables := true })
  | .enableMmu => (rest, { s with mmu := Function.update s.mmu core true })
  | .setActive => (rest, { s with active := true })
  | .installVector => (rest, { s with vbar := Function.update s.vbar core true })
  | .registerHandler =>
    (rest, { s with
      ivt := s.ivt.setHandler (Interrupt.kLocalBase + CNTPNSIRQ) (some .timer_isr) })
  | .route =>
    (rest, { s with
      armLocal := Function.update s.armLocal (CORE_TIMER_IRQCNTL0 + core)
        (s.armLocal (CORE_TIMER_IRQCNTL0 + core) ||| 1 <<< CNTPNSIRQ) })
  | .setTval =>
    (rest, { s with
      timer := Function.update s.timer core
        { s.timer core with cval := s.compareValue (interval setup) } })
  | .enableTimer =>
    (rest, { s with
      timer := Function.update s.timer core { s.timer core with enabled := true } })

/-- Who acts next: a core, its timer, or the counter. -/
inductive Event
  | run (core : Core)
  | interrupt (core : Core)
  | count
  deriving DecidableEq

namespace System

variable (s : System)

def running (core : Core) : Context := if s.inIsr core then .isr core else .main core

/-- An interrupt is taken when the timer fires and the core has unmasked it and is not in its
handler. -/
def Takes (core : Core) : Prop :=
  s.shared.console.unmasked core = true ∧ s.inIsr core = false ∧ s.shared.fires core = true

instance (core : Core) : Decidable (s.Takes core) := inferInstanceAs (Decidable (_ ∧ _))

/-- The code of a handler. -/
def isrCode (core : Core) : Isr → List Action
  | .timer_isr => timer_isr core

def step (setup : Setup) (s : System) : Event → System
  | .run core =>
    match s.program (s.running core) with
    -- the end of the handler returns, the end of the main code waits for interrupts
    | [] => { s with inIsr := Function.update s.inIsr core false }
    | a :: rest =>
      { s with
        program := Function.update s.program (s.running core) (exec setup core rest s.shared a).1
        shared := (exec setup core rest s.shared a).2 }
  | .interrupt core =>
    if s.Takes core then
      if s.shared.vbar core then
        { s with
          program := Function.update s.program (.isr core)
            ((s.shared.irq_handler_c core).flatMap (isrCode core))
          inIsr := Function.update s.inIsr core true }
      else { s with lost := Function.update s.lost core true }
    else s
  | .count => { s with shared := { s.shared with counter := s.shared.counter + 1 } }

/-- What the hardware holds when core 0 enters `kmain`. -/
structure Hardware where
  memory : Interrupt.Register → Word
  armLocal : ArmLocal.Register → Word
  timer : Core → Timer
  counter : ℕ

/-- Core 0 enters `kmain`, the other cores are parked. -/
def start (setup : Setup) (hw : Hardware) : System where
  program
    | .main core => mainProgram setup core
    | .isr _ => []
  inIsr _ := false
  lost _ := false
  shared := {
    console := {
      g_locking := false
      g_lock := 0
      g_ticks := fun _ => 0
      released := fun _ => false
      unmasked := fun _ => false
      output := [] }
    tables := false
    mmu := fun _ => false
    vbar := fun _ => false
    active := false
    ivt := .empty
    memory := hw.memory
    armLocal := hw.armLocal
    timer := hw.timer
    counter := hw.counter }

def run (setup : Setup) (s : System) (events : List Event) : System := events.foldl (step setup) s

theorem run_concat (setup : Setup) (events : List Event) (e : Event) :
    run setup s (events ++ [e]) = step setup (run setup s events) e := by
  simp [run, List.foldl_append]

end System

end Bcm2837.Bringup
