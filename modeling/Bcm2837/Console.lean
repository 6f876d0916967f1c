import Mathlib.Tactic

/-!
# The console of the four cores

The main program of each core and its timer interrupt share one UART behind a lock that
is taken from both. A context is a list of the actions it has still to take; the atomic
exchange, the store that releases the lock and every other access of a shared variable
is an action of its own, and a core can be preempted between any two.
-/
namespace Bcm2837.Console

abbrev Core := Fin 4

inductive Action
  /-- `g_locking = true` -/
  | enableLocking
  /-- A store to the release address of a core. -/
  | release (core : Core)
  /-- The spin table a secondary waits in. -/
  | park
  /-- Anything that reaches no variable of the model. -/
  | work
  | unmask
  /-- `if(!g_locking) return;` before the next action -/
  | readLocking
  /-- `__atomic_exchange_n(&g_lock, 1)`, again and again until it answers 0 -/
  | exchange
  /-- `uart_putc(c)` once the FIFO has room -/
  | put (c : Char)
  /-- `uart_dec(++g_ticks[core])`; no other context reaches the core's counter -/
  | tick
  /-- `__atomic_store_n(&g_lock, 0)` -/
  | store
  deriving DecidableEq

/-! ## The programs -/

/-- The digits of a number, the lowest first, as `buf` holds them. -/
def digits : (room : ℕ) → ℕ → List Char
  | 0, _ => []
  | room + 1, v => if v = 0 then [] else Char.ofNat (48 + v % 10) :: digits room (v / 10)

/-- What `uart_dec` prints. -/
def decimal (v : BitVec 64) : List Char :=
  if v = 0 then ['0'] else (digits 20 v.toNat).reverse

theorem digits_reverse {room v : ℕ} (hv : v ≠ 0) (hroom : v < 10 ^ room) :
    (digits room v).reverse = Nat.toDigits 10 v := by
  induction room generalizing v with
  | zero => omega
  | succ room ih =>
    have hchar : Char.ofNat (48 + v % 10) = (v % 10).digitChar := by
      have hlt : v % 10 < 10 := Nat.mod_lt _ (by decide)
      interval_cases v % 10 <;> rfl
    rw [digits, if_neg hv, List.reverse_cons, hchar, Nat.toDigits_eq_if (by decide)]
    by_cases hsmall : v < 10
    · have hzero : v / 10 = 0 := by omega
      have hnone : digits room 0 = [] := by cases room <;> rfl
      rw [if_pos hsmall, hzero, hnone, Nat.mod_eq_of_lt hsmall]
      rfl
    · rw [if_neg hsmall, ih (by omega) (by rw [pow_succ] at hroom; omega)]

/-- The twenty places of the buffer are enough: `uart_dec` prints the number in full. -/
theorem decimal_eq (v : BitVec 64) : decimal v = Nat.toDigits 10 v.toNat := by
  unfold decimal
  by_cases hv : v = 0
  · rw [if_pos hv, hv]
    rfl
  · have hne : v.toNat ≠ 0 := fun h => hv (BitVec.eq_of_toNat_eq h)
    have hlt : v.toNat < 10 ^ 20 := lt_trans v.isLt (by decide)
    rw [if_neg hv, digits_reverse hne hlt]

def uartDec (v : BitVec 64) : List Action := (decimal v).map .put

/-- What `uart_puts` prints. -/
def crlf (s : List Char) : List Char := s.flatMap fun c => if c = '\n' then ['\r', c] else [c]

def uartPuts (s : String) : List Action := (crlf s.toList).map .put

def uartLock : List Action := [.readLocking, .exchange]

def uartUnlock : List Action := [.readLocking, .store]

def timerIsr (core : Core) : List Action :=
  uartLock ++ uartPuts "[core " ++ uartDec core.val ++ uartPuts "] timer tick #" ++ [.tick] ++
    [.put '\n'] ++ uartUnlock ++ [.work]

/-- Routing the interrupt, arming the timer, enabling it. -/
def coreTimerStart : List Action := [.work, .work, .work, .unmask]

/-- Three stores and the event that wakes the cores. -/
def smpReleaseSecondaries : List Action := [.release 1, .release 2, .release 3, .work]

/-- From `uart_enable_lock()` on. -/
def kmain : List Action :=
  [.enableLocking] ++ smpReleaseSecondaries ++ coreTimerStart ++ uartLock ++
    uartPuts "[core 0] online\n" ++ uartUnlock

/-- Enabling the MMU and setting the vector base come first. -/
def ksecondary (core : Core) : List Action :=
  [.work, .work] ++ coreTimerStart ++ uartLock ++ uartPuts "[core " ++ uartDec core.val ++
    uartPuts "] online\n" ++ uartUnlock

/-! ## The system -/

/-- The main code of a core or its timer interrupt. -/
inductive Context
  | main (core : Core)
  | isr (core : Core)
  deriving DecidableEq

def Context.core : Context → Core
  | main core => core
  | isr core => core

structure Shared where
  g_locking : Bool
  g_lock : ℕ
  g_ticks : Core → BitVec 64
  released : Core → Bool
  /-- The cores that have unmasked their interrupts. -/
  unmasked : Core → Bool
  /-- The characters written to the UART. -/
  output : List Char

structure System where
  program : Context → List Action
  /-- The cores whose interrupt is being serviced; it masks further ones. -/
  inIsr : Core → Bool
  shared : Shared

/-- One action of a core: what it has still to do and what it leaves. -/
def exec (core : Core) (rest : List Action) (s : Shared) : Action → List Action × Shared
  | .enableLocking => (rest, { s with g_locking := true })
  | .release k => (rest, { s with released := Function.update s.released k true })
  | .park => (if s.released core then rest else .park :: rest, s)
  | .work => (rest, s)
  | .unmask => (rest, { s with unmasked := Function.update s.unmasked core true })
  | .readLocking => (if s.g_locking then rest else rest.tail, s)
  | .exchange => (if s.g_lock = 0 then rest else .exchange :: rest, { s with g_lock := 1 })
  | .put c => (rest, { s with output := s.output ++ [c] })
  | .tick =>
    (uartDec (s.g_ticks core + 1) ++ rest,
      { s with g_ticks := Function.update s.g_ticks core (s.g_ticks core + 1) })
  | .store => (rest, { s with g_lock := 0 })

/-- Who acts next: a core, or its timer. -/
inductive Event
  | run (core : Core)
  | interrupt (core : Core)
  deriving DecidableEq

namespace System

/-- What runs on a core. -/
def running (s : System) (core : Core) : Context := if s.inIsr core then .isr core else .main core

/-- An interrupt is taken when the core has unmasked it and is not in its handler. -/
def Takes (s : System) (core : Core) : Prop :=
  s.shared.unmasked core = true ∧ s.inIsr core = false

instance (s : System) (core : Core) : Decidable (s.Takes core) :=
  inferInstanceAs (Decidable (_ ∧ _))

def step (s : System) : Event → System
  | .run core =>
    match s.program (s.running core) with
    -- the end of the handler returns, the end of the main code waits for interrupts
    | [] => { s with inIsr := Function.update s.inIsr core false }
    | a :: rest =>
      { s with
        program := Function.update s.program (s.running core) (exec core rest s.shared a).1
        shared := (exec core rest s.shared a).2 }
  | .interrupt core =>
    if s.Takes core then
      { s with
        program := Function.update s.program (.isr core) (timerIsr core)
        inIsr := Function.update s.inIsr core true }
    else s

/-- Core 0 is about to enable the lock, the other cores are parked. -/
def start (boot : List Char) : System where
  program
    | .main core => if core = 0 then kmain else .park :: ksecondary core
    | .isr _ => []
  inIsr _ := false
  shared := {
    g_locking := false
    g_lock := 0
    g_ticks := fun _ => 0
    released := fun _ => false
    unmasked := fun _ => false
    output := boot }

/-- The system after a schedule. -/
def run (s : System) (events : List Event) : System := events.foldl step s

theorem run_concat (s : System) (events : List Event) (e : Event) :
    s.run (events ++ [e]) = (s.run events).step e := by
  simp [run, List.foldl_append]

theorem run_append (s : System) (before after : List Event) :
    s.run (before ++ after) = (s.run before).run after := List.foldl_append

end System

/-- Between a completed `uart_lock` and its `uart_unlock`: past the exchange, with the store
still ahead. -/
def Holding (program : List Action) : Prop := .store ∈ program ∧ .exchange ∉ program

instance (program : List Action) : Decidable (Holding program) :=
  inferInstanceAs (Decidable (_ ∧ _))

/-! ## Messages -/

/-- The messages printed under the lock. -/
inductive Message
  | online (core : Core)
  | tick (core : Core) (number : BitVec 64)

def Message.core : Message → Core
  | online core => core
  | tick core _ => core

def Message.text : Message → List Char
  | online core => "[core ".toList ++ Nat.toDigits 10 core ++ "] online\r\n".toList
  | tick core number => "[core ".toList ++ Nat.toDigits 10 core ++ "] timer tick #".toList ++
      Nat.toDigits 10 number.toNat ++ ['\n']

end Bcm2837.Console
