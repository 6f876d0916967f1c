import Bcm2837.MemoryMap
import Bcm2837.RegisterFile

/-!
# The interrupt driver

The handler table below the one architectural IRQ vector, the bank arithmetic of
the legacy controller and the dispatcher. Function pointers are elements of a type
`F`; a null pointer is `none`. What a handler does when called is left to the
environment (`call`).
-/
namespace Bcm2837.Interrupt

/-- Architectural vectors whose slot the driver writes. -/
inductive Slot
  | IRQ | FIQ
  deriving DecidableEq

/-- Software IRQ sources: legacy 0..63, then the local sources. -/
def kMaxHandlers : ℕ := 72
def kLocalBase : ℕ := 64

/-- The vector slots and the dispatch table. -/
structure IVT (F : Type) where
  slots : Slot → Option F
  handlers : Fin kMaxHandlers → Option F

namespace IVT

variable {F : Type}

/-- The table in zeroed storage. -/
def empty : IVT F := ⟨fun _ => none, fun _ => none⟩

def handler (t : IVT F) (irq : ℕ) : Option F :=
  if h : irq < kMaxHandlers then t.handlers ⟨irq, h⟩ else none

def setHandler (t : IVT F) (irq : ℕ) (cb : Option F) : IVT F :=
  if h : irq < kMaxHandlers then
    { t with handlers := Function.update t.handlers ⟨irq, h⟩ cb }
  else t

def setSlot (t : IVT F) (v : Slot) (cb : Option F) : IVT F :=
  { t with slots := Function.update t.slots v cb }

theorem handler_setHandler (t : IVT F) (irq n : ℕ) (cb : Option F) :
    (t.setHandler irq cb).handler n =
      if irq = n ∧ irq < kMaxHandlers then cb else t.handler n := by
  unfold handler setHandler
  by_cases hi : irq < kMaxHandlers
  · by_cases hn : n < kMaxHandlers
    · by_cases he : irq = n
      · subst he
        simp [hi]
      · simp [hi, hn, he, Fin.ext_iff, Ne.symm he]
    · have he : irq ≠ n := by omega
      simp [hn, he]
  · simp [hi]

@[simp] theorem handler_setSlot (t : IVT F) (v : Slot) (cb : Option F) (n : ℕ) :
    (t.setSlot v cb).handler n = t.handler n := rfl

end IVT

/-- What the driver does outside its own variables. -/
inductive Cmd (F : Type) : Type
  | memory (a : Access Register Word)
  | armLocal (a : Access ArmLocal.Register Word)
  | handler (irq : ℕ)
  | setHandler (irq : ℕ) (cb : Option F)
  | setSlot (v : Slot) (cb : Option F)
  | call (cb : F)

def Cmd.Ans {F : Type} : Cmd F → Type
  | memory a => a.Ans
  | armLocal a => a.Ans
  | handler _ => Option F
  | setHandler _ _ => Unit
  | setSlot _ _ => Unit
  | call _ => Unit

abbrev Io (F : Type) := Prog (Cmd F) Cmd.Ans

variable {F : Type}

/-- The three blocks the driver overlays. -/
structure Controller (F : Type) where
  memory : Register → Word
  armLocal : ArmLocal.Register → Word
  ivt : IVT F

/-- The blocks as plain storage, with `effect` the effect of calling a handler. -/
def storage (effect : F → Controller F → Controller F) : Prog.Handler (Cmd F) Cmd.Ans (Controller F)
  | .memory a, c => let r := Access.storage a c.memory; (r.1, { c with memory := r.2 })
  | .armLocal a, c => let r := Access.storage a c.armLocal; (r.1, { c with armLocal := r.2 })
  | .handler irq, c => (c.ivt.handler irq, c)
  | .setHandler irq cb, c => ((), { c with ivt := c.ivt.setHandler irq cb })
  | .setSlot v cb, c => ((), { c with ivt := c.ivt.setSlot v cb })
  | .call cb, c => ((), effect cb c)

def load (r : Register) : Io F Word := Prog.call (Cmd.memory (.load r)) Prog.ret
def store (r : Register) (v : Word) : Io F Unit := Prog.call (Cmd.memory (.store r v)) Prog.ret
def loadLocal (r : ArmLocal.Register) : Io F Word := Prog.call (Cmd.armLocal (.load r)) Prog.ret

def modify (r : Register) (f : Word → Word) : Io F Unit := do
  let v ← load r
  store r (f v)

def handler (irq : ℕ) : Io F (Option F) := Prog.call (Cmd.handler irq) Prog.ret
def setHandler (irq : ℕ) (cb : Option F) : Io F Unit :=
  Prog.call (Cmd.setHandler irq cb) Prog.ret
def setSlot (v : Slot) (cb : Option F) : Io F Unit := Prog.call (Cmd.setSlot v cb) Prog.ret

/-- `if (cb) cb();` -/
def invoke : Option F → Io F Unit
  | none => pure ()
  | some cb => Prog.call (Cmd.call cb) Prog.ret

/-! ## The driver -/

def enable (irqNumber : ℕ) : Io F Unit :=
  if irqNumber < 32 then modify .Enable_IRQs_1 (· ||| ((1 : Word) <<< irqNumber))
  else modify .Enable_IRQs_2 (· ||| ((1 : Word) <<< (irqNumber - 32)))

def disable (irqNumber : ℕ) : Io F Unit :=
  if irqNumber < 32 then modify .Disable_IRQs_1 (· ||| ((1 : Word) <<< irqNumber))
  else modify .Disable_IRQs_2 (· ||| ((1 : Word) <<< (irqNumber - 32)))

def isEnabled (number : ℕ) : Io F Bool :=
  if number < 32 then do
    let v ← load .Enable_IRQs_1
    return (v >>> number) &&& 1 == 1
  else do
    let v ← load .Enable_IRQs_2
    return (v >>> (number - 32)) &&& 1 == 1

def registerHandler (number : ℕ) (cb : Option F) : Io F Unit := setHandler number cb

/-- Registers the handler and points the architectural IRQ vector at the trampoline. -/
def installIRQHandler (dispatchTrampoline : F) (irqNumber : ℕ) (cb : Option F) : Io F Unit := do
  setHandler irqNumber cb
  setSlot .IRQ (some dispatchTrampoline)

/-- The shift loop of `lowestSetBit`: shift right until bit 0 is set, counting. -/
def shiftLoop : ℕ → Word → ℕ → ℕ
  | 0, _, n => n
  | fuel + 1, v, n => if v &&& 1 = 0 then shiftLoop fuel (v >>> 1) (n + 1) else n

/-- Index of the lowest set bit, or `none` for the zero word. -/
def lowestSetBit (v : Word) : Option ℕ := if v = 0 then none else some (shiftLoop 32 v 0)

/-- The scan of the timer lines: `true` when a line was set and its turn taken. -/
def scanLines (source : Word) : List ℕ → Io F Bool
  | [] => return false
  | line :: lines =>
    if source &&& ((1 : Word) <<< line) ≠ 0 then do
      let cb ← handler (kLocalBase + line)
      invoke cb
      return true
    else scanLines source lines

def timerLines : List ℕ := List.range' ArmLocal.CNTPSIRQ (ArmLocal.CNTVIRQ + 1)

/-- One entry of the architectural IRQ vector on `core`. -/
def dispatch (core : ℕ) : Io F Unit := do
  let source ← loadLocal (ArmLocal.CORE_IRQ_SOURCE0 + core)
  if ← scanLines source timerLines then return
  if source &&& ((1 : Word) <<< ArmLocal.GPU) ≠ 0 then
    let p1 ← load .IRQ_Pending1
    match lowestSetBit p1 with
    | some bit =>
      let cb ← handler bit
      invoke cb
    | none =>
      let p2 ← load .IRQ_Pending2
      match lowestSetBit p2 with
      | some bit =>
        let cb ← handler (32 + bit)
        invoke cb
      | none => return

end Bcm2837.Interrupt
