import Bcm2837.ByteMemory

/-!
# Integer instructions of AArch64

The general registers, the stack pointer and the two registers that hold the state of
interrupted code, with the instructions that save and restore them.
-/
namespace Aarch64

open ByteMemory (Memory offset load64 store64)

/-- `x0` to `x30`. -/
abbrev Reg := Fin 31

/-- The system registers an exception return reads. -/
inductive SysReg
  | elr_el1 | spsr_el1
  deriving DecidableEq

structure State where
  x : Reg → BitVec 64
  sp : BitVec 64
  sys : SysReg → BitVec 64
  mem : Memory 64

/-- Memory operands are `[sp, #off]`. -/
inductive Instr
  | subSp (n : ℕ)
  | addSp (n : ℕ)
  | str (r : Reg) (off : ℕ)
  | stp (r₁ r₂ : Reg) (off : ℕ)
  | ldr (r : Reg) (off : ℕ)
  | ldp (r₁ r₂ : Reg) (off : ℕ)
  | mrs (r : Reg) (s : SysReg)
  | msr (s : SysReg) (r : Reg)

namespace State

variable (s : State)

def setReg (r : Reg) (v : BitVec 64) : State := { s with x := Function.update s.x r v }

def setSys (r : SysReg) (v : BitVec 64) : State := { s with sys := Function.update s.sys r v }

/-- The word at an offset from the stack pointer. -/
def slot (off : ℕ) : BitVec 64 := load64 s.mem (offset s.sp off)

def setSlot (off : ℕ) (v : BitVec 64) : State :=
  { s with mem := store64 s.mem (offset s.sp off) v }

def step : Instr → State
  | .subSp n => { s with sp := s.sp - BitVec.ofNat 64 n }
  | .addSp n => { s with sp := s.sp + BitVec.ofNat 64 n }
  | .str r off => s.setSlot off (s.x r)
  | .stp r₁ r₂ off => (s.setSlot off (s.x r₁)).setSlot (off + 8) (s.x r₂)
  | .ldr r off => s.setReg r (s.slot off)
  | .ldp r₁ r₂ off => (s.setReg r₁ (s.slot off)).setReg r₂ (s.slot (off + 8))
  | .mrs r p => s.setReg r (s.sys p)
  | .msr p r => s.setSys p (s.x r)

def exec (code : List Instr) : State := code.foldl step s

end State

end Aarch64
