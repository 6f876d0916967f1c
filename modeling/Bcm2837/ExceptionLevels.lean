import Bcm2837.ByteMemory

/-!
# Exception levels of AArch64

Code that runs before there is a C environment: the instructions that read and set up the
system registers, branch and drop from one exception level to a lower one. Code is a list of
instructions for each label, and a state holds what is left to run. An instruction that the
level may not execute, a misaligned store and an illegal return have no next state.
-/
namespace ExceptionLevels

open ByteMemory (Memory store64)

inductive Level
  | el1 | el2 | el3
  deriving DecidableEq

def Level.number : Level → ℕ
  | el1 => 1
  | el2 => 2
  | el3 => 3

/-- `x0` to `x30`, as an instruction has them; 31 does not occur. -/
abbrev Reg := BitVec 5

inductive SysReg
  | mpidr_el1 | currentEL
  | sp_el1 | cnthctl_el2 | cntvoff_el2 | hcr_el2 | spsr_el2 | elr_el2
  | scr_el3 | spsr_el3 | elr_el3
  deriving DecidableEq

/-- The lowest level that may access a register. -/
def SysReg.level : SysReg → Level
  | mpidr_el1 | currentEL => .el1
  | sp_el1 | cnthctl_el2 | cntvoff_el2 | hcr_el2 | spsr_el2 | elr_el2 => .el2
  | scr_el3 | spsr_el3 | elr_el3 => .el3

/-- Instructions over labels `L` and outside functions `F`. -/
inductive Instr (L F : Type)
  | mrs (rd : Reg) (s : SysReg)
  | msr (s : SysReg) (rn : Reg)
  /-- `msr s, xzr` -/
  | msrZero (s : SysReg)
  | mov (rd : Reg) (imm : BitVec 64)
  /-- `ldr rd, =symbol` -/
  | ldr (rd : Reg) (symbol : BitVec 64)
  | adr (rd : Reg) (l : L)
  | and (rd rn : Reg) (imm : BitVec 64)
  | orr (rd rn : Reg) (imm : BitVec 64)
  | lsr (rd rn : Reg) (k : ℕ)
  | mul (rd rn rm : Reg)
  | sub (rd rn rm : Reg)
  | movSp (rn : Reg)
  | cmpImm (rn : Reg) (imm : BitVec 64)
  | cmp (rn rm : Reg)
  | b (l : L)
  | bEq (l : L)
  | bHs (l : L)
  | cbnz (rn : Reg) (l : L)
  /-- `str xzr, [rn], #8` -/
  | strZero (rn : Reg)
  | eret
  | bl (f : F)
  | wfe

structure State (L F : Type) where
  /-- What is left to run. -/
  rest : List (Instr L F)
  level : Level
  /-- `PSTATE.SP`: the stack pointer is that of the level. -/
  spx : Bool
  /-- The four exception masks. -/
  daif : BitVec 4
  zero : Bool
  carry : Bool
  x : Reg → BitVec 64
  /-- `SP_EL0` and the stack pointers of the levels. -/
  sp : Option Level → BitVec 64
  sys : SysReg → BitVec 64
  mem : Memory 64

/-- Where the code of a label is, and the label found at an address. -/
structure Image (L F : Type) where
  code : L → List (Instr L F)
  place : L → BitVec 64
  found : BitVec 64 → Option L
  found_place : ∀ l, found (place l) = some l

namespace State

variable {L F : Type} (s : State L F)

def setReg (r : Reg) (v : BitVec 64) : State L F := { s with x := Function.update s.x r v }

/-- The stack pointer in use. -/
def stack : Option Level := if s.spx then some s.level else none

def readSys : SysReg → BitVec 64
  | .currentEL => BitVec.ofNat 64 (4 * s.level.number)
  | .sp_el1 => s.sp (some .el1)
  | r => s.sys r

def writeSys (r : SysReg) (v : BitVec 64) : State L F :=
  match r with
  | .sp_el1 => { s with sp := Function.update s.sp (some .el1) v }
  | r => { s with sys := Function.update s.sys r v }

def compare (a b : BitVec 64) : State L F := { s with zero := a = b, carry := b ≤ a }

/-- The level and the stack pointer selection that a saved status returns to. -/
def target (spsr : BitVec 64) : Option (Level × Bool) :=
  if spsr.getLsbD 4 || spsr.getLsbD 1 then none
  else match (spsr >>> 2 &&& 0b11).toNat with
    | 1 => some (.el1, spsr.getLsbD 0)
    | 2 => some (.el2, spsr.getLsbD 0)
    | 3 => some (.el3, spsr.getLsbD 0)
    | _ => none

/-- The lower levels run AArch64 code when `SCR_EL3.RW` and `HCR_EL2.RW` say so, and EL2 is a
level of the non-secure state. -/
def mayReturn : Level → Level → Bool
  | .el3, .el2 => (s.sys .scr_el3).getLsbD 10 && (s.sys .scr_el3).getLsbD 0
  | .el2, .el1 => (s.sys .hcr_el2).getLsbD 31
  | _, _ => false

def eret (img : Image L F) (spsr elr : BitVec 64) : Option (State L F) :=
  match target spsr, img.found elr with
  | some (level, spx), some l =>
    if s.mayReturn s.level level then
      some { s with
        rest := img.code l
        level := level
        spx := spx
        daif := (spsr >>> 6).setWidth 4
        zero := spsr.getLsbD 30
        carry := spsr.getLsbD 29 }
    else none
  | _, _ => none

/-- One instruction, with the ones behind it already in place. -/
def exec (img : Image L F) : Instr L F → Option (State L F)
  | .mrs rd r => if r.level.number ≤ s.level.number then some (s.setReg rd (s.readSys r)) else none
  | .msr r rn => if r.level.number ≤ s.level.number then some (s.writeSys r (s.x rn)) else none
  | .msrZero r => if r.level.number ≤ s.level.number then some (s.writeSys r 0) else none
  | .mov rd imm => some (s.setReg rd imm)
  | .ldr rd symbol => some (s.setReg rd symbol)
  | .adr rd l => some (s.setReg rd (img.place l))
  | .and rd rn imm => some (s.setReg rd (s.x rn &&& imm))
  | .orr rd rn imm => some (s.setReg rd (s.x rn ||| imm))
  | .lsr rd rn k => some (s.setReg rd (s.x rn >>> k))
  | .mul rd rn rm => some (s.setReg rd (s.x rn * s.x rm))
  | .sub rd rn rm => some (s.setReg rd (s.x rn - s.x rm))
  | .movSp rn => some { s with sp := Function.update s.sp s.stack (s.x rn) }
  | .cmpImm rn imm => some (s.compare (s.x rn) imm)
  | .cmp rn rm => some (s.compare (s.x rn) (s.x rm))
  | .b l => some { s with rest := img.code l }
  | .bEq l => some (if s.zero then { s with rest := img.code l } else s)
  | .bHs l => some (if s.carry then { s with rest := img.code l } else s)
  | .cbnz rn l => some (if s.x rn ≠ 0 then { s with rest := img.code l } else s)
  | .strZero rn =>
    if (s.x rn).toNat % 8 = 0 then
      some { s.setReg rn (s.x rn + 8) with mem := store64 s.mem (s.x rn) 0 }
    else none
  | .eret =>
    match s.level with
    | .el3 => s.eret img (s.sys .spsr_el3) (s.sys .elr_el3)
    | .el2 => s.eret img (s.sys .spsr_el2) (s.sys .elr_el2)
    | .el1 => none
  -- the callee is not part of this code
  | .bl _ => none
  | .wfe => some s

def step (img : Image L F) : Option (State L F) :=
  match s.rest with
  | [] => none
  | i :: rest => { s with rest := rest }.exec img i

/-- The state after `n` instructions. -/
def run (img : Image L F) : ℕ → State L F → Option (State L F)
  | 0, s => some s
  | n + 1, s => (s.step img).bind (run img n)

-- running code on a state with some components unknown is rewriting with these
attribute [simp] run step exec setReg readSys writeSys compare SysReg.level Level.number

/-- A return that is allowed goes to the label at its address. -/
theorem eret_eq {img : Image L F} {spsr elr : BitVec 64} {level : Level} {spx : Bool} {l : L}
    (htarget : target spsr = some (level, spx)) (hfound : img.found elr = some l)
    (hmay : s.mayReturn s.level level = true) :
    s.eret img spsr elr = some { s with
      rest := img.code l
      level := level
      spx := spx
      daif := (spsr >>> 6).setWidth 4
      zero := spsr.getLsbD 30
      carry := spsr.getLsbD 29 } := by
  rw [eret, htarget, hfound]
  exact if_pos hmay

theorem run_add (img : Image L F) (n k : ℕ) :
    run img (n + k) s = (run img n s).bind (run img k) := by
  induction n generalizing s with
  | zero => simp [run]
  | succ n ih =>
    rw [Nat.succ_add, run, run]
    cases s.step img with
    | none => rfl
    | some t => exact ih t

/-- `s` comes to `t`. -/
def Reaches (img : Image L F) (s t : State L F) : Prop := ∃ n, run img n s = some t

theorem Reaches.refl (img : Image L F) : Reaches img s s := ⟨0, rfl⟩

theorem Reaches.trans {img : Image L F} {s t r : State L F} (h : Reaches img s t)
    (h' : Reaches img t r) : Reaches img s r := by
  obtain ⟨n, hn⟩ := h
  obtain ⟨k, hk⟩ := h'
  exact ⟨n + k, by rw [run_add, hn, Option.bind_some, hk]⟩

end State

end ExceptionLevels
