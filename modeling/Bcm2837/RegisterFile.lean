import Bcm2837.Program

/-!
# Memory-mapped registers

A driver reaches a register block only by loads and stores of whole registers.
`storage` is the block as plain read/write words; devices whose registers have
side effects are other handlers of the same accesses.
-/

variable {R W : Type} {σ : Type*}

/-- One access to a register block: a load of a register or a store to it. -/
inductive Access (R W : Type) : Type
  | load (r : R)
  | store (r : R) (v : W)
  deriving DecidableEq

namespace Access

/-- A load answers with the register's value, a store with nothing. -/
def Ans : Access R W → Type
  | load _ => W
  | store _ _ => Unit

/-- The register block as plain storage. -/
def storage [DecidableEq R] : Prog.Handler (Access R W) Ans (R → W)
  | load r, m => (m r, m)
  | store r v, m => ((), Function.update m r v)

@[simp] theorem storage_load [DecidableEq R] (r : R) (m : R → W) :
    storage (load r) m = (m r, m) := rfl

@[simp] theorem storage_store [DecidableEq R] (r : R) (v : W) (m : R → W) :
    storage (store r v) m = ((), Function.update m r v) := rfl

end Access

/-- Programs over one register block. -/
abbrev Mmio (R W : Type) := Prog (Access R W) Access.Ans

namespace Mmio

def load (r : R) : Mmio R W W := Prog.call (Access.load r) Prog.ret

def store (r : R) (v : W) : Mmio R W Unit := Prog.call (Access.store r v) Prog.ret

/-- A compound assignment: one load, one store of the changed value. -/
def modify (r : R) (f : W → W) : Mmio R W Unit := do
  let v ← load r
  store r (f v)

section Run

variable (h : Prog.Handler (Access R W) Access.Ans σ) (s : σ)

@[simp] theorem run_load (r : R) : (load r).run h s = h (.load r) s := rfl

@[simp] theorem run_store (r : R) (v : W) : (store r v).run h s = h (.store r v) s := rfl

@[simp] theorem history_load (r : R) :
    (load r).history h s = [(.load r, s)] := rfl

@[simp] theorem history_store (r : R) (v : W) :
    (store r v).history h s = [(.store r v, s)] := rfl

end Run

end Mmio
