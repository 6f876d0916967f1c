import Bcm2837.BitField
import Bcm2837.MemoryMap
import Bcm2837.RegisterFile

/-!
# The clock driver

Three general purpose clocks, each with a control and a divisor register. There are two
sets of accessors: `set_CM_GPnDIV` and its kind take any register, `write` and `read` go
through one function for each register.
-/
namespace Bcm2837.Clock

open BitField (lowBits)

abbrev Io := Mmio Register Word

/-! ## Accessors that take a register -/

def set_CM_GPnDIV (reg : Register) (field : ClockDivisor) (value : Word) : Io Unit :=
  match field with
  | .DIVI => Mmio.modify reg (· ||| ((lowBits 32 12 &&& value) <<< 12))
  | .DIVF => Mmio.modify reg (· ||| (lowBits 32 12 &&& value))
  | .BOTH_VALUE => Mmio.modify reg (· ||| (lowBits 32 24 &&& value))

def get_CM_GPnDIV (reg : Register) (field : ClockDivisor) : Io Word :=
  match field with
  | .DIVI => do
    let v ← Mmio.load reg
    return (v >>> 12) &&& lowBits 32 12
  -- the masks clear one bit only
  | .DIVF => do
    let v ← Mmio.load reg
    return v &&& ~~~((1 : Word) <<< 12)
  | .BOTH_VALUE => do
    let v ← Mmio.load reg
    return v &&& ~~~((1 : Word) <<< 24)

def set_CM_GPnCTL (reg : Register) (field : CM_GPnCTL_Type) (value : Word) : Io Unit :=
  match field with
  | .SRC => Mmio.modify reg (· ||| (lowBits 32 4 &&& value))
  | .ENAB => Mmio.modify reg (· ||| ((value &&& 1) <<< 4))
  | .KILL => Mmio.modify reg (· ||| ((value &&& 1) <<< 5))
  | .MASH => Mmio.modify reg (· ||| ((value &&& 0b11) <<< 8))
  | .ALL => Mmio.store reg value
  | .BUSY | .FLIP | .Unused => pure ()

def get_CM_GPnCTL (reg : Register) (field : CM_GPnCTL_Type) : Io Word :=
  match field with
  | .SRC => do
    let v ← Mmio.load reg
    return v &&& 0b1111
  | .ENAB => do
    let v ← Mmio.load reg
    return (v >>> 4) &&& 1
  | .KILL => do
    let v ← Mmio.load reg
    return (v >>> 5) &&& 1
  | .MASH => do
    let v ← Mmio.load reg
    return (v >>> 8) &&& 0b11
  | .ALL => Mmio.load reg
  | .BUSY | .FLIP | .Unused => pure 0

/-! ## Accessors of one register each -/

/-- The setter of a divisor register; the three copies differ in the register only. -/
def writeDIV (reg : Register) (divisor : ClockDivisor) (value : Word) : Io Unit :=
  match divisor with
  | .DIVI => Mmio.modify reg (· ||| ((lowBits 32 12 &&& value) <<< 12))
  | .DIVF => Mmio.modify reg (· ||| (lowBits 32 12 &&& value))
  | .BOTH_VALUE => Mmio.modify reg (· ||| (lowBits 32 24 &&& value))

def readDIV (reg : Register) (divisor : ClockDivisor) : Io Word :=
  match divisor with
  | .DIVI => do
    let v ← Mmio.load reg
    return (v >>> 12) &&& lowBits 32 12
  | .DIVF => do
    let v ← Mmio.load reg
    return v &&& lowBits 32 12
  | .BOTH_VALUE => do
    let v ← Mmio.load reg
    return v &&& lowBits 32 24

/-- What `ALL` stores: every field is taken from the low bits of the value. -/
def allValue (value : Word) : Word :=
  (lowBits 32 4 &&& value) ||| ((value &&& 1) <<< 5) ||| ((value &&& 1) <<< 6) |||
    ((value &&& lowBits 32 2) <<< 10)

def writeCTL (reg : Register) (ctl : CM_GPnCTL_Type) (value : Word) : Io Unit :=
  match ctl with
  | .SRC => Mmio.modify reg (· ||| (lowBits 32 4 &&& value))
  | .ENAB => Mmio.modify reg (· ||| ((value &&& 1) <<< 5))
  | .KILL => Mmio.modify reg (· ||| ((value &&& 1) <<< 6))
  | .MASH => Mmio.modify reg (· ||| ((value &&& lowBits 32 2) <<< 10))
  | .ALL => Mmio.store reg (allValue value)
  | .BUSY | .FLIP | .Unused => pure ()

def readCTL (reg : Register) (ctl : CM_GPnCTL_Type) : Io Word :=
  match ctl with
  | .SRC => do
    let v ← Mmio.load reg
    return v &&& lowBits 32 4
  | .ENAB => do
    let v ← Mmio.load reg
    return (v >>> 5) &&& 1
  | .KILL => do
    let v ← Mmio.load reg
    return (v >>> 6) &&& 1
  | .MASH => do
    let v ← Mmio.load reg
    return (v >>> 10) &&& lowBits 32 2
  | .ALL => Mmio.load reg
  | .BUSY | .FLIP | .Unused => pure 0

/-- Setter and getter share a name in the source. -/
def CM_GP0DIV.set := writeDIV .CM_GP0DIV
def CM_GP0DIV.get := readDIV .CM_GP0DIV
def CM_GP1DIV.set := writeDIV .CM_GP1DIV
def CM_GP1DIV.get := readDIV .CM_GP1DIV
def CM_GP2DIV.set := writeDIV .CM_GP2DIV
def CM_GP2DIV.get := readDIV .CM_GP2DIV
def CM_GP0CTL.set := writeCTL .CM_GP0CTL
def CM_GP0CTL.get := readCTL .CM_GP0CTL
def CM_GP1CTL.set := writeCTL .CM_GP1CTL
def CM_GP1CTL.get := readCTL .CM_GP1CTL
def CM_GP2CTL.set := writeCTL .CM_GP2CTL
def CM_GP2CTL.get := readCTL .CM_GP2CTL

/-- `write` and `read` are overloaded in the type of the field. -/
def write.divisor (reg : Register) (divif : ClockDivisor) (value : Word) : Io Unit :=
  match reg with
  | .CM_GP0DIV => CM_GP0DIV.set divif value
  | .CM_GP1DIV => CM_GP1DIV.set divif value
  | .CM_GP2DIV => CM_GP2DIV.set divif value
  | _ => pure ()

def read.divisor (reg : Register) (divif : ClockDivisor) : Io Word :=
  match reg with
  | .CM_GP0DIV => CM_GP0DIV.get divif
  | .CM_GP1DIV => CM_GP1DIV.get divif
  | .CM_GP2DIV => CM_GP2DIV.get divif
  | _ => pure 0

def write.control (reg : Register) (type : CM_GPnCTL_Type) (value : Word) : Io Unit :=
  match reg with
  | .CM_GP0CTL => CM_GP0CTL.set type value
  | .CM_GP1CTL => CM_GP1CTL.set type value
  | .CM_GP2CTL => CM_GP2CTL.set type value
  | _ => pure ()

/-- For a register without a control layout the result variable is not set; `unset` is
what it holds. -/
def read.control (unset : Word) (reg : Register) (type : CM_GPnCTL_Type) : Io Word :=
  match reg with
  | .CM_GP0CTL => CM_GP0CTL.get type
  | .CM_GP1CTL => CM_GP1CTL.get type
  | .CM_GP2CTL => CM_GP2CTL.get type
  | _ => pure unset

end Bcm2837.Clock
