import Bcm2837.BitField
import Bcm2837.MemoryMap
import Bcm2837.RegisterFile

/-!
# The I2C register driver

Field accessors and transfer helpers of the BSC block, access by access: a
compound assignment of the source is a load and a store here, so an interrupt or
the controller itself can come between them.
-/
namespace Bcm2837.I2c

open Bsc

abbrev Io := Mmio Register Word

/-- Bit position and width of a control field. -/
structure Field where
  shift : ℕ
  width : ℕ

def controlField : Control → Field
  | .READ => ⟨0, 1⟩
  | .CLEAR => ⟨4, 2⟩
  | .ST => ⟨7, 1⟩
  | .INTD => ⟨8, 1⟩
  | .INTT => ⟨9, 1⟩
  | .INTR => ⟨10, 1⟩
  | .I2CEN => ⟨15, 1⟩
  | .C_ALL => ⟨0, 32⟩

def statusShift : Status → ℕ
  | .TA => 0
  | .DONE => 1
  | .TXW => 2
  | .RXR => 3
  | .TXD => 4
  | .RXD => 5
  | .TXE => 6
  | .RXF => 7
  | .ERR => 8
  | .CLKT_TO => 9
  | .S_ALL => 0

/-- Low `w` bits set, with the full word for widths from 32 on. -/
def mask (w : ℕ) : Word := if w ≥ 32 then ~~~0 else ~~~((~~~0 : Word) <<< w)

def setControl (f : Control) (value : Word) : Io Unit := do
  let fld := controlField f
  Mmio.modify .C (· &&& ~~~(mask fld.width <<< fld.shift))
  Mmio.modify .C (· ||| ((value &&& mask fld.width) <<< fld.shift))

def clrControl (f : Control) : Io Unit :=
  let fld := controlField f
  Mmio.modify .C (· &&& ~~~(mask fld.width <<< fld.shift))

def getControl (f : Control) : Io Word := do
  let fld := controlField f
  let v ← Mmio.load .C
  return (v >>> fld.shift) &&& mask fld.width

def clrStatus (f : Status) : Io Unit := Mmio.store .S ((1 : Word) <<< statusShift f)

def enable : Io Unit := setControl .I2CEN 1

def disable : Io Unit := clrControl .I2CEN

def slaveAddress (addr : Word) : Io Unit := Mmio.store .A (addr &&& 0x7F)

def setDataLength (len : Word) : Io Unit := Mmio.store .DLEN (len &&& 0xFFFF)

def dataLength : Io Word := do
  let v ← Mmio.load .DLEN
  return v &&& 0xFFFF

def clockDivider (divider : Word) : Io Unit := Mmio.store .DIV (divider &&& 0xFFFF)

def clearFifo : Io Unit := setControl .CLEAR 0b01

def startRead : Io Unit := do
  enable
  setControl .READ 1
  setControl .ST 1

def startWrite : Io Unit := do
  enable
  setControl .READ 0
  setControl .ST 1

def writeByte (byte : Word) : Io Unit := Mmio.store .FIFO (byte &&& 0xFF)

def readByte : Io Word := do
  let v ← Mmio.load .FIFO
  return v &&& 0xFF

/-! ## Programs by the registers they reach -/

/-- Accesses to the control and status registers. -/
def Steers : Access Register Word → Prop
  | .load r => r = .C ∨ r = .S
  | .store r _ => r = .C ∨ r = .S

/-- Accesses to any register but the FIFO. -/
def Configures : Access Register Word → Prop
  | .load r => r ≠ .FIFO
  | .store r _ => r ≠ .FIFO

theorem Steers.configures (a : Access Register Word) (ha : Steers a) : Configures a := by
  cases a <;> rcases ha with rfl | rfl <;> exact nofun

theorem steers_modify (f : Word → Word) : (Mmio.modify .C f).Only Steers :=
  ⟨.inl rfl, fun _ => ⟨.inl rfl, fun _ => trivial⟩⟩

theorem steers_setControl (f : Control) (value : Word) : (setControl f value).Only Steers :=
  (steers_modify _).bind fun _ => steers_modify _

theorem steers_clrControl (f : Control) : (clrControl f).Only Steers := steers_modify _

theorem steers_clrStatus (f : Status) : (clrStatus f).Only Steers := ⟨.inr rfl, fun _ => trivial⟩

theorem steers_startRead : startRead.Only Steers :=
  (steers_setControl _ _).bind fun _ => (steers_setControl _ _).bind fun _ =>
    steers_setControl _ _

theorem steers_startWrite : startWrite.Only Steers :=
  (steers_setControl _ _).bind fun _ => (steers_setControl _ _).bind fun _ =>
    steers_setControl _ _

theorem configures_slaveAddress (addr : Word) : (slaveAddress addr).Only Configures :=
  ⟨nofun, fun _ => trivial⟩

theorem configures_setDataLength (len : Word) : (setDataLength len).Only Configures :=
  ⟨nofun, fun _ => trivial⟩

/-- The length a transfer programs, cut to the 16 bits of the register. -/
theorem dataLength_toNat (len : ℕ) :
    (BitVec.ofNat 32 len &&& 0xFFFF &&& 0xFFFF : Word).toNat = len % 65536 := by
  have hmask : (0xFFFF : ℕ) = 2 ^ 16 - 1 := rfl
  rw [BitVec.and_assoc, BitVec.and_self, BitVec.toNat_and, BitVec.toNat_ofNat]
  change len % 2 ^ 32 &&& 0xFFFF = _
  rw [hmask, Nat.and_two_pow_sub_one_eq_mod]
  omega

/-! ## The control word as a record of fields -/

/-- The source's mask is the library's, for every width. -/
theorem mask_eq_lowBits (w : ℕ) : mask w = BitField.lowBits 32 w := by
  unfold mask
  split_ifs with h
  · rw [BitField.lowBits_of_le h]
    rfl
  · rfl

end Bcm2837.I2c
