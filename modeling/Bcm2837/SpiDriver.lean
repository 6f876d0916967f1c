import Bcm2837.I2cDriver

/-!
# The SPI register driver

Field accessors and transfer helpers of the SPI0 block.
-/
namespace Bcm2837.Spi

abbrev Io := Mmio Register Word

/-- Bit position and width of a field of the control and status register. -/
def csField : ControlStatus → I2c.Field
  | .CS_LINE => ⟨0, 2⟩
  | .CPHA => ⟨2, 1⟩
  | .CPOL => ⟨3, 1⟩
  | .CLEAR => ⟨4, 2⟩
  | .CSPOL => ⟨6, 1⟩
  | .TA => ⟨7, 1⟩
  | .DMAEN => ⟨8, 1⟩
  | .INTD => ⟨9, 1⟩
  | .INTR => ⟨10, 1⟩
  | .ADCS => ⟨11, 1⟩
  | .REN => ⟨12, 1⟩
  | .LEN => ⟨13, 1⟩
  | .LMONO => ⟨14, 1⟩
  | .TE_EN => ⟨15, 1⟩
  | .DONE => ⟨16, 1⟩
  | .RXD => ⟨17, 1⟩
  | .TXD => ⟨18, 1⟩
  | .RXR => ⟨19, 1⟩
  | .RXF => ⟨20, 1⟩
  | .CSPOL0 => ⟨21, 1⟩
  | .CSPOL1 => ⟨22, 1⟩
  | .CSPOL2 => ⟨23, 1⟩
  | .DMA_LEN => ⟨24, 1⟩
  | .LEN_LONG => ⟨25, 1⟩
  | .CS_ALL => ⟨0, 32⟩

/-- The file has a copy of its own. -/
def mask (w : ℕ) : Word := I2c.mask w

def setCs (f : ControlStatus) (value : Word) : Io Unit := do
  let fld := csField f
  Mmio.modify .CS (· &&& ~~~(mask fld.width <<< fld.shift))
  Mmio.modify .CS (· ||| ((value &&& mask fld.width) <<< fld.shift))

def clrCs (f : ControlStatus) : Io Unit :=
  let fld := csField f
  Mmio.modify .CS (· &&& ~~~(mask fld.width <<< fld.shift))

def getCs (f : ControlStatus) : Io Word := do
  let fld := csField f
  let v ← Mmio.load .CS
  return (v >>> fld.shift) &&& mask fld.width

def mode (cpol cpha : Word) : Io Unit := do
  setCs .CPOL cpol
  setCs .CPHA cpha

def chipSelect (ce : Word) : Io Unit := setCs .CS_LINE ce

def clearFifo : Io Unit := setCs .CLEAR 0b11

def beginTransfer : Io Unit := setCs .TA 1

def endTransfer : Io Unit := clrCs .TA

end Bcm2837.Spi
