import Mathlib.Data.BitVec

/-!
# Register blocks of the SoC

The register and field names of the GPIO, clock, interrupt, ARM-local, BSC and SPI blocks.
Blocks that the drivers index by a computed word offset (GPIO, ARM-local) keep
numbers for registers; the others are enumerations.
-/
namespace Bcm2837

abbrev Byte := BitVec 8
abbrev Word := BitVec 32

namespace Gpio

/-- A word offset into the GPIO block. -/
abbrev Register := ℕ

/-- The 3-bit function codes of a pin. -/
inductive Config
  | InputMode | OutputMode
  | AlternateFunction0 | AlternateFunction1 | AlternateFunction2
  | AlternateFunction3 | AlternateFunction4 | AlternateFunction5
  deriving DecidableEq

def Config.code : Config → Word
  | InputMode => 0b000
  | OutputMode => 0b001
  | AlternateFunction0 => 0b100
  | AlternateFunction1 => 0b101
  | AlternateFunction2 => 0b110
  | AlternateFunction3 => 0b111
  | AlternateFunction4 => 0b011
  | AlternateFunction5 => 0b010

inductive PullUpDownConfig
  | Off | EnablePullDown | EnablePullUp | Reserved
  deriving DecidableEq

def PullUpDownConfig.code : PullUpDownConfig → Word
  | Off => 0b00
  | EnablePullDown => 0b01
  | EnablePullUp => 0b10
  | Reserved => 0b11

/-- The function selection registers are words 0 to 5; from word 7 on follow the banks,
one bit a pin, a reserved word after each pair. -/
def GPSET0 : Register := 7
def GPSET1 : Register := 8
def GPCLR0 : Register := 10
def GPCLR1 : Register := 11
def GPLEV0 : Register := 13
def GPLEV1 : Register := 14
def GPEDS0 : Register := 16
def GPEDS1 : Register := 17
def GPREN0 : Register := 19
def GPREN1 : Register := 20
def GPFEN0 : Register := 22
def GPFEN1 : Register := 23
def GPHEN0 : Register := 25
def GPHEN1 : Register := 26
def GPLEN0 : Register := 28
def GPLEN1 : Register := 29
def GPAREN0 : Register := 31
def GPAREN1 : Register := 32
def GPAFEN0 : Register := 34
def GPAFEN1 : Register := 35
def GPPUD : Register := 37
def GPPUDCLK0 : Register := 38
def GPPUDCLK1 : Register := 39

/-- Words of the block. -/
def MAX : ℕ := 45

end Gpio

namespace Clock

/-- Registers of the general purpose clocks. -/
inductive Register
  | CM_GP0CTL | CM_GP0DIV | CM_GP1CTL | CM_GP1DIV | CM_GP2CTL | CM_GP2DIV
  deriving DecidableEq

/-- Fields of a control register. -/
inductive CM_GPnCTL_Type
  | SRC | ENAB | KILL | Unused | BUSY | FLIP | MASH | ALL
  deriving DecidableEq

/-- Fields of a divisor register. -/
inductive ClockDivisor
  | DIVF | DIVI | BOTH_VALUE
  deriving DecidableEq

end Clock

namespace Interrupt

/-- Registers of the legacy interrupt controller. -/
inductive Register
  | IRQ_Basic_Pending | IRQ_Pending1 | IRQ_Pending2 | FIQ_Control
  | Enable_IRQs_1 | Enable_IRQs_2 | Enable_Basic_IRQs
  | Disable_IRQs_1 | Disable_IRQs_2 | Disable_Basic_IRQs
  deriving DecidableEq

end Interrupt

namespace ArmLocal

/-- A word offset into the per-core ARM-local block. -/
abbrev Register := ℕ

/-- IRQ source of core 0; the register of core `c` lies `c` words further. -/
def CORE_IRQ_SOURCE0 : Register := 0x60 / 4

/-- Bits of a core's IRQ source register. -/
def CNTPSIRQ : ℕ := 0
def CNTVIRQ : ℕ := 3
def GPU : ℕ := 8

end ArmLocal

namespace Bsc

/-- Registers of the BSC I2C controller. -/
inductive Register
  | C | S | DLEN | A | FIFO | DIV | DEL | CLKT
  deriving DecidableEq

/-- Fields of the control register. -/
inductive Control
  | READ | CLEAR | ST | INTD | INTT | INTR | I2CEN | C_ALL
  deriving DecidableEq

/-- Fields of the status register. -/
inductive Status
  | TA | DONE | TXW | RXR | TXD | RXD | TXE | RXF | ERR | CLKT_TO | S_ALL
  deriving DecidableEq

end Bsc

namespace Spi

/-- Registers of the SPI0 master. -/
inductive Register
  | CS | FIFO | CLK | DLEN | LTOH | DC
  deriving DecidableEq

/-- Fields of the control and status register. -/
inductive ControlStatus
  | CS_LINE | CPHA | CPOL | CLEAR | CSPOL | TA | DMAEN | INTD | INTR | ADCS | REN | LEN
  | LMONO | TE_EN | DONE | RXD | TXD | RXR | RXF | CSPOL0 | CSPOL1 | CSPOL2 | DMA_LEN | LEN_LONG
  | CS_ALL
  deriving DecidableEq

end Spi

end Bcm2837
