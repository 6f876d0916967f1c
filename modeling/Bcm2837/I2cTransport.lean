import Bcm2837.I2cWorld

/-!
# The transport seam and the polled transport

`I2cTransport` is the abstract byte transport that sensor drivers use, with its two
register helpers. `Polled` is the implementation that spins on the status word.
-/
namespace Bcm2837

open Bsc

/-- The seam: the three operations an implementation supplies. -/
structure I2cTransport where
  write : Byte → Ptr → ℕ → TransportM I2cResult
  read : Byte → Ptr → ℕ → TransportM I2cResult
  writeRead : Byte → Ptr → ℕ → Ptr → ℕ → TransportM I2cResult

namespace I2cTransport

/-- Read `n` bytes starting at register pointer `reg`, kept in a local variable. -/
def readReg (t : I2cTransport) (addr reg : Byte) (buf : Ptr) (n : ℕ) : TransportM I2cResult := do
  let p ← localArray [reg]
  t.writeRead addr p 1 buf n

/-- Write one byte to register `reg` from a local two-byte array. -/
def writeReg (t : I2cTransport) (addr reg value : Byte) : TransportM I2cResult := do
  let p ← localArray [reg, value]
  t.write addr p 2

end I2cTransport

/-- Bits of a status word. -/
def S_DONE : Word := 1 <<< 1
def S_TXD : Word := 1 <<< 4
def S_RXD : Word := 1 <<< 5
def S_ERR : Word := 1 <<< 8
def S_CLKT : Word := 1 <<< 9

def ADDR_MAX : Byte := 0x7F

/-- `s & bit` as a truth value. -/
def Word.has (s bit : Word) : Bool := s &&& bit != 0

/-- The argument check that every BSC transfer starts with. -/
def badArgs (addr : Byte) (buf : Ptr) (len : ℕ) : Bool :=
  buf == nullptr || len == 0 || ADDR_MAX < addr

namespace Polled

/-- Mux GPIO2/3 to ALT0, set the divider, enable the controller. -/
def busInit (divider : BitVec 16) : TransportM Unit := do
  gpio (Gpio.write 2 .AlternateFunction0)
  gpio (Gpio.write 3 .AlternateFunction0)
  i2c (I2c.clockDivider (divider.setWidth 32))
  i2c I2c.enable

def pollStatus : TransportM Word := readStatus

/-- Clear the FIFO and the event bits, program the address and the length. -/
def prime (addr : Byte) (len : ℕ) : TransportM Unit := do
  i2c I2c.clearFifo
  i2c (I2c.clrStatus .DONE)
  i2c (I2c.clrStatus .ERR)
  i2c (I2c.clrStatus .CLKT_TO)
  i2c (I2c.slaveAddress (addr.setWidth 32))
  i2c (I2c.setDataLength (BitVec.ofNat 32 len))

def classify (status : Word) : I2cResult :=
  if Word.has status S_ERR then .nack
  else if Word.has status S_CLKT then .clockTimeout
  else .ok

/-- The polling loop of `write` with its remaining budget and buffer index;
`none` is the budget running out. -/
def writeLoop (buf : Ptr) (len : ℕ) : ℕ → ℕ → TransportM (Option I2cResult)
  | 0, _ => return none
  | spins + 1, i => do
    let s ← pollStatus
    if Word.has s S_ERR then return some .nack
    else if Word.has s S_CLKT then return some .clockTimeout
    else if Word.has s S_TXD && i < len then
      let b ← loadByte (buf + i)
      i2c (I2c.writeByte (b.setWidth 32))
      writeLoop buf len spins (i + 1)
    else if Word.has s S_DONE then return some (classify s)
    else writeLoop buf len spins i

def write (maxSpins : ℕ) (addr : Byte) (buf : Ptr) (len : ℕ) : TransportM I2cResult :=
  if badArgs addr buf len then return .badArg
  else do
    prime addr len
    i2c I2c.startWrite
    let r ← writeLoop buf len maxSpins 0
    return r.getD .timeout

/-- The polling loop of `read`, draining the FIFO before DONE is honoured. -/
def readLoop (buf : Ptr) (len : ℕ) : ℕ → ℕ → TransportM (Option I2cResult)
  | 0, _ => return none
  | spins + 1, i => do
    let s ← pollStatus
    if Word.has s S_ERR then return some .nack
    else if Word.has s S_CLKT then return some .clockTimeout
    else if Word.has s S_RXD && i < len then
      let b ← i2c I2c.readByte
      storeByte (buf + i) ((b &&& 0xFF).setWidth 8)
      readLoop buf len spins (i + 1)
    else if Word.has s S_DONE then return some (if i < len then .timeout else classify s)
    else readLoop buf len spins i

def read (maxSpins : ℕ) (addr : Byte) (buf : Ptr) (len : ℕ) : TransportM I2cResult :=
  if badArgs addr buf len then return .badArg
  else do
    prime addr len
    i2c I2c.startRead
    let r ← readLoop buf len maxSpins 0
    return r.getD .timeout

/-- Two transactions back to back: the controller has no repeated START. -/
def writeRead (maxSpins : ℕ) (addr : Byte) (wbuf : Ptr) (wlen : ℕ) (rbuf : Ptr) (rlen : ℕ) :
    TransportM I2cResult := do
  let w ← write maxSpins addr wbuf wlen
  if w ≠ .ok then return w
  read maxSpins addr rbuf rlen

end Polled

/-- The polled transport behind the seam. -/
def polled (maxSpins : ℕ) : I2cTransport :=
  ⟨Polled.write maxSpins, Polled.read maxSpins, Polled.writeRead maxSpins⟩

end Bcm2837
