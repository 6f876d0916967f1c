import Bcm2837.I2cTransport

/-!
# The interrupt-driven transport

`start` publishes the transfer record and kicks the controller, `handleIrq` is the
interrupt handler that moves the bytes and finishes the transfer, `waitComplete` is
the watchdog loop of the synchronous calls. How a waiting thread meets its
interrupts (`wait_for_irq`) is a parameter.
-/
namespace Bcm2837

open Bsc

namespace Irq

/-- The BSC interrupt line. -/
def kBsc1Irq : ℕ := 53

def busInit (divider : BitVec 16) : TransportM Unit := do
  gpio (Gpio.write 2 .AlternateFunction0)
  gpio (Gpio.write 3 .AlternateFunction0)
  i2c (I2c.clockDivider (divider.setWidth 32))
  i2c I2c.enable
  irq (Interrupt.installIRQHandler .dispatchTrampoline kBsc1Irq (some .bscIsrTrampoline))
  irq (Interrupt.enable kBsc1Irq)
  memBarrier

def start (addr : Byte) (tx : Ptr) (tn : ℕ) (rx : Ptr) (rn : ℕ) (reading : Bool)
    (cb : Completion) (user : Ptr) : TransportM I2cResult := do
  assign .fresh
  assign (.tx tx)
  assign (.tn tn)
  assign (.rx rx)
  assign (.rn rn)
  assign (.reading reading)
  assign (.cb cb)
  assign (.user user)
  assign (.active true)
  i2c I2c.clearFifo
  i2c (I2c.clrStatus .DONE)
  i2c (I2c.clrStatus .ERR)
  i2c (I2c.clrStatus .CLKT_TO)
  i2c (I2c.slaveAddress (addr.setWidth 32))
  i2c (I2c.setDataLength (BitVec.ofNat 32 (if reading then rn else tn)))
  if reading then
    i2c (I2c.setControl .INTR 1)
    i2c (I2c.setControl .INTD 1)
    i2c I2c.startRead
  else
    i2c (I2c.setControl .INTT 1)
    i2c (I2c.setControl .INTD 1)
    i2c I2c.startWrite
  memBarrier
  return .ok

def writeAsync (addr : Byte) (buf : Ptr) (len : ℕ) (cb : Completion) (user : Ptr) :
    TransportM I2cResult := do
  let x ← xfer
  if badArgs addr buf len || x.active then return .badArg
  start addr buf len nullptr 0 false cb user

def readAsync (addr : Byte) (buf : Ptr) (len : ℕ) (cb : Completion) (user : Ptr) :
    TransportM I2cResult := do
  let x ← xfer
  if badArgs addr buf len || x.active then return .badArg
  start addr nullptr 0 buf len true cb user

/-- The call that a request stands for. -/
def call : AsyncCall → TransportM I2cResult
  | .writeAsync addr buf len cb user => writeAsync addr buf len cb user
  | .readAsync addr buf len cb user => readAsync addr buf len cb user

/-- Make an asynchronous call and put its result on record. -/
def perform (c : AsyncCall) : TransportM I2cResult := do
  let r ← call c
  Prog.call (Cmd.returned c r) fun _ => pure r

/-- The calls a callback makes, in order, until it returns. -/
def runBody : CallbackBody → TransportM Unit
  | .ret _ => pure ()
  | .call c k => do
    let r ← perform c
    runBody (k r)

/-- `cb(r, user)`: the environment says what this invocation does. -/
def complete (cb : Completion) (r : I2cResult) (user : Ptr) : TransportM Unit := do
  let body ← Prog.call (Cmd.enter cb r user) Prog.ret
  runBody body

def finalize (r : I2cResult) : TransportM Unit := do
  i2c (I2c.clrStatus .DONE)
  i2c (I2c.clrStatus .ERR)
  i2c (I2c.clrStatus .CLKT_TO)
  i2c (I2c.clrControl .INTD)
  i2c (I2c.clrControl .INTT)
  i2c (I2c.clrControl .INTR)
  assign (.result r)
  memBarrier
  assign (.done true)
  assign (.active false)
  let x ← xfer
  if x.cb ≠ nullptr then
    assign (.cb nullptr)
    complete x.cb r x.user

/-- The handler's loop. Each pass that continues moves one byte, so the bytes owed
bound the passes; the caller supplies one pass more than that. -/
def irqLoop : ℕ → TransportM Unit
  | 0 => pure ()
  | fuel + 1 => do
    let s ← readStatus
    if Word.has s S_ERR then finalize .nack
    else if Word.has s S_CLKT then finalize .clockTimeout
    else
      let x ← xfer
      if x.reading && (Word.has s S_RXD && x.ri < x.rn) then
        let b ← i2c I2c.readByte
        assign (.ri (x.ri + 1))
        storeByte (x.rx + x.ri) ((b &&& 0xFF).setWidth 8)
        irqLoop fuel
      else if !x.reading && (Word.has s S_TXD && x.ti < x.tn) then
        assign (.ti (x.ti + 1))
        let b ← loadByte (x.tx + x.ti)
        i2c (I2c.writeByte (b.setWidth 32))
        irqLoop fuel
      else if Word.has s S_DONE then
        let ok := if x.reading then x.ri == x.rn else true
        finalize (if ok then .ok else .timeout)
      else pure ()

/-- Bytes the record still owes in both directions. -/
def owed (x : Xfer) : ℕ := (x.rn - x.ri) + (x.tn - x.ti)

def handleIrq : TransportM Unit := do
  memBarrier
  let x ← xfer
  irqLoop (owed x + 1)

def abortTransfer : TransportM Unit := do
  i2c (I2c.clrControl .INTD)
  i2c (I2c.clrControl .INTT)
  i2c (I2c.clrControl .INTR)
  i2c I2c.clearFifo
  i2c (I2c.clrStatus .DONE)
  i2c (I2c.clrStatus .ERR)
  i2c (I2c.clrStatus .CLKT_TO)
  assign (.active false)

/-- Any number of interrupts, as the environment has them. -/
def anyIrqs : TransportM Unit := do
  let n ← Prog.call Cmd.interrupts Prog.ret
  Prog.times handleIrq n

section Synchronous

variable (wait : TransportM Unit)

/-- The watchdog loop: `some` is the result seen in time, `none` the budget gone. -/
def waitLoop : ℕ → TransportM (Option I2cResult)
  | 0 => return none
  | waits + 1 => do
    memBarrier
    let x ← xfer
    if x.done then return some x.result
    else
      wait
      waitLoop waits

def waitComplete (maxWaits : ℕ) : TransportM I2cResult := do
  match ← waitLoop wait maxWaits with
  | some r => return r
  | none =>
    abortTransfer
    return .timeout

def write (maxWaits : ℕ) (addr : Byte) (buf : Ptr) (len : ℕ) : TransportM I2cResult :=
  if badArgs addr buf len then return .badArg
  else do
    let _ ← start addr buf len nullptr 0 false nullptr nullptr
    waitComplete wait maxWaits

def read (maxWaits : ℕ) (addr : Byte) (buf : Ptr) (len : ℕ) : TransportM I2cResult :=
  if badArgs addr buf len then return .badArg
  else do
    let _ ← start addr nullptr 0 buf len true nullptr nullptr
    waitComplete wait maxWaits

def writeRead (maxWaits : ℕ) (addr : Byte) (wbuf : Ptr) (wlen : ℕ) (rbuf : Ptr) (rlen : ℕ) :
    TransportM I2cResult := do
  let w ← write wait maxWaits addr wbuf wlen
  if w ≠ .ok then return w
  read wait maxWaits addr rbuf rlen

end Synchronous

end Irq

/-- The interrupt-driven transport behind the seam. -/
def interruptDriven (wait : TransportM Unit) (maxWaits : ℕ) : I2cTransport :=
  ⟨Irq.write wait maxWaits, Irq.read wait maxWaits, Irq.writeRead wait maxWaits⟩

end Bcm2837
