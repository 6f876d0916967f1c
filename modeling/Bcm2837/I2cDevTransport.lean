import Bcm2837.I2cTransport

/-!
# The Linux transport

Transfers through `ioctl(I2C_RDWR)` on an i2c-dev file descriptor, negative while
the device is not open.
-/
namespace Bcm2837

namespace Dev

def kAddrMax : Byte := 0x7F

/-- One kernel transaction, its errors mapped to results. -/
def transact (msgs : List I2cMsg) : TransportM I2cResult := do
  let reply ← ioctl msgs
  match reply with
  | .error e => return if e = .enxio ∨ e = .eremoteio then .nack else .timeout
  | .ok _ => return .ok

section

variable (fd : ℤ)

def write (addr : Byte) (buf : Ptr) (len : ℕ) : TransportM I2cResult :=
  if buf = nullptr ∨ len = 0 ∨ kAddrMax < addr then return .badArg
  else if fd < 0 then return .timeout
  else transact [⟨addr.setWidth 16, false, BitVec.ofNat 16 len, buf⟩]

def read (addr : Byte) (buf : Ptr) (len : ℕ) : TransportM I2cResult :=
  if buf = nullptr ∨ len = 0 ∨ kAddrMax < addr then return .badArg
  else if fd < 0 then return .timeout
  else transact [⟨addr.setWidth 16, true, BitVec.ofNat 16 len, buf⟩]

/-- Both messages in one transaction, with a repeated START between them. -/
def writeRead (addr : Byte) (wbuf : Ptr) (wlen : ℕ) (rbuf : Ptr) (rlen : ℕ) :
    TransportM I2cResult :=
  if wbuf = nullptr ∨ rbuf = nullptr ∨ wlen = 0 ∨ rlen = 0 ∨ kAddrMax < addr then
    return .badArg
  else if fd < 0 then return .timeout
  else transact [⟨addr.setWidth 16, false, BitVec.ofNat 16 wlen, wbuf⟩,
    ⟨addr.setWidth 16, true, BitVec.ofNat 16 rlen, rbuf⟩]

end

end Dev

/-- The Linux transport behind the seam. -/
def linuxDev (fd : ℤ) : I2cTransport := ⟨Dev.write fd, Dev.read fd, Dev.writeRead fd⟩

end Bcm2837
