import Bcm2837.BitField
import Bcm2837.MemoryMap
import Bcm2837.RegisterFile

/-!
# The GPIO driver

Pin numbers index the registers directly: ten 3-bit function fields to a selection
register, 32 pins to a bank register. Numbers above 53 name no pin and are ignored.
-/
namespace Bcm2837.Gpio

abbrev Io := Mmio Register Word

/-- The SoC has GPIO 0..53. -/
def GPIO_MAX : ℕ := 53

def valid (gpio : ℕ) : Bool := gpio ≤ GPIO_MAX

def write32 (gpio : ℕ) (value : Word) : Io Unit :=
  if valid gpio then Mmio.store (gpio / 10) value else pure ()

/-- Clear the pin's function field, then or in the requested code. -/
def write (gpio : ℕ) (cfg : Config) : Io Unit :=
  if valid gpio then do
    Mmio.modify (gpio / 10) (· &&& ~~~((7 : Word) <<< (gpio % 10 * 3)))
    Mmio.modify (gpio / 10) (· ||| (cfg.code <<< (gpio % 10 * 3)))
  else pure ()

def read32 (gpio : ℕ) : Io Word :=
  if valid gpio then Mmio.load (gpio / 10) else pure 0

/-- The pin's function field. -/
def read (gpio : ℕ) : Io Word :=
  if valid gpio then do
    let v ← Mmio.load (gpio / 10)
    return (v >>> (gpio % 10 * 3)) &&& 0b111
  else pure 0

def output (gpio : ℕ) : Io Unit :=
  if valid gpio then do
    Mmio.modify (gpio / 10) (· &&& ~~~((7 : Word) <<< (gpio % 10 * 3)))
    Mmio.modify (gpio / 10) (· ||| ((1 : Word) <<< (gpio % 10 * 3)))
  else pure ()

def input (gpio : ℕ) : Io Unit :=
  if valid gpio then
    Mmio.modify (gpio / 10) (· &&& ~~~((7 : Word) <<< (gpio % 10 * 3)))
  else pure ()

/-! ## Banks of one bit a pin -/

/-- Or the pin's bit into its bank. -/
def setBit (bank0 bank1 : Register) (gpio : ℕ) : Io Unit :=
  if valid gpio then
    if gpio < 32 then Mmio.modify bank0 (· ||| ((1 : Word) <<< gpio))
    else Mmio.modify bank1 (· ||| ((1 : Word) <<< (gpio - 32)))
  else pure ()

/-- The pin's bit in its bank. -/
def getBit (bank0 bank1 : Register) (gpio : ℕ) : Io Word :=
  if valid gpio then
    if gpio < 32 then do
      let v ← Mmio.load bank0
      return (v >>> gpio) &&& 1
    else do
      let v ← Mmio.load bank1
      return (v >>> (gpio - 32)) &&& 1
  else pure 0

def GPCLRn (gpio : ℕ) : Io Unit := setBit GPCLR0 GPCLR1 gpio
def GPSETn (gpio : ℕ) : Io Unit := setBit GPSET0 GPSET1 gpio
def GPGETn (gpio : ℕ) : Io Word := getBit GPSET0 GPSET1 gpio

/-- Setter and getter share a name in the source. -/
def GPLEVn.set (gpio : ℕ) : Io Unit := setBit GPLEV0 GPLEV1 gpio
def GPLEVn.get (gpio : ℕ) : Io Word := getBit GPLEV0 GPLEV1 gpio
def GPEDSn.set (gpio : ℕ) : Io Unit := setBit GPEDS0 GPEDS1 gpio
def GPEDSn.get (gpio : ℕ) : Io Word := getBit GPEDS0 GPEDS1 gpio
def GPRENn.set (gpio : ℕ) : Io Unit := setBit GPREN0 GPREN1 gpio
def GPRENn.get (gpio : ℕ) : Io Word := getBit GPREN0 GPREN1 gpio
def GPFENn.set (gpio : ℕ) : Io Unit := setBit GPFEN0 GPFEN1 gpio
def GPFENn.get (gpio : ℕ) : Io Word := getBit GPFEN0 GPFEN1 gpio
def GPHENn.set (gpio : ℕ) : Io Unit := setBit GPHEN0 GPHEN1 gpio
def GPHENn.get (gpio : ℕ) : Io Word := getBit GPHEN0 GPHEN1 gpio
def GPLENn.set (gpio : ℕ) : Io Unit := setBit GPLEN0 GPLEN1 gpio
def GPLENn.get (gpio : ℕ) : Io Word := getBit GPLEN0 GPLEN1 gpio
def GPARENn.set (gpio : ℕ) : Io Unit := setBit GPAREN0 GPAREN1 gpio
def GPARENn.get (gpio : ℕ) : Io Word := getBit GPAREN0 GPAREN1 gpio
def GPAFENn.set (gpio : ℕ) : Io Unit := setBit GPAFEN0 GPAFEN1 gpio
def GPAFENn.get (gpio : ℕ) : Io Word := getBit GPAFEN0 GPAFEN1 gpio
def GPPUDCLKn.set (gpio : ℕ) : Io Unit := setBit GPPUDCLK0 GPPUDCLK1 gpio
def GPPUDCLKn.get (gpio : ℕ) : Io Word := getBit GPPUDCLK0 GPPUDCLK1 gpio

/-- The pull control is one field for all pins; the pin number is not used. -/
def GPPUD.set (_gpio : ℕ) (cfg : PullUpDownConfig) : Io Unit := do
  Mmio.modify GPPUD (· &&& ~~~(3 : Word))
  Mmio.modify GPPUD (· ||| (3 &&& cfg.code))

def GPPUD.get (_gpio : ℕ) : Io Word := do
  let v ← Mmio.load GPPUD
  return v &&& 3

/-! ## A pin's place in its bank -/

theorem valid_iff (gpio : ℕ) : valid gpio = true ↔ gpio ≤ 53 := decide_eq_true_iff

/-- The register of the pair that holds the pin's bit. -/
def bank (bank0 bank1 : Register) (gpio : ℕ) : Register := if gpio < 32 then bank0 else bank1

/-- Both branches of the source shift by the pin's place in its bank. -/
theorem setBit_eq (bank0 bank1 : Register) (gpio : ℕ) :
    setBit bank0 bank1 gpio = if gpio ≤ 53 then
      Mmio.modify (bank bank0 bank1 gpio) (· ||| ((1 : Word) <<< (gpio % 32))) else pure () := by
  unfold setBit bank
  by_cases hvalid : gpio ≤ 53
  · rw [if_pos ((valid_iff gpio).mpr hvalid), if_pos hvalid]
    by_cases hlow : gpio < 32
    · rw [if_pos hlow, if_pos hlow, Nat.mod_eq_of_lt hlow]
    · have hmod : gpio % 32 = gpio - 32 := by omega
      rw [if_neg hlow, if_neg hlow, hmod]
  · rw [if_neg (mt (valid_iff gpio).mp hvalid), if_neg hvalid]

theorem getBit_eq (bank0 bank1 : Register) (gpio : ℕ) :
    getBit bank0 bank1 gpio = if gpio ≤ 53 then do
      let v ← Mmio.load (bank bank0 bank1 gpio)
      return (v >>> (gpio % 32)) &&& 1 else pure 0 := by
  unfold getBit bank
  by_cases hvalid : gpio ≤ 53
  · rw [if_pos ((valid_iff gpio).mpr hvalid), if_pos hvalid]
    by_cases hlow : gpio < 32
    · simp only [if_pos hlow, Nat.mod_eq_of_lt hlow]
    · have hmod : gpio % 32 = gpio - 32 := by omega
      simp only [if_neg hlow, hmod]
  · rw [if_neg (mt (valid_iff gpio).mp hvalid), if_neg hvalid]

/-- Two pins share their registers. -/
def SameBank (p gpio : ℕ) : Prop := p < 32 ↔ gpio < 32

instance (p gpio : ℕ) : Decidable (SameBank p gpio) := inferInstanceAs (Decidable (_ ↔ _))

theorem bank_eq_iff {bank0 bank1 : Register} (h : bank0 ≠ bank1) {p gpio : ℕ} :
    bank bank0 bank1 p = bank bank0 bank1 gpio ↔ SameBank p gpio := by
  unfold bank SameBank
  split_ifs <;> simp [*, Ne.symm h]

/-- Within a bank, pins are told apart by their bit. -/
theorem SameBank.mod_eq {p gpio : ℕ} (h : SameBank p gpio) (hp : p ≤ 53) (hg : gpio ≤ 53) :
    gpio % 32 = p % 32 ↔ p = gpio := by
  unfold SameBank at h
  omega

/-- The bit that stands for a pin stands for no other of its bank. -/
theorem getLsbD_ownBit {p gpio : ℕ} (hp : p ≤ 53) (hg : gpio ≤ 53) (h : SameBank p gpio) :
    ((1 : Word) <<< (gpio % 32)).getLsbD (p % 32) = decide (p = gpio) := by
  rw [BitField.getLsbD_one_shiftLeft, Bool.eq_iff_iff, decide_eq_true_iff, decide_eq_true_iff,
    h.mod_eq hp hg]
  exact ⟨fun h => h.2, fun h => ⟨Nat.mod_lt _ (by decide), h⟩⟩

/-- Setting the pull control is writing its two-bit field. -/
theorem control_eq (v x : Word) :
    v &&& ~~~(3 : Word) ||| (3 &&& x) = BitField.setField v 0 2 x := by
  rw [BitField.setField, BitField.clrField, BitField.lowBits_two, BitVec.shiftLeft_zero,
    BitVec.shiftLeft_zero, BitVec.and_comm 3 x]

theorem control_and (v x : Word) : BitField.setField v 0 2 x &&& 3 = x &&& 3 := by
  have h := BitField.getField_setField_same v x 0 2 (by decide)
  rwa [BitField.getField, BitVec.ushiftRight_zero, BitField.lowBits_two] at h

theorem code_and_three (cfg : PullUpDownConfig) : cfg.code &&& 3 = cfg.code := by
  cases cfg <;> decide

/-- The pin's bit in a pair of registers. -/
def pinBit (bank0 bank1 : Register) (m : Register → Word) (gpio : ℕ) : Bool :=
  (m (bank bank0 bank1 gpio)).getLsbD (gpio % 32)

end Bcm2837.Gpio
