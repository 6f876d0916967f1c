import Bcm2837.BitField
import Bcm2837.ByteMemory
import Bcm2837.MemoryMap

/-!
# Where a register block lies

A block is reached in two ways. Bare-metal code takes the address that its `operator new`
computes from `BCM_PERIPH_BASE`; a Linux process maps the pages around the block and adds
the offset in the page. The two ought to reach the same physical registers.
-/
namespace Bcm2837

open ByteMemory (offset)

/-- Pointers and `uintptr_t` of a 64-bit build. -/
abbrev Pointer := BitVec 64

/-- The blocks of the GPIO, BSC1 and SPI0 drivers. -/
inductive Block
  | GPIO | BSC1 | SPI0
  deriving DecidableEq

namespace Block

/-- Registers of the block. -/
def words : Block → ℕ
  | GPIO => Gpio.MAX
  | BSC1 => 8
  | SPI0 => 6

/-- `sizeof` of the block, four bytes a register. -/
def size (b : Block) : ℕ := 4 * b.words

/-- Offset of the block from the peripheral base, for the mapping. -/
def OFFSET : Block → Pointer
  | GPIO => 0x200000
  | BSC1 => 0x804000
  | SPI0 => 0x204000

/-- `(BCM_PERIPH_BASE) + (off)`. The offset is a 32-bit unsigned literal, so the sum is
taken in 32 bits unless the base needs more. -/
def addLiteral (base : Pointer) (off : Word) : Pointer :=
  if base < 0x100000000 then (base.setWidth 32 + off).setWidth 64 else base + off.setWidth 64

/-- `operator new` of the block: the region if there is one, else the default address. -/
def operatorNew (base : Pointer) (b : Block) (region : Option Pointer) : Pointer :=
  match region with
  | some region => region
  | none =>
    match b with
    | GPIO => addLiteral base 0x00200000
    | BSC1 => 0x3F804000
    | SPI0 => addLiteral base 0x00204000

end Block

/-- `&m_register[i]` of a block at `p`. -/
def registerAt (p : Pointer) (i : ℕ) : Pointer := offset p (4 * i)

/-! ## Mappings -/

/-- The parts of the operating system that a mapping uses. -/
structure Os where
  pageBits : ℕ
  opens : String → Bool
  /-- The address for a length and a file offset. -/
  mmap : Pointer → Pointer → Option Pointer
  /-- The physical address behind a virtual one. -/
  physical : Pointer → Pointer

namespace Os

variable (os : Os)

def pageSize : Pointer := (1 : Pointer) <<< os.pageBits

def pageBase (phys : Pointer) : Pointer := phys &&& ~~~(os.pageSize - 1)

/-- What `mmap` provides: the bytes of the file from `off` on. -/
def Shows (map : Pointer) (length off : Pointer) : Prop :=
  ∀ j < length.toNat, os.physical (offset map j) = offset off j

end Os

structure MMIO where
  map : Pointer
  pageOffset : Pointer
  length : Pointer

namespace MMIO

/-- The constructor, with the texts it throws. -/
def new (os : Os) (phys length : Pointer) (dev : String) : Except String MMIO :=
  if os.opens dev then
    let page_base := os.pageBase phys
    let m_offset := phys - page_base
    let m_length := m_offset + length
    match os.mmap m_length page_base with
    | some map => .ok ⟨map, m_offset, m_length⟩
    | none => .error "bcm2837 MMIO: mmap failed"
  else .error ("bcm2837 MMIO: open(" ++ dev ++ ") failed")

def get (io : MMIO) : Pointer := io.map + io.pageOffset

end MMIO

/-- A mapping and the block placed over it. -/
structure Mapped where
  io : MMIO
  block : Pointer

/-- `map_gpio`, `map_i2c` and `map_spi`, for the base that `periph_base` gives. -/
def mapBlock (os : Os) (base : Pointer) (b : Block) : Except String Mapped := do
  let io ← MMIO.new os (base + b.OFFSET) (BitVec.ofNat 64 b.size) "/dev/mem"
  return ⟨io, b.operatorNew base (some io.get)⟩

def map_gpio (os : Os) (periph_base : Pointer) : Except String Mapped :=
  mapBlock os periph_base Block.GPIO

def map_i2c (os : Os) (periph_base : Pointer) : Except String Mapped :=
  mapBlock os periph_base Block.BSC1

def map_spi (os : Os) (periph_base : Pointer) : Except String Mapped :=
  mapBlock os periph_base Block.SPI0

/-- The mapping of each block by the function the source has for it. -/
def Block.map : Block → Os → Pointer → Except String Mapped
  | GPIO => map_gpio
  | BSC1 => map_i2c
  | SPI0 => map_spi

theorem Block.map_eq (b : Block) (os : Os) (base : Pointer) :
    b.map os base = mapBlock os base b := by
  cases b <;> rfl

/-- A mapping that is made has the shape the constructor gives it. -/
theorem MMIO.new_ok {os : Os} {phys length : Pointer} {dev : String} {io : MMIO}
    (h : MMIO.new os phys length dev = .ok io) :
    io.pageOffset = phys - os.pageBase phys ∧ io.length = io.pageOffset + length := by
  rw [ MMIO.new] at h
  split_ifs at h with hopen
  cases hmap : os.mmap (phys - os.pageBase phys + length) (os.pageBase phys) with
  | none =>
    simp only [hmap] at h
    cases h
  | some map =>
    simp only [hmap] at h
    cases h
    exact ⟨rfl, rfl⟩

/-- A driver that is mapped works on its mapping. -/
theorem of_map_ok {os : Os} {base : Pointer} {b : Block} {m : Mapped}
    (h : b.map os base = .ok m) :
    MMIO.new os (base + b.OFFSET) (BitVec.ofNat 64 b.size) "/dev/mem" = .ok m.io ∧
      m.block = m.io.get := by
  rw [Block.map_eq, mapBlock] at h
  cases hio : MMIO.new os (base + b.OFFSET) (BitVec.ofNat 64 b.size) "/dev/mem" with
  | error text =>
    rw [hio] at h
    cases h
  | ok io =>
    rw [hio] at h
    cases h
    exact ⟨rfl, rfl⟩

/-! ## The offset in the page -/

/-- The offset in the page is less than a page. -/
theorem toNat_sub_pageBase (os : Os) (hpage : os.pageBits < 64) (p : Pointer) :
    (p - os.pageBase p).toNat = p.toNat % 2 ^ os.pageBits := by
  have hpow : 2 ^ os.pageBits < 2 ^ 64 := Nat.pow_lt_pow_right (by decide) hpage
  have hpos : 0 < 2 ^ os.pageBits := Nat.two_pow_pos _
  have hsize : os.pageSize.toNat = 2 ^ os.pageBits := by
    unfold Os.pageSize
    rw [BitVec.toNat_shiftLeft, Nat.shiftLeft_eq]
    have hone : (1 : Pointer).toNat = 1 := by decide
    rw [hone, Nat.one_mul, Nat.mod_eq_of_lt hpow]
  have hmask : (os.pageSize - 1).toNat = 2 ^ os.pageBits - 1 := by
    have hone : (1 : Pointer).toNat = 1 := by decide
    rw [BitVec.toNat_sub, hsize, hone]
    omega
  have hsub : p - os.pageBase p = p &&& (os.pageSize - 1) := by
    have hsplit := BitField.and_not_add_and p (os.pageSize - 1)
    unfold Os.pageBase
    nth_rewrite 1 [← hsplit]
    rw [BitVec.add_comm, BitVec.add_sub_cancel]
  rw [hsub, BitVec.toNat_and, hmask, Nat.and_two_pow_sub_one_eq_mod]

/-- The two ways to a block reach the same registers, and the mapping covers it. -/
structure Alike (os : Os) (base : Pointer) (b : Block) (m : Mapped) : Prop where
  registers : ∀ i < b.words,
    registerAt (b.operatorNew base none) i = os.physical (registerAt m.block i)
  covers : m.io.pageOffset.toNat + b.size ≤ m.io.length.toNat

/-- The default address of the block is the base plus the offset of the block. -/
def Block.Follows (base : Pointer) : Block → Prop
  | GPIO => base.toNat < 2 ^ 32 → base.toNat + 0x200000 < 2 ^ 32
  | BSC1 => base = 0x3F000000
  | SPI0 => base.toNat < 2 ^ 32 → base.toNat + 0x204000 < 2 ^ 32

/-- The 32-bit sum is the offset from the base unless it wraps. -/
theorem addLiteral_eq_iff (base : Pointer) (off : Word) :
    Block.addLiteral base off = base + off.setWidth 64 ↔
      (base.toNat < 2 ^ 32 → base.toNat + off.toNat < 2 ^ 32) := by
  have hbase := base.isLt
  have hoff := off.isLt
  have hlimit : base < 0x100000000 ↔ base.toNat < 2 ^ 32 := BitVec.lt_def
  unfold Block.addLiteral
  split_ifs with h
  · rw [hlimit] at h
    rw [BitVec.toNat_eq, BitVec.toNat_setWidth, BitVec.toNat_add, BitVec.toNat_add,
      BitVec.toNat_setWidth, BitVec.toNat_setWidth]
    omega
  · rw [hlimit] at h
    exact ⟨fun _ hlt => absurd hlt h, fun _ => rfl⟩

theorem operatorNew_none_eq_iff (base : Pointer) (b : Block) :
    b.operatorNew base none = base + b.OFFSET ↔ b.Follows base := by
  cases b with
  | GPIO => exact addLiteral_eq_iff base 0x00200000
  | BSC1 =>
    have hsplit : (0x3F804000 : Pointer) = 0x3F000000 + 0x804000 := by decide
    change (0x3F804000 : Pointer) = base + 0x804000 ↔ base = 0x3F000000
    rw [hsplit, BitVec.add_left_inj, eq_comm]
  | SPI0 => exact addLiteral_eq_iff base 0x00204000

section Mapping

variable {os : Os} {phys : Pointer} {size : ℕ} {dev : String} {io : MMIO}
  (hpage : os.pageBits < 64) (hsize : size ≤ 180)
  (hio : MMIO.new os phys (BitVec.ofNat 64 size) dev = .ok io)
include hpage hsize hio

/-- A mapping has room for its block behind the offset in the page. -/
theorem MMIO.length_eq : io.length.toNat = io.pageOffset.toNat + size := by
  obtain ⟨hoffset, hlength⟩ := MMIO.new_ok hio
  have hmod := toNat_sub_pageBase os hpage phys
  rw [← hoffset] at hmod
  have hlt := Nat.mod_lt phys.toNat (Nat.two_pow_pos os.pageBits)
  have hpow : 2 ^ os.pageBits ≤ 2 ^ 63 := Nat.pow_le_pow_right (by decide) (by omega)
  rw [hlength, BitVec.toNat_add, BitVec.toNat_ofNat]
  omega

/-- Behind the mapped registers lie those at the address asked for. -/
theorem MMIO.physical_registerAt
    (hshows : os.Shows io.map io.length (os.pageBase phys)) {i : ℕ} (hi : 4 * i < size) :
    os.physical (registerAt io.get i) = registerAt phys i := by
  obtain ⟨hoffset, -⟩ := MMIO.new_ok hio
  have hlength := MMIO.length_eq hpage hsize hio
  have hin : io.pageOffset.toNat + 4 * i < io.length.toNat := by omega
  have hpointer (p : Pointer) :
      registerAt (p + io.pageOffset) i = offset p (io.pageOffset.toNat + 4 * i) := by
    rw [registerAt, ← ByteMemory.offset_offset]
    simp
  have hbase : os.pageBase phys + io.pageOffset = phys := by
    rw [hoffset, BitVec.add_comm, BitVec.sub_add_cancel]
  rw [ MMIO.get, hpointer, hshows _ hin, ← hpointer, hbase]

end Mapping

theorem Block.size_le (b : Block) : b.size ≤ 180 := by cases b <;> decide

/-- Behind the mapped registers lie the base and the offset of the block. -/
theorem physical_registerAt {os : Os} {base : Pointer} {b : Block} {m : Mapped}
    (hpage : os.pageBits < 64) (hm : b.map os base = .ok m)
    (hshows : os.Shows m.io.map m.io.length (os.pageBase (base + b.OFFSET))) {i : ℕ}
    (hi : i < b.words) :
    os.physical (registerAt m.block i) = registerAt (base + b.OFFSET) i := by
  obtain ⟨hio, hblock⟩ := of_map_ok hm
  rw [hblock]
  exact MMIO.physical_registerAt hpage b.size_le hio hshows
    (Nat.mul_lt_mul_of_pos_left hi (by decide))

/-- The default placement and the mapping of a block meet exactly when the address that
`operator new` has for the block follows the base: for BSC1 that is one base only, for the
others every base whose sum stays within 32 bits or needs more than 32 bits itself. -/
theorem alike_iff_follows (os : Os) (hpage : os.pageBits < 64) (base : Pointer) (b : Block)
    (m : Mapped) (hm : b.map os base = .ok m)
    (hshows : os.Shows m.io.map m.io.length (os.pageBase (base + b.OFFSET))) :
    Alike os base b m ↔ b.Follows base := by
  rw [← operatorNew_none_eq_iff]
  constructor
  · intro h
    have hwords : 0 < b.words := by cases b <;> decide
    have hfirst := h.registers 0 hwords
    rw [physical_registerAt hpage hm hshows hwords] at hfirst
    simpa [registerAt] using hfirst
  · intro h
    refine ⟨fun i hi => ?_, ( MMIO.length_eq hpage b.size_le (of_map_ok hm).1).ge⟩
    rw [h, physical_registerAt hpage hm hshows hi]

/-! ## The clock block -/

namespace ClockBlock

/-- Registers of the block, up to `CM_GP2DIV`. -/
def words : ℕ := 6

def size : ℕ := 4 * words

/-- Offset of `CM_GP0CTL` from the peripheral base, for the mapping. -/
def OFFSET : Pointer := 0x101070

def operatorNew (base : Pointer) (region : Option Pointer) : Pointer :=
  match region with
  | some region => region
  | none => Block.addLiteral base 0x00100000

/-- The default address, unlike that of the other blocks, is right for no base. -/
theorem operatorNew_none_ne (base : Pointer) : operatorNew base none ≠ base + OFFSET := by
  have hbase := base.isLt
  have hlimit : base < 0x100000000 ↔ base.toNat < 2 ^ 32 := BitVec.lt_def
  have hdefault : (0x00100000 : Word).toNat = 0x100000 := rfl
  have hoffset : OFFSET.toNat = 0x101070 := rfl
  rw [ne_eq, BitVec.toNat_eq, BitVec.toNat_add, hoffset, operatorNew, Block.addLiteral]
  split_ifs with h
  · rw [hlimit] at h
    rw [BitVec.toNat_setWidth, BitVec.toNat_add, BitVec.toNat_setWidth, hdefault]
    omega
  · rw [BitVec.toNat_add, BitVec.toNat_setWidth, hdefault]
    omega

end ClockBlock

def map_clock (os : Os) (periph_base : Pointer) : Except String Mapped := do
  let io ← MMIO.new os (periph_base + ClockBlock.OFFSET) (BitVec.ofNat 64 ClockBlock.size)
    "/dev/mem"
  return ⟨io, ClockBlock.operatorNew periph_base (some io.get)⟩

/-- A mapped clock driver reaches the registers at the base and the offset of the block. -/
theorem physical_clock {os : Os} {base : Pointer} {m : Mapped} (hpage : os.pageBits < 64)
    (hm : map_clock os base = .ok m)
    (hshows : os.Shows m.io.map m.io.length (os.pageBase (base + ClockBlock.OFFSET))) {i : ℕ}
    (hi : i < ClockBlock.words) :
    os.physical (registerAt m.block i) = registerAt (base + ClockBlock.OFFSET) i := by
  have hsize : ClockBlock.size ≤ 180 := by decide
  rw [map_clock] at hm
  cases hio : MMIO.new os (base + ClockBlock.OFFSET) (BitVec.ofNat 64 ClockBlock.size)
      "/dev/mem" with
  | error text =>
    rw [hio] at hm
    cases hm
  | ok io =>
    rw [hio] at hm
    cases hm
    exact MMIO.physical_registerAt hpage hsize hio hshows
      (Nat.mul_lt_mul_of_pos_left hi (by decide))

/-! ## A system -/

/-- A system with pages of 4 KB that maps every request at one address. -/
def linux (off : Pointer) : Os where
  pageBits := 12
  opens _ := true
  mmap _ _ := some 0x7F0000000000
  physical p := p - 0x7F0000000000 + off

theorem linux_shows (off length : Pointer) : (linux off).Shows 0x7F0000000000 length off := by
  intro j _
  change offset 0x7F0000000000 j - 0x7F0000000000 + off = offset off j
  rw [offset, BitVec.add_comm _ (BitVec.ofNat 64 j), BitVec.add_sub_cancel, BitVec.add_comm]

/-- The one base where BSC1 is where it should be. -/
theorem alike_iff_follows_bsc1 : Alike (linux 0x3F804000) 0x3F000000 .BSC1
    ⟨⟨0x7F0000000000, 0, 32⟩, 0x7F0000000000⟩ :=
  (alike_iff_follows (linux 0x3F804000) (by decide) 0x3F000000 .BSC1
    ⟨⟨0x7F0000000000, 0, 32⟩, 0x7F0000000000⟩ rfl (linux_shows 0x3F804000 32)).mpr rfl

/-- On a BCM2835 the default BSC1 lies at the address of another board. -/
theorem bsc1_misplaced :
    (Block.BSC1.map (linux 0x20804000) 0x20000000 =
        .ok ⟨⟨0x7F0000000000, 0, 32⟩, 0x7F0000000000⟩) ∧
      registerAt (Block.BSC1.operatorNew 0x20000000 none) 0 = 0x3F804000 ∧
      (linux 0x20804000).physical (registerAt 0x7F0000000000 0) = 0x20804000 ∧
      ¬ Alike (linux 0x20804000) 0x20000000 .BSC1
        ⟨⟨0x7F0000000000, 0, 32⟩, 0x7F0000000000⟩ := by
  refine ⟨rfl, by decide, by decide, fun h => ?_⟩
  have hfirst := h.registers 0 (by decide)
  revert hfirst
  decide

end Bcm2837
