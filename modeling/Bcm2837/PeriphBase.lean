import Bcm2837.BlockPlacement
import Bcm2837.Overrides

/-!
# The peripheral base of a board

The base comes from the device tree. Its `ranges` property lists windows of the peripheral
bus, with the address of a window on the bus, the address at which the processor sees it and
its length, all big-endian; the middle one takes two words on boards with a wide address
space. A base that is forced takes the place of the one found.
-/
namespace Bcm2837.PeriphBase

open Overrides (lastAsked)

inductive SocPeriphBase
  | BCM2835 | BCM2836_7 | BCM2711

def SocPeriphBase.value : SocPeriphBase → Pointer
  | BCM2835 => 0x20000000
  | BCM2836_7 => 0x3F000000
  | BCM2711 => 0xFE000000

/-- The four bytes from `buf[i]` on. -/
def word (buf : ℕ → Byte) (i : ℕ) : Pointer :=
  (buf i).setWidth 64 <<< 24 ||| (buf (i + 1)).setWidth 64 <<< 16 |||
    (buf (i + 2)).setWidth 64 <<< 8 ||| (buf (i + 3)).setWidth 64

/-- `ranges` is the content of the file, if it can be opened. -/
def detect_periph_base (ranges : Option (List Byte)) : Pointer :=
  let read := (ranges.getD []).take 16
  let buf (i : ℕ) : Byte := read.getD i 0
  let n := read.length
  if 8 ≤ n then
    let base := word buf 4
    let base := if base = 0 ∧ 12 ≤ n then word buf 8 else base
    if base ≠ 0 then base else SocPeriphBase.BCM2836_7.value
  else SocPeriphBase.BCM2836_7.value

/-- The answer, and the static that is kept for the next call. -/
def periph_base (ranges : Option (List Byte)) (force_base : Pointer) (base : Option Pointer) :
    Pointer × Option Pointer :=
  let base := base.getD (detect_periph_base ranges)
  let base := if force_base ≠ 0 then force_base else base
  (base, some base)

/-! ## The property -/

/-- The words of an address of the processor. -/
inductive AddressCells
  | one | two

structure Window where
  bus : Word
  cpu : Pointer
  size : Word

def cell (v : Word) : List Byte :=
  [(v >>> 24).setWidth 8, (v >>> 16).setWidth 8, (v >>> 8).setWidth 8, v.setWidth 8]

namespace Window

def encode (w : Window) : AddressCells → List Byte
  | .one => cell w.bus ++ cell (w.cpu.setWidth 32) ++ cell w.size
  | .two =>
    cell w.bus ++ cell ((w.cpu >>> 32).setWidth 32) ++ cell (w.cpu.setWidth 32) ++ cell w.size

/-- The address fits into its words. -/
def Fits (w : Window) : AddressCells → Prop
  | .one => w.cpu.toNat < 2 ^ 32
  | .two => True

end Window

def encode (cells : AddressCells) (ws : List Window) : List Byte :=
  ws.flatMap fun w => w.encode cells

/-- The bytes of a word give it back. -/
theorem word_cell (buf : ℕ → Byte) (i : ℕ) {v : Word}
    (h : [buf i, buf (i + 1), buf (i + 2), buf (i + 3)] = cell v) :
    word buf i = v.setWidth 64 := by
  simp only [cell, List.cons.injEq, and_true] at h
  obtain ⟨h0, h1, h2, h3⟩ := h
  apply BitVec.eq_of_getLsbD_eq
  intro k hk
  simp only [word, h0, h1, h2, h3, BitVec.getLsbD_or, BitVec.getLsbD_shiftLeft,
    BitVec.getLsbD_setWidth, BitVec.getLsbD_ushiftRight, hk, decide_true, Bool.true_and]
  -- bit `k` lies in one of the four bytes, or above them
  grind

/-- What is found is the second word, or the third where the second is 0. -/
theorem detect_of_cells (bus v u : Word) (tail : List Byte) :
    detect_periph_base (some (cell bus ++ cell v ++ cell u ++ tail)) =
      if v ≠ 0 then v.setWidth 64 else if u ≠ 0 then u.setWidth 64
      else SocPeriphBase.BCM2836_7.value := by
  have hzero (x : Word) : x.setWidth 64 = 0 ↔ x = 0 := by
    rw [BitVec.toNat_eq, BitVec.toNat_eq, BitVec.toNat_setWidth]
    have hx := x.isLt
    show x.toNat % 2 ^ 64 = 0 ↔ x.toNat = 0
    omega
  set bytes := cell bus ++ cell v ++ cell u ++ tail with hbytes
  have hread : 12 ≤ (bytes.take 16).length := by
    simp [hbytes, cell]
  have hv : word (fun i => (bytes.take 16).getD i 0) 4 = v.setWidth 64 :=
    word_cell _ _ rfl
  have hu : word (fun i => (bytes.take 16).getD i 0) 8 = u.setWidth 64 :=
    word_cell _ _ rfl
  simp only [detect_periph_base, Option.getD_some, hv, hu, hzero, hread,
    if_pos (le_trans (by decide : 8 ≤ 12) hread), and_true]
  by_cases hv0 : v = 0
  · rw [if_pos hv0, if_neg (not_not_intro hv0)]
    by_cases hu0 : u = 0
    · rw [if_neg (not_not_intro ((hzero u).mpr hu0)), if_neg (not_not_intro hu0)]
    · rw [if_pos (mt (hzero u).mp hu0), if_pos hu0]
  · rw [if_neg hv0, if_pos (mt (hzero v).mp hv0), if_pos hv0]

theorem detect_ne_zero (ranges : Option (List Byte)) : detect_periph_base ranges ≠ 0 := by
  have hdefault : SocPeriphBase.BCM2836_7.value ≠ 0 := by decide
  -- a base that is read is returned only if it is not 0
  have hread (base : Pointer) :
      (if base ≠ 0 then base else SocPeriphBase.BCM2836_7.value) ≠ 0 := by
    by_cases hbase : base ≠ 0
    · rwa [if_pos hbase]
    · rwa [if_neg hbase]
  unfold detect_periph_base
  dsimp only
  split
  · exact hread _
  · exact hdefault

/-- The base is found exactly on the boards that have it below 4 GB and not at 0. -/
theorem detect_eq_cpu_iff (cells : AddressCells) (w : Window) (hw : w.Fits cells)
    (ws : List Window) :
    detect_periph_base (some (encode cells (w :: ws))) = w.cpu ↔
      w.cpu ≠ 0 ∧ w.cpu.toNat < 2 ^ 32 := by
  have hnonzero := detect_ne_zero (some (encode cells (w :: ws)))
  have hlow (h : w.cpu.toNat < 2 ^ 32) : (w.cpu.setWidth 32).setWidth 64 = w.cpu := by
    rw [BitVec.toNat_eq, BitVec.toNat_setWidth, BitVec.toNat_setWidth]
    omega
  have hlow_zero (h : w.cpu.toNat < 2 ^ 32) : w.cpu.setWidth 32 = 0 ↔ w.cpu = 0 := by
    rw [BitVec.toNat_eq, BitVec.toNat_eq, BitVec.toNat_setWidth, Nat.mod_eq_of_lt h]
    rfl
  have hhigh : ((w.cpu >>> 32).setWidth 32).toNat = w.cpu.toNat / 2 ^ 32 := by
    have hlt := w.cpu.isLt
    rw [BitVec.toNat_setWidth, BitVec.toNat_ushiftRight, Nat.shiftRight_eq_div_pow]
    omega
  constructor
  · intro h
    refine ⟨h ▸ hnonzero, ?_⟩
    cases cells with
    | one => exact hw
    | two =>
      by_contra hbig
      have hhigh_ne : (w.cpu >>> 32).setWidth 32 ≠ 0 := by
        rw [ne_eq, BitVec.toNat_eq, hhigh]
        show ¬w.cpu.toNat / 2 ^ 32 = 0
        omega
      rw [encode, List.flatMap_cons, Window.encode, List.append_assoc, detect_of_cells,
        if_pos hhigh_ne] at h
      have hnat := congrArg BitVec.toNat h
      have hlt := w.cpu.isLt
      rw [BitVec.toNat_setWidth, hhigh, Nat.mod_eq_of_lt (by omega)] at hnat
      omega
  · rintro ⟨hcpu, hlt⟩
    have hlow_ne : w.cpu.setWidth 32 ≠ 0 := mt (hlow_zero hlt).mp hcpu
    cases cells with
    | one =>
      rw [encode, List.flatMap_cons, Window.encode, detect_of_cells, if_pos hlow_ne, hlow hlt]
    | two =>
      have hhigh_zero : (w.cpu >>> 32).setWidth 32 = 0 := by
        rw [BitVec.toNat_eq, hhigh]
        show w.cpu.toNat / 2 ^ 32 = 0
        omega
      rw [encode, List.flatMap_cons, Window.encode, List.append_assoc, detect_of_cells,
        if_neg (not_not_intro hhigh_zero), if_pos hlow_ne, hlow hlt]

/-! ## Calls -/

section Calls

variable (ranges : Option (List Byte))

/-- The static after calls with these bases to force; 0 forces none. -/
def kept (forces : List Pointer) : Option Pointer :=
  forces.foldl (fun base force => (periph_base ranges force base).2) none

/-- What `periph_base()` then answers. -/
def answer (forces : List Pointer) : Pointer := (periph_base ranges 0 (kept ranges forces)).1

/-- The base that a call forces. -/
def forced (force : Pointer) : Option Pointer := if force ≠ 0 then some force else none

/-- The base is the last one forced, or the one found. -/
theorem answer_eq (forces : List Pointer) :
    answer ranges forces = lastAsked forced (detect_periph_base ranges) forces := by
  have hkept : (kept ranges forces).getD (detect_periph_base ranges) =
      lastAsked forced (detect_periph_base ranges) forces := by
    induction forces using List.reverseRecOn with
    | nil => rfl
    | append_singleton forces force ih =>
      rw [kept, List.foldl_append, List.foldl_cons, List.foldl_nil, ← kept,
        Overrides.lastAsked_concat, ← ih]
      show (if force ≠ 0 then force else (kept ranges forces).getD (detect_periph_base ranges)) =
        (if force ≠ 0 then some force else none).getD
          ((kept ranges forces).getD (detect_periph_base ranges))
      split
      · rfl
      · rfl
  rw [← hkept]
  show (if (0 : Pointer) ≠ 0 then 0 else (kept ranges forces).getD (detect_periph_base ranges)) = _
  exact if_neg (not_not_intro rfl)

end Calls

/-! ## The drivers -/

/-- The drivers that can be mapped. -/
inductive Driver
  | GPIO | CLOCK | I2C | SPI

namespace Driver

def OFFSET : Driver → Pointer
  | GPIO => Block.GPIO.OFFSET
  | CLOCK => ClockBlock.OFFSET
  | I2C => Block.BSC1.OFFSET
  | SPI => Block.SPI0.OFFSET

/-- Registers of the driver's block. -/
def words : Driver → ℕ
  | GPIO => Block.GPIO.words
  | CLOCK => ClockBlock.words
  | I2C => Block.BSC1.words
  | SPI => Block.SPI0.words

/-- The mapping of each driver by the function the source has for it. -/
def map : Driver → Os → Pointer → Except String Mapped
  | GPIO => map_gpio
  | CLOCK => map_clock
  | I2C => map_i2c
  | SPI => map_spi

/-- Behind the registers of a mapped driver lie the base and the offset of its block. -/
theorem physical_registerAt {os : Os} {base : Pointer} {drv : Driver} {m : Mapped}
    (hpage : os.pageBits < 64) (hm : drv.map os base = .ok m)
    (hshows : os.Shows m.io.map m.io.length (os.pageBase (base + drv.OFFSET))) {i : ℕ}
    (hi : i < drv.words) :
    os.physical (registerAt m.block i) = registerAt (base + drv.OFFSET) i := by
  cases drv with
  | GPIO => exact Bcm2837.physical_registerAt (b := Block.GPIO) hpage hm hshows hi
  | CLOCK => exact physical_clock hpage hm hshows hi
  | I2C => exact Bcm2837.physical_registerAt (b := Block.BSC1) hpage hm hshows hi
  | SPI => exact Bcm2837.physical_registerAt (b := Block.SPI0) hpage hm hshows hi

end Driver

/-- A driver mapped while no base is forced works on the registers of the board exactly when
the device tree has the base below 4 GB and not at 0. One mapped after a base has been forced
works on the registers at that base. -/
theorem drivers_reach_board (cells : AddressCells) (w : Window) (hw : w.Fits cells)
    (ws : List Window) (forces : List Pointer) (os : Os) (hpage : os.pageBits < 64) (drv : Driver)
    (m : Mapped) (hm : drv.map os (answer (some (encode cells (w :: ws))) forces) = .ok m)
    (hshows : os.Shows m.io.map m.io.length
      (os.pageBase (answer (some (encode cells (w :: ws))) forces + drv.OFFSET))) :
    ((∀ force ∈ forces, force = 0) →
      ((∀ i < drv.words,
          os.physical (registerAt m.block i) = registerAt (w.cpu + drv.OFFSET) i) ↔
        w.cpu ≠ 0 ∧ w.cpu.toNat < 2 ^ 32)) ∧
      ∀ before force after, forces = before ++ force :: after → force ≠ 0 →
        (∀ f ∈ after, f = 0) →
        ∀ i < drv.words,
          os.physical (registerAt m.block i) = registerAt (force + drv.OFFSET) i := by
  have hphysical {i : ℕ} (hi : i < drv.words) := Driver.physical_registerAt hpage hm hshows hi
  have hanswer := answer_eq (some (encode cells (w :: ws))) forces
  constructor
  · intro hnone
    rw [← detect_eq_cpu_iff cells w hw ws]
    have hsilent : ∀ f ∈ forces, forced f = none :=
      fun f hf => if_neg (not_not_intro (hnone f hf))
    rw [Overrides.lastAsked_of_silent hsilent] at hanswer
    constructor
    · intro h
      have hwords : 0 < drv.words := by cases drv <;> decide
      have hfirst := (hphysical hwords).symm.trans (h 0 hwords)
      rw [hanswer] at hfirst
      simpa [registerAt] using hfirst
    · intro h i hi
      rw [hphysical hi, hanswer, h]
  · rintro before force after rfl hforce hafter i hi
    have hforced : forced force = some force := if_pos hforce
    have hsilent : ∀ f ∈ after, forced f = none :=
      fun f hf => if_neg (not_not_intro (hafter f hf))
    rw [hphysical hi, hanswer, Overrides.lastAsked_split before hforced hsilent]

/-- The clock driver of a Pi 4, whose window is found in the third word, and then of a Pi 1,
whose base is forced. Its block does not start a page. -/
theorem drivers_reach_board_pi4 :
    ((∀ force ∈ ([] : List Pointer), force = 0) →
      ((∀ i < Driver.CLOCK.words,
          (linux 0xFE101000).physical (registerAt 0x7F0000000070 i) =
          registerAt (0xFE000000 + Driver.CLOCK.OFFSET) i) ↔
        (0xFE000000 : Pointer) ≠ 0 ∧ (0xFE000000 : Pointer).toNat < 2 ^ 32)) ∧
    ∀ i < Driver.CLOCK.words, (linux 0x20101000).physical (registerAt 0x7F0000000070 i) =
      registerAt (0x20000000 + Driver.CLOCK.OFFSET) i :=
  ⟨(drivers_reach_board .two ⟨0x7E000000, 0xFE000000, 0x01800000⟩ trivial [] []
      (linux 0xFE101000) (by decide) .CLOCK ⟨⟨0x7F0000000000, 0x70, 0x88⟩, 0x7F0000000070⟩ rfl
      (linux_shows 0xFE101000 0x88)).1,
    (drivers_reach_board .two ⟨0x7E000000, 0xFE000000, 0x01800000⟩ trivial [] [0x20000000, 0]
      (linux 0x20101000) (by decide) .CLOCK ⟨⟨0x7F0000000000, 0x70, 0x88⟩, 0x7F0000000070⟩ rfl
      (linux_shows 0x20101000 0x88)).2 [] 0x20000000 [0] rfl (by decide)
      fun f hf => List.mem_singleton.mp hf⟩

end Bcm2837.PeriphBase
