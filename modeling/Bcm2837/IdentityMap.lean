import Bcm2837.Stage1Walk

/-!
# The page tables

The identity map that core 0 builds and every core switches on: a level 1 table whose
first entry refers to a level 2 table of 2 MB blocks and whose second is a 1 GB block.
-/
namespace Bcm2837.Mmu

open Stage1 (Memory Registers bits span entry)

def k2MB : BitVec 64 := 0x200000
def k1GB : BitVec 64 := 0x40000000

/-- Indices into `MAIR_EL1`. -/
def ATTR_DEVICE : BitVec 64 := 0
def ATTR_NORMAL : BitVec 64 := 1

def DESC_BLOCK : BitVec 64 := 0b01
def DESC_TABLE : BitVec 64 := 0b11
def AF : BitVec 64 := 1 <<< 10
def SH_INNER : BitVec 64 := 0b11 <<< 8
def ATTRIDX (i : BitVec 64) : BitVec 64 := i <<< 2

/-- Where the peripherals start, in blocks of 2 MB. -/
def kPeriphIndex : ℕ := 0x3F000000 / 0x200000

def normalBlock (pa : BitVec 64) : BitVec 64 :=
  pa ||| AF ||| SH_INNER ||| ATTRIDX ATTR_NORMAL ||| DESC_BLOCK

def deviceBlock (pa : BitVec 64) : BitVec 64 := pa ||| AF ||| ATTRIDX ATTR_DEVICE ||| DESC_BLOCK

/-- Where the linker puts the two tables: page aligned, apart, and within the 40 bits of
a physical address. -/
structure Placement where
  l1 : ℕ
  l2 : ℕ
  l1_aligned : l1 % 4096 = 0
  l2_aligned : l2 % 4096 = 0
  apart : l1 ≠ l2
  l1_lt : l1 < 2 ^ 40
  l2_lt : l2 < 2 ^ 40

/-- An image that ends with its tables, as at the load address 0x80000. -/
instance : Inhabited Placement := ⟨⟨0x90000, 0x91000, rfl, rfl, by decide, by decide, by decide⟩⟩

/-- `table[i] = v`. -/
def store (table i : ℕ) (v : BitVec 64) (mem : Memory) : Memory :=
  Function.update mem (table + 8 * i) v

/-- A loop that stores `f i` for each index in turn. -/
def fill (table : ℕ) (f : ℕ → BitVec 64) (indices : List ℕ) (mem : Memory) : Memory :=
  indices.foldl (fun mem i => store table i (f i) mem) mem

/-- The block for 2 MB of the first gigabyte. -/
def l2Entry (i : ℕ) : BitVec 64 :=
  let pa := BitVec.ofNat 64 i * k2MB
  if i < kPeriphIndex then normalBlock pa else deviceBlock pa

def buildTables (p : Placement) (mem : Memory) : Memory :=
  let mem := fill p.l2 l2Entry (List.range 512) mem
  let mem := store p.l1 0 (BitVec.ofNat 64 p.l2 ||| DESC_TABLE) mem
  let mem := store p.l1 1 (deviceBlock k1GB) mem
  fill p.l1 (fun _ => 0) (List.range' 2 510) mem

/-- Attribute 0 is Device-nGnRnE, attribute 1 Normal write-back. -/
def mair : BitVec 64 := (0xFF <<< 8) ||| (0x00 <<< 0)

/-- A 39-bit range, 4 KB granule, no walks of the upper range, 40-bit physical addresses. -/
def tcr : BitVec 64 :=
  (25 <<< 0) ||| (0b01 <<< 8) ||| (0b01 <<< 10) ||| (0b11 <<< 12) ||| (0b00 <<< 14) |||
    (1 <<< 23) ||| (0b010 <<< 32)

/-- The barriers and the invalidation of the TLB leave no trace in the registers. -/
def enable (p : Placement) (r : Registers) : Registers where
  mair := mair
  tcr := tcr
  ttbr0 := BitVec.ofNat 64 p.l1
  sctlr := r.sctlr ||| ((1 <<< 0) ||| (1 <<< 2) ||| (1 <<< 12))

/-! ## What the tables hold -/

section Tables

theorem fill_concat (table : ℕ) (f : ℕ → BitVec 64) (indices : List ℕ) (i : ℕ) (mem : Memory) :
    fill table f (indices ++ [i]) mem = store table i (f i) (fill table f indices mem) := by
  simp [fill, List.foldl_append]

/-- A loop leaves its value at each of its indices. -/
theorem fill_self (table : ℕ) (f : ℕ → BitVec 64) {indices : List ℕ} (mem : Memory) {i : ℕ}
    (hi : i ∈ indices) : fill table f indices mem (table + 8 * i) = f i := by
  induction indices using List.reverseRecOn with
  | nil => exact absurd hi List.not_mem_nil
  | append_singleton indices j ih =>
    rw [fill_concat, store]
    by_cases hij : i = j
    · rw [hij, Function.update_self]
    · have haddr : table + 8 * i ≠ table + 8 * j := by omega
      rw [Function.update_of_ne haddr]
      exact ih ((List.mem_append.mp hi).resolve_right fun h => hij (List.mem_singleton.mp h))

/-- A loop changes no other address. -/
theorem fill_other (table : ℕ) (f : ℕ → BitVec 64) {indices : List ℕ} (mem : Memory) {a : ℕ}
    (ha : ∀ i ∈ indices, a ≠ table + 8 * i) : fill table f indices mem a = mem a := by
  induction indices using List.reverseRecOn with
  | nil => rfl
  | append_singleton indices j ih =>
    rw [fill_concat, store, Function.update_of_ne (ha j (by simp))]
    exact ih fun i hi => ha i (List.mem_append_left _ hi)

variable (p : Placement) (mem : Memory)

/-- The tables share no entry. -/
theorem Placement.entries_apart {i j : ℕ} (hi : i < 512) (hj : j < 512) :
    p.l2 + 8 * i ≠ p.l1 + 8 * j := by
  have h1 := p.l1_aligned
  have h2 := p.l2_aligned
  have hne := p.apart
  omega

theorem l2_entry {i : ℕ} (hi : i < 512) : buildTables p mem (p.l2 + 8 * i) = l2Entry i := by
  unfold buildTables
  have hother : ∀ j ∈ List.range' 2 510, p.l2 + 8 * i ≠ p.l1 + 8 * j := fun j hj =>
    p.entries_apart hi (by have := List.mem_range'_1.mp hj; omega)
  rw [fill_other p.l1 _ _ hother, store, Function.update_of_ne (p.entries_apart hi (by decide)),
    store, Function.update_of_ne (p.entries_apart hi (by decide)),
    fill_self p.l2 _ _ (List.mem_range.mpr hi)]

theorem l1_entry {i : ℕ} (hi : i < 512) : buildTables p mem (p.l1 + 8 * i) =
    if i = 0 then BitVec.ofNat 64 p.l2 ||| DESC_TABLE
    else if i = 1 then deviceBlock k1GB
    else 0 := by
  unfold buildTables
  by_cases htail : 2 ≤ i
  · have h0 : i ≠ 0 := by omega
    have h1 : i ≠ 1 := by omega
    rw [fill_self p.l1 _ _ (List.mem_range'_1.mpr (by omega)), if_neg h0, if_neg h1]
  · have hhead : ∀ j ∈ List.range' 2 510, p.l1 + 8 * i ≠ p.l1 + 8 * j := by
      intro j hj
      have hj := List.mem_range'_1.mp hj
      omega
    rw [fill_other p.l1 _ _ hhead]
    obtain rfl | rfl : i = 0 ∨ i = 1 := by omega
    · have hne : p.l1 + 8 * 0 ≠ p.l1 + 8 * 1 := by omega
      rw [store, Function.update_of_ne hne, store, Function.update_self, if_pos rfl]
    · rw [store, Function.update_self, if_neg one_ne_zero, if_pos rfl]

end Tables

/-! ## The descriptors as numbers -/

/-- Or-ing low bits into a multiple of a power of two adds them. -/
theorem toNat_or_low {v c : BitVec 64} {k a : ℕ} (hv : v.toNat = 2 ^ k * a) (hc : c.toNat < 2 ^ k) :
    (v ||| c).toNat = 2 ^ k * a + c.toNat := by
  rw [BitVec.toNat_or, hv, Nat.two_pow_add_eq_or_of_lt hc]

theorem toNat_l2Address {i : ℕ} (hi : i < 512) :
    (BitVec.ofNat 64 i * k2MB).toNat = 2 ^ 21 * i := by
  have hsize : k2MB.toNat = 2 ^ 21 := rfl
  rw [BitVec.toNat_mul, BitVec.toNat_ofNat, hsize]
  omega

theorem toNat_normalBlock {i : ℕ} (hi : i < 512) :
    (normalBlock (BitVec.ofNat 64 i * k2MB)).toNat = 2 ^ 21 * i + 0x705 := by
  have hbits : normalBlock (BitVec.ofNat 64 i * k2MB) = BitVec.ofNat 64 i * k2MB ||| 0x705 := by
    rw [normalBlock, BitVec.or_assoc, BitVec.or_assoc, BitVec.or_assoc]
    rfl
  rw [hbits]
  exact toNat_or_low (toNat_l2Address hi) (by decide)

theorem toNat_deviceBlock {i : ℕ} (hi : i < 512) :
    (deviceBlock (BitVec.ofNat 64 i * k2MB)).toNat = 2 ^ 21 * i + 0x401 := by
  have hbits : deviceBlock (BitVec.ofNat 64 i * k2MB) = BitVec.ofNat 64 i * k2MB ||| 0x401 := by
    rw [deviceBlock, BitVec.or_assoc, BitVec.or_assoc]
    rfl
  rw [hbits]
  exact toNat_or_low (toNat_l2Address hi) (by decide)

theorem toNat_l2Entry {i : ℕ} (hi : i < 512) :
    (l2Entry i).toNat = 2 ^ 21 * i + if i < 504 then 0x705 else 0x401 := by
  unfold l2Entry
  have hindex : kPeriphIndex = 504 := rfl
  rw [hindex]
  split_ifs
  · exact toNat_normalBlock hi
  · exact toNat_deviceBlock hi

theorem toNat_table (p : Placement) : (BitVec.ofNat 64 p.l2 ||| DESC_TABLE).toNat = p.l2 + 3 := by
  have hl2 : (BitVec.ofNat 64 p.l2).toNat = 2 ^ 12 * (p.l2 / 2 ^ 12) := by
    have haligned := p.l2_aligned
    have hlt := p.l2_lt
    rw [BitVec.toNat_ofNat]
    omega
  rw [toNat_or_low hl2 (by decide), ← hl2, BitVec.toNat_ofNat]
  have hlt := p.l2_lt
  have hthree : DESC_TABLE.toNat = 3 := rfl
  omega

/-! ## What the registers say -/

section Enabled

variable (p : Placement) (r : Registers)

theorem paBits_enable : Stage1.paBits (enable p r) = 40 := by
  have hips : bits tcr 32 3 = 2 := by decide
  rw [Stage1.paBits, enable, hips]
  rfl

theorem mmu_on : bits (enable p r).sctlr 0 1 = 1 := by
  have hbit : (enable p r).sctlr.getLsbD 0 = true := by simp [enable]
  rw [Stage1.bits_one, hbit]
  rfl

theorem caches_on : bits (enable p r).sctlr 2 1 = 1 := by
  have hbit : (enable p r).sctlr.getLsbD 2 = true := by simp [enable]
  rw [Stage1.bits_one, hbit]
  rfl

theorem ttbr0_enable : bits (enable p r).ttbr0 12 36 * 2 ^ 12 = p.l1 := by
  have haligned := p.l1_aligned
  have hlt := p.l1_lt
  have hbase : (enable p r).ttbr0.toNat = p.l1 := by
    rw [enable, BitVec.toNat_ofNat]
    omega
  rw [bits, hbase]
  omega

/-- The translation is on and walks from level 1, at the table of the placement. -/
theorem translate_eq (mem : Memory) {va : ℕ} (hva : va < 2 ^ 39) :
    Stage1.translate mem (enable p r) va = Stage1.walk mem (enable p r) 2 p.l1 va false := by
  have htcr : (enable p r).tcr = tcr := rfl
  have ht0sz : bits tcr 0 6 = 25 := by decide
  have htg0 : bits tcr 14 2 = 0 := by decide
  have hepd0 : bits tcr 7 1 = 0 := by decide
  have hrange : ¬ ((0 : ℕ) = 1 ∨ 2 ^ (64 - 25) ≤ va) := by omega
  have hsize : ¬ 2 ^ Stage1.paBits (enable p r) ≤ p.l1 := by
    have hlt := p.l1_lt
    rw [paBits_enable]
    omega
  simp only [Stage1.translate, mmu_on, htcr, ht0sz, htg0, hepd0, ttbr0_enable]
  rw [if_neg one_ne_zero, if_neg (not_not_intro rfl), if_neg hrange, if_neg hsize]

/-- A 2 MB block below the peripherals is Normal memory, above it Device memory. -/
theorem memoryType_normal {d : BitVec 64} (hattr : bits d 2 3 = 1) (hshare : bits d 8 2 = 3) :
    Stage1.memoryType (enable p r) d = .normal .writeBack .writeBack .inner := by
  have hmair : bits mair (8 * 1) 8 = 0xFF := by decide
  have henable : (enable p r).mair = mair := rfl
  simp [Stage1.memoryType, henable, hattr, hshare, hmair, caches_on, Stage1.cacheability,
    Stage1.shareability]

theorem memoryType_device {d : BitVec 64} (hattr : bits d 2 3 = 0) :
    Stage1.memoryType (enable p r) d = .device .nGnRnE := by
  have hmair : bits mair 0 8 = 0 := by decide
  have henable : (enable p r).mair = mair := rfl
  simp [Stage1.memoryType, henable, hattr, hmair, Stage1.deviceType]

end Enabled

/-! ## The identity map -/

/-- What an access below 2 GB is to meet. -/
def identity (va : ℕ) : Stage1.Translation where
  address := va
  type := if va < 0x3F000000 then .normal .writeBack .writeBack .inner else .device .nGnRnE
  accessFlag := true
  el1Read := true
  el1Write := true

section Walk

variable (p : Placement) (mem : Memory) (r : Registers)

/-- The memory below the peripherals is Normal, the peripherals are Device memory. -/
theorem memoryType_l2Entry {va : ℕ} (hva : va < 2 ^ 30) :
    Stage1.memoryType (enable p r) (l2Entry (va / 2 ^ 21)) = (identity va).type := by
  have hi : va / 2 ^ 21 < 512 := by omega
  have htoNat := toNat_l2Entry hi
  unfold identity
  by_cases hram : va < 0x3F000000
  · have hindex : va / 2 ^ 21 < 504 := by omega
    rw [if_pos hindex] at htoNat
    rw [if_pos hram]
    apply memoryType_normal
    · rw [bits, htoNat]
      omega
    · rw [bits, htoNat]
      omega
  · have hindex : ¬ va / 2 ^ 21 < 504 := by omega
    rw [if_neg hindex] at htoNat
    rw [if_neg hram]
    apply memoryType_device
    rw [bits, htoNat]
    omega

/-- Level 2: a block of 2 MB. -/
theorem walk_l2 {va : ℕ} (hva : va < 2 ^ 30) :
    Stage1.walk (buildTables p mem) (enable p r) 1 p.l2 va false = .ok (identity va) := by
  have hspan : span 1 = 2 ^ 21 := rfl
  have hi : va / 2 ^ 21 < 512 := by omega
  have hentry : entry (buildTables p mem) p.l2 1 va = l2Entry (va / 2 ^ 21) := by
    rw [entry, hspan, Nat.mod_eq_of_lt hi, l2_entry p mem hi]
  have htoNat := toNat_l2Entry hi
  have hkind : bits (l2Entry (va / 2 ^ 21)) 0 2 = 0b01 := by
    rw [bits, htoNat]
    split_ifs <;> omega
  have hflag : bits (l2Entry (va / 2 ^ 21)) 10 1 = 1 := by
    rw [bits, htoNat]
    split_ifs <;> omega
  have hwrite : bits (l2Entry (va / 2 ^ 21)) 7 1 = 0 := by
    rw [bits, htoNat]
    split_ifs <;> omega
  have hbase : bits (l2Entry (va / 2 ^ 21)) 0 48 / span 1 * span 1 = va / 2 ^ 21 * 2 ^ 21 := by
    rw [bits, htoNat, hspan]
    split_ifs <;> omega
  have hsize : va / 2 ^ 21 * 2 ^ 21 < 2 ^ Stage1.paBits (enable p r) := by
    rw [paBits_enable]
    omega
  rw [← hentry] at hkind
  rw [Stage1.walk_block hkind (by decide), hentry, Stage1.leaf_ok hbase hsize hflag hwrite, hspan,
    Nat.div_add_mod', memoryType_l2Entry p r hva]
  rfl

/-- Level 1: the first gigabyte goes on to level 2, the second is one block, the rest is
not mapped. -/
theorem walk_l1 {va : ℕ} (hva : va < 2 ^ 39) :
    Stage1.walk (buildTables p mem) (enable p r) 2 p.l1 va false =
      if va < 0x80000000 then .ok (identity va) else .error (.translation 1) := by
  have hspan : span 2 = 2 ^ 30 := rfl
  have hi : va / 2 ^ 30 < 512 := by omega
  have hentry : entry (buildTables p mem) p.l1 2 va = if va / 2 ^ 30 = 0 then
      BitVec.ofNat 64 p.l2 ||| DESC_TABLE else if va / 2 ^ 30 = 1 then deviceBlock k1GB else 0 := by
    rw [entry, hspan, Nat.mod_eq_of_lt hi, l1_entry p mem hi]
  have hpa := paBits_enable p r
  by_cases h0 : va < 2 ^ 30
  · have hindex : va / 2 ^ 30 = 0 := by omega
    have htoNat := toNat_table p
    have haligned := p.l2_aligned
    have hlt := p.l2_lt
    rw [if_pos hindex] at hentry
    have hkind : bits (BitVec.ofNat 64 p.l2 ||| DESC_TABLE) 0 2 = 0b11 := by
      rw [bits, htoNat]
      omega
    have hnext : bits (BitVec.ofNat 64 p.l2 ||| DESC_TABLE) 12 36 * 2 ^ 12 = p.l2 := by
      rw [bits, htoNat]
      omega
    have hwrite : bits (BitVec.ofNat 64 p.l2 ||| DESC_TABLE) 62 1 = 0 := by
      rw [bits, htoNat]
      omega
    rw [← hentry] at hkind hnext hwrite
    rw [Stage1.walk_table hkind hnext (by rw [hpa]; exact hlt) hwrite, walk_l2 p mem r h0,
      if_pos (by omega)]
  · have hne : ¬ va / 2 ^ 30 = 0 := by omega
    rw [if_neg hne] at hentry
    by_cases h1 : va < 2 ^ 31
    · have hindex : va / 2 ^ 30 = 1 := by omega
      rw [if_pos hindex] at hentry
      have hkind : bits (deviceBlock k1GB) 0 2 = 0b01 := by decide
      have hbase : bits (deviceBlock k1GB) 0 48 / span 2 * span 2 = 2 ^ 30 := by decide
      have hsize : 2 ^ 30 < 2 ^ Stage1.paBits (enable p r) := by
        rw [hpa]
        decide
      have htype := memoryType_device p r (d := deviceBlock k1GB) (by decide)
      have haddress : 2 ^ 30 + va % 2 ^ 30 = va := by omega
      have hram : ¬ va < 0x3F000000 := by omega
      rw [← hentry] at hkind
      rw [Stage1.walk_block hkind (by decide), hentry,
        Stage1.leaf_ok hbase hsize (by decide) (by decide), htype, hspan, haddress,
        if_pos (by omega), identity, if_neg hram]
    · have hindex : ¬ va / 2 ^ 30 = 1 := by omega
      rw [if_neg hindex] at hentry
      have hkind : bits (entry (buildTables p mem) p.l1 2 va) 0 2 = 0 := by
        rw [hentry]
        decide
      rw [Stage1.walk_invalid hkind, if_neg (by omega)]

end Walk

/-- Every 39-bit address below 2 GB is mapped to itself, with the documented attributes;
above, the walk faults at level 1. -/
theorem identityMap (p : Placement) (mem : Memory) (r : Registers) (va : BitVec 39) :
    Stage1.translate (buildTables p mem) (enable p r) va.toNat =
      if va.toNat < 0x80000000 then .ok (identity va.toNat) else .error (.translation 1) := by
  rw [translate_eq p r _ va.isLt, walk_l1 p mem r va.isLt]

end Bcm2837.Mmu
