import Mathlib.Tactic

/-!
# Stage 1 address translation

The AArch64 EL1 translation of the lower address range with the 4 KB granule: the system
registers that control it, the descriptors in memory and the walk over them. Hardware
update of the access flag is not assumed.
-/
namespace Stage1

/-- A memory of doublewords by physical address. -/
abbrev Memory := ℕ → BitVec 64

/-- The `w` bits of a doubleword from bit `s` on. -/
def bits (v : BitVec 64) (s w : ℕ) : ℕ := v.toNat / 2 ^ s % 2 ^ w

/-- A single bit as a number. -/
theorem bits_one (v : BitVec 64) (s : ℕ) : bits v s 1 = (v.getLsbD s).toNat := by
  rw [bits, BitVec.getLsbD, Nat.toNat_testBit, pow_one]

structure Registers where
  mair : BitVec 64
  tcr : BitVec 64
  ttbr0 : BitVec 64
  sctlr : BitVec 64

inductive Fault
  | translation (level : ℕ)
  | addressSize (level : ℕ)
  | accessFlag (level : ℕ)
  /-- A granule other than 4 KB, which is not described here. -/
  | granule
  deriving DecidableEq

inductive DeviceType
  | nGnRnE | nGnRE | nGRE | GRE
  deriving DecidableEq

inductive Cacheability
  | nonCacheable | writeThrough | writeBack
  deriving DecidableEq

inductive Shareability
  | nonShareable | reserved | outer | inner
  deriving DecidableEq

inductive MemoryType
  | device (type : DeviceType)
  | normal (outer inner : Cacheability) (share : Shareability)
  deriving DecidableEq

structure Translation where
  address : ℕ
  type : MemoryType
  accessFlag : Bool
  el1Read : Bool
  el1Write : Bool
  deriving DecidableEq

/-! ## Decoding -/

def deviceType (n : ℕ) : DeviceType :=
  match n with
  | 0 => .nGnRnE
  | 1 => .nGnRE
  | 2 => .nGRE
  | _ => .GRE

/-- One half of a Normal attribute, transient or not. -/
def cacheability (n : ℕ) : Cacheability :=
  if n = 0b0100 then .nonCacheable
  else if n / 4 = 0 ∨ n / 4 = 2 then .writeThrough
  else .writeBack

def shareability (n : ℕ) : Shareability :=
  match n with
  | 0 => .nonShareable
  | 1 => .reserved
  | 2 => .outer
  | _ => .inner

/-- The memory type of a descriptor: its index picks an attribute of `MAIR_EL1`. Without
`SCTLR_EL1.C` Normal memory is not cached. -/
def memoryType (r : Registers) (d : BitVec 64) : MemoryType :=
  let attr := bits r.mair (8 * bits d 2 3) 8
  if attr / 16 = 0 then .device (deviceType (attr / 4 % 4))
  else if bits r.sctlr 2 1 = 0 then .normal .nonCacheable .nonCacheable .outer
  else .normal (cacheability (attr / 16)) (cacheability (attr % 16)) (shareability (bits d 8 2))

/-- The bits of a physical address. -/
def paBits (r : Registers) : ℕ :=
  match bits r.tcr 32 3 with
  | 0 => 32
  | 1 => 36
  | 2 => 40
  | 3 => 42
  | 4 => 44
  | _ => 48

/-! ## The walk -/

/-- The bytes that one entry maps with `left` levels below it. -/
def span (left : ℕ) : ℕ := 2 ^ (12 + 9 * left)

/-- The entry of a table for an address. -/
def entry (mem : Memory) (table left va : ℕ) : BitVec 64 :=
  mem (table + 8 * (va / span left % 512))

/-- The end of a walk, at a block or page descriptor. -/
def leaf (r : Registers) (left : ℕ) (d : BitVec 64) (va : ℕ) (readOnly : Bool) :
    Except Fault Translation :=
  let address := bits d 0 48 / span left * span left
  if 2 ^ paBits r ≤ address then .error (.addressSize (3 - left))
  else if bits d 10 1 = 0 then .error (.accessFlag (3 - left))
  else .ok {
    address := address + va % span left
    type := memoryType r d
    accessFlag := bits d 10 1 = 1
    el1Read := true
    el1Write := bits d 7 1 = 0 ∧ readOnly = false }

/-- The walk with `left` levels below the table. `readOnly` is what the table descriptors
above have taken away. -/
def walk (mem : Memory) (r : Registers) :
    (left table va : ℕ) → (readOnly : Bool) → Except Fault Translation
  | 0, table, va, readOnly =>
    let d := entry mem table 0 va
    if bits d 0 2 = 0b11 then leaf r 0 d va readOnly else .error (.translation 3)
  | left + 1, table, va, readOnly =>
    let d := entry mem table (left + 1) va
    if bits d 0 2 = 0b11 then
      let next := bits d 12 36 * 2 ^ 12
      if 2 ^ paBits r ≤ next then .error (.addressSize (2 - left))
      else walk mem r left next va (readOnly || bits d 62 1 = 1)
    -- there are no blocks at level 0
    else if bits d 0 2 = 0b01 ∧ left < 2 then leaf r (left + 1) d va readOnly
    else .error (.translation (2 - left))

/-- What an access of EL1 to `va` meets. -/
def translate (mem : Memory) (r : Registers) (va : ℕ) : Except Fault Translation :=
  let inputSize := 64 - bits r.tcr 0 6
  let table := bits r.ttbr0 12 36 * 2 ^ 12
  if bits r.sctlr 0 1 = 0 then .ok ⟨va, .device .nGnRnE, true, true, true⟩
  else if bits r.tcr 14 2 ≠ 0 then .error .granule
  else if bits r.tcr 7 1 = 1 ∨ 2 ^ inputSize ≤ va then .error (.translation 0)
  else if 2 ^ paBits r ≤ table then .error (.addressSize 0)
  else walk mem r ((inputSize - 13) / 9) table va false

section Walk

variable {mem : Memory} {r : Registers} {left table va : ℕ} {readOnly : Bool}

/-- A table descriptor hands the walk on. -/
theorem walk_table {next : ℕ} (hd : bits (entry mem table (left + 1) va) 0 2 = 0b11)
    (hnext : bits (entry mem table (left + 1) va) 12 36 * 2 ^ 12 = next)
    (hsize : next < 2 ^ paBits r) (hro : bits (entry mem table (left + 1) va) 62 1 = 0) :
    walk mem r (left + 1) table va readOnly = walk mem r left next va readOnly := by
  rw [walk, if_pos hd, hnext, if_neg (Nat.not_le_of_lt hsize), hro]
  simp

theorem walk_block (hd : bits (entry mem table (left + 1) va) 0 2 = 0b01) (hleft : left < 2) :
    walk mem r (left + 1) table va readOnly =
      leaf r (left + 1) (entry mem table (left + 1) va) va readOnly := by
  have hno : ¬ bits (entry mem table (left + 1) va) 0 2 = 0b11 := by omega
  rw [walk, if_neg hno, if_pos ⟨hd, hleft⟩]

theorem walk_invalid (hd : bits (entry mem table (left + 1) va) 0 2 = 0) :
    walk mem r (left + 1) table va readOnly = .error (.translation (2 - left)) := by
  have hno : ¬ bits (entry mem table (left + 1) va) 0 2 = 0b11 := by omega
  have hblock : ¬ (bits (entry mem table (left + 1) va) 0 2 = 0b01 ∧ left < 2) := by omega
  rw [walk, if_neg hno, if_neg hblock]

/-- A descriptor with its access flag set, writable, and an address in range. -/
theorem leaf_ok {d : BitVec 64} {base : ℕ} (hbase : bits d 0 48 / span left * span left = base)
    (hsize : base < 2 ^ paBits r) (hflag : bits d 10 1 = 1) (hwrite : bits d 7 1 = 0) :
    leaf r left d va false = .ok ⟨base + va % span left, memoryType r d, true, true, true⟩ := by
  simp [leaf, hbase, Nat.not_le_of_lt hsize, hflag, hwrite]

end Walk

end Stage1
