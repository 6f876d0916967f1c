import Bcm2837.ByteMemory
import Bcm2837.MemoryMap
import Bcm2837.RegisterFile

/-!
# `memmove` of the freestanding library

The copy runs upwards when the destination lies below the source and downwards
otherwise. Either way a source byte is read before the copy writes over it.
-/
namespace Bcm2837.Libc

open Access (storage)
open ByteMemory

abbrev Addr := BitVec 64

/-- Byte loads and stores. -/
abbrev Io := Mmio Addr Byte

/-- `while(n--) *dp++ = *sp++;` -/
def copyUp (dp sp : Addr) : ℕ → Io Unit
  | 0 => pure ()
  | n + 1 => do
    let b ← Mmio.load sp
    Mmio.store dp b
    copyUp (dp + 1) (sp + 1) n

/-- `while(n--) *--dp = *--sp;` -/
def copyDown (dp sp : Addr) : ℕ → Io Unit
  | 0 => pure ()
  | n + 1 => do
    let b ← Mmio.load (sp - 1)
    Mmio.store (dp - 1) b
    copyDown (dp - 1) (sp - 1) n

/-- The copy that `memmove` makes, in the direction it chooses. -/
def copy (d s : Addr) (n : BitVec 64) : Io Unit :=
  if d < s then copyUp d s n.toNat
  else copyDown (d + n) (s + n) n.toNat

def memmove (d s : Addr) (n : BitVec 64) : Io Addr := do
  copy d s n
  return d

/-- The upward loop copies when no source byte follows its own destination. -/
theorem copyUp_copies (d s : Addr) {n : ℕ} (hn : n ≤ 2 ^ 64)
    (hs : ∀ i j, i < j → j < n → offset s j ≠ offset d i) (m : Memory 64) :
    Copies m ((copyUp d s n).run storage m).2 d s n := by
  induction n generalizing d s m with
  | zero => exact copies_zero m d s
  | succ n ih =>
    have hrest : ∀ i j, i < j → j < n → offset (offset s 1) j ≠ offset (offset d 1) i := by
      intro i j hij hj
      rw [offset_offset, offset_offset]
      exact hs (1 + i) (1 + j) (by omega) (by omega)
    have hfirst : ∀ i < n, offset s (i + 1) ≠ d := by
      intro i hi
      simpa using hs 0 (i + 1) (by omega) (by omega)
    exact (ih (offset d 1) (offset s 1) (by omega) hrest _).up (by omega) hfirst

/-- The downward loop copies when no source byte precedes its own destination. -/
theorem copyDown_copies (d s : Addr) {n : ℕ} (hn : n ≤ 2 ^ 64)
    (hs : ∀ i j, i < j → j < n → offset s i ≠ offset d j) (m : Memory 64) :
    Copies m ((copyDown (offset d n) (offset s n) n).run storage m).2 d s n := by
  induction n generalizing m with
  | zero => exact copies_zero m d s
  | succ n ih =>
    have hback (a : Addr) : offset a (n + 1) - 1 = offset a n := by
      rw [← offset_offset]
      exact BitVec.add_sub_cancel _ _
    have hrest := ih (by omega) (fun i j hij hj => hs i j hij (by omega))
      (Function.update m (offset d n) (m (offset s n)))
    have hlast : ∀ i < n, offset s i ≠ offset d n := fun i hi => hs i n hi (by omega)
    unfold copyDown
    simp only [hback, Prog.run_bind, Mmio.run_load, Mmio.run_store, Access.storage_load,
      Access.storage_store]
    exact hrest.down (by omega) hlast

section Ranges

variable {d s : Addr} {n : BitVec 64} (hd : d.toNat + n.toNat ≤ 2 ^ 64)
  (hs : s.toNat + n.toNat ≤ 2 ^ 64)
include hd hs

/-- The direction is the one that reads every source byte before it is written over. -/
theorem copy_copies (m : Memory 64) : Copies m ((copy d s n).run storage m).2 d s n.toNat := by
  have hdn (i : ℕ) (hi : i < n.toNat) : (offset d i).toNat = d.toNat + i :=
    toNat_offset d (by omega)
  have hsn (i : ℕ) (hi : i < n.toNat) : (offset s i).toNat = s.toNat + i :=
    toNat_offset s (by omega)
  unfold copy
  split_ifs with hlt
  · rw [BitVec.lt_def] at hlt
    apply copyUp_copies d s (by omega)
    intro i j hij hj h
    have hnat := congrArg BitVec.toNat h
    rw [hsn j hj, hdn i (by omega)] at hnat
    omega
  · rw [BitVec.lt_def] at hlt
    have hend (a : Addr) : a + n = offset a n.toNat := by
      rw [offset, BitVec.ofNat_toNat, BitVec.setWidth_eq]
    rw [hend, hend]
    apply copyDown_copies d s (by omega)
    intro i j hij hj h
    have hnat := congrArg BitVec.toNat h
    rw [hdn j hj, hsn i (by omega)] at hnat
    omega

end Ranges

/-- For ranges that do not wrap, every byte of the destination is the byte the source had
before the call, nothing else changes and the destination is returned. -/
theorem memmove_copies (d s : Addr) (n : BitVec 64) (hd : d.toNat + n.toNat ≤ 2 ^ 64)
    (hs : s.toNat + n.toNat ≤ 2 ^ 64) (m : Memory 64) :
    ((memmove d s n).run storage m).1 = d ∧
      (∀ i < n.toNat, ((memmove d s n).run storage m).2 (d + BitVec.ofNat 64 i) =
        m (s + BitVec.ofNat 64 i)) ∧
      ∀ a : Addr, a.toNat < d.toNat ∨ d.toNat + n.toNat ≤ a.toNat →
        ((memmove d s n).run storage m).2 a = m a := by
  have hcopies := copy_copies hd hs m
  unfold memmove
  rw [Prog.run_bind, Prog.run_pure]
  refine ⟨rfl, hcopies.inside, fun a ha => hcopies.outside a ?_⟩
  rintro i hi rfl
  rw [toNat_offset d (by omega)] at ha
  omega

/-- An overlap in each direction. -/
theorem memmove_copies_overlap :
    (∀ m : Memory 64, ((memmove 4 5 3).run storage m).2 4 = m 5) ∧
      ∀ m : Memory 64, ((memmove 5 4 3).run storage m).2 7 = m 6 :=
  ⟨fun m => (memmove_copies 4 5 3 (by decide) (by decide) m).2.1 0 (by decide),
    fun m => (memmove_copies 5 4 3 (by decide) (by decide) m).2.1 2 (by decide)⟩

end Bcm2837.Libc
