import Bcm2837.Memmove

/-!
# The other memory functions

`memcpy` always copies upwards, so it repeats the start of its source when the destination
begins inside it. `memcmp` compares byte by byte and stops at the first difference.
-/
namespace Bcm2837.Libc

open Access (storage)
open ByteMemory

/-- `while(n--) *p++ = static_cast<unsigned char>(c);` -/
def fillUp (p : Addr) (c : Byte) : ℕ → Io Unit
  | 0 => pure ()
  | n + 1 => do
    Mmio.store p c
    fillUp (p + 1) c n

/-- The value is an `int`, of which the low byte counts. -/
def memset (d : Addr) (c : Word) (n : BitVec 64) : Io Addr := do
  fillUp d (c.setWidth 8) n.toNat
  return d

def memcpy (d s : Addr) (n : BitVec 64) : Io Addr := do
  copyUp d s n.toNat
  return d

/-- `for(; n--; ++pa, ++pb) if(*pa != *pb) return *pa - *pb;` and the `return 0` behind it. -/
def compareUp (pa pb : Addr) : ℕ → Io ℤ
  | 0 => return 0
  | n + 1 => do
    let a ← Mmio.load pa
    let b ← Mmio.load pb
    if a ≠ b then do
      let a ← Mmio.load pa
      let b ← Mmio.load pb
      return (a.toNat : ℤ) - b.toNat
    else compareUp (pa + 1) (pb + 1) n

def memcmp (a b : Addr) (n : BitVec 64) : Io ℤ := compareUp a b n.toNat

/-! ## `memset` -/

theorem fillUp_spec (p : Addr) (c : Byte) {n : ℕ} (hn : n ≤ 2 ^ 64) (m : Memory 64) :
    (∀ i < n, ((fillUp p c n).run storage m).2 (offset p i) = c) ∧
      ∀ a, (∀ i < n, a ≠ offset p i) → ((fillUp p c n).run storage m).2 a = m a := by
  induction n generalizing p m with
  | zero => exact ⟨fun i hi => absurd hi (Nat.not_lt_zero i), fun _ _ => rfl⟩
  | succ n ih =>
    obtain ⟨hinside, houtside⟩ := ih (offset p 1) (by omega) (Function.update m p c)
    have hrun : ((fillUp p c (n + 1)).run storage m).2 =
        ((fillUp (offset p 1) c n).run storage (Function.update m p c)).2 := rfl
    rw [hrun]
    constructor
    · intro i hi
      cases i with
      | zero =>
        rw [offset_zero, houtside p, Function.update_self]
        intro j hj
        rw [offset_offset]
        simpa using offset_ne_offset p (i := 0) (by omega) (show 1 + j < 2 ^ 64 by omega) (by omega)
      | succ i =>
        have hrest := hinside i (by omega)
        rwa [offset_offset, Nat.add_comm] at hrest
    · intro a ha
      have hp : a ≠ p := by simpa using ha 0 (by omega)
      rw [houtside a, Function.update_of_ne hp]
      intro i hi
      rw [offset_offset, Nat.add_comm]
      exact ha (i + 1) (by omega)

/-- Every byte of a range that does not wrap gets the low byte of the value. -/
theorem memset_fills (d : Addr) (c : Word) (n : BitVec 64) (hd : d.toNat + n.toNat ≤ 2 ^ 64)
    (m : Memory 64) :
    ((memset d c n).run storage m).1 = d ∧
      (∀ i < n.toNat, ((memset d c n).run storage m).2 (offset d i) = c.setWidth 8) ∧
      ∀ a : Addr, a.toNat < d.toNat ∨ d.toNat + n.toNat ≤ a.toNat →
        ((memset d c n).run storage m).2 a = m a := by
  obtain ⟨hinside, houtside⟩ := fillUp_spec d (c.setWidth 8) (n := n.toNat) (by omega) m
  unfold memset
  rw [Prog.run_bind, Prog.run_pure]
  refine ⟨rfl, hinside, fun a ha => houtside a ?_⟩
  rintro i hi rfl
  rw [toNat_offset d (by omega)] at ha
  omega

/-! ## `memcpy` -/

/-- Behind a source that it writes over, the upward loop repeats the `p` bytes between the
source and the destination. -/
theorem copyUp_repeats (s : Addr) {p n : ℕ} (hp : 0 < p) (hn : p + n ≤ 2 ^ 64) (m : Memory 64) :
    (∀ i < n, ((copyUp (offset s p) s n).run storage m).2 (offset s (p + i)) =
        m (offset s (i % p))) ∧
      ∀ a, (∀ i < n, a ≠ offset s (p + i)) →
        ((copyUp (offset s p) s n).run storage m).2 a = m a := by
  induction n generalizing s m with
  | zero => exact ⟨fun i hi => absurd hi (Nat.not_lt_zero i), fun _ _ => rfl⟩
  | succ n ih =>
    obtain ⟨hinside, houtside⟩ := ih (offset s 1) (by omega)
      (Function.update m (offset s p) (m s))
    have hnext : offset (offset s p) 1 = offset (offset s 1) p := by
      rw [offset_offset, offset_offset, Nat.add_comm]
    have hrun : ((copyUp (offset s p) s (n + 1)).run storage m).2 =
        ((copyUp (offset (offset s 1) p) (offset s 1) n).run storage
          (Function.update m (offset s p) (m s))).2 := by
      rw [← hnext]
      rfl
    rw [hrun]
    constructor
    · intro i hi
      cases i with
      | zero =>
        rw [houtside, Nat.add_zero, Function.update_self, Nat.zero_mod, offset_zero]
        intro j hj
        rw [offset_offset]
        exact offset_ne_offset s (by omega) (by omega) (by omega)
      | succ i =>
        have hplace : offset (offset s 1) (p + i) = offset s (p + (i + 1)) := by
          rw [offset_offset, show 1 + (p + i) = p + (i + 1) by omega]
        have hlt := Nat.mod_lt i hp
        rw [← hplace, hinside i (by omega), offset_offset, Nat.add_comm 1 (i % p)]
        by_cases hlast : i % p + 1 = p
        · rw [hlast, Function.update_self, ← Nat.mod_add_mod, hlast, Nat.mod_self, offset_zero]
        · have hmod : (i + 1) % p = i % p + 1 := by
            rw [← Nat.mod_add_mod, Nat.mod_eq_of_lt (by omega)]
          have hne := offset_ne_offset s (i := i % p + 1) (j := p) (by omega) (by omega) hlast
          rw [Function.update_of_ne hne, hmod]
    · intro a ha
      have hd : a ≠ offset s p := by simpa using ha 0 (by omega)
      rw [houtside a, Function.update_of_ne hd]
      intro i hi
      rw [offset_offset]
      have hai := ha (i + 1) (by omega)
      rwa [show p + (i + 1) = 1 + (p + i) by omega] at hai

section Ranges

variable {d s : Addr} {n : BitVec 64} (hd : d.toNat + n.toNat ≤ 2 ^ 64)
  (hs : s.toNat + n.toNat ≤ 2 ^ 64)
include hd hs

/-- Every byte that `memcpy` writes, wherever the ranges lie: `d - s` is 0 unless the
destination begins behind the source. -/
theorem memcpy_repeats (m : Memory 64) :
    (∀ i < n.toNat, ((memcpy d s n).run storage m).2 (offset d i) =
        m (offset s (i % (d.toNat - s.toNat)))) ∧
      ∀ a, (∀ i < n.toNat, a ≠ offset d i) → ((memcpy d s n).run storage m).2 a = m a := by
  have hrun : ((memcpy d s n).run storage m).2 = ((copyUp d s n.toNat).run storage m).2 := by
    rw [memcpy, Prog.run_bind, Prog.run_pure]
  rw [hrun]
  rcases Nat.lt_or_ge s.toNat d.toNat with hlt | hge
  · obtain ⟨p, hp⟩ : ∃ p, d.toNat = s.toNat + p := ⟨_, (Nat.add_sub_of_le hlt.le).symm⟩
    have hplace : d = offset s p := by
      apply BitVec.eq_of_toNat_eq
      rw [toNat_offset s (by have := d.isLt; omega), hp]
    have hspread := copyUp_repeats s (p := p) (n := n.toNat) (by omega) (by omega) m
    have hsub : d.toNat - s.toNat = p := by omega
    rw [hsub, hplace]
    constructor
    · intro i hi
      rw [offset_offset]
      exact hspread.1 i hi
    · intro a ha
      apply hspread.2
      intro i hi
      rw [← offset_offset]
      exact ha i hi
  · have hcopies := copyUp_copies d s (n := n.toNat) (by omega) (by
      intro i j hij hj h
      have hnat := congrArg BitVec.toNat h
      rw [toNat_offset s (by omega), toNat_offset d (by omega)] at hnat
      omega) m
    rw [Nat.sub_eq_zero_of_le hge]
    exact ⟨fun i hi => by rw [Nat.mod_zero, hcopies.inside i hi], hcopies.outside⟩

/-- Ranges that the upward direction is right for. -/
theorem memcpy_eq_memmove (h : d.toNat ≤ s.toNat ∨ s.toNat + n.toNat ≤ d.toNat) (m : Memory 64) :
    (memcpy d s n).run storage m = (memmove d s n).run storage m := by
  obtain ⟨hinside, houtside⟩ := memcpy_repeats hd hs m
  have hcopies := copy_copies hd hs m
  have hmove : (memmove d s n).run storage m = (d, ((copy d s n).run storage m).2) := by
    rw [memmove, Prog.run_bind, Prog.run_pure]
  have hcpy : (memcpy d s n).run storage m = (d, ((memcpy d s n).run storage m).2) := by
    rw [memcpy, Prog.run_bind, Prog.run_pure]
  rw [hmove, hcpy]
  congr 1
  ext1 a
  by_cases ha : ∃ i < n.toNat, a = offset d i
  · obtain ⟨i, hi, rfl⟩ := ha
    have hmod : i % (d.toNat - s.toNat) = i := by
      rcases h with hle | hle
      · rw [Nat.sub_eq_zero_of_le hle, Nat.mod_zero]
      · exact Nat.mod_eq_of_lt (by omega)
    rw [hinside i hi, hmod, hcopies.inside i hi]
  · have ha : ∀ i < n.toNat, a ≠ offset d i := fun i hi heq => ha ⟨i, hi, heq⟩
    rw [houtside a ha, hcopies.outside a ha]

/-- With the destination inside the source, the byte at the destination is what `memmove`
puts where `memcpy` repeats the first one. -/
theorem memcpy_ne_memmove (h : s.toNat < d.toNat ∧ d.toNat < s.toNat + n.toNat) :
    ∃ m, (memcpy d s n).run storage m ≠ (memmove d s n).run storage m := by
  let m : Memory 64 := fun a => if a = d then 1 else 0
  refine ⟨m, fun heq => ?_⟩
  have hplace : offset s (d.toNat - s.toNat) = d := by
    apply BitVec.eq_of_toNat_eq
    rw [toNat_offset s (by have := d.isLt; omega)]
    omega
  have hne : s ≠ d := fun hsd => by rw [hsd] at h; omega
  have hcpy := (memcpy_repeats hd hs m).1 (d.toNat - s.toNat) (by omega)
  rw [Nat.mod_self, offset_zero] at hcpy
  have hmove := (copy_copies hd hs m).inside (d.toNat - s.toNat) (by omega)
  rw [hplace] at hmove
  have hmem := congrArg (fun r => r.2 (offset d (d.toNat - s.toNat))) heq
  rw [memmove, Prog.run_bind, Prog.run_pure] at hmem
  simp only [hcpy, hmove, m, if_neg hne, if_true] at hmem
  exact absurd hmem (by decide)

end Ranges

/-- For ranges that do not wrap, `memcpy` returns the destination and writes to nothing else;
its bytes are the source's, or the `d - s` bytes in front of a destination that begins inside
the source, over and over. It agrees with `memmove` on every memory exactly when the
destination does not begin there. -/
theorem memcpy_agrees_iff (d s : Addr) (n : BitVec 64) (hd : d.toNat + n.toNat ≤ 2 ^ 64)
    (hs : s.toNat + n.toNat ≤ 2 ^ 64) :
    (∀ m : Memory 64, ((memcpy d s n).run storage m).1 = d ∧
      (∀ i < n.toNat, ((memcpy d s n).run storage m).2 (offset d i) =
        m (offset s (i % (d.toNat - s.toNat)))) ∧
      ∀ a : Addr, a.toNat < d.toNat ∨ d.toNat + n.toNat ≤ a.toNat →
        ((memcpy d s n).run storage m).2 a = m a) ∧
      ((∀ m, (memcpy d s n).run storage m = (memmove d s n).run storage m) ↔
        d.toNat ≤ s.toNat ∨ s.toNat + n.toNat ≤ d.toNat) := by
  refine ⟨fun m => ?_, fun h => ?_, fun h => memcpy_eq_memmove hd hs h⟩
  · obtain ⟨hinside, houtside⟩ := memcpy_repeats hd hs m
    refine ⟨by rw [memcpy, Prog.run_bind, Prog.run_pure], hinside, fun a ha => houtside a ?_⟩
    rintro i hi rfl
    rw [toNat_offset d (by omega)] at ha
    omega
  · by_contra hno
    obtain ⟨m, hm⟩ := memcpy_ne_memmove hd hs (by omega)
    exact hm (h m)

/-- A run of equal bytes from a copy one byte up. -/
theorem memcpy_agrees_overlap :
    (∀ m : Memory 64, ((memcpy 5 4 3).run storage m).2 7 = m 4) ∧
      ¬ ∀ m, (memcpy 5 4 3).run storage m = (memmove 5 4 3).run storage m := by
  obtain ⟨hspec, hiff⟩ := memcpy_agrees_iff 5 4 3 (by decide) (by decide)
  exact ⟨fun m => (hspec m).2.1 2 (by decide), fun h => absurd (hiff.mp h) (by decide)⟩

/-! ## `memcmp` -/

/-- The bytes of a range, as numbers. -/
def bytes (m : Memory 64) (a : Addr) (n : ℕ) : List ℕ :=
  (List.range n).map fun i => (m (offset a i)).toNat

theorem bytes_succ (m : Memory 64) (a : Addr) (n : ℕ) :
    bytes m a (n + 1) = (m a).toNat :: bytes m (offset a 1) n := by
  rw [bytes, bytes, List.range_succ_eq_map, List.map_cons, List.map_map, offset_zero]
  congr 1
  apply List.map_congr_left
  intro i _
  rw [Function.comp_apply, offset_offset, Nat.add_comm 1 i]

/-- The sign of the answer is the lexicographic order of the ranges, read as unsigned bytes. -/
theorem compareUp_orders (a b : Addr) (n : ℕ) (m : Memory 64) :
    (((compareUp a b n).run storage m).1 < 0 ↔ bytes m a n < bytes m b n) ∧
      (((compareUp a b n).run storage m).1 = 0 ↔ bytes m a n = bytes m b n) := by
  induction n generalizing a b with
  | zero => exact ⟨by simp [compareUp, bytes], by simp [compareUp, bytes]⟩
  | succ n ih =>
    obtain ⟨hlt, heq⟩ := ih (offset a 1) (offset b 1)
    rw [bytes_succ, bytes_succ, List.cons_lt_cons_iff, List.cons.injEq]
    by_cases h : m a = m b
    · have hrun : (compareUp a b (n + 1)).run storage m =
          (compareUp (offset a 1) (offset b 1) n).run storage m := by
        simp [compareUp, h]
      rw [hrun, hlt, heq, h]
      simp
    · have hrun : ((compareUp a b (n + 1)).run storage m).1 = ((m a).toNat : ℤ) - (m b).toNat := by
        simp [compareUp, h]
      have hnat : (m a).toNat ≠ (m b).toNat := fun hnat => h (BitVec.eq_of_toNat_eq hnat)
      rw [hrun]
      constructor
      · constructor
        · intro hneg
          exact .inl (by omega)
        · rintro (hless | ⟨hsame, -⟩)
          · omega
          · exact absurd hsame hnat
      · exact iff_of_false (by omega) fun hsame => hnat hsame.1

/-- The bytes looked at are those up to the first difference. -/
theorem compareUp_reads (a b : Addr) (n : ℕ) (m : Memory 64) :
    ∀ e ∈ (compareUp a b n).history storage m,
      ∃ i < n, (e.1 = .load (offset a i) ∨ e.1 = .load (offset b i)) ∧
        ∀ j < i, m (offset a j) = m (offset b j) := by
  induction n generalizing a b with
  | zero => exact fun e he => absurd he List.not_mem_nil
  | succ n ih =>
    have hhist : (compareUp a b (n + 1)).history storage m = (.load a, m) :: (.load b, m) ::
        (if m a ≠ m b then [(.load a, m), (.load b, m)]
          else (compareUp (offset a 1) (offset b 1) n).history storage m) := by
      by_cases h : m a = m b
      · simp [compareUp, h]
      · simp [compareUp, h]
    have hfirst : ∀ e : Access Addr Byte × Memory 64, e = (.load a, m) ∨ e = (.load b, m) →
        ∃ i < n + 1, (e.1 = .load (offset a i) ∨ e.1 = .load (offset b i)) ∧
          ∀ j < i, m (offset a j) = m (offset b j) := by
      intro e he
      refine ⟨0, Nat.succ_pos n, ?_, fun j hj => absurd hj (Nat.not_lt_zero j)⟩
      rw [offset_zero, offset_zero]
      rcases he with rfl | rfl
      · exact .inl rfl
      · exact .inr rfl
    intro e he
    rw [hhist, List.mem_cons, List.mem_cons] at he
    rcases he with he | he | he
    · exact hfirst e (.inl he)
    · exact hfirst e (.inr he)
    · split_ifs at he with h
      · simp only [List.mem_cons, List.not_mem_nil, or_false] at he
        exact hfirst e he
      · obtain ⟨i, hi, hload, hsame⟩ := ih (offset a 1) (offset b 1) e he
        refine ⟨i + 1, by omega, ?_, ?_⟩
        · rwa [offset_offset, offset_offset, Nat.add_comm 1 i] at hload
        · intro j hj
          cases j with
          | zero =>
            rw [offset_zero, offset_zero]
            exact not_not.mp h
          | succ j =>
            have hj := hsame j (by omega)
            rwa [offset_offset, offset_offset, Nat.add_comm 1 j] at hj

/-- Comparing changes nothing. -/
theorem compareUp_state (a b : Addr) (n : ℕ) (m : Memory 64) :
    ((compareUp a b n).run storage m).2 = m := by
  induction n generalizing a b with
  | zero => rfl
  | succ n ih =>
    by_cases h : m a = m b
    · simpa [compareUp, h] using ih (offset a 1) (offset b 1)
    · simp [compareUp, h]

/-- `memcmp` orders the ranges as sequences of unsigned bytes, looks at no byte behind their
first difference and changes nothing. -/
theorem memcmp_orders (a b : Addr) (n : BitVec 64) (m : Memory 64) :
    (((memcmp a b n).run storage m).1 < 0 ↔ bytes m a n.toNat < bytes m b n.toNat) ∧
      (((memcmp a b n).run storage m).1 = 0 ↔ bytes m a n.toNat = bytes m b n.toNat) ∧
      (0 < ((memcmp a b n).run storage m).1 ↔ bytes m b n.toNat < bytes m a n.toNat) ∧
      ((memcmp a b n).run storage m).2 = m ∧
      ∀ e ∈ (memcmp a b n).history storage m, ∃ i < n.toNat,
        (e.1 = .load (offset a i) ∨ e.1 = .load (offset b i)) ∧
          ∀ j < i, m (offset a j) = m (offset b j) := by
  obtain ⟨hlt, heq⟩ := compareUp_orders a b n.toNat m
  have hsign : 0 < ((memcmp a b n).run storage m).1 ↔
      ¬ ((memcmp a b n).run storage m).1 < 0 ∧ ¬ ((memcmp a b n).run storage m).1 = 0 := by omega
  have hgt : 0 < ((memcmp a b n).run storage m).1 ↔ bytes m b n.toNat < bytes m a n.toNat := by
    rw [hsign, memcmp, hlt, heq, not_lt, lt_iff_le_and_ne, ne_comm]
  exact ⟨hlt, heq, hgt, compareUp_state a b n.toNat m, compareUp_reads a b n.toNat m⟩

end Bcm2837.Libc
