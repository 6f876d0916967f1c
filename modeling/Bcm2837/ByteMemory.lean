import Bcm2837.Numerals
import Mathlib.Tactic

/-!
# Byte memory

A byte for each address of `w` bits. A range is given by its first address and its
length and is taken modulo the address space, so it may wrap. A 64-bit word is eight bytes,
the lowest first.
-/
namespace ByteMemory

variable {w : ℕ}

abbrev Memory (w : ℕ) := BitVec w → BitVec 8

/-- The address `i` bytes after `a`. -/
abbrev offset (a : BitVec w) (i : ℕ) : BitVec w := a + BitVec.ofNat w i

@[simp] theorem offset_zero (a : BitVec w) : offset a 0 = a := BitVec.add_zero a

theorem offset_offset (a : BitVec w) (i j : ℕ) : offset (offset a i) j = offset a (i + j) := by
  rw [offset, offset, offset, BitVec.add_assoc, BitVec.ofNat_add]

theorem toNat_offset (a : BitVec w) {i : ℕ} (h : a.toNat + i < 2 ^ w) :
    (offset a i).toNat = a.toNat + i := by
  rw [offset, BitVec.toNat_add, BitVec.toNat_ofNat, Nat.add_mod_mod, Nat.mod_eq_of_lt h]

theorem toNat_offset_sub (a : BitVec w) {i : ℕ} (h : i < 2 ^ w) : (offset a i - a).toNat = i := by
  rw [offset, BitVec.add_comm, BitVec.add_sub_cancel, BitVec.toNat_ofNat, Nat.mod_eq_of_lt h]

theorem offset_ne_offset (a : BitVec w) {i j : ℕ} (hi : i < 2 ^ w) (hj : j < 2 ^ w)
    (hij : i ≠ j) : offset a i ≠ offset a j := by
  intro h
  have hnat := congrArg (fun x => (x - a).toNat) h
  simp only [toNat_offset_sub a hi, toNat_offset_sub a hj] at hnat
  exact hij hnat

/-! ## Copies -/

/-- `m'` is `m` with the `n` bytes from `s` on copied to `d`. -/
structure Copies (m m' : Memory w) (d s : BitVec w) (n : ℕ) : Prop where
  inside : ∀ i < n, m' (offset d i) = m (offset s i)
  outside : ∀ a, (∀ i < n, a ≠ offset d i) → m' a = m a

theorem copies_zero (m : Memory w) (d s : BitVec w) : Copies m m d s 0 where
  inside _ hi := absurd hi (by omega)
  outside _ _ := rfl

variable {m m' : Memory w} {d s : BitVec w} {n : ℕ}

/-- Copying the first byte first. No later source byte may be the first destination. -/
theorem Copies.up (h : Copies (Function.update m d (m s)) m' (offset d 1) (offset s 1) n)
    (hn : n < 2 ^ w) (hs : ∀ i < n, offset s (i + 1) ≠ d) : Copies m m' d s (n + 1) where
  inside i hi := by
    cases i with
    | zero =>
      have hfirst : ∀ j < n, d ≠ offset (offset d 1) j := by
        intro j hj
        rw [offset_offset]
        simpa using offset_ne_offset d (i := 0) (by omega) (show 1 + j < 2 ^ w by omega) (by omega)
      rw [offset_zero, offset_zero, h.outside d hfirst, Function.update_self]
    | succ i =>
      have hrest := h.inside i (by omega)
      rw [offset_offset, offset_offset, Nat.add_comm 1 i] at hrest
      rw [hrest, Function.update_of_ne (hs i (by omega))]
  outside a ha := by
    have hrest : ∀ i < n, a ≠ offset (offset d 1) i := by
      intro i hi
      rw [offset_offset, Nat.add_comm 1 i]
      exact ha (i + 1) (by omega)
    have hd : a ≠ d := by simpa using ha 0 (by omega)
    rw [h.outside a hrest, Function.update_of_ne hd]

/-- Copying the last byte first. No earlier source byte may be the last destination. -/
theorem Copies.down (h : Copies (Function.update m (offset d n) (m (offset s n))) m' d s n)
    (hn : n < 2 ^ w) (hs : ∀ i < n, offset s i ≠ offset d n) : Copies m m' d s (n + 1) where
  inside i hi := by
    by_cases hlast : i = n
    · have hkept : ∀ j < n, offset d n ≠ offset d j := fun j hj =>
        offset_ne_offset d hn (by omega) (by omega)
      rw [hlast, h.outside _ hkept, Function.update_self]
    · rw [h.inside i (by omega), Function.update_of_ne (hs i (by omega))]
  outside a ha := by
    rw [h.outside a fun i hi => ha i (by omega), Function.update_of_ne (ha n (by omega))]

/-! ## Words -/

/-- The word at `a`. -/
def load64 (m : Memory w) (a : BitVec w) : BitVec 64 :=
  BitVec.ofNat 64 (Nat.ofDigits 256 ((List.range 8).map fun i => (m (offset a i)).toNat))

/-- Byte `i` of the word goes to the address `i` bytes after `a`. -/
def store64 (m : Memory w) (a : BitVec w) (v : BitVec 64) : Memory w := fun b =>
  if (b - a).toNat < 8 then BitVec.ofNat 8 (v.toNat / 256 ^ (b - a).toNat) else m b

theorem eq_offset (a b : BitVec w) : b = offset a (b - a).toNat := by
  rw [offset, BitVec.ofNat_toNat, BitVec.setWidth_eq, BitVec.add_comm, BitVec.sub_add_cancel]

theorem load64_congr {a : BitVec w} (h : ∀ i < 8, m (offset a i) = m' (offset a i)) :
    load64 m a = load64 m' a := by
  have hbytes : ((List.range 8).map fun i => (m (offset a i)).toNat) =
      (List.range 8).map fun i => (m' (offset a i)).toNat := by
    apply List.map_congr_left
    intro i hi
    rw [h i (List.mem_range.mp hi)]
  rw [load64, load64, hbytes]

theorem store64_of_outside {a b : BitVec w} (v : BitVec 64) (h : ∀ i < 8, b ≠ offset a i) :
    store64 m a v b = m b := by
  rw [store64, if_neg]
  intro hlt
  exact h _ hlt (eq_offset a b)

theorem load64_store64 (hw : 8 ≤ 2 ^ w) (a : BitVec w) (v : BitVec 64) :
    load64 (store64 m a v) a = v := by
  have hbytes : ((List.range 8).map fun i => (store64 m a v (offset a i)).toNat) =
      Numerals.Alphabet.places 256 8 v.toNat := by
    have hbyte : ∀ i ∈ List.range 8,
        (store64 m a v (offset a i)).toNat = v.toNat / 256 ^ i % 256 := by
      intro i hi
      have hi := List.mem_range.mp hi
      rw [store64, toNat_offset_sub a (by omega), if_pos hi, BitVec.toNat_ofNat]
    rw [List.map_congr_left hbyte]
    rfl
  have hlt : v.toNat < 256 ^ 8 := v.isLt
  rw [load64, hbytes, Numerals.Alphabet.ofDigits_places, Nat.mod_eq_of_lt hlt,
    BitVec.ofNat_toNat, BitVec.setWidth_eq]

/-- Words at different places from a base do not meet. -/
theorem load64_store64_of_ne (base : BitVec w) {i k : ℕ} (hi : 8 * i + 8 ≤ 2 ^ w)
    (hk : 8 * k + 8 ≤ 2 ^ w) (hik : i ≠ k) (v : BitVec 64) :
    load64 (store64 m (offset base (8 * k)) v) (offset base (8 * i)) =
      load64 m (offset base (8 * i)) := by
  apply load64_congr
  intro j hj
  apply store64_of_outside
  intro t ht
  rw [offset_offset, offset_offset]
  exact offset_ne_offset base (by omega) (by omega) (by omega)

/-- The words `f 0` to `f (n - 1)` stored one after the other from `base` on. -/
def storeWords (m : Memory w) (base : BitVec w) (f : ℕ → BitVec 64) : ℕ → Memory w
  | 0 => m
  | n + 1 => store64 (storeWords m base f n) (offset base (8 * n)) (f n)

theorem load64_storeWords (base : BitVec w) (f : ℕ → BitVec 64) {n k : ℕ} (hn : 8 * n ≤ 2 ^ w)
    (hk : k < n) : load64 (storeWords m base f n) (offset base (8 * k)) = f k := by
  induction n with
  | zero => omega
  | succ n ih =>
    rw [storeWords]
    by_cases hlast : k = n
    · rw [hlast, load64_store64 (by omega)]
    · rw [load64_store64_of_ne base (by omega) (by omega) hlast, ih (by omega) (by omega)]

theorem storeWords_of_outside {base a : BitVec w} (f : ℕ → BitVec 64) {n : ℕ}
    (h : ∀ i < 8 * n, a ≠ offset base i) : storeWords m base f n a = m a := by
  induction n with
  | zero => rfl
  | succ n ih =>
    rw [storeWords, store64_of_outside, ih fun i hi => h i (by omega)]
    intro i hi
    rw [offset_offset]
    exact h (8 * n + i) (by omega)

theorem storeWords_zero (m : Memory w) (base : BitVec w) {n i : ℕ} (hn : 8 * n ≤ 2 ^ w)
    (hi : i < 8 * n) : storeWords m base (fun _ => 0) n (offset base i) = 0 := by
  induction n with
  | zero => omega
  | succ n ih =>
    rw [storeWords]
    by_cases hlast : 8 * n ≤ i
    · have hbyte : offset base i = offset (offset base (8 * n)) (i - 8 * n) := by
        rw [offset_offset, Nat.add_sub_cancel' hlast]
      rw [hbyte, store64, toNat_offset_sub _ (by omega), if_pos (by omega)]
      simp
    · rw [store64_of_outside, ih (by omega) (by omega)]
      intro j hj
      rw [offset_offset]
      exact offset_ne_offset base (by omega) (by omega) (by omega)

end ByteMemory
