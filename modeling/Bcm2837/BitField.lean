import Mathlib.Tactic

/-!
# Fields of a machine word

A field is given by its lowest bit and its width. A driver reads it with a shift
and a mask and writes it by clearing the field and or-ing the masked value in.
Everything here is read off one statement, which says bit by bit what a field
write leaves (`getLsbD_setField`).
-/
namespace BitField

variable {n : ℕ}

/-- The word whose low `w` bits are set. -/
def lowBits (n w : ℕ) : BitVec n := ~~~(BitVec.allOnes n <<< w)

/-- The field of width `w` at bit `s`. -/
def getField (v : BitVec n) (s w : ℕ) : BitVec n := (v >>> s) &&& lowBits n w

/-- Clear the field of width `w` at bit `s`. -/
def clrField (v : BitVec n) (s w : ℕ) : BitVec n := v &&& ~~~(lowBits n w <<< s)

/-- Clear the field of width `w` at bit `s`, then or in the low bits of `x`. -/
def setField (v : BitVec n) (s w : ℕ) (x : BitVec n) : BitVec n :=
  clrField v s w ||| ((x &&& lowBits n w) <<< s)

@[simp] theorem getLsbD_lowBits (w i : ℕ) :
    (lowBits n w).getLsbD i = decide (i < n ∧ i < w) := by
  simp only [lowBits, BitVec.getLsbD_not, BitVec.getLsbD_shiftLeft, BitVec.getLsbD_allOnes]
  by_cases hn : i < n <;> by_cases hw : i < w <;> simp [hn, hw]
  omega

theorem lowBits_of_le {w : ℕ} (h : n ≤ w) : lowBits n w = BitVec.allOnes n := by
  ext i hi
  simp only [← BitVec.getLsbD_eq_getElem, getLsbD_lowBits, BitVec.getLsbD_allOnes]
  simp [hi, show i < w by omega]

theorem lowBits_one : lowBits 32 1 = 1 := by decide

theorem lowBits_two : lowBits 32 2 = 0b11 := by decide

theorem lowBits_three : lowBits 32 3 = 0b111 := by decide

theorem lowBits_four : lowBits 32 4 = 0b1111 := by decide

theorem lowBits_eight : lowBits 32 8 = 0xFF := by decide

theorem setWidth_and_lowBits (v : BitVec n) (w : ℕ) :
    (v &&& lowBits n w).setWidth w = v.setWidth w := by
  ext i hi
  simp only [← BitVec.getLsbD_eq_getElem, BitVec.getLsbD_setWidth, BitVec.getLsbD_and,
    getLsbD_lowBits]
  by_cases hn : i < n
  · simp [hi, hn]
  · simp [BitVec.getLsbD_of_ge v i (by omega)]

theorem getLsbD_getField (v : BitVec n) (s w i : ℕ) :
    (getField v s w).getLsbD i = (decide (i < w) && v.getLsbD (s + i)) := by
  simp only [getField, BitVec.getLsbD_and, BitVec.getLsbD_ushiftRight, getLsbD_lowBits]
  by_cases hn : i < n
  · by_cases hw : i < w <;> simp [hn, hw]
  · simp [hn, BitVec.getLsbD_of_ge v (s + i) (by omega)]

theorem getLsbD_clrField (v : BitVec n) (s w i : ℕ) :
    (clrField v s w).getLsbD i = (!decide (s ≤ i ∧ i < s + w) && v.getLsbD i) := by
  simp only [clrField, BitVec.getLsbD_and, BitVec.getLsbD_not, BitVec.getLsbD_shiftLeft,
    getLsbD_lowBits]
  by_cases hn : i < n
  · by_cases hs : s ≤ i
    · by_cases hw : i < s + w
      · simp [hn, hs, hw, show ¬ i < s by omega, show i - s < n by omega,
          show i - s < w by omega]
      · simp [hn, hs, hw, show ¬ i - s < w by omega]
    · simp [hn, hs, show i < s by omega]
  · simp [hn, BitVec.getLsbD_of_ge v i (by omega)]

/-- Bit by bit, a field write puts the low bits of the value into the field and
leaves every other bit as it was. -/
theorem getLsbD_setField (v x : BitVec n) (s w i : ℕ) :
    (setField v s w x).getLsbD i =
      if s ≤ i ∧ i < s + w then decide (i < n) && x.getLsbD (i - s) else v.getLsbD i := by
  simp only [setField, BitVec.getLsbD_or, getLsbD_clrField, BitVec.getLsbD_shiftLeft,
    BitVec.getLsbD_and, getLsbD_lowBits]
  by_cases hs : s ≤ i
  · by_cases hw : i < s + w
    · by_cases hn : i < n
      · simp [hs, hw, hn, show ¬ i < s by omega, show i - s < n by omega,
          show i - s < w by omega]
      · simp [hs, hw, hn]
    · simp [hw, show ¬ i - s < w by omega]
  · simp [hs, show i < s by omega]

/-- The bits of a value put in place. -/
theorem getLsbD_field (x : BitVec n) (s w i : ℕ) :
    ((x &&& lowBits n w) <<< s).getLsbD i =
      (decide (s ≤ i ∧ i < s + w) && (decide (i < n) && x.getLsbD (i - s))) := by
  have h := getLsbD_setField (0 : BitVec n) x s w i
  rw [setField, BitVec.getLsbD_or, getLsbD_clrField] at h
  by_cases hi : s ≤ i ∧ i < s + w
  · rw [if_pos hi] at h
    simpa [hi] using h
  · rw [if_neg hi] at h
    simpa [hi] using h

/-- Reading a field just written gives the value cut to the field's width. -/
theorem getField_setField_same (v x : BitVec n) (s w : ℕ) (h : s + w ≤ n) :
    getField (setField v s w x) s w = x &&& lowBits n w := by
  apply BitVec.eq_of_getLsbD_eq
  intro i hi
  rw [getLsbD_getField, getLsbD_setField, BitVec.getLsbD_and, getLsbD_lowBits]
  by_cases hw : i < w
  · simp [hw, hi, show s + i < n by omega]
  · simp [hw]

/-- A field write does not reach a disjoint field. -/
theorem getField_setField_of_disjoint (v x : BitVec n) (s w s' w' : ℕ)
    (h : s + w ≤ s' ∨ s' + w' ≤ s) :
    getField (setField v s w x) s' w' = getField v s' w' := by
  apply BitVec.eq_of_getLsbD_eq
  intro i hi
  rw [getLsbD_getField, getLsbD_getField, getLsbD_setField]
  by_cases hw : i < w'
  · rw [if_neg (by omega)]
  · simp [hw]

/-! ## Fields that are or-ed without being cleared -/

/-- Or the low bits of `x` into the field of width `w` at bit `s`. -/
def orField (v : BitVec n) (s w : ℕ) (x : BitVec n) : BitVec n :=
  v ||| ((x &&& lowBits n w) <<< s)

theorem getField_orField_same (v x : BitVec n) (s w : ℕ) (h : s + w ≤ n) :
    getField (orField v s w x) s w = getField v s w ||| (x &&& lowBits n w) := by
  apply BitVec.eq_of_getLsbD_eq
  intro i hi
  rw [BitVec.getLsbD_or, getLsbD_getField, getLsbD_getField, orField, BitVec.getLsbD_or,
    getLsbD_field, BitVec.getLsbD_and, getLsbD_lowBits]
  by_cases hw : i < w
  · simp [hw, hi, show s + i < n by omega]
  · simp [hw]

theorem getField_orField_of_disjoint (v x : BitVec n) (s w s' w' : ℕ)
    (h : s + w ≤ s' ∨ s' + w' ≤ s) :
    getField (orField v s w x) s' w' = getField v s' w' := by
  apply BitVec.eq_of_getLsbD_eq
  intro i hi
  rw [getLsbD_getField, getLsbD_getField, orField, BitVec.getLsbD_or, getLsbD_field]
  by_cases hw : i < w'
  · simp [show ¬ (s ≤ s' + i ∧ s' + i < s + w) by omega]
  · simp [hw]

/-- Every bit of `x` is one of `y`. -/
def Within (x y : BitVec n) : Prop := ∀ i, x.getLsbD i = true → y.getLsbD i = true

theorem or_eq_left_iff (x y : BitVec n) : y ||| x = y ↔ Within x y := by
  constructor
  · intro h i hx
    rw [← h, BitVec.getLsbD_or, hx, Bool.or_true]
  · intro h
    apply BitVec.eq_of_getLsbD_eq
    intro i _
    rw [BitVec.getLsbD_or]
    cases hx : x.getLsbD i with
    | false => rw [Bool.or_false]
    | true => rw [h i hx, Bool.or_true]

theorem or_eq_right_iff (x y : BitVec n) : x ||| y = y ↔ Within x y := by
  rw [BitVec.or_comm, or_eq_left_iff]

theorem and_eq_left_iff (x y : BitVec n) : x &&& y = x ↔ Within x y := by
  constructor
  · intro h i hx
    rw [← h, BitVec.getLsbD_and, Bool.and_eq_true] at hx
    exact hx.2
  · intro h
    apply BitVec.eq_of_getLsbD_eq
    intro i _
    rw [BitVec.getLsbD_and]
    cases hx : x.getLsbD i with
    | false => rw [Bool.false_and]
    | true => rw [h i hx, Bool.true_and]

/-- Or-ing bits that the field holds changes nothing. -/
theorem orField_eq_self {v x : BitVec n} {s w : ℕ}
    (h : Within (x &&& lowBits n w) (getField v s w)) : orField v s w x = v := by
  apply BitVec.eq_of_getLsbD_eq
  intro i hi
  rw [orField, BitVec.getLsbD_or, getLsbD_field]
  by_cases hin : s ≤ i ∧ i < s + w
  · cases hx : x.getLsbD (i - s) with
    | false => simp
    | true =>
      have hlow : i - s < n ∧ i - s < w := by omega
      have hbit := h (i - s) (by
        rw [BitVec.getLsbD_and, hx, getLsbD_lowBits, decide_eq_true hlow]
        rfl)
      rw [getLsbD_getField, show s + (i - s) = i by omega, Bool.and_eq_true] at hbit
      rw [hbit.2, Bool.true_or]
  · simp [hin]

/-- Or-ing one value into two disjoint fields gives the same word only when both hold all
its bits already. -/
theorem orField_eq_orField_iff (v x : BitVec n) (s s' w : ℕ) (hs : s + w ≤ n) (hs' : s' + w ≤ n)
    (h : s + w ≤ s' ∨ s' + w ≤ s) :
    orField v s w x = orField v s' w x ↔
      Within (x &&& lowBits n w) (getField v s w) ∧
        Within (x &&& lowBits n w) (getField v s' w) := by
  constructor
  · intro heq
    have hleft := congrArg (fun y => getField y s w) heq
    have hright := congrArg (fun y => getField y s' w) heq
    simp only [getField_orField_same v x s w hs,
      getField_orField_of_disjoint v x s' w s w h.symm] at hleft
    simp only [getField_orField_same v x s' w hs', getField_orField_of_disjoint v x s w s' w h]
      at hright
    exact ⟨(or_eq_left_iff _ _).mp hleft, (or_eq_left_iff _ _).mp hright.symm⟩
  · rintro ⟨hleft, hright⟩
    rw [orField_eq_self hleft, orField_eq_self hright]

/-- The bits of a word outside a mask and those inside add up to the word. -/
theorem and_not_add_and (v x : BitVec n) : (v &&& ~~~x) + (v &&& x) = v := by
  have hapart : (v &&& ~~~x) &&& (v &&& x) = 0 := by
    ext i hi
    simp only [BitVec.getElem_and, BitVec.getElem_not]
    cases v[i] <;> cases x[i] <;> simp
  have hjoin : (v &&& ~~~x) ||| (v &&& x) = v := by
    ext i hi
    simp only [BitVec.getElem_or, BitVec.getElem_and, BitVec.getElem_not]
    cases v[i] <;> cases x[i] <;> simp
  rw [BitVec.add_eq_or_of_and_eq_zero _ _ hapart, hjoin]

/-! ## Single bits -/

theorem getLsbD_one_shiftLeft (i j : ℕ) :
    ((1 : BitVec n) <<< i).getLsbD j = decide (j < n ∧ i = j) := by
  rw [BitVec.getLsbD_shiftLeft]
  by_cases hn : j < n
  · by_cases hij : j < i
    · simp [hn, hij, show i ≠ j by omega]
    · by_cases he : i = j
      · simp [hn, he, show 0 < n by omega]
      · simp [hn, hij, he, show j - i ≠ 0 by omega]
  · simp [hn]

/-- The mask of one bit meets a word when that bit is set. -/
theorem and_bit_eq_zero_iff (v : BitVec n) (i : ℕ) :
    v &&& ((1 : BitVec n) <<< i) = 0 ↔ v.getLsbD i = false := by
  constructor
  · intro h
    have hbit := congrArg (fun x => x.getLsbD i) h
    simp only [BitVec.getLsbD_and, getLsbD_one_shiftLeft, and_true] at hbit
    by_cases hn : i < n
    · simpa [hn] using hbit
    · exact BitVec.getLsbD_of_ge v i (by omega)
  · intro h
    apply BitVec.eq_of_getLsbD_eq
    intro j hj
    rw [BitVec.getLsbD_and, getLsbD_one_shiftLeft]
    by_cases hij : i = j
    · simp [← hij, h]
    · simp [hij]

/-- Clearing one bit is masking below it only when nothing lies above. -/
theorem and_not_bit_eq_iff (v : BitVec n) {k : ℕ} (hk : k < n) :
    v &&& ~~~((1 : BitVec n) <<< k) = v &&& lowBits n k ↔ getField v (k + 1) (n - (k + 1)) = 0 := by
  constructor
  · intro h
    apply BitVec.eq_of_getLsbD_eq
    intro i hi
    have hbit := congrArg (fun x => x.getLsbD (k + 1 + i)) h
    simp only [BitVec.getLsbD_and, BitVec.getLsbD_not, getLsbD_one_shiftLeft, getLsbD_lowBits,
      show ¬ (k + 1 + i < n ∧ k = k + 1 + i) by omega,
      show ¬ (k + 1 + i < n ∧ k + 1 + i < k) by omega, decide_false, Bool.not_false,
      Bool.and_true, Bool.and_false] at hbit
    rw [getLsbD_getField]
    by_cases hw : i < n - (k + 1)
    · simpa [hw, show k + 1 + i < n by omega] using hbit
    · simp [hw]
  · intro h
    apply BitVec.eq_of_getLsbD_eq
    intro i hi
    rw [BitVec.getLsbD_and, BitVec.getLsbD_and, BitVec.getLsbD_not, getLsbD_one_shiftLeft,
      getLsbD_lowBits]
    rcases lt_trichotomy i k with hlt | heq | hgt
    · simp [hi, hlt, show k ≠ i by omega]
    · simp [heq]
    · have hbit := congrArg (fun x => x.getLsbD (i - (k + 1))) h
      simp only [getLsbD_getField, show k + 1 + (i - (k + 1)) = i by omega,
        show i - (k + 1) < n - (k + 1) by omega, decide_true, Bool.true_and] at hbit
      rw [hbit]
      simp

/-- A bit read out as a word. -/
theorem shiftRight_and_one (v : BitVec n) (i : ℕ) :
    (v >>> i) &&& 1 = if v.getLsbD i then 1 else 0 := by
  apply BitVec.eq_of_getLsbD_eq
  intro k hk
  rw [BitVec.getLsbD_and, BitVec.getLsbD_ushiftRight]
  cases k with
  | zero => simp only [Nat.add_zero]; cases v.getLsbD i <;> simp
  | succ k => cases v.getLsbD i <;> simp [BitVec.getLsbD_one]

/-- Clear one bit. -/
def clearBit (v : BitVec n) (i : ℕ) : BitVec n := v &&& ~~~((1 : BitVec n) <<< i)

/-- Set one bit. -/
def setBit (v : BitVec n) (i : ℕ) : BitVec n := v ||| ((1 : BitVec n) <<< i)

theorem getLsbD_clearBit (v : BitVec n) (i j : ℕ) :
    (clearBit v i).getLsbD j = (v.getLsbD j && decide (i ≠ j)) := by
  rw [clearBit, BitVec.getLsbD_and, BitVec.getLsbD_not, getLsbD_one_shiftLeft]
  by_cases hn : j < n
  · simp [hn]
  · simp [BitVec.getLsbD_of_ge v j (by omega)]

theorem getLsbD_setBit (v : BitVec n) (i j : ℕ) :
    (setBit v i).getLsbD j = (v.getLsbD j || decide (j < n ∧ i = j)) := by
  rw [setBit, BitVec.getLsbD_or, getLsbD_one_shiftLeft]

/-- Give one bit a value. -/
def putBit (v : BitVec n) (i : ℕ) (b : Bool) : BitVec n := if b then setBit v i else clearBit v i

theorem getLsbD_putBit (v : BitVec n) (i j : ℕ) (b : Bool) (hj : j < n) :
    (putBit v i b).getLsbD j = if i = j then b else v.getLsbD j := by
  cases b with
  | false =>
    rw [putBit, if_neg Bool.false_ne_true, getLsbD_clearBit]
    by_cases hij : i = j
    · rw [if_pos hij, decide_eq_false (not_not_intro hij), Bool.and_false]
    · rw [if_neg hij, decide_eq_true hij, Bool.and_true]
  | true =>
    rw [putBit, if_pos rfl, getLsbD_setBit]
    by_cases hij : i = j
    · rw [if_pos hij, decide_eq_true ⟨hj, hij⟩, Bool.or_true]
    · rw [if_neg hij, decide_eq_false fun h => hij h.2, Bool.or_false]

theorem eq_zero_iff_getLsbD (v : BitVec n) : v = 0 ↔ ∀ i < n, v.getLsbD i = false := by
  constructor
  · rintro rfl i -
    exact BitVec.getLsbD_zero
  · intro h
    apply BitVec.eq_of_getLsbD_eq
    intro i hi
    rw [h i hi]
    exact BitVec.getLsbD_zero.symm

end BitField
