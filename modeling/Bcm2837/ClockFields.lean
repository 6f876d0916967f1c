import Bcm2837.ClockDriver

/-!
# The clock fields as the driver keeps them

Every field of a clock has two accessor pairs. Both or a value into the field without
clearing it, and they do not agree on where the control fields lie.
-/
namespace Bcm2837.Clock

open BitField (lowBits lowBits_one lowBits_two lowBits_four getField orField Within)

/-- The fields of a clock that hold a value. -/
inductive Field
  | DIVI | DIVF | BOTH_VALUE
  | SRC | ENAB | KILL | MASH | ALL
  deriving DecidableEq

def divRegister : Fin 3 → Register
  | 0 => .CM_GP0DIV
  | 1 => .CM_GP1DIV
  | 2 => .CM_GP2DIV

def ctlRegister : Fin 3 → Register
  | 0 => .CM_GP0CTL
  | 1 => .CM_GP1CTL
  | 2 => .CM_GP2CTL

namespace Field

/-- The register of clock `ch` that the field is in. -/
def register (ch : Fin 3) : Field → Register
  | DIVI | DIVF | BOTH_VALUE => divRegister ch
  | SRC | ENAB | KILL | MASH | ALL => ctlRegister ch

def write (ch : Fin 3) (f : Field) (value : Word) : Io Unit :=
  match f with
  | DIVI => Clock.write.divisor (divRegister ch) .DIVI value
  | DIVF => Clock.write.divisor (divRegister ch) .DIVF value
  | BOTH_VALUE => Clock.write.divisor (divRegister ch) .BOTH_VALUE value
  | SRC => Clock.write.control (ctlRegister ch) .SRC value
  | ENAB => Clock.write.control (ctlRegister ch) .ENAB value
  | KILL => Clock.write.control (ctlRegister ch) .KILL value
  | MASH => Clock.write.control (ctlRegister ch) .MASH value
  | ALL => Clock.write.control (ctlRegister ch) .ALL value

def read (unset : Word) (ch : Fin 3) : Field → Io Word
  | DIVI => Clock.read.divisor (divRegister ch) .DIVI
  | DIVF => Clock.read.divisor (divRegister ch) .DIVF
  | BOTH_VALUE => Clock.read.divisor (divRegister ch) .BOTH_VALUE
  | SRC => Clock.read.control unset (ctlRegister ch) .SRC
  | ENAB => Clock.read.control unset (ctlRegister ch) .ENAB
  | KILL => Clock.read.control unset (ctlRegister ch) .KILL
  | MASH => Clock.read.control unset (ctlRegister ch) .MASH
  | ALL => Clock.read.control unset (ctlRegister ch) .ALL

def set (ch : Fin 3) (f : Field) (value : Word) : Io Unit :=
  match f with
  | DIVI => set_CM_GPnDIV (divRegister ch) .DIVI value
  | DIVF => set_CM_GPnDIV (divRegister ch) .DIVF value
  | BOTH_VALUE => set_CM_GPnDIV (divRegister ch) .BOTH_VALUE value
  | SRC => set_CM_GPnCTL (ctlRegister ch) .SRC value
  | ENAB => set_CM_GPnCTL (ctlRegister ch) .ENAB value
  | KILL => set_CM_GPnCTL (ctlRegister ch) .KILL value
  | MASH => set_CM_GPnCTL (ctlRegister ch) .MASH value
  | ALL => set_CM_GPnCTL (ctlRegister ch) .ALL value

def get (ch : Fin 3) : Field → Io Word
  | DIVI => get_CM_GPnDIV (divRegister ch) .DIVI
  | DIVF => get_CM_GPnDIV (divRegister ch) .DIVF
  | BOTH_VALUE => get_CM_GPnDIV (divRegister ch) .BOTH_VALUE
  | SRC => get_CM_GPnCTL (ctlRegister ch) .SRC
  | ENAB => get_CM_GPnCTL (ctlRegister ch) .ENAB
  | KILL => get_CM_GPnCTL (ctlRegister ch) .KILL
  | MASH => get_CM_GPnCTL (ctlRegister ch) .MASH
  | ALL => get_CM_GPnCTL (ctlRegister ch) .ALL

/-- The lowest bit of a field, for `write` and `read`. -/
def low : Field → ℕ
  | DIVI => 12
  | ENAB => 5
  | KILL => 6
  | MASH => 10
  | DIVF | BOTH_VALUE | SRC | ALL => 0

/-- The lowest bit of a field, for `set_CM_GPnDIV` and its kind. -/
def setLow : Field → ℕ
  | DIVI => 12
  | ENAB => 4
  | KILL => 5
  | MASH => 8
  | DIVF | BOTH_VALUE | SRC | ALL => 0

def width : Field → ℕ
  | DIVI | DIVF => 12
  | BOTH_VALUE => 24
  | SRC => 4
  | ENAB | KILL => 1
  | MASH => 2
  | ALL => 32

end Field

/-- The writable bits of a control register where `read` has its fields. -/
def writable : Word := 0xC6F

/-- What a field is to hold of a value. -/
def cut (f : Field) (value : Word) : Word :=
  match f with
  | .ALL => value &&& writable
  | f => value &&& lowBits 32 f.width

theorem write_divisor_eq (ch : Fin 3) (f : ClockDivisor) (v : Word) :
    write.divisor (divRegister ch) f v = writeDIV (divRegister ch) f v := by
  fin_cases ch <;> rfl

theorem read_divisor_eq (ch : Fin 3) (f : ClockDivisor) :
    read.divisor (divRegister ch) f = readDIV (divRegister ch) f := by
  fin_cases ch <;> rfl

theorem write_control_eq (ch : Fin 3) (f : CM_GPnCTL_Type) (v : Word) :
    write.control (ctlRegister ch) f v = writeCTL (ctlRegister ch) f v := by
  fin_cases ch <;> rfl

theorem read_control_eq (unset : Word) (ch : Fin 3) (f : CM_GPnCTL_Type) :
    read.control unset (ctlRegister ch) f = readCTL (ctlRegister ch) f := by
  fin_cases ch <;> rfl

theorem getField_zero (v : Word) (w : ℕ) : getField v 0 w = v &&& lowBits 32 w := by
  rw [getField, BitVec.ushiftRight_zero]

theorem orField_zero (v x : Word) (w : ℕ) : orField v 0 w x = v ||| (lowBits 32 w &&& x) := by
  rw [orField, BitVec.shiftLeft_zero, BitVec.and_comm]

theorem getField_all (v : Word) : getField v 0 32 = v := by
  rw [getField_zero, BitField.lowBits_of_le le_rfl, BitVec.and_allOnes]

section Runs

variable (m : Register → Word)

/-- The registers after a setter. -/
def after (p : Io Unit) : Register → Word := (p.run Access.storage m).2

/-- The answer of a getter. -/
def answer (p : Io Word) : Word := (p.run Access.storage m).1

theorem answer_read (unset : Word) (ch : Fin 3) (f : Field) :
    answer m (f.read unset ch) = getField (m (f.register ch)) f.low f.width := by
  cases f with
  | DIVI => rw [Field.read, read_divisor_eq]; rfl
  | DIVF => rw [Field.read, read_divisor_eq, Field.low, getField_zero]; rfl
  | BOTH_VALUE => rw [Field.read, read_divisor_eq, Field.low, getField_zero]; rfl
  | SRC => rw [Field.read, read_control_eq, Field.low, getField_zero]; rfl
  | ENAB => rw [Field.read, read_control_eq, getField, Field.width, lowBits_one]; rfl
  | KILL => rw [Field.read, read_control_eq, getField, Field.width, lowBits_one]; rfl
  | MASH => rw [Field.read, read_control_eq]; rfl
  | ALL => rw [Field.read, read_control_eq, Field.low, Field.width, getField_all]; rfl

theorem after_write (ch : Fin 3) {f : Field} (hf : f ≠ .ALL) (v : Word) :
    after m (f.write ch v) = Function.update m (f.register ch)
      (orField (m (f.register ch)) f.low f.width v) := by
  cases f with
  | DIVI =>
    rw [Field.write, write_divisor_eq, orField, BitVec.and_comm v]
    rfl
  | DIVF =>
    rw [Field.write, write_divisor_eq, Field.low, orField_zero]
    rfl
  | BOTH_VALUE =>
    rw [Field.write, write_divisor_eq, Field.low, orField_zero]
    rfl
  | SRC =>
    rw [Field.write, write_control_eq, Field.low, orField_zero]
    rfl
  | ENAB =>
    rw [Field.write, write_control_eq, orField, Field.width, lowBits_one]
    rfl
  | KILL =>
    rw [Field.write, write_control_eq, orField, Field.width, lowBits_one]
    rfl
  | MASH =>
    rw [Field.write, write_control_eq]
    rfl
  | ALL => exact absurd rfl hf

theorem after_write_all (ch : Fin 3) (v : Word) :
    after m (Field.write ch .ALL v) = Function.update m (ctlRegister ch) (allValue v) := by
  rw [Field.write, write_control_eq]
  rfl

theorem after_set (ch : Fin 3) {f : Field} (hf : f ≠ .ALL) (v : Word) :
    after m (f.set ch v) = Function.update m (f.register ch)
      (orField (m (f.register ch)) f.setLow f.width v) := by
  cases f with
  | DIVI =>
    rw [orField, BitVec.and_comm v]
    rfl
  | DIVF =>
    rw [Field.setLow, orField_zero]
    rfl
  | BOTH_VALUE =>
    rw [Field.setLow, orField_zero]
    rfl
  | SRC =>
    rw [Field.setLow, orField_zero]
    rfl
  | ENAB =>
    rw [orField, Field.width, lowBits_one]
    rfl
  | KILL =>
    rw [orField, Field.width, lowBits_one]
    rfl
  | MASH =>
    rw [orField, Field.width, lowBits_two]
    rfl
  | ALL => exact absurd rfl hf

end Runs

/-! ## Put and get -/

/-- Two fields that share no bit. -/
def Apart (f g : Field) : Prop := f.low + f.width ≤ g.low ∨ g.low + g.width ≤ f.low

/-- Each part of the control value has the bits that `ALL` stores for it. -/
def Spread (v : Word) : Prop :=
  v.getLsbD 5 = v.getLsbD 0 ∧ v.getLsbD 6 = v.getLsbD 0 ∧ v.getLsbD 10 = v.getLsbD 0 ∧
    v.getLsbD 11 = v.getLsbD 1

theorem getLsbD_allValue (v : Word) (i : ℕ) : (allValue v).getLsbD i =
    if i < 4 then v.getLsbD i else if i = 5 ∨ i = 6 then v.getLsbD 0
    else if i = 10 ∨ i = 11 then v.getLsbD (i - 10) else false := by
  have hsrc := BitField.getLsbD_field v 0 4 i
  rw [BitVec.shiftLeft_zero] at hsrc
  rw [allValue, lowBits_one.symm, BitVec.and_comm (lowBits 32 4), BitVec.getLsbD_or,
    BitVec.getLsbD_or, BitVec.getLsbD_or, hsrc, BitField.getLsbD_field, BitField.getLsbD_field,
    BitField.getLsbD_field]
  by_cases h12 : i < 12
  · interval_cases i <;> simp
  · simp [h12, show ¬ i < 4 by omega, show ¬ i < 6 by omega, show ¬ i < 7 by omega,
      show i ≠ 5 by omega, show i ≠ 6 by omega, show i ≠ 10 by omega, show i ≠ 11 by omega]

/-- `ALL` stores the control bits of a value only when they repeat its lowest bits. -/
theorem allValue_eq_iff (v : Word) : allValue v = v &&& writable ↔ Spread v := by
  constructor
  · intro h
    have hbit (i : ℕ) : (allValue v).getLsbD i = (v &&& writable).getLsbD i := by rw [h]
    simp only [getLsbD_allValue, BitVec.getLsbD_and] at hbit
    exact ⟨by simpa [writable] using (hbit 5).symm, by simpa [writable] using (hbit 6).symm,
      by simpa [writable] using (hbit 10).symm, by simpa [writable] using (hbit 11).symm⟩
  · rintro ⟨h5, h6, h10, h11⟩
    apply BitVec.eq_of_getLsbD_eq
    intro i hi
    rw [getLsbD_allValue, BitVec.getLsbD_and]
    simp only [BitVec.getLsbD_eq_getElem, Nat.reduceLT] at h5 h6 h10 h11
    interval_cases i <;> simp [writable, h5, h6, h10, h11]

theorem cut_eq {f : Field} (hf : f ≠ .ALL) (v : Word) : cut f v = v &&& lowBits 32 f.width := by
  cases f with
  | ALL => exact absurd rfl hf
  | DIVI | DIVF | BOTH_VALUE | SRC | ENAB | KILL | MASH => rfl

theorem low_add_width_le (f : Field) : f.low + f.width ≤ 32 := by cases f <;> decide

section PutGet

variable (unset : Word) (m : Register → Word) (ch : Fin 3) (f : Field)

/-- What a field accessor promises: a write reads back, a second write replaces it, and
nothing else changes. -/
structure WellBehaved (v w : Word) : Prop where
  putGet : answer (after m (f.write ch v)) (f.read unset ch) = cut f v
  putPut : answer (after (after m (f.write ch v)) (f.write ch w)) (f.read unset ch) = cut f w
  otherFields : ∀ ch' g, g.register ch' ≠ f.register ch ∨ Apart f g →
    answer (after m (f.write ch v)) (g.read unset ch') = answer m (g.read unset ch')
  otherRegisters : ∀ r, r ≠ f.register ch → after m (f.write ch v) r = m r

/-- The old bits of the field are among those written, and these among the next. `ALL`
replaces the old bits, but takes every part of the control value from its lowest bits. -/
def Grows (v w : Word) : Prop :=
  match f with
  | .ALL => Spread v ∧ Spread w
  | f => Within (answer m (f.read unset ch)) (cut f v) ∧ Within (cut f v) (cut f w)

/-- A write leaves the other registers as they were. -/
theorem after_write_of_ne (v : Word) {r : Register} (hr : r ≠ f.register ch) :
    after m (f.write ch v) r = m r := by
  by_cases hf : f = .ALL
  · subst hf
    rw [after_write_all]
    exact Function.update_of_ne hr _ _
  · rw [after_write m ch hf, Function.update_of_ne hr]

/-- What a field reads after a write that does not clear it. -/
theorem answer_read_write (hf : f ≠ .ALL) (v : Word) :
    answer (after m (f.write ch v)) (f.read unset ch) =
      answer m (f.read unset ch) ||| cut f v := by
  rw [answer_read, answer_read, after_write m ch hf, Function.update_self,
    BitField.getField_orField_same _ _ _ _ (low_add_width_le f), cut_eq hf]

theorem answer_read_write_all (v : Word) :
    answer (after m (Field.write ch .ALL v)) (Field.read unset ch .ALL) = allValue v := by
  rw [answer_read, after_write_all]
  exact (getField_all _).trans (Function.update_self _ _ _)

theorem answer_read_other (v : Word) (ch' : Fin 3) (g : Field)
    (h : g.register ch' ≠ f.register ch ∨ Apart f g) :
    answer (after m (f.write ch v)) (g.read unset ch') = answer m (g.read unset ch') := by
  rw [answer_read, answer_read]
  by_cases hreg : g.register ch' = f.register ch
  · have hapart := h.resolve_left (not_not_intro hreg)
    have hf : f ≠ .ALL := by
      rintro rfl
      unfold Apart at hapart
      revert hapart
      cases g <;> decide
    rw [hreg, after_write m ch hf, Function.update_self,
      BitField.getField_orField_of_disjoint _ _ _ _ _ _ hapart]
  · rw [after_write_of_ne m ch f v hreg]

/-- A field accessor is well behaved exactly when no bit has to be cleared. -/
theorem wellBehaved_iff (v w : Word) :
    WellBehaved unset m ch f v w ↔ Grows unset m ch f v w := by
  have hframe : WellBehaved unset m ch f v w ↔
      answer (after m (f.write ch v)) (f.read unset ch) = cut f v ∧
        answer (after (after m (f.write ch v)) (f.write ch w)) (f.read unset ch) = cut f w :=
    ⟨fun h => ⟨h.putGet, h.putPut⟩, fun h => ⟨h.1, h.2, answer_read_other unset m ch f v,
      fun r hr => after_write_of_ne m ch f v hr⟩⟩
  rw [hframe]
  by_cases hf : f = .ALL
  · subst hf
    rw [answer_read_write_all, answer_read_write_all]
    exact and_congr (allValue_eq_iff v) (allValue_eq_iff w)
  · have hgrows : Grows unset m ch f v w ↔
        Within (answer m (f.read unset ch)) (cut f v) ∧ Within (cut f v) (cut f w) := by
      cases f with
      | ALL => exact absurd rfl hf
      | DIVI | DIVF | BOTH_VALUE | SRC | ENAB | KILL | MASH => exact Iff.rfl
    have hfirst := answer_read_write unset m ch f hf v
    have hsecond := answer_read_write unset (after m (f.write ch v)) ch f hf w
    rw [hgrows, hsecond, hfirst, BitField.or_eq_right_iff]
    refine and_congr_right fun hold => ?_
    rw [(BitField.or_eq_right_iff _ _).mpr hold, BitField.or_eq_right_iff]

end PutGet

/-- A divisor of 2 written over a divisor of 1 reads back as 3. -/
theorem not_wellBehaved_staleDivisor :
    ¬ WellBehaved 0 (fun _ => 0x1000) 0 .DIVI 2 2 := by
  intro h
  have hread := h.putGet
  revert hread
  decide

/-! ## The two access paths -/

section Paths

variable (unset : Word) (m : Register → Word) (ch : Fin 3) (f : Field)

/-- What the two accessor pairs of a field promise each other. -/
structure PathsAgree (v : Word) : Prop where
  get_eq : answer m (f.get ch) = answer m (f.read unset ch)
  set_eq : after m (f.set ch v) = after m (f.write ch v)
  get_write : answer (after m (f.write ch v)) (f.get ch) =
    answer (after m (f.write ch v)) (f.read unset ch)
  read_set : answer (after m (f.set ch v)) (f.read unset ch) =
    answer (after m (f.set ch v)) (f.get ch)

/-- Where the two layouts make no difference. A field that they place differently must
hold the same at both places, the bits to be written included. -/
def LayoutsMeet (v : Word) : Prop :=
  match f with
  | .DIVI | .SRC => True
  | .DIVF => getField (m (divRegister ch)) 13 19 = 0
  | .BOTH_VALUE => getField (m (divRegister ch)) 25 7 = 0
  | .ALL => Spread v ∧ Within v writable
  | f => getField (m (ctlRegister ch)) f.setLow f.width =
      getField (m (ctlRegister ch)) f.low f.width ∧
    Within (cut f v) (getField (m (ctlRegister ch)) f.low f.width)

theorem answer_get (hF : f ≠ .DIVF) (hB : f ≠ .BOTH_VALUE) :
    answer m (f.get ch) = getField (m (f.register ch)) f.setLow f.width := by
  cases f with
  | DIVF => exact absurd rfl hF
  | BOTH_VALUE => exact absurd rfl hB
  | DIVI => rfl
  | SRC => rw [Field.setLow, getField_zero, Field.width, lowBits_four]; rfl
  | ENAB => rw [getField, Field.width, lowBits_one]; rfl
  | KILL => rw [getField, Field.width, lowBits_one]; rfl
  | MASH => rw [getField, Field.width, lowBits_two]; rfl
  | ALL => rw [Field.setLow, Field.width, getField_all]; rfl

/-- The masks of `get_CM_GPnDIV` clear one bit and leave those above it. -/
theorem get_eq_read_DIVF : answer m (Field.get ch .DIVF) = answer m (Field.read unset ch .DIVF) ↔
    getField (m (divRegister ch)) 13 19 = 0 := by
  rw [answer_read, Field.low, getField_zero]
  exact BitField.and_not_bit_eq_iff _ (by decide)

theorem get_eq_read_BOTH_VALUE :
    answer m (Field.get ch .BOTH_VALUE) = answer m (Field.read unset ch .BOTH_VALUE) ↔
      getField (m (divRegister ch)) 25 7 = 0 := by
  rw [answer_read, Field.low, getField_zero]
  exact BitField.and_not_bit_eq_iff _ (by decide)

theorem after_set_of_samePlace (hf : f ≠ .ALL) (h : f.setLow = f.low) (v : Word) :
    after m (f.set ch v) = after m (f.write ch v) := by
  rw [after_set m ch hf, after_write m ch hf, h]

/-- A field that the setters place alike agrees when its getters agree before and after. -/
theorem pathsAgree_of_samePlace (hf : f ≠ .ALL) (h : f.setLow = f.low) (v : Word) :
    PathsAgree unset m ch f v ↔ answer m (f.get ch) = answer m (f.read unset ch) ∧
      answer (after m (f.write ch v)) (f.get ch) =
        answer (after m (f.write ch v)) (f.read unset ch) := by
  have hset := after_set_of_samePlace m ch f hf h v
  exact ⟨fun h => ⟨h.get_eq, h.get_write⟩,
    fun h => ⟨h.1, hset, h.2, by rw [hset]; exact h.2.symm⟩⟩

/-- A field that the setters place apart agrees only when they change nothing. -/
theorem pathsAgree_of_apart (hF : f ≠ .DIVF) (hB : f ≠ .BOTH_VALUE) (hf : f ≠ .ALL)
    (hplace : f.setLow + f.width ≤ 32)
    (h : f.setLow + f.width ≤ f.low ∨ f.low + f.width ≤ f.setLow) (v : Word) :
    PathsAgree unset m ch f v ↔ getField (m (f.register ch)) f.setLow f.width =
      getField (m (f.register ch)) f.low f.width ∧
        Within (cut f v) (getField (m (f.register ch)) f.low f.width) := by
  have hset : after m (f.set ch v) = after m (f.write ch v) ↔
      Within (cut f v) (getField (m (f.register ch)) f.setLow f.width) ∧
        Within (cut f v) (getField (m (f.register ch)) f.low f.width) := by
    rw [after_set m ch hf, after_write m ch hf, (Function.update_injective m _).eq_iff,
      BitField.orField_eq_orField_iff _ _ _ _ _ hplace (low_add_width_le f) h, cut_eq hf]
  have hget : answer m (f.get ch) = answer m (f.read unset ch) ↔
      getField (m (f.register ch)) f.setLow f.width =
        getField (m (f.register ch)) f.low f.width := by
    rw [answer_get m ch f hF hB, answer_read]
  constructor
  · intro h
    exact ⟨hget.mp h.get_eq, (hset.mp h.set_eq).2⟩
  · rintro ⟨hsame, hwithin⟩
    have hwrite : after m (f.write ch v) = m := by
      rw [cut_eq hf] at hwithin
      rw [after_write m ch hf, BitField.orField_eq_self hwithin, Function.update_eq_self]
    have hsets := hset.mpr ⟨hsame ▸ hwithin, hwithin⟩
    have hgets := hget.mpr hsame
    refine ⟨hgets, hsets, ?_, ?_⟩
    · rw [hwrite, hgets]
    · rw [hsets, hwrite, hgets]

theorem within_writable_allValue (v : Word) : Within (allValue v) writable := by
  intro i hi
  rw [getLsbD_allValue] at hi
  by_cases h12 : i < 12
  · interval_cases i <;> simp_all [writable]
  · simp [show ¬ i < 4 by omega, show i ≠ 5 by omega, show i ≠ 6 by omega,
      show i ≠ 10 by omega, show i ≠ 11 by omega] at hi

theorem eq_allValue_iff (v : Word) : v = allValue v ↔ Spread v ∧ Within v writable := by
  have hcut := BitField.and_eq_left_iff v writable
  constructor
  · intro h
    have hwithin : Within v writable := by
      rw [h]
      exact within_writable_allValue v
    exact ⟨(allValue_eq_iff v).mp (h.symm.trans (hcut.mpr hwithin).symm), hwithin⟩
  · rintro ⟨hspread, hwithin⟩
    rw [(allValue_eq_iff v).mpr hspread, hcut.mpr hwithin]

theorem pathsAgree_all (v : Word) : PathsAgree unset m ch .ALL v ↔ v = allValue v := by
  have hget : ∀ m, answer m (Field.get ch .ALL) = answer m (Field.read unset ch .ALL) := by
    intro m
    rw [answer_get m ch .ALL (by decide) (by decide), answer_read]
    rfl
  have hset : after m (Field.set ch .ALL v) = Function.update m (ctlRegister ch) v := rfl
  rw [← (Function.update_injective m (ctlRegister ch)).eq_iff, ← after_write_all, ← hset]
  exact ⟨fun h => h.set_eq, fun h => ⟨hget _, h, hget _, (hget _).symm⟩⟩

/-- Bits that a write does not reach stay as they are. -/
theorem getField_after_write (hf : f ≠ .ALL) (v : Word) (s w : ℕ) (h : f.low + f.width ≤ s) :
    getField (after m (f.write ch v) (f.register ch)) s w = getField (m (f.register ch)) s w := by
  rw [after_write m ch hf, Function.update_self,
    BitField.getField_orField_of_disjoint _ _ _ _ _ _ (.inl h)]

/-- The two access paths agree exactly where the layouts make no difference. -/
theorem pathsAgree_iff (v : Word) : PathsAgree unset m ch f v ↔ LayoutsMeet m ch f v := by
  cases f with
  | DIVI =>
    have hget : ∀ m, answer m (Field.get ch .DIVI) = answer m (Field.read unset ch .DIVI) := by
      intro m
      rw [answer_get m ch .DIVI (by decide) (by decide), answer_read]
      rfl
    rw [pathsAgree_of_samePlace unset m ch .DIVI (by decide) rfl]
    exact iff_of_true ⟨hget _, hget _⟩ trivial
  | SRC =>
    have hget : ∀ m, answer m (Field.get ch .SRC) = answer m (Field.read unset ch .SRC) := by
      intro m
      rw [answer_get m ch .SRC (by decide) (by decide), answer_read]
      rfl
    rw [pathsAgree_of_samePlace unset m ch .SRC (by decide) rfl]
    exact iff_of_true ⟨hget _, hget _⟩ trivial
  | DIVF =>
    have hkept := getField_after_write m ch .DIVF (by decide) v 13 19 (by decide)
    rw [pathsAgree_of_samePlace unset m ch .DIVF (by decide) rfl, get_eq_read_DIVF,
      get_eq_read_DIVF]
    exact and_iff_left_of_imp fun h => hkept.trans h
  | BOTH_VALUE =>
    have hkept := getField_after_write m ch .BOTH_VALUE (by decide) v 25 7 (by decide)
    rw [pathsAgree_of_samePlace unset m ch .BOTH_VALUE (by decide) rfl, get_eq_read_BOTH_VALUE,
      get_eq_read_BOTH_VALUE]
    exact and_iff_left_of_imp fun h => hkept.trans h
  | ENAB =>
    exact pathsAgree_of_apart unset m ch .ENAB (by decide) (by decide) (by decide) (by decide)
      (.inl (by decide)) v
  | KILL =>
    exact pathsAgree_of_apart unset m ch .KILL (by decide) (by decide) (by decide) (by decide)
      (.inl (by decide)) v
  | MASH =>
    exact pathsAgree_of_apart unset m ch .MASH (by decide) (by decide) (by decide) (by decide)
      (.inl (by decide)) v
  | ALL => exact (pathsAgree_all unset m ch v).trans (eq_allValue_iff v)

end Paths

/-- `set_CM_GPnCTL` sets bit 4 of the control register, `write` bit 5. -/
theorem not_pathsAgree_enab : ¬ PathsAgree 0 (fun _ => 0) 0 .ENAB 1 := by
  intro h
  have hset := congrFun h.set_eq .CM_GP0CTL
  revert hset
  decide

end Bcm2837.Clock
