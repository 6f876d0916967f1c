import Bcm2837.I2cWorld

/-!
# Stored bits of the control register

Most bits of the control register read back as they were written, whatever the others
do. Field writes are compound assignments, so the point is what one of them does to
each stored bit.
-/
namespace Bcm2837

open Bsc

/-- The control register as a load shows it. -/
def Device.control {δ : Type} (d : Device δ) (s : δ) : Word := (d.access (.load .C) s).1

/-- The bits `I` of the control register are storage. -/
structure StoredBits (I : ℕ → Prop) {δ : Type} (d : Device δ) (bit : δ → ℕ → Bool) :
    Prop where
  lt : ∀ i, I i → i < 32
  load : ∀ s i, I i → (d.control s).getLsbD i = bit s i ∧ bit (d.access (.load .C) s).2 i = bit s i
  store : ∀ s (v : Word) i, I i → bit (d.access (.store .C v) s).2 i = v.getLsbD i
  others : ∀ s a i, I i → a ≠ .load .C → (∀ v, a ≠ .store .C v) →
    bit (d.access a s).2 i = bit s i

theorem storedBits_plain (I : ℕ → Prop) (hI : ∀ i, I i → i < 32) :
    StoredBits I Device.plain fun m i => (m .C).getLsbD i where
  lt := hI
  load _ _ _ := ⟨rfl, rfl⟩
  store s v i _ := by simp [Device.plain]
  others s a i _ hl hs := by
    cases a with
    | load r => rfl
    | store r v =>
      have hr : Register.C ≠ r := fun h => hs v (h ▸ rfl)
      simp [Device.plain, hr]

section Bits

variable {I : ℕ → Prop} {δ : Type} {d : Device δ} {bit : δ → ℕ → Bool} (hd : StoredBits I d bit)
  {i : ℕ} (hi : I i) (s : δ)
include hd hi

theorem bit_modify (f : Word → Word) :
    bit ((Mmio.modify .C f).run d.access s).2 i = (f (d.control s)).getLsbD i :=
  hd.store _ _ i hi

/-- A field write sets the bits of its field and leaves the others. -/
theorem bit_setControl (f : Control) (value : Word) :
    bit ((I2c.setControl f value).run d.access s).2 i =
      if (I2c.controlField f).shift ≤ i ∧
          i < (I2c.controlField f).shift + (I2c.controlField f).width then
        value.getLsbD (i - (I2c.controlField f).shift)
      else bit s i := by
  have hset := BitField.getLsbD_setField (d.control s) value (I2c.controlField f).shift
    (I2c.controlField f).width i
  rw [(hd.load s i hi).1, decide_eq_true (hd.lt i hi), Bool.true_and] at hset
  rw [← hset, I2c.setControl, Prog.run_bind, bit_modify hd hi, BitVec.getLsbD_or,
    (hd.load _ i hi).1, bit_modify hd hi, ← BitVec.getLsbD_or, I2c.mask_eq_lowBits]
  rfl

theorem bit_clrControl (f : Control) :
    bit ((I2c.clrControl f).run d.access s).2 i =
      (!decide ((I2c.controlField f).shift ≤ i ∧
        i < (I2c.controlField f).shift + (I2c.controlField f).width) && bit s i) := by
  rw [← (hd.load s i hi).1, ← BitField.getLsbD_clrField, I2c.clrControl, bit_modify hd hi,
    I2c.mask_eq_lowBits]
  rfl

theorem bit_store {r : Register} (hr : r ≠ .C) (v : Word) :
    bit ((Mmio.store r v).run d.access s).2 i = bit s i :=
  hd.others s _ i hi nofun fun _ h => hr (by cases h; rfl)

theorem bit_clrStatus (f : Status) :
    bit ((I2c.clrStatus f).run d.access s).2 i = bit s i :=
  bit_store hd hi s (by decide) _

end Bits

end Bcm2837
