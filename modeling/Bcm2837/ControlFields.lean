import Bcm2837.FieldTable
import Bcm2837.SpiDriver

/-!
# The control fields of the I2C and SPI drivers

Both drivers keep a table of the fields of their control word and reach the word through
it alone, so that the helpers are sequences of field writes too.
-/
namespace Bcm2837

open Access (storage)
open BitField (lowBits getField setField clrField)

section Accessors

variable {R : Type} [DecidableEq R] (m : R → Word) (r : R)

theorem run_modify (f : Word → Word) :
    ((Mmio.modify r f).run storage m).2 = Function.update m r (f (m r)) := rfl

/-- Clearing a field and or-ing a value in is one field write. -/
theorem run_clear_or (s w : ℕ) (x : Word) :
    ((do
      Mmio.modify r (· &&& ~~~(I2c.mask w <<< s))
      Mmio.modify r (· ||| ((x &&& I2c.mask w) <<< s)) : Mmio R Word Unit).run storage m).2 =
      Function.update m r (setField (m r) s w x) := by
  rw [Prog.run_bind, run_modify, run_modify, Function.update_idem, Function.update_self,
    I2c.mask_eq_lowBits]
  rfl

theorem clrField_eq_setField (v : Word) (s w : ℕ) : clrField v s w = setField v s w 0 := by
  unfold setField
  simp

/-- Clearing a field is writing zero to it. -/
theorem run_clear (s w : ℕ) :
    ((Mmio.modify r (· &&& ~~~(I2c.mask w <<< s))).run storage m).2 =
      Function.update m r (setField (m r) s w 0) := by
  rw [run_modify, ← clrField_eq_setField, I2c.mask_eq_lowBits]
  rfl

end Accessors

namespace I2c

open Bsc

/-- The named fields of the control register from the lowest bit up. -/
def controlNames : List Control := [.READ, .CLEAR, .ST, .INTD, .INTT, .INTR, .I2CEN]

theorem mem_controlNames {f : Control} (hf : f ≠ .C_ALL) : f ∈ controlNames := by
  cases f with
  | C_ALL => contradiction
  | _ => decide

theorem controlNames_ordered : controlNames.Pairwise fun f g =>
    (controlField f).shift + (controlField f).width ≤ (controlField g).shift := by decide

/-- The fields of the control register. -/
def controlTable : FieldTable Control 32 where
  shift f := (controlField f).shift
  width f := (controlField f).width
  whole := .C_ALL
  shift_whole := rfl
  width_whole := rfl
  within f := by cases f <;> decide
  apart _ _ hf hg hfg := FieldTable.apart_of_ordered controlNames_ordered (mem_controlNames hf) (mem_controlNames hg) hfg

/-- The calls that write the control register. -/
inductive ControlCall
  | setControl (f : Control) (value : Word)
  | clrControl (f : Control)
  | enable | disable | clearFifo | startRead | startWrite

namespace ControlCall

def exec : ControlCall → Io Unit
  | setControl f value => I2c.setControl f value
  | clrControl f => I2c.clrControl f
  | enable => I2c.enable
  | disable => I2c.disable
  | clearFifo => I2c.clearFifo
  | startRead => I2c.startRead
  | startWrite => I2c.startWrite

/-- The values a call gives to fields. -/
def gives : ControlCall → List (Control × Word)
  | setControl f value => [(f, value)]
  | clrControl f => [(f, 0)]
  | enable => [(.I2CEN, 1)]
  | disable => [(.I2CEN, 0)]
  | clearFifo => [(.CLEAR, 0b01)]
  | startRead => [(.I2CEN, 1), (.READ, 1), (.ST, 1)]
  | startWrite => [(.I2CEN, 1), (.READ, 0), (.ST, 1)]

end ControlCall

variable (m : Register → Word)

theorem run_setControl (f : Control) (x : Word) :
    ((setControl f x).run storage m).2 = Function.update m .C (controlTable.set (m .C) f x) :=
  run_clear_or m .C _ _ x

theorem run_clrControl (f : Control) :
    ((clrControl f).run storage m).2 = Function.update m .C (controlTable.set (m .C) f 0) :=
  run_clear m .C _ _

theorem run_getControl (f : Control) :
    ((getControl f).run storage m).1 = controlTable.get (m .C) f := by
  rw [FieldTable.get, getField, ← mask_eq_lowBits]
  rfl

/-- Every call is the sequence of field writes it gives. -/
theorem run_exec (c : ControlCall) :
    (c.exec.run storage m).2 =
      Function.update m .C (controlTable.setAll (m .C) c.gives) := by
  cases c with
  | setControl f x => exact run_setControl m f x
  | clrControl f => exact run_clrControl m f
  | enable => exact run_setControl m .I2CEN 1
  | disable => exact run_clrControl m .I2CEN
  | clearFifo => exact run_setControl m .CLEAR 0b01
  | startRead =>
    simp only [ControlCall.exec, startRead, enable, Prog.run_bind, run_setControl,
      Function.update_idem, Function.update_self]
    rfl
  | startWrite =>
    simp only [ControlCall.exec, startWrite, enable, Prog.run_bind, run_setControl,
      Function.update_idem, Function.update_self]
    rfl

end I2c

namespace Spi

/-- The named fields of the control and status register from the lowest bit up. -/
def csNames : List ControlStatus :=
  [.CS_LINE, .CPHA, .CPOL, .CLEAR, .CSPOL, .TA, .DMAEN, .INTD, .INTR, .ADCS, .REN, .LEN, .LMONO,
    .TE_EN, .DONE, .RXD, .TXD, .RXR, .RXF, .CSPOL0, .CSPOL1, .CSPOL2, .DMA_LEN, .LEN_LONG]

theorem mem_csNames {f : ControlStatus} (hf : f ≠ .CS_ALL) : f ∈ csNames := by
  cases f with
  | CS_ALL => contradiction
  | _ => decide

theorem csNames_ordered : csNames.Pairwise fun f g =>
    (csField f).shift + (csField f).width ≤ (csField g).shift := by decide

/-- The fields of the control and status register. -/
def csTable : FieldTable ControlStatus 32 where
  shift f := (csField f).shift
  width f := (csField f).width
  whole := .CS_ALL
  shift_whole := rfl
  width_whole := rfl
  within f := by cases f <;> decide
  apart _ _ hf hg hfg := FieldTable.apart_of_ordered csNames_ordered (mem_csNames hf)
    (mem_csNames hg) hfg

/-- The calls that write the control and status register. -/
inductive CsCall
  | setCs (f : ControlStatus) (value : Word)
  | clrCs (f : ControlStatus)
  | mode (cpol cpha : Word)
  | chipSelect (ce : Word)
  | clearFifo | beginTransfer | endTransfer

namespace CsCall

def exec : CsCall → Io Unit
  | setCs f value => Spi.setCs f value
  | clrCs f => Spi.clrCs f
  | mode cpol cpha => Spi.mode cpol cpha
  | chipSelect ce => Spi.chipSelect ce
  | clearFifo => Spi.clearFifo
  | beginTransfer => Spi.beginTransfer
  | endTransfer => Spi.endTransfer

/-- The values a call gives to fields. -/
def gives : CsCall → List (ControlStatus × Word)
  | setCs f value => [(f, value)]
  | clrCs f => [(f, 0)]
  | mode cpol cpha => [(.CPOL, cpol), (.CPHA, cpha)]
  | chipSelect ce => [(.CS_LINE, ce)]
  | clearFifo => [(.CLEAR, 0b11)]
  | beginTransfer => [(.TA, 1)]
  | endTransfer => [(.TA, 0)]

end CsCall

variable (m : Register → Word)

theorem run_setCs (f : ControlStatus) (x : Word) :
    ((setCs f x).run storage m).2 = Function.update m .CS (csTable.set (m .CS) f x) :=
  run_clear_or m .CS _ _ x

theorem run_clrCs (f : ControlStatus) :
    ((clrCs f).run storage m).2 = Function.update m .CS (csTable.set (m .CS) f 0) :=
  run_clear m .CS _ _

theorem run_getCs (f : ControlStatus) :
    ((getCs f).run storage m).1 = csTable.get (m .CS) f := by
  rw [FieldTable.get, getField, ← I2c.mask_eq_lowBits]
  rfl

/-- Every call is the sequence of field writes it gives. -/
theorem run_exec (c : CsCall) :
    (c.exec.run storage m).2 = Function.update m .CS (csTable.setAll (m .CS) c.gives) := by
  cases c with
  | setCs f x => exact run_setCs m f x
  | clrCs f => exact run_clrCs m f
  | mode cpol cpha =>
    simp only [CsCall.exec, mode, Prog.run_bind, run_setCs, Function.update_idem,
      Function.update_self]
    rfl
  | chipSelect ce => exact run_setCs m .CS_LINE ce
  | clearFifo => exact run_setCs m .CLEAR 0b11
  | beginTransfer => exact run_setCs m .TA 1
  | endTransfer => exact run_clrCs m .TA

end Spi

/-- Both drivers keep the fields of their control word independent: each field holds what
it was given last, whatever calls went to the others. -/
theorem control_fields_independent :
    I2c.controlTable.Independent .C I2c.getControl I2c.ControlCall.exec I2c.ControlCall.gives ∧
      Spi.csTable.Independent .CS Spi.getCs Spi.CsCall.exec Spi.CsCall.gives := by
  constructor
  · apply FieldTable.independent_of_writes
    · exact fun f m => I2c.run_getControl m f
    · exact fun c m => I2c.run_exec m c
  · apply FieldTable.independent_of_writes
    · exact fun f m => Spi.run_getCs m f
    · exact fun c m => Spi.run_exec m c

example : ((I2c.getControl .CLEAR).run storage (FieldTable.after I2c.ControlCall.exec (fun _ => 0)
    [.setControl .C_ALL 0xFFFF, .setControl .CLEAR 0x6, .startRead])).1 = 2 := by decide

end Bcm2837
