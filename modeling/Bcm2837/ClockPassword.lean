import Bcm2837.ClockDriver
import Bcm2837.Overrides

/-!
# The clock driver against the password

The clock manager ignores a store to a clock register without the password in its top byte.
The driver nowhere puts the password there, so a call works only if its caller does, and only
one call stores a word of its caller's as it is. Compound assignments give back the top byte
that they have read, whatever the register shows there.
-/
namespace Bcm2837.Clock

open BitField (lowBits)
open Overrides (lastAsked)

/-! ## Clearing a field -/

def clr_CM_GPnDIV (reg : Register) (field : ClockDivisor) : Io Unit :=
  match field with
  | .DIVI => Mmio.modify reg (· &&& (lowBits 32 24 &&& lowBits 32 12))
  | .DIVF => Mmio.modify reg (· &&& (BitVec.allOnes 32 <<< 12))
  | .BOTH_VALUE => Mmio.modify reg (· &&& (BitVec.allOnes 32 <<< 24))

def clr_CM_GPnCTL (reg : Register) (field : CM_GPnCTL_Type) : Io Unit :=
  match field with
  | .SRC => Mmio.modify reg (· &&& ~~~(0b1111 : Word))
  | .ENAB => Mmio.modify reg (· &&& ~~~((1 : Word) <<< 4))
  | .KILL => Mmio.modify reg (· &&& ~~~((1 : Word) <<< 5))
  | .MASH => Mmio.modify reg (· &&& ~~~((0b11 : Word) <<< 8))
  | .ALL => Mmio.modify reg (· &&& ~~~((0b1111 : Word) ||| (1 : Word) <<< 4 ||| (1 : Word) <<< 5 |||
      (1 : Word) <<< 6 ||| (1 : Word) <<< 7 ||| (0b11 : Word) <<< 8))
  | .BUSY | .FLIP | .Unused => pure ()

/-- The calls that change registers. -/
inductive Call
  | set_CM_GPnDIV (reg : Register) (field : ClockDivisor) (value : Word)
  | clr_CM_GPnDIV (reg : Register) (field : ClockDivisor)
  | set_CM_GPnCTL (reg : Register) (field : CM_GPnCTL_Type) (value : Word)
  | clr_CM_GPnCTL (reg : Register) (field : CM_GPnCTL_Type)
  | writeDivisor (reg : Register) (divif : ClockDivisor) (value : Word)
  | writeControl (reg : Register) (type : CM_GPnCTL_Type) (value : Word)

def Call.perform : Call → Io Unit
  | set_CM_GPnDIV reg field value => Clock.set_CM_GPnDIV reg field value
  | clr_CM_GPnDIV reg field => Clock.clr_CM_GPnDIV reg field
  | set_CM_GPnCTL reg field value => Clock.set_CM_GPnCTL reg field value
  | clr_CM_GPnCTL reg field => Clock.clr_CM_GPnCTL reg field
  | writeDivisor reg divif value => write.divisor reg divif value
  | writeControl reg type value => write.control reg type value

/-! ## The clock manager -/

def PASSWD : Byte := 0x5A

def top (v : Word) : Byte := v.extractLsb' 24 8

/-- The registers below the top byte, which reads as `shown`. -/
def guarded (shown : Byte) : Prog.Handler (Access Register Word) Access.Ans
    (Register → BitVec 24)
  | .load r, m => (shown ++ m r, m)
  | .store r v, m => ((), if top v = PASSWD then Function.update m r (v.setWidth 24) else m)

/-- The registers after some calls. -/
def registersAfter (shown : Byte) (m : Register → BitVec 24) (calls : List Call) :
    Register → BitVec 24 :=
  calls.foldl (fun m c => (c.perform.run (guarded shown) m).2) m

/-- What a call stores with the password into a register. -/
def asked (reg : Register) : Call → Option (BitVec 24)
  | .set_CM_GPnCTL r .ALL value =>
    if r = reg ∧ top value = PASSWD then some (value.setWidth 24) else none
  | _ => none

section Ignored

/-- The fields that are or-ed in lie below the top byte. -/
theorem top_field (value : Word) {s w : ℕ} (h : s + w ≤ 24) :
    top ((lowBits 32 w &&& value) <<< s) = 0 := by
  ext i hi
  simp only [top, BitVec.getElem_extractLsb', BitVec.getLsbD_shiftLeft, BitVec.getLsbD_and,
    BitField.getLsbD_lowBits]
  simp
  omega

theorem top_low (value : Word) {w : ℕ} (h : w ≤ 24) : top (lowBits 32 w &&& value) = 0 := by
  have hfield := top_field value (s := 0) (w := w) (by omega)
  rwa [BitVec.shiftLeft_zero] at hfield

theorem top_bit (value : Word) {s : ℕ} (h : s + 1 ≤ 24) : top ((value &&& 1) <<< s) = 0 := by
  rw [BitVec.and_comm, ← BitField.lowBits_one]
  exact top_field value h

theorem top_or (v u : Word) : top (v ||| u) = top v ||| top u := BitVec.extractLsb'_or

theorem top_allValue (value : Word) : top (allValue value) = 0 := by
  have hmash : top ((value &&& lowBits 32 2) <<< 10) = 0 := by
    rw [BitVec.and_comm]
    exact top_field value (by decide)
  rw [allValue, top_or, top_or, top_or, top_low value (by decide), top_bit value (by decide),
    top_bit value (by decide), hmash]
  rfl

variable {shown : Byte} (hshown : shown ≠ PASSWD) (m : Register → BitVec 24)

theorem top_shown (x : BitVec 24) : top (shown ++ x) = shown := BitVec.extractLsb'_append_eq_left

theorem run_modify_ignored (reg : Register) {f : Word → Word}
    (h : top (f (shown ++ m reg)) ≠ PASSWD) :
    (Mmio.modify reg f).run (guarded shown) m = ((), m) := by
  show ((), if top (f (shown ++ m reg)) = PASSWD then _ else m) = ((), m)
  rw [if_neg h]

include hshown

/-- Setting bits below the top byte. -/
theorem run_set (reg : Register) {field : Word} (h : top field = 0) :
    (Mmio.modify reg (· ||| field)).run (guarded shown) m = ((), m) := by
  refine run_modify_ignored m reg ?_
  rw [top_or, top_shown, h]
  exact fun htop => hshown (BitVec.or_zero.symm.trans htop)

/-- Clearing bits, all of the top byte or none of it. -/
theorem run_clr (reg : Register) {mask : Word}
    (h : top mask = 0 ∨ top mask = BitVec.allOnes 8) :
    (Mmio.modify reg (· &&& mask)).run (guarded shown) m = ((), m) := by
  have hand : top ((shown ++ m reg) &&& mask) = shown &&& top mask := by
    rw [top, BitVec.extractLsb'_and]
    exact congrArg (· &&& top mask) (top_shown (m reg))
  refine run_modify_ignored m reg ?_
  rw [hand]
  rcases h with h | h
  · rw [h]
    exact fun htop => absurd (BitVec.and_zero.symm.trans htop) (by decide)
  · rw [h, BitVec.and_allOnes]
    exact hshown

theorem run_set_CM_GPnDIV (reg : Register) (field : ClockDivisor) (value : Word) :
    (set_CM_GPnDIV reg field value).run (guarded shown) m = ((), m) := by
  cases field with
  | DIVI => exact run_set hshown m reg (top_field value (by decide))
  | DIVF => exact run_set hshown m reg (top_low value (by decide))
  | BOTH_VALUE => exact run_set hshown m reg (top_low value (by decide))

theorem run_clr_CM_GPnDIV (reg : Register) (field : ClockDivisor) :
    (clr_CM_GPnDIV reg field).run (guarded shown) m = ((), m) := by
  cases field with
  | DIVI => exact run_clr hshown m reg (.inl (by decide))
  | DIVF => exact run_clr hshown m reg (.inr (by decide))
  | BOTH_VALUE => exact run_clr hshown m reg (.inr (by decide))

theorem run_clr_CM_GPnCTL (reg : Register) (field : CM_GPnCTL_Type) :
    (clr_CM_GPnCTL reg field).run (guarded shown) m = ((), m) := by
  cases field with
  | BUSY | FLIP | Unused => rfl
  | _ => exact run_clr hshown m reg (.inr (by decide))

theorem run_writeCTL (reg : Register) (ctl : CM_GPnCTL_Type) (value : Word) :
    (writeCTL reg ctl value).run (guarded shown) m = ((), m) := by
  cases ctl with
  | BUSY | FLIP | Unused => rfl
  | SRC => exact run_set hshown m reg (top_low value (by decide))
  | ENAB => exact run_set hshown m reg (top_bit value (by decide))
  | KILL => exact run_set hshown m reg (top_bit value (by decide))
  | MASH =>
    refine run_set hshown m reg ?_
    rw [BitVec.and_comm]
    exact top_field value (by decide)
  | ALL =>
    show ((), if top (allValue value) = PASSWD then _ else m) = ((), m)
    rw [top_allValue, if_neg (by decide)]

theorem run_set_CM_GPnCTL (reg : Register) (field : CM_GPnCTL_Type) (value : Word)
    (hfield : field ≠ .ALL) : (set_CM_GPnCTL reg field value).run (guarded shown) m = ((), m) := by
  cases field with
  | BUSY | FLIP | Unused => rfl
  | SRC => exact run_set hshown m reg (top_low value (by decide))
  | ENAB => exact run_set hshown m reg (top_bit value (by decide))
  | KILL => exact run_set hshown m reg (top_bit value (by decide))
  | MASH =>
    refine run_set hshown m reg ?_
    rw [BitVec.and_comm, ← BitField.lowBits_two]
    exact top_field value (by decide)
  | ALL => exact absurd rfl hfield

/-- A call changes what its caller asks for with the password, and nothing else. -/
theorem run_perform (c : Call) (reg : Register) :
    (c.perform.run (guarded shown) m).2 reg = (asked reg c).getD (m reg) := by
  cases c with
  | set_CM_GPnDIV r field value => exact congrFun (congrArg Prod.snd
      (run_set_CM_GPnDIV hshown m r field value)) reg
  | clr_CM_GPnDIV r field => exact congrFun (congrArg Prod.snd
      (run_clr_CM_GPnDIV hshown m r field)) reg
  | clr_CM_GPnCTL r field => exact congrFun (congrArg Prod.snd
      (run_clr_CM_GPnCTL hshown m r field)) reg
  | writeDivisor r divif value =>
    cases r with
    | CM_GP0DIV | CM_GP1DIV | CM_GP2DIV => exact congrFun (congrArg Prod.snd
        (run_set_CM_GPnDIV hshown m _ divif value)) reg
    | CM_GP0CTL | CM_GP1CTL | CM_GP2CTL => rfl
  | writeControl r type value =>
    cases r with
    | CM_GP0CTL | CM_GP1CTL | CM_GP2CTL => exact congrFun (congrArg Prod.snd
        (run_writeCTL hshown m _ type value)) reg
    | CM_GP0DIV | CM_GP1DIV | CM_GP2DIV => rfl
  | set_CM_GPnCTL r field value =>
    by_cases hfield : field = .ALL
    · subst hfield
      show (if top value = PASSWD then Function.update m r (value.setWidth 24) else m) reg =
        (if r = reg ∧ top value = PASSWD then some (value.setWidth 24) else none).getD (m reg)
      by_cases htop : top value = PASSWD
      · by_cases hreg : r = reg
        · subst hreg
          rw [if_pos htop, if_pos ⟨rfl, htop⟩, Function.update_self]
          rfl
        · rw [if_pos htop, if_neg fun h => hreg h.1, Function.update_of_ne (Ne.symm hreg)]
          rfl
      · rw [if_neg htop, if_neg fun h => htop h.2]
        rfl
    · have hnone : asked reg (.set_CM_GPnCTL r field value) = none := by
        cases field <;> first
          | exact absurd rfl hfield
          | rfl
      rw [hnone]
      exact congrFun (congrArg Prod.snd (run_set_CM_GPnCTL hshown m r field value hfield)) reg

end Ignored

/-- Over any calls, a clock register holds the last word given to `set_CM_GPnCTL` for all of it
with the password in its top byte, and without one what it held before. -/
theorem registers_hold_asked {shown : Byte} (hshown : shown ≠ PASSWD) (m : Register → BitVec 24)
    (calls : List Call) (reg : Register) :
    registersAfter shown m calls reg = lastAsked (asked reg) (m reg) calls := by
  induction calls using List.reverseRecOn with
  | nil => rfl
  | append_singleton calls c ih =>
    rw [registersAfter, List.foldl_append, List.foldl_cons, List.foldl_nil, ← registersAfter,
      run_perform hshown, ih, Overrides.lastAsked_concat]

/-- Of four calls that set up a clock only the last has an effect, on its control register. -/
theorem registers_hold_asked_gp0 :
    registersAfter 0 (fun _ => 0) [.set_CM_GPnDIV .CM_GP0DIV .DIVI 0x64,
        .writeControl .CM_GP0CTL .SRC 6, .writeControl .CM_GP0CTL .ALL 0x5A000016,
        .set_CM_GPnCTL .CM_GP0CTL .ALL 0x5A000016]
        .CM_GP0CTL = 0x16 ∧
      registersAfter 0 (fun _ => 0) [.set_CM_GPnDIV .CM_GP0DIV .DIVI 0x64] .CM_GP0DIV = 0 := by
  have hshown : (0 : Byte) ≠ PASSWD := by decide
  exact ⟨(registers_hold_asked hshown (fun _ => 0) _ .CM_GP0CTL).trans (by decide),
    (registers_hold_asked hshown (fun _ => 0) _ .CM_GP0DIV).trans (by decide)⟩

end Bcm2837.Clock
