import Bcm2837.GpioDriver
import Bcm2837.Overrides

/-!
# The GPIO block as a state of its pins

As plain words the register file stands for a mode and eleven flags of each pin and one
pull control. Every driver operation changes one register at most, and in it only what
it names.
-/
namespace Bcm2837.Gpio

open Overrides (lastAsked)

/-- The functions with one bit a pin. -/
inductive Flag
  | GPSETn | GPCLRn | GPLEVn | GPEDSn | GPRENn | GPFENn | GPHENn | GPLENn | GPARENn | GPAFENn
  | GPPUDCLKn
  deriving DecidableEq

namespace Flag

instance : Fintype Flag where
  elems := {GPSETn, GPCLRn, GPLEVn, GPEDSn, GPRENn, GPFENn, GPHENn, GPLENn, GPARENn, GPAFENn,
    GPPUDCLKn}
  complete f := by cases f <;> decide

def low : Flag → Register
  | GPSETn => GPSET0
  | GPCLRn => GPCLR0
  | GPLEVn => GPLEV0
  | GPEDSn => GPEDS0
  | GPRENn => GPREN0
  | GPFENn => GPFEN0
  | GPHENn => GPHEN0
  | GPLENn => GPLEN0
  | GPARENn => GPAREN0
  | GPAFENn => GPAFEN0
  | GPPUDCLKn => GPPUDCLK0

def high : Flag → Register
  | GPSETn => GPSET1
  | GPCLRn => GPCLR1
  | GPLEVn => GPLEV1
  | GPEDSn => GPEDS1
  | GPRENn => GPREN1
  | GPFENn => GPFEN1
  | GPHENn => GPHEN1
  | GPLENn => GPLEN1
  | GPARENn => GPAREN1
  | GPAFENn => GPAFEN1
  | GPPUDCLKn => GPPUDCLK1

def set : Flag → ℕ → Io Unit
  | GPSETn => Gpio.GPSETn
  | GPCLRn => Gpio.GPCLRn
  | GPLEVn => Gpio.GPLEVn.set
  | GPEDSn => Gpio.GPEDSn.set
  | GPRENn => Gpio.GPRENn.set
  | GPFENn => Gpio.GPFENn.set
  | GPHENn => Gpio.GPHENn.set
  | GPLENn => Gpio.GPLENn.set
  | GPARENn => Gpio.GPARENn.set
  | GPAFENn => Gpio.GPAFENn.set
  | GPPUDCLKn => Gpio.GPPUDCLKn.set

/-- The clear registers have no getter. -/
def get : Flag → Option (ℕ → Io Word)
  | GPSETn => some Gpio.GPGETn
  | GPCLRn => none
  | GPLEVn => some Gpio.GPLEVn.get
  | GPEDSn => some Gpio.GPEDSn.get
  | GPRENn => some Gpio.GPRENn.get
  | GPFENn => some Gpio.GPFENn.get
  | GPHENn => some Gpio.GPHENn.get
  | GPLENn => some Gpio.GPLENn.get
  | GPARENn => some Gpio.GPARENn.get
  | GPAFENn => some Gpio.GPAFENn.get
  | GPPUDCLKn => some Gpio.GPPUDCLKn.get

/-- The register that holds the flag of a pin. -/
def register (f : Flag) (gpio : ℕ) : Register := bank f.low f.high gpio

/-- Whether the flag of a pin is set. -/
def isSet (f : Flag) (m : Register → Word) (gpio : ℕ) : Bool := pinBit f.low f.high m gpio

theorem isSet_eq (f : Flag) (m : Register → Word) (gpio : ℕ) :
    f.isSet m gpio = (m (f.register gpio)).getLsbD (gpio % 32) := rfl

theorem set_eq (f : Flag) : f.set = setBit f.low f.high := by cases f <;> rfl

theorem get_eq {f : Flag} {get : ℕ → Io Word} (h : f.get = some get) :
    get = getBit f.low f.high := by
  cases f <;> cases h <;> rfl

/-- No two flags share a bit. -/
theorem register_eq_iff {f f' : Flag} {p gpio : ℕ} :
    f.register p = f'.register gpio ↔ f = f' ∧ SameBank p gpio := by
  have hfin : ∀ (f f' : Flag) (b b' : Bool),
      (if b then f.low else f.high) = (if b' then f'.low else f'.high) ↔ f = f' ∧ b = b' := by
    decide
  have h := hfin f f' (decide (p < 32)) (decide (gpio < 32))
  simp only [decide_eq_true_eq, decide_eq_decide] at h
  exact h

end Flag

/-- What a register of the block is for. -/
inductive Purpose
  | select
  | flag (f : Flag)
  | pull
  deriving DecidableEq

def Purpose.Holds : Purpose → Register → Prop
  | select, r => r < 6
  | flag f, r => r = f.low ∨ r = f.high
  | pull, r => r = GPPUD

theorem holds_register (f : Flag) (gpio : ℕ) : (Purpose.flag f).Holds (f.register gpio) := by
  unfold Flag.register bank
  split_ifs
  · exact .inl rfl
  · exact .inr rfl

theorem holds_select {gpio : ℕ} (hg : gpio ≤ 53) : Purpose.select.Holds (gpio / 10) :=
  show gpio / 10 < 6 by omega

/-- No register serves two purposes. -/
theorem Purpose.Holds.unique {P Q : Purpose} {r : Register} (hP : P.Holds r) (hQ : Q.Holds r) :
    P = Q := by
  have hflag : ∀ f f' : Flag, (f.low = f'.low → f = f') ∧ (f.low = f'.high → f = f') ∧
      (f.high = f'.low → f = f') ∧ (f.high = f'.high → f = f') := by
    decide
  have hselect : ∀ f : Flag, ¬ f.low < 6 ∧ ¬ f.high < 6 := by decide
  have hpull : ∀ f : Flag, f.low ≠ GPPUD ∧ f.high ≠ GPPUD := by decide
  have hsix : ¬ GPPUD < 6 := by decide
  cases P with
  | select =>
    cases Q with
    | select => rfl
    | flag f =>
      rcases hQ with rfl | rfl
      · exact absurd hP (hselect f).1
      · exact absurd hP (hselect f).2
    | pull =>
      cases hQ
      exact absurd hP hsix
  | flag f =>
    rcases hP with rfl | rfl
    · cases Q with
      | select => exact absurd hQ (hselect f).1
      | flag f' =>
        rcases hQ with hQ | hQ
        · rw [(hflag f f').1 hQ]
        · rw [(hflag f f').2.1 hQ]
      | pull => exact absurd hQ (hpull f).1
    · cases Q with
      | select => exact absurd hQ (hselect f).2
      | flag f' =>
        rcases hQ with hQ | hQ
        · rw [(hflag f f').2.2.1 hQ]
        · rw [(hflag f f').2.2.2 hQ]
      | pull => exact absurd hQ (hpull f).2
  | pull =>
    cases hP
    cases Q with
    | select => exact absurd hQ hsix
    | flag f =>
      rcases hQ with hQ | hQ
      · exact absurd hQ.symm (hpull f).1
      · exact absurd hQ.symm (hpull f).2
    | pull => rfl

inductive Op
  | write (gpio : ℕ) (cfg : Config)
  | write32 (gpio : ℕ) (value : Word)
  | output (gpio : ℕ)
  | input (gpio : ℕ)
  | set (f : Flag) (gpio : ℕ)
  | GPPUD (gpio : ℕ) (cfg : PullUpDownConfig)
  deriving DecidableEq

namespace Op

def exec : Op → Io Unit
  | write gpio cfg => Gpio.write gpio cfg
  | write32 gpio value => Gpio.write32 gpio value
  | output gpio => Gpio.output gpio
  | input gpio => Gpio.input gpio
  | set f gpio => f.set gpio
  | GPPUD gpio cfg => Gpio.GPPUD.set gpio cfg

/-- The block an operation leaves. -/
def result (m : Register → Word) : Op → Register → Word
  | write gpio cfg =>
    if gpio ≤ 53 then Function.update m (gpio / 10)
      (BitField.setField (m (gpio / 10)) (gpio % 10 * 3) 3 cfg.code)
    else m
  | write32 gpio value => if gpio ≤ 53 then Function.update m (gpio / 10) value else m
  | output gpio =>
    if gpio ≤ 53 then Function.update m (gpio / 10)
      (BitField.setField (m (gpio / 10)) (gpio % 10 * 3) 3 1)
    else m
  | input gpio =>
    if gpio ≤ 53 then Function.update m (gpio / 10)
      (BitField.setField (m (gpio / 10)) (gpio % 10 * 3) 3 0)
    else m
  | set f gpio =>
    if gpio ≤ 53 then Function.update m (f.register gpio)
      (m (f.register gpio) ||| (1 : Word) <<< (gpio % 32))
    else m
  | GPPUD _ cfg => Function.update m Gpio.GPPUD (BitField.setField (m Gpio.GPPUD) 0 2 cfg.code)

end Op

/-- The block after an operation. -/
def applied (m : Register → Word) (op : Op) : Register → Word := (op.exec.run Access.storage m).2

theorem config_and_seven (cfg : Config) : cfg.code &&& 7 = cfg.code := by cases cfg <;> decide

/-- Clearing a function field and or-ing a code in is writing the field. -/
theorem setField_three (v x : Word) (s : ℕ) (hx : x &&& 7 = x) :
    v &&& ~~~((7 : Word) <<< s) ||| (x <<< s) = BitField.setField v s 3 x := by
  rw [BitField.setField, BitField.clrField, BitField.lowBits_three, hx]

/-- Every operation reads, changes and writes back its one register. -/
theorem applied_eq (m : Register → Word) (op : Op) : applied m op = op.result m := by
  have hmodify : ∀ (r : Register) (f : Word → Word),
      ((Mmio.modify r f).run Access.storage m).2 = Function.update m r (f (m r)) := fun _ _ => rfl
  have htwice : ∀ (r : Register) (f g : Word → Word),
      ((do Mmio.modify r f; Mmio.modify r g : Io Unit).run Access.storage m).2 =
        Function.update m r (g (f (m r))) := by
    intro r f g
    simp [Mmio.modify, Function.update_idem]
  unfold applied
  cases op with
  | write gpio cfg =>
    simp only [Op.exec, Op.result, write, valid_iff]
    by_cases hg : gpio ≤ 53
    · rw [if_pos hg, if_pos hg, htwice]
      exact congrArg _ (setField_three _ _ _ (config_and_seven cfg))
    · rw [if_neg hg, if_neg hg]
      rfl
  | write32 gpio value =>
    simp only [Op.exec, Op.result, write32, valid_iff]
    by_cases hg : gpio ≤ 53
    · rw [if_pos hg, if_pos hg]
      rfl
    · rw [if_neg hg, if_neg hg]
      rfl
  | output gpio =>
    simp only [Op.exec, Op.result, output, valid_iff]
    by_cases hg : gpio ≤ 53
    · rw [if_pos hg, if_pos hg, htwice]
      exact congrArg _ (setField_three _ _ _ (by decide))
    · rw [if_neg hg, if_neg hg]
      rfl
  | input gpio =>
    simp only [Op.exec, Op.result, input, valid_iff]
    by_cases hg : gpio ≤ 53
    · rw [if_pos hg, if_pos hg, hmodify]
      have hzero : m (gpio / 10) &&& ~~~((7 : Word) <<< (gpio % 10 * 3)) =
          BitField.setField (m (gpio / 10)) (gpio % 10 * 3) 3 0 := by
        rw [← setField_three _ 0 _ (by decide)]
        simp
      exact congrArg _ hzero
    · rw [if_neg hg, if_neg hg]
      rfl
  | set f gpio =>
    simp only [Op.exec, Op.result, f.set_eq, setBit_eq]
    by_cases hg : gpio ≤ 53
    · rw [if_pos hg, if_pos hg]
      rfl
    · rw [if_neg hg, if_neg hg]
      rfl
  | GPPUD gpio cfg =>
    simp only [Op.exec, Op.result, GPPUD.set, htwice, control_eq]

/-! ## What an operation names -/

namespace Op

/-- The mode an operation gives to pin `n`. -/
def mode (n : ℕ) : Op → Option Word
  | write gpio cfg => if gpio = n then some cfg.code else none
  | write32 gpio value =>
    if gpio ≤ 53 ∧ gpio / 10 = n / 10 then some (BitField.getField value (n % 10 * 3) 3) else none
  | output gpio => if gpio = n then some 0b001 else none
  | input gpio => if gpio = n then some 0b000 else none
  | set _ _ => none
  | GPPUD _ _ => none

/-- The pull control an operation asks for. -/
def control : Op → Option Word
  | GPPUD _ cfg => some cfg.code
  | _ => none

/-- The purpose of the registers an operation is about. -/
def purpose : Op → Purpose
  | write _ _ | write32 _ _ | output _ | input _ => .select
  | set f _ => .flag f
  | GPPUD _ _ => .pull

/-- The pin number of a per-pin operation. -/
def pin : Op → Option ℕ
  | write gpio _ | write32 gpio _ | output gpio | input gpio | set _ gpio => some gpio
  | GPPUD _ _ => none

end Op

/-- The mode of a pin. -/
def mode (m : Register → Word) (n : ℕ) : Word := BitField.getField (m (n / 10)) (n % 10 * 3) 3

section Applied

variable (m : Register → Word) (op : Op)

/-- A field write gives its own pin the code and leaves the other pins' modes alone. -/
theorem mode_setField {n gpio : ℕ} (x : Word) (hx : x &&& 7 = x) :
    mode (Function.update m (gpio / 10)
      (BitField.setField (m (gpio / 10)) (gpio % 10 * 3) 3 x)) n =
        if gpio = n then x else mode m n := by
  unfold mode
  by_cases hword : n / 10 = gpio / 10
  · rw [hword, Function.update_self]
    by_cases hpin : gpio = n
    · rw [if_pos hpin, hpin, BitField.getField_setField_same _ _ _ _ (by omega),
        BitField.lowBits_three, hx]
    · rw [if_neg hpin, BitField.getField_setField_of_disjoint _ _ _ _ _ _ (by omega)]
  · have hpin : gpio ≠ n := fun h => hword (by rw [h])
    rw [if_neg hpin, Function.update_of_ne hword]

/-- An operation changes no register of another purpose. -/
theorem applied_frame {r : Register} (h : ¬ op.purpose.Holds r) : applied m op r = m r := by
  have hselect {gpio : ℕ} (hg : gpio ≤ 53) (h : ¬ Purpose.select.Holds r) : r ≠ gpio / 10 :=
    fun hr => h (hr ▸ holds_select hg)
  rw [applied_eq]
  cases op with
  | write gpio cfg =>
    rw [Op.result]
    split_ifs with hg
    · exact Function.update_of_ne (hselect hg h) _ _
    · rfl
  | write32 gpio value =>
    rw [Op.result]
    split_ifs with hg
    · exact Function.update_of_ne (hselect hg h) _ _
    · rfl
  | output gpio =>
    rw [Op.result]
    split_ifs with hg
    · exact Function.update_of_ne (hselect hg h) _ _
    · rfl
  | input gpio =>
    rw [Op.result]
    split_ifs with hg
    · exact Function.update_of_ne (hselect hg h) _ _
    · rfl
  | set f gpio =>
    rw [Op.result]
    split_ifs with hg
    · refine Function.update_of_ne ?_ _ _
      rintro rfl
      exact h (holds_register f gpio)
    · rfl
  | GPPUD gpio cfg => exact Function.update_of_ne h _ _

theorem applied_of_purpose {P : Purpose} {r : Register} (hr : P.Holds r) (h : op.purpose ≠ P) :
    applied m op r = m r :=
  applied_frame m op fun hop => h (hop.unique hr)

theorem mode_applied {n : ℕ} (hn : n ≤ 53) :
    mode (applied m op) n = (op.mode n).getD (mode m n) := by
  have hother {gpio : ℕ} (hg : ¬ gpio ≤ 53) : gpio ≠ n := by omega
  rw [applied_eq]
  cases op with
  | write gpio cfg =>
    rw [Op.result, Op.mode]
    by_cases hg : gpio ≤ 53
    · rw [if_pos hg, mode_setField m _ (config_and_seven cfg)]
      split_ifs <;> rfl
    · rw [if_neg hg, if_neg (hother hg)]
      rfl
  | write32 gpio value =>
    rw [Op.result, Op.mode]
    by_cases hg : gpio ≤ 53
    · by_cases hword : gpio / 10 = n / 10
      · rw [if_pos hg, if_pos ⟨hg, hword⟩, mode, hword, Function.update_self]
        rfl
      · rw [if_pos hg, if_neg fun h => hword h.2, mode, Function.update_of_ne (Ne.symm hword)]
        rfl
    · rw [if_neg hg, if_neg fun h => hg h.1]
      rfl
  | output gpio =>
    rw [Op.result, Op.mode]
    by_cases hg : gpio ≤ 53
    · rw [if_pos hg, mode_setField m _ (by decide)]
      split_ifs <;> rfl
    · rw [if_neg hg, if_neg (hother hg)]
      rfl
  | input gpio =>
    rw [Op.result, Op.mode]
    by_cases hg : gpio ≤ 53
    · rw [if_pos hg, mode_setField m _ (by decide)]
      split_ifs <;> rfl
    · rw [if_neg hg, if_neg (hother hg)]
      rfl
  | set f gpio =>
    rw [mode, ← applied_eq, applied_of_purpose m _ (holds_select hn) (by simp [Op.purpose])]
    rfl
  | GPPUD gpio cfg =>
    rw [mode, ← applied_eq, applied_of_purpose m _ (holds_select hn) (by simp [Op.purpose])]
    rfl

/-- A setter sets the flag of its own pin; nothing clears a flag. -/
theorem isSet_applied (f : Flag) {n : ℕ} (hn : n ≤ 53) :
    f.isSet (applied m op) n = (f.isSet m n || decide (op = .set f n)) := by
  by_cases hpurpose : op.purpose = .flag f
  · cases op with
    | set f' gpio =>
      cases hpurpose
      rw [applied_eq, Op.result]
      by_cases hg : gpio ≤ 53
      · rw [if_pos hg]
        by_cases hbank : SameBank n gpio
        · have hreg : f.register gpio = f.register n := Flag.register_eq_iff.mpr ⟨rfl, hbank.symm⟩
          have hown := getLsbD_ownBit hn hg hbank
          rw [f.isSet_eq, f.isSet_eq, hreg, Function.update_self, BitVec.getLsbD_or, hown]
          simp [eq_comm (a := n)]
        · have hne : gpio ≠ n := fun h => hbank (h ▸ Iff.rfl)
          have hreg : f.register n ≠ f.register gpio := fun h =>
            hbank (Flag.register_eq_iff.mp h).2
          rw [f.isSet_eq, f.isSet_eq, Function.update_of_ne hreg]
          simp [hne]
      · have hne : gpio ≠ n := by omega
        simp [hg, hne]
    | write gpio cfg | write32 gpio value | output gpio | input gpio | GPPUD gpio cfg =>
      cases hpurpose
  · have hne : op ≠ .set f n := by
      rintro rfl
      exact hpurpose rfl
    rw [decide_eq_false hne, Bool.or_false, f.isSet_eq, f.isSet_eq,
      applied_of_purpose m op (holds_register f n) hpurpose]

theorem control_applied :
    applied m op GPPUD &&& 3 = op.control.getD (m GPPUD &&& 3) := by
  by_cases hpurpose : op.purpose = .pull
  · cases op with
    | GPPUD gpio cfg =>
      rw [applied_eq, Op.result, Function.update_self, control_and, code_and_three]
      rfl
    | write gpio cfg | write32 gpio value | output gpio | input gpio | set f gpio =>
      cases hpurpose
  · rw [applied_of_purpose m op (P := .pull) rfl hpurpose]
    cases op with
    | GPPUD gpio cfg => exact absurd rfl hpurpose
    | write gpio cfg | write32 gpio value | output gpio | input gpio | set f gpio => rfl

end Applied

/-! ## Runs and the pins' state -/

/-- What the block is for: a mode and the flags of each pin, and one pull control. -/
@[ext] structure Pins where
  mode : Fin 54 → Word
  flag : Flag → Fin 54 → Bool
  control : Word

/-- An operation gives what it names and leaves the rest. -/
def Pins.step (s : Pins) (op : Op) : Pins where
  mode n := (op.mode n).getD (s.mode n)
  flag f n := s.flag f n || decide (op = .set f n)
  control := op.control.getD s.control

/-- The pins' state that a block stands for. -/
def pins (m : Register → Word) : Pins where
  mode n := mode m n
  flag f n := f.isSet m n
  control := m GPPUD &&& 3

/-- The block after a sequence of operations. -/
def written (m : Register → Word) (ops : List Op) : Register → Word := ops.foldl applied m

theorem written_concat (m : Register → Word) (ops : List Op) (op : Op) :
    written m (ops ++ [op]) = applied (written m ops) op := by
  simp [written, List.foldl_append]

theorem pins_applied (m : Register → Word) (op : Op) : pins (applied m op) = (pins m).step op := by
  ext1
  · funext n
    exact mode_applied m op (Nat.le_of_lt_succ n.isLt)
  · funext f n
    exact isSet_applied m op f (Nat.le_of_lt_succ n.isLt)
  · exact control_applied m op

/-- The register file refines the pins' state over every run. -/
theorem pins_written (m : Register → Word) (ops : List Op) :
    pins (written m ops) = ops.foldl Pins.step (pins m) := by
  induction ops using List.reverseRecOn with
  | nil => rfl
  | append_singleton ops op ih =>
    rw [written_concat, pins_applied, ih, List.foldl_append]
    rfl

section Spec

variable (s : Pins) (ops : List Op)

theorem mode_foldl (n : Fin 54) :
    (ops.foldl Pins.step s).mode n = lastAsked (Op.mode n) (s.mode n) ops := by
  induction ops using List.reverseRecOn with
  | nil => rfl
  | append_singleton ops op ih =>
    rw [List.foldl_append, Overrides.lastAsked_concat, ← ih]
    rfl

theorem flag_foldl (f : Flag) (n : Fin 54) :
    (ops.foldl Pins.step s).flag f n = (s.flag f n || decide (.set f n.val ∈ ops)) := by
  induction ops using List.reverseRecOn with
  | nil => simp
  | append_singleton ops op ih =>
    have hstep : ((ops ++ [op]).foldl Pins.step s).flag f n =
        ((ops.foldl Pins.step s).flag f n || decide (op = .set f n)) := by
      rw [List.foldl_append]
      rfl
    rw [hstep, ih, Bool.or_assoc]
    simp [eq_comm (b := op)]

theorem control_foldl :
    (ops.foldl Pins.step s).control = lastAsked Op.control s.control ops := by
  induction ops using List.reverseRecOn with
  | nil => rfl
  | append_singleton ops op ih =>
    rw [List.foldl_append, Overrides.lastAsked_concat, ← ih]
    rfl

end Spec

/-! ## What the getters answer -/

/-- What a program answers over plain words. -/
def answer {α : Type} (p : Io α) (m : Register → Word) : α := (p.run Access.storage m).1

theorem answer_read (m : Register → Word) (n : Fin 54) : answer (read n) m = (pins m).mode n := by
  have hn : (n : ℕ) ≤ 53 := Nat.le_of_lt_succ n.isLt
  have hmode : (pins m).mode n = mode m n := rfl
  rw [hmode, mode, BitField.getField, BitField.lowBits_three, answer, read,
    if_pos ((valid_iff n).mpr hn)]
  rfl

theorem answer_get {f : Flag} {get : ℕ → Io Word} (h : f.get = some get) (m : Register → Word)
    (n : Fin 54) : answer (get n) m = if (pins m).flag f n then 1 else 0 := by
  have hn : (n : ℕ) ≤ 53 := Nat.le_of_lt_succ n.isLt
  rw [answer, Flag.get_eq h, getBit_eq, if_pos hn]
  exact BitField.shiftRight_and_one _ _

/-! ## Registers and shifts -/

/-- Accesses inside the block. -/
def InBlock : Access Register Word → Prop
  | .load r => r < MAX
  | .store r _ => r < MAX

/-- An operation on a valid pin, with its shift amount left open. -/
def Op.body (shift : ℕ) : Op → Io Unit
  | write gpio cfg => do
    Mmio.modify (gpio / 10) (· &&& ~~~((7 : Word) <<< shift))
    Mmio.modify (gpio / 10) (· ||| (cfg.code <<< shift))
  | write32 gpio value => Mmio.store (gpio / 10) value
  | output gpio => do
    Mmio.modify (gpio / 10) (· &&& ~~~((7 : Word) <<< shift))
    Mmio.modify (gpio / 10) (· ||| ((1 : Word) <<< shift))
  | input gpio => Mmio.modify (gpio / 10) (· &&& ~~~((7 : Word) <<< shift))
  | set f gpio => Mmio.modify (f.register gpio) (· ||| ((1 : Word) <<< shift))
  | GPPUD gpio cfg => Gpio.GPPUD.set gpio cfg

/-- Reading a field of a register, with its shift amount left open. -/
def fieldAt (r : Register) (mask : Word) (shift : ℕ) : Io Word := do
  let v ← Mmio.load r
  return (v >>> shift) &&& mask

/-- An operation does nothing, or shifts by less than a word's width. -/
theorem exec_eq_body (op : Op) : op.exec = pure () ∨ ∃ shift < 32, op.exec = op.body shift := by
  have hfield (gpio : ℕ) : gpio % 10 * 3 < 32 := by omega
  cases op with
  | write gpio cfg =>
    simp only [Op.exec, write]
    split_ifs
    · exact .inr ⟨gpio % 10 * 3, hfield gpio, rfl⟩
    · exact .inl rfl
  | write32 gpio value =>
    simp only [Op.exec, write32]
    split_ifs
    · exact .inr ⟨0, by decide, rfl⟩
    · exact .inl rfl
  | output gpio =>
    simp only [Op.exec, output]
    split_ifs
    · exact .inr ⟨gpio % 10 * 3, hfield gpio, rfl⟩
    · exact .inl rfl
  | input gpio =>
    simp only [Op.exec, input]
    split_ifs
    · exact .inr ⟨gpio % 10 * 3, hfield gpio, rfl⟩
    · exact .inl rfl
  | set f gpio =>
    simp only [Op.exec, f.set_eq, setBit_eq]
    split_ifs
    · exact .inr ⟨gpio % 32, Nat.mod_lt _ (by decide), rfl⟩
    · exact .inl rfl
  | GPPUD gpio cfg => exact .inr ⟨0, by decide, rfl⟩

theorem inBlock_register (f : Flag) (gpio : ℕ) : f.register gpio < MAX := by
  have hfin : ∀ f : Flag, f.low < MAX ∧ f.high < MAX := by decide
  unfold Flag.register bank
  split_ifs
  · exact (hfin f).1
  · exact (hfin f).2

theorem inBlock_pull : GPPUD < MAX := by decide

theorem inBlock_modify {r : Register} (hr : r < MAX) (f : Word → Word) :
    (Mmio.modify r f).Only InBlock :=
  ⟨hr, fun _ => ⟨hr, fun _ => trivial⟩⟩

theorem inBlock_fieldAt {r : Register} (hr : r < MAX) (mask : Word) (shift : ℕ) :
    (fieldAt r mask shift).Only InBlock :=
  ⟨hr, fun _ => trivial⟩

theorem inBlock_exec (op : Op) : op.exec.Only InBlock := by
  have hselect {gpio : ℕ} (hg : valid gpio = true) : gpio / 10 < MAX := by
    have h := (valid_iff gpio).mp hg
    unfold MAX
    omega
  cases op with
  | write gpio cfg =>
    simp only [Op.exec, write]
    split_ifs with hg
    · exact (inBlock_modify (hselect hg) _).bind fun _ => inBlock_modify (hselect hg) _
    · trivial
  | write32 gpio value =>
    simp only [Op.exec, write32]
    split_ifs with hg
    · exact ⟨hselect hg, fun _ => trivial⟩
    · trivial
  | output gpio =>
    simp only [Op.exec, output]
    split_ifs with hg
    · exact (inBlock_modify (hselect hg) _).bind fun _ => inBlock_modify (hselect hg) _
    · trivial
  | input gpio =>
    simp only [Op.exec, input]
    split_ifs with hg
    · exact inBlock_modify (hselect hg) _
    · trivial
  | set f gpio =>
    simp only [Op.exec, f.set_eq, setBit_eq]
    split_ifs
    · exact inBlock_modify (inBlock_register f gpio) _
    · trivial
  | GPPUD gpio cfg =>
    exact (inBlock_modify inBlock_pull _).bind fun _ => inBlock_modify inBlock_pull _

theorem read_eq (n : ℕ) :
    read n = pure 0 ∨ ∃ shift < 32, read n = fieldAt (n / 10) 0b111 shift := by
  unfold read
  split_ifs
  · exact .inr ⟨n % 10 * 3, by omega, rfl⟩
  · exact .inl rfl

theorem get_eq_fieldAt {f : Flag} {get : ℕ → Io Word} (h : f.get = some get) (n : ℕ) :
    get n = pure 0 ∨ ∃ shift < 32, get n = fieldAt (f.register n) 1 shift := by
  rw [Flag.get_eq h, getBit_eq]
  split_ifs
  · exact .inr ⟨n % 32, Nat.mod_lt _ (by decide), rfl⟩
  · exact .inl rfl

theorem inBlock_read (n : ℕ) : (read n).Only InBlock ∧ (read32 n).Only InBlock := by
  unfold read read32
  split_ifs with hn
  · have hlt : n / 10 < MAX := by
      have h := (valid_iff n).mp hn
      unfold MAX
      omega
    exact ⟨inBlock_fieldAt hlt _ _, hlt, fun _ => trivial⟩
  · exact ⟨trivial, trivial⟩

theorem inBlock_get {f : Flag} {get : ℕ → Io Word} (h : f.get = some get) (n : ℕ) :
    (get n).Only InBlock := by
  rcases get_eq_fieldAt h n with h | ⟨shift, -, h⟩
  · rw [h]
    trivial
  · rw [h]
    exact inBlock_fieldAt (inBlock_register f n) _ _

/-! ## The refinement -/

/-- Over any run the register file behaves as the state of its pins, and the driver stays
inside the block and inside the word. -/
structure RefinesPins (m : Register → Word) (ops : List Op) : Prop where
  simulates : pins (written m ops) = ops.foldl Pins.step (pins m)
  mode : ∀ n ≤ 53, answer (read n) (written m ops) =
    lastAsked (Op.mode n) (answer (read n) m) ops
  flag : ∀ (f : Flag) get, f.get = some get → ∀ n ≤ 53, answer (get n) (written m ops) =
    if f.isSet m n ∨ .set f n ∈ ops then 1 else 0
  control : ∀ n, answer (GPPUD.get n) (written m ops) =
    lastAsked Op.control (answer (GPPUD.get n) m) ops
  otherPurposes : ∀ before op after, ops = before ++ op :: after → ∀ P, P ≠ op.purpose →
    ∀ r, P.Holds r → written m (before ++ [op]) r = written m before r
  otherPins : ∀ before op after, ops = before ++ op :: after → ∀ f, ∀ p ≤ 53, op ≠ .set f p →
    f.isSet (written m (before ++ [op])) p = f.isSet (written m before) p
  outOfRange : ∀ before op after, ops = before ++ op :: after → ∀ gpio, op.pin = some gpio →
    53 < gpio → written m (before ++ [op]) = written m before
  outOfRange_answers : ∀ n, 53 < n → answer (read n) (written m ops) = 0 ∧
    answer (read32 n) (written m ops) = 0 ∧
    ∀ (f : Flag) get, f.get = some get → answer (get n) (written m ops) = 0
  registers : (∀ op ∈ ops, op.exec.Only InBlock) ∧ ∀ n, (read n).Only InBlock ∧
    (read32 n).Only InBlock ∧ (GPPUD.get n).Only InBlock ∧
    ∀ (f : Flag) get, f.get = some get → (get n).Only InBlock
  shifts : (∀ op ∈ ops, op.exec = pure () ∨ ∃ shift < 32, op.exec = op.body shift) ∧ ∀ n,
    (read n = pure 0 ∨ ∃ shift < 32, read n = fieldAt (n / 10) 0b111 shift) ∧
    ∀ (f : Flag) get, f.get = some get → get n = pure 0 ∨ ∃ shift < 32,
      get n = fieldAt (f.register n) 1 shift

theorem applied_of_gt (m : Register → Word) {op : Op} {gpio : ℕ} (h : op.pin = some gpio)
    (hg : 53 < gpio) : applied m op = m := by
  have hno : ¬ gpio ≤ 53 := by omega
  rw [applied_eq]
  cases op with
  | GPPUD _ cfg => cases h
  | write _ cfg | write32 _ value | output _ | input _ | set f _ =>
    cases h
    exact if_neg hno

/-- The GPIO register file refines the state of its pins. -/
theorem refinesPins (m : Register → Word) (ops : List Op) : RefinesPins m ops where
  simulates := pins_written m ops
  mode n hn := by
    have hread (m : Register → Word) := answer_read m ⟨n, Nat.lt_succ_of_le hn⟩
    rw [hread, hread, pins_written, mode_foldl]
  flag f get hget n hn := by
    rw [answer_get hget _ ⟨n, Nat.lt_succ_of_le hn⟩, pins_written, flag_foldl]
    simp only [Bool.or_eq_true, decide_eq_true_eq]
    rfl
  control n := by
    have hcontrol (m : Register → Word) : answer (GPPUD.get n) m = (pins m).control := rfl
    rw [hcontrol, hcontrol, pins_written, control_foldl]
  otherPurposes before op after _ P hP r hr := by
    rw [written_concat, applied_of_purpose _ _ hr hP.symm]
  otherPins before op after _ f p hp hop := by
    rw [written_concat, isSet_applied _ _ f hp, decide_eq_false hop, Bool.or_false]
  outOfRange before op after _ gpio hop hg := by rw [written_concat, applied_of_gt _ hop hg]
  outOfRange_answers n hn := by
    have hno : ¬ n ≤ 53 := by omega
    have hvalid : ¬ valid n = true := mt (valid_iff n).mp hno
    refine ⟨?_, ?_, fun f get hget => ?_⟩
    · rw [read, if_neg hvalid]
      rfl
    · rw [read32, if_neg hvalid]
      rfl
    · rw [Flag.get_eq hget, getBit_eq, if_neg hno]
      rfl
  registers := ⟨fun op _ => inBlock_exec op, fun n => ⟨(inBlock_read n).1, (inBlock_read n).2,
    ⟨inBlock_pull, fun _ => trivial⟩, fun _ _ hget => inBlock_get hget n⟩⟩
  shifts := ⟨fun op _ => exec_eq_body op,
    fun n => ⟨read_eq n, fun _ _ hget => get_eq_fieldAt hget n⟩⟩

end Bcm2837.Gpio
