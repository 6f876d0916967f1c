import Bcm2837.GpioDriver
import Bcm2837.Overrides

/-!
# Output levels and pulls of the pads

The set and clear registers and the pull clocks take requests: a written 1 reaches the
pad of its pin. The driver writes back what the register reads, so a call also reaches the
pads of the other pins whose bits are read.
-/
namespace Bcm2837.Gpio

open Overrides (lastAsked always_lastAsked_iff)

/-! ## Output levels -/

/-- The output latches. What the set and clear registers read back is up to the hardware. -/
def latch (readBack : Word) : Prog.Handler (Access Register Word) Access.Ans (ℕ → Bool)
  | .load _, level => (readBack, level)
  | .store r v, level => ((), fun p =>
      if r = bank GPSET0 GPSET1 p ∧ v.getLsbD (p % 32) then true
      else if r = bank GPCLR0 GPCLR1 p ∧ v.getLsbD (p % 32) then false
      else level p)

/-- `GPSETn(gpio)` or `GPCLRn(gpio)`, with the value its register reads back. -/
structure LevelCall where
  high : Bool
  gpio : ℕ
  readBack : Word

namespace LevelCall

def exec (c : LevelCall) : Io Unit := if c.high then GPSETn c.gpio else GPCLRn c.gpio

/-- What the call asks for pin `p`. -/
def asks (p : ℕ) (c : LevelCall) : Option Bool := if c.gpio = p then some c.high else none

end LevelCall

/-- The levels after a sequence of calls. -/
def driven (level : ℕ → Bool) (calls : List LevelCall) : ℕ → Bool :=
  calls.foldl (fun level c => (c.exec.run (latch c.readBack) level).2) level

theorem driven_concat (level : ℕ → Bool) (calls : List LevelCall) (c : LevelCall) :
    driven level (calls ++ [c]) = (c.exec.run (latch c.readBack) (driven level calls)).2 := by
  simp [driven, List.foldl_append]

theorem latch_set (readBack v : Word) (level : ℕ → Bool) (p gpio : ℕ) :
    (latch readBack (.store (bank GPSET0 GPSET1 gpio) v) level).2 p =
      if SameBank p gpio ∧ v.getLsbD (p % 32) then true else level p := by
  have hne : GPSET0 ≠ GPSET1 := by decide
  have hsame : bank GPSET0 GPSET1 gpio = bank GPSET0 GPSET1 p ↔ SameBank p gpio :=
    eq_comm.trans (bank_eq_iff hne)
  have hother : bank GPSET0 GPSET1 gpio ≠ bank GPCLR0 GPCLR1 p := by
    unfold bank
    split_ifs <;> decide
  simp only [latch, hsame, hother, false_and, if_false]

theorem latch_clear (readBack v : Word) (level : ℕ → Bool) (p gpio : ℕ) :
    (latch readBack (.store (bank GPCLR0 GPCLR1 gpio) v) level).2 p =
      if SameBank p gpio ∧ v.getLsbD (p % 32) then false else level p := by
  have hne : GPCLR0 ≠ GPCLR1 := by decide
  have hsame : bank GPCLR0 GPCLR1 gpio = bank GPCLR0 GPCLR1 p ↔ SameBank p gpio :=
    eq_comm.trans (bank_eq_iff hne)
  have hother : bank GPCLR0 GPCLR1 gpio ≠ bank GPSET0 GPSET1 p := by
    unfold bank
    split_ifs <;> decide
  simp only [latch, hsame, hother, false_and, if_false]

/-- The pins whose bit is written back: the own one and those read. -/
theorem getLsbD_writtenBack (readBack : Word) {p gpio : ℕ} (hp : p ≤ 53) (hg : gpio ≤ 53) :
    SameBank p gpio ∧ (readBack ||| (1 : Word) <<< (gpio % 32)).getLsbD (p % 32) ↔
      SameBank p gpio ∧ (p = gpio ∨ readBack.getLsbD (p % 32)) := by
  refine and_congr_right fun hbank => ?_
  rw [BitVec.getLsbD_or, getLsbD_ownBit hp hg hbank, Bool.or_eq_true, decide_eq_true_iff, or_comm]

/-- A call drives its own pin and the pins of the bank whose bits it has read. -/
theorem level_exec (c : LevelCall) (level : ℕ → Bool) {p : ℕ} (hp : p ≤ 53) :
    (c.exec.run (latch c.readBack) level).2 p =
      if c.gpio ≤ 53 ∧ SameBank p c.gpio ∧ (p = c.gpio ∨ c.readBack.getLsbD (p % 32)) then c.high
      else level p := by
  obtain ⟨high, gpio, readBack⟩ := c
  by_cases hg : gpio ≤ 53
  · have hwritten := (getLsbD_writtenBack readBack hp hg).trans (and_iff_right hg).symm
    cases high with
    | true =>
      rw [LevelCall.exec, if_pos rfl, GPSETn, setBit_eq, if_pos hg]
      exact (latch_set readBack _ level p gpio).trans (if_congr hwritten rfl rfl)
    | false =>
      rw [LevelCall.exec, if_neg Bool.false_ne_true, GPCLRn, setBit_eq, if_pos hg]
      exact (latch_clear readBack _ level p gpio).trans (if_congr hwritten rfl rfl)
  · rw [if_neg fun h => hg h.1]
    cases high with
    | true => rw [LevelCall.exec, if_pos rfl, GPSETn, setBit_eq, if_neg hg]; rfl
    | false => rw [LevelCall.exec, if_neg Bool.false_ne_true, GPCLRn, setBit_eq, if_neg hg]; rfl

/-- In every state reached, each latch is as the last call naming its pin asked, and calls
that name no pin change none. -/
structure LevelsFollow (level : ℕ → Bool) (calls : List LevelCall) : Prop where
  follows : ∀ p ≤ 53, ∀ before after, calls = before ++ after →
    driven level before p = lastAsked (LevelCall.asks p) (level p) before
  outOfRange : ∀ before c after, calls = before ++ c :: after → 53 < c.gpio →
    driven level (before ++ [c]) = driven level before

/-- No call reads back the bit of another pin that should be at the other level. -/
def ReadsOwnLevel (level : ℕ → Bool) (calls : List LevelCall) : Prop :=
  ∀ p ≤ 53, ∀ before c after, calls = before ++ c :: after → c.gpio ≤ 53 → c.gpio ≠ p →
    SameBank p c.gpio → c.readBack.getLsbD (p % 32) = true →
      c.high = lastAsked (LevelCall.asks p) (level p) before

/-- What a call does to the latch of pin `p`. -/
def LevelCall.acts (p : ℕ) (c : LevelCall) : Option Bool :=
  if c.gpio ≤ 53 ∧ SameBank p c.gpio ∧ (p = c.gpio ∨ c.readBack.getLsbD (p % 32)) then
    some c.high
  else none

theorem driven_pin (level : ℕ → Bool) {p : ℕ} (hp : p ≤ 53) (before : List LevelCall)
    (c : LevelCall) :
    driven level (before ++ [c]) p = (c.acts p).getD (driven level before p) := by
  rw [driven_concat, level_exec c _ hp, LevelCall.acts]
  split_ifs <;> rfl

theorem LevelCall.acts_of_asks {p : ℕ} (hp : p ≤ 53) {c : LevelCall} {v : Bool}
    (h : c.asks p = some v) : c.acts p = some v := by
  unfold asks at h
  split_ifs at h with hpin
  rw [← h, acts, if_pos ⟨hpin ▸ hp, hpin ▸ Iff.rfl, .inl hpin.symm⟩]

/-- The output levels follow the calls exactly when no call reads back the bit of another
pin of its bank that was last asked to be at the other level. -/
theorem levelsFollow_iff (level : ℕ → Bool) (calls : List LevelCall) :
    LevelsFollow level calls ↔ ReadsOwnLevel level calls := by
  have hpin {p : ℕ} (hp : p ≤ 53) :=
    always_lastAsked_iff (fun calls => driven level calls p) (driven_pin level hp)
      (fun _ _ _ => LevelCall.acts_of_asks hp) calls
  constructor
  · intro h p hp before c after hsplit hg hne hbank hbit
    exact (hpin hp).mp (h.follows p hp) before c after c.high hsplit (if_neg hne)
      (if_pos ⟨hg, hbank, .inr hbit⟩)
  · intro h
    refine ⟨fun p hp => (hpin hp).mpr fun before c after v hsplit hasks hacts => ?_,
      fun before c after _ hlarge => ?_⟩
    · have hne : c.gpio ≠ p := fun hpc => by simp [LevelCall.asks, hpc] at hasks
      unfold LevelCall.acts at hacts
      split_ifs at hacts with hreach
      obtain ⟨hg, hbank, hbit⟩ := hreach
      have hread := hbit.resolve_left hne.symm
      rw [← Option.some.inj hacts]
      exact h p hp before c after hsplit hg hne hbank hread
    · rw [driven_concat]
      unfold LevelCall.exec GPSETn GPCLRn
      have hno : ¬ c.gpio ≤ 53 := by omega
      rw [setBit_eq, setBit_eq, if_neg hno, if_neg hno, ite_self]
      rfl

/-- Pin 3 is set and cleared again; setting pin 5 sets it once more. -/
theorem not_levelsFollow_stale :
    ¬ LevelsFollow (fun _ => false) [⟨true, 3, 0⟩, ⟨false, 3, 0⟩, ⟨true, 5, 0x8⟩] := by
  intro h
  have hlevel := h.follows 3 (by decide) _ [] (List.append_nil _).symm
  revert hlevel
  decide

/-! ## Pulls -/

/-- The register block as words, and the control value each pad was last clocked with. -/
structure Pads where
  memory : Register → Word
  pull : ℕ → Word

/-- A store to a clock register applies the control to every pad whose bit is written. -/
def clock : Prog.Handler (Access Register Word) Access.Ans Pads
  | .load r, s => (s.memory r, s)
  | .store r v, s => ((), {
      memory := Function.update s.memory r v
      pull := fun p =>
        if r = bank GPPUDCLK0 GPPUDCLK1 p ∧ v.getLsbD (p % 32) then s.memory GPPUD &&& 3
        else s.pull p })

/-- A pad configuration: `GPPUD(gpio, cfg)`, then `GPPUDCLKn(gpio)`. -/
structure PullCall where
  gpio : ℕ
  cfg : PullUpDownConfig

namespace PullCall

def exec (c : PullCall) : Io Unit := do
  GPPUD.set c.gpio c.cfg
  GPPUDCLKn.set c.gpio

/-- What the call asks for pad `p`. -/
def asks (p : ℕ) (c : PullCall) : Option Word := if c.gpio = p then some c.cfg.code else none

end PullCall

/-- The pads after a sequence of configurations. -/
def pulled (s : Pads) (calls : List PullCall) : Pads :=
  calls.foldl (fun s c => (c.exec.run clock s).2) s

/-- The clock bit of a pad. -/
def clocked (s : Pads) (p : ℕ) : Bool := pinBit GPPUDCLK0 GPPUDCLK1 s.memory p

section Pulls

variable (s : Pads)

theorem pulled_concat (calls : List PullCall) (c : PullCall) :
    pulled s (calls ++ [c]) = (c.exec.run clock (pulled s calls)).2 := by
  simp [pulled, List.foldl_append]

theorem bank_clock_ne (gpio : ℕ) : bank GPPUDCLK0 GPPUDCLK1 gpio ≠ GPPUD := by
  unfold bank
  split_ifs <;> decide

/-- Setting the control clocks no pad. -/
theorem control_exec (gpio : ℕ) (cfg : PullUpDownConfig) :
    ((GPPUD.set gpio cfg).run clock s).2 =
      { s with
        memory := Function.update s.memory GPPUD
          (BitField.setField (s.memory GPPUD) 0 2 cfg.code) } := by
  have hstore : ∀ (v : Word) (s : Pads), (clock (.store GPPUD v) s).2 =
      ⟨Function.update s.memory GPPUD v, s.pull⟩ := by
    intro v s
    simp only [clock, (bank_clock_ne _).symm, false_and, if_false]
  rw [← control_eq, GPPUD.set, Prog.run_bind]
  simp only [Mmio.modify, Prog.run_bind, Mmio.run_load, Mmio.run_store, hstore]
  simp only [clock, Function.update_self, Function.update_idem]

theorem clocked_of_sameBank {p gpio : ℕ} (hbank : SameBank p gpio) :
    (s.memory (bank GPPUDCLK0 GPPUDCLK1 gpio)).getLsbD (p % 32) = clocked s p := by
  have hne : GPPUDCLK0 ≠ GPPUDCLK1 := by decide
  rw [clocked, pinBit, (bank_eq_iff hne).mpr hbank]

/-- A clock store clocks its own pad and the pads whose bits it has read. -/
theorem pull_clock {p gpio : ℕ} (hp : p ≤ 53) (hg : gpio ≤ 53) :
    ((GPPUDCLKn.set gpio).run clock s).2.pull p =
      if SameBank p gpio ∧ (p = gpio ∨ clocked s p) then s.memory GPPUD &&& 3 else s.pull p := by
  have hne : GPPUDCLK0 ≠ GPPUDCLK1 := by decide
  have hsame : bank GPPUDCLK0 GPPUDCLK1 gpio = bank GPPUDCLK0 GPPUDCLK1 p ↔ SameBank p gpio :=
    eq_comm.trans (bank_eq_iff hne)
  rw [GPPUDCLKn.set, setBit_eq, if_pos hg]
  refine if_congr ?_ rfl rfl
  rw [hsame]
  refine (getLsbD_writtenBack _ hp hg).trans (and_congr_right fun hbank => ?_)
  rw [← clocked_of_sameBank s hbank]
  rfl

theorem clocked_clock {p gpio : ℕ} (hp : p ≤ 53) (hg : gpio ≤ 53) :
    clocked ((GPPUDCLKn.set gpio).run clock s).2 p = (decide (p = gpio) || clocked s p) := by
  have hne : GPPUDCLK0 ≠ GPPUDCLK1 := by decide
  have hmemory : ((GPPUDCLKn.set gpio).run clock s).2.memory =
      Function.update s.memory (bank GPPUDCLK0 GPPUDCLK1 gpio)
        (s.memory (bank GPPUDCLK0 GPPUDCLK1 gpio) ||| (1 : Word) <<< (gpio % 32)) := by
    rw [GPPUDCLKn.set, setBit_eq, if_pos hg]
    rfl
  rw [clocked, pinBit, hmemory]
  by_cases hbank : SameBank p gpio
  · rw [(bank_eq_iff hne).mpr hbank, Function.update_self, BitVec.getLsbD_or,
      getLsbD_ownBit hp hg hbank, clocked_of_sameBank s hbank, Bool.or_comm]
  · have hpg : p ≠ gpio := fun h => hbank (h ▸ Iff.rfl)
    rw [Function.update_of_ne fun h => hbank ((bank_eq_iff hne).mp h), decide_eq_false hpg,
      Bool.false_or]
    rfl

theorem clocked_control (gpio : ℕ) (cfg : PullUpDownConfig) (p : ℕ) :
    clocked ((GPPUD.set gpio cfg).run clock s).2 p = clocked s p := by
  rw [control_exec]
  exact congrArg (fun v : Word => v.getLsbD (p % 32)) (Function.update_of_ne (bank_clock_ne p) _ _)

/-- What a whole configuration leaves. -/
theorem pull_exec (c : PullCall) {p : ℕ} (hp : p ≤ 53) :
    (c.exec.run clock s).2.pull p =
      if c.gpio ≤ 53 ∧ SameBank p c.gpio ∧ (p = c.gpio ∨ clocked s p) then c.cfg.code
      else s.pull p := by
  rw [PullCall.exec, Prog.run_bind]
  by_cases hg : c.gpio ≤ 53
  · have hcontrol : Function.update s.memory GPPUD
        (BitField.setField (s.memory GPPUD) 0 2 c.cfg.code) GPPUD &&& 3 = c.cfg.code := by
      rw [Function.update_self, control_and, code_and_three]
    rw [pull_clock _ hp hg, clocked_control, control_exec, hcontrol]
    exact if_congr (and_iff_right hg).symm rfl rfl
  · rw [GPPUDCLKn.set, setBit_eq, if_neg hg, if_neg fun h => hg h.1, control_exec]
    rfl

theorem clocked_exec (c : PullCall) {p : ℕ} (hp : p ≤ 53) :
    clocked (c.exec.run clock s).2 p = (decide (p = c.gpio) || clocked s p) := by
  rw [PullCall.exec, Prog.run_bind]
  by_cases hg : c.gpio ≤ 53
  · rw [clocked_clock _ hp hg, clocked_control]
  · have hpg : p ≠ c.gpio := by omega
    rw [GPPUDCLKn.set, setBit_eq, if_neg hg, decide_eq_false hpg, Bool.false_or]
    exact clocked_control s c.gpio c.cfg p

/-- No clock is ever removed. -/
theorem clocked_pulled {p : ℕ} (hp : p ≤ 53) (calls : List PullCall) :
    clocked (pulled s calls) p = true ↔ clocked s p = true ∨ ∃ d ∈ calls, d.gpio = p := by
  induction calls using List.reverseRecOn with
  | nil => simp [pulled]
  | append_singleton calls c ih =>
    rw [pulled_concat, clocked_exec _ c hp, Bool.or_eq_true, decide_eq_true_iff, ih]
    simp only [List.mem_append, List.mem_singleton, or_and_right, exists_or, exists_eq_left,
      eq_comm (b := p)]
    exact or_comm.trans or_assoc

/-- What a configuration, after those before it, does to pad `p`. -/
def PullCall.acts (p : ℕ) (before : List PullCall) (c : PullCall) : Option Word :=
  if c.gpio ≤ 53 ∧ SameBank p c.gpio ∧ (p = c.gpio ∨ clocked (pulled s before) p) then
    some c.cfg.code
  else none

theorem pulled_pad {p : ℕ} (hp : p ≤ 53) (before : List PullCall) (c : PullCall) :
    (pulled s (before ++ [c])).pull p = (c.acts s p before).getD ((pulled s before).pull p) := by
  rw [pulled_concat, pull_exec _ c hp, PullCall.acts]
  split_ifs <;> rfl

theorem PullCall.acts_of_asks {p : ℕ} (hp : p ≤ 53) (before : List PullCall) {c : PullCall}
    {v : Word} (h : c.asks p = some v) : c.acts s p before = some v := by
  unfold asks at h
  split_ifs at h with hpin
  rw [← h, acts, if_pos ⟨hpin ▸ hp, hpin ▸ Iff.rfl, .inl hpin.symm⟩]

/-- In every state reached, each pad is pulled as the last configuration naming it asked. -/
def PullsFollow (calls : List PullCall) : Prop :=
  ∀ p ≤ 53, ∀ before after, calls = before ++ after →
    (pulled s before).pull p = lastAsked (PullCall.asks p) (s.pull p) before

/-- Every configuration asks for what was last asked of each other pad of its bank whose
clock bit is set, at the outset or by a configuration of that pad. -/
def AgreesWithClocked (calls : List PullCall) : Prop :=
  ∀ p ≤ 53, ∀ before c after, calls = before ++ c :: after → c.gpio ≤ 53 → c.gpio ≠ p →
    SameBank p c.gpio → clocked s p = true ∨ (∃ d ∈ before, d.gpio = p) →
      c.cfg.code = lastAsked (PullCall.asks p) (s.pull p) before

/-- The pads are pulled as configured exactly when every configuration agrees with what was
last asked of the other pads it clocks. -/
theorem pullsFollow_iff (calls : List PullCall) :
    PullsFollow s calls ↔ AgreesWithClocked s calls := by
  have hpad {p : ℕ} (hp : p ≤ 53) :=
    always_lastAsked_iff (fun calls => (pulled s calls).pull p) (pulled_pad s hp)
      (fun before _ _ => PullCall.acts_of_asks s hp before) calls
  constructor
  · intro h p hp before c after hsplit hg hne hbank hclocked
    exact (hpad hp).mp (h p hp) before c after c.cfg.code hsplit (if_neg hne)
      (if_pos ⟨hg, hbank, .inr ((clocked_pulled s hp before).mpr hclocked)⟩)
  · intro h p hp
    refine (hpad hp).mpr fun before c after v hsplit hasks hacts => ?_
    have hne : c.gpio ≠ p := fun hpc => by simp [PullCall.asks, hpc] at hasks
    unfold PullCall.acts at hacts
    split_ifs at hacts with hreach
    obtain ⟨hg, hbank, hbit⟩ := hreach
    have hclocked := (clocked_pulled s hp before).mp (hbit.resolve_left hne.symm)
    rw [← Option.some.inj hacts]
    exact h p hp before c after hsplit hg hne hbank hclocked

end Pulls

/-- Pad 3 is pulled up; pulling pad 5 down pulls it down too. -/
theorem not_pullsFollow_staleClock :
    ¬ PullsFollow ⟨fun _ => 0, fun _ => 0⟩ [⟨3, .EnablePullUp⟩, ⟨5, .EnablePullDown⟩] := by
  intro h
  have hpull := h 3 (by decide) _ [] (List.append_nil _).symm
  revert hpull
  decide

end Bcm2837.Gpio
