import Bcm2837.ControlBits
import Bcm2837.Completion

/-!
# Interrupt enables

The three interrupt enables of the control register follow the record: all clear while
no transfer is active, and set for the direction of an active one. They are stored bits
of a register that other field writes pass through.
-/
namespace Bcm2837

open Bsc

/-- The enable bits of the control register. -/
def IsEnable (i : ℕ) : Prop := i = 8 ∨ i = 9 ∨ i = 10

/-- The enable bits of a device are storage in the control register, whatever its other
bits do. -/
abbrev EnableBits {δ : Type} (d : Device δ) (enabled : δ → ℕ → Bool) : Prop :=
  StoredBits IsEnable d enabled

theorem IsEnable.lt {i : ℕ} (hi : IsEnable i) : i < 32 := by
  rcases hi with rfl | rfl | rfl <;> decide

section Programs

variable {δ : Type} {d : Device δ} {enabled : δ → ℕ → Bool} (hd : EnableBits d enabled) (s : δ)
include hd

/-- Launching a transfer enables the interrupts of its direction. -/
theorem enabled_launch (addr : Byte) (len : ℕ) (reading : Bool) :
    enabled ((I2c.launch addr len reading).run d.access s).2 8 = true ∧
      enabled ((I2c.launch addr len reading).run d.access s).2 (if reading then 10 else 9) =
        true := by
  have h8 : IsEnable 8 := .inl rfl
  have h9 : IsEnable 9 := .inr (.inl rfl)
  have h10 : IsEnable 10 := .inr (.inr rfl)
  cases reading <;>
    simp [I2c.launch, I2c.arm, I2c.kick, I2c.startRead, I2c.startWrite, I2c.enable,
      bit_setControl hd h8, bit_setControl hd h9, bit_setControl hd h10,
      I2c.controlField]

/-- Disabling the three interrupts, whatever status bits are acknowledged after it. -/
theorem enabled_reset {i : ℕ} (hi : IsEnable i) :
    enabled (I2c.reset.run d.access s).2 i = false := by
  have hclear : I2c.clearFifo = I2c.setControl .CLEAR 0b01 := rfl
  simp only [I2c.reset, Prog.run_bind, bit_clrStatus hd hi, hclear, bit_setControl hd hi,
    bit_clrControl hd hi]
  rcases hi with rfl | rfl | rfl <;> simp [I2c.controlField]

/-- Closing a transfer disables all interrupts. -/
theorem enabled_quiesce {i : ℕ} (hi : IsEnable i) :
    enabled (I2c.quiesce.run d.access s).2 i = false := by
  simp only [I2c.quiesce, Prog.run_bind, bit_clrControl hd hi]
  rcases hi with rfl | rfl | rfl <;> simp [I2c.controlField]

/-- Bringing up the bus leaves the interrupts as they are. -/
theorem enabled_busInit (divider : Word) {i : ℕ} (hi : IsEnable i) :
    enabled ((I2c.clockDivider divider).run d.access s).2 i = enabled s i ∧
      enabled (I2c.enable.run d.access s).2 i = enabled s i := by
  refine ⟨bit_store hd hi s (by decide) _, ?_⟩
  rw [I2c.enable, bit_setControl hd hi]
  rcases hi with rfl | rfl | rfl <;> simp [I2c.controlField]

end Programs

/-! ## The discipline -/

namespace Irq

variable {δ : Type} {d : Device δ} {enabled : δ → ℕ → Bool}

/-- The enables follow the record. -/
def Disciplined (enabled : δ → ℕ → Bool) (w : World δ) : Prop :=
  if w.xfer.active then
    enabled w.dev 8 = true ∧ enabled w.dev (if w.xfer.reading then 10 else 9) = true
  else ∀ i, IsEnable i → enabled w.dev i = false

/-- Every callback entered in a run finds the enables in order. -/
def Announced (enabled : δ → ℕ → Bool) (_ : World δ) (H : List (Cmd × World δ))
    (_ : World δ) : Prop :=
  ∀ cb r user s, (Cmd.enter cb r user, s) ∈ H → Disciplined enabled s

theorem sequential_announced : Prog.Sequential (@Announced δ enabled) where
  idle _ := fun _ _ _ _ hs => absurd hs List.not_mem_nil
  trans h₁ h₂ := by
    intro cb r user s hs
    rcases List.mem_append.mp hs with hs | hs
    · exact h₁ cb r user s hs
    · exact h₂ cb r user s hs

theorem announced_silent {w w' : World δ} {H : List (Cmd × World δ)}
    (hH : ∀ e ∈ H, Silent e.1) : Announced enabled w H w' :=
  fun _ _ _ _ hs => (hH _ hs).elim

/-- The invariant between calls. -/
def Armed (enabled : δ → ℕ → Bool) (w : World δ) : Prop := Settled w ∧ Disciplined enabled w

/-- The invariant while a thread waits. -/
def ArmedWaiting (enabled : δ → ℕ → Bool) (w : World δ) : Prop :=
  w.xfer.cb = nullptr ∧ Disciplined enabled w

theorem disciplined_congr {w w' : World δ} (hx : w'.xfer.active = w.xfer.active)
    (hr : w'.xfer.reading = w.xfer.reading)
    (hd : ∀ i, IsEnable i → enabled w'.dev i = enabled w.dev i) (hw : Disciplined enabled w) :
    Disciplined enabled w' := by
  unfold Disciplined at hw ⊢
  rw [hx, hr]
  split_ifs at hw ⊢ with hactive hreading
  · rw [hd 8 (.inl rfl), hd 10 (.inr (.inr rfl))]
    exact hw
  · rw [hd 8 (.inl rfl), hd 9 (.inr (.inl rfl))]
    exact hw
  · intro i hi
    rw [hd i hi, hw i hi]

section

variable (hd : EnableBits d enabled)
include hd

theorem disciplined_start (w : World δ) (addr : Byte) (tx : Ptr) (tn : ℕ) (rx : Ptr) (rn : ℕ)
    (reading : Bool) (cb : Completion) (user : Ptr) :
    Disciplined enabled ((start addr tx tn rx rn reading cb user).run (world d) w).2 := by
  rw [run_start]
  exact enabled_launch hd w.dev addr _ reading

theorem disciplined_finished (w : World δ) (r : I2cResult) :
    Disciplined enabled (finished d w r) :=
  fun _ hi => enabled_quiesce hd w.dev hi

/-- A moving command touches neither the enables nor the record's direction. -/
theorem disciplined_move {c : Cmd} (hc : Moves c) (w : World δ) (hw : Disciplined enabled w) :
    Disciplined enabled (world d c w).2 := by
  obtain ⟨ti, ri, hx⟩ := moves_xfer d w hc
  refine disciplined_congr (by rw [hx]) (by rw [hx]) (fun i hi => ?_) hw
  cases c with
  | bsc a =>
    refine hd.others w.dev a i hi ?_ ?_
    · rintro rfl
      exact hc
    · rintro v rfl
      exact hc
  | _ => rfl

theorem armed_perform (c : AsyncCall) :
    Prog.Triple (world d) (Announced enabled) (Armed enabled) (perform c)
      fun _ => Armed enabled := by
  intro w hw
  obtain ⟨H, hH, hhist⟩ := history_call d w c
  have hsettled := (settles_perform d c w hw.1).1
  rw [run_perform] at hsettled ⊢
  refine ⟨⟨hsettled, ?_⟩, ?_⟩
  · rw [run_call]
    split_ifs with h
    · exact hw.2
    · have hlaunched := enabled_launch hd w.dev c.addr c.len c.reading
      have hreading : c.record.reading = c.reading := by cases c <;> rfl
      simp only [Disciplined, launched, AsyncCall.record_active, if_true, hreading]
      exact hlaunched
  · rw [history_perform, hhist]
    refine sequential_announced.trans (t := w) ?_ fun cb r user s hs => by simp at hs
    intro cb r user s hs
    rcases List.mem_cons.mp hs with hs | hs
    · cases hs
    · split_ifs at hs
      · cases hs
      · rcases List.mem_cons.mp hs with hs | hs
        · cases hs
        · exact (hH _ hs).elim

theorem armed_finish (w : World δ) (r : I2cResult) :
    Armed enabled ((finalize r).run (world d) w.next).2 ∧
      Announced enabled w ((.status, w) :: (peek d w ++ (finalize r).history (world d) w.next))
        ((finalize r).run (world d) w.next).2 := by
  have hfinished := disciplined_finished hd w.next r
  refine finish_keeps sequential_announced w r (fun hcb => ⟨⟨fun _ => hcb, hfinished⟩, ?_⟩)
    fun hcb => ⟨armed_perform hd, ⟨fun _ => rfl, hfinished⟩, ?_⟩
  · intro H hH _ cb r' user s hs
    rcases List.mem_cons.mp hs with hs | hs
    · cases hs
    · exact (hH _ hs).elim
  · intro H hH _ cb r' user s hs
    rcases List.mem_cons.mp hs with hs | hs
    · cases hs
    · rcases List.mem_append.mp hs with hs | hs
      · exact (hH _ hs).elim
      · cases List.mem_singleton.mp hs
        exact hfinished

theorem armed_handleIrq :
    Prog.Triple (world d) (Announced enabled) (Armed enabled) handleIrq
      fun _ => Armed enabled := by
  have hmove : ∀ c, Moves c → ∀ w : World δ, Armed enabled w →
      Armed enabled (world d c w).2 ∧ Announced enabled w [(c, w)] (world d c w).2 := by
    intro c hc w hw
    refine ⟨⟨?_, disciplined_move hd hc w hw.2⟩, announced_silent (by simpa using hc.silent)⟩
    obtain ⟨ti, ri, hx⟩ := moves_xfer d w hc
    rw [Settled, hx]
    exact hw.1
  refine triple_handleIrq sequential_announced
    (fun w hw => (hmove .xfer trivial w hw).2) fun fuel => ?_
  exact triple_irqLoop sequential_announced hmove (fun w r _ _ => armed_finish hd w r) fuel

theorem armedWaiting_handleIrq :
    Prog.Triple (world d) (Announced enabled) (ArmedWaiting enabled) handleIrq
      fun _ => ArmedWaiting enabled := by
  have hmove : ∀ c, Moves c → ∀ w : World δ, ArmedWaiting enabled w →
      ArmedWaiting enabled (world d c w).2 ∧ Announced enabled w [(c, w)] (world d c w).2 := by
    intro c hc w hw
    refine ⟨⟨?_, disciplined_move hd hc w hw.2⟩, announced_silent (by simpa using hc.silent)⟩
    obtain ⟨ti, ri, hx⟩ := moves_xfer d w hc
    rw [hx]
    exact hw.1
  refine triple_handleIrq sequential_announced
    (fun w hw => (hmove .xfer trivial w hw).2) fun fuel => ?_
  refine triple_irqLoop sequential_announced hmove (fun w r hw _ => ⟨?_, ?_⟩) fuel
  · have hcb : w.next.xfer.cb = nullptr := hw.1
    rw [run_finalize, if_pos hcb]
    exact ⟨hcb, disciplined_finished hd w.next r⟩
  · exact (armed_finish hd w r).2

theorem armed_wait (maxWaits : ℕ) :
    Prog.Triple (world d) (Announced enabled) (ArmedWaiting enabled)
      (waitComplete anyIrqs maxWaits) fun _ => Armed enabled := by
  have hlook : ∀ w : World δ, ArmedWaiting enabled w → Announced enabled w [(.xfer, w)] w :=
    fun w _ => announced_silent (by simp [Silent])
  have habort : Prog.Triple (world d) (Announced enabled) (ArmedWaiting enabled) abortTransfer
      fun _ => Armed enabled := by
    intro w hw
    have hrun : (abortTransfer.run (world d) w).2 =
        { w with
          dev := (I2c.reset.run d.access w.dev).2
          xfer := { w.xfer with active := false } } := by
      simp [abortTransfer_eq, Assign.apply]
    rw [hrun]
    exact ⟨⟨fun _ => hw.1, fun i hi => enabled_reset hd w.dev hi⟩,
      announced_silent fun e he => (closing_abortTransfer.mem_history _ _ e he).internal.silent⟩
  exact triple_waitComplete sequential_announced
    (triple_look hlook fun w hw _ => ⟨fun _ => hw.1, hw.2⟩)
    (triple_anyIrqs sequential_announced
      (fun w hw => ⟨hw, announced_silent (by simp [Prog.history, Silent])⟩)
      (armedWaiting_handleIrq hd))
    habort maxWaits

theorem armed_busInit (divider : BitVec 16) :
    Prog.Triple (world d) (Announced enabled) (Armed enabled) (busInit divider)
      fun _ => Armed enabled := by
  intro w hw
  have hx : ((busInit divider).run (world d) w).2.xfer = w.xfer := by simp [busInit]
  have hdev : ((busInit divider).run (world d) w).2.dev =
      (I2c.enable.run d.access
        ((I2c.clockDivider (divider.setWidth 32)).run d.access w.dev).2).2 := by
    simp [busInit]
  have hsilent : ∀ e ∈ (busInit divider).history (world d) w, Silent e.1 := by
    intro e he
    have hp := (peripheral_busInit divider).mem_history (world d) w e he
    obtain ⟨c, s⟩ := e
    cases c <;> trivial
  refine ⟨⟨by rw [Settled, hx]; exact hw.1, ?_⟩, announced_silent hsilent⟩
  refine disciplined_congr (by rw [hx]) (by rw [hx]) (fun i hi => ?_) hw.2
  rw [hdev, (enabled_busInit hd _ (divider.setWidth 32) hi).2,
    (enabled_busInit hd w.dev (divider.setWidth 32) hi).1]

/-- From a fresh record and disabled interrupts, the enables follow the record after
every call and whenever a callback is entered. -/
theorem interruptEnables_follow (cfg : Config) (w : World δ) (hw : w.xfer = {})
    (hoff : ∀ i, IsEnable i → enabled w.dev i = false) (ops : List Op) :
    (∀ pre post, ops = pre ++ post → Disciplined enabled (after d w cfg pre)) ∧
      ∀ cb r user s, (.enter cb r user, s) ∈ (runOps cfg ops).history (world d) w →
        Disciplined enabled s := by
  have harmed : Armed enabled w := by
    refine ⟨fun _ => by rw [hw], ?_⟩
    rw [Disciplined, hw]
    exact hoff
  have hstart : ∀ addr tx tn rx rn reading, Prog.Triple (world d) (Announced enabled)
      (Armed enabled) (start addr tx tn rx rn reading nullptr nullptr)
      fun _ => ArmedWaiting enabled := by
    intro addr tx tn rx rn reading w _
    obtain ⟨H, hH, hhist⟩ := history_start d w addr tx tn rx rn reading nullptr nullptr
    refine ⟨⟨by rw [run_start]; rfl, disciplined_start hd w _ _ _ _ _ _ _ _⟩, ?_⟩
    rw [hhist]
    intro cb r user s hs
    rcases List.mem_cons.mp hs with hs | hs
    · cases hs
    · exact (hH _ hs).elim
  have hrun := triple_runOps cfg sequential_announced
    (triple_exec cfg sequential_announced (armed_busInit hd cfg.divider) (armed_perform hd)
      (armed_handleIrq hd) hstart (armed_wait hd cfg.maxWaits))
  refine ⟨fun pre post _ => (hrun pre w harmed).1.2, (hrun ops w harmed).2⟩

end

/-- Bringing the bus up, an asynchronous write and the interrupt that finishes it. -/
theorem interruptEnables_follow_async :
    Disciplined (fun m i => BitVec.getLsbD (m Register.C) i)
        (after Device.plain (World.powerOn (fun _ => 0) S_DONE) ⟨2500, 2⟩
          [.busInit, .async (.writeAsync 0x10 4 1 7 9)]) ∧
      Disciplined (fun m i => BitVec.getLsbD (m Register.C) i)
        (after Device.plain (World.powerOn (fun _ => 0) S_DONE) ⟨2500, 2⟩
          [.busInit, .async (.writeAsync 0x10 4 1 7 9), .handleIrq]) := by
  have hfollow := interruptEnables_follow (storedBits_plain IsEnable fun _ => IsEnable.lt) ⟨2500, 2⟩
    (World.powerOn (fun _ => 0) S_DONE) rfl (fun _ _ => BitVec.getLsbD_zero)
    [.busInit, .async (.writeAsync 0x10 4 1 7 9), .handleIrq]
  exact ⟨hfollow.1 _ [.handleIrq] rfl, hfollow.1 _ [] rfl⟩

end Irq

end Bcm2837
