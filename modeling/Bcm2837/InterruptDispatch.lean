import Bcm2837.BitField
import Bcm2837.InterruptDriver

/-!
# Which handler the dispatcher calls

`dispatch` makes one choice: `selected` is the slot it looks up, the first set timer
line or else the lowest pending bit of the two legacy banks. What a call of `dispatch`
does is to call the handler in that slot, if there is one.
-/
namespace Bcm2837.Interrupt

open BitField

variable {F : Type}

/-! ## The lowest set bit -/

theorem shiftLoop_eq (fuel : ℕ) (v : Word) (n k : ℕ) (hk : k < fuel)
    (hbit : v.getLsbD k = true) (hlow : ∀ m < k, v.getLsbD m = false) :
    shiftLoop fuel v n = n + k := by
  induction fuel generalizing v n k with
  | zero => omega
  | succ fuel ih =>
    have hand : v &&& 1 = 0 ↔ v.getLsbD 0 = false := and_bit_eq_zero_iff v 0
    cases k with
    | zero =>
      rw [shiftLoop, if_neg (by rw [hand, hbit]; exact nofun), Nat.add_zero]
    | succ k =>
      have hshift : ∀ m, (v >>> 1).getLsbD m = v.getLsbD (m + 1) := by
        intro m
        rw [BitVec.getLsbD_ushiftRight, Nat.add_comm]
      rw [shiftLoop, if_pos (hand.mpr (hlow 0 (by omega))),
        ih (v >>> 1) (n + 1) k (by omega) (by rwa [hshift]) fun m hm => by
          rw [hshift]
          exact hlow (m + 1) (by omega)]
      omega

theorem lowestSetBit_eq_none_iff (v : Word) : lowestSetBit v = none ↔ v = 0 := by
  unfold lowestSetBit
  split_ifs with h
  · exact iff_of_true rfl h
  · exact iff_of_false nofun h

theorem lowestSetBit_eq_some {v : Word} {n : ℕ} (hbit : v.getLsbD n = true)
    (hlow : ∀ m < n, v.getLsbD m = false) : lowestSetBit v = some n := by
  have hn : n < 32 := BitVec.lt_of_getLsbD hbit
  have hv : v ≠ 0 := by
    rintro rfl
    simp at hbit
  rw [lowestSetBit, if_neg hv, shiftLoop_eq 32 v 0 n hn hbit hlow, Nat.zero_add]

/-! ## What one dispatch does -/

/-- The IRQ source word of a core. -/
def Controller.source (c : Controller F) (core : ℕ) : Word :=
  c.armLocal (ArmLocal.CORE_IRQ_SOURCE0 + core)

/-- The lowest pending bit of the two legacy banks. -/
def banksSlot (c : Controller F) : Option ℕ :=
  match lowestSetBit (c.memory .IRQ_Pending1) with
  | some bit => some bit
  | none => (lowestSetBit (c.memory .IRQ_Pending2)).map (32 + ·)

/-- The table slot that `dispatch` looks up. -/
def selected (core : ℕ) (c : Controller F) : Option ℕ :=
  match timerLines.find? fun line => (c.source core).getLsbD line with
  | some line => some (kLocalBase + line)
  | none => if (c.source core).getLsbD ArmLocal.GPU then banksSlot c else none

/-- The handlers called in a run, in order. -/
def called (H : List (Cmd F × Controller F)) : List F :=
  H.filterMap fun e => match e.1 with | .call cb => some cb | _ => none

/-- The handler in the selected slot, if the slot is in the table and not null. -/
def chosen (core : ℕ) (c : Controller F) : Option F := (selected core c).bind c.ivt.handler

/-- The part of `dispatch` behind the GPU bit. -/
def scanBanks : Io F Unit := do
  let p1 ← load .IRQ_Pending1
  match lowestSetBit p1 with
  | some bit =>
    let cb ← handler bit
    invoke cb
  | none =>
    let p2 ← load .IRQ_Pending2
    match lowestSetBit p2 with
    | some bit =>
      let cb ← handler (32 + bit)
      invoke cb
    | none => return

theorem dispatch_eq (core : ℕ) :
    (dispatch core : Io F Unit) = (do
      let source ← loadLocal (ArmLocal.CORE_IRQ_SOURCE0 + core)
      if ← scanLines source timerLines then return
      if source &&& ((1 : Word) <<< ArmLocal.GPU) ≠ 0 then scanBanks) := rfl

section Run

variable (effect : F → Controller F → Controller F) (c : Controller F)

/-- Look a slot up and call what is there. -/
def callSlot (slot : Option ℕ) : Io F Unit :=
  match slot with
  | some n => do
    let cb ← handler n
    invoke cb
  | none => pure ()

theorem callSlot_spec (slot : Option ℕ) :
    (callSlot slot).run (storage effect) c =
        ((), (slot.bind c.ivt.handler).elim c fun cb => effect cb c) ∧
      called ((callSlot slot).history (storage effect) c) =
        (slot.bind c.ivt.handler).toList := by
  cases slot with
  | none => exact ⟨rfl, rfl⟩
  | some n =>
    rw [callSlot, Prog.run_bind, Prog.history_bind]
    have hrun : (handler n).run (storage effect) c = (c.ivt.handler n, c) := rfl
    rw [hrun]
    cases h : c.ivt.handler n with
    | none => simp [invoke, handler, called, Prog.history, h]
    | some cb => simp [invoke, handler, called, Prog.history, Prog.run, storage, h]

/-- The scan of the timer lines stops at the first set one and calls its slot. -/
theorem scanLines_spec (source : Word) (lines : List ℕ) :
    (scanLines source lines).run (storage effect) c =
        ((lines.find? fun line => source.getLsbD line).isSome,
          ((callSlot ((lines.find? fun line => source.getLsbD line).map (kLocalBase + ·))).run
            (storage effect) c).2) ∧
      called ((scanLines source lines).history (storage effect) c) =
        called ((callSlot ((lines.find? fun line => source.getLsbD line).map
          (kLocalBase + ·))).history (storage effect) c) := by
  induction lines with
  | nil => exact ⟨rfl, rfl⟩
  | cons line lines ih =>
    have hbit : source &&& ((1 : Word) <<< line) ≠ 0 ↔ source.getLsbD line = true := by
      rw [Ne, and_bit_eq_zero_iff]
      simp
    by_cases h : source.getLsbD line = true
    · rw [scanLines, if_pos (hbit.mpr h), List.find?_cons_of_pos h]
      simp [callSlot]
    · rw [scanLines, if_neg (mt hbit.mp h), List.find?_cons_of_neg h]
      exact ih

/-- The choice between the two banks. -/
theorem scanBanks_spec :
    (scanBanks : Io F Unit).run (storage effect) c =
        (callSlot (banksSlot c)).run (storage effect) c ∧
      called ((scanBanks : Io F Unit).history (storage effect) c) =
        called ((callSlot (banksSlot c)).history (storage effect) c) := by
  have hload : ∀ r, (load r : Io F Word).run (storage effect) c = (c.memory r, c) := fun _ => rfl
  have hlog : ∀ r, (load r : Io F Word).history (storage effect) c =
      [(.memory (.load r), c)] := fun _ => rfl
  rw [scanBanks, Prog.run_bind, Prog.history_bind, hload, hlog, banksSlot]
  cases h₁ : lowestSetBit (c.memory .IRQ_Pending1) with
  | some bit => exact ⟨rfl, rfl⟩
  | none =>
    simp only [Prog.run_bind, Prog.history_bind, hload, hlog]
    cases h₂ : lowestSetBit (c.memory .IRQ_Pending2) with
    | some bit => exact ⟨rfl, rfl⟩
    | none => exact ⟨rfl, rfl⟩

/-- A dispatch calls the handler in the selected slot and does nothing else. -/
theorem dispatch_spec (core : ℕ) :
    (dispatch core).run (storage effect) c =
        ((), (chosen core c).elim c fun cb => effect cb c) ∧
      called ((dispatch core).history (storage effect) c) = (chosen core c).toList := by
  have hsource : (loadLocal (ArmLocal.CORE_IRQ_SOURCE0 + core) : Io F Word).run
      (storage effect) c = (c.source core, c) := rfl
  have hlog : (loadLocal (ArmLocal.CORE_IRQ_SOURCE0 + core) : Io F Word).history
      (storage effect) c = [(.armLocal (.load (ArmLocal.CORE_IRQ_SOURCE0 + core)), c)] := rfl
  obtain ⟨hrun, hcalled⟩ := scanLines_spec effect c (c.source core) timerLines
  obtain ⟨hbanks, hbankCalls⟩ := scanBanks_spec effect c
  have happend : ∀ H K : List (Cmd F × Controller F), called (H ++ K) = called H ++ called K :=
    fun _ _ => List.filterMap_append
  have hgpu : c.source core &&& ((1 : Word) <<< ArmLocal.GPU) ≠ 0 ↔
      (c.source core).getLsbD ArmLocal.GPU = true := by
    rw [Ne, and_bit_eq_zero_iff]
    simp
  obtain ⟨hslotRun, hslotCalls⟩ := callSlot_spec effect c (selected core c)
  rw [chosen, ← hslotRun, ← hslotCalls, dispatch_eq, Prog.run_bind, Prog.history_bind, hsource,
    hlog, Prog.run_bind, Prog.history_bind, hrun, happend, happend, hcalled, selected]
  cases hline : timerLines.find? fun line => (c.source core).getLsbD line with
  | some line =>
    refine ⟨rfl, ?_⟩
    simp [called]
  | none =>
    by_cases h : (c.source core).getLsbD ArmLocal.GPU = true
    · simp only [Option.isSome_none, Bool.false_eq_true, if_false, if_pos (hgpu.mpr h), if_pos h]
      exact ⟨hbanks, hbankCalls⟩
    · simp only [Option.isSome_none, Bool.false_eq_true, if_false, if_neg (mt hgpu.mp h),
        if_neg h]
      exact ⟨rfl, rfl⟩

end Run

end Bcm2837.Interrupt
