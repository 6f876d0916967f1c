import Bcm2837.Completion

/-!
# Interrupts on an idle transport

The interrupt line is shared, so the handler also runs while no transfer is active.
It does not look at `active`: whether it then moves data is decided by its first
status word and by the bytes the last transfer left owed.
-/
namespace Bcm2837

/-- FIFO accesses and accesses to the caller's buffers. -/
def Cmd.movesData : Cmd → Bool
  | bsc (.load .FIFO) => true
  | bsc (.store .FIFO _) => true
  | loadByte _ => true
  | storeByte _ _ => true
  | _ => false

namespace Irq

variable {δ : Type} (d : Device δ)

/-- The handler moves no data. -/
def Inert (w : World δ) : Prop :=
  ∀ e ∈ handleIrq.history (world d) w, e.1.movesData = false

instance (w : World δ) : Decidable (Inert d w) := List.decidableBAll _ _

/-- The word reports an error, or no byte is owed in the direction it could move. -/
def NothingOwed (s : Word) (x : Xfer) : Prop :=
  Word.has s S_ERR ∨ Word.has s S_CLKT ∨
    if x.reading then Word.has s S_RXD → x.rn ≤ x.ri else Word.has s S_TXD → x.tn ≤ x.ti

theorem closing_movesData {c : Cmd} (hc : Closing c) : c.movesData = false := by
  cases c with
  | bsc a => cases a <;> rcases hc with rfl | rfl <;> rfl
  | _ => first | rfl | exact hc.elim

/-- A record that owes no callback is finished without moving data. -/
theorem finalize_inert (w : World δ) (r : I2cResult) (hcb : w.xfer.cb = nullptr) :
    ∀ e ∈ (finalize r).history (world d) w, e.1.movesData = false := by
  obtain ⟨H, hH, -, hhist⟩ := history_finalize d w r
  rw [hhist, if_pos hcb, List.append_nil]
  intro e he
  exact closing_movesData (hH e he)

theorem history_handleIrq (w : World δ) :
    handleIrq.history (world d) w =
      (.xfer, w) :: (irqLoop (owed w.xfer + 1)).history (world d) w := by
  rw [handleIrq, memBarrier, pure_bind, Prog.history_bind]
  rfl

/-- On a record that owes no callback, the first pass decides. -/
theorem inert_iff_action (w : World δ) (hcb : w.xfer.cb = nullptr) :
    Inert d w ↔ action (w.word d) w.xfer ≠ .pop ∧ action (w.word d) w.xfer ≠ .push := by
  have hpeek : ∀ e ∈ peek d w, e.1.movesData = false :=
    fun e he => closing_movesData (closing_peek d w e he)
  rw [Inert, history_handleIrq, history_irqLoop_succ]
  cases ha : action (w.word d) w.xfer with
  | finish r =>
    refine ⟨fun _ => ⟨nofun, nofun⟩, fun _ e he => ?_⟩
    rcases List.mem_cons.mp he with rfl | he
    · rfl
    rcases List.mem_cons.mp he with rfl | he
    · rfl
    rcases List.mem_append.mp he with he | he
    · exact hpeek e he
    · exact finalize_inert d w.next r hcb e he
  | idle =>
    refine ⟨fun _ => ⟨nofun, nofun⟩, fun _ e he => ?_⟩
    rcases List.mem_cons.mp he with rfl | he
    · rfl
    rcases List.mem_cons.mp he with rfl | he
    · rfl
    rw [List.append_nil] at he
    exact hpeek e he
  | pop =>
    refine ⟨fun h => ?_, fun h => absurd rfl h.1⟩
    have hload := h (.bsc (.load .FIFO), w.next) (by simp [history_popByte])
    cases hload
  | push =>
    refine ⟨fun h => ?_, fun h => absurd rfl h.2⟩
    have hload := h (.loadByte (w.xfer.tx + w.xfer.ti),
      { w.next with xfer := (Assign.ti (w.xfer.ti + 1)).apply w.xfer }) (by simp [history_pushByte])
    cases hload

theorem action_moves_iff (s : Word) (x : Xfer) :
    (action s x ≠ .pop ∧ action s x ≠ .push) ↔ NothingOwed s x := by
  unfold action NothingOwed
  by_cases herr : Word.has s S_ERR
  · simp [herr]
  by_cases hclk : Word.has s S_CLKT
  · simp [herr, hclk]
  cases hr : x.reading
  · by_cases hpush : Word.has s S_TXD ∧ x.ti < x.tn
    · simp [herr, hclk, hpush]
    · have hnone : (Word.has s S_TXD && decide (x.ti < x.tn)) = false := by simpa using hpush
      have howed : Word.has s S_TXD → x.tn ≤ x.ti := by simpa using hpush
      by_cases hdone : Word.has s S_DONE <;> simp [herr, hclk, hnone, hdone] <;> exact howed
  · by_cases hpop : Word.has s S_RXD ∧ x.ri < x.rn
    · simp [herr, hclk, hpop]
    · have hnone : (Word.has s S_RXD && decide (x.ri < x.rn)) = false := by simpa using hpop
      have howed : Word.has s S_RXD → x.rn ≤ x.ri := by simpa using hpop
      by_cases hdone : Word.has s S_DONE <;> simp [herr, hclk, hnone, hdone] <;> exact howed

/-! ## Reachable states -/

/-- No sequence of calls leaves an idle record with a callback, overlapping calls
included. -/
theorem settled_after (cfg : Config) (ops : List Op) (w : World δ) (hw : Settled w) :
    Settled (after d w cfg ops) := by
  have hR : Prog.Sequential fun (_ : World δ) (_ : List (Cmd × World δ)) (_ : World δ) => True :=
    Prog.sequential_true
  have hbus : Prog.Triple (world d) (fun _ _ _ => True) Settled (busInit cfg.divider)
      fun _ => Settled :=
    Prog.Triple.of_only hR (peripheral_busInit _) fun c hc w hw =>
      ⟨by rwa [Settled, peripheral_xfer d w hc], trivial⟩
  have hstart : ∀ addr tx tn rx rn reading, Prog.Triple (world d) (fun _ _ _ => True) Settled
      (start addr tx tn rx rn reading nullptr nullptr) fun _ => Waiting := by
    intro addr tx tn rx rn reading w _
    rw [run_start]
    exact ⟨⟨rfl, fun h => by simp [published] at h⟩, trivial⟩
  have hwait : Prog.Triple (world d) (fun _ _ _ => True) Waiting
      (waitComplete anyIrqs cfg.maxWaits) fun _ => Settled :=
    ((settles_wait d cfg.maxWaits).forget fun _ _ _ _ => trivial).weaken (fun _ hw => hw)
      fun _ _ hw _ => hw.2
  have hexec := triple_exec cfg hR hbus
    (fun c => (settles_perform d c).forget fun _ _ _ _ => trivial)
    ((settles_handleIrq d).forget fun _ _ _ _ => trivial) hstart hwait
  exact (triple_runOps cfg hR hexec ops w hw).1

/-- On an idle transport, reached by any calls, the handler moves no data precisely
when its first status word reports an error or nothing is owed in the direction the
word allows. -/
theorem inert_iff_nothingOwed (cfg : Config) (ops : List Op) (w : World δ) (hw : w.xfer = {})
    (words : Stream' Word) (hidle : (after d w cfg ops).xfer.active = false) :
    Inert d { after d w cfg ops with words := words } ↔
      NothingOwed (d.view words.head (after d w cfg ops).dev) (after d w cfg ops).xfer := by
  have hsettled : Settled (after d w cfg ops) :=
    settled_after d cfg ops w fun _ => by rw [hw]
  have hcb : { after d w cfg ops with words := words }.xfer.cb = nullptr := hsettled hidle
  rw [inert_iff_action d _ hcb, action_moves_iff]
  rfl

/-- A write of one byte runs to its end and owes nothing: a later interrupt that sees
room in the FIFO is harmless. -/
theorem inert_after_done :
    Inert Device.plain
      { after Device.plain (World.powerOn (fun _ => 0) (S_TXD ||| S_DONE)) ⟨2500, 2⟩
          [.async (.writeAsync 0x10 4 1 7 9), .handleIrq] with
        words := Stream'.const S_TXD } :=
  (inert_iff_nothingOwed Device.plain ⟨2500, 2⟩ _ _ rfl _ (by decide)).mpr
    (.inr (.inr fun _ => by decide))

/-- A write of two bytes is aborted by the watchdog with both bytes owed; an interrupt
that sees room in the FIFO still sends them. -/
theorem interrupt_after_abort_moves_data :
    (after Device.plain (World.powerOn (fun _ => 0) 0) ⟨2500, 2⟩ [.write 0x10 4 2]).xfer.active
        = false ∧
      ¬ Inert Device.plain
        { after Device.plain (World.powerOn (fun _ => 0) 0) ⟨2500, 2⟩ [.write 0x10 4 2] with
          words := Stream'.const S_TXD } := by
  decide

end Irq
end Bcm2837
