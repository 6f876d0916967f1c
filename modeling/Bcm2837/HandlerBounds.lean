import Bcm2837.Loops
import Bcm2837.Traffic

/-!
# The interrupt handler ends and stays in bounds

`handleIrq` has a bound on its passes; here the source's loop has none, and leaves all
the same, because each round that goes on moves a byte that the record still owes. The
indices of the record stay within its lengths over any number of interrupts, whatever
the status words.
-/
namespace Bcm2837
namespace Irq

open Bsc

variable {δ : Type} {d : Device δ}

/-! ## Status reads -/

theorem sequential_unread :
    Prog.Sequential fun (_ : World δ) (H : List (Cmd × World δ)) (_ : World δ) =>
      statusReads H = 0 where
  idle _ := rfl
  trans h₁ h₂ := by rw [statusReads_append, h₁, h₂]

theorem statusReads_perform (c : AsyncCall) (w : World δ) :
    statusReads ((perform c).history (world d) w) = 0 := by
  obtain ⟨H, hH, hhist⟩ := history_call d w c
  have hcall : statusReads ((call c).history (world d) w) = 0 := by
    rw [hhist]
    split_ifs
    · rfl
    · exact (statusReads_internal hH : statusReads H = 0)
  rw [history_perform, statusReads_append, hcall]
  rfl

/-- Finishing a transfer reads no status word, whatever the callback does. -/
theorem statusReads_finalize (r : I2cResult) (w : World δ) :
    statusReads ((finalize r).history (world d) w) = 0 := by
  obtain ⟨H, hH, -, hhist⟩ := history_finalize d w r
  have hclosing := statusReads_internal fun e he => (hH e he).internal
  have hbody := triple_runBody (d := d) (P := fun _ => True) sequential_unread
    (fun c w _ => ⟨trivial, statusReads_perform c w⟩) w.bodies.head (entered d w r) trivial
  rw [hhist, statusReads_append, hclosing, Nat.zero_add]
  split_ifs
  · rfl
  · exact hbody.2

theorem statusReads_round (w : World δ) :
    statusReads ((handleIrqRound ()).history (world d) w) = 1 := by
  have hpeek : statusReads (peek d w) = 0 :=
    statusReads_internal fun e he => (closing_peek d w e he).internal
  have hone : ∀ H : List (Cmd × World δ), statusReads ((.status, w) :: H) = statusReads H + 1 :=
    fun H => List.countP_cons_of_pos rfl
  rw [history_handleIrqRound, hone, statusReads_append, hpeek, Nat.zero_add]
  cases action (w.word d) w.xfer with
  | finish r => rw [statusReads_finalize]
  | pop => rfl
  | push => rfl
  | idle => rfl

/-- A round that goes on settles one of the bytes owed. -/
theorem owed_round {w : World δ} {a : Unit}
    (hround : ((handleIrqRound ()).run (world d) w).1 = .inl a) :
    owed ((handleIrqRound ()).run (world d) w).2.xfer < owed w.xfer := by
  rw [run_handleIrqRound] at hround ⊢
  cases ha : action (w.word d) w.xfer with
  | finish r => simp [ha] at hround
  | pop => exact owed_popByte (holdsRecord_world d) w.next (action_moves.1 ha).2
  | push => exact owed_pushByte (holdsRecord_world d) w.next (action_moves.2 ha).2
  | idle => simp [ha] at hround

/-- With a bound above the bytes owed, the bounded loop is the source's loop: that one
leaves by itself, after a status read a round. -/
theorem leaves_irqLoop (fuel : ℕ) (w : World δ) (hfuel : owed w.xfer < fuel) :
    Prog.Leaves (world d) handleIrqRound
      (statusReads ((irqLoop fuel).history (world d) w)) () w
      ((irqLoop fuel).history (world d) w) () ((irqLoop fuel).run (world d) w).2 := by
  induction fuel generalizing w with
  | zero => exact absurd hfuel (Nat.not_lt_zero _)
  | succ fuel ih =>
    have hread := statusReads_round (d := d) w
    rw [irqLoop_eq_round, Prog.run_bind, Prog.history_bind, statusReads_append, hread]
    cases hb : ((handleIrqRound ()).run (world d) w).1 with
    | inr b =>
      dsimp only
      rw [Prog.history_pure, List.append_nil]
      exact .exit hb
    | inl a =>
      have hless := owed_round hb
      have hrest := ih ((handleIrqRound ()).run (world d) w).2 (by omega)
      dsimp only
      rw [Nat.add_comm]
      exact .again hb hrest

/-- Whatever way the source's loop leaves, `handleIrq` goes that way. -/
theorem handleIrq_of_leaves {n : ℕ} {w t : World δ} {K : List (Cmd × World δ)}
    (h : Prog.Leaves (world d) handleIrqRound n () w K () t) :
    handleIrq.run (world d) w = ((), t) ∧ handleIrq.history (world d) w = (.xfer, w) :: K ∧
      statusReads K = n ∧ n ≤ owed w.xfer + 1 := by
  have hloop := leaves_irqLoop (d := d) (owed w.xfer + 1) w (Nat.lt_succ_self _)
  obtain ⟨rfl, rfl, -, rfl⟩ := h.unique hloop
  refine ⟨rfl, rfl, rfl, ?_⟩
  refine h.rounds_le (I := fun _ _ => True) (fun _ w => owed w.xfer) ?_ trivial
  exact fun _ _ _ _ hround => ⟨trivial, owed_round hround⟩

/-! ## Indices within the lengths -/

def InRange (x : Xfer) : Prop := x.ri ≤ x.rn ∧ x.ti ≤ x.tn

/-- A buffer is accessed at an index below its length. -/
def InBuffer : Cmd × World δ → Prop
  | (.storeByte p _, w) => ∃ i < w.xfer.rn, p = w.xfer.rx + i
  | (.loadByte p, w) => ∃ i < w.xfer.tn, p = w.xfer.tx + i
  | _ => True

/-- In every state of a run the indices are within the lengths, and every buffer access is
within its buffer. -/
def Bounded (_ : World δ) (H : List (Cmd × World δ)) (_ : World δ) : Prop :=
  ∀ e ∈ H, InRange e.2.xfer ∧ InBuffer e

theorem sequential_bounded : Prog.Sequential (@Bounded δ) where
  idle _ := fun _ he => absurd he List.not_mem_nil
  trans h₁ h₂ := fun e he => (List.mem_append.mp he).elim (h₁ e) (h₂ e)

/-- A command that leaves the indices and lengths alone and reaches no buffer. -/
def Steady (d : Device δ) (c : Cmd) : Prop :=
  ∀ w : World δ, (world d c w).2.xfer.ri = w.xfer.ri ∧ (world d c w).2.xfer.rn = w.xfer.rn ∧
    (world d c w).2.xfer.ti = w.xfer.ti ∧ (world d c w).2.xfer.tn = w.xfer.tn ∧ InBuffer (c, w)

theorem steady_peripheral {c : Cmd} (hc : Peripheral c) : Steady d c := by
  intro w
  rw [peripheral_xfer d w hc]
  cases c <;> first | exact ⟨rfl, rfl, rfl, rfl, trivial⟩ | exact hc.elim

theorem steady_i2c {α : Type} (p : I2c.Io α) : (i2c p).Only (Steady d) :=
  (peripheral_i2c p).mono fun _ hc => steady_peripheral hc

theorem Steady.bounded {c : Cmd} (hc : Steady d c) (w : World δ) (hw : InRange w.xfer) :
    InRange (world d c w).2.xfer ∧ Bounded w [(c, w)] (world d c w).2 := by
  obtain ⟨hri, hrn, hti, htn, hbuf⟩ := hc w
  refine ⟨?_, fun e he => ?_⟩
  · unfold InRange
    rw [hri, hrn, hti, htn]
    exact hw
  · rw [List.mem_singleton.mp he]
    exact ⟨hw, hbuf⟩

/-- A command that leaves the indices alone and reaches no buffer. -/
def Fills (d : Device δ) (c : Cmd) : Prop :=
  ∀ w : World δ, (world d c w).2.xfer.ri = w.xfer.ri ∧ (world d c w).2.xfer.ti = w.xfer.ti ∧
    InBuffer (c, w)

theorem Steady.fills {c : Cmd} (hc : Steady d c) : Fills d c := by
  intro w
  obtain ⟨hri, -, hti, -, hbuf⟩ := hc w
  exact ⟨hri, hti, hbuf⟩

theorem fills_publish (tx : Ptr) (tn : ℕ) (rx : Ptr) (rn : ℕ) (reading : Bool)
    (cb : Completion) (user : Ptr) : (publish tx tn rx rn reading cb user).Only (Fills d) := by
  have hone : ∀ a : Assign, (∀ x, (a.apply x).ri = x.ri ∧ (a.apply x).ti = x.ti) →
      (assign a).Only (Fills d) :=
    fun a ha => ⟨fun w => ⟨(ha w.xfer).1, (ha w.xfer).2, trivial⟩, fun _ => trivial⟩
  refine (hone _ ?_).bind fun _ => (hone _ ?_).bind fun _ => (hone _ ?_).bind fun _ =>
    (hone _ ?_).bind fun _ => (hone _ ?_).bind fun _ => (hone _ ?_).bind fun _ =>
      (hone _ ?_).bind fun _ => hone _ ?_
  all_goals exact fun _ => ⟨rfl, rfl⟩

/-- A start begins with both indices at 0, within whatever lengths it publishes. -/
theorem bounded_start (addr : Byte) (tx : Ptr) (tn : ℕ) (rx : Ptr) (rn : ℕ) (reading : Bool)
    (cb : Completion) (user : Ptr) :
    Prog.Triple (world d) Bounded (fun w => InRange w.xfer)
      (start addr tx tn rx rn reading cb user) fun _ w => InRange w.xfer := by
  let Zeroed : World δ → Prop := fun w => w.xfer.ri = 0 ∧ w.xfer.ti = 0
  have hzero : ∀ w, Zeroed w → InRange w.xfer := by
    intro w hw
    unfold InRange
    rw [hw.1, hw.2]
    exact ⟨Nat.zero_le _, Nat.zero_le _⟩
  have hfills : ∀ {α : Type} {p : TransportM α}, p.Only (Fills d) →
      Prog.Triple (world d) Bounded Zeroed p fun _ => Zeroed := by
    intro α p hp
    refine Prog.Triple.of_only sequential_bounded hp fun c hc w hw => ?_
    obtain ⟨hri, hti, hbuf⟩ := hc w
    refine ⟨⟨hri.trans hw.1, hti.trans hw.2⟩, fun e he => ?_⟩
    rw [List.mem_singleton.mp he]
    exact ⟨hzero w hw, hbuf⟩
  have hfresh : Prog.Triple (world d) Bounded (fun w => InRange w.xfer) (assign .fresh)
      fun _ => Zeroed := by
    intro w hw
    refine ⟨⟨rfl, rfl⟩, fun e he => ?_⟩
    rw [List.mem_singleton.mp he]
    exact ⟨hw, trivial⟩
  have hlaunch : (i2c (I2c.launch addr (if reading then rn else tn) reading)).Only (Fills d) :=
    (steady_i2c _).mono fun _ => Steady.fills
  rw [start_eq]
  refine Prog.Triple.bind sequential_bounded hfresh fun _ =>
    Prog.Triple.bind sequential_bounded (hfills (fills_publish _ _ _ _ _ _ _)) fun _ =>
      Prog.Triple.bind sequential_bounded (hfills hlaunch) fun _ =>
        Prog.Triple.pure sequential_bounded hzero

theorem bounded_steady {α : Type} {p : TransportM α} (hp : p.Only (Steady d)) :
    Prog.Triple (world d) Bounded (fun w => InRange w.xfer) p fun _ w => InRange w.xfer :=
  Prog.Triple.of_only sequential_bounded hp fun _ hc w hw => hc.bounded w hw

theorem bounded_look : Prog.Triple (world d) Bounded (fun w => InRange w.xfer) xfer
    fun _ w => InRange w.xfer :=
  bounded_steady ⟨fun _ => ⟨rfl, rfl, rfl, rfl, trivial⟩, fun _ => trivial⟩

theorem bounded_perform (c : AsyncCall) :
    Prog.Triple (world d) Bounded (fun w => InRange w.xfer) (perform c)
      fun _ w => InRange w.xfer := by
  have hcall : Prog.Triple (world d) Bounded (fun w => InRange w.xfer) (call c)
      fun _ w => InRange w.xfer := by
    rw [call_eq]
    refine Prog.Triple.bind sequential_bounded bounded_look fun x =>
      Prog.Triple.ite _ (fun _ => Prog.Triple.pure sequential_bounded fun _ hw => hw) fun _ =>
        bounded_start _ _ _ _ _ _ _ _
  refine Prog.Triple.bind sequential_bounded hcall fun r => bounded_steady ?_
  exact ⟨fun _ => ⟨rfl, rfl, rfl, rfl, trivial⟩, fun _ => trivial⟩

theorem bounded_finalize (r : I2cResult) :
    Prog.Triple (world d) Bounded (fun w => InRange w.xfer) (finalize r)
      fun _ w => InRange w.xfer := by
  have hone : ∀ a : Assign, (∀ x, (a.apply x).ri = x.ri ∧ (a.apply x).rn = x.rn ∧
      (a.apply x).ti = x.ti ∧ (a.apply x).tn = x.tn) → (assign a).Only (Steady d) :=
    fun a ha => ⟨fun w => ⟨(ha w.xfer).1, (ha w.xfer).2.1, (ha w.xfer).2.2.1,
      (ha w.xfer).2.2.2, trivial⟩, fun _ => trivial⟩
  have hclose : (close r).Only (Steady d) := by
    refine (steady_i2c _).bind fun _ => (hone _ ?_).bind fun _ => (hone _ ?_).bind fun _ =>
      hone _ ?_
    all_goals exact fun _ => ⟨rfl, rfl, rfl, rfl⟩
  have henter : ∀ cb user, Prog.Triple (world d) Bounded (fun w => InRange w.xfer)
      (Prog.call (Cmd.enter cb r user) Prog.ret) fun _ w => InRange w.xfer :=
    fun cb user => bounded_steady ⟨fun _ => ⟨rfl, rfl, rfl, rfl, trivial⟩, fun _ => trivial⟩
  rw [finalize_close]
  refine Prog.Triple.bind sequential_bounded (bounded_steady hclose) fun _ =>
    Prog.Triple.bind sequential_bounded bounded_look fun x => Prog.Triple.ite _ (fun _ => ?_)
      fun _ => Prog.Triple.pure sequential_bounded fun _ hw => hw
  refine Prog.Triple.bind sequential_bounded
    (bounded_steady (hone (.cb nullptr) fun _ => ⟨rfl, rfl, rfl, rfl⟩)) fun _ =>
      Prog.Triple.bind sequential_bounded (henter _ _) fun body =>
        triple_runBody sequential_bounded bounded_perform body

theorem bounded_peek (w : World δ) (hw : InRange w.xfer) :
    Bounded w ((.status, w) :: peek d w) w.next := by
  intro e he
  rcases List.mem_cons.mp he with rfl | he
  · exact ⟨hw, trivial⟩
  · unfold peek at he
    split_ifs at he
    · exact absurd he List.not_mem_nil
    · rw [List.mem_singleton.mp he]
      exact ⟨hw, trivial⟩

theorem bounded_popByte (w : World δ) (hw : InRange w.xfer) (hri : w.xfer.ri < w.xfer.rn) :
    InRange ((popByte w.xfer).run (world d) w).2.xfer ∧
      Bounded w ((popByte w.xfer).history (world d) w) ((popByte w.xfer).run (world d) w).2 := by
  refine ⟨⟨hri, hw.2⟩, fun e he => ?_⟩
  rw [history_popByte] at he
  simp only [List.mem_cons, List.not_mem_nil, or_false] at he
  rcases he with rfl | rfl | rfl
  · exact ⟨hw, trivial⟩
  · exact ⟨hw, trivial⟩
  · exact ⟨⟨hri, hw.2⟩, w.xfer.ri, hri, rfl⟩

theorem bounded_pushByte (w : World δ) (hw : InRange w.xfer) (hti : w.xfer.ti < w.xfer.tn) :
    InRange ((pushByte w.xfer).run (world d) w).2.xfer ∧
      Bounded w ((pushByte w.xfer).history (world d) w)
        ((pushByte w.xfer).run (world d) w).2 := by
  refine ⟨⟨hw.1, hti⟩, fun e he => ?_⟩
  rw [history_pushByte] at he
  simp only [List.mem_cons, List.not_mem_nil, or_false] at he
  rcases he with rfl | rfl | rfl
  · exact ⟨hw, trivial⟩
  · exact ⟨⟨hw.1, hti⟩, w.xfer.ti, hti, rfl⟩
  · exact ⟨⟨hw.1, hti⟩, trivial⟩

/-- An interrupt, from a record whose indices are in range. -/
theorem bounded_handleIrq :
    Prog.Triple (world d) Bounded (fun w => InRange w.xfer) handleIrq
      fun _ w => InRange w.xfer := by
  refine triple_handleIrq sequential_bounded (fun w hw => (bounded_look (d := d) w hw).2) fun fuel =>
    triple_passes sequential_bounded ?_ ?_ ?_ ?_ fuel
  · exact fun w hw _ => ⟨hw, bounded_peek w hw⟩
  · intro w hw ha
    obtain ⟨hnext, hpop⟩ := bounded_popByte (d := d) w.next hw (action_moves.1 ha).2
    exact ⟨hnext, sequential_bounded.trans (bounded_peek w hw) hpop⟩
  · intro w hw ha
    obtain ⟨hnext, hpush⟩ := bounded_pushByte (d := d) w.next hw (action_moves.2 ha).2
    exact ⟨hnext, sequential_bounded.trans (bounded_peek w hw) hpush⟩
  · intro w r hw _
    obtain ⟨hnext, hfinish⟩ := bounded_finalize (d := d) r w.next hw
    exact ⟨hnext, sequential_bounded.trans (bounded_peek w hw) hfinish⟩

/-! ## The bytes of one transfer -/

/-- The indices count the traffic. -/
structure Tally (s : World δ) (H : List (Cmd × World δ)) (t : World δ) : Prop where
  ri_eq : t.xfer.ri = s.xfer.ri + pops H
  ti_eq : t.xfer.ti = s.xfer.ti + (pushes H).length
  rn_eq : t.xfer.rn = s.xfer.rn
  tn_eq : t.xfer.tn = s.xfer.tn
  inRange : InRange s.xfer → InRange t.xfer

theorem sequential_tally : Prog.Sequential (@Tally δ) where
  idle s := ⟨rfl, rfl, rfl, rfl, id⟩
  trans h₁ h₂ := by
    refine ⟨?_, ?_, h₂.rn_eq.trans h₁.rn_eq, h₂.tn_eq.trans h₁.tn_eq,
      fun hs => h₂.inRange (h₁.inRange hs)⟩
    · rw [h₂.ri_eq, h₁.ri_eq, pops_append, Nat.add_assoc]
    · rw [h₂.ti_eq, h₁.ti_eq, pushes_append, List.length_append, Nat.add_assoc]

/-- The indices count the traffic for as long as the record is not started over. -/
abbrev Counted : World δ → List (Cmd × World δ) → World δ → Prop := Prog.UpTo restarts Tally

theorem sequential_counted : Prog.Sequential (@Counted δ) :=
  Prog.sequential_upTo sequential_tally restarts

/-- Nothing counted: no traffic, and the indices and lengths as they were. -/
theorem tally_calm {s t : World δ} {H : List (Cmd × World δ)} (hpops : pops H = 0)
    (hpushes : pushes H = []) (hri : t.xfer.ri = s.xfer.ri) (hrn : t.xfer.rn = s.xfer.rn)
    (hti : t.xfer.ti = s.xfer.ti) (htn : t.xfer.tn = s.xfer.tn) : Tally s H t := by
  refine ⟨?_, ?_, hrn, htn, fun hs => ?_⟩
  · rw [hri, hpops, Nat.add_zero]
  · rw [hti, hpushes, List.length_nil, Nat.add_zero]
  · unfold InRange
    rw [hri, hrn, hti, htn]
    exact hs

/-- A status read and internal commands count for nothing. -/
theorem tally_internal {w t : World δ} {H : List (Cmd × World δ)} (hH : ∀ e ∈ H, Internal e.1)
    (hri : t.xfer.ri = w.xfer.ri) (hrn : t.xfer.rn = w.xfer.rn) (hti : t.xfer.ti = w.xfer.ti)
    (htn : t.xfer.tn = w.xfer.tn) : Tally w ((.status, w) :: H) t := by
  have hpops : pops ((.status, w) :: H) = pops H := rfl
  have hpushes : pushes ((.status, w) :: H) = pushes H := rfl
  refine tally_calm ?_ ?_ hri hrn hti htn
  · rw [hpops, pops_internal hH]
  · rw [hpushes, pushes_internal hH]

theorem tally_popByte (w : World δ) (hri : w.xfer.ri < w.xfer.rn) :
    Tally w ((popByte w.xfer).history (world d) w) ((popByte w.xfer).run (world d) w).2 :=
  ⟨rfl, rfl, rfl, rfl, fun hw => ⟨hri, hw.2⟩⟩

theorem tally_pushByte (w : World δ) (hti : w.xfer.ti < w.xfer.tn) :
    Tally w ((pushByte w.xfer).history (world d) w) ((pushByte w.xfer).run (world d) w).2 :=
  ⟨rfl, rfl, rfl, rfl, fun hw => ⟨hw.1, hti⟩⟩

theorem counted_handleIrq :
    Prog.Triple (world d) Counted (fun _ => True) handleIrq fun _ _ => True := by
  have hpeek : ∀ w : World δ, Tally w ((.status, w) :: peek d w) w.next :=
    fun w => tally_internal (fun e he => (closing_peek d w e he).internal) rfl rfl rfl rfl
  refine triple_life sequential_tally (fun w => tally_calm rfl rfl rfl rfl rfl rfl)
    (fun c w => tally_calm rfl rfl rfl rfl rfl rfl) (fun w _ => hpeek w) ?_ ?_ ?_
    fun w r => tally_calm rfl rfl rfl rfl rfl rfl
  · exact fun w ha => sequential_tally.trans (hpeek w) (tally_popByte w.next (action_moves.1 ha).2)
  · exact fun w ha => sequential_tally.trans (hpeek w) (tally_pushByte w.next (action_moves.2 ha).2)
  · exact fun w r _ H hH _ => tally_internal (fun e he => (hH e he).internal) rfl rfl rfl rfl

/-! ## Any number of interrupts -/

/-- From `w` to `t` nothing has touched the record but interrupts, and `H` is what these
have done; the thread may change anything else in between. -/
inductive Served (d : Device δ) (w : World δ) : List (Cmd × World δ) → World δ → Prop
  | started : Served d w [] w
  | handleIrq {H : List (Cmd × World δ)} {t : World δ} (h : Served d w H t) :
      Served d w (H ++ Irq.handleIrq.history (world d) t) (Irq.handleIrq.run (world d) t).2
  | elsewhere {H : List (Cmd × World δ)} {t u : World δ} (h : Served d w H t)
      (hxfer : u.xfer = t.xfer) : Served d w H u

theorem Served.inRange {w t : World δ} {H : List (Cmd × World δ)} (h : Served d w H t)
    (hw : InRange w.xfer) : InRange t.xfer := by
  induction h with
  | started => exact hw
  | handleIrq _ ih => exact (bounded_handleIrq _ ih).1
  | elsewhere _ hxfer ih =>
    rw [hxfer]
    exact ih

theorem Served.counted {w t : World δ} {H : List (Cmd × World δ)} (h : Served d w H t) :
    Counted w H t := by
  induction h with
  | started => exact sequential_counted.idle w
  | handleIrq _ ih => exact sequential_counted.trans ih (counted_handleIrq _ trivial).2
  | @elsewhere H t u _ hxfer ih =>
    have hsame : Tally t [] u := by
      refine tally_calm rfl rfl ?_ ?_ ?_ ?_
      all_goals rw [hxfer]
    have hall := sequential_counted.trans ih ((Prog.upTo_of_free (by simp)).mpr hsame)
    rwa [List.append_nil] at hall

/-- After a start and any number of interrupts, one more interrupt leaves its loop after
at most one status read more than the bytes owed, stays within the lengths and the buffers,
and the transfer pops and pushes no more bytes than it was started for. -/
theorem handleIrq_bounded (addr : Byte) (tx : Ptr) (tn : ℕ) (rx : Ptr) (rn : ℕ) (reading : Bool)
    (cb : Completion) (user : Ptr) (w₀ w : World δ) (H : List (Cmd × World δ))
    (hs : Served d ((start addr tx tn rx rn reading cb user).run (world d) w₀).2 H w) :
    (∃ n K t,
      Prog.Leaves (world d) handleIrqRound n () w K () t ∧
      handleIrq.run (world d) w = ((), t) ∧ handleIrq.history (world d) w = (.xfer, w) :: K ∧
      n ≤ (w.xfer.rn - w.xfer.ri) + (w.xfer.tn - w.xfer.ti) + 1 ∧ statusReads K = n ∧
      Bounded w K t ∧ InRange t.xfer) ∧
    pops (life H) ≤ rn ∧ (pushes (life H)).length ≤ tn := by
  have hstart : InRange ((start addr tx tn rx rn reading cb user).run (world d) w₀).2.xfer := by
    rw [run_start]
    exact ⟨Nat.zero_le _, Nat.zero_le _⟩
  have hw := hs.inRange hstart
  refine ⟨?_, ?_⟩
  · have hleaves := leaves_irqLoop (d := d) (owed w.xfer + 1) w (Nat.lt_succ_self _)
    obtain ⟨hrun, hhist, hreads, hn⟩ := handleIrq_of_leaves hleaves
    obtain ⟨hrange, hbounded⟩ := bounded_handleIrq (d := d) w hw
    exact ⟨_, _, _, hleaves, hrun, hhist, hn, hreads,
      fun e he => hbounded e (List.mem_cons_of_mem _ he), hrange⟩
  · obtain ⟨u, htally, -⟩ := hs.counted
    have hu := htally.inRange hstart
    have hri : u.xfer.ri = 0 + pops (life H) := by rw [htally.ri_eq, run_start]; rfl
    have hti : u.xfer.ti = 0 + (pushes (life H)).length := by rw [htally.ti_eq, run_start]; rfl
    have hrn : u.xfer.rn = rn := by rw [htally.rn_eq, run_start]; rfl
    have htn : u.xfer.tn = tn := by rw [htally.tn_eq, run_start]; rfl
    unfold InRange at hu
    omega

/-- A read of one byte with RXD stuck at 1, interrupted twice. -/
theorem handleIrq_bounded_stuck :
    let w₀ := World.powerOn (fun _ => (0 : Word)) S_RXD
    let w₁ := ((start 0x50 nullptr 0 8 1 true nullptr nullptr).run (world Device.plain) w₀).2
    let w₂ := (handleIrq.run (world Device.plain) w₁).2
    (∃ n K t, Prog.Leaves (world Device.plain) handleIrqRound n () w₂ K () t ∧
      statusReads K = n ∧ n ≤ 1) ∧
    pops (life (handleIrq.history (world Device.plain) w₁)) ≤ 1 := by
  intro w₀ w₁ w₂
  obtain ⟨⟨n, K, t, hleaves, -, -, hn, hreads, -⟩, hpops, -⟩ :=
    handleIrq_bounded 0x50 nullptr 0 8 1 true nullptr nullptr w₀ w₂ _
      (Served.handleIrq (d := Device.plain) Served.started)
  have howed : (w₂.xfer.rn - w₂.xfer.ri) + (w₂.xfer.tn - w₂.xfer.ti) = 0 := by decide
  exact ⟨⟨n, K, t, hleaves, hreads, by omega⟩, hpops⟩

end Irq
end Bcm2837
