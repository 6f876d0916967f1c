import Bcm2837.ControlBits
import Bcm2837.PolledSteps
import Bcm2837.TransportCalls

/-!
# The interrupt-driven transport refines the polled one

Both transports run on the same status words and FIFO bytes. What can be told apart from
outside is the sequence of status reads (with the address, length and direction
programmed at that time), FIFO accesses and buffer accesses. A step of the polling loop
is matched by one pass of the interrupt handler, wherever that pass stands inside the
handler and the watchdog loop.
-/
namespace Bcm2837

open Bsc

/-- Registers as storage, and a FIFO that hands out a stream of words. -/
structure Streamed where
  regs : Register → Word
  fifo : Stream' Word

/-- The block with its status words and FIFO bytes left to the environment. -/
def Device.streamed : Device Streamed where
  access
    | .load .FIFO, s => (s.fifo.head, { s with fifo := s.fifo.tail })
    | .load r, s => (s.regs r, s)
    | .store r v, s => ((), { s with regs := Function.update s.regs r v })
  view word _ := word

/-- Bit `i` of the control register. -/
def Streamed.control (s : Streamed) (i : ℕ) : Bool := (s.regs .C).getLsbD i

/-- The address, length and direction programmed. -/
def Streamed.programmed (s : Streamed) : Word × Word × Bool :=
  (s.regs .A, s.regs .DLEN, s.control 0)

/-- The part of the surroundings that both transports work on. -/
structure Visible where
  words : Stream' Word
  fifo : Stream' Word
  mem : Ptr → Byte
  frame : ℕ
  programmed : Word × Word × Bool

def visible (w : World Streamed) : Visible :=
  ⟨w.words, w.dev.fifo, w.mem, w.frame, w.dev.programmed⟩

/-- A step that can be seen from outside. -/
inductive Event
  | status (word : Word) (programmed : Word × Word × Bool)
  | popped (v : Word)
  | pushed (v : Word)
  | loaded (p : Ptr) (b : Byte)
  | stored (p : Ptr) (b : Byte)
  deriving DecidableEq

def observe : Cmd × World Streamed → Option Event
  | (.status, w) => some (.status w.words.head w.dev.programmed)
  | (.bsc (.load .FIFO), w) => some (.popped w.dev.fifo.head)
  | (.bsc (.store .FIFO v), _) => some (.pushed v)
  | (.loadByte p, w) => some (.loaded p (w.mem p))
  | (.storeByte p b, _) => some (.stored p b)
  | _ => none

def observed (H : List (Cmd × World Streamed)) : List Event := H.filterMap observe

@[simp] theorem observed_append (H K : List (Cmd × World Streamed)) :
    observed (H ++ K) = observed H ++ observed K := List.filterMap_append

/-- Two programs, each in its own surroundings, cannot be told apart. -/
structure Agree {α : Type} (p q : TransportM α) (w w' : World Streamed) : Prop where
  result : (q.run (world Device.streamed) w').1 = (p.run (world Device.streamed) w).1
  trace : observed (q.history (world Device.streamed) w') =
    observed (p.history (world Device.streamed) w)
  visible : visible (q.run (world Device.streamed) w').2 =
    visible (p.run (world Device.streamed) w).2

namespace Agree

variable {α β : Type} {p q : TransportM α} {w w' : World Streamed}

theorem pure {a : α} (hw : Bcm2837.visible w' = Bcm2837.visible w) :
    Agree (Pure.pure a) (Pure.pure a) w w' := ⟨rfl, rfl, hw⟩

theorem bind {f g : α → TransportM β} (h : Agree p q w w')
    (hnext : Agree (f (p.run (world Device.streamed) w).1) (g (p.run (world Device.streamed) w).1)
      (p.run (world Device.streamed) w).2 (q.run (world Device.streamed) w').2) :
    Agree (p >>= f) (q >>= g) w w' := by
  have hres := h.result
  refine ⟨?_, ?_, ?_⟩
  · simp only [Prog.run_bind, hres]
    exact hnext.result
  · simp only [Prog.history_bind, observed_append, h.trace, hres]
    rw [hnext.trace]
  · simp only [Prog.run_bind, hres]
    exact hnext.visible

/-- Two programs that can be told apart no more after the same visible events. -/
theorem of_step {p' q' : TransportM α} {u u' : World Streamed} (es : List Event)
    (h : Agree p' q' u u')
    (hp : p.run (world Device.streamed) w = p'.run (world Device.streamed) u ∧
      observed (p.history (world Device.streamed) w) =
        es ++ observed (p'.history (world Device.streamed) u))
    (hq : q.run (world Device.streamed) w' = q'.run (world Device.streamed) u' ∧
      observed (q.history (world Device.streamed) w') =
        es ++ observed (q'.history (world Device.streamed) u')) : Agree p q w w' := by
  refine ⟨?_, ?_, ?_⟩
  · rw [hp.1, hq.1, h.result]
  · rw [hp.2, hq.2, h.trace]
  · rw [hp.1, hq.1, h.visible]

end Agree

section Moves

variable (w : World Streamed)

theorem visible_push (v : Word) :
    visible (world Device.streamed (.bsc (.store .FIFO v)) w).2 = visible w := by
  simp [visible, Streamed.programmed, Streamed.control, world, Device.streamed]

end Moves

/-- The move of one byte, by the polled transport and by the interrupt handler. -/
theorem agree_move (reading : Bool) (buf : Ptr) (len i : ℕ) (w w' : World Streamed)
    (hw : visible w' = visible w) :
    Agree (Polled.move reading buf i)
      (if reading then Irq.popByte (Irq.progress reading buf len i)
        else Irq.pushByte (Irq.progress reading buf len i)) w w' := by
  have hmem : w'.mem = w.mem := congrArg Visible.mem hw
  have hfifo : w'.dev.fifo = w.dev.fifo := congrArg Visible.fifo hw
  cases reading with
  | false =>
    refine ⟨rfl, ?_, ?_⟩
    · change [Event.loaded (buf + i) (w'.mem (buf + i)),
          .pushed ((w'.mem (buf + i)).setWidth 32 &&& 0xFF)] =
        [Event.loaded (buf + i) (w.mem (buf + i)),
          .pushed ((w.mem (buf + i)).setWidth 32 &&& 0xFF)]
      rw [hmem]
    · exact (visible_push _ _).trans (hw.trans (visible_push w _).symm)
  | true =>
    refine ⟨rfl, ?_, ?_⟩
    · change [Event.popped w'.dev.fifo.head,
          .stored (buf + i) ((w'.dev.fifo.head &&& 0xFF &&& 0xFF).setWidth 8)] =
        [Event.popped w.dev.fifo.head,
          .stored (buf + i) ((w.dev.fifo.head &&& 0xFF &&& 0xFF).setWidth 8)]
      rw [hfifo]
    · change ({ visible w' with
          fifo := w'.dev.fifo.tail
          mem := Function.update w'.mem (buf + i)
            ((w'.dev.fifo.head &&& 0xFF &&& 0xFF).setWidth 8) } : Visible) =
        { visible w with
          fifo := w.dev.fifo.tail
          mem := Function.update w.mem (buf + i)
            ((w.dev.fifo.head &&& 0xFF &&& 0xFF).setWidth 8) }
      rw [hw, hmem, hfifo]

/-! ## Programs that cannot be seen -/

theorem observe_internal {c : Cmd} (hc : Irq.Internal c) (w : World Streamed) :
    observe (c, w) = none := by
  cases c with
  | bsc a =>
    cases a with
    | load r => cases r <;> first | rfl | exact absurd rfl hc
    | store r v => cases r <;> first | rfl | exact absurd rfl hc
  | _ => first | rfl | exact hc.elim

theorem observed_internal {H : List (Cmd × World Streamed)} (hH : ∀ e ∈ H, Irq.Internal e.1) :
    observed H = [] :=
  List.filterMap_eq_nil_iff.mpr fun e he => observe_internal (hH e he) e.2

theorem storedBits_streamed :
    StoredBits (· = 0) Device.streamed Streamed.control where
  lt _ hi := by omega
  load _ _ _ := ⟨rfl, rfl⟩
  store s v i _ := by simp [Device.streamed, Streamed.control]
  others s a i _ hl hs := by
    cases a with
    | load r => cases r <;> rfl
    | store r v =>
      have hr : Register.C ≠ r := fun h => hs v (h ▸ rfl)
      simp [Device.streamed, Streamed.control, hr]

/-- Programs of the control and status registers keep address, length and FIFO. -/
theorem steers_keeps {p : I2c.Io Unit} (hp : p.Only I2c.Steers) (s : Streamed) :
    (p.run Device.streamed.access s).2.regs .A = s.regs .A ∧
      (p.run Device.streamed.access s).2.regs .DLEN = s.regs .DLEN ∧
      (p.run Device.streamed.access s).2.fifo = s.fifo := by
  refine hp.preserves (I := fun t => t.regs .A = s.regs .A ∧ t.regs .DLEN = s.regs .DLEN ∧
    t.fifo = s.fifo) (fun c hc t ht => ?_) s ⟨rfl, rfl, rfl⟩
  cases c with
  | load r => rcases hc with rfl | rfl <;> exact ht
  | store r v => rcases hc with rfl | rfl <;> simpa [Device.streamed] using ht

theorem visible_finished (w : World Streamed) (r : I2cResult) :
    visible (Irq.finished Device.streamed w r) = visible w := by
  obtain ⟨hA, hDLEN, hfifo⟩ := steers_keeps I2c.steers_quiesce w.dev
  have hREAD : (I2c.quiesce.run Device.streamed.access w.dev).2.control 0 =
      w.dev.control 0 := by
    simp [I2c.quiesce, bit_clrControl storedBits_streamed rfl,
      bit_clrStatus storedBits_streamed rfl, I2c.controlField]
  simp only [visible, Streamed.programmed, Irq.finished, hA, hDLEN, hREAD, hfifo]

/-- Starting a transfer programs the address, the length and the direction. -/
theorem programmed_started (addr : Byte) (len : ℕ) (reading : Bool) {p : I2c.Io Unit}
    (hp : p.Only I2c.Steers) (s : Streamed) :
    ((do I2c.setup addr len; p; I2c.kick reading : I2c.Io Unit).run
        Device.streamed.access s).2.programmed =
      (addr.setWidth 32 &&& 0x7F, BitVec.ofNat 32 len &&& 0xFFFF, reading) ∧
    ((do I2c.setup addr len; p; I2c.kick reading : I2c.Io Unit).run
        Device.streamed.access s).2.fifo = s.fifo := by
  simp only [Prog.run_bind]
  obtain ⟨hA, hDLEN, hfifo⟩ := steers_keeps (I2c.steers_kick reading)
    (p.run Device.streamed.access ((I2c.setup addr len).run Device.streamed.access s).2).2
  obtain ⟨hA', hDLEN', hfifo'⟩ := steers_keeps hp
    ((I2c.setup addr len).run Device.streamed.access s).2
  have hdrain := (steers_keeps I2c.steers_drain s).2.2
  have hsetup : ((I2c.setup addr len).run Device.streamed.access s).2.regs .A =
        addr.setWidth 32 &&& 0x7F ∧
      ((I2c.setup addr len).run Device.streamed.access s).2.regs .DLEN =
        BitVec.ofNat 32 len &&& 0xFFFF ∧
      ((I2c.setup addr len).run Device.streamed.access s).2.fifo = s.fifo := by
    refine ⟨?_, ?_, ?_⟩
    · simp [I2c.setup, I2c.slaveAddress, I2c.setDataLength, Device.streamed]
    · simp [I2c.setup, I2c.slaveAddress, I2c.setDataLength, Device.streamed]
    · simp only [I2c.setup, Prog.run_bind]
      exact hdrain
  have hREAD : ∀ t : Streamed,
      ((I2c.kick reading).run Device.streamed.access t).2.control 0 = reading := by
    intro t
    cases reading <;>
      simp [I2c.kick, I2c.startRead, I2c.startWrite, I2c.enable,
        bit_setControl storedBits_streamed rfl, I2c.controlField]
  refine ⟨?_, hfifo.trans (hfifo'.trans hsetup.2.2)⟩
  rw [Streamed.programmed, hA, hA', hDLEN, hDLEN', hREAD, hsetup.1, hsetup.2.1]

/-! ## The loops -/

/-- The watchdog loop on a finished record. -/
theorem run_waitLoop_done (wait : TransportM Unit) (m : ℕ) (hm : 0 < m) (w : World Streamed)
    (hdone : w.xfer.done = true) :
    (Irq.waitLoop wait m).run (world Device.streamed) w = (some w.xfer.result, w) ∧
      observed ((Irq.waitLoop wait m).history (world Device.streamed) w) = [] := by
  obtain ⟨m, rfl⟩ := Nat.exists_eq_succ_of_ne_zero (Nat.pos_iff_ne_zero.mp hm)
  have hx : xfer.run (world Device.streamed) w = (w.xfer, w) := rfl
  simp only [Irq.waitLoop, memBarrier, pure_bind, Prog.run_bind, Prog.history_bind, hx,
    if_pos hdone]
  exact ⟨rfl, rfl⟩

/-- The watchdog loop on a record that is not finished takes an interrupt. -/
theorem watch_step (m : ℕ) (w : World Streamed) (hdone : w.xfer.done = false) :
    (Irq.waitLoop Irq.handleIrq (m + 1)).run (world Device.streamed) w =
        (do Irq.irqLoop (Irq.owed w.xfer + 1); Irq.waitLoop Irq.handleIrq m :
          TransportM (Option I2cResult)).run (world Device.streamed) w ∧
      observed ((Irq.waitLoop Irq.handleIrq (m + 1)).history (world Device.streamed) w) =
        [] ++ observed ((do Irq.irqLoop (Irq.owed w.xfer + 1); Irq.waitLoop Irq.handleIrq m :
          TransportM (Option I2cResult)).history (world Device.streamed) w) := by
  have hx : xfer.run (world Device.streamed) w = (w.xfer, w) := rfl
  have hnot : ¬ w.xfer.done = true := by simp [hdone]
  rw [Irq.waitLoop, memBarrier, pure_bind, Prog.run_bind, Prog.history_bind, hx]
  dsimp only
  rw [if_neg hnot, Irq.handleIrq, memBarrier, pure_bind, bind_assoc, Prog.run_bind,
    Prog.history_bind, hx]
  exact ⟨rfl, rfl⟩

/-- What a polling loop goes on with after a pass. -/
def pollNext (reading : Bool) (buf : Ptr) (len n i : ℕ) : Irq.Action → TransportM (Option I2cResult)
  | .finish r => return some r
  | .idle => Polled.loop reading buf len n i
  | _ => do
    Polled.move reading buf i
    Polled.loop reading buf len n (i + 1)

/-- What the interrupt handler goes on with after a pass, followed by `k`. -/
def irqNext (x : Xfer) (fuel : ℕ) (k : TransportM (Option I2cResult)) :
    Irq.Action → TransportM (Option I2cResult)
  | .finish r => do Irq.finalize r; k
  | .pop => do Irq.popByte x; Irq.irqLoop fuel; k
  | .push => do Irq.pushByte x; Irq.irqLoop fuel; k
  | .idle => k

theorem poll_step (reading : Bool) (buf : Ptr) (len n i : ℕ) (w : World Streamed) :
    (Polled.loop reading buf len (n + 1) i).run (world Device.streamed) w =
        (pollNext reading buf len n i (Irq.action (w.word Device.streamed)
          (Irq.progress reading buf len i))).run (world Device.streamed) w.next ∧
      observed ((Polled.loop reading buf len (n + 1) i).history (world Device.streamed) w) =
        [.status w.words.head w.dev.programmed] ++
          observed ((pollNext reading buf len n i (Irq.action (w.word Device.streamed)
            (Irq.progress reading buf len i))).history (world Device.streamed) w.next) := by
  have hcons : ∀ H : List (Cmd × World Streamed), observed ((.status, w) :: H) =
      [.status w.words.head w.dev.programmed] ++ observed H := fun _ => rfl
  rw [Polled.run_loop_succ, Polled.history_loop_succ]
  cases Irq.action (w.word Device.streamed) (Irq.progress reading buf len i) <;>
    simp only [pollNext, Prog.run_bind, Prog.history_bind, Prog.run_pure, Prog.history_pure, hcons,
      observed_append, and_self]

theorem irq_step (fuel : ℕ) (k : TransportM (Option I2cResult)) (w : World Streamed) :
    (do Irq.irqLoop (fuel + 1); k : TransportM (Option I2cResult)).run (world Device.streamed) w =
        (irqNext w.xfer fuel k (Irq.action (w.word Device.streamed) w.xfer)).run
          (world Device.streamed) w.next ∧
      observed ((do Irq.irqLoop (fuel + 1); k : TransportM (Option I2cResult)).history
          (world Device.streamed) w) =
        [.status w.words.head w.dev.programmed] ++
          observed ((irqNext w.xfer fuel k (Irq.action (w.word Device.streamed) w.xfer)).history
            (world Device.streamed) w.next) := by
  have hpeek : observed (Irq.peek Device.streamed w) = [] :=
    observed_internal fun e he => (Irq.closing_peek _ w e he).internal
  have hcons : ∀ H : List (Cmd × World Streamed), observed ((.status, w) :: H) =
      [.status w.words.head w.dev.programmed] ++ observed H := fun _ => rfl
  rw [Prog.run_bind, Prog.history_bind, Irq.run_irqLoop_succ, Irq.history_irqLoop_succ]
  cases Irq.action (w.word Device.streamed) w.xfer <;>
    simp only [irqNext, Prog.run_bind, Prog.history_bind, observed_append, hcons, hpeek,
      List.nil_append, List.append_nil, List.append_assoc, and_self]

/-- A finished transfer is seen by the watchdog loop. -/
theorem agree_finish (r : I2cResult) (m : ℕ) (hm : 0 < m) (w w' : World Streamed)
    (hcb : w'.xfer.cb = nullptr) (hw : visible w' = visible w) :
    Agree (pure (some r)) (do Irq.finalize r; Irq.waitLoop Irq.handleIrq m) w w' := by
  obtain ⟨H, hH, -, hhist⟩ := Irq.history_finalize Device.streamed w' r
  have hrun := Irq.run_finalize Device.streamed w' r
  rw [if_pos hcb] at hrun hhist
  rw [List.append_nil] at hhist
  have hquiet : observed ((Irq.finalize r).history (world Device.streamed) w') = [] := by
    rw [hhist]
    exact observed_internal fun e he => (hH e he).internal
  obtain ⟨hdone, hnone⟩ := run_waitLoop_done Irq.handleIrq m hm
    (Irq.finished Device.streamed w' r) rfl
  refine ⟨?_, ?_, ?_⟩
  · rw [Prog.run_bind, hrun, hdone]
    rfl
  · rw [Prog.history_bind, hrun, observed_append, hquiet, hnone]
    rfl
  · rw [Prog.run_bind, hrun, hdone]
    exact (visible_finished w' r).trans hw

/-- A polling loop that ends within its budget, against the interrupt handler at any
point of its work and a watchdog budget that is no smaller. -/
theorem agree_loop (reading : Bool) (buf : Ptr) (len : ℕ) (n : ℕ) :
    ∀ (i fuel m : ℕ) (w w' : World Streamed), len - i < fuel → n ≤ m →
      w'.xfer = Irq.progress reading buf len i → visible w' = visible w →
      ((Polled.loop reading buf len n i).run (world Device.streamed) w).1 ≠ none →
      Agree (Polled.loop reading buf len n i)
        (do Irq.irqLoop fuel; Irq.waitLoop Irq.handleIrq m) w w' := by
  induction n with
  | zero => exact fun _ _ _ _ _ _ _ _ _ hends => absurd rfl hends
  | succ n ih =>
    intro i fuel m w w' hfuel hm hx hw hends
    obtain ⟨fuel, rfl⟩ := Nat.exists_eq_succ_of_ne_zero (Nat.ne_of_gt (Nat.zero_lt_of_lt hfuel))
    obtain ⟨m, rfl⟩ := Nat.exists_eq_succ_of_ne_zero (Nat.ne_of_gt (Nat.zero_lt_of_lt hm))
    have hword : w'.word Device.streamed = w.word Device.streamed :=
      congrArg (fun v => v.words.head) hw
    have hnext : visible w'.next = visible w.next :=
      congrArg (fun v : Visible => { v with words := v.words.tail }) hw
    have hstatus : Event.status w'.words.head w'.dev.programmed =
        .status w.words.head w.dev.programmed := by
      have hprog : w'.dev.programmed = w.dev.programmed := congrArg Visible.programmed hw
      have hhead : w'.words.head = w.words.head := hword
      rw [hprog, hhead]
    have hpoll := poll_step reading buf len n i w
    have hirq := irq_step fuel (Irq.waitLoop Irq.handleIrq (m + 1)) w'
    rw [hx, hword, hstatus] at hirq
    rw [hpoll.1] at hends
    refine Agree.of_step [.status w.words.head w.dev.programmed] ?_ hpoll hirq
    -- the same action on both sides; a byte moved uses up one pass of fuel
    cases ha : Irq.action (w.word Device.streamed) (Irq.progress reading buf len i) with
    | finish r =>
      have hcb : w'.next.xfer.cb = nullptr := by
        rw [World.next_xfer, hx]
        cases reading <;> rfl
      exact agree_finish r (m + 1) (Nat.succ_pos m) w.next w'.next hcb hnext
    | idle =>
      rw [ha] at hends
      have hdone : w'.next.xfer.done = false := by
        rw [World.next_xfer, hx]
        cases reading <;> rfl
      have howed : len - i < Irq.owed w'.next.xfer + 1 := by
        rw [World.next_xfer, hx, Irq.owed_progress]
        exact Nat.lt_succ_self _
      exact Agree.of_step [] (ih i _ m w.next w'.next howed (by omega) hx hnext hends)
        ⟨rfl, rfl⟩ (watch_step m w'.next hdone)
    | pop =>
      obtain ⟨rfl, hi⟩ := Irq.action_progress.1 ha
      have hmove := agree_move true buf len i w.next w'.next hnext
      have hx' : ((Irq.popByte (Irq.progress true buf len i)).run (world Device.streamed)
          w'.next).2.xfer = Irq.progress true buf len (i + 1) := by
        change (Assign.ri (i + 1)).apply w'.xfer = _
        rw [hx]
        rfl
      rw [ha, pollNext, Prog.run_bind] at hends
      · exact Agree.bind hmove (ih (i + 1) fuel (m + 1) _ _ (by omega) (by omega) hx'
          hmove.visible hends)
      all_goals exact nofun
    | push =>
      obtain ⟨rfl, hi⟩ := Irq.action_progress.2 ha
      have hmove := agree_move false buf len i w.next w'.next hnext
      have hx' : ((Irq.pushByte (Irq.progress false buf len i)).run (world Device.streamed)
          w'.next).2.xfer = Irq.progress false buf len (i + 1) := by
        change (Assign.ti (i + 1)).apply w'.xfer = _
        rw [hx]
        rfl
      rw [ha, pollNext, Prog.run_bind] at hends
      · exact Agree.bind hmove (ih (i + 1) fuel (m + 1) _ _ (by omega) (by omega) hx'
          hmove.visible hends)
      all_goals exact nofun

/-! ## Whole transfers -/

/-- The record once a synchronous transfer has been launched. -/
theorem observed_begin (reading : Bool) (addr : Byte) (buf : Ptr) (len : ℕ) (w : World Streamed) :
    observed ((Irq.begin reading addr buf len).history (world Device.streamed) w) = [] := by
  have hrest := ((Irq.closing_publishFor reading buf len).mono fun _ => Irq.Closing.internal).bind
    fun _ => Irq.internal_i2c (I2c.configures_launch addr len reading)
  rw [Irq.begin, Prog.history_bind, observed_append, observed_internal (hrest.mem_history _ _)]
  rfl

theorem agree_begin (reading : Bool) (addr : Byte) (buf : Ptr) (len : ℕ) (w w' : World Streamed)
    (hw : visible w' = visible w) :
    Agree (i2c (do I2c.setup addr len; I2c.kick reading)) (Irq.begin reading addr buf len)
      w w' := by
  have hpolled := programmed_started addr len reading (p := pure ()) trivial w.dev
  have hirq := programmed_started addr len reading (I2c.steers_arm reading) w'.dev
  have hquiet := (Irq.internal_i2c ((I2c.configures_setup addr len).bind fun _ =>
    (I2c.steers_kick reading).mono I2c.Steers.configures)).mem_history (world Device.streamed) w
  rw [pure_bind] at hpolled
  refine ⟨rfl, ?_, ?_⟩
  · rw [observed_begin, observed_internal hquiet]
  · have hwords : w'.words = w.words := congrArg Visible.words hw
    have hmem : w'.mem = w.mem := congrArg Visible.mem hw
    have hframe : w'.frame = w.frame := congrArg Visible.frame hw
    have hfifo : w'.dev.fifo = w.dev.fifo := congrArg Visible.fifo hw
    rw [Irq.run_begin, run_i2c]
    simp only [visible, I2c.launch]
    rw [hirq.1, hirq.2, hpolled.1, hpolled.2, hwords, hmem, hframe, hfifo]

/-- The two loops, from the start of a transfer. -/
theorem agree_loops (reading : Bool) (buf : Ptr) (len N M : ℕ) (hM : N + 1 ≤ M)
    (w w' : World Streamed) (hx : w'.xfer = Irq.progress reading buf len 0)
    (hw : visible w' = visible w)
    (hends : ((Polled.loop reading buf len N 0).run (world Device.streamed) w).1 ≠ none) :
    Agree (Polled.loop reading buf len N 0) (Irq.waitLoop Irq.handleIrq M) w w' := by
  obtain ⟨m, rfl⟩ := Nat.exists_eq_succ_of_ne_zero (Nat.ne_of_gt (Nat.zero_lt_of_lt hM))
  have hdone : w'.xfer.done = false := by
    rw [hx]
    cases reading <;> rfl
  have howed : len - 0 < Irq.owed w'.xfer + 1 := by
    rw [hx, Irq.owed_progress]
    exact Nat.lt_succ_self _
  exact Agree.of_step [] (agree_loop reading buf len N 0 _ m w w' howed (by omega) hx hw hends)
    ⟨rfl, rfl⟩ (watch_step m w' hdone)

theorem agree_transfer (reading : Bool) (addr : Byte) (buf : Ptr) (len N M : ℕ) (hM : N + 1 ≤ M)
    (w w' : World Streamed) (hw : visible w' = visible w)
    (hends : ((Polled.transfer N reading addr buf len).run (world Device.streamed) w).1 ≠ none) :
    Agree (do return (← Polled.transfer N reading addr buf len).getD .timeout)
      (Irq.transfer Irq.handleIrq M reading addr buf len) w w' := by
  have hbegin := agree_begin reading addr buf len w w' hw
  have hx : ((Irq.begin reading addr buf len).run (world Device.streamed) w').2.xfer =
      Irq.progress reading buf len 0 := by rw [Irq.run_begin]
  rw [Polled.transfer, Prog.run_bind] at hends
  have hloops := agree_loops reading buf len N M hM _ _ hx hbegin.visible hends
  rw [Polled.transfer, bind_assoc, Irq.transfer, Irq.waitComplete]
  refine Agree.bind hbegin (Agree.bind hloops ?_)
  cases hr : ((Polled.loop reading buf len N 0).run (world Device.streamed)
    ((i2c (do I2c.setup addr len; I2c.kick reading)).run (world Device.streamed) w).2).1 with
  | none => exact absurd hr hends
  | some r => exact Agree.pure hloops.visible

/-- A transfer of the polled transport is refused or ends before its budget does. -/
def Polled.Ends (maxSpins : ℕ) (reading : Bool) (addr : Byte) (buf : Ptr) (len : ℕ)
    (w : World Streamed) : Prop :=
  badArgs addr buf len = true ∨
    ((do
      prime addr len
      i2c (I2c.kick reading)
      if reading then readLoop buf len maxSpins 0 else writeLoop buf len maxSpins 0 :
        TransportM (Option I2cResult)).run (world Device.streamed) w).1 ≠ none

theorem Polled.Ends.transfer {N : ℕ} {reading : Bool} {addr : Byte} {buf : Ptr} {len : ℕ}
    {w : World Streamed} (h : Polled.Ends N reading addr buf len w)
    (hargs : ¬ badArgs addr buf len = true) :
    ((Polled.transfer N reading addr buf len).run (world Device.streamed) w).1 ≠ none := by
  have hends := h.resolve_left hargs
  have hloop := Polled.writeLoop_eq buf len N 0
  have hloop' := Polled.readLoop_eq buf len N 0 (Nat.zero_le _)
  have heq : (do
      prime addr len
      i2c (I2c.kick reading)
      if reading then readLoop buf len N 0 else writeLoop buf len N 0 :
        TransportM (Option I2cResult)) = Polled.transfer N reading addr buf len := by
    cases reading <;>
      simp only [prime_eq, Polled.transfer, hloop, hloop', i2c_bind, bind_assoc,
        Bool.false_eq_true, if_true, if_false]
  rwa [heq] at hends

/-- One half of a transfer, refusals included. -/
theorem agree_half (reading : Bool) (addr : Byte) (buf : Ptr) (len N M : ℕ) (hM : N + 1 ≤ M)
    (w w' : World Streamed) (hw : visible w' = visible w)
    (hends : Polled.Ends N reading addr buf len w) :
    Agree (if badArgs addr buf len then return .badArg
        else do return (← Polled.transfer N reading addr buf len).getD .timeout)
      (if badArgs addr buf len then return .badArg
        else Irq.transfer Irq.handleIrq M reading addr buf len) w w' := by
  by_cases hargs : badArgs addr buf len
  · rw [if_pos hargs, if_pos hargs]
    exact Agree.pure hw
  · rw [if_neg hargs, if_neg hargs]
    exact agree_transfer reading addr buf len N M hM w w' hw (hends.transfer hargs)

/-- The write half ends in time and, if it was Ok, so does the read half. -/
def Polled.BothEnd (maxSpins : ℕ) (addr : Byte) (wbuf : Ptr) (wlen : ℕ) (rbuf : Ptr) (rlen : ℕ)
    (w : World Streamed) : Prop :=
  Polled.Ends maxSpins false addr wbuf wlen w ∧
    (((Polled.write maxSpins addr wbuf wlen).run (world Device.streamed) w).1 = .ok →
      Polled.Ends maxSpins true addr rbuf rlen
        ((Polled.write maxSpins addr wbuf wlen).run (world Device.streamed) w).2)

theorem agree_writeRead (addr : Byte) (wbuf : Ptr) (wlen : ℕ) (rbuf : Ptr) (rlen N M : ℕ)
    (hM : N + 1 ≤ M) (w w' : World Streamed) (hw : visible w' = visible w)
    (hends : Polled.BothEnd N addr wbuf wlen rbuf rlen w) :
    Agree (Polled.writeRead N addr wbuf wlen rbuf rlen)
      (Irq.writeRead Irq.handleIrq M addr wbuf wlen rbuf rlen) w w' := by
  have hwrite := agree_half false addr wbuf wlen N M hM w w' hw hends.1
  rw [← Polled.write_eq, ← Irq.write_eq] at hwrite
  refine Agree.bind hwrite ?_
  by_cases hok : ((Polled.write N addr wbuf wlen).run (world Device.streamed) w).1 = .ok
  · have hnot : ¬ ((Polled.write N addr wbuf wlen).run (world Device.streamed) w).1 ≠ .ok :=
      not_not_intro hok
    rw [if_neg hnot, if_neg hnot, Polled.read_eq, Irq.read_eq]
    exact agree_half true addr rbuf rlen N M hM _ _ hwrite.visible (hends.2 hok)
  · rw [if_pos hok, if_pos hok]
    exact Agree.pure hwrite.visible

/-- The polling loops of a call end before their budgets do. -/
def Call.Ends (maxSpins : ℕ) (w : World Streamed) : Call → Prop
  | write addr buf len => Polled.Ends maxSpins false addr buf len w
  | read addr buf len => Polled.Ends maxSpins true addr buf len w
  | writeRead addr wbuf wlen rbuf rlen => Polled.BothEnd maxSpins addr wbuf wlen rbuf rlen w
  | readReg addr reg buf n =>
    let r := (localArray [reg]).run (world Device.streamed) w
    Polled.BothEnd maxSpins addr r.1 1 buf n r.2
  | writeReg addr reg value =>
    let r := (localArray [reg, value]).run (world Device.streamed) w
    Polled.Ends maxSpins false addr r.1 2 r.2

theorem agree_localArray (bs : List Byte) (w w' : World Streamed) (hw : visible w' = visible w) :
    Agree (localArray bs) (localArray bs) w w' := by
  have hframe : w'.frame = w.frame := congrArg Visible.frame hw
  refine ⟨congrArg (· + 1) hframe, rfl, ?_⟩
  change ({ visible w' with mem := place w'.mem (w'.frame + 1) bs } : Visible) =
    { visible w with mem := place w.mem (w.frame + 1) bs }
  have hmem : w'.mem = w.mem := congrArg Visible.mem hw
  rw [hw, hmem, hframe]

theorem agree_exec (c : Call) (N M : ℕ) (hM : N + 1 ≤ M) (w : World Streamed)
    (hends : c.Ends N w) :
    Agree (c.exec (polled N)) (c.exec (interruptDriven Irq.handleIrq M)) w w := by
  cases c with
  | write addr buf len =>
    have h := agree_half false addr buf len N M hM w w rfl hends
    rwa [← Polled.write_eq, ← Irq.write_eq] at h
  | read addr buf len =>
    have h := agree_half true addr buf len N M hM w w rfl hends
    rwa [← Polled.read_eq, ← Irq.read_eq] at h
  | writeRead addr wbuf wlen rbuf rlen =>
    exact agree_writeRead addr wbuf wlen rbuf rlen N M hM w w rfl hends
  | readReg addr reg buf n =>
    have hlocal := agree_localArray [reg] w w rfl
    exact Agree.bind hlocal
      (agree_writeRead addr _ 1 buf n N M hM _ _ hlocal.visible hends)
  | writeReg addr reg value =>
    have hlocal := agree_localArray [reg, value] w w rfl
    have h := agree_half false addr _ 2 N M hM _ _ hlocal.visible hends
    rw [← Polled.write_eq, ← Irq.write_eq] at h
    exact Agree.bind hlocal h

/-- The bytes that a call must leave alone: all but a read buffer and the callee's own
local array. -/
def Call.Spares (w : World Streamed) (q : ℕ) : Call → Prop
  | write .. => True
  | read _ buf len => q < buf ∨ buf + len ≤ q
  | writeRead _ _ _ rbuf rlen => q < rbuf ∨ rbuf + rlen ≤ q
  | readReg _ _ buf n => (q < buf ∨ buf + n ≤ q) ∧ (q < w.frame + 1 ∨ w.frame + 1 + 1 ≤ q)
  | writeReg .. => q < w.frame + 1 ∨ w.frame + 1 + 2 ≤ q

theorem spares_exec (c : Call) (N : ℕ) (w : World Streamed) (q : ℕ) (hq : c.Spares w q) :
    ((c.exec (polled N)).run (world Device.streamed) w).2.mem q = w.mem q := by
  cases c with
  | write addr buf len => exact congrFun (Polled.mem_write Device.streamed w N addr buf len) q
  | read addr buf len => exact Polled.mem_read Device.streamed w N addr buf len q hq
  | writeRead addr wbuf wlen rbuf rlen =>
    exact Polled.mem_writeRead Device.streamed w N addr wbuf wlen rbuf rlen q hq
  | readReg addr reg buf n =>
    exact (Polled.mem_writeRead Device.streamed _ N addr _ 1 buf n q hq.1).trans
      (place_outside w.mem [reg] hq.2)
  | writeReg addr reg value =>
    exact (congrFun (Polled.mem_write Device.streamed _ N addr _ 2) q).trans
      (place_outside w.mem [reg, value] hq)

/-- On any status words and FIFO bytes on which the polled transport ends within its
budget, the interrupt-driven transport with one wait more cannot be told apart from it:
same result, same visible events in the same order, same words and FIFO bytes left, same
memory, address, length and direction; and both leave the memory outside the read buffer
alone. -/
theorem interruptDriven_refines_polled (c : Call) (N M : ℕ) (hM : N + 1 ≤ M)
    (w : World Streamed) (hends : c.Ends N w) :
    Agree (c.exec (polled N)) (c.exec (interruptDriven Irq.handleIrq M)) w w ∧
      ∀ q, c.Spares w q →
        ((c.exec (interruptDriven Irq.handleIrq M)).run (world Device.streamed) w).2.mem q =
          w.mem q := by
  have hagree := agree_exec c N M hM w hends
  refine ⟨hagree, fun q hq => ?_⟩
  have hmem := congrArg Visible.mem hagree.visible
  exact (congrFun hmem q).trans (spares_exec c N w q hq)

/-- A register read: one byte out, then two bytes in over two interrupts. -/
theorem interruptDriven_refines_polled_readReg :
    Agree ((Call.readReg 0x48 0x05 100 2).exec (polled 4))
      ((Call.readReg 0x48 0x05 100 2).exec (interruptDriven Irq.handleIrq 5))
      { World.powerOn (⟨fun _ => 0, fun n => BitVec.ofNat 32 (7 + n)⟩ : Streamed) 0 with
        words := fun n => [S_TXD, S_DONE, S_RXD, 0, S_RXD, S_DONE].getD n 0 }
      { World.powerOn (⟨fun _ => 0, fun n => BitVec.ofNat 32 (7 + n)⟩ : Streamed) 0 with
        words := fun n => [S_TXD, S_DONE, S_RXD, 0, S_RXD, S_DONE].getD n 0 } :=
  (interruptDriven_refines_polled (.readReg 0x48 0x05 100 2) 4 5 (by decide) _
    ⟨.inr (by decide), fun _ => .inr (by decide)⟩).1

end Bcm2837
