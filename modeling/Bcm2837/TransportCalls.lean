import Bcm2837.I2cDevTransport
import Bcm2837.IrqRuns

/-!
# Calls of the transport seam

The three implementations and the five operations of the seam, and what each BSC
transport does in one half of a transfer: it refuses bad arguments before it touches
anything, and otherwise hands the controller one length. The compound `writeRead` of the
BSC transports is two such halves in sequence.
-/
namespace Bcm2837

open Bsc

/-- An implementation of the seam; an open descriptor is not negative. -/
inductive Implementation
  | polled (maxSpins : ℕ)
  | interruptDriven (maxWaits : ℕ)
  | linuxDev (fd : ℕ)

def Implementation.transport : Implementation → I2cTransport
  | polled maxSpins => Bcm2837.polled maxSpins
  | interruptDriven maxWaits => Bcm2837.interruptDriven Irq.anyIrqs maxWaits
  | linuxDev fd => Bcm2837.linuxDev fd

/-- The transports that drive the controller themselves. -/
def Implementation.isBsc : Implementation → Bool
  | linuxDev _ => false
  | _ => true

/-- A call of one of the operations of the seam. -/
inductive Call
  | write (addr : Byte) (buf : Ptr) (len : ℕ)
  | read (addr : Byte) (buf : Ptr) (len : ℕ)
  | writeRead (addr : Byte) (wbuf : Ptr) (wlen : ℕ) (rbuf : Ptr) (rlen : ℕ)
  | readReg (addr reg : Byte) (buf : Ptr) (n : ℕ)
  | writeReg (addr reg value : Byte)

namespace Call

def exec (t : I2cTransport) : Call → TransportM I2cResult
  | write addr buf len => t.write addr buf len
  | read addr buf len => t.read addr buf len
  | writeRead addr wbuf wlen rbuf rlen => t.writeRead addr wbuf wlen rbuf rlen
  | readReg addr reg buf n => t.readReg addr reg buf n
  | writeReg addr reg value => t.writeReg addr reg value

def addr : Call → Byte
  | write addr _ _ => addr
  | read addr _ _ => addr
  | writeRead addr _ _ _ _ => addr
  | readReg addr _ _ _ => addr
  | writeReg addr _ _ => addr

/-- The buffers a caller passes. -/
def buffers : Call → List Ptr
  | write _ buf _ => [buf]
  | read _ buf _ => [buf]
  | writeRead _ wbuf _ rbuf _ => [wbuf, rbuf]
  | readReg _ _ buf _ => [buf]
  | writeReg _ _ _ => []

/-- The lengths of the phases of a transfer, in order. -/
def lengths : Call → List ℕ
  | write _ _ len => [len]
  | read _ _ len => [len]
  | writeRead _ _ wlen _ rlen => [wlen, rlen]
  | readReg _ _ _ n => [1, n]
  | writeReg _ _ _ => [2]

/-- A buffer is null, a length is 0 or the address has more than seven bits. -/
def bad (c : Call) : Bool :=
  c.buffers.any (· == nullptr) || c.lengths.any (· == 0) || ADDR_MAX < c.addr

/-- A write half that passes its check before a read half that does not. -/
def splits : Call → Bool
  | writeRead addr wbuf wlen rbuf rlen => !badArgs addr wbuf wlen && badArgs addr rbuf rlen
  | readReg addr _ buf n => !decide (ADDR_MAX < addr) && badArgs addr buf n
  | _ => false

end Call

variable {δ : Type}

/-- Looks at the transport's own record and local variables of the callee. -/
def Harmless : Cmd → Prop
  | .xfer => True
  | .localArray _ => True
  | _ => False

/-- The run touched neither the peripherals nor the kernel nor the caller's memory. -/
structure Untouched (w : World δ) (H : List (Cmd × World δ)) (w' : World δ) : Prop where
  commands : ∀ e ∈ H, Harmless e.1
  memory : ∀ p : ℕ, p ≤ w.frame ∨ w.frame + 2 < p → w'.mem p = w.mem p

/-- The byte counts handed to the controller, as `dataLength` reads them back, or to
the kernel. -/
def handed (H : List (Cmd × World δ)) : List ℕ :=
  H.flatMap fun e => match e.1 with
    | .bsc (.store .DLEN v) => [(v &&& 0xFFFF).toNat]
    | .ioctl msgs => msgs.map (·.len.toNat)
    | _ => []

theorem handed_append (H K : List (Cmd × World δ)) : handed (H ++ K) = handed H ++ handed K :=
  List.flatMap_append

theorem handed_closing {H : List (Cmd × World δ)} (hH : ∀ e ∈ H, Irq.Closing e.1) :
    handed H = [] := by
  refine List.flatMap_eq_nil_iff.mpr fun e he => ?_
  obtain ⟨c, s⟩ := e
  have hc := hH _ he
  cases c with
  | bsc a => cases a <;> rcases hc with rfl | rfl <;> rfl
  | _ => first | rfl | exact hc.elim

theorem handed_moves {H : List (Cmd × World δ)} (hH : ∀ e ∈ H, Irq.Moves e.1) :
    handed H = [] := by
  refine List.flatMap_eq_nil_iff.mpr fun e he => ?_
  obtain ⟨c, s⟩ := e
  have hc := hH _ he
  cases c with
  | bsc a =>
    cases a with
    | load r => rfl
    | store r v => cases r <;> first | rfl | exact hc.elim
  | _ => first | rfl | exact hc.elim

/-! ## Halves of a transfer -/

/-- One half of a transfer: a refusal before anything happens, or a transfer that
touches the controller, hands it one length and does not answer `badArg`. -/
structure Half (d : Device δ) (p : TransportM I2cResult) (bad : Bool) (len : ℕ) : Prop where
  refused : bad = true → p = pure .badArg
  result : bad = false → ∀ w, (p.run (world d) w).1 ≠ .badArg
  touches : bad = false → ∀ w, ∃ e ∈ p.history (world d) w, ∃ a, e.1 = .bsc a
  handed : bad = false → ∀ w, handed (p.history (world d) w) = [len % 65536]

variable (d : Device δ) (w : World δ)

theorem handed_setup (addr : Byte) (len : ℕ) :
    handed ((i2c (I2c.setup addr len)).history (world d) w) = [len % 65536] := by
  have hdrain := (Irq.closing_i2c I2c.steers_drain).mem_history (world d) w
  have hlen := I2c.dataLength_toNat len
  rw [I2c.setup, i2c_bind, Prog.history_bind, handed_append, handed_closing hdrain,
    List.nil_append, i2c_bind, Prog.history_bind]
  simpa [handed, history_i2c, I2c.slaveAddress, I2c.setDataLength] using hlen

theorem setup_touches (addr : Byte) (len : ℕ) :
    ∃ e ∈ (i2c (I2c.setup addr len)).history (world d) w, ∃ a, e.1 = .bsc a :=
  ⟨(.bsc (.load .C), w), List.mem_cons_self, _, rfl⟩

namespace Polled

theorem moves_writeLoop (buf : Ptr) (len spins i : ℕ) :
    (writeLoop buf len spins i).Only Irq.Moves := by
  induction spins generalizing i with
  | zero => trivial
  | succ spins ih =>
    refine Prog.Only.bind ⟨trivial, fun _ => trivial⟩ fun s => ?_
    split_ifs
    · trivial
    · trivial
    · refine Prog.Only.bind ⟨trivial, fun _ => trivial⟩ fun b => ?_
      exact Prog.Only.bind ⟨trivial, fun _ => trivial⟩ fun _ => ih _
    · trivial
    · exact ih _

theorem moves_readLoop (buf : Ptr) (len spins i : ℕ) :
    (readLoop buf len spins i).Only Irq.Moves := by
  induction spins generalizing i with
  | zero => trivial
  | succ spins ih =>
    refine Prog.Only.bind ⟨trivial, fun _ => trivial⟩ fun s => ?_
    split_ifs
    · trivial
    · trivial
    · refine Prog.Only.bind ⟨trivial, fun _ => trivial⟩ fun b => ?_
      exact Prog.Only.bind ⟨trivial, fun _ => trivial⟩ fun _ => ih _
    · trivial
    · trivial
    · exact ih _

theorem classify_ne_badArg (s : Word) : classify s ≠ .badArg := by
  unfold classify
  split_ifs <;> exact nofun

theorem yields_writeLoop (buf : Ptr) (len spins i : ℕ) :
    (writeLoop buf len spins i).Yields fun r => r.getD .timeout ≠ .badArg := by
  induction spins generalizing i with
  | zero => exact nofun
  | succ spins ih =>
    refine (Prog.yields_true _).bind fun s _ => ?_
    split_ifs
    · exact nofun
    · exact nofun
    · refine (Prog.yields_true _).bind fun b _ => ?_
      exact (Prog.yields_true _).bind fun _ _ => ih _
    · exact classify_ne_badArg s
    · exact ih _

theorem yields_readLoop (buf : Ptr) (len spins i : ℕ) :
    (readLoop buf len spins i).Yields fun r => r.getD .timeout ≠ .badArg := by
  induction spins generalizing i with
  | zero => exact nofun
  | succ spins ih =>
    refine (Prog.yields_true _).bind fun s _ => ?_
    split_ifs with _ _ _ _ hshort
    · exact nofun
    · exact nofun
    · refine (Prog.yields_true _).bind fun b _ => ?_
      exact (Prog.yields_true _).bind fun _ _ => ih _
    · exact nofun
    · exact classify_ne_badArg s
    · exact ih _

/-- Priming, a kick and a loop that only moves bytes make one half. -/
theorem half_of_loop (addr : Byte) (buf : Ptr) (len : ℕ) {kick : I2c.Io Unit}
    (hkick : kick.Only I2c.Steers) {loop : TransportM (Option I2cResult)}
    (hloop : loop.Only Irq.Moves) (hyields : loop.Yields fun r => r.getD .timeout ≠ .badArg) :
    Half d
      (if badArgs addr buf len then pure .badArg
        else prime addr len >>= fun _ => i2c kick >>= fun _ => loop >>= fun r =>
          pure (r.getD .timeout))
      (badArgs addr buf len) len := by
  refine ⟨fun h => if_pos h, fun h w => ?_, fun h w => ?_, fun h w => ?_⟩
  all_goals rw [h, if_neg Bool.false_ne_true, prime_eq]
  · have hall : (i2c (I2c.setup addr len) >>= fun _ => i2c kick >>= fun _ => loop >>= fun r =>
        pure (r.getD I2cResult.timeout)).Yields (· ≠ .badArg) :=
      (Prog.yields_true _).bind fun _ _ => (Prog.yields_true _).bind fun _ _ =>
        hyields.bind fun r hr => hr
    exact hall.run (world d) w
  · obtain ⟨e, he, ha⟩ := setup_touches d w addr len
    rw [Prog.history_bind]
    exact ⟨e, List.mem_append_left _ he, ha⟩
  · have hrest : ∀ v : World δ, handed ((i2c kick >>= fun _ => loop >>= fun r =>
        pure (r.getD I2cResult.timeout)).history (world d) v) = [] := by
      intro v
      rw [Prog.history_bind, handed_append,
        handed_closing ((Irq.closing_i2c hkick).mem_history (world d) v), Prog.history_bind,
        handed_append, handed_moves (hloop.mem_history (world d) _)]
      rfl
    rw [Prog.history_bind, handed_append, handed_setup, hrest, List.append_nil]

theorem half_write (maxSpins : ℕ) (addr : Byte) (buf : Ptr) (len : ℕ) :
    Half d (write maxSpins addr buf len) (badArgs addr buf len) len :=
  half_of_loop d addr buf len I2c.steers_startWrite (moves_writeLoop _ _ _ _)
    (yields_writeLoop _ _ _ _)

theorem half_read (maxSpins : ℕ) (addr : Byte) (buf : Ptr) (len : ℕ) :
    Half d (read maxSpins addr buf len) (badArgs addr buf len) len :=
  half_of_loop d addr buf len I2c.steers_startRead (moves_readLoop _ _ _ _)
    (yields_readLoop _ _ _ _)

end Polled

namespace Irq

/-- The record of a synchronous transfer: no callback, and a result that is not a
refusal. -/
def Synchronous (w : World δ) : Prop := w.xfer.cb = nullptr ∧ w.xfer.result ≠ .badArg

/-- Nothing is handed over in a run. -/
def HandsNothing (_ : World δ) (H : List (Cmd × World δ)) (_ : World δ) : Prop := handed H = []

theorem sequential_handsNothing : Prog.Sequential (@HandsNothing δ) where
  idle _ := rfl
  trans h₁ h₂ := by
    rw [HandsNothing, handed_append, h₁, h₂]
    rfl

theorem handsNothing_handleIrq :
    Prog.Triple (world d) HandsNothing Synchronous handleIrq fun _ => Synchronous := by
  have hmove : ∀ c, Moves c → ∀ w : World δ, Synchronous w →
      Synchronous (world d c w).2 ∧ HandsNothing w [(c, w)] (world d c w).2 := by
    intro c hc w hw
    obtain ⟨ti, ri, hx⟩ := moves_xfer d w hc
    refine ⟨by rw [Synchronous, hx]; exact hw, handed_moves ?_⟩
    simpa using hc
  refine triple_handleIrq sequential_handsNothing
    (fun w hw => (hmove .xfer trivial w hw).2) fun fuel => ?_
  refine triple_irqLoop sequential_handsNothing hmove (fun w r hw ha => ?_) fuel
  refine finish_keeps sequential_handsNothing w r (fun hcb => ⟨⟨hcb, action_ne_badArg ha⟩, ?_⟩)
    fun hcb => absurd hw.1 hcb
  intro H hH _
  have hstatus : handed [((Cmd.status : Cmd), w)] = [] := rfl
  rw [HandsNothing, ← List.singleton_append, handed_append, hstatus, handed_closing hH]
  rfl

theorem handsNothing_wait (maxWaits : ℕ) :
    Prog.Triple (world d) HandsNothing Synchronous (waitComplete anyIrqs maxWaits)
      fun r _ => r ≠ .badArg :=
  triple_waitComplete sequential_handsNothing (triple_look (fun _ _ => rfl) fun _ hw _ => hw.2)
    (triple_anyIrqs sequential_handsNothing (fun _ hw => ⟨hw, rfl⟩) (handsNothing_handleIrq d))
    (fun w _ => ⟨nofun, handed_closing (closing_abortTransfer.mem_history (world d) w)⟩) maxWaits

theorem handed_start (addr : Byte) (tx : Ptr) (tn : ℕ) (rx : Ptr) (rn : ℕ) (reading : Bool)
    (cb : Completion) (user : Ptr) :
    handed ((start addr tx tn rx rn reading cb user).history (world d) w) =
      [(if reading then rn else tn) % 65536] := by
  have hpublish := fun v : World δ =>
    handed_closing ((closing_publish tx tn rx rn reading cb user).mem_history (world d) v)
  have hrest := fun v : World δ =>
    handed_closing ((closing_i2c (I2c.steers_arm reading)).mem_history (world d) v)
  have hkick := fun v : World δ =>
    handed_closing ((closing_i2c (I2c.steers_kick reading)).mem_history (world d) v)
  have hfresh : handed [((Cmd.assign .fresh : Cmd), w)] = [] := rfl
  rw [start_eq, Prog.history_bind, handed_append, history_assign, hfresh, List.nil_append,
    Prog.history_bind, handed_append, hpublish, List.nil_append, I2c.launch, i2c_bind, bind_assoc,
    Prog.history_bind, handed_append, handed_setup, i2c_bind, bind_assoc, Prog.history_bind,
    handed_append, hrest, Prog.history_bind, handed_append, hkick]
  rfl

theorem start_touches (addr : Byte) (tx : Ptr) (tn : ℕ) (rx : Ptr) (rn : ℕ) (reading : Bool)
    (cb : Completion) (user : Ptr) :
    ∃ e ∈ (start addr tx tn rx rn reading cb user).history (world d) w,
      ∃ a, e.1 = .bsc a := by
  by_contra hnone
  have hhanded : handed ((start addr tx tn rx rn reading cb user).history (world d) w)
      = [] := by
    refine List.flatMap_eq_nil_iff.mpr fun e he => ?_
    obtain ⟨H, hH, hhist⟩ := history_start d w addr tx tn rx rn reading cb user
    obtain ⟨c, s⟩ := e
    rw [hhist] at he
    cases c with
    | bsc a => exact absurd ⟨(.bsc a, s), hhist ▸ he, a, rfl⟩ hnone
    | ioctl msgs =>
      rcases List.mem_cons.mp he with he | he
      · cases he
      · exact (hH _ he).elim
    | _ => rfl
  rw [handed_start] at hhanded
  cases hhanded

/-- A start and a wait make one half. -/
theorem half_of_start (maxWaits : ℕ) (addr : Byte) (buf : Ptr) (len : ℕ) (tx : Ptr) (tn : ℕ)
    (rx : Ptr) (rn : ℕ) (reading : Bool) (hlen : (if reading then rn else tn) = len) :
    Half d
      (if badArgs addr buf len then pure .badArg
        else start addr tx tn rx rn reading nullptr nullptr >>= fun _ =>
          waitComplete anyIrqs maxWaits)
      (badArgs addr buf len) len := by
  have hstarted : ∀ w : World δ, Synchronous
      ((start addr tx tn rx rn reading nullptr nullptr).run (world d) w).2 := by
    intro w
    rw [run_start]
    exact ⟨rfl, nofun⟩
  refine ⟨fun h => if_pos h, fun h w => ?_, fun h w => ?_, fun h w => ?_⟩
  all_goals rw [h, if_neg Bool.false_ne_true]
  · rw [Prog.run_bind]
    exact (handsNothing_wait d maxWaits _ (hstarted w)).1
  · obtain ⟨e, he, ha⟩ := start_touches d w addr tx tn rx rn reading nullptr nullptr
    rw [Prog.history_bind]
    exact ⟨e, List.mem_append_left _ he, ha⟩
  · have hwait : handed _ = [] := (handsNothing_wait d maxWaits _ (hstarted w)).2
    rw [Prog.history_bind, handed_append, handed_start, hwait, hlen, List.append_nil]

theorem half_write (maxWaits : ℕ) (addr : Byte) (buf : Ptr) (len : ℕ) :
    Half d (write anyIrqs maxWaits addr buf len) (badArgs addr buf len) len :=
  half_of_start d maxWaits addr buf len buf len nullptr 0 false rfl

theorem half_read (maxWaits : ℕ) (addr : Byte) (buf : Ptr) (len : ℕ) :
    Half d (read anyIrqs maxWaits addr buf len) (badArgs addr buf len) len :=
  half_of_start d maxWaits addr buf len nullptr 0 buf len true rfl

end Irq

/-! ## Whole transfers -/

/-- A transport whose transfers are made of halves. -/
structure Halves (d : Device δ) (t : I2cTransport) : Prop where
  write : ∀ addr buf len, Half d (t.write addr buf len) (badArgs addr buf len) len
  read : ∀ addr buf len, Half d (t.read addr buf len) (badArgs addr buf len) len
  writeRead : ∀ addr wbuf wlen rbuf rlen, t.writeRead addr wbuf wlen rbuf rlen = (do
    let w ← t.write addr wbuf wlen
    if w ≠ .ok then return w
    t.read addr rbuf rlen)

theorem halves_of_isBsc (i : Implementation) (hi : i.isBsc = true) : Halves d i.transport := by
  cases i with
  | polled maxSpins =>
    exact ⟨Polled.half_write d maxSpins, Polled.half_read d maxSpins, fun _ _ _ _ _ => rfl⟩
  | interruptDriven maxWaits =>
    exact ⟨Irq.half_write d maxWaits, Irq.half_read d maxWaits, fun _ _ _ _ _ => rfl⟩
  | linuxDev fd => cases hi

end Bcm2837
