import Bcm2837.IrqSteps

/-!
# What the functions of the polled transport do

Both polling loops take the same actions on a status word as the interrupt handler, with
the loop index in the place of the record's. This puts write and read of each transport
into one form, by direction.
-/
namespace Bcm2837

open Bsc

namespace Irq

/-- A record of a synchronous transfer in the given direction, with `i` bytes moved. -/
def progress (reading : Bool) (buf : Ptr) (len i : ℕ) : Xfer :=
  if reading then { rx := buf, rn := len, ri := i, reading := true, active := true }
  else { tx := buf, tn := len, ti := i, active := true }

theorem owed_progress (reading : Bool) (buf : Ptr) (len i : ℕ) :
    owed (progress reading buf len i) = len - i := by
  cases reading <;> simp [owed, progress]

/-- A pass that moves a byte of a transfer has one left to move, in its direction. -/
theorem action_progress {s : Word} {reading : Bool} {buf : Ptr} {len i : ℕ} :
    (action s (progress reading buf len i) = .pop → reading = true ∧ i < len) ∧
      (action s (progress reading buf len i) = .push → reading = false ∧ i < len) := by
  cases reading
  · exact ⟨fun ha => absurd (action_moves.1 ha).1 Bool.false_ne_true, action_moves.2⟩
  · exact ⟨action_moves.1, fun ha => absurd (action_moves.2 ha).1.symm Bool.false_ne_true⟩

/-- Publish the record of a synchronous transfer. -/
def publishFor (reading : Bool) (buf : Ptr) (len : ℕ) : TransportM Unit :=
  if reading then publish nullptr 0 buf len true nullptr nullptr
  else publish buf len nullptr 0 false nullptr nullptr

theorem closing_publishFor (reading : Bool) (buf : Ptr) (len : ℕ) :
    (publishFor reading buf len).Only Closing := by
  cases reading <;> exact closing_publish _ _ _ _ _ _ _

/-- A synchronous transfer starts: the record is published, the controller launched. -/
def begin (reading : Bool) (addr : Byte) (buf : Ptr) (len : ℕ) : TransportM Unit := do
  assign .fresh
  publishFor reading buf len
  i2c (I2c.launch addr len reading)

theorem run_begin {δ : Type} (d : Device δ) (w : World δ) (reading : Bool) (addr : Byte)
    (buf : Ptr) (len : ℕ) :
    (begin reading addr buf len).run (world d) w =
      ((), { w with
        xfer := progress reading buf len 0
        dev := ((I2c.launch addr len reading).run d.access w.dev).2 }) := by
  cases reading <;>
    simp [begin, publishFor, run_publish, published, progress, Assign.apply]

/-- A synchronous transfer of the interrupt-driven transport. -/
def transfer (wait : TransportM Unit) (maxWaits : ℕ) (reading : Bool) (addr : Byte) (buf : Ptr)
    (len : ℕ) : TransportM I2cResult := do
  begin reading addr buf len
  waitComplete wait maxWaits

theorem write_eq (wait : TransportM Unit) (maxWaits : ℕ) (addr : Byte) (buf : Ptr) (len : ℕ) :
    write wait maxWaits addr buf len =
      if badArgs addr buf len then return .badArg
      else transfer wait maxWaits false addr buf len := by
  simp only [write, transfer, begin, publishFor, start_eq, bind_assoc, pure_bind,
    Bool.false_eq_true, if_false]

theorem read_eq (wait : TransportM Unit) (maxWaits : ℕ) (addr : Byte) (buf : Ptr) (len : ℕ) :
    read wait maxWaits addr buf len =
      if badArgs addr buf len then return .badArg
      else transfer wait maxWaits true addr buf len := by
  simp only [read, transfer, begin, publishFor, start_eq, bind_assoc, pure_bind, if_true]

end Irq

namespace Polled

open Irq (action progress)

/-- Move byte `i` between the FIFO and the caller's buffer. -/
def move (reading : Bool) (buf : Ptr) (i : ℕ) : TransportM Unit :=
  if reading then do
    let b ← i2c I2c.readByte
    storeByte (buf + i) ((b &&& 0xFF).setWidth 8)
  else do
    let b ← loadByte (buf + i)
    i2c (I2c.writeByte (b.setWidth 32))

/-- Both polling loops, by direction. -/
def loop (reading : Bool) (buf : Ptr) (len : ℕ) : ℕ → ℕ → TransportM (Option I2cResult)
  | 0, _ => return none
  | spins + 1, i => do
    let s ← pollStatus
    match action s (progress reading buf len i) with
    | .finish r => return some r
    | .idle => loop reading buf len spins i
    | _ => do
      move reading buf i
      loop reading buf len spins (i + 1)

theorem writeLoop_eq (buf : Ptr) (len spins i : ℕ) :
    writeLoop buf len spins i = loop false buf len spins i := by
  induction spins generalizing i with
  | zero => rfl
  | succ spins ih =>
    rw [writeLoop, loop]
    refine congrArg _ (funext fun s => ?_)
    by_cases herr : Word.has s S_ERR
    · simp [action, herr]
    by_cases hclk : Word.has s S_CLKT
    · simp [action, herr, hclk]
    by_cases hpush : Word.has s S_TXD && i < len
    · have ha : action s (progress false buf len i) = .push := by
        simp [action, progress, herr, hclk, Bool.and_eq_true_iff.mp hpush]
      simp only [ha, if_neg herr, if_neg hclk, if_pos hpush, ih, move, Bool.false_eq_true,
        if_false, bind_assoc]
    have hidle : ¬ (Word.has s S_TXD = true ∧ i < len) := by simpa using hpush
    by_cases hdone : Word.has s S_DONE
    · have ha : action s (progress false buf len i) = .finish .ok := by
        simp [action, progress, herr, hclk, hidle, hdone]
      simp only [ha, if_neg herr, if_neg hclk, if_neg hpush, if_pos hdone, classify]
    · have ha : action s (progress false buf len i) = .idle := by
        simp [action, progress, herr, hclk, hidle, hdone]
      simp only [ha, if_neg herr, if_neg hclk, if_neg hpush, if_neg hdone, ih]

theorem readLoop_eq (buf : Ptr) (len spins i : ℕ) (hi : i ≤ len) :
    readLoop buf len spins i = loop true buf len spins i := by
  induction spins generalizing i with
  | zero => rfl
  | succ spins ih =>
    rw [readLoop, loop]
    refine congrArg _ (funext fun s => ?_)
    by_cases herr : Word.has s S_ERR
    · simp [action, herr]
    by_cases hclk : Word.has s S_CLKT
    · simp [action, herr, hclk]
    by_cases hpop : Word.has s S_RXD && i < len
    · have ha : action s (progress true buf len i) = .pop := by
        simp [action, progress, herr, hclk, Bool.and_eq_true_iff.mp hpop]
      have hnext : i + 1 ≤ len := (of_decide_eq_true (Bool.and_eq_true_iff.mp hpop).2)
      simp only [ha, if_neg herr, if_neg hclk, if_pos hpop, ih (i + 1) hnext, move, if_true,
        bind_assoc]
    have hidle : ¬ (Word.has s S_RXD = true ∧ i < len) := by simpa using hpop
    by_cases hdone : Word.has s S_DONE
    · have ha : action s (progress true buf len i) =
          .finish (if i < len then .timeout else classify s) := by
        by_cases hlt : i < len
        · have hroom : Word.has s S_RXD = false := by simpa [hlt] using hpop
          simp [action, progress, herr, hclk, hroom, hdone, hlt, Nat.ne_of_lt hlt]
        · have heq : i = len := by omega
          simp [action, progress, classify, herr, hclk, hdone, heq]
      simp only [ha, if_neg herr, if_neg hclk, if_neg hpop, if_pos hdone]
    · have ha : action s (progress true buf len i) = .idle := by
        simp [action, progress, herr, hclk, hidle, hdone]
      simp only [ha, if_neg herr, if_neg hclk, if_neg hpop, if_neg hdone, ih i hi]

section Run

variable {δ : Type} (d : Device δ) (w : World δ)

theorem run_loop_succ (reading : Bool) (buf : Ptr) (len spins i : ℕ) :
    (loop reading buf len (spins + 1) i).run (world d) w =
      match action (w.word d) (progress reading buf len i) with
      | .finish r => (some r, w.next)
      | .idle => (loop reading buf len spins i).run (world d) w.next
      | _ => (loop reading buf len spins (i + 1)).run (world d)
          ((move reading buf i).run (world d) w.next).2 := by
  rw [loop, Prog.run_bind, pollStatus, run_readStatus]
  dsimp only
  cases action (w.word d) (progress reading buf len i) <;> simp only [Prog.run_bind, Prog.run_pure]

theorem history_loop_succ (reading : Bool) (buf : Ptr) (len spins i : ℕ) :
    (loop reading buf len (spins + 1) i).history (world d) w = (.status, w) ::
      match action (w.word d) (progress reading buf len i) with
      | .finish _ => []
      | .idle => (loop reading buf len spins i).history (world d) w.next
      | _ => (move reading buf i).history (world d) w.next ++
          (loop reading buf len spins (i + 1)).history (world d)
            ((move reading buf i).run (world d) w.next).2 := by
  rw [loop, Prog.history_bind, pollStatus, run_readStatus, history_readStatus,
    List.singleton_append]
  congr 1
  dsimp only
  cases action (w.word d) (progress reading buf len i) <;>
    simp only [Prog.history_bind, Prog.history_pure]

theorem mem_move (reading : Bool) (buf i q : ℕ) (hq : reading = true → q ≠ buf + i) :
    ((move reading buf i).run (world d) w).2.mem q = w.mem q := by
  cases reading with
  | false => rfl
  | true => exact Function.update_of_ne (hq rfl) _ _

/-- The loop stores inside the buffer of a read and nowhere in a write. -/
theorem mem_loop (reading : Bool) (buf len spins i q : ℕ)
    (hq : reading = true → q < buf ∨ buf + len ≤ q) :
    ((loop reading buf len spins i).run (world d) w).2.mem q = w.mem q := by
  induction spins generalizing i w with
  | zero => rfl
  | succ spins ih =>
    rw [run_loop_succ]
    cases ha : action (w.word d) (progress reading buf len i) with
    | finish r => rfl
    | idle => exact ih w.next i
    | pop =>
      obtain ⟨rfl, hi⟩ := Irq.action_progress.1 ha
      have hne : q ≠ buf + i := by
        have hout := hq rfl
        omega
      exact (ih _ (i + 1)).trans (mem_move d w.next true buf i q fun _ => hne)
    | push =>
      obtain ⟨rfl, -⟩ := Irq.action_progress.2 ha
      exact (ih _ (i + 1)).trans (mem_move d w.next false buf i q nofun)

end Run

/-- A transfer of the polled transport; `none` is the budget running out. -/
def transfer (maxSpins : ℕ) (reading : Bool) (addr : Byte) (buf : Ptr) (len : ℕ) :
    TransportM (Option I2cResult) := do
  i2c (do I2c.setup addr len; I2c.kick reading)
  loop reading buf len maxSpins 0

theorem configures_start (addr : Byte) (len : ℕ) (reading : Bool) :
    (do I2c.setup addr len; I2c.kick reading : I2c.Io Unit).Only I2c.Configures :=
  (I2c.configures_setup addr len).bind fun _ =>
    (I2c.steers_kick reading).mono I2c.Steers.configures

theorem write_eq (maxSpins : ℕ) (addr : Byte) (buf : Ptr) (len : ℕ) :
    write maxSpins addr buf len =
      if badArgs addr buf len then return .badArg
      else do return (← transfer maxSpins false addr buf len).getD .timeout := by
  have hloop := writeLoop_eq buf len maxSpins 0
  simp only [write, prime_eq, transfer, hloop, i2c_bind, bind_assoc, I2c.kick,
    Bool.false_eq_true, if_false]

theorem read_eq (maxSpins : ℕ) (addr : Byte) (buf : Ptr) (len : ℕ) :
    read maxSpins addr buf len =
      if badArgs addr buf len then return .badArg
      else do return (← transfer maxSpins true addr buf len).getD .timeout := by
  have hloop := readLoop_eq buf len maxSpins 0 (Nat.zero_le _)
  simp only [read, prime_eq, transfer, hloop, i2c_bind, bind_assoc, I2c.kick, if_true]

section Memory

variable {δ : Type} (d : Device δ) (w : World δ)

theorem mem_transfer (maxSpins : ℕ) (reading : Bool) (addr : Byte) (buf len q : ℕ)
    (hq : reading = true → q < buf ∨ buf + len ≤ q) :
    ((transfer maxSpins reading addr buf len).run (world d) w).2.mem q = w.mem q := by
  rw [transfer, Prog.run_bind, run_i2c]
  exact mem_loop d _ reading buf len maxSpins 0 q hq

theorem mem_write (maxSpins : ℕ) (addr : Byte) (buf : Ptr) (len : ℕ) :
    ((write maxSpins addr buf len).run (world d) w).2.mem = w.mem := by
  rw [write_eq]
  split_ifs
  · rfl
  · rw [Prog.run_bind]
    exact funext fun q => mem_transfer d w maxSpins false addr buf len q nofun

theorem mem_read (maxSpins : ℕ) (addr : Byte) (buf len q : ℕ)
    (hq : q < buf ∨ buf + len ≤ q) :
    ((read maxSpins addr buf len).run (world d) w).2.mem q = w.mem q := by
  rw [read_eq]
  split_ifs
  · rfl
  · rw [Prog.run_bind]
    exact mem_transfer d w maxSpins true addr buf len q fun _ => hq

theorem mem_writeRead (maxSpins : ℕ) (addr : Byte) (wbuf wlen rbuf rlen q : ℕ)
    (hq : q < rbuf ∨ rbuf + rlen ≤ q) :
    ((writeRead maxSpins addr wbuf wlen rbuf rlen).run (world d) w).2.mem q = w.mem q := by
  have hwrite := congrFun (mem_write d w maxSpins addr wbuf wlen) q
  rw [writeRead, Prog.run_bind]
  split_ifs
  · exact hwrite
  · exact (mem_read d _ maxSpins addr rbuf rlen q hq).trans hwrite

end Memory

end Polled
end Bcm2837
