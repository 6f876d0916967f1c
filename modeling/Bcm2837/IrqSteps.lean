import Bcm2837.I2cIrqTransport

/-!
# What the functions of the interrupt-driven transport do

Equations for what each function of the transport leaves behind, over any device.
`start` splits into the publication of the record and a program of the device, and
`finalize` into closing the record and entering the callback. One pass of the
interrupt handler is one of four actions, chosen by the status word and the record.
-/
namespace Bcm2837

open Bsc

variable {δ : Type} (d : Device δ) (w : World δ)

/-! ## Device programs of the transports -/

namespace I2c

/-- Clear the FIFO and the event bits. -/
def drain : Io Unit := do
  clearFifo
  clrStatus .DONE
  clrStatus .ERR
  clrStatus .CLKT_TO

/-- Clear the FIFO and the event bits, program address and length. -/
def setup (addr : Byte) (len : ℕ) : Io Unit := do
  drain
  slaveAddress (addr.setWidth 32)
  setDataLength (BitVec.ofNat 32 len)

/-- Enable the interrupts of a transfer in the given direction. -/
def arm (reading : Bool) : Io Unit := do
  setControl (if reading then .INTR else .INTT) 1
  setControl .INTD 1

/-- Kick a transfer in the given direction. -/
def kick (reading : Bool) : Io Unit := if reading then startRead else startWrite

/-- Acknowledge all events and disable all interrupts. -/
def quiesce : Io Unit := do
  clrStatus .DONE
  clrStatus .ERR
  clrStatus .CLKT_TO
  clrControl .INTD
  clrControl .INTT
  clrControl .INTR

/-- Disable all interrupts, clear the FIFO, acknowledge all events. -/
def reset : Io Unit := do
  clrControl .INTD
  clrControl .INTT
  clrControl .INTR
  clearFifo
  clrStatus .DONE
  clrStatus .ERR
  clrStatus .CLKT_TO

/-- The device half of `start`. -/
def launch (addr : Byte) (len : ℕ) (reading : Bool) : Io Unit := do
  setup addr len
  arm reading
  kick reading

theorem steers_drain : drain.Only Steers :=
  (steers_setControl _ _).bind fun _ => (steers_clrStatus _).bind fun _ =>
    (steers_clrStatus _).bind fun _ => steers_clrStatus _

theorem steers_arm (reading : Bool) : (arm reading).Only Steers :=
  (steers_setControl _ _).bind fun _ => steers_setControl _ _

theorem steers_kick (reading : Bool) : (kick reading).Only Steers := by
  cases reading
  · exact steers_startWrite
  · exact steers_startRead

theorem configures_setup (addr : Byte) (len : ℕ) : (setup addr len).Only Configures :=
  (steers_drain.mono Steers.configures).bind fun _ => (configures_slaveAddress _).bind fun _ =>
    configures_setDataLength _

theorem configures_launch (addr : Byte) (len : ℕ) (reading : Bool) :
    (launch addr len reading).Only Configures :=
  (configures_setup addr len).bind fun _ =>
    ((steers_arm reading).mono Steers.configures).bind fun _ =>
      (steers_kick reading).mono Steers.configures

theorem steers_quiesce : quiesce.Only Steers :=
  (steers_clrStatus _).bind fun _ => (steers_clrStatus _).bind fun _ =>
    (steers_clrStatus _).bind fun _ => (steers_clrControl _).bind fun _ =>
      (steers_clrControl _).bind fun _ => steers_clrControl _

theorem steers_reset : reset.Only Steers :=
  (steers_clrControl _).bind fun _ => (steers_clrControl _).bind fun _ =>
    (steers_clrControl _).bind fun _ => (steers_setControl _ _).bind fun _ =>
      (steers_clrStatus _).bind fun _ => (steers_clrStatus _).bind fun _ => steers_clrStatus _

end I2c

theorem i2c_bind {α β : Type} (p : I2c.Io α) (f : α → I2c.Io β) :
    i2c (p >>= f) = i2c p >>= fun a => i2c (f a) := Prog.lift_bind p f

theorem Polled.prime_eq (addr : Byte) (len : ℕ) :
    Polled.prime addr len = i2c (I2c.setup addr len) := by
  simp only [Polled.prime, I2c.setup, I2c.drain, i2c_bind, bind_assoc]

namespace Irq

/-- The assignments with which `start` fills a fresh record and makes it active. -/
def publish (tx : Ptr) (tn : ℕ) (rx : Ptr) (rn : ℕ) (reading : Bool) (cb : Completion)
    (user : Ptr) : TransportM Unit := do
  assign (.tx tx)
  assign (.tn tn)
  assign (.rx rx)
  assign (.rn rn)
  assign (.reading reading)
  assign (.cb cb)
  assign (.user user)
  assign (.active true)

theorem start_eq (addr : Byte) (tx : Ptr) (tn : ℕ) (rx : Ptr) (rn : ℕ) (reading : Bool)
    (cb : Completion) (user : Ptr) :
    start addr tx tn rx rn reading cb user = (do
      assign .fresh
      publish tx tn rx rn reading cb user
      i2c (I2c.launch addr (if reading then rn else tn) reading)
      return .ok) := by
  cases reading <;>
    simp only [start, publish, I2c.launch, I2c.setup, I2c.drain, I2c.arm, I2c.kick, i2c_bind,
      memBarrier,
      bind_assoc, pure_bind, Bool.false_eq_true, if_true, if_false]

/-- The record that `start` publishes. -/
def published (tx : Ptr) (tn : ℕ) (rx : Ptr) (rn : ℕ) (reading : Bool) (cb : Completion)
    (user : Ptr) : Xfer :=
  { tx := tx, tn := tn, rx := rx, rn := rn, reading := reading, cb := cb, user := user,
    active := true }

theorem run_publish (tx : Ptr) (tn : ℕ) (rx : Ptr) (rn : ℕ) (reading : Bool) (cb : Completion)
    (user : Ptr) (hw : w.xfer = {}) :
    (publish tx tn rx rn reading cb user).run (world d) w =
      ((), { w with xfer := published tx tn rx rn reading cb user }) := by
  simp [publish, published, Assign.apply, hw]

@[simp] theorem run_start (addr : Byte) (tx : Ptr) (tn : ℕ) (rx : Ptr) (rn : ℕ) (reading : Bool)
    (cb : Completion) (user : Ptr) :
    (start addr tx tn rx rn reading cb user).run (world d) w =
      (.ok, { w with
        xfer := published tx tn rx rn reading cb user
        dev := ((I2c.launch addr (if reading then rn else tn) reading).run d.access
          w.dev).2 }) := by
  simp [start_eq, run_publish, Assign.apply]

theorem finalize_eq (r : I2cResult) :
    finalize r = (do
      i2c I2c.quiesce
      assign (.result r)
      assign (.done true)
      assign (.active false)
      let x ← xfer
      if x.cb ≠ nullptr then
        assign (.cb nullptr)
        complete x.cb r x.user) := by
  simp only [finalize, I2c.quiesce, i2c_bind, memBarrier, bind_assoc, pure_bind]

theorem abortTransfer_eq :
    abortTransfer = (do
      i2c I2c.reset
      assign (.active false)) := by
  simp only [abortTransfer, I2c.reset, i2c_bind, bind_assoc]

/-- Commands to the peripherals alone. -/
def Peripheral : Cmd → Prop
  | .bsc _ => True
  | .gpio _ => True
  | .irq _ => True
  | _ => False

theorem peripheral_i2c {α : Type} (p : I2c.Io α) : (i2c p).Only Peripheral :=
  Prog.only_lift (fun _ => trivial) p

theorem peripheral_gpio {α : Type} (p : Gpio.Io α) : (gpio p).Only Peripheral :=
  Prog.only_lift (fun _ => trivial) p

theorem peripheral_irq {α : Type} (p : Interrupt.Io Isr α) : (irq p).Only Peripheral :=
  Prog.only_lift (fun _ => trivial) p

theorem peripheral_busInit (divider : BitVec 16) : (busInit divider).Only Peripheral :=
  (peripheral_gpio _).bind fun _ => (peripheral_gpio _).bind fun _ =>
    (peripheral_i2c _).bind fun _ => (peripheral_i2c _).bind fun _ =>
      (peripheral_irq _).bind fun _ => (peripheral_irq _).bind fun _ => trivial

theorem peripheral_xfer {c : Cmd} (hc : Peripheral c) : (world d c w).2.xfer = w.xfer := by
  cases c <;> first | rfl | exact hc.elim

/-! ## Asynchronous calls -/

/-- Commands that neither move data, nor enter a callback, nor report a call, nor start
the record over. -/
def Internal : Cmd → Prop
  | .bsc a => I2c.Configures a
  | .assign a => a ≠ .fresh
  | .xfer => True
  | _ => False

/-- Internal commands that reach only the control and status registers. -/
def Closing : Cmd → Prop
  | .bsc a => I2c.Steers a
  | .assign a => a ≠ .fresh
  | .xfer => True
  | _ => False

theorem Closing.internal {c : Cmd} (h : Closing c) : Internal c := by
  cases c <;> first | exact I2c.Steers.configures _ h | exact h

theorem closing_assign {a : Assign} (ha : a ≠ .fresh) : (assign a).Only Closing :=
  ⟨ha, fun _ => trivial⟩

theorem closing_i2c {α : Type} {p : I2c.Io α} (hp : p.Only I2c.Steers) : (i2c p).Only Closing :=
  hp.lift fun _ ha => ha

theorem internal_i2c {α : Type} {p : I2c.Io α} (hp : p.Only I2c.Configures) :
    (i2c p).Only Internal :=
  hp.lift fun _ ha => ha

theorem closing_publish (tx : Ptr) (tn : ℕ) (rx : Ptr) (rn : ℕ) (reading : Bool)
    (cb : Completion) (user : Ptr) : (publish tx tn rx rn reading cb user).Only Closing := by
  refine (closing_assign ?_).bind fun _ => (closing_assign ?_).bind fun _ =>
    (closing_assign ?_).bind fun _ => (closing_assign ?_).bind fun _ =>
      (closing_assign ?_).bind fun _ => (closing_assign ?_).bind fun _ =>
        (closing_assign ?_).bind fun _ => closing_assign ?_
  all_goals exact nofun

/-- A start throws the old record away and goes on internally. -/
theorem history_start (addr : Byte) (tx : Ptr) (tn : ℕ) (rx : Ptr) (rn : ℕ) (reading : Bool)
    (cb : Completion) (user : Ptr) :
    ∃ H : List (Cmd × World δ), (∀ e ∈ H, Internal e.1) ∧
      (start addr tx tn rx rn reading cb user).history (world d) w = (.assign .fresh, w) :: H := by
  have hrest : (publish tx tn rx rn reading cb user >>= fun _ =>
      i2c (I2c.launch addr (if reading then rn else tn) reading) >>= fun _ =>
        pure I2cResult.ok).Only Internal :=
    ((closing_publish _ _ _ _ _ _ _).mono fun _ => Closing.internal).bind fun _ =>
      (internal_i2c (I2c.configures_launch _ _ _)).bind fun _ => trivial
  rw [start_eq, Prog.history_bind]
  exact ⟨_, hrest.mem_history (world d) _, rfl⟩

end Irq

namespace AsyncCall

def addr : AsyncCall → Byte
  | writeAsync addr _ _ _ _ => addr
  | readAsync addr _ _ _ _ => addr

def buf : AsyncCall → Ptr
  | writeAsync _ buf _ _ _ => buf
  | readAsync _ buf _ _ _ => buf

def len : AsyncCall → ℕ
  | writeAsync _ _ len _ _ => len
  | readAsync _ _ len _ _ => len

def cb : AsyncCall → Completion
  | writeAsync _ _ _ cb _ => cb
  | readAsync _ _ _ cb _ => cb

def user : AsyncCall → Ptr
  | writeAsync _ _ _ _ user => user
  | readAsync _ _ _ _ user => user

def reading : AsyncCall → Bool
  | writeAsync .. => false
  | readAsync .. => true

/-- The guard of the asynchronous calls. -/
def refused (c : AsyncCall) (x : Xfer) : Bool := badArgs c.addr c.buf c.len || x.active

/-- The record an accepted call publishes. -/
def record (c : AsyncCall) : Xfer :=
  if c.reading then Irq.published nullptr 0 c.buf c.len true c.cb c.user
  else Irq.published c.buf c.len nullptr 0 false c.cb c.user

@[simp] theorem record_active (c : AsyncCall) : c.record.active = true := by cases c <;> rfl
@[simp] theorem record_cb (c : AsyncCall) : c.record.cb = c.cb := by cases c <;> rfl

end AsyncCall

namespace Irq

theorem call_eq (c : AsyncCall) :
    call c = (do
      let x ← xfer
      if c.refused x then return .badArg
      start c.addr c.record.tx c.record.tn c.record.rx c.record.rn c.reading c.cb c.user) := by
  cases c <;> rfl

/-- The surroundings once a call has been started. -/
def launched (c : AsyncCall) : World δ :=
  { w with
    xfer := c.record
    dev := ((I2c.launch c.addr c.len c.reading).run d.access w.dev).2 }

theorem run_call (c : AsyncCall) :
    (call c).run (world d) w =
      if c.refused w.xfer then (.badArg, w) else (.ok, launched d w c) := by
  rw [call_eq, Prog.run_bind, run_xfer]
  dsimp only
  by_cases h : c.refused w.xfer
  · simp only [if_pos h, Prog.run_pure]
  · simp only [if_neg h, run_start]
    cases c <;> rfl

theorem history_call (c : AsyncCall) :
    ∃ H : List (Cmd × World δ), (∀ e ∈ H, Internal e.1) ∧
      (call c).history (world d) w =
        (.xfer, w) :: if c.refused w.xfer then [] else (.assign .fresh, w) :: H := by
  obtain ⟨H, hH, hhist⟩ := history_start d w c.addr c.record.tx c.record.tn c.record.rx
    c.record.rn c.reading c.cb c.user
  refine ⟨H, hH, ?_⟩
  rw [call_eq, Prog.history_bind, run_xfer]
  dsimp only
  by_cases h : c.refused w.xfer
  · simp only [if_pos h, Prog.history_pure]
    rfl
  · simp only [if_neg h, hhist]
    rfl

theorem run_perform (c : AsyncCall) :
    (perform c).run (world d) w = (call c).run (world d) w := by
  rw [perform, Prog.run_bind]
  rfl

theorem history_perform (c : AsyncCall) :
    (perform c).history (world d) w = (call c).history (world d) w ++
      [(.returned c ((call c).run (world d) w).1, ((call c).run (world d) w).2)] := by
  rw [perform, Prog.history_bind]
  rfl

/-! ## Finishing a transfer -/

/-- The surroundings once `finalize` has closed the record. -/
def finished (r : I2cResult) : World δ :=
  { w with
    dev := (I2c.quiesce.run d.access w.dev).2
    xfer := { w.xfer with result := r, done := true, active := false } }

/-- The surroundings in which a completion callback is entered. -/
def entering (r : I2cResult) : World δ :=
  { finished d w r with xfer := { (finished d w r).xfer with cb := nullptr } }

/-- The surroundings in which the callback's body starts. -/
def entered (r : I2cResult) : World δ := { entering d w r with bodies := w.bodies.tail }

theorem run_finalize (r : I2cResult) :
    (finalize r).run (world d) w =
      if w.xfer.cb = nullptr then ((), finished d w r)
      else (runBody w.bodies.head).run (world d) (entered d w r) := by
  rw [finalize_eq]
  by_cases hcb : w.xfer.cb = nullptr
  · simp [Assign.apply, finished, hcb]
  · simp [Assign.apply, hcb, complete]
    rfl

/-- The part of `finalize` that closes the record. -/
def close (r : I2cResult) : TransportM Unit := do
  i2c I2c.quiesce
  assign (.result r)
  assign (.done true)
  assign (.active false)

theorem closing_close (r : I2cResult) : (close r).Only Closing := by
  refine (closing_i2c I2c.steers_quiesce).bind fun _ => (closing_assign ?_).bind fun _ =>
    (closing_assign ?_).bind fun _ => closing_assign ?_
  all_goals exact nofun

theorem run_close (r : I2cResult) : (close r).run (world d) w = ((), finished d w r) := by
  simp [close, Assign.apply, finished]

theorem finalize_close (r : I2cResult) :
    finalize r = close r >>= fun _ => xfer >>= fun x =>
      if x.cb ≠ nullptr then (do assign (.cb nullptr); complete x.cb r x.user) else pure () := by
  simp only [finalize_eq, close, bind_assoc]

/-- The result that a finalisation puts on record. -/
def reported : Cmd → Option I2cResult
  | .assign (.result r) => some r
  | _ => none

/-- The results of the finalisations in a history. -/
def reports (H : List (Cmd × World δ)) : List I2cResult := H.filterMap fun e => reported e.1

@[simp] theorem reports_append (H K : List (Cmd × World δ)) :
    reports (H ++ K) = reports H ++ reports K := List.filterMap_append

theorem reports_i2c {α : Type} (p : I2c.Io α) : reports ((i2c p).history (world d) w) = [] := by
  refine List.filterMap_eq_nil_iff.mpr fun e he => ?_
  rw [history_i2c] at he
  obtain ⟨a, -, rfl⟩ := List.mem_map.mp he
  rfl

theorem reports_close (r : I2cResult) : reports ((close r).history (world d) w) = [r] := by
  rw [close, Prog.history_bind, reports_append, reports_i2c]
  rfl

/-- Finishing closes the record, with one report, and enters the callback. -/
theorem history_finalize (r : I2cResult) :
    ∃ H : List (Cmd × World δ), (∀ e ∈ H, Closing e.1) ∧ reports H = [r] ∧
      (finalize r).history (world d) w = H ++
        if w.xfer.cb = nullptr then []
        else (.enter w.xfer.cb r w.xfer.user, entering d w r) ::
          (runBody w.bodies.head).history (world d) (entered d w r) := by
  have hclose := (closing_close r).mem_history (world d) w
  by_cases hcb : w.xfer.cb = nullptr
  · refine ⟨(close r).history (world d) w ++ [(.xfer, finished d w r)], ?_, ?_, ?_⟩
    · intro e he
      rcases List.mem_append.mp he with he | he
      · exact hclose e he
      · rw [List.mem_singleton.mp he]
        trivial
    · rw [reports_append, reports_close]
      rfl
    · simp [finalize_close, run_close, finished, hcb]
  · refine ⟨(close r).history (world d) w ++ [(.xfer, finished d w r),
      (.assign (.cb nullptr), finished d w r)], ?_, ?_, ?_⟩
    · intro e he
      rcases List.mem_append.mp he with he | he
      · exact hclose e he
      · rcases List.mem_pair.mp he with rfl | rfl
        · trivial
        · exact nofun
    · rw [reports_append, reports_close]
      rfl
    · simp [finalize_close, run_close, finished, entering, entered, hcb, complete, Assign.apply]
      rfl

theorem closing_abortTransfer : abortTransfer.Only Closing := by
  rw [abortTransfer_eq]
  exact (closing_i2c I2c.steers_reset).bind fun _ => closing_assign nofun

/-! ## One pass of the interrupt handler -/

/-- What one pass of the handler does on a status word. -/
inductive Action
  | finish (r : I2cResult)
  | pop
  | push
  | idle
  deriving DecidableEq

def action (s : Word) (x : Xfer) : Action :=
  if Word.has s S_ERR then .finish .nack
  else if Word.has s S_CLKT then .finish .clockTimeout
  else if x.reading && (Word.has s S_RXD && x.ri < x.rn) then .pop
  else if !x.reading && (Word.has s S_TXD && x.ti < x.tn) then .push
  else if Word.has s S_DONE then
    .finish (if (if x.reading then x.ri == x.rn else true) then .ok else .timeout)
  else .idle

theorem action_ne_badArg {s : Word} {x : Xfer} {r : I2cResult} (h : action s x = .finish r) :
    r ≠ .badArg := by
  rintro rfl
  unfold action at h
  split_ifs at h <;> cases h

/-- A pass that moves a byte has one left to move, in the direction of the record. -/
theorem action_moves {s : Word} {x : Xfer} :
    (action s x = .pop → x.reading = true ∧ x.ri < x.rn) ∧
      (action s x = .push → x.reading = false ∧ x.ti < x.tn) := by
  constructor <;> intro ha <;> unfold action at ha <;> split_ifs at ha with _ _ hpop hpush
  · rw [Bool.and_eq_true, Bool.and_eq_true, decide_eq_true_iff] at hpop
    exact ⟨hpop.1, hpop.2.2⟩
  · rw [Bool.and_eq_true, Bool.and_eq_true, decide_eq_true_iff, Bool.not_eq_true'] at hpush
    exact ⟨hpush.1, hpush.2.2⟩

/-- Move one byte from the FIFO to the caller's buffer. -/
def popByte (x : Xfer) : TransportM Unit := do
  let b ← i2c I2c.readByte
  assign (.ri (x.ri + 1))
  storeByte (x.rx + x.ri) ((b &&& 0xFF).setWidth 8)

/-- Move one byte from the caller's buffer to the FIFO. -/
def pushByte (x : Xfer) : TransportM Unit := do
  assign (.ti (x.ti + 1))
  let b ← loadByte (x.tx + x.ti)
  i2c (I2c.writeByte (b.setWidth 32))

theorem history_popByte (x : Xfer) :
    (popByte x).history (world d) w =
      [(.bsc (.load .FIFO), w),
        (.assign (.ri (x.ri + 1)), { w with dev := (d.access (.load .FIFO) w.dev).2 }),
        (.storeByte (x.rx + x.ri) (((I2c.readByte.run d.access w.dev).1 &&& 0xFF).setWidth 8),
          { w with
            dev := (d.access (.load .FIFO) w.dev).2
            xfer := (Assign.ri (x.ri + 1)).apply w.xfer })] := rfl

theorem history_pushByte (x : Xfer) :
    (pushByte x).history (world d) w =
      [(.assign (.ti (x.ti + 1)), w),
        (.loadByte (x.tx + x.ti), { w with xfer := (Assign.ti (x.ti + 1)).apply w.xfer }),
        (.bsc (.store .FIFO ((w.mem (x.tx + x.ti)).setWidth 32 &&& 0xFF)),
          { w with xfer := (Assign.ti (x.ti + 1)).apply w.xfer })] := rfl

/-- What the handler does about an action. -/
def pass (fuel : ℕ) (x : Xfer) : Action → TransportM Unit
  | .finish r => finalize r
  | .pop => do
    popByte x
    irqLoop fuel
  | .push => do
    pushByte x
    irqLoop fuel
  | .idle => pure ()

theorem irqLoop_succ (fuel : ℕ) :
    irqLoop (fuel + 1) = (do
      let s ← readStatus
      if Word.has s S_ERR then finalize .nack
      else if Word.has s S_CLKT then finalize .clockTimeout
      else do
        let x ← xfer
        pass fuel x (action s x)) := by
  rw [irqLoop]
  refine congrArg _ (funext fun s => ?_)
  by_cases herr : Word.has s S_ERR
  · simp only [if_pos herr]
  by_cases hclk : Word.has s S_CLKT
  · simp only [if_neg herr, if_pos hclk]
  simp only [if_neg herr, if_neg hclk]
  refine congrArg _ (funext fun x => ?_)
  unfold action
  rw [if_neg herr, if_neg hclk]
  split_ifs <;> simp only [pass, popByte, pushByte, bind_assoc]

/-- One round of `for (;;)`: `inl` continues, `inr` returns. -/
def handleIrqRound (_ : Unit) : TransportM (Unit ⊕ Unit) := do
  let s ← readStatus
  if Word.has s S_ERR then
    finalize .nack
    return .inr ()
  else if Word.has s S_CLKT then
    finalize .clockTimeout
    return .inr ()
  else
    let x ← xfer
    if x.reading && (Word.has s S_RXD && x.ri < x.rn) then
      let b ← i2c I2c.readByte
      assign (.ri (x.ri + 1))
      storeByte (x.rx + x.ri) ((b &&& 0xFF).setWidth 8)
      return .inl ()
    else if !x.reading && (Word.has s S_TXD && x.ti < x.tn) then
      assign (.ti (x.ti + 1))
      let b ← loadByte (x.tx + x.ti)
      i2c (I2c.writeByte (b.setWidth 32))
      return .inl ()
    else if Word.has s S_DONE then
      let ok := if x.reading then x.ri == x.rn else true
      finalize (if ok then .ok else .timeout)
      return .inr ()
    else return .inr ()

/-- What a round does about an action. -/
def turn (x : Xfer) : Action → TransportM (Unit ⊕ Unit)
  | .finish r => do
    finalize r
    return .inr ()
  | .pop => do
    popByte x
    return .inl ()
  | .push => do
    pushByte x
    return .inl ()
  | .idle => return .inr ()

theorem handleIrqRound_eq :
    handleIrqRound () = (do
      let s ← readStatus
      if Word.has s S_ERR then turn {} (.finish .nack)
      else if Word.has s S_CLKT then turn {} (.finish .clockTimeout)
      else do
        let x ← xfer
        turn x (action s x)) := by
  rw [handleIrqRound]
  refine congrArg _ (funext fun s => ?_)
  by_cases herr : Word.has s S_ERR
  · simp only [if_pos herr, turn]
  by_cases hclk : Word.has s S_CLKT
  · simp only [if_neg herr, if_pos hclk, turn]
  simp only [if_neg herr, if_neg hclk]
  refine congrArg _ (funext fun x => ?_)
  unfold action
  rw [if_neg herr, if_neg hclk]
  split_ifs <;> simp only [turn, popByte, pushByte, bind_assoc]

/-- A pass of the bounded loop is a round of the source's loop. -/
theorem irqLoop_eq_round (fuel : ℕ) :
    irqLoop (fuel + 1) = (do
      match ← handleIrqRound () with
      | .inl _ => irqLoop fuel
      | .inr _ => pure ()) := by
  rw [irqLoop_succ, handleIrqRound_eq, bind_assoc]
  refine congrArg _ (funext fun s => ?_)
  by_cases herr : Word.has s S_ERR
  · simp [herr, turn]
  by_cases hclk : Word.has s S_CLKT
  · simp [herr, hclk, turn]
  simp only [if_neg herr, if_neg hclk, bind_assoc]
  refine congrArg _ (funext fun x => ?_)
  cases action s x <;> simp [pass, turn]

theorem run_handleIrqRound :
    (handleIrqRound ()).run (world d) w =
      match action (w.word d) w.xfer with
      | .finish r => (.inr (), ((finalize r).run (world d) w.next).2)
      | .pop => (.inl (), ((popByte w.xfer).run (world d) w.next).2)
      | .push => (.inl (), ((pushByte w.xfer).run (world d) w.next).2)
      | .idle => (.inr (), w.next) := by
  rw [handleIrqRound_eq, Prog.run_bind, run_readStatus]
  by_cases herr : Word.has (w.word d) S_ERR
  · simp only [action, if_pos herr, turn, Prog.run_bind, Prog.run_pure]
  by_cases hclk : Word.has (w.word d) S_CLKT
  · simp only [action, if_neg herr, if_pos hclk, turn, Prog.run_bind, Prog.run_pure]
  have hx : xfer.run (world d) w.next = (w.xfer, w.next) := rfl
  simp only [if_neg herr, if_neg hclk]
  rw [Prog.run_bind, hx]
  cases action (w.word d) w.xfer <;> simp only [turn, Prog.run_bind, Prog.run_pure]

/-- The record is looked at unless the word reports an error. -/
def peek : List (Cmd × World δ) :=
  if Word.has (w.word d) S_ERR || Word.has (w.word d) S_CLKT then [] else [(.xfer, w.next)]

theorem closing_peek : ∀ e ∈ peek d w, Closing e.1 := by
  unfold peek
  split_ifs <;> simp [Closing]

theorem reports_peek : reports (peek d w) = [] := by
  unfold peek
  split_ifs <;> rfl

theorem history_handleIrqRound :
    (handleIrqRound ()).history (world d) w = (.status, w) :: (peek d w ++
      match action (w.word d) w.xfer with
      | .finish r => (finalize r).history (world d) w.next
      | .pop => (popByte w.xfer).history (world d) w.next
      | .push => (pushByte w.xfer).history (world d) w.next
      | .idle => []) := by
  rw [handleIrqRound_eq, Prog.history_bind, run_readStatus, history_readStatus,
    List.singleton_append]
  congr 1
  unfold peek
  by_cases herr : Word.has (w.word d) S_ERR
  · simp [action, herr, turn]
  by_cases hclk : Word.has (w.word d) S_CLKT
  · simp [action, herr, hclk, turn]
  have hx : xfer.run (world d) w.next = (w.xfer, w.next) := rfl
  simp only [if_neg herr, if_neg hclk]
  rw [if_neg (by simp [herr, hclk]), Prog.history_bind, hx, history_xfer]
  congr 1
  cases action (w.word d) w.xfer <;>
    simp only [turn, Prog.history_bind, Prog.history_pure, List.append_nil]

theorem run_irqLoop_succ (fuel : ℕ) :
    (irqLoop (fuel + 1)).run (world d) w =
      match action (w.word d) w.xfer with
      | .finish r => (finalize r).run (world d) w.next
      | .pop => (irqLoop fuel).run (world d) ((popByte w.xfer).run (world d) w.next).2
      | .push => (irqLoop fuel).run (world d) ((pushByte w.xfer).run (world d) w.next).2
      | .idle => ((), w.next) := by
  rw [irqLoop_eq_round, Prog.run_bind, run_handleIrqRound]
  cases action (w.word d) w.xfer <;> rfl

theorem history_irqLoop_succ (fuel : ℕ) :
    (irqLoop (fuel + 1)).history (world d) w = (.status, w) :: (peek d w ++
      match action (w.word d) w.xfer with
      | .finish r => (finalize r).history (world d) w.next
      | .pop => (popByte w.xfer).history (world d) w.next ++
          (irqLoop fuel).history (world d) ((popByte w.xfer).run (world d) w.next).2
      | .push => (pushByte w.xfer).history (world d) w.next ++
          (irqLoop fuel).history (world d) ((pushByte w.xfer).run (world d) w.next).2
      | .idle => []) := by
  rw [irqLoop_eq_round, Prog.history_bind, run_handleIrqRound, history_handleIrqRound,
    List.cons_append, List.append_assoc]
  cases action (w.word d) w.xfer <;>
    simp only [Prog.history_pure, List.append_nil]

/-- Commands of a pass that moves a byte or finds nothing to do. -/
def Moves : Cmd → Prop
  | .status => True
  | .xfer => True
  | .bsc (.load .FIFO) => True
  | .bsc (.store .FIFO _) => True
  | .loadByte _ => True
  | .storeByte _ _ => True
  | .assign (.ri _) => True
  | .assign (.ti _) => True
  | _ => False

theorem moves_popByte (x : Xfer) : (popByte x).Only Moves := by
  simp only [popByte, i2c, I2c.readByte, Mmio.load]
  exact ⟨trivial, fun _ => ⟨trivial, fun _ => ⟨trivial, fun _ => trivial⟩⟩⟩

theorem moves_pushByte (x : Xfer) : (pushByte x).Only Moves :=
  ⟨trivial, fun _ => ⟨trivial, fun _ => ⟨trivial, fun _ => trivial⟩⟩⟩

/-- A moving command leaves the record as it was but for the two indices. -/
theorem moves_xfer {c : Cmd} (hc : Moves c) :
    ∃ ti ri, (world d c w).2.xfer = { w.xfer with ti := ti, ri := ri } := by
  cases c with
  | assign a =>
    cases a with
    | ti n => exact ⟨n, w.xfer.ri, rfl⟩
    | ri n => exact ⟨w.xfer.ti, n, rfl⟩
    | _ => exact hc.elim
  | _ => exact ⟨w.xfer.ti, w.xfer.ri, rfl⟩

end Irq
end Bcm2837
