import Bcm2837.ControlBits
import Bcm2837.Interleaving
import Bcm2837.PolledSteps

/-!
# The controller and its slave

A healthy BSC block: a FIFO of 16 bytes, a transfer that moves bytes between the FIFO
and the slave in order and stalls while the FIFO is empty or full, and the bits of the
control and status registers that the transports rely on. `tick` is a step the block
takes on its own.
-/
namespace Bcm2837

open Bsc

/-- The block and the slave behind it. -/
structure Controller where
  regs : Register → Word
  fifo : List Byte
  /-- A transfer is running. -/
  active : Bool
  reading : Bool
  total : ℕ
  /-- Bytes of the transfer moved on the bus. -/
  moved : ℕ
  done : Bool
  /-- What the slave has received. -/
  received : List Byte
  /-- What the slave has to send. -/
  supply : Stream' Byte

namespace Controller

def depth : ℕ := 16

/-- CLEAR and ST are one-shot and read back as 0. -/
def control (c : Controller) : Word :=
  BitField.clearBit (BitField.clearBit (BitField.clearBit (c.regs .C) 4) 5) 7

def dlen (c : Controller) : ℕ := (c.regs .DLEN &&& 0xFFFF).toNat

/-- A store to the control register: CLEAR empties the FIFO, ST starts a transfer. -/
def setC (c : Controller) (v : Word) : Controller :=
  let c := { c with
    regs := Function.update c.regs .C v
    fifo := if v.getLsbD 4 || v.getLsbD 5 then [] else c.fifo }
  if v.getLsbD 7 then
    { c with active := true, reading := v.getLsbD 0, total := c.dlen, moved := 0 }
  else c

/-- The status word, its other bits left to the environment. -/
def status (word : Word) (c : Controller) : Word :=
  BitField.putBit (BitField.putBit (BitField.putBit (BitField.putBit (BitField.putBit word
    1 c.done) 4 (c.fifo.length < depth)) 5 (!c.fifo.isEmpty)) 8 false) 9 false

/-- Register accesses; DONE is cleared by writing 1 to it. -/
def access : Prog.Handler (Access Register Word) Access.Ans Controller
  | .load .C, c => (c.control, c)
  | .load .S, c => (c.status (c.regs .S), c)
  | .load .FIFO, c => match c.fifo with
    | [] => ((0 : Word), c)
    | b :: bs => (b.setWidth 32, { c with fifo := bs })
  | .load r, c => (c.regs r, c)
  | .store .C v, c => ((), c.setC v)
  | .store .S v, c => ((), { c with done := c.done && !v.getLsbD 1 })
  | .store .FIFO v, c =>
    ((), if c.fifo.length < depth then { c with fifo := c.fifo ++ [v.setWidth 8] } else c)
  | .store r v, c => ((), { c with regs := Function.update c.regs r v })

/-- One more byte has been moved; the last one sets DONE. -/
def count (c : Controller) : Controller :=
  { c with
    moved := c.moved + 1
    done := c.done || c.moved + 1 == c.total
    active := c.moved + 1 != c.total }

/-- Move a byte of a running transfer, if the FIFO allows it. -/
def tick (c : Controller) : Controller :=
  if c.active then
    if c.reading then
      if c.fifo.length < depth then
        count { c with fifo := c.fifo ++ [c.supply.head], supply := c.supply.tail }
      else c
    else match c.fifo with
      | [] => c
      | b :: bs => count { c with fifo := bs, received := c.received ++ [b] }
  else c

theorem tick_of_inactive {c : Controller} (hc : c.active = false) : c.tick = c := by
  rw [tick, if_neg (by rw [hc]; exact Bool.false_ne_true)]

theorem moved_tick (c : Controller) : c.moved ≤ c.tick.moved := by
  unfold tick
  split_ifs
  · exact Nat.le_succ _
  · exact Nat.le_refl _
  · cases c.fifo
    · exact Nat.le_refl _
    · exact Nat.le_succ _
  · exact Nat.le_refl _

def device : Device Controller := ⟨access, status⟩

end Controller

/-- The surroundings of a transport while the controller takes a step. -/
def World.tick (w : World Controller) : World Controller := { w with dev := w.dev.tick }

/-- Transport code next to a running controller. -/
abbrev running : Prog.Handler Cmd Cmd.Ans (World Controller × Stream' ℕ) :=
  Prog.interleave World.tick (world Controller.device)

theorem has_one_shiftLeft (s : Word) (i : ℕ) : Word.has s ((1 : Word) <<< i) = s.getLsbD i := by
  rw [Word.has, Bool.eq_iff_iff, bne_iff_ne, ne_eq, BitField.and_bit_eq_zero_iff]
  simp only [Bool.not_eq_false]

section Status

variable (word : Word) (c : Controller)

theorem getLsbD_status {i : ℕ} (hi : i < 32) :
    (c.status word).getLsbD i =
      if 9 = i then false else if 8 = i then false else if 5 = i then !c.fifo.isEmpty
      else if 4 = i then decide (c.fifo.length < Controller.depth) else if 1 = i then c.done
      else word.getLsbD i := by
  simp only [Controller.status, BitField.getLsbD_putBit _ _ _ _ hi]

theorem has_status_err : Word.has (c.status word) S_ERR = false :=
  (has_one_shiftLeft _ 8).trans (getLsbD_status word c (by decide))

theorem has_status_clkt : Word.has (c.status word) S_CLKT = false :=
  (has_one_shiftLeft _ 9).trans (getLsbD_status word c (by decide))

theorem has_status_done : Word.has (c.status word) S_DONE = c.done :=
  (has_one_shiftLeft _ 1).trans (getLsbD_status word c (by decide))

theorem has_status_txd :
    Word.has (c.status word) S_TXD = decide (c.fifo.length < Controller.depth) :=
  (has_one_shiftLeft _ 4).trans (getLsbD_status word c (by decide))

theorem has_status_rxd : Word.has (c.status word) S_RXD = !c.fifo.isEmpty :=
  (has_one_shiftLeft _ 5).trans (getLsbD_status word c (by decide))

end Status

namespace Controller

/-! ## Stores to the control register -/

section Stores

variable (c : Controller) (v : Word)

theorem setC_regs : (c.setC v).regs = Function.update c.regs .C v := by
  unfold setC
  split_ifs <;> rfl

/-- A store without ST starts nothing. -/
theorem setC_of_not_start (hv : v.getLsbD 7 = false) :
    c.setC v = { c with
      regs := Function.update c.regs .C v
      fifo := if v.getLsbD 4 || v.getLsbD 5 then [] else c.fifo } := by
  rw [setC, if_neg (by rw [hv]; exact Bool.false_ne_true)]

/-- A store with ST starts a transfer. -/
theorem setC_of_start (hv : v.getLsbD 7 = true) :
    c.setC v = { c with
      regs := Function.update c.regs .C v
      fifo := if v.getLsbD 4 || v.getLsbD 5 then [] else c.fifo
      active := true
      reading := v.getLsbD 0
      total := c.dlen
      moved := 0 } := by
  rw [setC, if_pos hv]
  simp [dlen]

theorem setC_fifo :
    (c.setC v).fifo = if v.getLsbD 4 || v.getLsbD 5 then [] else c.fifo := by
  unfold setC
  split_ifs <;> rfl

theorem getLsbD_control (i : ℕ) :
    c.control.getLsbD i =
      ((c.regs .C).getLsbD i && decide (4 ≠ i) && decide (5 ≠ i) && decide (7 ≠ i)) := by
  simp only [control, BitField.getLsbD_clearBit]

end Stores

/-- Bit `i` of the control register. -/
def bit (c : Controller) (i : ℕ) : Bool := (c.regs .C).getLsbD i

theorem storedBits_device : StoredBits (· = 0) device bit where
  lt _ hi := by omega
  load c i hi := by
    subst hi
    exact ⟨by simp only [Device.control, device, access, getLsbD_control]; simp [bit], rfl⟩
  store c v i _ := by
    simp only [device, access, bit, setC_regs, Function.update_self]
  others c a i _ hl hs := by
    cases a with
    | load r =>
      cases r with
      | FIFO => cases hf : c.fifo <;> simp [device, access, hf, bit]
      | _ => rfl
    | store r v =>
      have hr : Register.C ≠ r := fun h => hs v (h ▸ rfl)
      cases r <;> first
        | exact absurd rfl hr
        | rfl
        | (simp only [device, access, bit]; split_ifs <;> rfl)

/-! ## Starting a transfer -/

/-- No transfer runs; the slave's log and data are as given. -/
structure Resting (received : List Byte) (supply : Stream' Byte) (c : Controller) : Prop where
  inactive : c.active = false
  received_eq : c.received = received
  supply_eq : c.supply = supply

/-- Nothing is left of an earlier transfer. -/
structure Clean (received : List Byte) (supply : Stream' Byte) (c : Controller) : Prop
    extends Resting received supply c where
  fifo_eq : c.fifo = []
  done_eq : c.done = false

/-- The length of the next transfer is set. -/
structure Loaded (received : List Byte) (supply : Stream' Byte) (len : ℕ) (c : Controller) : Prop
    extends Clean received supply c where
  dlen_eq : c.dlen = len

/-- A transfer has just been started. -/
structure Started (received : List Byte) (supply : Stream' Byte) (len : ℕ) (reading : Bool)
    (c : Controller) : Prop where
  active : c.active = true
  reading_eq : c.reading = reading
  total_eq : c.total = len
  moved_eq : c.moved = 0
  fifo_eq : c.fifo = []
  done_eq : c.done = false
  received_eq : c.received = received
  supply_eq : c.supply = supply

/-- No transfer runs, and the slave's log is as given. -/
def Still (received : List Byte) (c : Controller) : Prop :=
  c.active = false ∧ c.received = received

/-- Nothing runs while the program issues its accesses. -/
abbrev Idly {α : Type} (received : List Byte) (P : Controller → Prop) (p : I2c.Io α)
    (Q : α → Controller → Prop) : Prop :=
  Prog.Triple access (Prog.Through (Still received)) P p Q

theorem sequential_idly (received : List Byte) :
    Prog.Sequential (@Prog.Through (Access Register Word) _ (Still received)) :=
  Prog.sequential_through _

theorem idly_command {received : List Byte} {P Q : Controller → Prop} {a : Access Register Word}
    (hstill : ∀ c, P c → Still received c) (ha : ∀ c, P c → Q (access a c).2) :
    Idly received P (Prog.call a Prog.ret) fun _ => Q := by
  intro c hc
  refine ⟨ha c hc, fun e he => ?_⟩
  rw [List.mem_singleton.mp he]
  exact hstill c hc

/-- The two words that writing a field stores. -/
def cleared (c : Controller) (f : Control) : Word :=
  c.control &&& ~~~(I2c.mask (I2c.controlField f).width <<< (I2c.controlField f).shift)

def filled (c : Controller) (f : Control) (value : Word) : Word :=
  c.control ||| ((value &&& I2c.mask (I2c.controlField f).width) <<< (I2c.controlField f).shift)

theorem run_setControl (f : Control) (value : Word) (c : Controller) :
    ((I2c.setControl f value).run access c).2 =
        (c.setC (c.cleared f)).setC ((c.setC (c.cleared f)).filled f value) ∧
      (I2c.setControl f value).history access c = [(.load .C, c), (.store .C (c.cleared f), c),
        (.load .C, c.setC (c.cleared f)),
        (.store .C ((c.setC (c.cleared f)).filled f value), c.setC (c.cleared f))] :=
  ⟨rfl, rfl⟩

theorem getLsbD_cleared (c : Controller) (f : Control) {i : ℕ} (hi : i = 4 ∨ i = 5 ∨ i = 7) :
    (c.cleared f).getLsbD i = false := by
  rw [cleared, BitVec.getLsbD_and, getLsbD_control]
  rcases hi with rfl | rfl | rfl <;> simp

theorem getLsbD_filled (c : Controller) (f : Control) (value : Word) {i : ℕ}
    (hi : i = 4 ∨ i = 5 ∨ i = 7) :
    (c.filled f value).getLsbD i = (decide ((I2c.controlField f).shift ≤ i ∧
      i < (I2c.controlField f).shift + (I2c.controlField f).width) &&
        value.getLsbD (i - (I2c.controlField f).shift)) := by
  have hcontrol : c.control.getLsbD i = false := by
    rw [getLsbD_control]
    rcases hi with rfl | rfl | rfl <;> simp
  have hi32 : decide (i < 32) = true := decide_eq_true (by omega)
  rw [filled, BitVec.getLsbD_or, hcontrol, Bool.false_or, I2c.mask_eq_lowBits,
    BitField.getLsbD_field, hi32, Bool.true_and]

section Fields

variable {received : List Byte} {P : Controller → Prop} (hstill : ∀ c, P c → Still received c)
  (hset : ∀ c v, P c → v.getLsbD 7 = false → P (c.setC v))
include hstill hset

/-- What stores without ST keep, writing a field without ST keeps. -/
theorem idly_setControl (f : Control) (value : Word)
    (hf : ¬ ((I2c.controlField f).shift ≤ 7 ∧
      7 < (I2c.controlField f).shift + (I2c.controlField f).width)) :
    Idly received P (I2c.setControl f value) fun _ => P := by
  intro c hc
  obtain ⟨hrun, hhist⟩ := run_setControl f value c
  have hmid : P (c.setC (c.cleared f)) := hset c _ hc (getLsbD_cleared c f (.inr (.inr rfl)))
  have hfilled : ((c.setC (c.cleared f)).filled f value).getLsbD 7 = false := by
    rw [getLsbD_filled _ f value (.inr (.inr rfl)), decide_eq_false hf, Bool.false_and]
  refine ⟨hrun ▸ hset _ _ hmid hfilled, fun e he => ?_⟩
  rw [hhist] at he
  simp only [List.mem_cons, List.not_mem_nil, or_false] at he
  rcases he with rfl | rfl | rfl | rfl
  · exact hstill c hc
  · exact hstill c hc
  · exact hstill _ hmid
  · exact hstill _ hmid

theorem idly_clrControl (f : Control) : Idly received P (I2c.clrControl f) fun _ => P := by
  intro c hc
  refine ⟨hset c _ hc (getLsbD_cleared c f (.inr (.inr rfl))), fun e he => ?_⟩
  have hhist : (I2c.clrControl f).history access c =
      [(.load .C, c), (.store .C (c.cleared f), c)] := rfl
  rw [hhist] at he
  simp only [List.mem_cons, List.not_mem_nil, or_false] at he
  rcases he with rfl | rfl <;> exact hstill c hc

end Fields

section Chain

variable {received : List Byte} {supply : Stream' Byte} {len : ℕ}

theorem Resting.still {c : Controller} (hc : Resting received supply c) : Still received c :=
  ⟨hc.inactive, hc.received_eq⟩

theorem Resting.setC {c : Controller} (hc : Resting received supply c) {v : Word}
    (hv : v.getLsbD 7 = false) : Resting received supply (c.setC v) := by
  rw [setC_of_not_start c v hv]
  exact ⟨hc.inactive, hc.received_eq, hc.supply_eq⟩

theorem Clean.setC {c : Controller} (hc : Clean received supply c) {v : Word}
    (hv : v.getLsbD 7 = false) : Clean received supply (c.setC v) := by
  refine ⟨hc.toResting.setC hv, ?_, ?_⟩
  · rw [setC_of_not_start c v hv, hc.fifo_eq]
    exact ite_self _
  · rw [setC_of_not_start c v hv]
    exact hc.done_eq

theorem Loaded.setC {c : Controller} (hc : Loaded received supply len c) {v : Word}
    (hv : v.getLsbD 7 = false) : Loaded received supply len (c.setC v) := by
  refine ⟨hc.toClean.setC hv, ?_⟩
  rw [dlen, setC_regs, Function.update_of_ne (by decide)]
  exact hc.dlen_eq

/-- Clearing the FIFO and acknowledging DONE leave nothing of an earlier transfer. -/
theorem idly_drain :
    Idly received (Resting received supply) I2c.drain fun _ => Clean received supply := by
  have hR := sequential_idly received
  have hclear : Idly received (Resting received supply) I2c.clearFifo
      fun _ c => Resting received supply c ∧ c.fifo = [] := by
    intro c hc
    have hkeep := idly_setControl (P := Resting received supply) (fun c hc => hc.still)
      (fun c v hc hv => hc.setC hv) .CLEAR 0b01 (by decide) c hc
    have hbit : ((c.setC (c.cleared .CLEAR)).filled .CLEAR 0b01).getLsbD 4 = true :=
      getLsbD_filled _ .CLEAR 0b01 (.inl rfl)
    have hrun : (I2c.clearFifo.run access c).2 = _ := (run_setControl .CLEAR 0b01 c).1
    refine ⟨⟨hkeep.1, ?_⟩, hkeep.2⟩
    rw [hrun, setC_fifo, hbit, Bool.true_or, if_pos rfl]
  have hdone : Idly received (fun c => Resting received supply c ∧ c.fifo = [])
      (I2c.clrStatus .DONE)
      fun _ => Clean received supply :=
    idly_command (fun c hc => hc.1.still) fun c hc =>
      ⟨⟨hc.1.inactive, hc.1.received_eq, hc.1.supply_eq⟩, hc.2, by simp [access, I2c.statusShift]⟩
  have hother : ∀ f, Idly received (Clean received supply) (I2c.clrStatus f)
      fun _ => Clean received supply :=
    fun f => idly_command (fun c hc => hc.toResting.still) fun c hc =>
      ⟨⟨hc.inactive, hc.received_eq, hc.supply_eq⟩, hc.fifo_eq, by simp [access, hc.done_eq]⟩
  exact Prog.Triple.bind hR hclear fun _ => Prog.Triple.bind hR hdone fun _ =>
    Prog.Triple.bind hR (hother .ERR) fun _ => hother .CLKT_TO

/-- The address and the length of a transfer within the range of DLEN. -/
theorem idly_setup (addr : Byte) (hlen : len ≤ 0xFFFF) :
    Idly received (Resting received supply) (I2c.setup addr len)
      fun _ => Loaded received supply len := by
  have hR := sequential_idly received
  have haddr : Idly received (Clean received supply) (I2c.slaveAddress (addr.setWidth 32))
      fun _ => Clean received supply :=
    idly_command (fun c hc => hc.toResting.still) fun c hc =>
      ⟨⟨hc.inactive, hc.received_eq, hc.supply_eq⟩, hc.fifo_eq, hc.done_eq⟩
  have hcut : (BitVec.ofNat 32 len &&& 0xFFFF &&& 0xFFFF : Word).toNat = len := by
    rw [I2c.dataLength_toNat]
    omega
  have hdlen : Idly received (Clean received supply) (I2c.setDataLength (BitVec.ofNat 32 len))
      fun _ => Loaded received supply len :=
    idly_command (fun c hc => hc.toResting.still) fun c hc =>
      ⟨⟨⟨hc.inactive, hc.received_eq, hc.supply_eq⟩, hc.fifo_eq, hc.done_eq⟩, by
        simp only [dlen, access, Function.update_self, hcut]⟩
  exact Prog.Triple.bind hR idly_drain fun _ => Prog.Triple.bind hR haddr fun _ => hdlen

theorem idly_loaded (f : Control) (value : Word)
    (hf : ¬ ((I2c.controlField f).shift ≤ 7 ∧
      7 < (I2c.controlField f).shift + (I2c.controlField f).width)) :
    Idly received (Loaded received supply len) (I2c.setControl f value)
      fun _ => Loaded received supply len :=
  idly_setControl (fun _ hc => hc.still) (fun _ _ hc hv => hc.setC hv) f value hf

theorem idly_arm (reading : Bool) :
    Idly received (Loaded received supply len) (I2c.arm reading)
      fun _ => Loaded received supply len := by
  have hR := sequential_idly received
  cases reading
  · exact Prog.Triple.bind hR (idly_loaded .INTT 1 (by decide)) fun _ =>
      idly_loaded .INTD 1 (by decide)
  · exact Prog.Triple.bind hR (idly_loaded .INTR 1 (by decide)) fun _ =>
      idly_loaded .INTD 1 (by decide)

/-- Setting ST starts the transfer that has been set up. -/
theorem idly_start (reading : Bool) :
    Idly received (fun c => Loaded received supply len c ∧ c.bit 0 = reading) (I2c.setControl .ST 1)
      fun _ => Started received supply len reading := by
  rintro c ⟨hc, rfl⟩
  obtain ⟨hrun, hhist⟩ := run_setControl .ST 1 c
  have hmid := hc.setC (getLsbD_cleared c .ST (.inr (.inr rfl)))
  have hstart : ((c.setC (c.cleared .ST)).filled .ST 1).getLsbD 7 = true :=
    getLsbD_filled _ .ST 1 (.inr (.inr rfl))
  have hbit : ((c.setC (c.cleared .ST)).filled .ST 1).getLsbD 0 = c.bit 0 := by
    have h := bit_setControl storedBits_device rfl c .ST 1
    have hlast : ((I2c.setControl .ST 1).run access c).2 = _ := hrun
    rw [show ((I2c.setControl .ST 1).run device.access c).2 = _ from hlast, bit, setC_regs,
      Function.update_self] at h
    exact h
  refine ⟨?_, fun e he => ?_⟩
  · rw [hrun]
    rw [setC_of_start _ _ hstart]
    refine ⟨rfl, hbit, hmid.dlen_eq, rfl, ?_, hmid.done_eq, hmid.received_eq, hmid.supply_eq⟩
    rw [hmid.fifo_eq]
    exact ite_self _
  · rw [hhist] at he
    simp only [List.mem_cons, List.not_mem_nil, or_false] at he
    rcases he with rfl | rfl | rfl | rfl
    · exact hc.still
    · exact hc.still
    · exact hmid.still
    · exact hmid.still

/-- A kick starts a transfer in its direction. -/
theorem idly_kick (reading : Bool) :
    Idly received (Loaded received supply len) (I2c.kick reading)
      fun _ => Started received supply len reading := by
  have hR := sequential_idly received
  have hREAD : ∀ value : Word, Idly received (Loaded received supply len)
      (I2c.setControl .READ value)
      fun _ c => Loaded received supply len c ∧ c.bit 0 = value.getLsbD 0 := by
    intro value c hc
    obtain ⟨hloaded, hstill⟩ := idly_loaded .READ value (by decide) c hc
    exact ⟨⟨hloaded, bit_setControl storedBits_device rfl c .READ value⟩, hstill⟩
  have hkick : ∀ value : Word, Idly received (Loaded received supply len)
      (do I2c.enable; I2c.setControl .READ value; I2c.setControl .ST 1)
      fun _ => Started received supply len (value.getLsbD 0) := fun value =>
    Prog.Triple.bind hR (idly_loaded .I2CEN 1 (by decide)) fun _ =>
      Prog.Triple.bind hR (hREAD value) fun _ => idly_start _
  cases reading
  · exact hkick 0
  · exact hkick 1

/-- The polled transport's start. -/
theorem idly_prime (addr : Byte) (hlen : len ≤ 0xFFFF) (reading : Bool) :
    Idly received (Resting received supply) (do I2c.setup addr len; I2c.kick reading)
      fun _ => Started received supply len reading :=
  Prog.Triple.bind (sequential_idly received) (idly_setup addr hlen) fun _ => idly_kick reading

/-- The interrupt-driven transport's start. -/
theorem idly_launch (addr : Byte) (hlen : len ≤ 0xFFFF) (reading : Bool) :
    Idly received (Resting received supply) (I2c.launch addr len reading)
      fun _ => Started received supply len reading := by
  have hR := sequential_idly received
  exact Prog.Triple.bind hR (idly_setup addr hlen) fun _ =>
    Prog.Triple.bind hR (idly_arm reading) fun _ => idly_kick reading

/-- Closing a transfer that has ended acknowledges DONE and otherwise only reaches the
control register. -/
theorem idly_quiesce (c₀ : Controller) (hactive : c₀.active = false) (hfifo : c₀.fifo = []) :
    Idly c₀.received (fun c => c = c₀) I2c.quiesce
      fun _ c => ∃ regs, c = { c₀ with regs := regs, done := false } := by
  have hR := sequential_idly c₀.received
  have hdone : Idly c₀.received (fun c => c = c₀) (I2c.clrStatus .DONE)
      fun _ c => ∃ regs, c = { c₀ with regs := regs, done := false } := by
    refine idly_command ?_ ?_
    · rintro c rfl
      exact ⟨hactive, rfl⟩
    · rintro c rfl
      exact ⟨c.regs, by simp [access, I2c.statusShift]⟩
  have hother : ∀ f, Idly c₀.received
      (fun c => ∃ regs, c = { c₀ with regs := regs, done := false }) (I2c.clrStatus f)
      fun _ c => ∃ regs, c = { c₀ with regs := regs, done := false } := by
    refine fun f => idly_command ?_ ?_
    · rintro c ⟨regs, rfl⟩
      exact ⟨hactive, rfl⟩
    · rintro c ⟨regs, rfl⟩
      exact ⟨regs, rfl⟩
  have hcontrol : ∀ f, Idly c₀.received
      (fun c => ∃ regs, c = { c₀ with regs := regs, done := false }) (I2c.clrControl f)
      fun _ c => ∃ regs, c = { c₀ with regs := regs, done := false } := by
    refine fun f => idly_clrControl ?_ ?_ f
    · rintro c ⟨regs, rfl⟩
      exact ⟨hactive, rfl⟩
    · rintro c v ⟨regs, rfl⟩ hv
      refine ⟨Function.update regs .C v, ?_⟩
      rw [setC_of_not_start _ v hv, hfifo, ite_self]
  exact Prog.Triple.bind hR hdone fun _ => Prog.Triple.bind hR (hother _) fun _ =>
    Prog.Triple.bind hR (hother _) fun _ => Prog.Triple.bind hR (hcontrol _) fun _ =>
      Prog.Triple.bind hR (hcontrol _) fun _ => hcontrol _

end Chain

end Controller

end Bcm2837
