import Bcm2837.Controller
import Bcm2837.IrqRuns

/-!
# Data integrity against a running controller

The driver acts on a status word while the controller keeps moving bytes. One picture of
a transfer holds at every moment: the FIFO is a window of the data, with one end moved by
the driver and the other by the controller. What the driver concludes from a status word
(room in the FIFO, a byte in it, the transfer done) only gets truer while it acts on it.
-/
namespace Bcm2837

open Bsc

/-- A transfer that a call asks for, with the surroundings at the call. -/
structure Job where
  reading : Bool
  buf : ℕ
  len : ℕ
  mem : Ptr → Byte
  received : List Byte
  supply : Stream' Byte

namespace Job

variable (j : Job)

/-- Byte `i` of the data, from the slave or from the caller's buffer. -/
def data (i : ℕ) : Byte := if j.reading then j.supply.get i else j.mem (j.buf + i)

/-- The data from byte `lo` up to byte `hi`. -/
def window (lo hi : ℕ) : List Byte := (List.range' lo (hi - lo)).map j.data

/-- The caller's memory once `n` bytes have been stored. -/
def memory (n : ℕ) : Ptr → Byte := if j.reading then place j.mem j.buf (j.window 0 n) else j.mem

/-- The slave's log once `n` bytes have been moved on the bus. -/
def log (n : ℕ) : List Byte := if j.reading then j.received else j.received ++ j.window 0 n

/-- What the slave has left to send once `n` bytes have been moved on the bus. -/
def left (n : ℕ) : Stream' Byte := if j.reading then j.supply.drop n else j.supply

/-- A prefix of the data has arrived and nothing else has changed. -/
def Kept (w : World Controller) : Prop :=
  ∃ n ≤ j.len, w.mem = j.memory n ∧ w.dev.received = j.log n

/-- All data has arrived and nothing else has changed. -/
def Complete (w : World Controller) : Prop :=
  w.mem = j.memory j.len ∧ w.dev.received = j.log j.len

@[simp] theorem window_self (n : ℕ) : j.window n n = [] := by simp [window]

@[simp] theorem length_window (lo hi : ℕ) : (j.window lo hi).length = hi - lo := by simp [window]

theorem window_succ {lo hi : ℕ} (h : lo ≤ hi) :
    j.window lo (hi + 1) = j.window lo hi ++ [j.data hi] := by
  have hlen : hi + 1 - lo = (hi - lo) + 1 := by omega
  have hend : lo + 1 * (hi - lo) = hi := by omega
  rw [window, hlen, ← List.range'_append, List.map_append, hend]
  rfl

theorem window_cons {lo hi : ℕ} (h : lo < hi) :
    j.window lo hi = j.data lo :: j.window (lo + 1) hi := by
  have hlen : hi - lo = (hi - (lo + 1)) + 1 := by omega
  rw [window, hlen, List.range'_succ]
  rfl

theorem log_succ (n : ℕ) (h : j.reading = false) : j.log (n + 1) = j.log n ++ [j.data n] := by
  simp only [log, h, Bool.false_eq_true, if_false, window_succ j (Nat.zero_le n), List.append_assoc]

/-- Storing the next byte of a read. -/
theorem memory_succ (n : ℕ) (h : j.reading = true) :
    j.memory (n + 1) = Function.update (j.memory n) (j.buf + n) (j.data n) := by
  simp only [memory, h, if_true, window_succ j (Nat.zero_le n), place_append, length_window,
    Nat.sub_zero]

end Job

/-- A transfer in flight: the driver has moved `i` bytes through the FIFO and `k` into
the caller's buffer, the controller has moved its share on the bus. -/
structure Flow (j : Job) (x : Xfer) (i k : ℕ) (w : World Controller) : Prop where
  xfer_eq : w.xfer = x
  reading_eq : w.dev.reading = j.reading
  total_eq : w.dev.total = j.len
  active_eq : w.dev.active = decide (w.dev.moved < j.len)
  moved_le : w.dev.moved ≤ j.len
  index_le : i ≤ j.len
  stored_le : k ≤ j.len
  order : if j.reading then i ≤ w.dev.moved else w.dev.moved ≤ i
  fifo_eq : w.dev.fifo = if j.reading then j.window i w.dev.moved else j.window w.dev.moved i
  received_eq : w.dev.received = j.log w.dev.moved
  supply_eq : w.dev.supply = j.left w.dev.moved
  mem_eq : w.mem = j.memory k

/-- DONE is set exactly when all bytes have been moved on the bus. -/
def Live (j : Job) (w : World Controller) : Prop := w.dev.done = decide (w.dev.moved = j.len)

section Flow

variable {j : Job} {x : Xfer} {i k : ℕ} {w : World Controller}

theorem Flow.kept (h : Flow j x i k w) : j.Kept w := by
  by_cases hr : j.reading
  · exact ⟨k, h.stored_le, h.mem_eq, by rw [h.received_eq, Job.log, Job.log, if_pos hr, if_pos hr]⟩
  · exact ⟨w.dev.moved, h.moved_le,
      by rw [h.mem_eq, Job.memory, Job.memory, if_neg hr, if_neg hr], h.received_eq⟩

theorem Flow.complete (h : Flow j x i j.len w) (hmoved : w.dev.moved = j.len) : j.Complete w :=
  ⟨h.mem_eq, hmoved ▸ h.received_eq⟩

/-- One more byte is counted, with the FIFO and the slave as they then are. -/
theorem Flow.count (h : Flow j x i k w) (hmore : w.dev.moved < j.len) {fifo received : List Byte}
    {supply : Stream' Byte}
    (horder : if j.reading then i ≤ w.dev.moved + 1 else w.dev.moved + 1 ≤ i)
    (hfifo : fifo = if j.reading then j.window i (w.dev.moved + 1)
      else j.window (w.dev.moved + 1) i)
    (hreceived : received = j.log (w.dev.moved + 1))
    (hsupply : supply = j.left (w.dev.moved + 1)) :
    Flow j x i k { w with dev := Controller.count { w.dev with
        fifo := fifo, received := received, supply := supply } } ∧
      (Live j w → Live j { w with dev := Controller.count { w.dev with
        fifo := fifo, received := received, supply := supply } }) := by
  refine ⟨⟨h.xfer_eq, h.reading_eq, h.total_eq, ?_, hmore, h.index_le, h.stored_le, horder, hfifo,
    hreceived, hsupply, h.mem_eq⟩, fun hlive => ?_⟩
  · simp only [Controller.count, h.total_eq]
    rw [Bool.eq_iff_iff, bne_iff_ne, decide_eq_true_iff]
    omega
  · rw [Live, decide_eq_false (Nat.ne_of_lt hmore)] at hlive
    simp only [Live, Controller.count, h.total_eq, hlive, Bool.false_or]
    rfl

/-- A step of the controller keeps the picture. -/
theorem Flow.tick (h : Flow j x i k w) :
    Flow j x i k w.tick ∧ (Live j w → Live j w.tick) := by
  have horder := h.order
  have hfifo := h.fifo_eq
  by_cases hmore : w.dev.moved < j.len
  · have hactive : w.dev.active = true := by rw [h.active_eq, decide_eq_true hmore]
    by_cases hr : j.reading
    · have hreading : w.dev.reading = true := h.reading_eq.trans hr
      rw [if_pos hr] at horder hfifo
      by_cases hroom : w.dev.fifo.length < Controller.depth
      · have htick : w.tick = { w with dev := Controller.count { w.dev with
            fifo := w.dev.fifo ++ [w.dev.supply.head], supply := w.dev.supply.tail } } := by
          simp only [World.tick, Controller.tick, hactive, hreading, hroom, if_true]
        have hhead : w.dev.supply.head = j.data w.dev.moved := by
          rw [h.supply_eq, Job.left, if_pos hr, Stream'.head_drop, Job.data, if_pos hr]
        rw [htick]
        refine h.count hmore ?_ ?_ ?_ ?_
        · rw [if_pos hr]
          omega
        · rw [if_pos hr, Job.window_succ j horder, hfifo, hhead]
        · rw [h.received_eq, Job.log, Job.log, if_pos hr, if_pos hr]
        · rw [h.supply_eq, Job.left, Job.left, if_pos hr, if_pos hr, Stream'.tail_drop']
      · have htick : w.tick = w := by
          simp only [World.tick, Controller.tick, hactive, hreading, hroom, if_true, if_false]
        exact htick.symm ▸ ⟨h, id⟩
    · have hr' : j.reading = false := Bool.eq_false_of_not_eq_true hr
      have hreading : w.dev.reading = false := h.reading_eq.trans hr'
      rw [if_neg hr] at horder hfifo
      rcases Nat.eq_or_lt_of_le horder with heq | hlt
      · have htick : w.tick = w := by
          rw [heq, Job.window_self] at hfifo
          simp only [World.tick, Controller.tick, hactive, hreading, hfifo, Bool.false_eq_true,
            if_true, if_false]
        exact htick.symm ▸ ⟨h, id⟩
      · rw [Job.window_cons j hlt] at hfifo
        have htick : w.tick = { w with dev := Controller.count { w.dev with
            fifo := j.window (w.dev.moved + 1) i
            received := w.dev.received ++ [j.data w.dev.moved] } } := by
          simp only [World.tick, Controller.tick, hactive, hreading, hfifo, Bool.false_eq_true,
            if_true, if_false]
        rw [htick]
        refine h.count hmore ?_ ?_ ?_ ?_
        · rw [if_neg hr]
          omega
        · rw [if_neg hr]
        · rw [Job.log_succ j _ hr', h.received_eq]
        · rw [h.supply_eq, Job.left, Job.left, if_neg hr, if_neg hr]
  · have htick : w.tick = w := by
      simp only [World.tick, Controller.tick, h.active_eq, decide_eq_false hmore,
        Bool.false_eq_true, if_false]
    exact htick.symm ▸ ⟨h, id⟩

end Flow

/-! ## What a status word grants -/

/-- What the driver concludes from the status word on which it takes an action. -/
def Granted (j : Job) (i : ℕ) (w : World Controller) : Irq.Action → Prop
  | .finish r => r = .ok ∧ i = j.len ∧ w.dev.moved = j.len
  | .pop => j.reading = true ∧ i < w.dev.moved
  | .push => j.reading = false ∧ i - w.dev.moved < Controller.depth ∧ i < j.len
  | .idle => True

/-- A transfer in flight, with the grounds for the action under way. -/
structure Flowing (j : Job) (x : Xfer) (i k : ℕ) (a : Irq.Action) (w : World Controller) : Prop
    extends Flow j x i k w where
  live : Live j w
  granted : Granted j i w a

/-- An assertion that the controller keeps and that keeps the data. -/
structure Firm (j : Job) (P : World Controller → Prop) : Prop where
  stable : Prog.Stable World.tick P
  kept : ∀ w, P w → j.Kept w

theorem firm_flowing (j : Job) (x : Xfer) (i k : ℕ) (a : Irq.Action) :
    Firm j (Flowing j x i k a) := by
  refine ⟨fun w h => ⟨h.toFlow.tick.1, h.toFlow.tick.2 h.live, ?_⟩, fun w h => h.kept⟩
  have hle : w.dev.moved ≤ w.tick.dev.moved := w.dev.moved_tick
  have hbound := h.toFlow.tick.1.moved_le
  have hgranted := h.granted
  cases a with
  | finish r => exact ⟨hgranted.1, hgranted.2.1, by have := hgranted.2.2; omega⟩
  | pop => exact ⟨hgranted.1, by have := hgranted.2; omega⟩
  | push => exact ⟨hgranted.1, by have := hgranted.2.1; omega, hgranted.2.2⟩
  | idle => trivial

/-- A status word of the controller grants the action taken on it. -/
theorem granted_action {j : Job} {x : Xfer} {i : ℕ} {w : World Controller} (h : Flow j x i i w)
    (hlive : Live j w) :
    Granted j i w (Irq.action (w.word Controller.device)
      (Irq.progress j.reading j.buf j.len i)) := by
  have hword : w.word Controller.device = w.dev.status w.words.head := rfl
  have horder := h.order
  have hfifo := h.fifo_eq
  have hindex := h.index_le
  rw [hword]
  cases hr : j.reading with
  | false =>
    rw [hr] at horder hfifo
    have hlength : w.dev.fifo.length = i - w.dev.moved := by rw [hfifo]; exact j.length_window _ _
    have horder' : w.dev.moved ≤ i := horder
    simp only [Irq.action, Irq.progress, has_status_err, has_status_clkt, has_status_txd,
      has_status_done, hlength, Bool.false_eq_true, if_false, Bool.false_and, Bool.not_false,
      Bool.true_and, if_true]
    split_ifs with hpush hdone
    · have h := Bool.and_eq_true_iff.mp hpush
      exact ⟨hr, of_decide_eq_true h.1, of_decide_eq_true h.2⟩
    · rw [hlive, decide_eq_true_iff] at hdone
      exact ⟨rfl, by omega, hdone⟩
    · trivial
  | true =>
    rw [hr] at horder hfifo
    have hlength : w.dev.fifo.length = w.dev.moved - i := by rw [hfifo]; exact j.length_window _ _
    have horder' : i ≤ w.dev.moved := horder
    have hempty : w.dev.fifo.isEmpty = decide (w.dev.moved ≤ i) := by
      rw [Bool.eq_iff_iff, List.isEmpty_iff_length_eq_zero, hlength, decide_eq_true_iff]
      omega
    simp only [Irq.action, Irq.progress, has_status_err, has_status_clkt, has_status_rxd,
      has_status_done, hempty, Bool.false_eq_true, if_false, Bool.true_and, if_true,
      Bool.not_true, Bool.false_and]
    split_ifs with hpop hdone heq
    · have h := (Bool.and_eq_true_iff.mp hpop).1
      rw [Bool.not_eq_true', decide_eq_false_iff_not, Nat.not_le] at h
      exact ⟨hr, h⟩
    · rw [hlive, decide_eq_true_iff] at hdone
      exact ⟨rfl, eq_of_beq heq, hdone⟩
    · rw [hlive, decide_eq_true_iff] at hdone
      have hlt : i < j.len := Nat.lt_of_le_of_ne hindex fun h => heq (beq_iff_eq.mpr h)
      have hall : ¬ w.dev.moved ≤ i := by omega
      exact absurd (by rw [decide_eq_false hall, decide_eq_true hlt]; rfl) hpop
    · trivial

/-! ## The moves of the driver -/

/-- Transport code next to the controller: the data is kept throughout. -/
abbrev Runs {α : Type} (j : Job) (P : World Controller → Prop) (p : TransportM α)
    (Q : α → World Controller → Prop) : Prop :=
  Prog.Safe World.tick (world Controller.device) j.Kept P p Q

theorem sequential_runs (j : Job) :
    Prog.Sequential (@Prog.Always Cmd (World Controller) World.tick j.Kept) :=
  Prog.sequential_always World.tick j.Kept

theorem Firm.command {j : Job} {P : World Controller → Prop} (hP : Firm j P) {c : Cmd}
    {Q : c.Ans → World Controller → Prop}
    (hc : ∀ w, P w → Q (world Controller.device c w).1 (world Controller.device c w).2) :
    Runs j P (Prog.call c Prog.ret) Q :=
  Prog.Safe.command hP.stable hP.kept hc

/-- A byte survives the masks of both register accessors. -/
theorem setWidth_masked (b : Byte) : (b.setWidth 32 &&& 0xFF &&& 0xFF : Word).setWidth 8 = b := by
  rw [BitVec.and_assoc, BitVec.and_self, ← BitField.lowBits_eight, BitField.setWidth_and_lowBits]
  exact BitVec.setWidth_setWidth_of_le b (by omega)

section Moves

variable {j : Job} {x : Xfer} {i k : ℕ} {a : Irq.Action}

theorem Flow.congr {w w' : World Controller} {x' : Xfer} (h : Flow j x i k w) (hx : w'.xfer = x')
    (hdev : w'.dev = w.dev) (hmem : w'.mem = w.mem) : Flow j x' i k w' := by
  refine ⟨hx, ?_, ?_, ?_, ?_, h.index_le, h.stored_le, ?_, ?_, ?_, ?_, hmem.trans h.mem_eq⟩
  all_goals rw [hdev]
  · exact h.reading_eq
  · exact h.total_eq
  · exact h.active_eq
  · exact h.moved_le
  · exact h.order
  · exact h.fifo_eq
  · exact h.received_eq
  · exact h.supply_eq

/-- The next status word, with what it grants; it reports no error. -/
theorem runs_readStatus : Runs j (Flowing j x i i .idle) readStatus fun s w =>
    Flowing j x i i (Irq.action s (Irq.progress j.reading j.buf j.len i)) w ∧
      (Word.has s S_ERR = false ∧ Word.has s S_CLKT = false) :=
  (firm_flowing j x i i .idle).command fun _ h =>
    ⟨⟨h.toFlow.congr h.xfer_eq rfl rfl, h.live, granted_action h.toFlow h.live⟩,
      has_status_err _ _, has_status_clkt _ _⟩

/-- A look at the record. -/
theorem runs_xfer : Runs j (Flowing j x i k a) xfer fun y w => Flowing j x i k a w ∧ y = x :=
  (firm_flowing j x i k a).command fun _ h => ⟨h, h.xfer_eq⟩

theorem runs_assign (b : Assign) : Runs j (Flowing j x i k a) (assign b)
    fun _ => Flowing j (b.apply x) i k a :=
  (firm_flowing j x i k a).command fun _ h =>
    ⟨h.toFlow.congr (congrArg b.apply h.xfer_eq) rfl rfl, h.live, h.granted⟩

/-- A byte taken out of the FIFO is the next one of the data. -/
theorem runs_readByte : Runs j (Flowing j x i i .pop) (i2c I2c.readByte) fun b w =>
    Flowing j x (i + 1) i .idle w ∧ j.reading = true ∧ (b &&& 0xFF).setWidth 8 = j.data i := by
  have hfirm := firm_flowing j x i i .pop
  refine Prog.Safe.call (c := Cmd.bsc (.load .FIFO))
    (R := fun v w => Flowing j x (i + 1) i .idle w ∧ j.reading = true ∧
      v = (j.data i).setWidth 32) hfirm.stable hfirm.kept (fun w h => ?_) fun v => ?_
  · obtain ⟨hr, hlt⟩ := h.granted
    have hfifo := h.fifo_eq
    rw [if_pos hr, Job.window_cons j hlt] at hfifo
    have hload : Controller.access (.load .FIFO) w.dev =
        ((j.data i).setWidth 32, { w.dev with fifo := j.window (i + 1) w.dev.moved }) := by
      simp only [Controller.access, hfifo]
      rfl
    have hstep : world Controller.device (.bsc (.load .FIFO)) w = ((j.data i).setWidth 32,
        { w with dev := { w.dev with fifo := j.window (i + 1) w.dev.moved } }) := by
      simp only [world, Controller.device, hload]
      rfl
    have hbound := h.moved_le
    rw [hstep]
    refine ⟨⟨⟨h.xfer_eq, h.reading_eq, h.total_eq, h.active_eq, hbound, by omega, h.stored_le,
      ?_, ?_, h.received_eq, h.supply_eq, h.mem_eq⟩, h.live, trivial⟩, hr, rfl⟩
    · rw [if_pos hr]
      exact hlt
    · rw [if_pos hr]
  · refine Prog.Triple.pure (sequential_runs j) fun s hs => ⟨hs.1, hs.2.1, ?_⟩
    rw [hs.2.2]
    exact setWidth_masked (j.data i)

/-- The byte taken is stored in its place. -/
theorem runs_storeByte (hr : j.reading = true) :
    Runs j (Flowing j x (i + 1) i .idle) (storeByte (j.buf + i) (j.data i))
      fun _ => Flowing j x (i + 1) (i + 1) .idle := by
  refine (firm_flowing j x (i + 1) i .idle).command fun w h => ⟨⟨h.xfer_eq, h.reading_eq,
    h.total_eq, h.active_eq, h.moved_le, h.index_le, h.index_le, h.order, h.fifo_eq, h.received_eq,
    h.supply_eq, ?_⟩, h.live, trivial⟩
  rw [Job.memory_succ j i hr, ← h.mem_eq]
  rfl

/-- A byte of a write is loaded from the caller's buffer. -/
theorem runs_loadByte : Runs j (Flowing j x i k .push) (loadByte (j.buf + i))
    fun b w => Flowing j x i k .push w ∧ b = j.data i := by
  refine (firm_flowing j x i k .push).command fun w h => ⟨h, ?_⟩
  have hr : j.reading = false := h.granted.1
  change w.mem (j.buf + i) = j.data i
  rw [h.mem_eq, Job.memory, Job.data, hr]
  rfl

/-- A byte put into the FIFO is the next one of the data. -/
theorem runs_writeByte :
    Runs j (Flowing j x i i .push) (i2c (I2c.writeByte ((j.data i).setWidth 32)))
      fun _ => Flowing j x (i + 1) (i + 1) .idle := by
  refine (firm_flowing j x i i .push).command (c := .bsc (.store .FIFO _)) fun w h => ?_
  obtain ⟨hr, hroom, hlt⟩ := h.granted
  have hr' : ¬ j.reading = true := by rw [hr]; exact Bool.false_ne_true
  have horder := h.order
  have hfifo := h.fifo_eq
  rw [if_neg hr'] at horder hfifo
  have hlength : w.dev.fifo.length < Controller.depth := by
    rw [hfifo, Job.length_window]
    exact hroom
  have hbyte : ((j.data i).setWidth 32 &&& 0xFF : Word).setWidth 8 = j.data i := by
    have h := setWidth_masked (j.data i)
    rwa [BitVec.and_assoc, BitVec.and_self] at h
  have hstore : Controller.access (.store .FIFO ((j.data i).setWidth 32 &&& 0xFF)) w.dev =
      ((), { w.dev with fifo := j.window w.dev.moved (i + 1) }) := by
    simp only [Controller.access, if_pos hlength, hbyte]
    rw [hfifo, Job.window_succ j horder]
    rfl
  simp only [world, Controller.device, hstore]
  refine ⟨⟨h.xfer_eq, h.reading_eq, h.total_eq, h.active_eq, h.moved_le, hlt, hlt, ?_, ?_,
    h.received_eq, h.supply_eq, ?_⟩, h.live, trivial⟩
  · rw [if_neg hr']
    exact Nat.le_succ_of_le horder
  · rw [if_neg hr']
  · rw [h.mem_eq, Job.memory, Job.memory, if_neg hr', if_neg hr']

/-- The move of a byte by the polled transport. -/
theorem runs_move (ha : a = .pop ∨ a = .push) :
    Runs j (Flowing j x i i a) (Polled.move j.reading j.buf i)
      fun _ => Flowing j x (i + 1) (i + 1) .idle := by
  have hR := sequential_runs j
  rcases ha with rfl | rfl
  · by_cases hr : j.reading
    · rw [Polled.move, if_pos hr]
      refine Prog.Triple.bind hR runs_readByte fun b => ?_
      refine (Prog.Triple.assume fun hb => ?_).weaken (fun _ hs => ⟨hs.1, hs.2.2⟩) fun _ _ hs => hs
      rw [hb]
      exact runs_storeByte hr
    · exact fun s hs => absurd hs.granted.1 hr
  · by_cases hr : j.reading
    · exact fun s hs => absurd hr (by rw [hs.granted.1]; exact Bool.false_ne_true)
    · rw [Polled.move, if_neg hr]
      refine Prog.Triple.bind hR runs_loadByte fun b => Prog.Triple.assume ?_
      rintro rfl
      exact runs_writeByte

end Moves

/-! ## The polled transport -/

/-- A transfer that may have lost its way, its data kept. -/
def Ebb (j : Job) (w : World Controller) : Prop := ∃ x i k, Flow j x i k w

/-- All bytes have been moved on the bus and through the FIFO. -/
def Over (j : Job) (x : Xfer) (w : World Controller) : Prop :=
  Flow j x j.len j.len w ∧ w.dev.moved = j.len

/-- A transfer ends with its data kept, and all of it if the result is Ok. -/
def Ends (j : Job) (r : I2cResult) (w : World Controller) : Prop :=
  Ebb j w ∧ (r = .ok → ∃ x, Over j x w)

theorem firm_ebb (j : Job) : Firm j (Ebb j) :=
  ⟨fun _ ⟨x, i, k, h⟩ => ⟨x, i, k, h.tick.1⟩, fun _ ⟨_, _, _, h⟩ => h.kept⟩

theorem over_of_granted {j : Job} {x : Xfer} {i : ℕ} {r : I2cResult} {w : World Controller}
    (h : Flowing j x i i (.finish r) w) : r = .ok ∧ Over j x w := by
  obtain ⟨hr, hi, hmoved⟩ := h.granted
  subst hi
  exact ⟨hr, h.toFlow, hmoved⟩

theorem runs_loop (j : Job) (x : Xfer) (spins i : ℕ) :
    Runs j (Flowing j x i i .idle) (Polled.loop j.reading j.buf j.len spins i)
      fun r => Ends j (r.getD .timeout) := by
  have hR := sequential_runs j
  induction spins generalizing i with
  | zero => exact Prog.Triple.pure hR fun s hs => ⟨⟨x, i, i, hs.toFlow⟩, nofun⟩
  | succ spins ih =>
    refine Prog.Triple.bind hR runs_readStatus fun s => Prog.Triple.assume fun _ => ?_
    cases Irq.action s (Irq.progress j.reading j.buf j.len i) with
    | finish r =>
      refine Prog.Triple.pure hR fun s hs => ?_
      exact ⟨⟨x, i, i, hs.toFlow⟩, fun _ => ⟨x, (over_of_granted hs).2⟩⟩
    | idle => exact ih i
    | pop => exact Prog.Triple.bind hR (runs_move (.inl rfl)) fun _ => ih (i + 1)
    | push => exact Prog.Triple.bind hR (runs_move (.inr rfl)) fun _ => ih (i + 1)

/-! ## Starting a transfer -/

/-- A program of the controller while nothing runs. -/
theorem runs_idly {α : Type} {j : Job} {received : List Byte} {P : Controller → Prop}
    {Q : α → Controller → Prop} {p : I2c.Io α} (hp : Controller.Idly received P p Q) (x : Xfer)
    {n : ℕ} (hn : n ≤ j.len) (hreceived : received = j.log n) :
    Runs j (fun w => P w.dev ∧ w.xfer = x ∧ w.mem = j.memory n) (i2c p)
      fun a w => Q a w.dev ∧ w.xfer = x ∧ w.mem = j.memory n := by
  refine Prog.Safe.of_run ?_
  rintro w ⟨hP, hx, hmem⟩
  obtain ⟨hQ, hthrough⟩ := hp w.dev hP
  refine ⟨fun e he => ?_, ?_⟩
  · rw [history_i2c] at he
    obtain ⟨e', he', rfl⟩ := List.mem_map.mp he
    have hstill := hthrough e' he'
    refine ⟨?_, n, hn, hmem, hstill.2.trans hreceived⟩
    simp only [World.tick, Controller.tick_of_inactive hstill.1]
  · rw [run_i2c]
    exact ⟨hQ, hx, hmem⟩

/-- Nothing runs yet; the surroundings are those of the call. -/
def Before (j : Job) (x : Xfer) (w : World Controller) : Prop :=
  Controller.Resting j.received j.supply w.dev ∧ w.xfer = x ∧ w.mem = j.memory 0

theorem log_zero (j : Job) : j.log 0 = j.received := by
  simp [Job.log]

theorem left_zero (j : Job) : j.left 0 = j.supply := ite_self _

theorem memory_zero (j : Job) : j.memory 0 = j.mem := by
  have hnil : place j.mem j.buf [] = j.mem :=
    funext fun q => by simp [place]
  rw [Job.memory, Job.window_self, hnil, ite_self]

theorem flowing_of_started {j : Job} (hlen : 0 < j.len) {x : Xfer} {w : World Controller}
    (h : Controller.Started j.received j.supply j.len j.reading w.dev) (hx : w.xfer = x)
    (hmem : w.mem = j.memory 0) : Flowing j x 0 0 .idle w := by
  refine ⟨⟨hx, h.reading_eq, h.total_eq, ?_, ?_, Nat.zero_le _, Nat.zero_le _, ?_, ?_, ?_, ?_,
    hmem⟩, ?_, trivial⟩
  · rw [h.active, h.moved_eq, decide_eq_true hlen]
  · rw [h.moved_eq]
    exact Nat.zero_le _
  · rw [h.moved_eq]
    exact ite_self _ ▸ Nat.le_refl 0
  · rw [h.moved_eq, h.fifo_eq, Job.window_self, ite_self]
  · rw [h.moved_eq, h.received_eq, log_zero]
  · rw [h.moved_eq, h.supply_eq, left_zero]
  · rw [Live, h.done_eq, h.moved_eq, decide_eq_false (Nat.ne_of_lt hlen)]

/-- A start puts the transfer in flight. -/
theorem runs_start {j : Job} (hlen : 0 < j.len) {p : I2c.Io Unit}
    (hp : Controller.Idly j.received (Controller.Resting j.received j.supply) p
      fun _ => Controller.Started j.received j.supply j.len j.reading) (x : Xfer) :
    Runs j (Before j x) (i2c p) fun _ => Flowing j x 0 0 .idle :=
  (runs_idly hp x (Nat.zero_le _) (log_zero j).symm).weaken (fun _ hs => hs)
    fun _ _ hs => flowing_of_started hlen hs.1 hs.2.1 hs.2.2

theorem runs_transfer_polled {j : Job} (hlen : 0 < j.len) (hmax : j.len ≤ 0xFFFF) (x : Xfer)
    (maxSpins : ℕ) (addr : Byte) :
    Runs j (Before j x)
      (do return (← Polled.transfer maxSpins j.reading addr j.buf j.len).getD .timeout)
      (Ends j) := by
  have hR := sequential_runs j
  rw [Polled.transfer, bind_assoc]
  exact Prog.Triple.bind hR (runs_start hlen (Controller.idly_prime addr hmax j.reading) x) fun _ =>
    Prog.Triple.bind hR (runs_loop j x maxSpins 0) fun _ => Prog.Triple.pure hR fun _ hs => hs

/-! ## The interrupt-driven transport -/

theorem World.tick_of_inactive {w : World Controller} (hw : w.dev.active = false) :
    w.tick = w := by
  simp only [World.tick, Controller.tick_of_inactive hw]

theorem firm_before (j : Job) (x : Xfer) : Firm j (Before j x) := by
  refine ⟨fun w h => ?_, fun w h => ⟨0, Nat.zero_le _, h.2.2, ?_⟩⟩
  · rw [World.tick_of_inactive h.1.inactive]
    exact h
  · rw [log_zero, h.1.received_eq]

theorem runs_begin {j : Job} (hlen : 0 < j.len) (hmax : j.len ≤ 0xFFFF) (x : Xfer) (addr : Byte) :
    Runs j (Before j x) (Irq.begin j.reading addr j.buf j.len)
      fun _ => Flowing j (Irq.progress j.reading j.buf j.len 0) 0 0 .idle := by
  have hR := sequential_runs j
  have hput : ∀ y b, Runs j (Before j y) (assign b) fun _ => Before j (b.apply y) :=
    fun y b => (firm_before j y).command fun w h => ⟨h.1, congrArg b.apply h.2.1, h.2.2⟩
  have hpublish : ∀ tx tn rx rn reading, Runs j (Before j {})
      (Irq.publish tx tn rx rn reading nullptr nullptr)
      fun _ => Before j (Irq.published tx tn rx rn reading nullptr nullptr) := by
    intro tx tn rx rn reading
    exact Prog.Triple.bind hR (hput _ _) fun _ => Prog.Triple.bind hR (hput _ _) fun _ =>
      Prog.Triple.bind hR (hput _ _) fun _ => Prog.Triple.bind hR (hput _ _) fun _ =>
        Prog.Triple.bind hR (hput _ _) fun _ => Prog.Triple.bind hR (hput _ _) fun _ =>
          Prog.Triple.bind hR (hput _ _) fun _ => hput _ _
  have hrecord : Runs j (Before j {}) (Irq.publishFor j.reading j.buf j.len)
      fun _ => Before j (Irq.progress j.reading j.buf j.len 0) := by
    cases hr : j.reading
    · exact hpublish j.buf j.len nullptr 0 false
    · exact hpublish nullptr 0 j.buf j.len true
  exact Prog.Triple.bind hR (hput x .fresh) fun _ => Prog.Triple.bind hR hrecord fun _ =>
    runs_start hlen (Controller.idly_launch addr hmax j.reading) _

/-- A transfer that is over, with DONE acknowledged. -/
def Rested (j : Job) (x : Xfer) (w : World Controller) : Prop :=
  Over j x w ∧ w.dev.done = false

theorem Over.inactive {j : Job} {x : Xfer} {w : World Controller} (h : Over j x w) :
    w.dev.active = false := by
  rw [h.1.active_eq, decide_eq_false (by rw [h.2]; exact Nat.lt_irrefl _)]

theorem firm_over (j : Job) (x : Xfer) : Firm j (Over j x) := by
  refine ⟨fun w h => ?_, fun w h => h.1.kept⟩
  rw [World.tick_of_inactive h.inactive]
  exact h

theorem firm_rested (j : Job) (x : Xfer) : Firm j (Rested j x) := by
  refine ⟨fun w h => ?_, fun w h => h.1.1.kept⟩
  rw [World.tick_of_inactive h.1.inactive]
  exact h

/-- The picture says nothing about the registers and DONE. -/
theorem Flow.registers {j : Job} {x : Xfer} {i k : ℕ} {w w' : World Controller}
    (h : Flow j x i k w) {regs : Register → Word} {done : Bool}
    (hdev : w'.dev = { w.dev with regs := regs, done := done }) (hx : w'.xfer = w.xfer)
    (hmem : w'.mem = w.mem) : Flow j x i k w' := by
  have hmid : Flow j x i k { w with dev := { w.dev with regs := regs, done := done } } :=
    ⟨h.xfer_eq, h.reading_eq, h.total_eq, h.active_eq, h.moved_le, h.index_le, h.stored_le, h.order,
      h.fifo_eq, h.received_eq, h.supply_eq, h.mem_eq⟩
  exact hmid.congr (hx.trans h.xfer_eq) hdev hmem

theorem runs_quiesce (j : Job) (x : Xfer) :
    Runs j (Over j x) (i2c I2c.quiesce) fun _ => Rested j x := by
  intro s hs
  have hfifo : s.1.dev.fifo = [] := by rw [hs.1.fifo_eq, hs.2, Job.window_self, ite_self]
  have hquiesce := runs_idly (j := j) (Controller.idly_quiesce s.1.dev hs.inactive hfifo) x
    (Nat.le_refl _) (by rw [hs.1.received_eq, hs.2]) s ⟨rfl, hs.1.xfer_eq, hs.1.mem_eq⟩
  obtain ⟨⟨⟨regs, hdev⟩, hx, hmem⟩, hkept⟩ := hquiesce
  refine ⟨⟨⟨hs.1.registers hdev (hx.trans hs.1.xfer_eq.symm) (hmem.trans hs.1.mem_eq.symm), ?_⟩,
    ?_⟩, hkept⟩
  · rw [hdev]
    exact hs.2
  · rw [hdev]

/-- The record of a transfer that has been finished. -/
def settled (j : Job) : Xfer :=
  { Irq.progress j.reading j.buf j.len j.len with result := .ok, done := true, active := false }

/-- A transfer that waits for interrupts, or has been finished by one. -/
def Pending (j : Job) (w : World Controller) : Prop :=
  (∃ i, Flowing j (Irq.progress j.reading j.buf j.len i) i i .idle w) ∨ Rested j (settled j) w

theorem firm_pending (j : Job) : Firm j (Pending j) := by
  refine ⟨fun w h => ?_, fun w h => ?_⟩
  · rcases h with ⟨i, h⟩ | h
    · exact .inl ⟨i, (firm_flowing j _ i i .idle).stable w h⟩
    · exact .inr ((firm_rested j _).stable w h)
  · rcases h with ⟨i, h⟩ | h
    · exact h.kept
    · exact h.1.1.kept

theorem Pending.ebb {j : Job} {w : World Controller} (h : Pending j w) : Ebb j w := by
  rcases h with ⟨i, h⟩ | h
  · exact ⟨_, i, i, h.toFlow⟩
  · exact ⟨_, _, _, h.1.1⟩

/-- Finishing a transfer that is over. -/
theorem runs_finalize (j : Job) :
    Runs j (Over j (Irq.progress j.reading j.buf j.len j.len)) (Irq.finalize .ok)
      fun _ => Rested j (settled j) := by
  have hR := sequential_runs j
  have hput : ∀ y b, Runs j (Rested j y) (assign b) fun _ => Rested j (b.apply y) :=
    fun y b => (firm_rested j y).command fun w h =>
      ⟨⟨h.1.1.congr (congrArg b.apply h.1.1.xfer_eq) rfl rfl, h.1.2⟩, h.2⟩
  have hsettled : (Assign.active false).apply ((Assign.done true).apply ((Assign.result .ok).apply
      (Irq.progress j.reading j.buf j.len j.len))) = settled j := rfl
  have hlook : Runs j (Rested j (settled j)) xfer
      fun x w => Rested j (settled j) w ∧ x.cb = nullptr := by
    refine (firm_rested j _).command fun w h => ⟨h, ?_⟩
    change w.xfer.cb = nullptr
    rw [h.1.1.xfer_eq]
    cases hr : j.reading <;> simp [settled, Irq.progress, hr]
  rw [Irq.finalize_eq]
  refine Prog.Triple.bind hR (runs_quiesce j _) fun _ => Prog.Triple.bind hR (hput _ _) fun _ =>
    Prog.Triple.bind hR (hput _ _) fun _ => Prog.Triple.bind hR (hput _ _) fun _ => ?_
  rw [hsettled]
  refine Prog.Triple.bind hR hlook fun x => Prog.Triple.assume fun hcb => ?_
  rw [if_neg (not_not_intro hcb)]
  exact Prog.Triple.pure hR fun _ hs => hs

/-- The move of a byte by the interrupt handler. -/
theorem runs_popByte (j : Job) (i : ℕ) :
    Runs j (Flowing j (Irq.progress j.reading j.buf j.len i) i i .pop)
      (Irq.popByte (Irq.progress j.reading j.buf j.len i))
      fun _ => Flowing j (Irq.progress j.reading j.buf j.len (i + 1)) (i + 1) (i + 1) .idle := by
  have hR := sequential_runs j
  by_cases hr : j.reading
  · have hrecord : (Assign.ri (i + 1)).apply (Irq.progress true j.buf j.len i) =
        Irq.progress true j.buf j.len (i + 1) := rfl
    have hindex : (Irq.progress true j.buf j.len i).ri = i := rfl
    have hplace : (Irq.progress true j.buf j.len i).rx = j.buf := rfl
    rw [hr, Irq.popByte, hindex, hplace]
    refine Prog.Triple.bind hR runs_readByte fun b => ?_
    refine (Prog.Triple.assume fun hb => ?_).weaken (fun _ hs => ⟨hs.1, hs.2.2⟩) fun _ _ hs => hs
    rw [hb]
    exact Prog.Triple.bind hR (runs_assign _) fun _ => hrecord ▸ runs_storeByte hr
  · exact fun s hs => absurd hs.granted.1 hr

theorem runs_pushByte (j : Job) (i : ℕ) :
    Runs j (Flowing j (Irq.progress j.reading j.buf j.len i) i i .push)
      (Irq.pushByte (Irq.progress j.reading j.buf j.len i))
      fun _ => Flowing j (Irq.progress j.reading j.buf j.len (i + 1)) (i + 1) (i + 1) .idle := by
  have hR := sequential_runs j
  cases hr : j.reading
  · have hrecord : (Assign.ti (i + 1)).apply (Irq.progress false j.buf j.len i) =
        Irq.progress false j.buf j.len (i + 1) := rfl
    have hindex : (Irq.progress false j.buf j.len i).ti = i := rfl
    have hplace : (Irq.progress false j.buf j.len i).tx = j.buf := rfl
    rw [Irq.pushByte, hindex, hplace]
    refine Prog.Triple.bind hR (runs_assign _) fun _ => Prog.Triple.bind hR runs_loadByte
      fun b => Prog.Triple.assume ?_
    rintro rfl
    exact hrecord ▸ runs_writeByte
  · exact fun s hs => absurd hs.granted.1 (by rw [hr]; exact Bool.noConfusion)

/-- The handler's loop on a transfer in flight. -/
theorem runs_irqLoop_flowing (j : Job) (fuel i : ℕ) :
    Runs j (Flowing j (Irq.progress j.reading j.buf j.len i) i i .idle) (Irq.irqLoop fuel)
      fun _ => Pending j := by
  have hR := sequential_runs j
  induction fuel generalizing i with
  | zero => exact Prog.Triple.pure hR fun _ hs => .inl ⟨i, hs⟩
  | succ fuel ih =>
    rw [Irq.irqLoop_succ]
    refine Prog.Triple.bind hR runs_readStatus fun s => Prog.Triple.assume fun hclean => ?_
    simp only [hclean.1, hclean.2, Bool.false_eq_true, if_false]
    refine Prog.Triple.bind hR runs_xfer fun y => Prog.Triple.assume ?_
    rintro rfl
    cases Irq.action s (Irq.progress j.reading j.buf j.len i) with
    | finish r =>
      refine fun t ht => ?_
      obtain ⟨rfl, hover⟩ := over_of_granted ht
      obtain ⟨-, rfl, -⟩ := ht.granted
      have hfinish := runs_finalize j t hover
      exact ⟨.inr hfinish.1, hfinish.2⟩
    | idle => exact Prog.Triple.pure hR fun _ hs => .inl ⟨i, hs⟩
    | pop => exact Prog.Triple.bind hR (runs_popByte j i) fun _ => ih (i + 1)
    | push => exact Prog.Triple.bind hR (runs_pushByte j i) fun _ => ih (i + 1)

/-- A finished transfer gives the handler nothing to do. -/
theorem action_settled {j : Job} {w : World Controller} (h : w.dev.done = false) :
    Irq.action (w.word Controller.device) (settled j) = .idle := by
  have hword : w.word Controller.device = w.dev.status w.words.head := rfl
  rw [hword]
  cases hr : j.reading <;>
    simp [Irq.action, settled, Irq.progress, hr, has_status_err, has_status_clkt,
      has_status_done, h]

/-- The handler's loop on a finished transfer. -/
theorem runs_irqLoop_rested (j : Job) (fuel : ℕ) :
    Runs j (Rested j (settled j)) (Irq.irqLoop fuel) fun _ => Rested j (settled j) := by
  have hR := sequential_runs j
  cases fuel with
  | zero => exact Prog.Triple.pure hR fun _ hs => hs
  | succ fuel =>
    have hstatus : Runs j (Rested j (settled j)) readStatus fun s w => Rested j (settled j) w ∧
        ((Word.has s S_ERR = false ∧ Word.has s S_CLKT = false) ∧
          Irq.action s (settled j) = .idle) :=
      (firm_rested j _).command fun _ h => ⟨⟨⟨h.1.1.congr h.1.1.xfer_eq rfl rfl, h.1.2⟩, h.2⟩,
        ⟨has_status_err _ _, has_status_clkt _ _⟩, action_settled h.2⟩
    have hlook : Runs j (Rested j (settled j)) xfer
        fun y w => Rested j (settled j) w ∧ y = settled j :=
      (firm_rested j _).command fun _ h => ⟨h, h.1.1.xfer_eq⟩
    rw [Irq.irqLoop_succ]
    refine Prog.Triple.bind hR hstatus fun s => Prog.Triple.assume fun hs => ?_
    simp only [hs.1.1, hs.1.2, Bool.false_eq_true, if_false]
    refine Prog.Triple.bind hR hlook fun y => Prog.Triple.assume ?_
    rintro rfl
    rw [hs.2]
    exact Prog.Triple.pure hR fun _ hs => hs

theorem runs_handleIrq (j : Job) : Runs j (Pending j) Irq.handleIrq fun _ => Pending j := by
  have hR := sequential_runs j
  have hlook : Runs j (Pending j) xfer fun _ => Pending j := (firm_pending j).command fun _ h => h
  have hloop : ∀ fuel, Runs j (Pending j) (Irq.irqLoop fuel) fun _ => Pending j := by
    intro fuel s hs
    rcases hs with ⟨i, hs⟩ | hs
    · exact runs_irqLoop_flowing j fuel i s hs
    · have hrest := runs_irqLoop_rested j fuel s hs
      exact ⟨.inr hrest.1, hrest.2⟩
  exact Prog.Triple.bind hR (Prog.Triple.pure hR fun _ hs => hs) fun _ =>
    Prog.Triple.bind hR hlook fun x => hloop _

/-! ## Giving up -/

/-- A store to the control register that starts nothing keeps the data. -/
theorem Flow.setC {j : Job} {x : Xfer} {i k : ℕ} {w : World Controller} (h : Flow j x i k w)
    {v : Word} (hv : v.getLsbD 7 = false) :
    ∃ i', Flow j x i' k { w with dev := w.dev.setC v } := by
  rw [Controller.setC_of_not_start _ v hv]
  by_cases hclear : v.getLsbD 4 || v.getLsbD 5
  · -- the FIFO is emptied: the driver's end of the window falls back on the controller's
    refine ⟨w.dev.moved, h.xfer_eq, h.reading_eq, h.total_eq, h.active_eq, h.moved_le, h.moved_le,
      h.stored_le, ?_, ?_, h.received_eq, h.supply_eq, h.mem_eq⟩
    · exact ite_self (Nat.le _ _) ▸ Nat.le_refl _
    · simp only [hclear, if_true, Job.window_self, ite_self]
  · refine ⟨i, h.xfer_eq, h.reading_eq, h.total_eq, h.active_eq, h.moved_le, h.index_le,
      h.stored_le, h.order, ?_, h.received_eq, h.supply_eq, h.mem_eq⟩
    simp only [hclear]
    exact h.fifo_eq

/-- A compound assignment to the control register that starts nothing. -/
theorem runs_modify (j : Job) (f : Word → Word)
    (hf : ∀ v : Word, v.getLsbD 7 = false → (f v).getLsbD 7 = false) :
    Runs j (Ebb j) (i2c (Mmio.modify .C f)) fun _ => Ebb j := by
  refine Prog.Safe.call (c := Cmd.bsc (.load .C))
    (R := fun v w => Ebb j w ∧ BitVec.getLsbD v 7 = false) (firm_ebb j).stable (firm_ebb j).kept
    (fun w h => ⟨h, ?_⟩) fun v => Prog.Triple.assume fun hv => ?_
  · exact (Controller.getLsbD_control w.dev 7).trans (Bool.and_false _)
  · refine (firm_ebb j).command (c := .bsc (.store .C (f v))) ?_
    rintro w ⟨x, i, k, h⟩
    obtain ⟨i', h'⟩ := h.setC (hf v hv)
    exact ⟨x, i', k, h'⟩

theorem runs_clrControl (j : Job) (f : Control) :
    Runs j (Ebb j) (i2c (I2c.clrControl f)) fun _ => Ebb j :=
  runs_modify j (fun v => v &&& ~~~(I2c.mask (I2c.controlField f).width <<<
    (I2c.controlField f).shift)) fun v hv => by rw [BitVec.getLsbD_and, hv, Bool.false_and]

theorem runs_clearFifo (j : Job) : Runs j (Ebb j) (i2c I2c.clearFifo) fun _ => Ebb j := by
  have hfield : ((0b01 &&& I2c.mask 2) <<< 4 : Word).getLsbD 7 = false := by decide
  have hset := runs_modify j (fun v => v ||| ((0b01 &&& I2c.mask 2) <<< 4)) fun v hv => by
    rw [BitVec.getLsbD_or, hv, hfield, Bool.or_self]
  rw [I2c.clearFifo, I2c.setControl, i2c_bind]
  exact Prog.Triple.bind (sequential_runs j) (runs_clrControl j .CLEAR) fun _ => hset

/-- The watchdog's abort keeps the data, whatever the controller still does. -/
theorem runs_abortTransfer (j : Job) :
    Runs j (Ebb j) Irq.abortTransfer fun _ => Ends j .timeout := by
  have hR := sequential_runs j
  have hclr := runs_clrControl j
  have hack : ∀ f, Runs j (Ebb j) (i2c (I2c.clrStatus f)) fun _ => Ebb j := fun f =>
    (firm_ebb j).command fun w ⟨x, i, k, h⟩ => ⟨x, i, k, h.registers rfl rfl rfl⟩
  have hput : ∀ b, Runs j (Ebb j) (assign b) fun _ => Ebb j := fun b =>
    (firm_ebb j).command fun _ ⟨_, i, k, h⟩ => ⟨_, i, k, h.congr rfl rfl rfl⟩
  have hall : Runs j (Ebb j) Irq.abortTransfer fun _ => Ebb j :=
    Prog.Triple.bind hR (hclr .INTD) fun _ => Prog.Triple.bind hR (hclr .INTT) fun _ =>
      Prog.Triple.bind hR (hclr .INTR) fun _ => Prog.Triple.bind hR (runs_clearFifo j) fun _ =>
        Prog.Triple.bind hR (hack .DONE) fun _ => Prog.Triple.bind hR (hack .ERR) fun _ =>
          Prog.Triple.bind hR (hack .CLKT_TO) fun _ => hput _
  exact hall.weaken (fun _ hs => hs) fun _ _ hs => ⟨hs, nofun⟩

theorem runs_transfer_irq {j : Job} (hlen : 0 < j.len) (hmax : j.len ≤ 0xFFFF) (x : Xfer)
    (maxWaits : ℕ) (addr : Byte) :
    Runs j (Before j x) (Irq.transfer Irq.anyIrqs maxWaits j.reading addr j.buf j.len)
      (Ends j) := by
  have hR := sequential_runs j
  have hcount : Runs j (Pending j) (Prog.call Cmd.interrupts Prog.ret) fun _ => Pending j := by
    refine (firm_pending j).command fun w h => ?_
    rcases h with ⟨i, h⟩ | h
    · exact .inl ⟨i, h.toFlow.congr h.xfer_eq rfl rfl, h.live, h.granted⟩
    · exact .inr ⟨⟨h.1.1.congr h.1.1.xfer_eq rfl rfl, h.1.2⟩, h.2⟩
  have hlook : Runs j (Pending j) xfer
      fun x w => Pending j w ∧ (x.done → Ends j x.result w) := by
    refine (firm_pending j).command fun w h => ⟨h, fun hdone => ?_⟩
    rcases h with ⟨i, h⟩ | h
    · have hnot : w.xfer.done = false := by
        rw [h.xfer_eq]
        cases j.reading <;> rfl
      exact absurd (hnot.symm.trans hdone) Bool.false_ne_true
    · exact ⟨⟨_, _, _, h.1.1⟩, fun _ => ⟨_, h.1⟩⟩
  have habort : Runs j (Pending j) Irq.abortTransfer fun _ => Ends j .timeout :=
    (runs_abortTransfer j).weaken (fun _ hs => hs.ebb) fun _ _ hs => hs
  exact Prog.Triple.bind hR (runs_begin hlen hmax x addr) fun _ =>
    (Irq.triple_waitComplete hR hlook (Irq.triple_anyIrqs hR hcount (runs_handleIrq j)) habort
      maxWaits).weaken (fun _ hs => .inl ⟨0, hs⟩) fun _ _ hs => hs

/-! ## Calls -/

/-- The transfer that a call asks for in its surroundings. -/
def World.job (w : World Controller) (reading : Bool) (buf : Ptr) (len : ℕ) : Job :=
  ⟨reading, buf, len, w.mem, w.dev.received, w.dev.supply⟩

/-- From the call until it returns and after it, however far the controller has gone,
the data is kept; after Ok all of it has arrived. -/
structure Delivers (j : Job) (p : TransportM I2cResult) (w : World Controller)
    (sched : Stream' ℕ) : Prop where
  during : ∀ e ∈ p.history running (w, sched), ∀ n, j.Kept (World.tick^[n] e.2.1)
  after : ∀ n, j.Kept (World.tick^[n] (p.run running (w, sched)).2.1)
  ok : (p.run running (w, sched)).1 = .ok →
    ∀ n, j.Complete (World.tick^[n] (p.run running (w, sched)).2.1)

section Calls

variable {j : Job} {w : World Controller} {sched : Stream' ℕ} {x : Xfer}

theorem delivers_of_runs {p : TransportM I2cResult} (hp : Runs j (Before j x) p (Ends j))
    (hw : Before j x w) : Delivers j p w sched := by
  obtain ⟨⟨hebb, hok⟩, hduring⟩ := hp (w, sched) hw
  refine ⟨hduring, fun n => ?_, fun hr n => ?_⟩
  · exact (firm_ebb j).kept _ ((firm_ebb j).stable.iterate n hebb)
  · obtain ⟨y, hover⟩ := hok hr
    have hn := (firm_over j y).stable.iterate n hover
    exact hn.1.complete hn.2

/-- A refused call touches nothing. -/
theorem delivers_badArg (hw : Before j x w) :
    Delivers j (return I2cResult.badArg) w sched := by
  refine ⟨fun e he => absurd he List.not_mem_nil, fun n => ?_, nofun⟩
  exact (firm_before j x).kept _ ((firm_before j x).stable.iterate n hw)

end Calls

theorem before_job {w : World Controller} (hidle : w.dev.active = false) (reading : Bool)
    (buf : Ptr) (len : ℕ) : Before (w.job reading buf len) w.xfer w :=
  ⟨⟨hidle, rfl, rfl⟩, rfl, (memory_zero (w.job reading buf len)).symm⟩

/-- Arguments that are not refused ask for at least one byte. -/
theorem length_pos_of_not_badArgs {addr : Byte} {buf : Ptr} {len : ℕ}
    (h : ¬ badArgs addr buf len) : 0 < len := by
  rcases Nat.eq_zero_or_pos len with rfl | hpos
  · exact absurd (by simp [badArgs]) h
  · exact hpos

/-- Both transports next to a running controller, for every budget and schedule and any
number of interrupts: at every moment the slave has received a prefix of the buffer, or
the buffer holds a prefix of the slave's data, and nothing else has changed. After Ok it
is all of it. -/
theorem transfers_deliver (budget : ℕ) (addr : Byte) (buf : Ptr) (len : ℕ) (hmax : len ≤ 65535)
    (w : World Controller) (hidle : w.dev.active = false) (sched : Stream' ℕ) :
    ∀ t ∈ [polled budget, interruptDriven Irq.anyIrqs budget],
      Delivers (w.job false buf len) (t.write addr buf len) w sched ∧
        Delivers (w.job true buf len) (t.read addr buf len) w sched := by
  have hpolled : ∀ reading, Delivers (w.job reading buf len)
      (if badArgs addr buf len then return .badArg
        else do return (← Polled.transfer budget reading addr buf len).getD .timeout) w sched := by
    intro reading
    have hw := before_job hidle reading buf len
    split_ifs with hbad
    · exact delivers_badArg hw
    · have hlen := length_pos_of_not_badArgs hbad
      exact delivers_of_runs (runs_transfer_polled hlen hmax w.xfer budget addr) hw
  have hirq : ∀ reading, Delivers (w.job reading buf len)
      (if badArgs addr buf len then return .badArg
        else Irq.transfer Irq.anyIrqs budget reading addr buf len) w sched := by
    intro reading
    have hw := before_job hidle reading buf len
    split_ifs with hbad
    · exact delivers_badArg hw
    · have hlen := length_pos_of_not_badArgs hbad
      exact delivers_of_runs (runs_transfer_irq hlen hmax w.xfer budget addr) hw
  intro t ht
  rcases List.mem_pair.mp ht with rfl | rfl
  · refine ⟨?_, ?_⟩
    · change Delivers _ (Polled.write budget addr buf len) w sched
      rw [Polled.write_eq]
      exact hpolled false
    · change Delivers _ (Polled.read budget addr buf len) w sched
      rw [Polled.read_eq]
      exact hpolled true
  · refine ⟨?_, ?_⟩
    · change Delivers _ (Irq.write Irq.anyIrqs budget addr buf len) w sched
      rw [Irq.write_eq]
      exact hirq false
    · change Delivers _ (Irq.read Irq.anyIrqs budget addr buf len) w sched
      rw [Irq.read_eq]
      exact hirq true

/-- The controller with nothing to do, in front of a slave that counts up from 7. -/
def Controller.quiet : Controller where
  regs _ := 0
  fifo := []
  active := false
  reading := false
  total := 0
  moved := 0
  done := false
  received := []
  supply n := BitVec.ofNat 8 (7 + n)

/-- A polled write and an interrupt-driven read, one step of the controller before each
command. -/
theorem transfers_deliver_quiet :
    (((polled 6).write 0x48 100 2).run running (.powerOn .quiet 0, fun _ => 1)).1 = .ok ∧
      (((interruptDriven Irq.anyIrqs 2).read 0x48 100 2).run running
        ({ World.powerOn .quiet 0 with interrupts := fun _ => 1 }, fun _ => 1)).1 = .ok ∧
      ∀ t ∈ [polled 6, interruptDriven Irq.anyIrqs 6],
      Delivers ((World.powerOn .quiet 0).job false 100 2) (t.write 0x48 100 2)
        (.powerOn .quiet 0) (fun _ => 1) ∧
      Delivers ((World.powerOn .quiet 0).job true 100 2) (t.read 0x48 100 2)
        (.powerOn .quiet 0) (fun _ => 1) :=
  ⟨by decide +kernel, by decide +kernel, transfers_deliver 6 0x48 100 2 (by decide) _ rfl _⟩

end Bcm2837
