import Bcm2837.Fairness
import Bcm2837.Integrity

/-!
# Transfers end within a bound

Next to a controller that gets a step within any `q` commands, a transfer of either transport
is over after a number of polls, or of waits for an interrupt, that depends on its length
alone. What is left of it falls with every byte that the driver or the controller moves, and
as long as the driver has nothing to do the controller has. For the interrupt-driven
transport this is the question whether the interrupts that it enables are raised whenever it
has to act.
-/
namespace Bcm2837

open Bsc

/-! ## The interrupt line -/

/-- Fill levels of the FIFO for TXW and RXR, which differ between chips. -/
structure Watermarks where
  tx : ℕ
  rx : ℕ
  tx_pos : 0 < tx
  rx_le : rx ≤ Controller.depth

namespace Controller

/-- The FIFO of a running write is low. -/
def txw (c : Controller) (m : Watermarks) : Bool :=
  c.active && !c.reading && decide (c.fifo.length < m.tx)

/-- The FIFO of a running read is high. -/
def rxr (c : Controller) (m : Watermarks) : Bool :=
  c.active && c.reading && decide (m.rx ≤ c.fifo.length)

def enabled (regs : Register → Word) (f : Control) : Bool :=
  (regs .C).getLsbD (I2c.controlField f).shift

/-- The level of the interrupt line. -/
def line (c : Controller) (m : Watermarks) : Bool :=
  enabled c.regs .INTD && c.done || enabled c.regs .INTT && c.txw m ||
    enabled c.regs .INTR && c.rxr m

/-! ## What is left of a transfer -/

/-- A transfer of `len` bytes of which some have been moved. -/
structure Counted (len : ℕ) (c : Controller) : Prop where
  total_eq : c.total = len
  moved_le : c.moved ≤ len
  active_eq : c.active = decide (c.moved < len)

/-- Bytes that the driver, at byte `i`, and the controller have yet to move. A byte of the
driver counts twice, as its move can hold the controller up. -/
def work (len i : ℕ) (c : Controller) : ℕ := 2 * (len - i) + (len - c.moved)

theorem tick_regs (c : Controller) : c.tick.regs = c.regs := by
  unfold tick
  split_ifs
  · rfl
  · rfl
  · cases c.fifo <;> rfl
  · rfl

/-- A step that is not idle moves a byte. -/
theorem tick_cases (c : Controller) : c.tick = c ∨
    c.active = true ∧ ∃ fifo received supply, c.tick =
      count { c with fifo := fifo, received := received, supply := supply } := by
  unfold tick
  by_cases ha : c.active
  · rw [if_pos ha]
    split_ifs
    · exact .inr ⟨ha, _, c.received, _, rfl⟩
    · exact .inl rfl
    · cases c.fifo with
      | nil => exact .inl rfl
      | cons b bs => exact .inr ⟨ha, bs, _, c.supply, rfl⟩
  · rw [if_neg ha]
    exact .inl rfl

theorem falls_tick (len i : ℕ) : Prog.Falls tick (Counted len) (work len i) := by
  have hcount (c : Controller) (h : Counted len c) (ha : c.active = true) : c.moved < len :=
    of_decide_eq_true (h.active_eq.symm.trans ha)
  refine ⟨fun c h => ?_, fun c h => ?_⟩
  · rcases c.tick_cases with hidle | ⟨ha, fifo, received, supply, htick⟩
    · rwa [hidle]
    · have hmore := hcount c h ha
      rw [htick]
      refine ⟨h.total_eq, hmore, ?_⟩
      simp only [count, h.total_eq]
      rw [Bool.eq_iff_iff, bne_iff_ne, decide_eq_true_iff]
      omega
  · rcases c.tick_cases with hidle | ⟨ha, fifo, received, supply, htick⟩
    · exact .inl hidle
    · have hmore := hcount c h ha
      refine .inr ?_
      rw [htick]
      simp only [work, count]
      omega

end Controller

/-- A move of the controller that the driver waits for. -/
theorem moves_of_counted {c : Controller} (ha : c.active = true)
    (hroom : if c.reading then c.fifo.length < Controller.depth else c.fifo ≠ []) :
    c.tick ≠ c := by
  intro hidle
  have hmoved : c.tick.moved = c.moved + 1 := by
    cases hr : c.reading with
    | true =>
      rw [hr, if_pos rfl] at hroom
      simp only [Controller.tick, ha, hr, hroom, if_true]
      rfl
    | false =>
      rw [hr] at hroom
      cases hf : c.fifo with
      | nil => exact absurd hf hroom
      | cons b bs =>
        simp only [Controller.tick, ha, hr, hf, if_true, Bool.false_eq_true, if_false]
        rfl
  rw [hidle] at hmoved
  omega

section Waiting

variable {j : Job} {x : Xfer} {i k : ℕ} {w : World Controller}

theorem Flow.counted (h : Flow j x i k w) : Controller.Counted j.len w.dev :=
  ⟨h.total_eq, h.moved_le, h.active_eq⟩

theorem Flow.length_fifo (h : Flow j x i k w) :
    w.dev.fifo.length = if j.reading then w.dev.moved - i else i - w.dev.moved := by
  rw [h.fifo_eq]
  split_ifs <;> exact Job.length_window _ _ _

/-- While the driver waits, the controller does not. -/
theorem Flow.moves (h : Flow j x i k w) (hmore : w.dev.moved < j.len)
    (hroom : if j.reading then w.dev.moved < i + Controller.depth else w.dev.moved < i) :
    w.dev.tick ≠ w.dev := by
  have hlength := h.length_fifo
  refine moves_of_counted (by rw [h.active_eq, decide_eq_true hmore]) ?_
  rw [h.reading_eq]
  cases hr : j.reading with
  | true =>
    rw [hr] at hlength hroom
    have hdepth : 0 < Controller.depth := by decide
    simp only [if_true] at hlength hroom ⊢
    omega
  | false =>
    rw [hr] at hlength hroom
    simp only [Bool.false_eq_true, if_false] at hlength hroom ⊢
    rintro hnil
    rw [hnil, List.length_nil] at hlength
    omega

/-- A status word that gives the driver nothing to do finds the controller on the move. -/
theorem Flow.moves_of_idle (h : Flow j x i k w) (hlive : Live j w)
    (hidle : Irq.action (w.word Controller.device) (Irq.progress j.reading j.buf j.len i) =
      .idle) : w.dev.tick ≠ w.dev := by
  have hword : w.word Controller.device = w.dev.status w.words.head := rfl
  have hlength := h.length_fifo
  have horder := h.order
  have hindex := h.index_le
  have hbound := h.moved_le
  have hdepth : 0 < Controller.depth := by decide
  rw [hword] at hidle
  cases hr : j.reading with
  | false =>
    simp only [hr, Irq.action, Irq.progress, has_status_err, has_status_clkt, has_status_txd,
      has_status_done, Bool.false_eq_true, if_false, Bool.false_and, Bool.not_false,
      Bool.true_and, if_true] at hidle hlength horder
    split_ifs at hidle with hpush hdone
    rw [Bool.and_eq_true_iff, decide_eq_true_iff, decide_eq_true_iff] at hpush
    rw [hlive, decide_eq_true_iff] at hdone
    refine h.moves (by omega) ?_
    rw [hr, if_neg Bool.false_ne_true]
    omega
  | true =>
    have hempty : w.dev.fifo.isEmpty = decide (w.dev.moved ≤ i) := by
      rw [hr, if_pos rfl] at hlength
      rw [Bool.eq_iff_iff, List.isEmpty_iff_length_eq_zero, hlength, decide_eq_true_iff]
      omega
    simp only [hr, Irq.action, Irq.progress, has_status_err, has_status_clkt, has_status_rxd,
      has_status_done, hempty, Bool.false_eq_true, if_false, Bool.true_and, if_true,
      Bool.not_true, Bool.false_and] at hidle horder
    split_ifs at hidle with hpop hdone
    rw [Bool.and_eq_true_iff, Bool.not_eq_true', decide_eq_false_iff_not,
      decide_eq_true_iff] at hpop
    rw [hlive, decide_eq_true_iff] at hdone
    refine h.moves (by omega) ?_
    rw [hr, if_pos rfl]
    omega

/-- The interrupts of a transfer in its direction are enabled. -/
def Armed (reading : Bool) (regs : Register → Word) : Prop :=
  Controller.enabled regs .INTD = true ∧
    Controller.enabled regs (if reading then .INTR else .INTT) = true

/-- Either the line is up or the controller is on the move: no transfer gets stuck. -/
theorem Flow.moves_of_line_low (h : Flow j x i k w) (hlive : Live j w) {m : Watermarks}
    (harmed : Armed j.reading w.dev.regs) (hline : w.dev.line m = false) :
    w.dev.tick ≠ w.dev := by
  have hlength := h.length_fifo
  have hbound := h.moved_le
  have hindex := h.index_le
  obtain ⟨hintd, hdirection⟩ := harmed
  have hmore : w.dev.moved < j.len := by
    refine Nat.lt_of_le_of_ne hbound fun hall => ?_
    rw [Controller.line, hintd, hlive, decide_eq_true hall] at hline
    exact absurd hline (by simp)
  have ha : w.dev.active = true := by rw [h.active_eq, decide_eq_true hmore]
  refine h.moves hmore ?_
  cases hr : j.reading with
  | false =>
    have hlow := m.tx_pos
    rw [hr] at hlength hdirection
    simp only [Bool.false_eq_true, if_false] at hlength hdirection ⊢
    simp only [Controller.line, Controller.txw, Controller.rxr, ha, h.reading_eq.trans hr, hintd,
      hdirection, hlength] at hline
    simp at hline
    omega
  | true =>
    have hhigh := m.rx_le
    rw [hr] at hlength hdirection
    simp only [if_true] at hlength hdirection ⊢
    simp only [Controller.line, Controller.txw, Controller.rxr, ha, h.reading_eq.trans hr, hintd,
      hdirection, hlength] at hline
    simp at hline
    omega

end Waiting

/-! ## The bound along a run -/

/-- Transport code next to the controller, without regard to what happens on the way. -/
abbrev Leads {α : Type} (P : World Controller × Stream' ℕ → Prop) (p : TransportM α)
    (Q : α → World Controller × Stream' ℕ → Prop) : Prop :=
  Prog.Triple running (fun _ _ _ => True) P p Q

theorem sequential_leads : Prog.Sequential
    fun (_ : World Controller × Stream' ℕ) (_ : List (Cmd × (World Controller × Stream' ℕ)))
      (_ : World Controller × Stream' ℕ) => True := Prog.sequential_true

section Leads

variable {α β : Type} {P : World Controller × Stream' ℕ → Prop}
  {Q : α → World Controller × Stream' ℕ → Prop}

theorem Leads.pure {a : α} (ha : ∀ s, P s → Q a s) : Leads P (pure a) Q :=
  Prog.Triple.pure sequential_leads ha

theorem Leads.bind {p : TransportM α} {f : α → TransportM β}
    {S : β → World Controller × Stream' ℕ → Prop} (hp : Leads P p Q)
    (hf : ∀ a, Leads (Q a) (f a) S) : Leads P (p >>= f) S :=
  Prog.Triple.bind sequential_leads hp hf

end Leads

/-- Fewer than `n` commands are left to a driver at byte `i` before it has something to do. -/
structure Paced (len : ℕ) (G : (Register → Word) → Prop) (q n i : ℕ)
    (s : World Controller × Stream' ℕ) : Prop where
  counted : Controller.Counted len s.1.dev
  registers : G s.1.dev.regs
  fair : Prog.Fair q s.2
  rest_lt : Prog.rest Controller.tick q (Controller.work len i) s.1.dev s.2 < n

section Paced

variable {len : ℕ} {G : (Register → Word) → Prop} {q n i : ℕ} {s : World Controller × Stream' ℕ}

theorem Paced.mono (h : Paced len G q n i s) {m : ℕ} (hm : n ≤ m) : Paced len G q m i s :=
  ⟨h.counted, h.registers, h.fair, h.rest_lt.trans_le hm⟩

theorem dev_tick (n : ℕ) (w : World Controller) :
    (World.tick^[n] w).dev = Controller.tick^[n] w.dev := by
  induction n generalizing w with
  | zero => rfl
  | succ n ih => exact ih w.tick

theorem regs_tick (n : ℕ) (c : Controller) : (Controller.tick^[n] c).regs = c.regs := by
  induction n generalizing c with
  | zero => rfl
  | succ n ih => exact (ih c.tick).trans c.tick_regs

/-- The controller's steps before a command. -/
theorem Paced.tick (h : Paced len G q n i s) :
    Paced len G q n i (World.tick^[s.2.head] s.1, s.2.tail) := by
  have hfalls := Controller.falls_tick len i
  have hrest := hfalls.rest_le h.fair h.counted
  refine ⟨?_, ?_, h.fair.tail, ?_⟩
  · rw [dev_tick]
    exact hfalls.stable.iterate _ h.counted
  · rw [dev_tick, regs_tick]
    exact h.registers
  · rw [dev_tick]
    exact hrest.trans_lt h.rest_lt

/-- They count if they leave the controller on the move. -/
theorem Paced.tick_of_moves (h : Paced len G q (n + 1) i s)
    (hmoves : (World.tick^[s.2.head] s.1).dev.tick ≠ (World.tick^[s.2.head] s.1).dev) :
    Paced len G q n i (World.tick^[s.2.head] s.1, s.2.tail) := by
  rw [dev_tick] at hmoves
  have hrest := (Controller.falls_tick len i).rest_lt h.fair h.counted hmoves
  have hlast := h.rest_lt
  refine ⟨h.tick.counted, h.tick.registers, h.tick.fair, ?_⟩
  rw [dev_tick]
  exact Nat.lt_of_lt_of_le hrest (Nat.le_of_lt_succ hlast)

/-- Commands that leave the block alone. -/
def Apart (c : Cmd) : Prop := ∀ a, c ≠ .bsc a

theorem dev_of_apart {c : Cmd} (hc : Apart c) (w : World Controller) :
    (world Controller.device c w).2.dev = w.dev := by
  cases c with
  | bsc a => exact absurd rfl (hc a)
  | _ => rfl

theorem apart_loadByte (p : Ptr) : (loadByte p).Only Apart :=
  ⟨fun _ h => Cmd.noConfusion h, fun _ => trivial⟩

theorem apart_storeByte (p : Ptr) (b : Byte) : (storeByte p b).Only Apart :=
  ⟨fun _ h => Cmd.noConfusion h, fun _ => trivial⟩

theorem apart_assign (a : Assign) : (assign a).Only Apart :=
  ⟨fun _ h => Cmd.noConfusion h, fun _ => trivial⟩

theorem Paced.congr (h : Paced len G q n i s) {w : World Controller} (hdev : w.dev = s.1.dev) :
    Paced len G q n i (w, s.2) := by
  refine ⟨?_, ?_, h.fair, ?_⟩
  · rw [hdev]
    exact h.counted
  · rw [hdev]
    exact h.registers
  · rw [hdev]
    exact h.rest_lt

theorem paced_apart {α : Type} {p : TransportM α} (hp : p.Only Apart) :
    Leads (Paced len G q n i) p fun _ => Paced len G q n i :=
  Prog.Triple.of_only Prog.sequential_true hp fun _ hc _ h =>
    ⟨h.tick.congr (dev_of_apart hc _), trivial⟩

/-- A byte that the driver moves through the FIFO. -/
theorem Paced.fifo (h : Paced len G q (n + 1) i s) (hi : i < len) {fifo : List Byte}
    {w : World Controller} (hdev : w.dev = { s.1.dev with fifo := fifo }) :
    Paced len G q n (i + 1) (w, s.2) := by
  obtain ⟨k, hk, -⟩ := h.fair 0
  have hwork : Controller.work len (i + 1) w.dev + 2 = Controller.work len i s.1.dev := by
    rw [hdev]
    simp only [Controller.work]
    omega
  have hrest : Prog.rest Controller.tick q (Controller.work len (i + 1)) w.dev s.2 + q ≤
      Prog.rest Controller.tick q (Controller.work len i) s.1.dev s.2 := by
    calc Prog.rest Controller.tick q (Controller.work len (i + 1)) w.dev s.2 + q
        ≤ q * Controller.work len (i + 1) w.dev + q + q :=
          Nat.add_le_add_right (Prog.rest_le h.fair) q
      _ = q * (Controller.work len (i + 1) w.dev + 2) := by ring
      _ = q * Controller.work len i s.1.dev := by rw [hwork]
      _ ≤ _ := Prog.le_rest
  have hlast := h.rest_lt
  have hless : Prog.rest Controller.tick q (Controller.work len (i + 1)) w.dev s.2 < n := by omega
  refine ⟨?_, ?_, h.fair, hless⟩
  · rw [hdev]
    exact ⟨h.counted.total_eq, h.counted.moved_le, h.counted.active_eq⟩
  · rw [hdev]
    exact h.registers

theorem paced_fifo (hi : i < len) {a : Access Register Word}
    (ha : ∀ c : Controller, ∃ fifo, (Controller.access a c).2 = { c with fifo := fifo })
    {α : Type} {k : Cmd.Ans (.bsc a) → TransportM α} (hk : ∀ v, (k v).Only Apart) :
    Leads (Paced len G q (n + 1) i) (Prog.call (.bsc a) k) fun _ => Paced len G q n (i + 1) := by
  intro s hs
  obtain ⟨fifo, hfifo⟩ := ha (World.tick^[s.2.head] s.1).dev
  have hnext : Paced len G q n (i + 1) (running (.bsc a) s).2 := hs.tick.fifo hi hfifo
  exact ⟨(paced_apart (hk _) _ hnext).1, trivial⟩

theorem access_loadFifo (c : Controller) :
    ∃ fifo, (Controller.access (.load .FIFO) c).2 = { c with fifo := fifo } := by
  cases hf : c.fifo with
  | nil => exact ⟨[], by simp only [Controller.access, hf]; rw [← hf]⟩
  | cons b bs => exact ⟨bs, by simp only [Controller.access, hf]⟩

theorem access_storeFifo (v : Word) (c : Controller) :
    ∃ fifo, (Controller.access (.store .FIFO v) c).2 = { c with fifo := fifo } := by
  simp only [Controller.access]
  split_ifs
  · exact ⟨_, rfl⟩
  · exact ⟨c.fifo, rfl⟩

end Paced

/-! ## The polled transport -/

section Polled

variable {j : Job} {G : (Register → Word) → Prop} {q n i : ℕ} {x : Xfer}

/-- After a status word: the driver has something to do, or the end has come nearer. -/
structure Seen (j : Job) (G : (Register → Word) → Prop) (q n i : ℕ) (x : Xfer) (a : Irq.Action)
    (s : World Controller × Stream' ℕ) : Prop where
  flowing : Flowing j x i i a s.1
  paced : Paced j.len G q (n + 1) i s
  nearer : a = .idle → Paced j.len G q n i s

theorem leads_readStatus :
    Leads (fun s => Flowing j x i i .idle s.1 ∧ Paced j.len G q (n + 1) i s) readStatus
      fun v s => Seen j G q n i x (Irq.action v (Irq.progress j.reading j.buf j.len i)) s ∧
        (Word.has v S_ERR = false ∧ Word.has v S_CLKT = false) := by
  intro s hs
  obtain ⟨⟨hflow, hclean⟩, -⟩ := runs_readStatus s hs.1
  have hnow : Flowing j x i i .idle (World.tick^[s.2.head] s.1) :=
    (firm_flowing j x i i .idle).stable.iterate _ hs.1
  refine ⟨⟨⟨hflow, hs.2.tick.congr rfl, fun hidle => ?_⟩, hclean⟩, trivial⟩
  exact (hs.2.tick_of_moves (hnow.toFlow.moves_of_idle hnow.live hidle)).congr rfl

theorem leads_xfer {a : Irq.Action} :
    Leads (Seen j G q n i x a) xfer fun y s => Seen j G q n i x a s ∧ y = x := by
  intro s hs
  obtain ⟨⟨hflow, hy⟩, -⟩ := runs_xfer s hs.flowing
  exact ⟨⟨⟨hflow, hs.paced.tick.congr rfl, fun hidle => (hs.nearer hidle).tick.congr rfl⟩, hy⟩,
    trivial⟩

theorem paced_move (hi : i < j.len) :
    Leads (Paced j.len G q (n + 1) i) (Polled.move j.reading j.buf i)
      fun _ => Paced j.len G q n (i + 1) := by
  rw [Polled.move]
  split_ifs
  · exact Leads.bind (paced_fifo hi access_loadFifo fun _ => trivial) fun _ =>
      paced_apart (apart_storeByte _ _)
  · exact Leads.bind (paced_apart (apart_loadByte _)) fun _ =>
      paced_fifo hi (access_storeFifo _) fun _ => trivial

/-- An action that moves a byte has one to move. -/
theorem lt_of_granted {w : World Controller} {a : Irq.Action} (ha : a = .pop ∨ a = .push)
    (h : Flowing j x i i a w) : i < j.len := by
  have hbound := h.moved_le
  rcases ha with rfl | rfl
  · exact h.granted.2.trans_le hbound
  · exact h.granted.2.2

theorem leads_move {a : Irq.Action} (ha : a = .pop ∨ a = .push) :
    Leads (Seen j G q n i x a) (Polled.move j.reading j.buf i)
      fun _ s => Flowing j x (i + 1) (i + 1) .idle s.1 ∧ Paced j.len G q n (i + 1) s :=
  fun s hs => ⟨⟨(runs_move ha s hs.flowing).1,
    (paced_move (lt_of_granted ha hs.flowing) s hs.paced).1⟩, trivial⟩

/-- The polling loop ends before its budget does. -/
theorem leads_loop (spins : ℕ) :
    Leads (fun s => Flowing j x i i .idle s.1 ∧ Paced j.len G q spins i s)
      (Polled.loop j.reading j.buf j.len spins i)
      fun r s => r = some .ok ∧ Over j x s.1 ∧ Prog.Fair q s.2 := by
  induction spins generalizing i with
  | zero => exact fun s hs => absurd hs.2.rest_lt (Nat.not_lt_zero _)
  | succ spins ih =>
    refine Leads.bind leads_readStatus fun v => Prog.Triple.assume fun _ => ?_
    cases Irq.action v (Irq.progress j.reading j.buf j.len i) with
    | finish r =>
      refine Leads.pure fun s hs => ?_
      obtain ⟨rfl, hover⟩ := over_of_granted hs.flowing
      obtain ⟨-, rfl, -⟩ := hs.flowing.granted
      exact ⟨rfl, hover, hs.paced.fair⟩
    | idle => exact ih.weaken (fun s hs => ⟨hs.flowing, hs.nearer rfl⟩) fun _ _ hs => hs
    | pop => exact Leads.bind (leads_move (.inl rfl)) fun _ => ih
    | push => exact Leads.bind (leads_move (.inr rfl)) fun _ => ih

end Polled

/-! ## Starting -/

section Start

variable {j : Job} {G : (Register → Word) → Prop} {q n i : ℕ} {x : Xfer}

/-- All that is left at the start. -/
theorem paced_of_flowing {s : World Controller × Stream' ℕ} (hflow : Flowing j x 0 0 .idle s.1)
    (hregisters : G s.1.dev.regs) (hfair : Prog.Fair q s.2) (hn : q * (3 * j.len + 1) < n) :
    Paced j.len G q n 0 s := by
  have hwork : Controller.work j.len 0 s.1.dev ≤ 3 * j.len := by
    simp only [Controller.work]
    omega
  refine ⟨hflow.toFlow.counted, hregisters, hfair, ?_⟩
  calc Prog.rest Controller.tick q (Controller.work j.len 0) s.1.dev s.2
      ≤ q * Controller.work j.len 0 s.1.dev + q := Prog.rest_le hfair
    _ ≤ q * (3 * j.len) + q := Nat.add_le_add_right (Nat.mul_le_mul_left q hwork) q
    _ = q * (3 * j.len + 1) := (Nat.mul_succ _ _).symm
    _ < n := hn

theorem leads_transfer_polled (hlen : 0 < j.len) (hmax : j.len ≤ 0xFFFF) (x : Xfer)
    {maxSpins : ℕ} (hspins : q * (3 * j.len + 1) < maxSpins) (addr : Byte) :
    Leads (fun s => Before j x s.1 ∧ Prog.Fair q s.2)
      (do return (← Polled.transfer maxSpins j.reading addr j.buf j.len).getD .timeout)
      fun r s => r = .ok ∧ Over j x s.1 ∧ Prog.Fair q s.2 := by
  have hstart : Leads (fun s => Before j x s.1 ∧ Prog.Fair q s.2)
      (i2c (do I2c.setup addr j.len; I2c.kick j.reading))
      fun _ s => Flowing j x 0 0 .idle s.1 ∧
        Paced j.len (fun _ => True) q maxSpins 0 s := by
    intro s hs
    have hflow := (runs_start hlen (Controller.idly_prime addr hmax j.reading) x s hs.1).1
    exact ⟨⟨hflow, paced_of_flowing hflow trivial (hs.2.run _) hspins⟩, trivial⟩
  rw [Polled.transfer, bind_assoc]
  exact Leads.bind hstart fun _ => Leads.bind (leads_loop maxSpins) fun r =>
    Leads.pure fun s hs => ⟨by rw [hs.1]; rfl, hs.2⟩

end Start

/-! ## The interrupt-driven transport -/

section Interrupts

variable {j : Job} {q n i : ℕ}

theorem paced_popByte {G : (Register → Word) → Prop} {x : Xfer} (hi : i < j.len) :
    Leads (Paced j.len G q (n + 1) i) (Irq.popByte x) fun _ => Paced j.len G q n (i + 1) := by
  exact Leads.bind (paced_fifo hi access_loadFifo fun _ => trivial) fun _ =>
    paced_apart ((apart_assign _).bind fun _ => apart_storeByte _ _)

theorem paced_pushByte {G : (Register → Word) → Prop} {x : Xfer} (hi : i < j.len) :
    Leads (Paced j.len G q (n + 1) i) (Irq.pushByte x) fun _ => Paced j.len G q n (i + 1) := by
  exact Leads.bind (paced_apart (apart_assign _)) fun _ =>
    Leads.bind (paced_apart (apart_loadByte _)) fun _ =>
      paced_fifo hi (access_storeFifo _) fun _ => trivial

/-- A transfer in flight with its bound, or one that an interrupt has finished. -/
def Due (j : Job) (q n : ℕ) (s : World Controller × Stream' ℕ) : Prop :=
  (∃ i, Flowing j (Irq.progress j.reading j.buf j.len i) i i .idle s.1 ∧
    Paced j.len (Armed j.reading) q n i s) ∨
  (Rested j (settled j) s.1 ∧ Prog.Fair q s.2)

theorem Due.mono {s : World Controller × Stream' ℕ} (h : Due j q n s) {m : ℕ} (hm : n ≤ m) :
    Due j q m s := by
  rcases h with ⟨i, hflow, hpaced⟩ | h
  · exact .inl ⟨i, hflow, hpaced.mono hm⟩
  · exact .inr h

/-- A move of the handler. -/
theorem leads_popByte :
    Leads (Seen j (Armed j.reading) q n i (Irq.progress j.reading j.buf j.len i) .pop)
      (Irq.popByte (Irq.progress j.reading j.buf j.len i))
      fun _ s => Flowing j (Irq.progress j.reading j.buf j.len (i + 1)) (i + 1) (i + 1) .idle s.1 ∧
        Paced j.len (Armed j.reading) q n (i + 1) s :=
  fun s hs => ⟨⟨(runs_popByte j i s hs.flowing).1,
    (paced_popByte (lt_of_granted (.inl rfl) hs.flowing) s hs.paced).1⟩, trivial⟩

theorem leads_pushByte :
    Leads (Seen j (Armed j.reading) q n i (Irq.progress j.reading j.buf j.len i) .push)
      (Irq.pushByte (Irq.progress j.reading j.buf j.len i))
      fun _ s => Flowing j (Irq.progress j.reading j.buf j.len (i + 1)) (i + 1) (i + 1) .idle s.1 ∧
        Paced j.len (Armed j.reading) q n (i + 1) s :=
  fun s hs => ⟨⟨(runs_pushByte j i s hs.flowing).1,
    (paced_pushByte (lt_of_granted (.inr rfl) hs.flowing) s hs.paced).1⟩, trivial⟩

/-- The handler's loop brings a transfer nearer to its end as soon as it makes a pass. -/
theorem leads_irqLoop (fuel : ℕ) :
    Leads (fun s => Flowing j (Irq.progress j.reading j.buf j.len i) i i .idle s.1 ∧
        Paced j.len (Armed j.reading) q (n + 1) i s)
      (Irq.irqLoop fuel) fun _ => Due j q (if fuel = 0 then n + 1 else n) := by
  induction fuel generalizing i n with
  | zero => exact Leads.pure fun _ hs => .inl ⟨i, hs⟩
  | succ fuel ih =>
    -- further passes lose nothing of what the first has gained
    have hagain : Leads
        (fun s => Flowing j (Irq.progress j.reading j.buf j.len (i + 1)) (i + 1) (i + 1) .idle s.1 ∧
          Paced j.len (Armed j.reading) q n (i + 1) s)
        (Irq.irqLoop fuel) fun _ => Due j q n := by
      cases n with
      | zero => exact fun s hs => absurd hs.2.rest_lt (Nat.not_lt_zero _)
      | succ n =>
        refine ih.weaken (fun _ hs => hs) fun _ _ hs => hs.mono ?_
        split_ifs <;> omega
    rw [if_neg (Nat.succ_ne_zero fuel), Irq.irqLoop_succ]
    refine Leads.bind leads_readStatus fun v => Prog.Triple.assume fun hclean => ?_
    simp only [hclean.1, hclean.2, Bool.false_eq_true, if_false]
    refine Leads.bind leads_xfer fun y => Prog.Triple.assume ?_
    rintro rfl
    cases Irq.action v (Irq.progress j.reading j.buf j.len i) with
    | finish r =>
      intro s hs
      obtain ⟨rfl, hover⟩ := over_of_granted hs.flowing
      obtain ⟨-, rfl, -⟩ := hs.flowing.granted
      exact ⟨.inr ⟨(runs_finalize j s hover).1, hs.paced.fair.run _⟩, trivial⟩
    | idle => exact Leads.pure fun s hs => .inl ⟨i, hs.flowing, hs.nearer rfl⟩
    | pop => exact Leads.bind leads_popByte fun _ => hagain
    | push => exact Leads.bind leads_pushByte fun _ => hagain

theorem Due.of_zero {s : World Controller × Stream' ℕ} (h : Due j q 0 s) :
    Rested j (settled j) s.1 ∧ Prog.Fair q s.2 := by
  rcases h with ⟨i, -, hpaced⟩ | h
  · exact absurd hpaced.rest_lt (Nat.not_lt_zero _)
  · exact h

/-- An interrupt brings a transfer nearer to its end. -/
theorem leads_handleIrq : Leads (Due j q (n + 1)) Irq.handleIrq fun _ => Due j q n := by
  intro s hs
  refine ⟨?_, trivial⟩
  rcases hs with ⟨i, hflow, hpaced⟩ | ⟨hrested, hfair⟩
  · have hlook : Flowing j (Irq.progress j.reading j.buf j.len i) i i .idle
        (xfer.run running s).2.1 := (runs_xfer s hflow).1.1
    have hpace : Paced j.len (Armed j.reading) q (n + 1) i (xfer.run running s).2 :=
      hpaced.tick.congr rfl
    exact (leads_irqLoop (Irq.owed (xfer.run running s).1 + 1) _ ⟨hlook, hpace⟩).1
  · have hlook : Rested j (settled j) (xfer.run running s).2.1 :=
      (firm_rested j _).stable.iterate _ hrested
    have hloop := (runs_irqLoop_rested j (Irq.owed (xfer.run running s).1 + 1) _ hlook).1
    exact .inr ⟨hloop, hfair.run _⟩

theorem leads_handleIrqs (m : ℕ) :
    Leads (Due j q n) (Prog.times Irq.handleIrq m) fun _ => Due j q n := by
  have honce : Leads (Due j q n) Irq.handleIrq fun _ => Due j q n :=
    leads_handleIrq.weaken (fun _ hs => hs.mono (Nat.le_succ n)) fun _ _ hs => hs
  exact Prog.Triple.times sequential_leads honce m

/-- The interrupt enables are storage. -/
theorem storedBits_enables :
    StoredBits (fun i => 8 ≤ i ∧ i ≤ 10) Controller.device Controller.bit where
  lt _ hi := by omega
  load c i hi := by
    have hcontrol := c.getLsbD_control i
    rw [decide_eq_true (by omega), decide_eq_true (by omega), decide_eq_true (by omega),
      Bool.and_true, Bool.and_true, Bool.and_true] at hcontrol
    exact ⟨hcontrol, rfl⟩
  store c v i _ := by
    simp only [Controller.device, Controller.access, Controller.bit, Controller.setC_regs,
      Function.update_self]
  others c a i _ hl hs := by
    cases a with
    | load r =>
      cases r with
      | FIFO =>
        cases hf : c.fifo <;> simp [Controller.device, Controller.access, hf, Controller.bit]
      | _ => rfl
    | store r v =>
      have hr : Register.C ≠ r := fun h => hs v (h ▸ rfl)
      cases r <;> first
        | exact absurd rfl hr
        | rfl
        | (simp only [Controller.device, Controller.access, Controller.bit]; split_ifs <;> rfl)

theorem enabled_setControl {g : Control} (hg : g = .INTD ∨ g = .INTT ∨ g = .INTR) {f : Control}
    (hf : f ≠ .C_ALL) (v : Word) (c : Controller) :
    Controller.enabled ((I2c.setControl f v).run Controller.access c).2.regs g =
      if f = g then v.getLsbD 0 else Controller.enabled c.regs g := by
  have hshift : 8 ≤ (I2c.controlField g).shift ∧ (I2c.controlField g).shift ≤ 10 := by
    rcases hg with rfl | rfl | rfl <;> decide
  refine (bit_setControl storedBits_enables hshift c f v).trans ?_
  rcases hg with rfl | rfl | rfl <;> cases f <;>
    first
      | exact absurd rfl hf
      | rfl

theorem armed_launch (addr : Byte) (len : ℕ) (reading : Bool) (c : Controller) :
    Armed reading ((I2c.launch addr len reading).run Controller.access c).2.regs := by
  cases reading <;>
    simp [Armed, I2c.launch, I2c.arm, I2c.kick, I2c.startRead, I2c.startWrite, I2c.enable,
      enabled_setControl]

theorem apart_publishFor (reading : Bool) (buf : Ptr) (len : ℕ) :
    (Irq.publishFor reading buf len).Only Apart := by
  have hpublish (tx : Ptr) (tn : ℕ) (rx : Ptr) (rn : ℕ) (reading : Bool) :
      (Irq.publish tx tn rx rn reading nullptr nullptr).Only Apart :=
    (apart_assign _).bind fun _ => (apart_assign _).bind fun _ => (apart_assign _).bind fun _ =>
      (apart_assign _).bind fun _ => (apart_assign _).bind fun _ => (apart_assign _).bind fun _ =>
        (apart_assign _).bind fun _ => apart_assign _
  cases reading
  · exact hpublish _ _ _ _ _
  · exact hpublish _ _ _ _ _

/-- A start leaves the interrupts of its transfer enabled. -/
theorem armed_begin (reading : Bool) (addr : Byte) (buf : Ptr) {len : ℕ} (hmax : len ≤ 0xFFFF)
    (s : World Controller × Stream' ℕ) (hidle : s.1.dev.active = false) :
    Armed reading ((Irq.begin reading addr buf len).run running s).2.1.dev.regs := by
  have hrecord : Leads (fun s => s.1.dev.active = false)
      (do assign .fresh; Irq.publishFor reading buf len) fun _ s => s.1.dev.active = false := by
    refine Prog.Triple.of_only sequential_leads (S := Apart)
      ((apart_assign _).bind fun _ => apart_publishFor reading buf len)
      fun c hc t ht => ⟨?_, trivial⟩
    have hstill : (World.tick^[t.2.head] t.1).dev.active = false := by
      rw [dev_tick, Function.iterate_fixed (Controller.tick_of_inactive ht)]
      exact ht
    exact (congrArg Controller.active (dev_of_apart hc _)).trans hstill
  have hlaunch : Leads (fun s => s.1.dev.active = false) (i2c (I2c.launch addr len reading))
      fun _ s => Armed reading s.1.dev.regs := by
    intro t ht
    have hrest : Controller.Resting t.1.dev.received t.1.dev.supply t.1.dev := ⟨ht, rfl, rfl⟩
    obtain ⟨-, hthrough⟩ := Controller.idly_launch addr hmax reading t.1.dev hrest
    have hfixed : ∀ e ∈ (i2c (I2c.launch addr len reading)).history (world Controller.device) t.1,
        World.tick e.2 = e.2 := by
      intro e he
      rw [history_i2c] at he
      obtain ⟨e', he', rfl⟩ := List.mem_map.mp he
      exact World.tick_of_inactive (hthrough e' he').1
    obtain ⟨⟨sched', hrun⟩, -⟩ := Prog.run_interleave_of_fixed _ t.1 t.2 hfixed
    refine ⟨?_, trivial⟩
    rw [show t = (t.1, t.2) from rfl, hrun, run_i2c]
    exact armed_launch addr len reading t.1.dev
  rw [Irq.begin, ← bind_assoc]
  exact (Leads.bind hrecord (fun _ => hlaunch) s hidle).1

/-- A thread that waits while the line is up gets an interrupt. -/
def Attended (m : Watermarks) (e : Cmd × (World Controller × Stream' ℕ)) : Prop :=
  e.1 = .interrupts → (World.tick^[e.2.2.head] e.2.1).dev.line m = true →
    e.2.1.interrupts.head ≠ 0

theorem waitLoop_succ (n : ℕ) :
    Irq.waitLoop Irq.anyIrqs (n + 1) = (do
      let x ← xfer
      if x.done then return some x.result
      else do
        Irq.anyIrqs
        Irq.waitLoop Irq.anyIrqs n) := rfl

/-- A wait for an interrupt that the line asks for brings a transfer nearer to its end. -/
theorem due_anyIrqs {m : Watermarks} {s : World Controller × Stream' ℕ}
    (hs : Due j q (n + 1) s) (hline : Attended m (.interrupts, s)) :
    Due j q n (Irq.anyIrqs.run running s).2 := by
  have hrun : (Irq.anyIrqs.run running s).2 = ((Prog.times Irq.handleIrq
      s.1.interrupts.head).run running (running .interrupts s).2).2 := by
    rw [Irq.anyIrqs, Prog.run_bind]
    have hcount : (World.tick^[s.2.head] s.1).interrupts = s.1.interrupts := by
      have hstable : Prog.Stable World.tick fun v => v.interrupts = s.1.interrupts :=
        fun _ hv => hv
      exact hstable.iterate _ rfl
    exact congrArg (fun l : Stream' ℕ => ((Prog.times Irq.handleIrq l.head).run running
      (running .interrupts s).2).2) hcount
  rw [hrun]
  rcases hs with ⟨i, hflow, hpaced⟩ | ⟨hrested, hfair⟩
  · have hflow' : Flowing j (Irq.progress j.reading j.buf j.len i) i i .idle
        (World.tick^[s.2.head] s.1) := (firm_flowing j _ i i .idle).stable.iterate _ hflow
    have hnext : Flowing j (Irq.progress j.reading j.buf j.len i) i i .idle
        (running .interrupts s).2.1 :=
      ⟨hflow'.toFlow.congr hflow'.xfer_eq rfl rfl, hflow'.live, trivial⟩
    cases hup : (World.tick^[s.2.head] s.1).dev.line m with
    | true =>
      obtain ⟨k, hk⟩ := Nat.exists_eq_succ_of_ne_zero (hline rfl hup)
      have hfirst := (leads_handleIrq (n := n) _ (.inl ⟨i, hnext, hpaced.tick.congr rfl⟩)).1
      rw [hk, Nat.succ_eq_add_one, Prog.times, Prog.run_bind]
      exact (leads_handleIrqs k _ hfirst).1
    | false =>
      have hmoves := hflow'.toFlow.moves_of_line_low hflow'.live hpaced.tick.registers hup
      exact (leads_handleIrqs _ _ (.inl ⟨i, hnext, (hpaced.tick_of_moves hmoves).congr rfl⟩)).1
  · have hrested' := (firm_rested j (settled j)).stable.iterate s.2.head hrested
    have hnext : Rested j (settled j) (running .interrupts s).2.1 :=
      ⟨⟨hrested'.1.1.congr hrested'.1.1.xfer_eq rfl rfl, hrested'.1.2⟩, hrested'.2⟩
    exact (leads_handleIrqs _ _ (.inr ⟨hnext, hfair.tail⟩)).1

/-- The watchdog loop sees the end of the transfer. -/
theorem waitLoop_ok (m : Watermarks) (n : ℕ) (s : World Controller × Stream' ℕ)
    (hs : Due j q n s)
    (hline : ∀ e ∈ (Irq.waitLoop Irq.anyIrqs (n + 1)).history running s, Attended m e) :
    ((Irq.waitLoop Irq.anyIrqs (n + 1)).run running s).1 = some .ok ∧
      Over j (settled j) ((Irq.waitLoop Irq.anyIrqs (n + 1)).run running s).2.1 := by
  induction n generalizing s with
  | zero =>
    have hrested := (firm_rested j (settled j)).stable.iterate s.2.head hs.of_zero.1
    have hlook : (xfer.run running s).1 = settled j := hrested.1.1.xfer_eq
    rw [waitLoop_succ, Prog.run_bind, hlook]
    exact ⟨rfl, hrested.1⟩
  | succ n ih =>
    rcases hs with ⟨i, hflow, hpaced⟩ | ⟨hrested, hfair⟩
    · obtain ⟨⟨hflow', hlook⟩, -⟩ := runs_xfer s hflow
      have hwait : Due j q (n + 1) (xfer.run running s).2 :=
        .inl ⟨i, hflow', hpaced.tick.congr rfl⟩
      have hdone : ¬ (xfer.run running s).1.done = true := by
        rw [hlook]
        cases j.reading <;> exact Bool.false_ne_true
      rw [waitLoop_succ, Prog.history_bind, if_neg hdone, Prog.history_bind] at hline
      rw [waitLoop_succ, Prog.run_bind, if_neg hdone, Prog.run_bind]
      have hfirst : Attended m (.interrupts, (xfer.run running s).2) :=
        hline _ (List.mem_append_right _ (List.mem_append_left _ List.mem_cons_self))
      exact ih _ (due_anyIrqs hwait hfirst) fun e he =>
        hline e (List.mem_append_right _ (List.mem_append_right _ he))
    · have hrested' := (firm_rested j (settled j)).stable.iterate s.2.head hrested
      have hlook : (xfer.run running s).1 = settled j := hrested'.1.1.xfer_eq
      rw [waitLoop_succ, Prog.run_bind, hlook]
      exact ⟨rfl, hrested'.1⟩

theorem transfer_irq_ok (hlen : 0 < j.len) (hmax : j.len ≤ 0xFFFF) {x : Xfer} {maxWaits : ℕ}
    (hwaits : q * (3 * j.len + 1) + 1 < maxWaits) (addr : Byte) (m : Watermarks)
    {s : World Controller × Stream' ℕ} (hs : Before j x s.1) (hfair : Prog.Fair q s.2)
    (hline : ∀ e ∈ (Irq.transfer Irq.anyIrqs maxWaits j.reading addr j.buf j.len).history
      running s, Attended m e) :
    ((Irq.transfer Irq.anyIrqs maxWaits j.reading addr j.buf j.len).run running s).1 = .ok ∧
      Over j (settled j)
        ((Irq.transfer Irq.anyIrqs maxWaits j.reading addr j.buf j.len).run running s).2.1 := by
  obtain ⟨n, rfl⟩ : ∃ n, maxWaits = n + 1 := ⟨maxWaits - 1, by omega⟩
  have hflow := (runs_begin hlen hmax x addr s hs).1
  have harmed := armed_begin j.reading addr j.buf hmax s hs.1.inactive
  have hdue : Due j q n ((Irq.begin j.reading addr j.buf j.len).run running s).2 :=
    .inl ⟨0, hflow, paced_of_flowing hflow harmed (hfair.run _) (by omega)⟩
  rw [Irq.transfer, Prog.history_bind, Irq.waitComplete, Prog.history_bind] at hline
  obtain ⟨hok, hover⟩ := waitLoop_ok m n _ hdue fun e he =>
    hline e (List.mem_append_right _ (List.mem_append_left _ he))
  rw [Irq.transfer, Prog.run_bind, Irq.waitComplete, Prog.run_bind, hok]
  exact ⟨rfl, hover⟩

/-- A thread that always gets an interrupt gets those that it waits for. -/
theorem attended_of_interrupts {α : Type} (m : Watermarks) (p : TransportM α)
    {s : World Controller × Stream' ℕ} (hs : ∀ n, s.1.interrupts.get n ≠ 0) :
    ∀ e ∈ p.history running s, Attended m e := by
  induction p generalizing s with
  | ret a => exact fun e he => absurd he List.not_mem_nil
  | call c k ih =>
    have hstable : Prog.Stable World.tick fun v => ∀ n, v.interrupts.get n ≠ 0 := fun _ hv => hv
    have htick := hstable.iterate s.2.head hs
    intro e he
    rcases List.mem_cons.mp he with rfl | he
    · exact fun _ _ => hs 0
    · refine ih _ (fun n => ?_) e he
      cases c with
      | interrupts => exact htick (n + 1)
      | _ => exact htick n

end Interrupts

/-! ## Calls -/

/-- A call that gets the interrupts it waits for returns Ok, and all its data has arrived. -/
def Arrives (m : Watermarks) (j : Job) (p : TransportM I2cResult)
    (s : World Controller × Stream' ℕ) : Prop :=
  (∀ e ∈ p.history running s, Attended m e) →
    (p.run running s).1 = .ok ∧ ∀ n, j.Complete (World.tick^[n] (p.run running s).2.1)

/-- The data of a `write_read` is in place: the slave has received the bytes to write, the
buffer of the read holds the slave's bytes, and nothing else has changed. -/
def Exchanged (w : World Controller) (wbuf : Ptr) (wlen : ℕ) (rbuf : Ptr) (rlen : ℕ)
    (v : World Controller) : Prop :=
  v.mem = (w.job true rbuf rlen).memory rlen ∧ v.dev.received = (w.job false wbuf wlen).log wlen

/-- A call of a transport with enough of a budget, and how it leaves the surroundings. -/
def Settles (m : Watermarks) (q : ℕ) (j : Job) (p : TransportM I2cResult)
    (s : World Controller × Stream' ℕ) : Prop :=
  (∀ e ∈ p.history running s, Attended m e) →
    (p.run running s).1 = .ok ∧ (∃ y, Over j y (p.run running s).2.1) ∧
      Prog.Fair q (p.run running s).2.2

theorem Over.complete {j : Job} {y : Xfer} {w : World Controller} (h : Over j y w) (n : ℕ) :
    j.Complete (World.tick^[n] w) :=
  have hn := (firm_over j y).stable.iterate n h
  hn.1.complete hn.2

theorem Settles.arrives {m : Watermarks} {q : ℕ} {j : Job} {p : TransportM I2cResult}
    {s : World Controller × Stream' ℕ} (h : Settles m q j p s) : Arrives m j p s := by
  intro hline
  obtain ⟨hok, ⟨y, hover⟩, -⟩ := h hline
  exact ⟨hok, hover.complete⟩

/-- A read that follows a write takes up the slave's bytes where the write has found them. -/
theorem exchanged_of_complete {w v u : World Controller} {wbuf : Ptr} {wlen : ℕ} {rbuf : Ptr}
    {rlen : ℕ} {y : Xfer} (hwrite : Over (w.job false wbuf wlen) y v)
    (hread : (v.job true rbuf rlen).Complete u) : Exchanged w wbuf wlen rbuf rlen u := by
  obtain ⟨hmem, hreceived⟩ := hwrite.complete 0
  have hsupply : v.dev.supply = w.dev.supply := hwrite.1.supply_eq
  have hjob : (v.job true rbuf rlen).memory rlen = (w.job true rbuf rlen).memory rlen := by
    rw [World.job, World.job, show v.mem = w.mem from hmem, hsupply]
    rfl
  exact ⟨hread.1.trans hjob, hread.2.trans hreceived⟩

section Transports

variable {q : ℕ} {m : Watermarks} {addr : Byte} {budget : ℕ}

/-- Both transports, in both directions. -/
theorem settles_transfer {buf : Ptr} {len : ℕ} (hargs : badArgs addr buf len = false)
    (hmax : len ≤ 65535) (hbudget : q * (3 * len + 1) + 1 < budget) {w : World Controller}
    (hidle : w.dev.active = false) {sched : Stream' ℕ} (hfair : Prog.Fair q sched) :
    ∀ t ∈ [polled budget, interruptDriven Irq.anyIrqs budget],
      Settles m q (w.job false buf len) (t.write addr buf len) (w, sched) ∧
        Settles m q (w.job true buf len) (t.read addr buf len) (w, sched) := by
  have hbad : ¬ badArgs addr buf len = true := by rw [hargs]; exact Bool.false_ne_true
  have hlen := length_pos_of_not_badArgs hbad
  have hpolled (reading : Bool) : Settles m q (w.job reading buf len)
      (do return (← Polled.transfer budget reading addr buf len).getD .timeout) (w, sched) := by
    intro _
    obtain ⟨⟨hok, hover, hfair'⟩, -⟩ := leads_transfer_polled (j := w.job reading buf len) hlen
      hmax w.xfer (Nat.lt_of_succ_lt hbudget) addr (w, sched)
      ⟨before_job hidle reading buf len, hfair⟩
    exact ⟨hok, ⟨_, hover⟩, hfair'⟩
  have hirq (reading : Bool) : Settles m q (w.job reading buf len)
      (Irq.transfer Irq.anyIrqs budget reading addr buf len) (w, sched) := by
    intro hline
    obtain ⟨hok, hover⟩ := transfer_irq_ok (j := w.job reading buf len) hlen hmax hbudget addr m
      (before_job hidle reading buf len) hfair hline
    exact ⟨hok, ⟨_, hover⟩, hfair.run _⟩
  intro t ht
  rcases List.mem_pair.mp ht with rfl | rfl
  · refine ⟨?_, ?_⟩
    · change Settles m q _ (Polled.write budget addr buf len) _
      rw [Polled.write_eq, if_neg hbad]
      exact hpolled false
    · change Settles m q _ (Polled.read budget addr buf len) _
      rw [Polled.read_eq, if_neg hbad]
      exact hpolled true
  · refine ⟨?_, ?_⟩
    · change Settles m q _ (Irq.write Irq.anyIrqs budget addr buf len) _
      rw [Irq.write_eq, if_neg hbad]
      exact hirq false
    · change Settles m q _ (Irq.read Irq.anyIrqs budget addr buf len) _
      rw [Irq.read_eq, if_neg hbad]
      exact hirq true

/-- The read of a `write_read` starts where its write ends. -/
theorem writeRead_eq {t : I2cTransport}
    (ht : t ∈ [polled budget, interruptDriven Irq.anyIrqs budget])
    (wbuf : Ptr) (wlen : ℕ) (rbuf : Ptr) (rlen : ℕ) :
    t.writeRead addr wbuf wlen rbuf rlen = (do
      let r ← t.write addr wbuf wlen
      if r ≠ .ok then return r
      t.read addr rbuf rlen) := by
  rcases List.mem_pair.mp ht with rfl | rfl
  · rfl
  · rfl

end Transports

/-- Next to a controller that gets a step within any `q` commands, every transfer that is not
refused ends with Ok and with all its data in place: the polled one within a budget set by
its length, the interrupt-driven one within as many waits, if each wait during which the line
is up gets an interrupt. -/
theorem transfers_arrive (q : ℕ) (m : Watermarks) (addr : Byte) (wbuf : Ptr) (wlen : ℕ)
    (rbuf : Ptr) (rlen : ℕ) (hwargs : badArgs addr wbuf wlen = false)
    (hrargs : badArgs addr rbuf rlen = false) (hwmax : wlen ≤ 65535) (hrmax : rlen ≤ 65535)
    (budget : ℕ) (hbudget : q * (3 * max wlen rlen + 1) + 1 < budget) (w : World Controller)
    (hidle : w.dev.active = false) (sched : Stream' ℕ) (hfair : Prog.Fair q sched) :
    ∀ t ∈ [polled budget, interruptDriven Irq.anyIrqs budget],
      Arrives m (w.job false wbuf wlen) (t.write addr wbuf wlen) (w, sched) ∧
        Arrives m (w.job true rbuf rlen) (t.read addr rbuf rlen) (w, sched) ∧
        ((∀ e ∈ (t.writeRead addr wbuf wlen rbuf rlen).history running (w, sched),
            Attended m e) →
          ((t.writeRead addr wbuf wlen rbuf rlen).run running (w, sched)).1 = .ok ∧
            ∀ n, Exchanged w wbuf wlen rbuf rlen (World.tick^[n]
              ((t.writeRead addr wbuf wlen rbuf rlen).run running (w, sched)).2.1)) := by
  have hwbudget : q * (3 * wlen + 1) + 1 < budget := by
    have hle : q * (3 * wlen + 1) ≤ q * (3 * max wlen rlen + 1) := Nat.mul_le_mul_left q (by omega)
    omega
  have hrbudget : q * (3 * rlen + 1) + 1 < budget := by
    have hle : q * (3 * rlen + 1) ≤ q * (3 * max wlen rlen + 1) := Nat.mul_le_mul_left q (by omega)
    omega
  intro t ht
  have hwrite := (settles_transfer (m := m) hwargs hwmax hwbudget hidle hfair t ht).1
  have hread := (settles_transfer (m := m) hrargs hrmax hrbudget hidle hfair t ht).2
  refine ⟨hwrite.arrives, hread.arrives, fun hline => ?_⟩
  rw [writeRead_eq ht, Prog.history_bind] at hline
  obtain ⟨hok, ⟨y, hover⟩, hfair'⟩ := hwrite fun e he => hline e (List.mem_append_left _ he)
  have hsecond := (settles_transfer (m := m) hrargs hrmax hrbudget hover.inactive hfair' t ht).2
  rw [hok] at hline
  obtain ⟨hok', hdata⟩ := hsecond.arrives fun e he => hline e (List.mem_append_right _ he)
  rw [writeRead_eq ht, Prog.run_bind, hok]
  exact ⟨hok', fun n => exchanged_of_complete hover (hdata n)⟩

/-- Two bytes to a slave that counts up from 7 and three from it, with an interrupt at each
wait. -/
theorem transfers_arrive_quiet :
    let w := { World.powerOn Controller.quiet 0 with
      interrupts := fun _ => 1
      mem := BitVec.ofNat 8 }
    let s := ((interruptDriven Irq.anyIrqs 12).writeRead 0x48 100 2 200 3).run running
      (w, fun _ => 1)
    s.1 = .ok ∧ s.2.1.dev.received = [100, 101] ∧
      [199, 200, 201, 202, 203].map s.2.1.mem = [199, 7, 8, 9, 203] := by
  intro w s
  have hfair : Prog.Fair 1 fun _ => 1 := .const Nat.one_pos Nat.one_ne_zero
  have hmem : interruptDriven Irq.anyIrqs 12 ∈ [polled 12, interruptDriven Irq.anyIrqs 12] :=
    List.mem_cons_of_mem _ List.mem_cons_self
  obtain ⟨-, -, hboth⟩ := transfers_arrive 1 ⟨4, 12, by decide, by decide⟩ 0x48 100 2 200 3 rfl rfl
    (by decide) (by decide) 12 (by decide) w rfl (fun _ => 1) hfair _ hmem
  obtain ⟨hok, hdata⟩ := hboth (attended_of_interrupts _ _ fun _ => Nat.one_ne_zero)
  obtain ⟨hbuffer, hreceived⟩ : Exchanged w 100 2 200 3 s.2.1 := hdata 0
  refine ⟨hok, ?_, ?_⟩
  · rw [hreceived]
    decide
  · rw [hbuffer]
    decide

end Bcm2837
