import Bcm2837.FormatOutput
import Bcm2837.Interleaving
import Bcm2837.Realization
import Bcm2837.RegisterFile

/-!
# The console UART

The PL011 sends what is in its transmit FIFO while the processor goes on. `uart_putc` waits
until the FIFO has room, so the functions that print need no more of the UART than that it
is enabled.
-/
namespace Bcm2837.Uart

open Prog (Handler Leaves interleave)

inductive Reg
  | DR | FR | IBRD | FBRD | LCRH | CR | IMSC | ICR
  deriving DecidableEq

/-- The UART seen from the bus and from the wire. -/
structure Pl011 where
  regs : Reg → Word
  fifo : List (BitVec 8)
  /-- What has gone out. -/
  wire : List (BitVec 8)

abbrev Io := Mmio Reg Word

def FR_TXFF : Word := 1 <<< 5

/-! ## The device -/

namespace Pl011

variable (u : Pl011)

/-- The places of the FIFO; without `FEN` it is one holding register. -/
def depth : ℕ := if (u.regs .LCRH).getLsbD 4 then 16 else 1

/-- `UARTEN` and `TXE` -/
def enabled : Bool := (u.regs .CR).getLsbD 0 && (u.regs .CR).getLsbD 8

def full : Bool := u.depth ≤ u.fifo.length

theorem depth_le : u.depth ≤ 16 := by
  unfold depth
  split_ifs <;> decide

/-- The UART sends one character. -/
def drain : Pl011 :=
  if u.enabled then { u with fifo := u.fifo.tail, wire := u.wire ++ u.fifo.take 1 } else u

/-- Everything written, sent or not. -/
def sent : List (BitVec 8) := u.wire ++ u.fifo

/-- The flag register as it reads. -/
def flags : Word := (u.regs .FR &&& ~~~FR_TXFF) ||| if u.full then FR_TXFF else 0

end Pl011

/-- A character written to a full FIFO is lost. -/
def pl011 : Handler (Access Reg Word) Access.Ans Pl011
  | .load .FR, u => (u.flags, u)
  | .load r, u => (u.regs r, u)
  | .store .DR v, u => ((), if u.full then u else { u with fifo := u.fifo ++ [v.setWidth 8] })
  | .store r v, u => ((), { u with regs := Function.update u.regs r v })

/-! ## The driver -/

def uart_init : Io Unit := do
  Mmio.store .CR 0
  Mmio.store .ICR 0x7FF
  Mmio.store .LCRH ((1 : Word) <<< 4 ||| (3 : Word) <<< 5)
  Mmio.store .CR ((1 : Word) <<< 0 ||| (1 : Word) <<< 8 ||| (1 : Word) <<< 9)

/-- `static_cast<unsigned char>(c)` -/
def code (c : Char) : BitVec 8 := BitVec.ofNat 8 c.toNat

/-- A round of `while(reg(FR) & FR_TXFF) { }`, or the store behind the loop. -/
def putcRound (c : Char) (_ : Unit) : Io (Unit ⊕ Unit) := do
  let fr ← Mmio.load .FR
  if fr &&& FR_TXFF ≠ 0 then return .inl ()
  else
    Mmio.store .DR ((code c).setWidth 32)
    return .inr ()

/-- The UART with a schedule that says how many characters it sends before each access. -/
abbrev Line := Pl011 × Stream' ℕ

/-- `uart_putc(c)` returns after some rounds. -/
def uart_putc (c : Char) (s t : Line) : Prop :=
  ∃ n H, Leaves (interleave Pl011.drain pl011) (putcRound c) n () s H () t

/-! ## Sending -/

namespace Pl011

variable (u : Pl011)

@[simp] theorem regs_drain : u.drain.regs = u.regs := by
  unfold drain
  split_ifs <;> rfl

theorem sent_drain : u.drain.sent = u.sent := by
  unfold drain sent
  split_ifs with h
  · cases u.fifo <;> simp
  · rfl

theorem length_drain : u.drain.fifo.length = u.fifo.length - if u.enabled then 1 else 0 := by
  unfold drain
  split_ifs <;> simp

theorem regs_drains (n : ℕ) : (drain^[n] u).regs = u.regs :=
  Prog.Stable.iterate (P := fun v => v.regs = u.regs) (fun v hv => (regs_drain v).trans hv) n rfl

theorem sent_drains (n : ℕ) : (drain^[n] u).sent = u.sent :=
  Prog.Stable.iterate (P := fun v => v.sent = u.sent) (fun v hv => (sent_drain v).trans hv) n rfl

theorem depth_drains (n : ℕ) : (drain^[n] u).depth = u.depth := by
  rw [depth, regs_drains, depth]

theorem enabled_drains (n : ℕ) : (drain^[n] u).enabled = u.enabled := by
  rw [enabled, regs_drains, enabled]

theorem length_drains (n : ℕ) :
    (drain^[n] u).fifo.length = u.fifo.length - if u.enabled then n else 0 := by
  induction n with
  | zero => simp
  | succ n ih =>
    rw [Function.iterate_succ_apply', length_drain, enabled_drains, ih]
    split_ifs <;> omega

/-- Draining makes no FIFO full. -/
theorem full_drains {n : ℕ} (h : u.full = false) : (drain^[n] u).full = false := by
  unfold full at h ⊢
  rw [decide_eq_false_iff_not] at h ⊢
  rw [depth_drains, length_drains]
  omega

theorem flags_and : (u.flags &&& FR_TXFF ≠ 0) ↔ u.full = true := by
  unfold flags FR_TXFF
  cases u.full
  · simp [BitVec.and_assoc]
  · simp only [if_true, iff_true]
    intro h
    have hbit := congrArg (fun v => v.getLsbD 5) h
    simp at hbit

end Pl011

section Putc

variable (c : Char) (s : Line)

/-- The UART when the flags are read. -/
def polled : Pl011 := Pl011.drain^[s.2.head] s.1

/-- The UART at the store. -/
def stored : Pl011 := Pl011.drain^[s.2.tail.head] (polled s)

theorem putc_again (h : (polled s).full = true) :
    (putcRound c ()).run (interleave Pl011.drain pl011) s = (.inl (), polled s, s.2.tail) := by
  show Prog.run (interleave Pl011.drain pl011)
    (if (polled s).flags &&& FR_TXFF ≠ 0 then _ else _) (polled s, s.2.tail) = _
  rw [if_pos ((polled s).flags_and.mpr h)]
  rfl

theorem putc_exit (h : (polled s).full = false) :
    (putcRound c ()).run (interleave Pl011.drain pl011) s =
      (.inr (), { stored s with fifo := (stored s).fifo ++ [code c] }, s.2.tail.tail) := by
  have hroom : (stored s).full = false := Pl011.full_drains _ h
  have hcode : ((code c).setWidth 32).setWidth 8 = code c := by simp [code]
  show Prog.run (interleave Pl011.drain pl011)
    (if (polled s).flags &&& FR_TXFF ≠ 0 then _ else _) (polled s, s.2.tail) = _
  rw [if_neg (by rw [(polled s).flags_and, h]; decide)]
  show ((.inr () : Unit ⊕ Unit), (if (stored s).full then stored s
    else { stored s with fifo := (stored s).fifo ++ [((code c).setWidth 32).setWidth 8] }), _) = _
  rw [hroom, hcode]
  rfl

end Putc

/-- Between `s` and `t` the bytes are written to the UART, none of them to a full FIFO. -/
structure Writes (s t : Line) (bytes : List (BitVec 8)) : Prop where
  regs : t.1.regs = s.1.regs
  sent : t.1.sent = s.1.sent ++ bytes
  fits : s.1.fifo.length ≤ s.1.depth → t.1.fifo.length ≤ t.1.depth
  later : ∃ n, t.2 = s.2.drop n

theorem Writes.trans {s t r : Line} {bytes bytes' : List (BitVec 8)} (h : Writes s t bytes)
    (h' : Writes t r bytes') : Writes s r (bytes ++ bytes') where
  regs := h'.regs.trans h.regs
  sent := by rw [h'.sent, h.sent, List.append_assoc]
  fits hs := h'.fits (h.fits hs)
  later := by
    obtain ⟨n, hn⟩ := h.later
    obtain ⟨k, hk⟩ := h'.later
    exact ⟨n + k, by rw [hk, hn, Stream'.drop_drop]⟩

theorem writes_again {s : Line} : Writes s (polled s, s.2.tail) [] where
  regs := s.1.regs_drains _
  sent := by
    rw [List.append_nil]
    exact s.1.sent_drains _
  fits h := by
    rw [polled, Pl011.length_drains, Pl011.depth_drains]
    omega
  later := ⟨1, rfl⟩

theorem writes_exit (c : Char) {s : Line} (h : (polled s).full = false) :
    Writes s ({ stored s with fifo := (stored s).fifo ++ [code c] }, s.2.tail.tail) [code c] where
  regs := ((polled s).regs_drains _).trans (s.1.regs_drains _)
  sent := by
    have hsent : (stored s).sent = s.1.sent :=
      ((polled s).sent_drains _).trans (s.1.sent_drains _)
    rw [← hsent]
    simp [Pl011.sent]
  fits _ := by
    have hroom : (stored s).full = false := Pl011.full_drains _ h
    rw [Pl011.full, decide_eq_false_iff_not] at hroom
    have hdepth : ({ stored s with fifo := (stored s).fifo ++ [code c] } : Pl011).depth =
        (stored s).depth := rfl
    rw [List.length_append, hdepth]
    simp only [List.length_singleton]
    omega
  later := ⟨2, rfl⟩

theorem writes_leaves {c : Char} {n : ℕ} {a b : Unit} {s t : Line}
    {H : List (Access Reg Word × Line)}
    (hl : Leaves (interleave Pl011.drain pl011) (putcRound c) n a s H b t) :
    Writes s t [code c] := by
  induction hl with
  | @exit a s b hb =>
    by_cases hfull : (polled s).full = true
    · rw [putc_again c s hfull] at hb
      cases hb
    · rw [putc_exit c s (Bool.eq_false_iff.mpr hfull)]
      exact writes_exit c (Bool.eq_false_iff.mpr hfull)
  | @again n a a' s t H b hb hl ih =>
    by_cases hfull : (polled s).full = true
    · rw [putc_again c s hfull] at ih
      exact writes_again.trans ih
    · rw [putc_exit c s (Bool.eq_false_iff.mpr hfull)] at hb
      cases hb

/-- `uart_putc` writes its character, and writes it where there is room. -/
theorem writes_uart_putc {c : Char} {s t : Line} (h : uart_putc c s t) : Writes s t [code c] := by
  obtain ⟨n, H, hl⟩ := h
  exact writes_leaves hl

/-! ## Progress -/

/-- The UART is enabled, its FIFO has not been overfilled, and the schedule lets it send again and
again. -/
structure Live (s : Line) : Prop where
  enabled : s.1.enabled = true
  fits : s.1.fifo.length ≤ s.1.depth
  fair : ∀ n, ∃ k, (s.2.drop n).get k ≠ 0

theorem Live.of_writes {s t : Line} {bytes : List (BitVec 8)} (hs : Live s)
    (h : Writes s t bytes) : Live t where
  enabled := by
    rw [Pl011.enabled, h.regs]
    exact hs.enabled
  fits := h.fits hs.fits
  fair n := by
    obtain ⟨m, hm⟩ := h.later
    rw [hm, Stream'.drop_drop]
    exact hs.fair (m + n)

/-- The accesses before the UART sends the next time. -/
noncomputable def wait (sched : Stream' ℕ) : ℕ := sInf {k | sched.get k ≠ 0}

theorem wait_tail {sched : Stream' ℕ} (hfair : ∃ k, sched.get k ≠ 0) (hhead : sched.head = 0) :
    wait sched.tail < wait sched := by
  have hmem : sched.get (wait sched) ≠ 0 := Nat.sInf_mem hfair
  cases hk : wait sched with
  | zero =>
    rw [hk] at hmem
    exact absurd hhead hmem
  | succ k =>
    rw [hk] at hmem
    exact Nat.lt_succ_of_le (Nat.sInf_le hmem)

/-- Where the UART sends, there is room. -/
theorem head_of_full {s : Line} (hs : Live s) (h : (polled s).full = true) : s.2.head = 0 := by
  unfold polled Pl011.full at h
  rw [decide_eq_true_iff, Pl011.length_drains, Pl011.depth_drains, if_pos hs.enabled] at h
  have hfits := hs.fits
  have hdepth : 0 < s.1.depth := by
    unfold Pl011.depth
    split_ifs <;> decide
  omega

/-- `uart_putc` returns. -/
theorem uart_putc_returns (c : Char) {s : Line} (hs : Live s) : ∃ t, uart_putc c s t := by
  have hagain (a : Unit) (s : Line) (a' : Unit) (hlive : Live s)
      (hb : ((putcRound c a).run (interleave Pl011.drain pl011) s).1 = .inl a') :
      Live ((putcRound c a).run (interleave Pl011.drain pl011) s).2 ∧
        wait ((putcRound c a).run (interleave Pl011.drain pl011) s).2.2 < wait s.2 := by
    by_cases hfull : (polled s).full = true
    · rw [putc_again c s hfull]
      exact ⟨hlive.of_writes writes_again,
        wait_tail (by simpa using hlive.fair 0) (head_of_full hlive hfull)⟩
    · rw [putc_exit c s (Bool.eq_false_iff.mpr hfull)] at hb
      cases hb
  obtain ⟨n, H, ⟨⟩, t, hl⟩ := Prog.leaves_of_rank (I := fun _ s => Live s) Nat.lt_wfRel.wf
    (fun _ s => wait s.2) hagain hs
  exact ⟨t, n, H, hl⟩

/-! ## Printing on the line -/

/-- The commands of the printing functions, with `uart_putc` done by the UART. -/
def onLine : Prog.Realizer Print.Cmd Print.Ans (Print.World × Line)
  | .putc c, s, _, t => uart_putc c s.2 t.2 ∧ t.1 = s.1
  | c, s, a, t => (a, t.1) = Print.print c s.1 ∧ t.2 = s.2

/-- The line has been sent the output of the world, after what it had been sent before, and can
take more. -/
structure Shows (before : List (BitVec 8)) (s : Print.World × Line) (w : Print.World) : Prop where
  world : { s.1 with out := w.out } = w
  sent : s.2.1.sent = before ++ w.out.map code
  live : Live s.2

section Shows

variable {before : List (BitVec 8)}

theorem shows_putc {c : Char} {s t : Print.World × Line} {w : Print.World}
    (hs : Shows before s w) (ht : Writes s.2 t.2 [code c]) (hworld : t.1 = s.1) :
    Shows before t { w with out := w.out ++ [c] } where
  world := by rw [hworld, ← hs.world]
  sent := by
    rw [ht.sent, hs.sent]
    simp
  live := hs.live.of_writes ht

/-- The other commands see the same world. -/
theorem shows_print {c : Print.Cmd} (hc : ∀ d, c ≠ .putc d) {s : Print.World × Line}
    {w : Print.World} (hs : Shows before s w) :
    (Print.print c s.1).1 = (Print.print c w).1 ∧
      Shows before ((Print.print c s.1).2, s.2) (Print.print c w).2 := by
  rw [← hs.world]
  cases c with
  | putc d => exact absurd rfl (hc d)
  | setBuf i d => exact ⟨rfl, rfl, hs.sent, hs.live⟩
  | getBuf i => exact ⟨rfl, rfl, hs.sent, hs.live⟩
  | fetch i => exact ⟨rfl, rfl, hs.sent, hs.live⟩
  | arg => exact ⟨rfl, rfl, hs.sent, hs.live⟩
  | deref p i => exact ⟨rfl, rfl, hs.sent, hs.live⟩

theorem realizes_onLine : Prog.Realizes onLine Print.print (Shows before) := by
  intro c s w a t hs ht
  by_cases hc : ∃ d, c = .putc d
  · obtain ⟨d, rfl⟩ := hc
    exact ⟨rfl, shows_putc hs (writes_uart_putc ht.1) ht.2⟩
  · have hother : ∀ d, c ≠ .putc d := fun d hd => hc ⟨d, hd⟩
    have hstep : (a, t.1) = Print.print c s.1 ∧ t.2 = s.2 := by
      cases c <;> first | exact ht | exact absurd rfl (hother _)
    obtain ⟨hanswer, hshows⟩ := shows_print hother hs
    have hfst : a = (Print.print c s.1).1 := congrArg Prod.fst hstep.1
    have hsnd : t = ((Print.print c s.1).2, s.2) :=
      Prod.ext (congrArg Prod.snd hstep.1) hstep.2
    rw [hfst, hsnd]
    exact ⟨hanswer, hshows⟩

theorem completes_onLine : Prog.Completes onLine Print.print (Shows before) := by
  intro c s w hs
  by_cases hc : ∃ d, c = .putc d
  · obtain ⟨d, rfl⟩ := hc
    obtain ⟨t, ht⟩ := uart_putc_returns d hs.live
    exact ⟨(s.1, t), ⟨ht, rfl⟩, shows_putc hs (writes_uart_putc ht) rfl⟩
  · have hother : ∀ d, c ≠ .putc d := fun d hd => hc ⟨d, hd⟩
    obtain ⟨hanswer, hshows⟩ := shows_print hother hs
    refine ⟨((Print.print c s.1).2, s.2), ?_, hshows⟩
    rw [← hanswer]
    cases c <;> first | exact ⟨rfl, rfl⟩ | exact absurd rfl (hother _)

end Shows

/-! ## From `uart_init` to the wire -/

/-- The line after a store to a register other than `DR`. -/
def configured (r : Reg) (v : Word) (s : Line) : Line :=
  ({ Pl011.drain^[s.2.head] s.1 with regs := Function.update s.1.regs r v }, s.2.tail)

theorem run_configure {r : Reg} (hr : r ≠ .DR) (v : Word) (s : Line) :
    (Mmio.store r v : Io Unit).run (interleave Pl011.drain pl011) s = ((), configured r v s) := by
  have hregs : Function.update s.1.regs r v =
      Function.update (Pl011.drain^[s.2.head] s.1).regs r v := by rw [Pl011.regs_drains]
  unfold configured
  rw [hregs]
  cases r <;> first | rfl | exact absurd rfl hr

/-- A store to a register leaves what has been sent, and at most sends more of it. -/
theorem configured_sends (r : Reg) (v : Word) (s : Line) :
    (configured r v s).1.sent = s.1.sent ∧
      (configured r v s).1.fifo.length ≤ s.1.fifo.length := by
  refine ⟨s.1.sent_drains _, ?_⟩
  show (Pl011.drain^[s.2.head] s.1).fifo.length ≤ _
  rw [Pl011.length_drains]
  omega

section Init

variable (u : Pl011) (sched : Stream' ℕ)

/-- The line after `uart_init`. -/
def initialized : Line := (uart_init.run (interleave Pl011.drain pl011) (u, sched)).2

theorem initialized_eq : initialized u sched =
    configured .CR ((1 : Word) <<< 0 ||| (1 : Word) <<< 8 ||| (1 : Word) <<< 9)
      (configured .LCRH ((1 : Word) <<< 4 ||| (3 : Word) <<< 5)
        (configured .ICR 0x7FF (configured .CR 0 (u, sched)))) := by
  unfold initialized uart_init
  simp only [Prog.run_bind]
  rw [run_configure (by decide), run_configure (by decide), run_configure (by decide),
    run_configure (by decide)]

theorem sent_initialized : (initialized u sched).1.sent = u.sent := by
  rw [initialized_eq, (configured_sends _ _ _).1, (configured_sends _ _ _).1,
    (configured_sends _ _ _).1, (configured_sends _ _ _).1]

theorem depth_initialized : (initialized u sched).1.depth = 16 := by
  simp [initialized_eq, configured, Pl011.depth]

theorem live_initialized (hu : u.fifo.length ≤ 16)
    (hfair : ∀ n, ∃ k, (sched.drop n).get k ≠ 0) : Live (initialized u sched) where
  enabled := by simp [initialized_eq, configured, Pl011.enabled]
  fits := by
    rw [depth_initialized, initialized_eq]
    calc _ ≤ _ := (configured_sends _ _ _).2
      _ ≤ _ := (configured_sends _ _ _).2
      _ ≤ _ := (configured_sends _ _ _).2
      _ ≤ u.fifo.length := (configured_sends _ _ _).2
      _ ≤ 16 := hu
  fair n := by
    rw [initialized_eq]
    show ∃ k, (Stream'.drop n (Stream'.drop 4 sched)).get k ≠ 0
    rw [Stream'.drop_drop]
    exact hfair _

end Init

/-- With nothing more written, everything goes out. -/
theorem wire_drains {u : Pl011} (henabled : u.enabled = true) {n : ℕ}
    (hn : u.fifo.length ≤ n) : (Pl011.drain^[n] u).wire = u.sent := by
  have hempty : (Pl011.drain^[n] u).fifo = [] := by
    rw [← List.length_eq_zero_iff, Pl011.length_drains, if_pos henabled]
    omega
  have hsent := u.sent_drains n
  rwa [Pl011.sent, hempty, List.append_nil] at hsent

/-- What the line shows goes out. -/
theorem Shows.wire {before : List (BitVec 8)} {s : Print.World × Line} {w : Print.World}
    (hs : Shows before s w) {n : ℕ} (hn : 16 ≤ n) :
    (Pl011.drain^[n] s.2.1).wire = before ++ w.out.map code := by
  have hfits : s.2.1.fifo.length ≤ s.2.1.depth := hs.live.fits
  have hdepth := s.2.1.depth_le
  rw [wire_drains hs.live.enabled (by omega), hs.sent]

/-- What a printing function does on the line: it returns, and its text goes out whole, in
order and behind what was there. -/
def GoesOut (p : Print.Io Unit) (w : Print.World) (l : Line) (cs : List Char) : Prop :=
  (∃ w' t, Prog.Runs onLine p (w, l) () (w', t)) ∧
    ∀ w' t, Prog.Runs onLine p (w, l) () (w', t) → ∀ n ≥ 16,
      (Pl011.drain^[n] t.1).wire = l.1.sent ++ cs.map code

theorem goesOut_of_out {p : Print.Io Unit} {cs : List Char}
    (hp : ∀ w, (p.run Print.print w).2.out = w.out ++ cs) (w : Print.World) {l : Line}
    (hl : Live l) : GoesOut p w l cs := by
  have hshows : Shows l.1.sent (w, l) { w with out := [] } :=
    ⟨rfl, (List.append_nil _).symm, hl⟩
  constructor
  · obtain ⟨t, ht, -⟩ := Prog.runs_of_completes completes_onLine p hshows
    exact ⟨t.1, t.2, ht⟩
  · intro w' t ht n hn
    obtain ⟨-, hend⟩ := ht.realizes realizes_onLine hshows
    rw [hend.wire hn, hp]
    rfl

/-- `printf` returns whenever the UART sends again and again, and its text goes out whole and in
order behind what was there, whenever the UART sends. -/
theorem printf_on_wire (u : Pl011) (hu : u.fifo.length ≤ 16) (sched : Stream' ℕ)
    (hfair : ∀ n, ∃ k, (sched.drop n).get k ≠ 0) (w : Print.World)
    (hclosed : Print.Open w.format w.format.len = false) :
    (∃ w' t, Prog.LeavesBy onLine Print.printfRound (.outer 0) (w, initialized u sched) 0 (w', t)) ∧
      ∀ b w' t, Prog.LeavesBy onLine Print.printfRound (.outer 0) (w, initialized u sched) b
        (w', t) → b = 0 ∧ ∀ n ≥ 16, (Pl011.drain^[n] t.1).wire = u.sent ++
          (Print.render (fun s => (w.strings s).text) w.args w.nextArg
            (Print.pieces none w.format.text)).map code := by
  have hsent : (initialized u sched).1.sent = u.sent ++ [].map code := by
    rw [sent_initialized, List.map_nil, List.append_nil]
  have hshows : Shows u.sent (w, initialized u sched) { w with out := [] } :=
    ⟨rfl, hsent, live_initialized u sched hu hfair⟩
  constructor
  · obtain ⟨H, b, w₁, ⟨n, hl⟩, -⟩ := Print.stops_of_closed (w := { w with out := [] }) hclosed
    obtain ⟨rfl, -, -⟩ := Print.leaves_sends hclosed hl ⟨⟨rfl, rfl⟩, Nat.zero_le _, rfl⟩
    obtain ⟨t, ht, -⟩ := hl.completes completes_onLine hshows
    exact ⟨t.1, t.2, ht⟩
  · intro b w' t ht
    obtain ⟨n, H, w₁, hl, hend⟩ := ht.realizes realizes_onLine hshows
    obtain ⟨rfl, hout, -⟩ := Print.leaves_sends hclosed hl ⟨⟨rfl, rfl⟩, Nat.zero_le _, rfl⟩
    refine ⟨rfl, fun k hk => ?_⟩
    rw [hend.wire hk, hout]
    rfl

/-- The format `"%d"` on an idle UART that has never been set up. -/
theorem printf_on_wire_minus : ∃ w' t,
    Prog.LeavesBy onLine Print.printfRound (.outer 0)
      (⟨Print.percentD, fun _ => Print.percentD, fun _ => 0xFFFFFFFB, 0, fun _ => Print.NUL, []⟩,
        initialized ⟨fun _ => 0, [], []⟩ (Stream'.const 1)) 0 (w', t) ∧
      (Pl011.drain^[16] t.1).wire = [45, 53] := by
  obtain ⟨⟨w', t, ht⟩, hall⟩ := printf_on_wire ⟨fun _ => 0, [], []⟩ (by decide) (Stream'.const 1)
    (fun _ => ⟨0, Nat.one_ne_zero⟩)
    ⟨Print.percentD, fun _ => Print.percentD, fun _ => 0xFFFFFFFB, 0, fun _ => Print.NUL, []⟩ rfl
  exact ⟨w', t, ht, ((hall 0 w' t ht).2 16 le_rfl).trans (by decide)⟩

end Bcm2837.Uart
