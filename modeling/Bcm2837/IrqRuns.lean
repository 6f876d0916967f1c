import Bcm2837.IrqSteps

/-!
# Runs of the interrupt-driven transport

Rules for triples about the transport's functions, and the runs of whole sequences of
calls. The rules ask for what one pass of the interrupt handler, one accepted call and
one end of a transfer do; the loops, the callback bodies and the order of the calls are
dealt with here once.
-/
namespace Bcm2837
namespace Irq

/-! ## Waiting threads, in any environment -/

section Waiting

variable {σ : Type*} {h : Prog.Handler Cmd Cmd.Ans σ} {R : σ → List (Cmd × σ) → σ → Prop}
variable {P : σ → Prop} {Q : I2cResult → σ → Prop}

/-- The watchdog loop: it returns with the result of a finished record, or leaves the
record to the watchdog. -/
theorem triple_waitLoop (hR : Prog.Sequential R) {wait : TransportM Unit}
    (hxfer : Prog.Triple h R P xfer fun x s => P s ∧ (x.done → Q x.result s))
    (hwait : Prog.Triple h R P wait fun _ => P) (waits : ℕ) :
    Prog.Triple h R P (waitLoop wait waits)
      fun r s => match r with | some r => Q r s | none => P s := by
  induction waits with
  | zero => exact Prog.Triple.pure hR fun _ hs => hs
  | succ waits ih =>
    refine Prog.Triple.bind hR (Prog.Triple.pure hR fun _ hs => hs) fun _ =>
      Prog.Triple.bind hR hxfer fun x => Prog.Triple.ite _ (fun hx => ?_) fun _ => ?_
    · exact Prog.Triple.pure hR fun s hs => hs.2 hx
    · exact Prog.Triple.bind hR (hwait.weaken (fun _ hs => hs.1) fun _ _ hs => hs) fun _ => ih

theorem triple_waitComplete (hR : Prog.Sequential R) {wait : TransportM Unit}
    (hxfer : Prog.Triple h R P xfer fun x s => P s ∧ (x.done → Q x.result s))
    (hwait : Prog.Triple h R P wait fun _ => P)
    (habort : Prog.Triple h R P abortTransfer fun _ => Q .timeout) (maxWaits : ℕ) :
    Prog.Triple h R P (waitComplete wait maxWaits) Q := by
  refine Prog.Triple.bind hR (triple_waitLoop hR hxfer hwait maxWaits) fun r => ?_
  cases r with
  | some r => exact Prog.Triple.pure hR fun _ hs => hs
  | none => exact Prog.Triple.bind hR habort fun _ => Prog.Triple.pure hR fun _ hs => hs

theorem triple_anyIrqs (hR : Prog.Sequential R)
    (hcount : Prog.Triple h R P (Prog.call Cmd.interrupts Prog.ret) fun _ => P)
    (hirq : Prog.Triple h R P handleIrq fun _ => P) :
    Prog.Triple h R P anyIrqs fun _ => P :=
  Prog.Triple.bind hR hcount fun n => Prog.Triple.times hR hirq n

end Waiting

/-! ## The handler's loop ends by itself -/

/-- An environment in which the record is a variable, written by assignments only. -/
structure HoldsRecord {σ : Type*} (h : Prog.Handler Cmd Cmd.Ans σ) (record : σ → Xfer) : Prop where
  look : ∀ s, (h .xfer s).1 = record s
  assign : ∀ b s, record (h (.assign b) s).2 = b.apply (record s)
  other : ∀ c s, (∀ b, c ≠ .assign b) → record (h c s).2 = record s

theorem holdsRecord_world {δ : Type} (d : Device δ) : HoldsRecord (world d) World.xfer where
  look _ := rfl
  assign _ _ := rfl
  other c s hc := by
    cases c with
    | assign b => exact absurd rfl (hc b)
    | _ => rfl

section Bound

variable {σ : Type*} {h : Prog.Handler Cmd Cmd.Ans σ} {record : σ → Xfer}

/-- Moving a byte settles one of the bytes owed. -/
theorem owed_popByte (hh : HoldsRecord h record) (s : σ) (hri : (record s).ri < (record s).rn) :
    owed (record ((popByte (record s)).run h s).2) < owed (record s) := by
  have hrecord : record ((popByte (record s)).run h s).2 =
      (Assign.ri ((record s).ri + 1)).apply (record s) := by
    have hpop := hh.other (.bsc (.load .FIFO)) s (by simp)
    rw [popByte, Prog.run_bind, Prog.run_bind]
    exact (hh.other (.storeByte _ _) _ (by simp)).trans ((hh.assign _ _).trans (congrArg _ hpop))
  rw [hrecord]
  simp only [owed, Assign.apply]
  omega

theorem owed_pushByte (hh : HoldsRecord h record) (s : σ) (hti : (record s).ti < (record s).tn) :
    owed (record ((pushByte (record s)).run h s).2) < owed (record s) := by
  have hrecord : record ((pushByte (record s)).run h s).2 =
      (Assign.ti ((record s).ti + 1)).apply (record s) := by
    have hassign := hh.assign (.ti ((record s).ti + 1)) s
    rw [pushByte, Prog.run_bind, Prog.run_bind]
    exact (hh.other (.bsc (.store .FIFO _)) _ (by simp)).trans
      ((hh.other (.loadByte _) _ (by simp)).trans hassign)
  rw [hrecord]
  simp only [owed, Assign.apply]
  omega

/-- Every pass of the handler but the last moves a byte, so any two bounds above the
bytes owed give one run: the bound of `handleIrq` is never what ends the source's loop. -/
theorem irqLoop_fuel_irrelevant (hh : HoldsRecord h record) (m n : ℕ) (s : σ)
    (hm : owed (record s) < m) (hn : owed (record s) < n) :
    Prog.Alike h (irqLoop m) (irqLoop n) s := by
  induction m generalizing n s with
  | zero => exact absurd hm (Nat.not_lt_zero _)
  | succ m ih =>
    obtain ⟨n, rfl⟩ : ∃ k, n = k + 1 := ⟨n - 1, by omega⟩
    have hword : record (readStatus.run h s).2 = record s := hh.other .status s nofun
    rw [irqLoop_succ, irqLoop_succ]
    refine Prog.Alike.bind ?_
    generalize readStatus.run h s = t at hword ⊢
    by_cases herr : Word.has t.1 S_ERR
    · simp only [if_pos herr]
      exact Prog.Alike.refl _
    by_cases hclk : Word.has t.1 S_CLKT
    · simp only [if_neg herr, if_pos hclk]
      exact Prog.Alike.refl _
    have hsame : record (xfer.run h t.2).2 = record t.2 := hh.other .xfer t.2 nofun
    have hlook : (xfer.run h t.2).1 = record (xfer.run h t.2).2 := (hh.look t.2).trans hsame.symm
    simp only [if_neg herr, if_neg hclk]
    refine Prog.Alike.bind ?_
    rw [hlook]
    generalize (xfer.run h t.2).2 = u at hsame ⊢
    rw [← hword, ← hsame] at hm hn
    cases ha : action t.1 (record u) with
    | finish r => exact Prog.Alike.refl _
    | idle => exact Prog.Alike.refl _
    | pop =>
      have hless := owed_popByte hh u (action_moves.1 ha).2
      exact Prog.Alike.bind (ih n _ (by omega) (by omega))
    | push =>
      have hless := owed_pushByte hh u (action_moves.2 ha).2
      exact Prog.Alike.bind (ih n _ (by omega) (by omega))

end Bound

variable {δ : Type} {d : Device δ}

section Triples

variable {R : World δ → List (Cmd × World δ) → World δ → Prop} {P P' : World δ → Prop}
variable {Q : I2cResult → World δ → Prop}

theorem triple_runBody (hR : Prog.Sequential R)
    (hperform : ∀ c, Prog.Triple (world d) R P (perform c) fun _ => P) (body : CallbackBody) :
    Prog.Triple (world d) R P (runBody body) fun _ => P := by
  induction body with
  | ret _ => exact Prog.Triple.pure hR fun _ hw => hw
  | call c k ih => exact Prog.Triple.bind hR (hperform c) ih

/-- A finishing pass, by what closing the record and entering its callback do. -/
theorem finish_keeps (hR : Prog.Sequential R) (w : World δ) (r : I2cResult)
    (hquiet : w.xfer.cb = nullptr → P (finished d w.next r) ∧
      ∀ H : List (Cmd × World δ), (∀ e ∈ H, Closing e.1) → reports H = [r] →
        R w ((.status, w) :: H) (finished d w.next r))
    (henter : w.xfer.cb ≠ nullptr →
      (∀ c, Prog.Triple (world d) R P (perform c) fun _ => P) ∧ P (entered d w.next r) ∧
      ∀ H : List (Cmd × World δ), (∀ e ∈ H, Closing e.1) → reports H = [r] →
        R w ((.status, w) :: (H ++ [(.enter w.xfer.cb r w.xfer.user, entering d w.next r)]))
          (entered d w.next r)) :
    P ((finalize r).run (world d) w.next).2 ∧
      R w ((.status, w) :: (peek d w ++ (finalize r).history (world d) w.next))
        ((finalize r).run (world d) w.next).2 := by
  obtain ⟨H, hH, hreports, hhist⟩ := history_finalize d w.next r
  have hclosing : ∀ e ∈ peek d w ++ H, Closing e.1 := by
    intro e he
    rcases List.mem_append.mp he with he | he
    · exact closing_peek d w e he
    · exact hH e he
  have hreports' : reports (peek d w ++ H) = [r] := by
    rw [reports_append, reports_peek, hreports, List.nil_append]
  rw [hhist, run_finalize]
  by_cases hcb : w.xfer.cb = nullptr
  · have hcb' : w.next.xfer.cb = nullptr := hcb
    simp only [if_pos hcb', List.append_nil]
    exact ⟨(hquiet hcb).1, (hquiet hcb).2 _ hclosing hreports'⟩
  · have hcb' : w.next.xfer.cb ≠ nullptr := hcb
    simp only [if_neg hcb']
    obtain ⟨hperform, hP, hlog⟩ := henter hcb
    have hbody := triple_runBody hR hperform w.bodies.head (entered d w.next r) hP
    refine ⟨hbody.1, ?_⟩
    have hall := hR.trans (hlog _ hclosing hreports') hbody.2
    simp only [List.cons_append, List.append_assoc, List.nil_append] at hall
    exact hall

/-- The handler's loop keeps what each kind of pass keeps. -/
theorem triple_passes (hR : Prog.Sequential R)
    (hidle : ∀ w, P w → action (w.word d) w.xfer = .idle →
      P w.next ∧ R w ((.status, w) :: peek d w) w.next)
    (hpop : ∀ w, P w → action (w.word d) w.xfer = .pop →
      P ((popByte w.xfer).run (world d) w.next).2 ∧
      R w ((.status, w) :: (peek d w ++ (popByte w.xfer).history (world d) w.next))
        ((popByte w.xfer).run (world d) w.next).2)
    (hpush : ∀ w, P w → action (w.word d) w.xfer = .push →
      P ((pushByte w.xfer).run (world d) w.next).2 ∧
      R w ((.status, w) :: (peek d w ++ (pushByte w.xfer).history (world d) w.next))
        ((pushByte w.xfer).run (world d) w.next).2)
    (hfinish : ∀ w r, P w → action (w.word d) w.xfer = .finish r →
      P ((finalize r).run (world d) w.next).2 ∧
      R w ((.status, w) :: (peek d w ++ (finalize r).history (world d) w.next))
        ((finalize r).run (world d) w.next).2)
    (fuel : ℕ) : Prog.Triple (world d) R P (irqLoop fuel) fun _ => P := by
  induction fuel with
  | zero => exact Prog.Triple.pure hR fun _ hw => hw
  | succ fuel ih =>
    intro w hw
    rw [run_irqLoop_succ, history_irqLoop_succ]
    have hgo : ∀ p : TransportM Unit,
        P (p.run (world d) w.next).2 ∧ R w ((.status, w) :: (peek d w ++
          p.history (world d) w.next)) (p.run (world d) w.next).2 →
        P ((irqLoop fuel).run (world d) (p.run (world d) w.next).2).2 ∧
        R w ((.status, w) :: (peek d w ++ (p.history (world d) w.next ++
          (irqLoop fuel).history (world d) (p.run (world d) w.next).2)))
          ((irqLoop fuel).run (world d) (p.run (world d) w.next).2).2 := by
      intro p hp
      have hrest := ih _ hp.1
      refine ⟨hrest.1, ?_⟩
      have hall := hR.trans hp.2 hrest.2
      rwa [List.cons_append, List.append_assoc] at hall
    cases ha : action (w.word d) w.xfer with
    | finish r => exact hfinish w r hw ha
    | pop => exact hgo _ (hpop w hw ha)
    | push => exact hgo _ (hpush w hw ha)
    | idle =>
      rw [List.append_nil]
      exact hidle w hw ha

/-- The handler's loop keeps what every moving command and every finishing pass keeps. -/
theorem triple_irqLoop (hR : Prog.Sequential R)
    (hmove : ∀ c, Moves c → ∀ w, P w → P (world d c w).2 ∧ R w [(c, w)] (world d c w).2)
    (hfinish : ∀ w r, P w → action (w.word d) w.xfer = .finish r →
      P ((finalize r).run (world d) w.next).2 ∧
      R w ((.status, w) :: (peek d w ++ (finalize r).history (world d) w.next))
        ((finalize r).run (world d) w.next).2)
    (fuel : ℕ) : Prog.Triple (world d) R P (irqLoop fuel) fun _ => P := by
  have hlook : ∀ w, P w → P w.next ∧ R w ((.status, w) :: peek d w) w.next := by
    intro w hw
    have hstatus := hmove .status trivial w hw
    have hpeek : R w.next (peek d w) w.next := by
      unfold peek
      split_ifs
      · exact hR.idle _
      · exact (hmove .xfer trivial w.next hstatus.1).2
    exact ⟨hstatus.1, hR.trans hstatus.2 hpeek⟩
  have hmoved : ∀ p : TransportM Unit, p.Only Moves → ∀ w, P w →
      P (p.run (world d) w.next).2 ∧
      R w ((.status, w) :: (peek d w ++ p.history (world d) w.next))
        (p.run (world d) w.next).2 := by
    intro p hp w hw
    have hmoves := Prog.Triple.of_only hR hp hmove w.next (hlook w hw).1
    exact ⟨hmoves.1, hR.trans (hlook w hw).2 hmoves.2⟩
  exact triple_passes hR (fun w hw _ => hlook w hw)
    (fun w hw _ => hmoved _ (moves_popByte _) w hw)
    (fun w hw _ => hmoved _ (moves_pushByte _) w hw) hfinish fuel

theorem triple_handleIrq (hR : Prog.Sequential R) (hlook : ∀ w, P w → R w [(.xfer, w)] w)
    (hloop : ∀ fuel, Prog.Triple (world d) R P (irqLoop fuel) fun _ => P) :
    Prog.Triple (world d) R P handleIrq fun _ => P := by
  have hxfer : Prog.Triple (world d) R P xfer fun _ => P := fun w hw => ⟨hw, hlook w hw⟩
  exact Prog.Triple.bind hR (Prog.Triple.pure hR fun _ hw => hw) fun _ =>
    Prog.Triple.bind hR hxfer fun _ => hloop _

/-- Looking at the record, for the watchdog loop. -/
theorem triple_look (hlook : ∀ w, P' w → R w [(.xfer, w)] w)
    (hdone : ∀ w, P' w → w.xfer.done → Q w.xfer.result w) :
    Prog.Triple (world d) R P' xfer fun x w => P' w ∧ (x.done → Q x.result w) :=
  fun w hw => ⟨⟨hw, hdone w hw⟩, hlook w hw⟩

section Synchronous

variable {wait : TransportM Unit} {maxWaits : ℕ}

theorem triple_write (hR : Prog.Sequential R)
    (hstart : ∀ addr tx tn rx rn reading, Prog.Triple (world d) R P
      (start addr tx tn rx rn reading nullptr nullptr) fun _ => P')
    (hwait : Prog.Triple (world d) R P' (waitComplete wait maxWaits) fun _ => P)
    (addr : Byte) (buf : Ptr) (len : ℕ) :
    Prog.Triple (world d) R P (write wait maxWaits addr buf len) fun _ => P :=
  Prog.Triple.ite _ (fun _ => Prog.Triple.pure hR fun _ hw => hw) fun _ =>
    Prog.Triple.bind hR (hstart _ _ _ _ _ _) fun _ => hwait

theorem triple_read (hR : Prog.Sequential R)
    (hstart : ∀ addr tx tn rx rn reading, Prog.Triple (world d) R P
      (start addr tx tn rx rn reading nullptr nullptr) fun _ => P')
    (hwait : Prog.Triple (world d) R P' (waitComplete wait maxWaits) fun _ => P)
    (addr : Byte) (buf : Ptr) (len : ℕ) :
    Prog.Triple (world d) R P (read wait maxWaits addr buf len) fun _ => P :=
  Prog.Triple.ite _ (fun _ => Prog.Triple.pure hR fun _ hw => hw) fun _ =>
    Prog.Triple.bind hR (hstart _ _ _ _ _ _) fun _ => hwait

theorem triple_writeRead (hR : Prog.Sequential R)
    (hstart : ∀ addr tx tn rx rn reading, Prog.Triple (world d) R P
      (start addr tx tn rx rn reading nullptr nullptr) fun _ => P')
    (hwait : Prog.Triple (world d) R P' (waitComplete wait maxWaits) fun _ => P)
    (addr : Byte) (wbuf : Ptr) (wlen : ℕ) (rbuf : Ptr) (rlen : ℕ) :
    Prog.Triple (world d) R P (writeRead wait maxWaits addr wbuf wlen rbuf rlen) fun _ => P :=
  Prog.Triple.bind hR (triple_write hR hstart hwait addr wbuf wlen) fun _ =>
    Prog.Triple.ite _ (fun _ => Prog.Triple.pure hR fun _ hw => hw) fun _ =>
      triple_read hR hstart hwait addr rbuf rlen

end Synchronous

end Triples

/-! ## Sequences of calls -/

/-- A call of the transport's interface, or an interrupt. -/
inductive Op
  | busInit
  | write (addr : Byte) (buf : Ptr) (len : ℕ)
  | read (addr : Byte) (buf : Ptr) (len : ℕ)
  | writeRead (addr : Byte) (wbuf : Ptr) (wlen : ℕ) (rbuf : Ptr) (rlen : ℕ)
  | async (c : AsyncCall)
  | handleIrq
  deriving DecidableEq

/-- The parameters a transport is constructed with. -/
structure Config where
  divider : BitVec 16
  maxWaits : ℕ

/-- One call, its result dropped; waiting threads meet any number of interrupts. -/
def Op.exec (cfg : Config) : Op → TransportM Unit
  | busInit => Irq.busInit cfg.divider
  | write addr buf len => do
    let _ ← Irq.write anyIrqs cfg.maxWaits addr buf len
  | read addr buf len => do
    let _ ← Irq.read anyIrqs cfg.maxWaits addr buf len
  | writeRead addr wbuf wlen rbuf rlen => do
    let _ ← Irq.writeRead anyIrqs cfg.maxWaits addr wbuf wlen rbuf rlen
  | async c => do
    let _ ← perform c
  | handleIrq => Irq.handleIrq

def runOps (cfg : Config) : List Op → TransportM Unit
  | [] => pure ()
  | op :: ops => do
    op.exec cfg
    runOps cfg ops

section Triples

variable {R : World δ → List (Cmd × World δ) → World δ → Prop} {P P' : World δ → Prop}

/-- One call, whichever it is: `P` holds between calls and `P'` while a thread waits. -/
theorem triple_exec (cfg : Config) (hR : Prog.Sequential R)
    (hbus : Prog.Triple (world d) R P (Irq.busInit cfg.divider) fun _ => P)
    (hperform : ∀ c, Prog.Triple (world d) R P (perform c) fun _ => P)
    (hirq : Prog.Triple (world d) R P Irq.handleIrq fun _ => P)
    (hstart : ∀ addr tx tn rx rn reading, Prog.Triple (world d) R P
      (start addr tx tn rx rn reading nullptr nullptr) fun _ => P')
    (hwait : Prog.Triple (world d) R P' (waitComplete anyIrqs cfg.maxWaits) fun _ => P)
    (op : Op) : Prog.Triple (world d) R P (op.exec cfg) fun _ => P := by
  cases op with
  | busInit => exact hbus
  | write addr buf len => exact (triple_write hR hstart hwait addr buf len).drop hR ()
  | read addr buf len => exact (triple_read hR hstart hwait addr buf len).drop hR ()
  | writeRead addr wbuf wlen rbuf rlen =>
    exact (triple_writeRead hR hstart hwait addr wbuf wlen rbuf rlen).drop hR ()
  | async c => exact (hperform c).drop hR ()
  | handleIrq => exact hirq

theorem triple_runOps (cfg : Config) (hR : Prog.Sequential R)
    (hexec : ∀ op : Op, Prog.Triple (world d) R P (op.exec cfg) fun _ => P) (ops : List Op) :
    Prog.Triple (world d) R P (runOps cfg ops) fun _ => P := by
  induction ops with
  | nil => exact Prog.Triple.pure hR fun _ hw => hw
  | cons op ops ih => exact Prog.Triple.bind hR (hexec op) fun _ => ih

end Triples

variable (d) (w : World δ)

/-- The surroundings after a sequence of calls. -/
def after (cfg : Config) (ops : List Op) : World δ := ((runOps cfg ops).run (world d) w).2

@[simp] theorem after_nil (cfg : Config) : after d w cfg [] = w := rfl

@[simp] theorem after_cons (cfg : Config) (op : Op) (ops : List Op) :
    after d w cfg (op :: ops) = after d ((op.exec cfg).run (world d) w).2 cfg ops := by
  simp [after, runOps]

theorem after_append (cfg : Config) (ops ops' : List Op) :
    after d w cfg (ops ++ ops') = after d (after d w cfg ops) cfg ops' := by
  induction ops generalizing w with
  | nil => rfl
  | cons op ops ih => simp [ih]

end Irq
end Bcm2837
