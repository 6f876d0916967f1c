import Bcm2837.IrqRuns
import Bcm2837.Mailbox

/-!
# Exactly-once completion

A callback is owed from the moment an asynchronous call is accepted until it is
entered. Read as mail, an accepted call posts a letter, entering the callback takes
it, and the record `m_xfer` is the one slot. Every call settles this mailbox except a
synchronous one made during a transfer: it starts over the record without looking at
`active`, and the letter in the slot is lost.
-/
namespace Bcm2837

open Mailbox

/-- What tells one transfer from another to its caller. -/
structure Ticket where
  reading : Bool
  buf : Ptr
  len : ℕ
  cb : Completion
  user : Ptr
  deriving DecidableEq

def AsyncCall.ticket (c : AsyncCall) : Ticket := ⟨c.reading, c.buf, c.len, c.cb, c.user⟩

def Xfer.ticket (x : Xfer) : Ticket :=
  ⟨x.reading, if x.reading then x.rx else x.tx, if x.reading then x.rn else x.tn, x.cb, x.user⟩

theorem AsyncCall.ticket_record (c : AsyncCall) : c.record.ticket = c.ticket := by
  cases c <;> rfl

namespace Irq

variable {δ : Type} (d : Device δ)

/-- The transfer whose callback the record still owes. -/
def outstanding (x : Xfer) : Option Ticket :=
  if x.active ∧ x.cb ≠ nullptr then some x.ticket else none

/-- An accepted call with a callback posts its ticket; entering a callback takes the
ticket of the record it is entered for. -/
def mail : Cmd × World δ → Option (Mail Ticket)
  | (.returned c .ok, _) => if c.cb = nullptr then none else some (.post c.ticket)
  | (.enter cb _ user, w) => some (.take { w.xfer.ticket with cb := cb, user := user })
  | _ => none

def mails (H : List (Cmd × World δ)) : List (Mail Ticket) := H.filterMap mail

theorem mails_append (H K : List (Cmd × World δ)) : mails (H ++ K) = mails H ++ mails K :=
  List.filterMap_append

/-- The transfers with a callback that were accepted, and those whose callback was
entered, in order. -/
def accepted (H : List (Cmd × World δ)) : List Ticket := posted (mails H)
def fired (H : List (Cmd × World δ)) : List Ticket := taken (mails H)

/-- Each callback is entered for the record of its transfer, closed with the result
that the last status word of that transfer gave. -/
def Justified (H : List (Cmd × World δ)) : Prop :=
  ∀ H₁ cb r user s H₂, H = H₁ ++ (Cmd.enter cb r user, s) :: H₂ →
    ∃ t, (Cmd.status, t) ∈ H₁ ∧ action (t.word d) t.xfer = .finish r ∧
      s = entering d t.next r ∧ t.xfer.cb = cb ∧ t.xfer.user = user

/-- The record is only started over while it is not active. -/
def StartsIdle (H : List (Cmd × World δ)) : Prop :=
  ∀ s, (Cmd.assign .fresh, s) ∈ H → s.xfer.active = false

/-- The calls between two states settle the mailbox. -/
structure Settles (w : World δ) (H : List (Cmd × World δ)) (w' : World δ) : Prop where
  settled : settle (mails H) (outstanding w.xfer) = some (outstanding w'.xfer)
  justified : Justified d H
  startsIdle : StartsIdle H

/-- A record that is not active owes no callback. -/
def Settled (w : World δ) : Prop := w.xfer.active = false → w.xfer.cb = nullptr

theorem justified_of_not_mem {H : List (Cmd × World δ)}
    (hH : ∀ cb r user s, (Cmd.enter cb r user, s) ∉ H) : Justified d H := by
  rintro H₁ cb r user s H₂ rfl
  exact (hH cb r user s (by simp)).elim

theorem justified_append {H K : List (Cmd × World δ)} (hH : Justified d H)
    (hK : Justified d K) : Justified d (H ++ K) := by
  intro H₁ cb r user s H₂ heq
  rcases List.append_eq_append_iff.mp heq with ⟨L, rfl, hL⟩ | ⟨L, hL, hcons⟩
  · obtain ⟨t, ht, hrest⟩ := hK L cb r user s H₂ hL
    exact ⟨t, List.mem_append_right _ ht, hrest⟩
  · cases L with
    | nil =>
      obtain ⟨t, ht, hrest⟩ := hK [] cb r user s H₂ hcons.symm
      exact absurd ht List.not_mem_nil
    | cons e L =>
      obtain ⟨rfl, -⟩ := List.cons.inj hcons
      exact hH H₁ cb r user s L hL

theorem startsIdle_append {H K : List (Cmd × World δ)} (hH : StartsIdle H)
    (hK : StartsIdle K) : StartsIdle (H ++ K) := by
  intro s hs
  rcases List.mem_append.mp hs with hs | hs
  · exact hH s hs
  · exact hK s hs

theorem sequential_settles : Prog.Sequential (Settles d) where
  idle _ := ⟨rfl, justified_of_not_mem d fun _ _ _ _ => List.not_mem_nil,
    fun _ hs => absurd hs List.not_mem_nil⟩
  trans h₁ h₂ := by
    refine ⟨?_, justified_append d h₁.justified h₂.justified,
      startsIdle_append h₁.startsIdle h₂.startsIdle⟩
    rw [mails_append]
    exact settle_trans h₁.settled h₂.settled

theorem outstanding_of_cb {x : Xfer} (h : x.cb = nullptr) : outstanding x = none :=
  if_neg fun hx => hx.2 h

/-- Commands that leave the mailbox alone. -/
def Silent : Cmd → Prop
  | .enter _ _ _ => False
  | .returned _ _ => False
  | .assign a => a ≠ .fresh
  | _ => True

theorem Internal.silent {c : Cmd} (h : Internal c) : Silent c := by
  cases c <;> trivial

theorem Moves.silent {c : Cmd} (h : Moves c) : Silent c := by
  cases c with
  | assign a =>
    rintro rfl
    exact h
  | _ => trivial

theorem mails_silent {H : List (Cmd × World δ)} (hH : ∀ e ∈ H, Silent e.1) : mails H = [] := by
  refine List.filterMap_eq_nil_iff.mpr fun e he => ?_
  obtain ⟨c, s⟩ := e
  have hc := hH _ he
  cases c <;> first | rfl | exact hc.elim

/-- A run of silent commands settles when it leaves the outstanding transfer alone. -/
theorem settles_silent {w w' : World δ} {H : List (Cmd × World δ)} (hH : ∀ e ∈ H, Silent e.1)
    (h : outstanding w'.xfer = outstanding w.xfer) : Settles d w H w' := by
  refine ⟨?_, justified_of_not_mem d fun _ _ _ _ hs => hH _ hs, fun s hs => (hH _ hs rfl).elim⟩
  rw [mails_silent hH, h]
  rfl

/-- A start over a record that is not active. -/
theorem settles_start {w w' : World δ} {H : List (Cmd × World δ)} (hw : Settled w)
    (hidle : w.xfer.active = false) (hH : ∀ e ∈ H, Internal e.1)
    (h : outstanding w'.xfer = none) : Settles d w ((.assign .fresh, w) :: H) w' := by
  have hfresh : Settles d w [(.assign .fresh, w)] w := by
    refine ⟨rfl, justified_of_not_mem d fun _ _ _ _ hs => by simp at hs, fun s hs => ?_⟩
    simp only [List.mem_singleton, Prod.mk.injEq, true_and] at hs
    rw [hs, hidle]
  refine (sequential_settles d).trans hfresh (settles_silent d (fun e he => (hH e he).silent) ?_)
  rw [h, outstanding_of_cb (hw hidle)]

/-! ## Each entry point settles the mailbox -/

theorem settles_perform (c : AsyncCall) :
    Prog.Triple (world d) (Settles d) Settled (perform c) fun _ => Settled := by
  intro w hw
  obtain ⟨H, hH, hhist⟩ := history_call d w c
  have hlook : Settles d w [(.xfer, w)] w := settles_silent d (by simp [Silent]) rfl
  rw [run_perform, history_perform, run_call, hhist]
  by_cases h : c.refused w.xfer
  · simp only [if_pos h]
    refine ⟨hw, (sequential_settles d).trans hlook ⟨rfl, ?_, ?_⟩⟩
    · exact justified_of_not_mem d fun _ _ _ _ hs => by simp at hs
    · intro s hs
      simp at hs
  · simp only [if_neg h]
    have hidle : w.xfer.active = false := by
      simp only [AsyncCall.refused, Bool.or_eq_true, not_or] at h
      simpa using h.2
    have hnone : outstanding w.xfer = none := outstanding_of_cb (hw hidle)
    have hstart : Settles d w ((.xfer, w) :: (.assign .fresh, w) :: H) w :=
      (sequential_settles d).trans hlook (settles_start d hw hidle hH hnone)
    refine ⟨fun hactive => by simp [launched] at hactive,
      (sequential_settles d).trans hstart ⟨?_, ?_, ?_⟩⟩
    · rw [hnone]
      by_cases hcb : c.cb = nullptr
      · simp [mails, mail, hcb, settle, launched, outstanding]
      · simp [mails, mail, hcb, settle, launched, outstanding, AsyncCall.ticket_record]
    · exact justified_of_not_mem d fun _ _ _ _ hs => by simp at hs
    · intro s hs
      simp at hs

theorem settles_move (P : World δ → Prop)
    (hP : ∀ w w', (∃ ti ri, w'.xfer = { w.xfer with ti := ti, ri := ri }) → P w → P w')
    (c : Cmd) (hc : Moves c) (w : World δ) (hw : P w) :
    P (world d c w).2 ∧ Settles d w [(c, w)] (world d c w).2 := by
  obtain ⟨ti, ri, hx⟩ := moves_xfer d w hc
  refine ⟨hP _ _ ⟨ti, ri, hx⟩ hw, settles_silent d ?_ (by rw [hx]; rfl)⟩
  simpa using hc.silent

/-- A finishing pass takes the outstanding letter, if there is one. -/
theorem settles_finish (w : World δ) (r : I2cResult) (hw : Settled w)
    (ha : action (w.word d) w.xfer = .finish r) :
    Settled ((finalize r).run (world d) w.next).2 ∧
      Settles d w ((.status, w) :: (peek d w ++ (finalize r).history (world d) w.next))
        ((finalize r).run (world d) w.next).2 := by
  refine finish_keeps (sequential_settles d) w r (fun hcb => ?_) fun hcb => ?_
  · refine ⟨fun _ => hcb, fun H hH _ => settles_silent d ?_ ?_⟩
    · intro e he
      rcases List.mem_cons.mp he with rfl | he
      · trivial
      · exact (hH e he).internal.silent
    · rw [outstanding_of_cb hcb]
      exact outstanding_of_cb hcb
  · refine ⟨settles_perform d, fun _ => rfl, fun H hH _ => ?_⟩
    have hactive : w.xfer.active = true := by
      by_contra h
      exact hcb (hw (by simpa using h))
    refine ⟨?_, ?_, ?_⟩
    · have hsilent : mails ((Cmd.status, w) :: H) = [] := by
        refine mails_silent fun e he => ?_
        rcases List.mem_cons.mp he with rfl | he
        · trivial
        · exact (hH e he).internal.silent
      have htaken : mails ((.status, w) :: (H ++
          [(.enter w.xfer.cb r w.xfer.user, entering d w.next r)])) = [.take w.xfer.ticket] := by
        rw [← List.cons_append, mails_append, hsilent]
        rfl
      rw [htaken, outstanding, if_pos ⟨hactive, hcb⟩]
      simp [settle, outstanding, entered, entering]
    · intro H₁ cb r' user s H₂ heq
      have henter : (Cmd.enter cb r' user, s) =
          (Cmd.enter w.xfer.cb r w.xfer.user, entering d w.next r) := by
        have hs : (Cmd.enter cb r' user, s) ∈ (Cmd.status, w) :: (H ++
            [(Cmd.enter w.xfer.cb r w.xfer.user, entering d w.next r)]) := by
          rw [heq]
          simp
        rcases List.mem_cons.mp hs with hs | hs
        · cases hs
        · rcases List.mem_append.mp hs with hs | hs
          · exact (hH _ hs).elim
          · exact List.mem_singleton.mp hs
      cases henter
      refine ⟨w, ?_, ha, rfl, rfl, rfl⟩
      cases H₁ with
      | nil => cases heq
      | cons e H₁ => exact (List.cons.inj heq).1 ▸ List.mem_cons_self
    · intro s hs
      rcases List.mem_cons.mp hs with hs | hs
      · cases hs
      · rcases List.mem_append.mp hs with hs | hs
        · exact (hH _ hs rfl).elim
        · simp at hs

theorem settles_handleIrq :
    Prog.Triple (world d) (Settles d) Settled handleIrq fun _ => Settled := by
  have hmove := settles_move d Settled fun w w' ⟨ti, ri, hx⟩ hw => by
    rw [Settled, hx]
    exact hw
  refine triple_handleIrq (sequential_settles d)
    (fun w hw => (hmove .xfer trivial w hw).2) fun fuel => ?_
  exact triple_irqLoop (sequential_settles d) hmove (settles_finish d) fuel

/-! ## Synchronous calls on an idle transport -/

/-- Between calls on an idle transport. -/
def Idle (w : World δ) : Prop := w.xfer.active = false ∧ w.xfer.cb = nullptr

/-- While a synchronous call waits: nobody is owed a callback, and a finished record
is not active. -/
def Waiting (w : World δ) : Prop :=
  w.xfer.cb = nullptr ∧ (w.xfer.done → w.xfer.active = false)

theorem Waiting.settled {w : World δ} (hw : Waiting w) : Settled w := fun _ => hw.1

theorem settles_waiting : Prog.Triple (world d) (Settles d) Waiting handleIrq fun _ => Waiting := by
  have hmove := settles_move d Waiting fun w w' ⟨ti, ri, hx⟩ hw => by
    rw [Waiting, hx]
    exact hw
  refine triple_handleIrq (sequential_settles d)
    (fun w hw => (hmove .xfer trivial w hw).2) fun fuel => ?_
  refine triple_irqLoop (sequential_settles d) hmove (fun w r hw ha => ?_) fuel
  refine ⟨?_, (settles_finish d w r hw.settled ha).2⟩
  have hcb : w.next.xfer.cb = nullptr := hw.1
  rw [run_finalize, if_pos hcb]
  exact ⟨hcb, fun _ => rfl⟩

theorem settles_wait (maxWaits : ℕ) :
    Prog.Triple (world d) (Settles d) Waiting (waitComplete anyIrqs maxWaits) fun _ => Idle := by
  have hlook : ∀ w : World δ, Waiting w → Settles d w [(.xfer, w)] w :=
    fun w _ => settles_silent d (by simp [Silent]) rfl
  refine triple_waitComplete (sequential_settles d)
    (triple_look hlook fun w hw hdone => ⟨hw.2 hdone, hw.1⟩)
    (triple_anyIrqs (sequential_settles d) (fun w hw => ⟨hw, ?_⟩) (settles_waiting d)) ?_ maxWaits
  · exact settles_silent d (by simp [Prog.history, Silent]) rfl
  · intro w hw
    have hrun : ((abortTransfer).run (world d) w).2.xfer = { w.xfer with active := false } := by
      simp [abortTransfer_eq, Assign.apply]
    refine ⟨⟨by rw [hrun], by rw [hrun]; exact hw.1⟩,
      settles_silent d
        (fun e he => (closing_abortTransfer.mem_history _ _ e he).internal.silent) ?_⟩
    rw [hrun, outstanding_of_cb hw.1]
    exact outstanding_of_cb hw.1

theorem settles_syncStart (addr : Byte) (tx : Ptr) (tn : ℕ) (rx : Ptr) (rn : ℕ)
    (reading : Bool) :
    Prog.Triple (world d) (Settles d) Idle
      (start addr tx tn rx rn reading nullptr nullptr) fun _ => Waiting := by
  intro w hw
  obtain ⟨H, hH, hhist⟩ := history_start d w addr tx tn rx rn reading nullptr nullptr
  rw [hhist, run_start]
  exact ⟨⟨rfl, fun h => by simp [published] at h⟩,
    settles_start d (fun _ => hw.2) hw.1 hH (outstanding_of_cb rfl)⟩

/-! ## Runs -/

/-- A synchronous call that gets past its argument check. -/
def Op.startsSync : Op → Bool
  | write addr buf len => !badArgs addr buf len
  | read addr buf len => !badArgs addr buf len
  | writeRead addr wbuf wlen _ _ => !badArgs addr wbuf wlen
  | _ => false

theorem Op.exec_refused (cfg : Config) {op : Op} (hop : op.startsSync = false)
    (hirq : op ≠ .handleIrq) (hbus : op ≠ .busInit) (hasync : ∀ c, op ≠ .async c) :
    op.exec cfg = pure () := by
  cases op with
  | busInit => exact absurd rfl hbus
  | handleIrq => exact absurd rfl hirq
  | async c => exact absurd rfl (hasync c)
  | write addr buf len =>
    have h : badArgs addr buf len = true := by simpa [startsSync] using hop
    simp [exec, Irq.write, h]
  | read addr buf len =>
    have h : badArgs addr buf len = true := by simpa [startsSync] using hop
    simp [exec, Irq.read, h]
  | writeRead addr wbuf wlen rbuf rlen =>
    have h : badArgs addr wbuf wlen = true := by simpa [startsSync] using hop
    simp [exec, Irq.writeRead, Irq.write, h]

theorem settles_sync (cfg : Config) {op : Op} (hop : op.startsSync = true) :
    Prog.Triple (world d) (Settles d) Idle (op.exec cfg) fun _ => Idle := by
  have hR := sequential_settles d
  cases op with
  | write addr buf len =>
    exact (triple_write hR (settles_syncStart d) (settles_wait d _) addr buf len).drop hR ()
  | read addr buf len =>
    exact (triple_read hR (settles_syncStart d) (settles_wait d _) addr buf len).drop hR ()
  | writeRead addr wbuf wlen rbuf rlen =>
    exact (triple_writeRead hR (settles_syncStart d) (settles_wait d _) addr wbuf wlen
      rbuf rlen).drop hR ()
  | _ => simp [Op.startsSync] at hop

theorem settles_exec (cfg : Config) (op : Op) (w : World δ) (hw : Settled w)
    (hop : w.xfer.active → op.startsSync = false) :
    Settled ((op.exec cfg).run (world d) w).2 ∧
      Settles d w ((op.exec cfg).history (world d) w) ((op.exec cfg).run (world d) w).2 := by
  have hR := sequential_settles d
  by_cases hsync : op.startsSync = true
  · have hidle : w.xfer.active = false := by
      by_contra h
      rw [hop (by simpa using h)] at hsync
      cases hsync
    obtain ⟨hafter, hsettles⟩ := settles_sync d cfg hsync w ⟨hidle, hw hidle⟩
    exact ⟨fun _ => hafter.2, hsettles⟩
  · have hrefused := @Op.exec_refused cfg op (by simpa using hsync)
    cases op with
    | busInit =>
      refine Prog.Triple.of_only hR (peripheral_busInit cfg.divider) (fun c hc w hw => ?_) w hw
      have hx := peripheral_xfer d w hc
      refine ⟨by rwa [Settled, hx], settles_silent d ?_ (by rw [hx])⟩
      simp only [List.mem_singleton, forall_eq]
      cases c <;> trivial
    | async c =>
      exact (settles_perform d c).drop hR () w hw
    | handleIrq => exact settles_handleIrq d w hw
    | _ =>
      rw [hrefused nofun nofun nofun]
      exact ⟨hw, hR.idle w⟩

/-- No synchronous call gets past its argument check while a transfer is active. -/
def SyncWhenIdle (cfg : Config) (w : World δ) (ops : List Op) : Prop :=
  ∀ pre op post, ops = pre ++ op :: post →
    (after d w cfg pre).xfer.active → op.startsSync = false

theorem settles_runOps (cfg : Config) (ops : List Op) (w : World δ) (hw : Settled w)
    (hops : SyncWhenIdle d cfg w ops) :
    Settled (after d w cfg ops) ∧
      Settles d w ((runOps cfg ops).history (world d) w) (after d w cfg ops) := by
  induction ops generalizing w with
  | nil => exact ⟨hw, (sequential_settles d).idle w⟩
  | cons op ops ih =>
    obtain ⟨hw', hop⟩ := settles_exec d cfg op w hw (hops [] op ops rfl)
    have hrest : SyncWhenIdle d cfg ((op.exec cfg).run (world d) w).2 ops := by
      rintro pre op' post rfl hactive
      exact hops (op :: pre) op' post rfl (by rwa [after_cons])
    obtain ⟨hafter, hsettles⟩ := ih _ hw' hrest
    rw [after_cons, runOps, Prog.history_bind]
    exact ⟨hafter, (sequential_settles d).trans hop hsettles⟩

/-- Exactly-once completion in the run of `ops` from `w`. -/
structure ExactlyOnce (cfg : Config) (w : World δ) (ops : List Op) : Prop where
  /-- After every call, the accepted transfers are those whose callback has been
  entered, in order, and the one still in the record. -/
  conserved : ∀ pre post, ops = pre ++ post →
    accepted ((runOps cfg pre).history (world d) w) =
      fired ((runOps cfg pre).history (world d) w) ++
        (outstanding (after d w cfg pre).xfer).toList
  /-- A callback is entered for the one accepted transfer not yet completed, with the
  result its last status word gave. -/
  entered : ∀ H cb r user s K,
    (runOps cfg ops).history (world d) w = H ++ (.enter cb r user, s) :: K →
      accepted H = fired H ++ [{ s.xfer.ticket with cb := cb, user := user }] ∧
      ∃ t : World δ, (.status, t) ∈ H ∧ action (t.word d) t.xfer = .finish r ∧
        s = entering d t.next r ∧ t.xfer.cb = cb ∧ t.xfer.user = user
  /-- The record is only started over while no transfer is active, by calls from
  callbacks too. -/
  startsIdle : StartsIdle ((runOps cfg ops).history (world d) w)
  /-- Only an interrupt touches the record of an active transfer. -/
  undisturbed : ∀ pre op post, ops = pre ++ op :: post →
    (after d w cfg pre).xfer.active → op ≠ .handleIrq →
      (after d w cfg (pre ++ [op])).xfer = (after d w cfg pre).xfer

/-- A call that is no interrupt and starts nothing over an active record leaves it. -/
theorem exec_undisturbed (cfg : Config) (op : Op) (w : World δ) (hactive : w.xfer.active)
    (hop : op.startsSync = false) (hirq : op ≠ .handleIrq) :
    ((op.exec cfg).run (world d) w).2.xfer = w.xfer := by
  have hrefused := @Op.exec_refused cfg op hop hirq
  cases op with
  | busInit =>
    have hkeep : ∀ c, Peripheral c → ∀ s : World δ, s.xfer = w.xfer →
        (world d c s).2.xfer = w.xfer := fun c hc s hs => by rw [peripheral_xfer d s hc, hs]
    exact (peripheral_busInit cfg.divider).preserves hkeep w rfl
  | handleIrq => exact absurd rfl hirq
  | async c =>
    have h : c.refused w.xfer = true := by simp [AsyncCall.refused, hactive]
    rw [Op.exec, Prog.run_bind, run_perform, run_call, if_pos h]
    rfl
  | _ =>
    rw [hrefused nofun nofun]
    rfl

/-- A synchronous call that gets past its check starts over the record as it is. -/
theorem fresh_mem_sync (cfg : Config) (op : Op) (w : World δ) (hop : op.startsSync = true) :
    (.assign .fresh, w) ∈ (op.exec cfg).history (world d) w := by
  have hstart : ∀ addr tx tn rx rn reading, (Cmd.assign .fresh, w) ∈
      (start addr tx tn rx rn reading nullptr nullptr).history (world d) w := by
    intro addr tx tn rx rn reading
    obtain ⟨H, -, hhist⟩ := history_start d w addr tx tn rx rn reading nullptr nullptr
    rw [hhist]
    exact List.mem_cons_self
  cases op with
  | write addr buf len =>
    have h : badArgs addr buf len = false := by simpa [Op.startsSync] using hop
    rw [Op.exec, write, h, Prog.history_bind]
    simp [hstart]
  | read addr buf len =>
    have h : badArgs addr buf len = false := by simpa [Op.startsSync] using hop
    rw [Op.exec, read, h, Prog.history_bind]
    simp [hstart]
  | writeRead addr wbuf wlen rbuf rlen =>
    have h : badArgs addr wbuf wlen = false := by simpa [Op.startsSync] using hop
    rw [Op.exec, writeRead, write, h, Prog.history_bind]
    simp [hstart]
  | _ => simp [Op.startsSync] at hop

theorem runOps_append (cfg : Config) (ops ops' : List Op) :
    runOps cfg (ops ++ ops') = runOps cfg ops >>= fun _ => runOps cfg ops' := by
  induction ops with
  | nil => rfl
  | cons op ops ih => simp [runOps, ih]

/-- From a fresh record, completion is exactly once in a run precisely when no
synchronous call gets past its argument check during a transfer. -/
theorem exactlyOnce_iff (cfg : Config) (w : World δ) (hw : w.xfer = {}) (ops : List Op) :
    ExactlyOnce d cfg w ops ↔ SyncWhenIdle d cfg w ops := by
  have hsettled : Settled w := fun _ => by rw [hw]
  have hnone : outstanding w.xfer = none := by rw [hw]; rfl
  constructor
  · rintro h pre op post rfl hactive
    by_contra hop
    have hfresh := fresh_mem_sync d cfg op (after d w cfg pre) (by simpa using hop)
    have hmem : (.assign .fresh, after d w cfg pre) ∈
        (runOps cfg (pre ++ op :: post)).history (world d) w := by
      rw [runOps_append, Prog.history_bind, runOps, Prog.history_bind]
      exact List.mem_append_right _ (List.mem_append_left _ hfresh)
    rw [h.startsIdle _ hmem] at hactive
    cases hactive
  · intro hops
    have hrun := (settles_runOps d cfg ops w hsettled hops).2
    refine ⟨?_, ?_, hrun.startsIdle, ?_⟩
    · rintro pre post rfl
      have hpre : SyncWhenIdle d cfg w pre := by
        rintro pre' op post' rfl hactive
        exact hops pre' op (post' ++ post) (by simp) hactive
      have hconserves := settle_conserves (settles_runOps d cfg pre w hsettled hpre).2.settled
      rw [hnone] at hconserves
      exact hconserves
    · intro H cb r user s K heq
      obtain ⟨t, ht, hrest⟩ := hrun.justified H cb r user s K heq
      refine ⟨?_, t, ht, hrest⟩
      have hmails := hrun.settled
      rw [heq, mails_append, hnone] at hmails
      exact settle_take hmails
    · rintro pre op post rfl hactive hirq
      have hop := hops pre op post rfl hactive
      rw [after_append, after_cons, after_nil]
      exact exec_undisturbed d cfg op _ hactive hop hirq

/-- An asynchronous write completed by one interrupt that reports DONE. -/
theorem exactlyOnce_async_done :
    ExactlyOnce Device.plain ⟨2500, 2⟩ (World.powerOn (fun _ => 0) S_DONE)
      [.async (.writeAsync 0x10 4 1 7 9), .handleIrq] := by
  refine (exactlyOnce_iff Device.plain ⟨2500, 2⟩ _ rfl _).mpr ?_
  intro pre op post heq _
  have hmem : op ∈ pre ++ op :: post := by simp
  rw [← heq] at hmem
  rcases List.mem_pair.mp hmem with rfl | rfl <;> rfl

/-- A synchronous write throws an accepted asynchronous one away: its callback is
neither entered nor owed. -/
theorem sync_write_discards_async :
    ¬ ExactlyOnce Device.plain ⟨2500, 2⟩ (World.powerOn (fun _ => 0) 0)
      [.async (.writeAsync 0x10 4 1 7 9), .write 0x10 4 1] := by
  intro h
  have hlost := h.conserved _ [] (List.append_nil _).symm
  revert hlost
  decide

end Irq
end Bcm2837
