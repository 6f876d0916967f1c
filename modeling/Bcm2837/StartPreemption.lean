import Bcm2837.Traffic

/-!
# Interrupts in the middle of a start

`start` publishes the record before it clears the FIFO, statement by statement, and the
shared interrupt line can come between any two of them. A ledger of pushed bytes
against the index `ti` tells where a byte can get lost: pushed once the length is
published, and wiped by the FIFO clear that follows.
-/
namespace Bcm2837
namespace Irq

open Bsc

variable {δ : Type} (d : Device δ)

/-- `start` of a write with interrupts before each of its statements and after it. -/
def preemptedStart (addr : Byte) (tx : Ptr) (tn : ℕ) (cb : Completion) (user : Ptr) :
    TransportM Unit := do
  let _ ← Prog.weave anyIrqs (start addr tx tn nullptr 0 false cb user)
  anyIrqs

/-- The store that clears the FIFO. -/
def clears : Cmd → Bool
  | .bsc (.store .C v) => v.getLsbD 4
  | _ => false

/-- `m_xfer.tn = tn` -/
def publishesLength : Cmd → Bool
  | .assign (.tn _) => true
  | _ => false

/-- A status word with room in the FIFO is read. -/
def seesRoom : Cmd × World δ → Bool
  | (.status, w) => Word.has (w.word d) S_TXD
  | _ => false

/-- What happens from the publication of the length to the FIFO clear. -/
def window (H : List (Cmd × World δ)) : List (Cmd × World δ) :=
  (H.dropWhile fun e => !publishesLength e.1).takeWhile fun e => !clears e.1

/-- What happens after the FIFO clear. -/
def afterClear (H : List (Cmd × World δ)) : List (Cmd × World δ) :=
  (H.dropWhile fun e => !clears e.1).tail

/-- The bytes pushed after the FIFO clear are the first `ti` bytes of the buffer. -/
def NoneMissing (p : TransportM Unit) (tx : Ptr) (w : World δ) : Prop :=
  pushes (afterClear (p.history (world d) w)) =
    (List.range (p.run (world d) w).2.xfer.ti).map (txWord (p.run (world d) w).2.mem tx)

/-- No status word ahead reports an error or the end of a transfer. -/
def Calm (w : World δ) : Prop :=
  ∀ n s, Word.has (d.view (w.words.get n) s) S_ERR = false ∧
    Word.has (d.view (w.words.get n) s) S_CLKT = false ∧
    Word.has (d.view (w.words.get n) s) S_DONE = false

variable {d}

theorem Calm.command {w : World δ} (hw : Calm d w) (c : Cmd) : Calm d (world d c w).2 := by
  cases c with
  | status => exact fun n s => hw (n + 1) s
  | _ => exact hw

theorem Calm.action_ne_finish {w : World δ} (hw : Calm d w) (r : I2cResult) :
    action (w.word d) w.xfer ≠ .finish r := by
  obtain ⟨herr, hclk, hdone⟩ := hw 0 w.dev
  have hhead : d.view (w.words.get 0) w.dev = w.word d := rfl
  rw [hhead] at herr hclk hdone
  unfold action
  simp only [herr, hclk, hdone, Bool.false_eq_true, if_false]
  split_ifs <;> exact nofun

/-- On calm words the handler only moves bytes. -/
theorem within_anyIrqs : Prog.Triple (world d) (Prog.Within fun c => Moves c ∨ c = .interrupts)
    (Calm d) anyIrqs fun _ => Calm d := by
  have hR := Prog.sequential_within (σ := World δ) fun c => Moves c ∨ c = .interrupts
  have hone : ∀ c, Moves c ∨ c = .interrupts → ∀ w, Calm d w →
      Calm d (world d c w).2 ∧ Prog.Within (fun c => Moves c ∨ c = .interrupts) w [(c, w)]
        (world d c w).2 := by
    intro c hc w hw
    exact ⟨hw.command c, fun e he => by rw [List.mem_singleton.mp he]; exact hc⟩
  refine triple_anyIrqs hR (fun w hw => hone .interrupts (.inr rfl) w hw) ?_
  refine triple_handleIrq hR (fun w hw => (hone .xfer (.inl trivial) w hw).2) fun fuel => ?_
  exact triple_irqLoop hR (fun c hc => hone c (.inl hc))
    (fun w r hw ha => absurd ha (hw.action_ne_finish r)) fuel

/-! ## The ledger -/

/-- A write of `tn` bytes at `tx` of memory `m` is published. -/
structure Writing (d : Device δ) (m : Ptr → Byte) (tx : Ptr) (tn : ℕ) (w : World δ) : Prop where
  calm : Calm d w
  reading : w.xfer.reading = false
  tx_eq : w.xfer.tx = tx
  tn_eq : w.xfer.tn = tn
  mem_eq : w.mem = m

/-- The pushed bytes are those that `ti` advanced past, and it advances once a status
word with room is seen. -/
structure Ledger (d : Device δ) (m : Ptr → Byte) (tx : Ptr) (tn : ℕ) (w : World δ)
    (H : List (Cmd × World δ)) (w' : World δ) : Prop where
  le : w.xfer.ti ≤ w'.xfer.ti
  pushes_eq : pushes H =
    (List.range' w.xfer.ti (w'.xfer.ti - w.xfer.ti)).map (txWord m tx)
  stop : tn ≤ w.xfer.ti → w'.xfer.ti = w.xfer.ti
  moved : w.xfer.ti < tn → ((∃ e ∈ H, seesRoom d e) ↔ w.xfer.ti < w'.xfer.ti)

theorem sequential_ledger (m : Ptr → Byte) (tx : Ptr) (tn : ℕ) :
    Prog.Sequential (Ledger d m tx tn) where
  idle w := by
    refine ⟨Nat.le_refl _, ?_, fun _ => rfl, fun _ => ?_⟩
    · simp [pushes]
    · simp
  trans := by
    intro s t r H K h₁ h₂
    have hle := h₁.le
    have hle' := h₂.le
    refine ⟨hle.trans hle', ?_, fun hstop => ?_, fun hlt => ?_⟩
    · have hsplit : r.xfer.ti - s.xfer.ti =
          (t.xfer.ti - s.xfer.ti) + (r.xfer.ti - t.xfer.ti) := by omega
      have hstart : s.xfer.ti + 1 * (t.xfer.ti - s.xfer.ti) = t.xfer.ti := by omega
      rw [pushes_append, h₁.pushes_eq, h₂.pushes_eq, hsplit, ← List.map_append, ← List.range'_append, hstart]
    · rw [h₂.stop (by rw [h₁.stop hstop]; exact hstop), h₁.stop hstop]
    · constructor
      · rintro ⟨e, he, hroom⟩
        rcases List.mem_append.mp he with he | he
        · have := (h₁.moved hlt).mp ⟨e, he, hroom⟩
          omega
        · by_cases ht : t.xfer.ti < tn
          · have := (h₂.moved ht).mp ⟨e, he, hroom⟩
            omega
          · omega
      · intro hmoved
        by_cases hfirst : s.xfer.ti < t.xfer.ti
        · obtain ⟨e, he, hroom⟩ := (h₁.moved hlt).mpr hfirst
          exact ⟨e, List.mem_append_left K he, hroom⟩
        · obtain ⟨e, he, hroom⟩ := (h₂.moved (by omega)).mpr (by omega)
          exact ⟨e, List.mem_append_right H he, hroom⟩

/-- Commands that leave the record's source, length, index and direction, the memory
and the FIFO alone. -/
def Prepares : Cmd → Prop
  | .bsc a => I2c.Configures a
  | .assign (.tx _) | .assign (.tn _) | .assign (.ti _) | .assign .fresh => False
  | .assign (.reading b) => b = false
  | .assign _ | .xfer | .interrupts => True
  | _ => False

theorem prepares_keeps {m : Ptr → Byte} {tx : Ptr} {tn : ℕ} (c : Cmd) (hc : Prepares c)
    (w : World δ) (hw : Writing d m tx tn w) :
    Writing d m tx tn (world d c w).2 ∧ Ledger d m tx tn w [(c, w)] (world d c w).2 := by
  have hkept : Writing d m tx tn (world d c w).2 ∧ (world d c w).2.xfer.ti = w.xfer.ti := by
    have hcalm := hw.calm.command c
    cases c with
    | assign a =>
      cases a with
      | reading b => exact ⟨⟨hcalm, hc, hw.tx_eq, hw.tn_eq, hw.mem_eq⟩, rfl⟩
      | _ => first
        | exact hc.elim
        | exact ⟨⟨hcalm, hw.reading, hw.tx_eq, hw.tn_eq, hw.mem_eq⟩, rfl⟩
    | _ => first
      | exact hc.elim
      | exact ⟨⟨hcalm, hw.reading, hw.tx_eq, hw.tn_eq, hw.mem_eq⟩, rfl⟩
  have hpushes : pushes [(c, w)] = [] := by
    cases c with
    | bsc a =>
      cases a with
      | load r => rfl
      | store r v => cases r <;> first | rfl | exact absurd rfl hc
    | _ => rfl
  have hroom : seesRoom d (c, w) = false := by
    cases c with
    | status => exact hc.elim
    | _ => rfl
  refine ⟨hkept.1, ⟨hkept.2.ge, ?_, fun _ => hkept.2, fun _ => ?_⟩⟩
  · rw [hpushes, hkept.2]
    simp
  · rw [hkept.2]
    simp [hroom]

/-- The handler's loop keeps the ledger. -/
theorem ledger_irqLoop (m : Ptr → Byte) (tx : Ptr) (tn : ℕ) (fuel : ℕ) :
    Prog.Triple (world d) (Ledger d m tx tn) (Writing d m tx tn) (irqLoop fuel)
      fun _ => Writing d m tx tn := by
  induction fuel with
  | zero => exact Prog.Triple.pure (sequential_ledger m tx tn) fun _ hw => hw
  | succ fuel ih =>
    intro w hw
    have hnext : Writing d m tx tn w.next :=
      ⟨hw.calm.command .status, hw.reading, hw.tx_eq, hw.tn_eq, hw.mem_eq⟩
    obtain ⟨herr, hclk, -⟩ := hw.calm 0 w.dev
    have hhead : d.view (w.words.get 0) w.dev = w.word d := rfl
    rw [hhead] at herr hclk
    have hpeek : peek d w = [(.xfer, w.next)] := by simp [peek, herr, hclk]
    rw [run_irqLoop_succ, history_irqLoop_succ, hpeek]
    by_cases hpush : Word.has (w.word d) S_TXD ∧ w.xfer.ti < tn
    · have ha : action (w.word d) w.xfer = .push := by
        simp [action, herr, hclk, hw.reading, hpush.1, hw.tn_eq, hpush.2]
      rw [ha]
      dsimp only
      have hmid : Writing d m tx tn ((pushByte w.xfer).run (world d) w.next).2 :=
        ⟨hnext.calm, hw.reading, hw.tx_eq, hw.tn_eq, hw.mem_eq⟩
      have h₂ := ih _ hmid
      refine ⟨h₂.1, ?_⟩
      have h₁ : Ledger d m tx tn w
          ((.status, w) :: (.xfer, w.next) :: (pushByte w.xfer).history (world d) w.next)
          ((pushByte w.xfer).run (world d) w.next).2 := by
        have hti : ((pushByte w.xfer).run (world d) w.next).2.xfer.ti = w.xfer.ti + 1 := rfl
        refine ⟨by omega, ?_, fun hstop => absurd hpush.2 (by omega), fun _ => ?_⟩
        · rw [hti, Nat.add_sub_cancel_left, ← hw.mem_eq, ← hw.tx_eq]
          rfl
        · exact iff_of_true ⟨_, List.mem_cons_self, hpush.1⟩ (by omega)
      exact (sequential_ledger m tx tn).trans h₁ h₂.2
    · have hdone := (hw.calm 0 w.dev).2.2
      rw [hhead] at hdone
      have hnone : (Word.has (w.word d) S_TXD && decide (w.xfer.ti < w.xfer.tn)) = false := by
        rw [hw.tn_eq]
        simpa using hpush
      have ha : action (w.word d) w.xfer = .idle := by
        simp [action, herr, hclk, hdone, hw.reading, hnone]
      rw [ha]
      dsimp only
      refine ⟨hnext, Nat.le_refl _, ?_, fun _ => rfl, fun hlt => ?_⟩
      · simp [pushes, pushed]
      · have hroom : Word.has (w.word d) S_TXD = false := by
          simpa [hlt] using hpush
        simp [seesRoom, hroom]

theorem ledger_anyIrqs (m : Ptr → Byte) (tx : Ptr) (tn : ℕ) :
    Prog.Triple (world d) (Ledger d m tx tn) (Writing d m tx tn) anyIrqs
      fun _ => Writing d m tx tn := by
  have hR := sequential_ledger (d := d) m tx tn
  refine triple_anyIrqs hR (prepares_keeps .interrupts trivial) ?_
  exact triple_handleIrq hR (fun w hw => (prepares_keeps .xfer trivial w hw).2)
    (ledger_irqLoop m tx tn)

/-! ## The start in three parts -/

/-- The record is started over and given its source. -/
def stage (tx : Ptr) : TransportM Unit := do
  assign .fresh
  assign (.tx tx)

/-- The rest of the record, up to the load before the FIFO clear. -/
def fill (cb : Completion) (user : Ptr) : TransportM Word := do
  assign (.rx nullptr)
  assign (.rn 0)
  assign (.reading false)
  assign (.cb cb)
  assign (.user user)
  assign (.active true)
  i2c (Mmio.modify .C (· &&& ~~~(I2c.mask 2 <<< 4)))
  i2c (Mmio.load .C)

/-- What follows the FIFO clear. -/
def proceed (addr : Byte) (tn : ℕ) : TransportM I2cResult := do
  i2c (I2c.clrStatus .DONE)
  i2c (I2c.clrStatus .ERR)
  i2c (I2c.clrStatus .CLKT_TO)
  i2c (I2c.slaveAddress (addr.setWidth 32))
  i2c (I2c.setDataLength (BitVec.ofNat 32 tn))
  i2c (I2c.arm false)
  i2c (I2c.kick false)
  return .ok

/-- The word that clears the FIFO. -/
def clearWord (v : Word) : Word := v ||| ((0b01 &&& I2c.mask 2) <<< 4)

theorem clears_clearWord (v : Word) : clears (.bsc (.store .C (clearWord v))) = true := by
  have hbit : ((0b01 &&& I2c.mask 2) <<< 4 : Word).getLsbD 4 = true := by decide
  rw [clears, clearWord, BitVec.getLsbD_or, hbit, Bool.or_true]

theorem start_parts (addr : Byte) (tx : Ptr) (tn : ℕ) (cb : Completion) (user : Ptr) :
    start addr tx tn nullptr 0 false cb user = (do
      stage tx
      assign (.tn tn)
      let v ← fill cb user
      i2c (Mmio.store .C (clearWord v))
      proceed addr tn) := rfl

theorem weave_assign (isr : TransportM Unit) (a : Assign) :
    Prog.weave isr (assign a) = isr >>= fun _ => assign a := rfl

theorem weave_store (isr : TransportM Unit) (r : Register) (v : Word) :
    Prog.weave isr (i2c (Mmio.store r v)) = isr >>= fun _ => i2c (Mmio.store r v) := rfl

/-- Up to the publication of the length. -/
def opening (tx : Ptr) : TransportM Unit := do
  Prog.weave anyIrqs (stage tx)
  anyIrqs

/-- From the length on, up to the FIFO clear. -/
def exposed (cb : Completion) (user : Ptr) : TransportM Word := do
  let v ← Prog.weave anyIrqs (fill cb user)
  anyIrqs
  return v

/-- From the FIFO clear on. -/
def launching (addr : Byte) (tn : ℕ) : TransportM Unit := do
  let _ ← Prog.weave anyIrqs (proceed addr tn)
  anyIrqs

/-- The length is published and the FIFO cleared between three other programs. -/
def clearing (p₁ p₃ : TransportM Unit) (p₂ : TransportM Word) (tn : ℕ) : TransportM Unit := do
  p₁
  assign (.tn tn)
  let v ← p₂
  i2c (Mmio.store .C (clearWord v))
  p₃

theorem preemptedStart_eq (addr : Byte) (tx : Ptr) (tn : ℕ) (cb : Completion) (user : Ptr) :
    preemptedStart addr tx tn cb user =
      clearing (opening tx) (launching addr tn) (exposed cb user) tn := by
  rw [preemptedStart, start_parts]
  simp only [clearing, opening, exposed, launching, Prog.weave_bind, bind_assoc, pure_bind,
    weave_assign, weave_store]

/-! ## The ledger of a whole start -/

/-- A fresh record with its source but no length yet. -/
def Staged (d : Device δ) (tx : Ptr) (w : World δ) : Prop :=
  Writing d w.mem tx 0 w ∧ w.xfer.ti = 0

/-- Commands that are neither the publication of the length nor the FIFO clear. -/
def Early (c : Cmd) : Prop := publishesLength c = false ∧ clears c = false

theorem early_of_moves {c : Cmd} (hc : Moves c ∨ c = .interrupts) : Early c := by
  rcases hc with hc | rfl
  · cases c with
    | bsc a =>
      cases a with
      | load r => exact ⟨rfl, rfl⟩
      | store r v => cases r <;> first | exact ⟨rfl, rfl⟩ | exact hc.elim
    | assign a => cases a <;> first | exact ⟨rfl, rfl⟩ | exact hc.elim
    | _ => exact ⟨rfl, rfl⟩
  · exact ⟨rfl, rfl⟩

theorem early_anyIrqs : Prog.Triple (world d) (Prog.Within Early) (Calm d) anyIrqs
    fun _ => Calm d :=
  within_anyIrqs.forget fun _ _ _ h e he => early_of_moves (h e he)

/-- Before the length is published, interrupts find nothing to move. -/
theorem staged_anyIrqs (tx : Ptr) :
    Prog.Triple (world d) (Prog.Within Early) (Staged d tx) anyIrqs fun _ => Staged d tx := by
  intro w hw
  have hledger := ledger_anyIrqs w.mem tx 0 w hw.1
  have hti := hledger.2.stop (Nat.zero_le _)
  refine ⟨⟨?_, hti.trans hw.2⟩, (early_anyIrqs w hw.1.calm).2⟩
  rw [hledger.1.mem_eq]
  exact hledger.1

theorem staged_opening (tx : Ptr) :
    Prog.Triple (world d) (Prog.Within Early) (Calm d)
      (opening tx) fun _ => Staged d tx := by
  have hR := Prog.sequential_within (σ := World δ) Early
  have hfresh : Prog.Triple (world d) (Prog.Within Early) (Calm d) (assign .fresh)
      fun _ => Staged d nullptr := by
    intro w hw
    exact ⟨⟨⟨hw, rfl, rfl, rfl, rfl⟩, rfl⟩, by simp [Prog.Within, Early, publishesLength, clears]⟩
  have hsource : Prog.Triple (world d) (Prog.Within Early) (Staged d nullptr) (assign (.tx tx))
      fun _ => Staged d tx := by
    intro w hw
    exact ⟨⟨⟨hw.1.calm, hw.1.reading, rfl, hw.1.tn_eq, rfl⟩, hw.2⟩,
      by simp [Prog.Within, Early, publishesLength, clears]⟩
  have hparts : opening tx =
      anyIrqs >>= fun _ => assign .fresh >>= fun _ => anyIrqs >>= fun _ =>
        assign (.tx tx) >>= fun _ => anyIrqs := by
    simp only [opening, stage, Prog.weave_bind, bind_assoc, weave_assign]
  rw [hparts]
  exact Prog.Triple.bind hR early_anyIrqs fun _ => Prog.Triple.bind hR hfresh fun _ =>
    Prog.Triple.bind hR (staged_anyIrqs nullptr) fun _ => Prog.Triple.bind hR hsource fun _ =>
      staged_anyIrqs tx

theorem prepares_fill (cb : Completion) (user : Ptr) :
    (fill cb user).Only fun c => Prepares c ∧ clears c = false := by
  have hmask : ∀ v : Word, (v &&& ~~~(I2c.mask 2 <<< 4)).getLsbD 4 = false := by
    intro v
    have hbit : (~~~(I2c.mask 2 <<< 4) : Word).getLsbD 4 = false := by decide
    rw [BitVec.getLsbD_and, hbit, Bool.and_false]
  have hload : Prepares (.bsc (.load .C)) := by exact nofun
  have hstore : ∀ v, Prepares (.bsc (.store .C v)) := fun v => by exact nofun
  exact ⟨⟨trivial, rfl⟩, fun _ => ⟨⟨trivial, rfl⟩, fun _ => ⟨⟨rfl, rfl⟩, fun _ => ⟨⟨trivial, rfl⟩,
    fun _ => ⟨⟨trivial, rfl⟩, fun _ => ⟨⟨trivial, rfl⟩, fun _ => ⟨⟨hload, rfl⟩, fun v =>
      ⟨⟨hstore _, hmask v⟩, fun _ => ⟨⟨hload, rfl⟩, fun _ => trivial⟩⟩⟩⟩⟩⟩⟩⟩⟩

theorem prepares_proceed (addr : Byte) (tn : ℕ) : (proceed addr tn).Only Prepares := by
  have hi2c : ∀ {p : I2c.Io Unit}, p.Only I2c.Configures → (i2c p).Only Prepares :=
    fun hp => hp.lift fun _ ha => ha
  have hsteers : ∀ {p : I2c.Io Unit}, p.Only I2c.Steers → (i2c p).Only Prepares :=
    fun hp => hi2c (hp.mono I2c.Steers.configures)
  exact (hsteers (I2c.steers_clrStatus _)).bind fun _ => (hsteers (I2c.steers_clrStatus _)).bind
    fun _ => (hsteers (I2c.steers_clrStatus _)).bind fun _ =>
      (hi2c (I2c.configures_slaveAddress _)).bind fun _ =>
        (hi2c (I2c.configures_setDataLength _)).bind fun _ =>
          (hsteers (I2c.steers_arm _)).bind fun _ => (hsteers (I2c.steers_kick _)).bind fun _ =>
            trivial

/-- From the length to the FIFO clear, the ledger is kept and the FIFO not cleared. -/
theorem ledger_exposed (m : Ptr → Byte) (tx : Ptr) (tn : ℕ) (cb : Completion) (user : Ptr) :
    Prog.Triple (world d)
      (fun w H w' => Ledger d m tx tn w H w' ∧ Prog.Within (fun c => clears c = false) w H w')
      (Writing d m tx tn) (exposed cb user) fun _ => Writing d m tx tn := by
  have hR := (sequential_ledger (d := d) m tx tn).and
    (Prog.sequential_within (σ := World δ) fun c => clears c = false)
  have hirqs : Prog.Triple (world d)
      (fun w H w' => Ledger d m tx tn w H w' ∧ Prog.Within (fun c => clears c = false) w H w')
      (Writing d m tx tn) anyIrqs fun _ => Writing d m tx tn := by
    have hcalm := within_anyIrqs (d := d)
    refine ((ledger_anyIrqs m tx tn).and (early_anyIrqs)).forget ?_ |>.weaken ?_ ?_
    · exact fun _ _ _ h => ⟨h.1, fun e he => (h.2 e he).2⟩
    · exact fun w hw => ⟨hw, hw.calm⟩
    · exact fun _ _ h => h.1
  refine Prog.Triple.bind hR (Prog.Triple.weave hR hirqs (prepares_fill cb user) ?_) fun v =>
    Prog.Triple.bind hR hirqs fun _ => Prog.Triple.pure hR fun _ hw => hw
  intro c hc w hw
  have hkeeps := prepares_keeps c hc.1 w hw
  exact ⟨hkeeps.1, hkeeps.2, fun e he => by rw [List.mem_singleton.mp he]; exact hc.2⟩

theorem ledger_launching (m : Ptr → Byte) (tx : Ptr) (tn : ℕ) (addr : Byte) :
    Prog.Triple (world d) (Ledger d m tx tn) (Writing d m tx tn)
      (launching addr tn) fun _ => Writing d m tx tn := by
  have hR := sequential_ledger (d := d) m tx tn
  exact Prog.Triple.bind hR
    (Prog.Triple.weave hR (ledger_anyIrqs m tx tn) (prepares_proceed addr tn) prepares_keeps)
    fun _ => ledger_anyIrqs m tx tn

/-- The window and what follows the FIFO clear, in a history cut at both events. -/
theorem window_split {A B C : List (Cmd × World δ)} {e f : Cmd × World δ}
    (hA : ∀ a ∈ A, Early a.1) (hlen : publishesLength e.1 = true) (he : clears e.1 = false)
    (hB : ∀ b ∈ B, clears b.1 = false) (hf : clears f.1 = true) :
    window (A ++ e :: (B ++ f :: C)) = e :: B ∧ afterClear (A ++ e :: (B ++ f :: C)) = C := by
  constructor
  · rw [window, List.dropWhile_append_of_pos fun a ha => by simp [(hA a ha).1],
      List.dropWhile_cons_of_neg (by simp [hlen]), List.takeWhile_cons_of_pos (by simp [he]),
      List.takeWhile_append_of_pos fun b hb => by simp [hB b hb],
      List.takeWhile_cons_of_neg (by simp [hf]), List.append_nil]
  · rw [afterClear, List.dropWhile_append_of_pos fun a ha => by simp [(hA a ha).2],
      List.dropWhile_cons_of_pos (by simp [he]),
      List.dropWhile_append_of_pos fun b hb => by simp [hB b hb],
      List.dropWhile_cons_of_neg (by simp [hf]), List.tail_cons]

theorem run_clearing (p₁ p₃ : TransportM Unit) (p₂ : TransportM Word) (tn : ℕ)
    {w s₁ s₂ : World δ} {v : Word} (h₁ : (p₁.run (world d) w).2 = s₁)
    (h₂ : p₂.run (world d) { s₁ with xfer := (Assign.tn tn).apply s₁.xfer } = (v, s₂)) :
    (clearing p₁ p₃ p₂ tn).run (world d) w =
        p₃.run (world d) (world d (.bsc (.store .C (clearWord v))) s₂).2 ∧
      (clearing p₁ p₃ p₂ tn).history (world d) w = p₁.history (world d) w ++
        (.assign (.tn tn), s₁) ::
          (p₂.history (world d) { s₁ with xfer := (Assign.tn tn).apply s₁.xfer } ++
            (.bsc (.store .C (clearWord v)), s₂) ::
              p₃.history (world d) (world d (.bsc (.store .C (clearWord v))) s₂).2) := by
  simp only [clearing, Prog.run_bind, Prog.history_bind, run_assign, history_assign, h₁, h₂]
  exact ⟨rfl, rfl⟩

/-- A preempted start: `n` bytes are pushed before the FIFO clear, the rest after it. -/
theorem preemptedStart_splits (w : World δ) (hw : Calm d w) (addr : Byte) (tx : Ptr) (tn : ℕ)
    (cb : Completion) (user : Ptr) (hlen : 0 < tn) :
    ∃ n ≤ ((preemptedStart addr tx tn cb user).run (world d) w).2.xfer.ti,
      pushes (afterClear ((preemptedStart addr tx tn cb user).history (world d) w)) =
        (List.range' n (((preemptedStart addr tx tn cb user).run (world d) w).2.xfer.ti - n)).map
          (txWord ((preemptedStart addr tx tn cb user).run (world d) w).2.mem tx) ∧
      ((∃ e ∈ window ((preemptedStart addr tx tn cb user).history (world d) w), seesRoom d e) ↔
        0 < n) := by
  have h₁ := staged_opening tx w hw
  rcases hs : (opening tx).run (world d) w with ⟨⟨⟩, s₁⟩
  rw [hs] at h₁
  have hpublished : Writing d s₁.mem tx tn { s₁ with xfer := (Assign.tn tn).apply s₁.xfer } :=
    ⟨h₁.1.1.calm, h₁.1.1.reading, h₁.1.1.tx_eq, rfl, rfl⟩
  have h₂ := ledger_exposed s₁.mem tx tn cb user _ hpublished
  rcases hr : (exposed cb user).run (world d)
    { s₁ with xfer := (Assign.tn tn).apply s₁.xfer } with ⟨v, s₂⟩
  rw [hr] at h₂
  have hcleared : Writing d s₁.mem tx tn (world d (.bsc (.store .C (clearWord v))) s₂).2 :=
    ⟨h₂.1.calm, h₂.1.reading, h₂.1.tx_eq, h₂.1.tn_eq, h₂.1.mem_eq⟩
  have h₃ := ledger_launching s₁.mem tx tn addr _ hcleared
  obtain ⟨hrun, hhist⟩ := run_clearing (opening tx) (launching addr tn) (exposed cb user) tn
    (congrArg Prod.snd hs) hr
  obtain ⟨hwindow, hafter⟩ := window_split h₁.2 (e := (.assign (.tn tn), s₁)) rfl rfl h₂.2.2
    (f := (.bsc (.store .C (clearWord v)), s₂)) (clears_clearWord v)
  rw [preemptedStart_eq, hrun, hhist, hwindow, hafter, h₃.1.mem_eq]
  have hti : (world d (.bsc (.store .C (clearWord v))) s₂).2.xfer.ti = s₂.xfer.ti := rfl
  refine ⟨s₂.xfer.ti, hti ▸ h₃.2.le, hti ▸ h₃.2.pushes_eq, ?_⟩
  have hzero : { s₁ with xfer := (Assign.tn tn).apply s₁.xfer }.xfer.ti = 0 := h₁.1.2
  have hmoved := h₂.2.1.moved (by rw [hzero]; exact hlen)
  have hassign : seesRoom d (.assign (.tn tn), s₁) = false := rfl
  rw [List.exists_mem_cons_iff, hassign, ← hzero, ← hmoved]
  simp only [Bool.false_eq_true, false_or]

/-- Whatever interrupts a start meets, no byte of the write gets lost precisely when none
of them sees room in the FIFO between the publication of the length and the FIFO clear. -/
theorem noneMissing_iff_noRoomSeen (w : World δ) (hw : Calm d w) (addr : Byte) (tx : Ptr)
    (tn : ℕ) (cb : Completion) (user : Ptr) (hlen : 0 < tn) :
    NoneMissing d (preemptedStart addr tx tn cb user) tx w ↔
      ∀ e ∈ window ((preemptedStart addr tx tn cb user).history (world d) w),
        seesRoom d e = false := by
  obtain ⟨n, hle, hpushes, hroom⟩ := preemptedStart_splits w hw addr tx tn cb user hlen
  have hnone : (∀ e ∈ window ((preemptedStart addr tx tn cb user).history (world d) w),
      seesRoom d e = false) ↔ n = 0 := by
    constructor
    · intro h
      by_contra hn
      obtain ⟨e, he, hs⟩ := hroom.mpr (Nat.pos_of_ne_zero hn)
      rw [h e he] at hs
      cases hs
    · intro hn e he
      by_contra hs
      have hpos := hroom.mp ⟨e, he, by simpa using hs⟩
      omega
  rw [hnone, NoneMissing, hpushes]
  constructor
  · intro h
    have hlength := congrArg List.length h
    simp only [List.length_map, List.length_range', List.length_range] at hlength
    omega
  · rintro rfl
    rw [Nat.sub_zero, List.range_eq_range']

theorem calm_plain {w : World (Register → Word)}
    (hw : ∀ n, w.words.get n = 0 ∨ w.words.get n = S_TXD) : Calm Device.plain w := by
  intro n s
  have hview : Device.plain.view (w.words.get n) s = w.words.get n := rfl
  rw [hview]
  rcases hw n with h | h <;> rw [h] <;> decide

/-- An interrupt that finds no room comes while the record is filled, one that finds
room after the FIFO clear. -/
theorem noneMissing_roomAfterClear :
    NoneMissing Device.plain (preemptedStart 0x10 4 2 7 9) 4
      { World.powerOn (fun _ => 0) S_TXD with
        words := fun n => if n = 0 then 0 else S_TXD
        interrupts := fun n => if n = 3 ∨ n = 20 then 1 else 0 } :=
  (noneMissing_iff_noRoomSeen _
    (calm_plain fun n => by by_cases hn : n = 0 <;> simp [Stream'.get, hn])
    0x10 4 2 7 9 (by decide)).mpr (by decide)

/-- An interrupt right after the length is published sends a byte that the FIFO clear
wipes. -/
theorem preemptedStart_loses_byte :
    Calm Device.plain { World.powerOn (fun _ => 0) S_TXD with
        interrupts := fun n => if n = 3 then 1 else 0 } ∧
      ¬ NoneMissing Device.plain (preemptedStart 0x10 4 1 7 9) 4
        { World.powerOn (fun _ => 0) S_TXD with
          interrupts := fun n => if n = 3 then 1 else 0 } := by
  refine ⟨calm_plain fun n => .inr rfl, ?_⟩
  unfold NoneMissing
  decide

end Irq
end Bcm2837
