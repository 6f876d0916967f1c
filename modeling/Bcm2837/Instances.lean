import Bcm2837.Interleaving
import Bcm2837.IrqRuns

/-!
# Several transports on one interrupt line

The handler of the BSC line takes no arguments. It finds its transport through a static
pointer, which every `bus_init()` sets to its own transport. Here any number of transports
run next to each other, each with its record, and interrupts come at any point of their
calls. Only the transport that was initialised last is served. A callback calls the transport
that it belongs to.
-/
namespace Bcm2837.Instances

variable {δ : Type}

/-! ## The transports and their interrupts -/

structure System (δ : Type) where
  /-- What the transports share. A transport that runs brings its own record. -/
  world : World δ
  records : ℕ → Xfer
  s_instance : Option ℕ
  /-- The callbacks that have been entered for each transport. -/
  fired : ℕ → List (Completion × I2cResult × Ptr)

def entered : Cmd → List (Completion × I2cResult × Ptr)
  | .enter cb r user => [(cb, r, user)]
  | _ => []

/-- The surroundings of transport `t`. -/
def own (d : Device δ) (t : ℕ) : Prog.Handler Cmd Cmd.Ans (System δ) := fun c s =>
  let r := world d c { s.world with xfer := s.records t }
  (r.1, { s with
    world := r.2
    records := Function.update s.records t r.2.xfer
    fired := Function.update s.fired t (s.fired t ++ entered c) })

def bscIsrTrampoline (d : Device δ) (s : System δ) : System δ :=
  match s.s_instance with
  | some t => (Irq.handleIrq.run (own d t) s).2
  | none => s

/-- The surroundings of transport `t` with interrupts before any of its commands. -/
abbrev among (d : Device δ) (t : ℕ) : Prog.Handler Cmd Cmd.Ans (System δ × Stream' ℕ) :=
  Prog.interleave (bscIsrTrampoline d) (own d t)

/-! ## Calls -/

/-- `bus_init()` up to the pointer. -/
def prepare (divider : BitVec 16) : TransportM Unit := do
  gpio (Gpio.write 2 .AlternateFunction0)
  gpio (Gpio.write 3 .AlternateFunction0)
  i2c (I2c.clockDivider (divider.setWidth 32))
  i2c I2c.enable

/-- `bus_init()` from the pointer on. -/
def install : TransportM Unit := do
  irq (Interrupt.installIRQHandler .dispatchTrampoline Irq.kBsc1Irq (some .bscIsrTrampoline))
  irq (Interrupt.enable Irq.kBsc1Irq)
  memBarrier

theorem busInit_eq (divider : BitVec 16) :
    Irq.busInit divider = (do prepare divider; install) := by
  simp only [Irq.busInit, prepare, install, bind_assoc]

inductive Request
  | write (addr : Byte) (buf : Ptr) (len : ℕ)
  | read (addr : Byte) (buf : Ptr) (len : ℕ)
  | writeRead (addr : Byte) (wbuf : Ptr) (wlen : ℕ) (rbuf : Ptr) (rlen : ℕ)
  | call (c : AsyncCall)

namespace Request

def isAsync : Request → Bool
  | call _ => true
  | _ => false

/-- `wait_for_irq()` does nothing of its own, interrupts come anyway. -/
def body (maxWaits : ℕ) : Request → TransportM I2cResult
  | write addr buf len => Irq.write (pure ()) maxWaits addr buf len
  | read addr buf len => Irq.read (pure ()) maxWaits addr buf len
  | writeRead addr wbuf wlen rbuf rlen => Irq.writeRead (pure ()) maxWaits addr wbuf wlen rbuf rlen
  | call c => Irq.call c

end Request

/-- What a program does with its transports. -/
inductive Op
  | busInit (t : ℕ) (divider : BitVec 16)
  | request (t : ℕ) (r : Request)

section Runs

variable (d : Device δ) (maxWaits : ℕ → ℕ)

def Op.exec : Op → System δ × Stream' ℕ → Option I2cResult × (System δ × Stream' ℕ)
  | busInit t divider, s =>
    let s := ((prepare divider).run (among d t) s).2
    -- the pointer is set before the handler is in the table
    let s := ({ s.1 with s_instance := some t }, s.2)
    (none, (install.run (among d t) s).2)
  | request t r, s =>
    let a := (r.body (maxWaits t)).run (among d t) s
    (some a.1, a.2)

/-- The answers of some calls in order, and what they leave. -/
def runOps : List Op → System δ × Stream' ℕ → List (Option I2cResult) × (System δ × Stream' ℕ)
  | [], s => ([], s)
  | op :: ops, s =>
    let a := op.exec d maxWaits s
    let b := runOps ops a.2
    (a.1 :: b.1, b.2)

end Runs

/-! ## A transport without interrupts -/

section Frame

variable {d : Device δ} {t u : ℕ}

/-- Nothing that belongs to transport `t` changes. -/
structure Spared (t : ℕ) (s s' : System δ) : Prop where
  record : s'.records t = s.records t
  fired : s'.fired t = s.fired t
  served : s'.s_instance = s.s_instance

theorem Spared.refl (s : System δ) : Spared t s s := ⟨rfl, rfl, rfl⟩

theorem Spared.trans {s s' s'' : System δ} (h : Spared t s s') (h' : Spared t s' s'') :
    Spared t s s'' :=
  ⟨h'.record.trans h.record, h'.fired.trans h.fired, h'.served.trans h.served⟩

theorem spared_own (h : t ≠ u) (c : Cmd) (s : System δ) : Spared t s (own d u c s).2 :=
  ⟨Function.update_of_ne h _ _, Function.update_of_ne h _ _, rfl⟩

theorem spared_run (h : t ≠ u) {α : Type} (p : TransportM α) (s : System δ) :
    Spared t s (p.run (own d u) s).2 := by
  induction p generalizing s with
  | ret a => exact .refl s
  | call c k ih => exact (spared_own h c s).trans (ih _ _)

/-- The interrupts of another transport. -/
theorem spared_trampoline {s : System δ} (hs : s.s_instance ≠ some t) :
    Spared t s (bscIsrTrampoline d s) := by
  cases hi : s.s_instance with
  | none =>
    simp only [bscIsrTrampoline, hi]
    exact .refl s
  | some u =>
    have hne : t ≠ u := fun h => hs (h ▸ hi)
    simp only [bscIsrTrampoline, hi]
    exact spared_run hne Irq.handleIrq s

/-- The interrupts are not for transport `t`; so far `fired` are its callbacks, and its record
is in `A`. -/
structure Unserved (t : ℕ) (fired : List (Completion × I2cResult × Ptr)) (A : Xfer → Prop)
    (s : System δ) : Prop where
  served : s.s_instance ≠ some t
  fired_eq : s.fired t = fired
  record : A (s.records t)

variable {fired : List (Completion × I2cResult × Ptr)} {A B : Xfer → Prop}

theorem Unserved.of_spared {s s' : System δ} (h : Unserved t fired A s) (hs : Spared t s s') :
    Unserved t fired A s' := by
  refine ⟨?_, hs.fired.trans h.fired_eq, ?_⟩
  · rw [hs.served]
    exact h.served
  · rw [hs.record]
    exact h.record

theorem Unserved.weaken {s : System δ} (h : Unserved t fired A s) (hAB : ∀ x, A x → B x) :
    Unserved t fired B s :=
  ⟨h.served, h.fired_eq, hAB _ h.record⟩

theorem stable_unserved : Prog.Stable (bscIsrTrampoline d) (Unserved t fired A) :=
  fun _ hs => hs.of_spared (spared_trampoline hs.served)

/-- Commands of the transport itself that enter no callback and take its record from `A` to
`B`. -/
def Moves (A B : Xfer → Prop) (c : Cmd) : Prop :=
  entered c = [] ∧ (∀ a, c = .assign a → ∀ x, A x → B (a.apply x)) ∧
    ((∀ a, c ≠ .assign a) → ∀ x, A x → B x)

theorem Unserved.own {c : Cmd} (hc : Moves A B c) {s : System δ} (h : Unserved t fired A s) :
    Unserved t fired B (own d t c s).2 := by
  refine ⟨h.served, ?_, ?_⟩
  · have hlog : (Instances.own d t c s).2.fired t = s.fired t ++ entered c :=
      Function.update_self ..
    rw [hlog, hc.1, List.append_nil]
    exact h.fired_eq
  · have hrecord : (Instances.own d t c s).2.records t =
        (world d c { s.world with xfer := s.records t }).2.xfer := Function.update_self ..
    rw [hrecord]
    by_cases ha : ∃ a, c = .assign a
    · obtain ⟨a, rfl⟩ := ha
      exact hc.2.1 a rfl _ h.record
    · have hother : ∀ a, c ≠ .assign a := fun a h => ha ⟨a, h⟩
      rw [(Irq.holdsRecord_world d).other c _ hother]
      exact hc.2.2 hother _ h.record

/-- A call of another transport. -/
theorem Unserved.run_other (h : t ≠ u) {α : Type} (p : TransportM α) {s : System δ × Stream' ℕ}
    (hs : Unserved t fired A s.1) : Unserved t fired A (p.run (among d u) s).2.1 := by
  induction p generalizing s with
  | ret a => exact hs
  | call c k ih => exact ih _ ((stable_unserved.iterate _ hs).of_spared (spared_own h c _))

/-- Code of the transport itself. -/
theorem Unserved.run_own {α : Type} {p : TransportM α} (hp : p.Only (Moves A A))
    {s : System δ × Stream' ℕ} (hs : Unserved t fired A s.1) :
    Unserved t fired A (p.run (among d t) s).2.1 :=
  hp.preserves (I := fun s : System δ × Stream' ℕ => Unserved t fired A s.1)
    (fun _ hc _ h => (stable_unserved.iterate _ h).own hc) s hs

end Frame

/-! ## Its calls -/

section Calls

variable {d : Device δ} {t : ℕ} {fired : List (Completion × I2cResult × Ptr)} {A : Xfer → Prop}

/-- The record of a transfer that has not ended. -/
def Open (x : Xfer) : Prop := x.done = false

theorem moves_assign {a : Assign} (ha : ∀ x, A x → A (a.apply x)) : Moves A A (.assign a) := by
  refine ⟨rfl, ?_, fun h => absurd rfl (h a)⟩
  rintro b hb
  cases hb
  exact ha

theorem only_assign {a : Assign} (ha : ∀ x, A x → A (a.apply x)) :
    (assign a).Only (Moves A A) :=
  ⟨moves_assign ha, fun _ => trivial⟩

theorem moves_bsc (a : Access Bsc.Register Word) : Moves A A (.bsc a) :=
  ⟨rfl, fun _ h => Cmd.noConfusion h, fun _ _ h => h⟩

theorem only_i2c {α : Type} (p : I2c.Io α) : (i2c p).Only (Moves A A) :=
  Prog.only_lift moves_bsc p

theorem only_publish (tx : Ptr) (tn : ℕ) (rx : Ptr) (rn : ℕ) (reading : Bool)
    (cb : Completion) (user : Ptr) :
    (Irq.publish tx tn rx rn reading cb user).Only (Moves Open Open) := by
  refine (only_assign ?_).bind fun _ => (only_assign ?_).bind fun _ =>
    (only_assign ?_).bind fun _ => (only_assign ?_).bind fun _ =>
      (only_assign ?_).bind fun _ => (only_assign ?_).bind fun _ =>
        (only_assign ?_).bind fun _ => only_assign ?_
  all_goals exact fun _ h => h

/-- A start leaves a transfer that has not ended. -/
theorem Unserved.start (addr : Byte) (tx : Ptr) (tn : ℕ) (rx : Ptr) (rn : ℕ) (reading : Bool)
    (cb : Completion) (user : Ptr) {s : System δ × Stream' ℕ} (hs : Unserved t fired A s.1) :
    Unserved t fired Open
      ((Irq.start addr tx tn rx rn reading cb user).run (among d t) s).2.1 := by
  have hfresh : Moves A Open (.assign .fresh) := by
    refine ⟨rfl, ?_, fun h => absurd rfl (h .fresh)⟩
    rintro b hb
    cases hb
    exact fun _ _ => rfl
  have hrest : (Irq.publish tx tn rx rn reading cb user >>= fun _ =>
      i2c (I2c.launch addr (if reading then rn else tn) reading) >>= fun _ =>
        pure I2cResult.ok).Only (Moves Open Open) :=
    (only_publish _ _ _ _ _ _ _).bind fun _ => (only_i2c _).bind fun _ => trivial
  rw [Irq.start_eq, Prog.run_bind]
  exact Unserved.run_own hrest ((stable_unserved.iterate _ hs).own hfresh)

/-- A wait for a transfer that nobody ends. -/
theorem waitComplete_timeout (maxWaits : ℕ) {s : System δ × Stream' ℕ}
    (hs : Unserved t fired Open s.1) :
    ((Irq.waitComplete (pure ()) maxWaits).run (among d t) s).1 = .timeout ∧
      Unserved t fired (fun _ => True)
        ((Irq.waitComplete (pure ()) maxWaits).run (among d t) s).2.1 := by
  have hseq : Prog.Sequential fun (_ : System δ × Stream' ℕ)
      (_ : List (Cmd × (System δ × Stream' ℕ))) (_ : System δ × Stream' ℕ) => True :=
    Prog.sequential_true
  refine (Irq.triple_waitComplete (h := among d t) hseq
    (P := fun s => Unserved t fired Open s.1)
    (Q := fun r s => r = .timeout ∧ Unserved t fired (fun _ => True) s.1)
    ?_ (Prog.Triple.pure hseq fun _ h => h) ?_ maxWaits s hs).1
  · intro s hs
    have hnow := (stable_unserved (d := d)).iterate s.2.head hs
    have hopen : (((bscIsrTrampoline d)^[s.2.head] s.1).records t).done = false := hnow.record
    have hmoves : Moves Open Open .xfer :=
      ⟨rfl, fun _ h => Cmd.noConfusion h, fun _ _ h => h⟩
    refine ⟨⟨hnow.own hmoves, fun hdone => ?_⟩, trivial⟩
    exact absurd (hopen.symm.trans hdone) Bool.false_ne_true
  · intro s hs
    have hany : Unserved t fired (fun _ => True) s.1 := hs.weaken fun _ _ => trivial
    have habort : Irq.abortTransfer.Only (Moves (fun _ => True) fun _ => True) := by
      rw [Irq.abortTransfer_eq]
      exact (only_i2c _).bind fun _ => only_assign fun _ _ => trivial
    exact ⟨⟨rfl, hany.run_own habort⟩, trivial⟩

/-- The answer of a call without interrupts, which leaves it without. -/
def Fails (d : Device δ) (t : ℕ) (fired : List (Completion × I2cResult × Ptr))
    (p : TransportM I2cResult) : Prop :=
  ∀ s, Unserved t fired (fun _ => True) s.1 →
    ((p.run (among d t) s).1 = .badArg ∨ (p.run (among d t) s).1 = .timeout) ∧
      Unserved t fired (fun _ => True) (p.run (among d t) s).2.1

theorem fails_transfer (maxWaits : ℕ) (bad : Bool) (addr : Byte) (tx : Ptr)
    (tn : ℕ) (rx : Ptr) (rn : ℕ) (reading : Bool) :
    Fails d t fired (if bad then return .badArg
      else do
        let _ ← Irq.start addr tx tn rx rn reading nullptr nullptr
        Irq.waitComplete (pure ()) maxWaits) := by
  intro s hs
  by_cases hbad : bad = true
  · rw [if_pos hbad]
    exact ⟨.inl rfl, hs⟩
  · obtain ⟨hanswer, hleft⟩ := waitComplete_timeout (d := d) maxWaits
      (hs.start addr tx tn rx rn reading nullptr nullptr)
    rw [if_neg hbad, Prog.run_bind]
    exact ⟨.inr hanswer, hleft⟩

theorem fails_writeRead (maxWaits : ℕ) (addr : Byte) (wbuf : Ptr) (wlen : ℕ) (rbuf : Ptr)
    (rlen : ℕ) : Fails d t fired (Irq.writeRead (pure ()) maxWaits addr wbuf wlen rbuf rlen) := by
  intro s hs
  have hwrite : Fails d t fired (Irq.write (pure ()) maxWaits addr wbuf wlen) :=
    fails_transfer maxWaits (badArgs addr wbuf wlen) addr wbuf wlen nullptr 0 false
  obtain ⟨hanswer, hleft⟩ := hwrite s hs
  have hne : ((Irq.write (pure ()) maxWaits addr wbuf wlen).run (among d t) s).1 ≠ .ok := by
    intro hok
    rw [hok] at hanswer
    rcases hanswer with h | h
    · cases h
    · cases h
  rw [Irq.writeRead, Prog.run_bind, if_pos hne]
  exact ⟨hanswer, hleft⟩

/-- A request that waits is refused or runs into its watchdog. -/
theorem Request.fails (maxWaits : ℕ) {r : Request} (hr : r.isAsync = false) :
    Fails d t fired (r.body maxWaits) := by
  cases r with
  | write addr buf len =>
    exact fails_transfer maxWaits (badArgs addr buf len) addr buf len nullptr 0 false
  | read addr buf len =>
    exact fails_transfer maxWaits (badArgs addr buf len) addr nullptr 0 buf len true
  | writeRead addr wbuf wlen rbuf rlen => exact fails_writeRead maxWaits addr wbuf wlen rbuf rlen
  | call c => cases hr

/-- An asynchronous request enters no callback. -/
theorem Unserved.call (c : AsyncCall) {s : System δ × Stream' ℕ}
    (hs : Unserved t fired A s.1) :
    Unserved t fired (fun _ => True) ((Irq.call c).run (among d t) s).2.1 := by
  have hmoves : Moves A A .xfer := ⟨rfl, fun _ h => Cmd.noConfusion h, fun _ _ h => h⟩
  have hlook : Unserved t fired A (xfer.run (among d t) s).2.1 :=
    (stable_unserved.iterate _ hs).own hmoves
  rw [Irq.call_eq, Prog.run_bind]
  split_ifs
  · exact hlook.weaken fun _ _ => trivial
  · exact (hlook.start _ _ _ _ _ _ _ _).weaken fun _ _ => trivial

/-- A transfer in flight has the next asynchronous request refused. -/
theorem call_refused (c : AsyncCall) {x : Xfer} (hx : x.active = true)
    {s : System δ × Stream' ℕ} (hs : Unserved t fired (· = x) s.1) :
    ((Irq.call c).run (among d t) s).1 = .badArg ∧
      Unserved t fired (· = x) ((Irq.call c).run (among d t) s).2.1 := by
  have hmoves : Moves (· = x) (· = x) .xfer :=
    ⟨rfl, fun _ h => Cmd.noConfusion h, fun _ _ h => h⟩
  have hnow := (stable_unserved (d := d)).iterate s.2.head hs
  have hanswer : (xfer.run (among d t) s).1 = x := hnow.record
  have hrefused : c.refused (xfer.run (among d t) s).1 = true := by
    rw [hanswer, AsyncCall.refused, hx, Bool.or_true]
  rw [Irq.call_eq, Prog.run_bind, if_pos hrefused]
  exact ⟨rfl, hnow.own hmoves⟩

end Calls

/-! ## Runs -/

section Served

variable {d : Device δ} (maxWaits : ℕ → ℕ) {t u : ℕ}
variable {fired : List (Completion × I2cResult × Ptr)} {A : Xfer → Prop}

theorem served_run_own {α : Type} (p : TransportM α) (s : System δ) :
    (p.run (own d u) s).2.s_instance = s.s_instance := by
  induction p generalizing s with
  | ret a => rfl
  | call c k ih => exact ih _ _

theorem served_trampoline (s : System δ) :
    (bscIsrTrampoline d s).s_instance = s.s_instance := by
  cases hi : s.s_instance with
  | none =>
    simp only [bscIsrTrampoline, hi]
  | some u =>
    simp only [bscIsrTrampoline, hi]
    exact (served_run_own _ s).trans hi

/-- No code of a transport and no interrupt moves the pointer. -/
theorem served_run {α : Type} (p : TransportM α) (s : System δ × Stream' ℕ) :
    (p.run (among d u) s).2.1.s_instance = s.1.s_instance := by
  induction p generalizing s with
  | ret a => rfl
  | call c k ih =>
    have hticks : Prog.Stable (bscIsrTrampoline d) fun v => v.s_instance = s.1.s_instance :=
      fun v hv => (served_trampoline v).trans hv
    exact (ih _ _).trans (hticks.iterate s.2.head rfl)

theorem served_busInit (divider : BitVec 16) (s : System δ × Stream' ℕ) :
    ((Op.busInit u divider).exec d maxWaits s).2.1.s_instance = some u :=
  served_run install _

/-- A call of another transport. -/
theorem exec_other {op : Op} (hbus : ∀ divider, op ≠ .busInit t divider)
    (hrequest : ∀ r, op ≠ .request t r) {s : System δ × Stream' ℕ}
    (hs : Unserved t fired A s.1) : Unserved t fired A (op.exec d maxWaits s).2.1 := by
  cases op with
  | busInit u divider =>
    have hne : t ≠ u := fun h => hbus divider (h ▸ rfl)
    have hready := Unserved.run_other (d := d) hne (prepare divider) hs
    have hset : Unserved t fired A
        { ((prepare divider).run (among d u) s).2.1 with s_instance := some u } :=
      ⟨fun h => hne (Option.some.inj h).symm, hready.fired_eq, hready.record⟩
    exact Unserved.run_other (d := d) (s := (_, _)) hne install hset
  | request u r =>
    have hne : t ≠ u := fun h => hrequest r (h ▸ rfl)
    exact hs.run_other hne _

/-- One call without interrupts for `t`. -/
theorem exec_unserved {op : Op} (hbus : ∀ divider, op ≠ .busInit t divider)
    {s : System δ × Stream' ℕ} (hs : Unserved t fired (fun _ => True) s.1) :
    Unserved t fired (fun _ => True) (op.exec d maxWaits s).2.1 ∧
      ∀ r : Request, op = .request t r → r.isAsync = false →
        (op.exec d maxWaits s).1 = some .badArg ∨ (op.exec d maxWaits s).1 = some .timeout := by
  by_cases hown : ∃ r, op = .request t r
  · obtain ⟨r, rfl⟩ := hown
    cases hr : r.isAsync with
    | false =>
      obtain ⟨hanswer, hleft⟩ := Request.fails (maxWaits t) hr s hs
      exact ⟨hleft, fun _ _ _ => hanswer.imp (congrArg some) (congrArg some)⟩
    | true =>
      cases r with
      | call c =>
        refine ⟨hs.call c, fun r' h hr' => ?_⟩
        cases h
        cases hr'
      | _ => cases hr
  · have hrequest : ∀ r, op ≠ .request t r := fun r h => hown ⟨r, h⟩
    exact ⟨exec_other maxWaits hbus hrequest hs, fun r h => absurd h (hrequest r)⟩

/-- One call while a transfer of `t` is in flight, none that gives it up. -/
theorem exec_stuck {op : Op} (hbus : ∀ divider, op ≠ .busInit t divider)
    (hasync : ∀ r : Request, op = .request t r → r.isAsync = true) {x : Xfer}
    (hx : x.active = true) {s : System δ × Stream' ℕ} (hs : Unserved t fired (· = x) s.1) :
    Unserved t fired (· = x) (op.exec d maxWaits s).2.1 ∧
      ∀ r : Request, op = .request t r → (op.exec d maxWaits s).1 = some .badArg := by
  by_cases hown : ∃ r, op = .request t r
  · obtain ⟨r, rfl⟩ := hown
    have hr := hasync r rfl
    cases r with
    | call c =>
      obtain ⟨hanswer, hleft⟩ := call_refused c hx hs
      exact ⟨hleft, fun _ _ => congrArg some hanswer⟩
    | _ => cases hr
  · have hrequest : ∀ r, op ≠ .request t r := fun r h => hown ⟨r, h⟩
    exact ⟨exec_other maxWaits hbus hrequest hs, fun r h => absurd h (hrequest r)⟩

/-- What every call keeps, a run of calls keeps. -/
theorem run_keeps {P : System δ × Stream' ℕ → Prop} {Q : Op → Option I2cResult → Prop}
    (ops : List Op) (hstep : ∀ op ∈ ops, ∀ s, P s →
      P (op.exec d maxWaits s).2 ∧ Q op (op.exec d maxWaits s).1)
    {s : System δ × Stream' ℕ} (hs : P s) :
    P (runOps d maxWaits ops s).2 ∧ ∀ e ∈ ops.zip (runOps d maxWaits ops s).1, Q e.1 e.2 := by
  induction ops generalizing s with
  | nil => exact ⟨hs, fun _ he => absurd he List.not_mem_nil⟩
  | cons op ops ih =>
    obtain ⟨hnext, hanswer⟩ := hstep op List.mem_cons_self s hs
    obtain ⟨hend, hanswers⟩ := ih (fun o ho => hstep o (List.mem_cons_of_mem _ ho)) hnext
    refine ⟨hend, fun e he => ?_⟩
    rcases List.mem_cons.mp he with rfl | he
    · exact hanswer
    · exact hanswers e he

/-- A run without interrupts for `t`. -/
theorem run_unserved (ops : List Op) (hbus : ∀ op ∈ ops, ∀ divider, op ≠ .busInit t divider)
    {s : System δ × Stream' ℕ} (hs : Unserved t fired (fun _ => True) s.1) :
    Unserved t fired (fun _ => True) (runOps d maxWaits ops s).2.1 ∧
      ∀ e ∈ ops.zip (runOps d maxWaits ops s).1, ∀ r : Request, e.1 = .request t r →
        r.isAsync = false → e.2 = some .badArg ∨ e.2 = some .timeout :=
  run_keeps maxWaits ops
    (P := fun v => Unserved t fired (fun _ => True) v.1)
    (Q := fun op a => ∀ r : Request, op = .request t r → r.isAsync = false →
      a = some .badArg ∨ a = some .timeout)
    (fun op hop _ h => exec_unserved maxWaits (hbus op hop) h) hs

variable (d) in
/-- A transport is left out of a run from `s`: none of its callbacks is entered, what waits for
it is refused or times out, and a transfer in flight stays so, with every request refused, as
long as none of them waits and gives it up. -/
structure LeftOut (t : ℕ) (ops : List Op) (s : System δ × Stream' ℕ) : Prop where
  fired : (runOps d maxWaits ops s).2.1.fired t = s.1.fired t
  waits : ∀ e ∈ ops.zip (runOps d maxWaits ops s).1, ∀ r : Request, e.1 = .request t r →
    r.isAsync = false → e.2 = some .badArg ∨ e.2 = some .timeout
  stuck : (s.1.records t).active = true →
    (∀ r : Request, .request t r ∈ ops → r.isAsync = true) →
    (runOps d maxWaits ops s).2.1.records t = s.1.records t ∧
      ∀ e ∈ ops.zip (runOps d maxWaits ops s).1, ∀ r : Request, e.1 = .request t r →
        e.2 = some .badArg

theorem leftOut_of_unserved (ops : List Op)
    (hbus : ∀ op ∈ ops, ∀ divider, op ≠ .busInit t divider) {s : System δ × Stream' ℕ}
    (hs : s.1.s_instance ≠ some t) : LeftOut d maxWaits t ops s := by
  obtain ⟨hend, hanswers⟩ := run_unserved (d := d) maxWaits ops hbus ⟨hs, rfl, trivial⟩
  refine ⟨hend.fired_eq, hanswers, fun hactive hasync => ?_⟩
  obtain ⟨hstuck, hrefused⟩ := run_keeps maxWaits ops
    (P := fun v => Unserved t (s.1.fired t) (· = s.1.records t) v.1)
    (Q := fun op a => ∀ r : Request, op = .request t r → a = some .badArg)
    (fun op hop _ h =>
      exec_stuck maxWaits (hbus op hop) (fun r hr => hasync r (hr ▸ hop)) hactive h)
    ⟨hs, rfl, rfl⟩
  exact ⟨hstuck.record, hrefused⟩

end Served

/-- From the initialisation of transport `u` on, whatever the transports do and whenever
interrupts come, each other transport is left out until it is initialised again. -/
theorem only_last_served (d : Device δ) (maxWaits : ℕ → ℕ) (u : ℕ) (divider : BitVec 16)
    (before : System δ × Stream' ℕ) (since ops : List Op) :
    ∀ t ≠ u, (∀ op ∈ since ++ ops, ∀ divider, op ≠ .busInit t divider) →
      LeftOut d maxWaits t ops
        (runOps d maxWaits (.busInit u divider :: since) before).2 := by
  intro t hne hbus
  have hserved : ((Op.busInit u divider).exec d maxWaits before).2.1.s_instance ≠ some t := by
    rw [served_busInit]
    exact fun h => hne (Option.some.inj h).symm
  obtain ⟨hend, -⟩ := run_unserved (d := d) maxWaits since
    (fun op hop => hbus op (List.mem_append_left _ hop)) ⟨hserved, rfl, trivial⟩
  exact leftOut_of_unserved maxWaits ops (fun op hop => hbus op (List.mem_append_right _ hop))
    hend.served

/-- Two transports next to a block that is always ready and done; the first is initialised. -/
def pair : System (Bsc.Register → Word) × Stream' ℕ where
  fst := {
    world := World.powerOn (fun _ => 0) (S_TXD ||| S_DONE)
    records := fun _ => {}
    s_instance := some 0
    fired := fun _ => [] }
  snd := fun _ => 1

def pairOps : List Op := [.request 0 (.write 0x48 100 1), .request 1 (.write 0x48 100 1)]

/-- When the second is initialised too, the write of the first times out and that of the second
goes well. -/
theorem only_last_served_pair :
    LeftOut Device.plain (fun _ => 3) 0 pairOps
        (runOps Device.plain (fun _ => 3) [.busInit 1 2500] pair).2 ∧
      (runOps Device.plain (fun _ => 3) pairOps
        (runOps Device.plain (fun _ => 3) [.busInit 1 2500] pair).2).1 =
        [some .timeout, some .ok] := by
  have hbus : ∀ op ∈ [] ++ pairOps, ∀ divider, op ≠ .busInit 0 divider := by
    intro op hop divider h
    subst h
    rcases List.mem_pair.mp hop with h | h
    · cases h
    · cases h
  exact ⟨only_last_served Device.plain (fun _ => 3) 1 2500 pair [] pairOps 0 (by decide) hbus,
    by decide +kernel⟩

end Bcm2837.Instances
