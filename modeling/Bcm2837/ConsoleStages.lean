import Bcm2837.Console

/-!
# The stages of a console program

Every program of the model is on its way to the lock, inside it, or done with the console;
a program on its way prints one message of its core.
-/
namespace Bcm2837.Console

/-! ## What a program has still to print -/

/-- The characters still to come, when the core's counter stands at `t`. -/
def pending (t : BitVec 64) : List Action → List Char
  | [] => []
  | .put c :: rest => c :: pending t rest
  | .tick :: rest => decimal (t + 1) ++ pending (t + 1) rest
  | _ :: rest => pending t rest

@[simp] theorem pending_nil (t : BitVec 64) : pending t [] = [] := rfl

@[simp] theorem pending_put (t : BitVec 64) (c : Char) (rest : List Action) :
    pending t (.put c :: rest) = c :: pending t rest := rfl

@[simp] theorem pending_tick (t : BitVec 64) (rest : List Action) :
    pending t (.tick :: rest) = decimal (t + 1) ++ pending (t + 1) rest := rfl

/-- Actions that print nothing and leave the lock alone. -/
def Silent : Action → Prop
  | .exchange | .put _ | .tick | .store => False
  | .enableLocking | .release _ | .park | .work | .unmask | .readLocking => True

theorem Silent.pending_cons {a : Action} (ha : Silent a) (t : BitVec 64) (rest : List Action) :
    pending t (a :: rest) = pending t rest := by
  cases a <;> first | rfl | exact ha.elim

@[simp] theorem pending_readLocking (t : BitVec 64) (rest : List Action) :
    pending t (.readLocking :: rest) = pending t rest := rfl

@[simp] theorem pending_store (t : BitVec 64) (rest : List Action) :
    pending t (.store :: rest) = pending t rest := rfl

@[simp] theorem pending_work (t : BitVec 64) (rest : List Action) :
    pending t (.work :: rest) = pending t rest := rfl

@[simp] theorem pending_map_put (t : BitVec 64) (cs : List Char) (rest : List Action) :
    pending t (cs.map .put ++ rest) = cs ++ pending t rest := by
  induction cs with
  | nil => rfl
  | cons c cs ih => exact congrArg (c :: ·) ih

/-! ## The stages of a program -/

/-- Actions that are not about the lock and print nothing. -/
def Quiet : Action → Prop
  | .enableLocking | .release _ | .park | .work | .unmask => True
  | .readLocking | .exchange | .put _ | .tick | .store => False

/-- Nothing left to do with the console. -/
def After (p : List Action) : Prop := ∀ a ∈ p, Quiet a

/-- Inside the lock. -/
inductive Inside : List Action → Prop
  | store {p : List Action} (h : After p) : Inside (.store :: p)
  | read {p : List Action} (h : After p) : Inside (.readLocking :: .store :: p)
  | put (c : Char) {p : List Action} (h : Inside p) : Inside (.put c :: p)
  | tick {p : List Action} (h : Inside p) : Inside (.tick :: p)

/-- The program prints one message of its core. -/
def Prints (core : Core) (p : List Action) : Prop :=
  (∀ t, pending t p = (Message.online core).text) ∧ p.count .tick = 0 ∨
    (∀ t, pending t p = (Message.tick core (t + 1)).text) ∧ p.count .tick = 1

/-- On the way to the lock. -/
inductive Before (core : Core) : List Action → Prop
  | exchange {p : List Action} (h : Inside p) (hprints : Prints core p) :
      Before core (.exchange :: p)
  | read {p : List Action} (h : Inside p) (hprints : Prints core p) :
      Before core (.readLocking :: .exchange :: p)
  | quiet {a : Action} {p : List Action} (ha : Quiet a) (h : Before core p) : Before core (a :: p)

inductive Stage (core : Core) (p : List Action) : Prop
  | before (h : Before core p)
  | inside (h : Inside p)
  | after (h : After p)

section Stages

variable {core : Core} {p : List Action}

theorem After.not_holding (h : After p) : ¬ Holding p := fun hp => h .store hp.1

theorem Inside.holding (h : Inside p) : Holding p := by
  induction h with
  | store h => exact ⟨by simp, by simp [show Action.exchange ∉ _ from fun hx => h _ hx]⟩
  | read h => exact ⟨by simp, by simp [show Action.exchange ∉ _ from fun hx => h _ hx]⟩
  | put c h ih => exact ⟨by simp [ih.1], by simp [ih.2]⟩
  | tick h ih => exact ⟨by simp [ih.1], by simp [ih.2]⟩

theorem Before.exchange_mem (h : Before core p) : .exchange ∈ p := by
  induction h with
  | exchange => simp
  | read => simp
  | quiet ha h ih => exact List.mem_cons_of_mem _ ih

theorem inside_map_put (cs : List Char) (h : Inside p) : Inside (cs.map .put ++ p) := by
  induction cs with
  | nil => exact h
  | cons c cs ih => exact .put c ih

theorem pending_after (t : BitVec 64) (h : After p) : pending t p = [] := by
  induction p with
  | nil => rfl
  | cons a p ih =>
    have ha := h a List.mem_cons_self
    have hp := ih fun b hb => h b (List.mem_cons_of_mem _ hb)
    cases a <;> first | exact hp | exact ha.elim

theorem count_map_put (cs : List Char) : (cs.map Action.put).count .tick = 0 := by
  rw [List.count_eq_zero]
  simp

end Stages

/-! ## The programs at their start -/

theorem decimal_core (core : Core) : decimal core.val = Nat.toDigits 10 core := by
  rw [decimal_eq, BitVec.natCast_eq_ofNat, BitVec.toNat_ofNat]
  congr 1
  omega

theorem crlf_core : crlf "[core ".toList = "[core ".toList := by decide

/-- The handler takes the lock first. -/
theorem timerIsr_eq (core : Core) :
    ∃ p, timerIsr core = .readLocking :: .exchange :: p ∧ Inside p ∧ Prints core p := by
  let texts := crlf "[core ".toList ++ decimal core.val ++ crlf "] timer tick #".toList
  let ending : List Action := [.tick, .put '\n', .readLocking, .store, .work]
  have hshape : timerIsr core = .readLocking :: .exchange :: (texts.map Action.put ++ ending) := by
    simp [texts, ending, timerIsr, uartLock, uartPuts, uartDec, uartUnlock]
  have hending : Inside ending := .tick (.put _ (.read (by simp [After, Quiet])))
  refine ⟨_, hshape, inside_map_put _ hending, .inr ⟨fun t => ?_, ?_⟩⟩
  · have htick : crlf "] timer tick #".toList = "] timer tick #".toList := by decide
    have htexts : texts = "[core ".toList ++ Nat.toDigits 10 core ++ "] timer tick #".toList := by
      simp only [texts, crlf_core, htick, decimal_core]
    have hpending : pending t ending = decimal (t + 1) ++ ['\n'] := rfl
    rw [pending_map_put, hpending, decimal_eq, ← List.append_assoc, htexts]
    unfold Message.text
    rfl
  · rw [List.count_append, count_map_put]
    rfl

theorem before_timerIsr (core : Core) : Before core (timerIsr core) := by
  obtain ⟨p, hp, hinside, hprints⟩ := timerIsr_eq core
  rw [hp]
  exact .read hinside hprints

/-- The message of a core that has come up, and the release of the lock. -/
theorem before_online (core : Core) : Before core (uartLock ++ uartPuts "[core " ++
    uartDec core.val ++ uartPuts "] online\n" ++ uartUnlock) := by
  let texts := crlf "[core ".toList ++ decimal core.val ++ crlf "] online\n".toList
  let ending : List Action := [.readLocking, .store]
  have hshape : uartLock ++ uartPuts "[core " ++ uartDec core.val ++ uartPuts "] online\n" ++
      uartUnlock = .readLocking :: .exchange :: (texts.map Action.put ++ ending) := by
    simp [texts, ending, uartLock, uartPuts, uartDec, uartUnlock]
  have hending : Inside ending := .read (by simp [After])
  rw [hshape]
  refine .read (inside_map_put _ hending) (.inl ⟨fun t => ?_, ?_⟩)
  · have honline : crlf "] online\n".toList = "] online\r\n".toList := by decide
    have htexts : texts = "[core ".toList ++ Nat.toDigits 10 core ++ "] online\r\n".toList := by
      simp only [texts, crlf_core, honline, decimal_core]
    have hpending : pending t ending = [] := rfl
    rw [pending_map_put, hpending, List.append_nil, htexts]
    unfold Message.text
    rfl
  · rw [List.count_append, count_map_put]
    rfl

theorem before_quiet {core : Core} {as p : List Action} (has : ∀ a ∈ as, Quiet a)
    (h : Before core p) : Before core (as ++ p) := by
  induction as with
  | nil => exact h
  | cons a as ih =>
    exact .quiet (has a List.mem_cons_self) (ih fun b hb => has b (List.mem_cons_of_mem _ hb))

theorem before_ksecondary (core : Core) : Before core (.park :: ksecondary core) := by
  have hshape : Action.park :: ksecondary core =
      ([.park, .work, .work] ++ coreTimerStart) ++ (uartLock ++ uartPuts "[core " ++
        uartDec core.val ++ uartPuts "] online\n" ++ uartUnlock) := by
    simp [ksecondary]
  rw [hshape]
  refine before_quiet ?_ (before_online core)
  simp [coreTimerStart, Quiet]

/-- Enabling the lock comes first. -/
theorem kmain_eq : ∃ p, kmain = .enableLocking :: p ∧ Before 0 p := by
  have hputs : uartPuts "[core 0] online\n" =
      uartPuts "[core " ++ uartDec (0 : Core).val ++ uartPuts "] online\n" := by
    decide
  refine ⟨smpReleaseSecondaries ++ coreTimerStart ++ (uartLock ++ uartPuts "[core " ++
    uartDec (0 : Core).val ++ uartPuts "] online\n" ++ uartUnlock), ?_, ?_⟩
  · rw [kmain, hputs]
    simp
  · refine before_quiet ?_ (before_online 0)
    simp [coreTimerStart, smpReleaseSecondaries, Quiet]

end Bcm2837.Console
