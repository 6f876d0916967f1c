import Bcm2837.Bringup

/-!
# The order of the bring-up

A main program does its actions in order and each leaves its effect for good, so what stands
before an action in the text has been done when the action is taken. A secondary starts from
its release, which has the first part of `kmain` behind it.
-/
namespace Bcm2837.Bringup

open Console (Core Context)

/-! ## What comes first in a program -/

/-- No `b` comes before the first `a`. -/
def precedes (a b : Action) : List Action → Bool
  | [] => true
  | x :: p => x = a || (x ≠ b && precedes a b p)

def Action.isPut : Action → Bool
  | .console (.put _) => true
  | _ => false

section Precedes

variable {a b : Action}

theorem mem_of_precedes (hab : a ≠ b) {p q : List Action} (h : precedes a b (p ++ b :: q) = true) :
    a ∈ p := by
  induction p with
  | nil => simp [precedes, hab.symm] at h
  | cons x p ih =>
    simp only [List.cons_append, precedes, Bool.or_eq_true, Bool.and_eq_true,
      decide_eq_true_eq] at h
    rcases h with rfl | ⟨-, h⟩
    · exact List.mem_cons_self
    · exact List.mem_cons_of_mem x (ih h)

@[simp] theorem precedes_nil : precedes a b [] = true := rfl

@[simp] theorem precedes_cons (x : Action) (p : List Action) :
    precedes a b (x :: p) = (x = a || (x ≠ b && precedes a b p)) := rfl

/-- What is printed does not matter. -/
theorem precedes_chars (ha : a.isPut = false) (hb : b.isPut = false) (cs : List Char)
    (p : List Action) : precedes a b (chars cs ++ p) = precedes a b p := by
  induction cs with
  | nil => rfl
  | cons c cs ih =>
    have hca : Action.console (.put c) ≠ a := fun h => by simp [← h, Action.isPut] at ha
    have hcb : Action.console (.put c) ≠ b := fun h => by simp [← h, Action.isPut] at hb
    have hcons : chars (c :: cs) ++ p = .console (.put c) :: (chars cs ++ p) := rfl
    rw [hcons, precedes_cons, ih]
    simp [hca, hcb]

end Precedes

/-- What `kmain` does besides printing. -/
def kmainOrder : List Action :=
  [.console .work, .buildTables, .enableMmu, .setActive, .installVector, .registerHandler,
    .console .enableLocking] ++ Console.smpReleaseSecondaries.map .console ++
  [.route, .setTval, .enableTimer, .console .unmask, .console .readLocking, .console .exchange,
    .console .readLocking, .console .store]

def ksecondaryOrder : List Action :=
  [.console .park, .enableMmu, .installVector, .route, .setTval, .enableTimer, .console .unmask,
    .console .readLocking, .console .exchange, .console .readLocking, .console .store]

section Programs

variable {a b : Action} (ha : a.isPut = false) (hb : b.isPut = false)
include ha hb

theorem precedes_kmain (setup : Setup) :
    precedes a b (mainProgram setup 0) = precedes a b kmainOrder := by
  simp [mainProgram, kmainOrder, kmain, boot, kmainRest, uartPuts, uartDec, precedes_chars ha hb,
    core_timer_start, uartLock, uartUnlock, Console.uartLock, Console.uartUnlock,
    Console.smpReleaseSecondaries]

theorem precedes_ksecondary (setup : Setup) {core : Core} (hcore : core ≠ 0) :
    precedes a b (mainProgram setup core) = precedes a b ksecondaryOrder := by
  simp [mainProgram, hcore, ksecondaryOrder, ksecondary, online, uartPuts, uartDec,
    precedes_chars ha hb, core_timer_start, uartLock, uartUnlock, Console.uartLock,
    Console.uartUnlock]

end Programs

/-- What is there before another core is released and before the lock is used. -/
def setupActions : List Action :=
  [.buildTables, .enableMmu, .setActive, .installVector, .registerHandler, .console .enableLocking]

/-- What each core does before it can be interrupted and before it uses the lock. -/
def timerActions : List Action := [.route, .setTval, .enableTimer]

theorem setup_first : ∀ a ∈ setupActions, ∀ b ∈ [Action.console (.release 1),
    .console (.release 2), .console (.release 3), .console .unmask, .console .readLocking],
    a ≠ b ∧ a.isPut = false ∧ precedes a b kmainOrder = true := by
  decide

theorem secondary_first : ∀ a ∈ [Action.console .park, .enableMmu, .installVector],
    ∀ b ∈ [Action.console .unmask, .console .readLocking],
    a ≠ b ∧ a.isPut = false ∧ precedes a b ksecondaryOrder = true := by
  decide

theorem timer_first : ∀ a ∈ timerActions, ∀ b ∈ [Action.console .unmask, .console .readLocking],
    a ≠ b ∧ a.isPut = false ∧ precedes a b kmainOrder = true ∧
      precedes a b ksecondaryOrder = true := by
  decide

/-! ## The effects -/

/-- What an action leaves behind for good. -/
def Effect (core : Core) (s : Shared) : Action → Prop
  | .buildTables => s.tables = true
  | .enableMmu => s.mmu core = true
  | .setActive => s.active = true
  | .installVector => s.vbar core = true
  | .registerHandler =>
    s.ivt.handler (Interrupt.kLocalBase + CNTPNSIRQ) = some .timer_isr
  | .route => (s.armLocal (CORE_TIMER_IRQCNTL0 + core)).getLsbD CNTPNSIRQ = true
  | .enableTimer => (s.timer core).enabled = true
  | .console .enableLocking => s.console.g_locking = true
  | .console (.release d) => s.console.released d = true
  | .console .park => s.console.released core = true
  | _ => True

/-- Nothing that has been set up is taken back. -/
structure Grows (s s' : Shared) : Prop where
  tables : s.tables = true → s'.tables = true
  mmu : ∀ c, s.mmu c = true → s'.mmu c = true
  active : s.active = true → s'.active = true
  vbar : ∀ c, s.vbar c = true → s'.vbar c = true
  handler : s.ivt.handler (Interrupt.kLocalBase + CNTPNSIRQ) = some .timer_isr →
    s'.ivt.handler (Interrupt.kLocalBase + CNTPNSIRQ) = some .timer_isr
  routed : ∀ c : Core, (s.armLocal (CORE_TIMER_IRQCNTL0 + c)).getLsbD CNTPNSIRQ = true →
    (s'.armLocal (CORE_TIMER_IRQCNTL0 + c)).getLsbD CNTPNSIRQ = true
  timer : ∀ c, (s.timer c).enabled = true → (s'.timer c).enabled = true
  locking : s.console.g_locking = true → s'.console.g_locking = true
  released : ∀ c, s.console.released c = true → s'.console.released c = true

section Effects

variable {setup : Setup} {core c : Core} {s s' : Shared} {a b : Action} {rest : List Action}

theorem Grows.refl (s : Shared) : Grows s s :=
  ⟨id, fun _ h => h, id, fun _ h => h, id, fun _ h => h, fun _ h => h, id, fun _ h => h⟩

theorem Effect.mono (hs : Grows s s') (h : Effect c s b) : Effect c s' b := by
  cases b with
  | console b =>
    cases b with
    | enableLocking => exact hs.locking h
    | release d => exact hs.released d h
    | park => exact hs.released c h
    | _ => trivial
  | buildTables => exact hs.tables h
  | enableMmu => exact hs.mmu c h
  | setActive => exact hs.active h
  | installVector => exact hs.vbar c h
  | registerHandler => exact hs.handler h
  | route => exact hs.routed c h
  | setTval => trivial
  | enableTimer => exact hs.timer c h

theorem update_true {f : Core → Bool} (h : f c = true) : Function.update f core true c = true := by
  by_cases hc : c = core
  · rw [hc, Function.update_self]
  · rwa [Function.update_of_ne hc]

theorem grows_console (a : Console.Action) : Grows s (exec setup core rest s (.console a)).2 := by
  have hconsole : (s.console.g_locking = true →
        (Console.exec core [] s.console a).2.g_locking = true) ∧
      ∀ d, s.console.released d = true →
        (Console.exec core [] s.console a).2.released d = true := by
    cases a with
    | enableLocking => exact ⟨fun _ => rfl, fun _ h => h⟩
    | release k => exact ⟨id, fun _ h => update_true h⟩
    | _ => exact ⟨id, fun _ h => h⟩
  exact { Grows.refl s with locking := hconsole.1, released := hconsole.2 }

theorem routed_route : ((exec setup core rest s .route).2.armLocal
    (CORE_TIMER_IRQCNTL0 + core)).getLsbD CNTPNSIRQ = true := by
  show (Function.update s.armLocal _ _ _ : Word).getLsbD CNTPNSIRQ = true
  rw [Function.update_self]
  simp [CNTPNSIRQ]

/-- No action undoes what another has left. -/
theorem grows_exec : Grows s (exec setup core rest s a).2 := by
  cases a with
  | console a => exact grows_console a
  | buildTables => exact { Grows.refl s with tables := fun _ => rfl }
  | enableMmu => exact { Grows.refl s with mmu := fun _ h => update_true h }
  | setActive => exact { Grows.refl s with active := fun _ => rfl }
  | installVector => exact { Grows.refl s with vbar := fun _ h => update_true h }
  | registerHandler => exact { Grows.refl s with handler := fun _ => rfl }
  | route =>
    refine { Grows.refl s with routed := fun c h => ?_ }
    by_cases hc : c = core
    · rw [hc]
      exact routed_route
    · have hne : CORE_TIMER_IRQCNTL0 + c.val ≠ CORE_TIMER_IRQCNTL0 + core.val :=
        fun h => Fin.val_ne_of_ne hc (Nat.add_left_cancel h)
      show (Function.update s.armLocal _ _ _ : Word).getLsbD CNTPNSIRQ = true
      rwa [Function.update_of_ne hne]
  | setTval =>
    refine { Grows.refl s with timer := fun c h => ?_ }
    show (Function.update s.timer core _ c).enabled = true
    by_cases hc : c = core
    · rw [hc, Function.update_self, ← hc]
      exact h
    · rwa [Function.update_of_ne hc]
  | enableTimer =>
    refine { Grows.refl s with timer := fun c h => ?_ }
    show (Function.update s.timer core _ c).enabled = true
    by_cases hc : c = core
    · rw [hc, Function.update_self]
    · rwa [Function.update_of_ne hc]

/-- An action that a core gets past leaves its effect. -/
theorem effect_exec (h : a = .console .park → s.console.released core = true) :
    Effect core (exec setup core rest s a).2 a := by
  cases a with
  | console a =>
    cases a with
    | enableLocking => rfl
    | release d => exact Function.update_self _ _ _
    | park => exact h rfl
    | _ => trivial
  | buildTables => rfl
  | enableMmu => exact Function.update_self _ _ _
  | setActive => rfl
  | installVector => exact Function.update_self _ _ _
  | registerHandler => rfl
  | route => exact routed_route
  | setTval => trivial
  | enableTimer =>
    show (Function.update s.timer core _ core).enabled = true
    rw [Function.update_self]

end Effects

/-! ## The invariant -/

/-- What a handler consists of. -/
def IsrAction : Action → Prop
  | .console .readLocking | .console .exchange | .console (.put _) | .console .tick => True
  | .console .store | .setTval => True
  | _ => False

/-- `done c` is what the main program of core `c` has behind it. -/
structure Ordered (setup : Setup) (s : System) (done : Core → List Action) : Prop where
  split : ∀ c, done c ++ s.program (.main c) = mainProgram setup c
  effects : ∀ c, ∀ a ∈ done c, Effect c s.shared a
  mmu : ∀ c, s.shared.mmu c = true → .enableMmu ∈ done c
  released : ∀ c, s.shared.console.released c = true → .console (.release c) ∈ done 0
  unmasked : ∀ c, s.shared.console.unmasked c = true → .console .unmask ∈ done c
  entered : ∀ c, s.inIsr c = true → s.shared.console.unmasked c = true
  idle : ∀ c, s.inIsr c = false → s.program (.isr c) = []
  handler : ∀ c, ∀ a ∈ s.program (.isr c), IsrAction a
  found : ∀ c, s.lost c = false

section Ordered

variable {setup : Setup} {s : System} {done : Core → List Action} {core : Core} {a : Action}
  {rest : List Action}

/-- What precedes the action at hand has been done. -/
theorem Ordered.done_of_precedes (h : Ordered setup s done) {b : Action}
    (hprogram : s.program (.main core) = b :: rest) (hab : a ≠ b)
    (hpre : precedes a b (mainProgram setup core) = true) : a ∈ done core := by
  rw [← h.split core, hprogram] at hpre
  exact mem_of_precedes hab hpre

/-- What precedes an action that has been done has been done. -/
theorem Ordered.done_of_done (h : Ordered setup s done) {b : Action} (hb : b ∈ done core)
    (hab : a ≠ b) (hpre : precedes a b (mainProgram setup core) = true) : a ∈ done core := by
  obtain ⟨p, q, hpq⟩ := List.append_of_mem hb
  rw [← h.split core, hpq, List.append_assoc, List.cons_append] at hpre
  rw [hpq]
  exact List.mem_append_left _ (mem_of_precedes hab hpre)

/-- A secondary that has left the spin table finds what `kmain` does before the release. -/
theorem Ordered.done_of_park (h : Ordered setup s done) (hcore : core ≠ 0)
    (hpark : .console .park ∈ done core) (ha : a ∈ setupActions) : a ∈ done 0 := by
  have hrelease := h.released core (h.effects core _ hpark)
  have hmem : Action.console (.release core) ∈ [Action.console (.release 1),
      .console (.release 2), .console (.release 3), .console .unmask, .console .readLocking] := by
    fin_cases core
    · exact absurd rfl hcore
    all_goals decide
  obtain ⟨hne, hput, hpre⟩ := setup_first a ha _ hmem
  exact h.done_of_done hrelease hne (by rwa [precedes_kmain hput rfl])

end Ordered

/-- What an interrupt and the console lock need. -/
structure Ready (s : Shared) (core : Core) : Prop where
  tables : s.tables = true
  mmu : s.mmu core = true
  active : s.active = true
  vbar : s.vbar core = true
  handler : s.ivt.handler (Interrupt.kLocalBase + CNTPNSIRQ) = some .timer_isr
  locking : s.console.g_locking = true

section Ready

variable {setup : Setup} {s : System} {done : Core → List Action} {core : Core} {b : Action}

theorem isPut_of_gate (hb : b ∈ [Action.console .unmask, .console .readLocking]) :
    b.isPut = false := by
  simp only [List.mem_cons, List.not_mem_nil, or_false] at hb
  rcases hb with rfl | rfl <;> rfl

/-- Unmasking and using the lock come after the setup. -/
theorem Ordered.ready (h : Ordered setup s done)
    (hb : b ∈ [Action.console .unmask, .console .readLocking])
    (hdone : ∀ a, a ≠ b → precedes a b (mainProgram setup core) = true → a ∈ done core) :
    Ready s.shared core := by
  have hput := isPut_of_gate hb
  have hboth : (∀ a ∈ setupActions, a ∈ done 0) ∧ .enableMmu ∈ done core ∧
      .installVector ∈ done core := by
    by_cases hcore : core = 0
    · subst hcore
      have hall : ∀ a ∈ setupActions, a ∈ done 0 := by
        intro a ha
        obtain ⟨hne, haput, hpre⟩ := setup_first a ha b (by
          simp only [List.mem_cons, List.not_mem_nil, or_false] at hb ⊢
          tauto)
        exact hdone a hne (by rwa [precedes_kmain haput hput])
      exact ⟨hall, hall _ (by decide), hall _ (by decide)⟩
    · have hall : ∀ a ∈ [Action.console .park, .enableMmu, .installVector], a ∈ done core := by
        intro a ha
        obtain ⟨hne, haput, hpre⟩ := secondary_first a ha b hb
        exact hdone a hne (by rwa [precedes_ksecondary haput hput setup hcore])
      exact ⟨fun a ha => h.done_of_park hcore (hall _ (by decide)) ha, hall _ (by decide),
        hall _ (by decide)⟩
  obtain ⟨hsetup, hmmu, hvbar⟩ := hboth
  exact {
    tables := h.effects 0 _ (hsetup .buildTables (by decide))
    mmu := h.effects core _ hmmu
    active := h.effects 0 _ (hsetup .setActive (by decide))
    vbar := h.effects core _ hvbar
    handler := h.effects 0 _ (hsetup .registerHandler (by decide))
    locking := h.effects 0 _ (hsetup (.console .enableLocking) (by decide)) }

theorem Ordered.ready_of_unmasked (h : Ordered setup s done)
    (hcore : s.shared.console.unmasked core = true) : Ready s.shared core :=
  h.ready (b := .console .unmask) (by decide) fun _ hne hpre =>
    h.done_of_done (h.unmasked core hcore) hne hpre

theorem Ordered.ready_of_readLocking (h : Ordered setup s done) {rest : List Action}
    (hprogram : s.program (.main core) = .console .readLocking :: rest) : Ready s.shared core :=
  h.ready (b := .console .readLocking) (by decide) fun _ hne hpre =>
    h.done_of_precedes hprogram hne hpre

/-- So they do after the start of the core's own timer. -/
theorem timerActions_done (hb : b ∈ [Action.console .unmask, .console .readLocking])
    (hdone : ∀ a, a ≠ b → precedes a b (mainProgram setup core) = true → a ∈ done core) :
    ∀ a ∈ timerActions, a ∈ done core := by
  have hput := isPut_of_gate hb
  intro a ha
  obtain ⟨hne, haput, hkmain, hsecondary⟩ := timer_first a ha b hb
  apply hdone a hne
  by_cases hzero : core = 0
  · rwa [hzero, precedes_kmain haput hput]
  · rwa [precedes_ksecondary haput hput setup hzero]

/-- A core that can be interrupted has its timer running and routed. -/
theorem Ordered.timer_of_unmasked (h : Ordered setup s done)
    (hcore : s.shared.console.unmasked core = true) : ∀ a ∈ timerActions, a ∈ done core :=
  timerActions_done (b := .console .unmask) (by decide) fun _ hne hpre =>
    h.done_of_done (h.unmasked core hcore) hne hpre

theorem Ordered.timer_of_readLocking (h : Ordered setup s done) {rest : List Action}
    (hprogram : s.program (.main core) = .console .readLocking :: rest) :
    ∀ a ∈ timerActions, a ∈ done core :=
  timerActions_done (b := .console .readLocking) (by decide) fun _ hne hpre =>
    h.done_of_precedes hprogram hne hpre

/-- The tables are complete before any core turns its MMU on. -/
theorem Ordered.tables_of_mmu (h : Ordered setup s done) (hcore : s.shared.mmu core = true) :
    s.shared.tables = true := by
  have hmmu := h.mmu core hcore
  have htables : .buildTables ∈ done 0 := by
    by_cases hzero : core = 0
    · rw [hzero] at hmmu
      exact h.done_of_done hmmu (by decide) (by rw [precedes_kmain rfl rfl]; decide)
    · exact h.done_of_park hzero (h.done_of_done hmmu (by decide)
        (by rw [precedes_ksecondary rfl rfl setup hzero]; decide)) (by decide)
  exact h.effects 0 _ htables

end Ready

/-! ## The steps -/

section Steps

variable {setup : Setup} {s : System} {done : Core → List Action} {core c : Core} {a : Action}
  {rest : List Action}

/-- A core gets past its action or waits at it. -/
theorem exec_program (setup : Setup) (core : Core) (rest : List Action) {sh : Shared}
    (htick : a ≠ .console .tick)
    (hlock : a = .console .readLocking → sh.console.g_locking = true) :
    (exec setup core rest sh a).1 = rest ∧
        (a = .console .park → sh.console.released core = true) ∨
      (exec setup core rest sh a).1 = a :: rest ∧
        (a = .console .park ∨ a = .console .exchange) := by
  cases a with
  | console a =>
    cases a with
    | park =>
      cases hr : sh.console.released core with
      | true => exact .inl ⟨by simp [exec, next, hr], fun _ => rfl⟩
      | false => exact .inr ⟨by simp [exec, next, hr], .inl rfl⟩
    | readLocking => exact .inl ⟨by simp [exec, next, hlock rfl], nofun⟩
    | exchange =>
      by_cases hl : sh.console.g_lock = 0
      · exact .inl ⟨by simp [exec, next, hl], nofun⟩
      · exact .inr ⟨by simp [exec, next, hl], .inr rfl⟩
    | tick => exact absurd rfl htick
    | _ => exact .inl ⟨rfl, nofun⟩
  | _ => exact .inl ⟨rfl, nofun⟩

theorem eq_of_update {f : Core → Bool} (h : Function.update f core true c = true) :
    f c = true ∨ c = core := by
  by_cases hc : c = core
  · exact .inr hc
  · rw [Function.update_of_ne hc] at h
    exact .inl h

theorem mmu_exec {sh : Shared} (h : (exec setup core rest sh a).2.mmu c = true) :
    sh.mmu c = true ∨ a = .enableMmu ∧ c = core := by
  cases a with
  | enableMmu => exact (eq_of_update h).imp id fun hc => ⟨rfl, hc⟩
  | _ => exact .inl h

theorem released_exec {sh : Shared} (h : (exec setup core rest sh a).2.console.released c = true) :
    sh.console.released c = true ∨ a = .console (.release c) := by
  cases a with
  | console a =>
    cases a with
    | release d =>
      have hcore : sh.console.released c = true ∨ c = d := eq_of_update h
      exact hcore.imp id fun hc => by rw [hc]
    | _ => exact .inl h
  | _ => exact .inl h

theorem unmasked_exec {sh : Shared} (h : (exec setup core rest sh a).2.console.unmasked c = true) :
    sh.console.unmasked c = true ∨ a = .console .unmask ∧ c = core := by
  cases a with
  | console a =>
    cases a with
    | unmask => exact (eq_of_update h).imp id fun hc => ⟨rfl, hc⟩
    | _ => exact .inl h
  | _ => exact .inl h

theorem unmasked_grows {sh : Shared} (h : sh.console.unmasked c = true) :
    (exec setup core rest sh a).2.console.unmasked c = true := by
  cases a with
  | console a =>
    cases a with
    | unmask => exact update_true h
    | _ => exact h
  | _ => exact h

theorem tick_not_mem (core : Core) : .console .tick ∉ mainProgram setup core := by
  unfold mainProgram
  split_ifs <;> simp [kmain, boot, kmainRest, ksecondary, online, uartPuts, uartDec, chars,
    core_timer_start, uartLock, uartUnlock, Console.uartLock, Console.uartUnlock,
    Console.smpReleaseSecondaries]

theorem release_mem {d : Core} (h : .console (.release d) ∈ mainProgram setup core) : core = 0 := by
  by_contra hcore
  revert h
  simp [mainProgram, hcore, ksecondary, online, uartPuts, uartDec, chars,
    core_timer_start, uartLock, uartUnlock, Console.uartLock, Console.uartUnlock]

theorem step_run (hprogram : s.program (s.running core) = a :: rest) :
    System.step setup s (.run core) = { s with
      program := Function.update s.program (s.running core) (exec setup core rest s.shared a).1
      shared := (exec setup core rest s.shared a).2 } := by
  simp only [System.step, hprogram]

/-- The main program goes on, or waits at its action. -/
theorem Ordered.split_run (h : Ordered setup s done)
    (hprogram : s.program (.main core) = a :: rest) :
    ∃ new, (new = [a] ∨ new = [] ∧ (a = .console .park ∨ a = .console .exchange)) ∧
      done core ++ new ++ (exec setup core rest s.shared a).1 = mainProgram setup core ∧
      ∀ b ∈ new, Effect core (exec setup core rest s.shared a).2 b := by
  have hsplit := h.split core
  rw [hprogram] at hsplit
  have htick : a ≠ .console .tick := by
    rintro rfl
    exact tick_not_mem core (hsplit ▸ List.mem_append_right _ List.mem_cons_self)
  rcases exec_program _ _ rest htick fun ha =>
    (h.ready_of_readLocking (ha ▸ hprogram)).locking with ⟨hnext, hpark⟩ | ⟨hnext, hwait⟩
  · refine ⟨[a], .inl rfl, ?_, fun b hb => ?_⟩
    · rw [hnext, List.append_assoc]
      exact hsplit
    · rw [List.mem_singleton.mp hb]
      exact effect_exec hpark
  · refine ⟨[], .inr ⟨rfl, hwait⟩, ?_, fun b hb => absurd hb List.not_mem_nil⟩
    rw [hnext, List.append_nil]
    exact hsplit

/-- A core takes the next action of its main program. -/
theorem Ordered.run_main (h : Ordered setup s done) (hisr : s.inIsr core = false)
    (hprogram : s.program (.main core) = a :: rest) :
    ∃ done', Ordered setup (System.step setup s (.run core)) done' := by
  have hrunning : s.running core = .main core := by simp [System.running, hisr]
  obtain ⟨new, hnew, hsplit, heffects⟩ := h.split_run hprogram
  have hmark {b : Action} (hb : a = b) (hpark : b ≠ .console .park)
      (hexchange : b ≠ .console .exchange) : b ∈ done core ++ new := by
    rcases hnew with rfl | ⟨-, hwait⟩
    · simp [hb]
    · exact absurd hwait (by rw [hb]; tauto)
  have hkept {b : Action} {d : Core} (hb : b ∈ done d) :
      b ∈ Function.update done core (done core ++ new) d := by
    by_cases hd : d = core
    · rw [hd, Function.update_self]
      exact List.mem_append_left _ (hd ▸ hb)
    · rwa [Function.update_of_ne hd]
  refine ⟨Function.update done core (done core ++ new), ?_⟩
  rw [step_run (hrunning ▸ hprogram), hrunning]
  exact {
    split := fun d => by
      dsimp only
      by_cases hd : d = core
      · rw [hd, Function.update_self, Function.update_self]
        exact hsplit
      · rw [Function.update_of_ne hd, Function.update_of_ne (by simpa using hd)]
        exact h.split d
    effects := fun d b hb => by
      by_cases hd : d = core
      · rw [hd, Function.update_self] at hb
        rw [hd]
        rcases List.mem_append.mp hb with hb | hb
        · exact (h.effects core b hb).mono grows_exec
        · exact heffects b hb
      · rw [Function.update_of_ne hd] at hb
        exact (h.effects d b hb).mono grows_exec
    mmu := fun d hd => by
      rcases mmu_exec hd with hd | ⟨ha, rfl⟩
      · exact hkept (h.mmu d hd)
      · rw [Function.update_self]
        exact hmark ha (by decide) (by decide)
    released := fun d hd => by
      rcases released_exec hd with hd | ha
      · exact hkept (h.released d hd)
      · have hzero : core = 0 := by
          have hsplit := h.split core
          rw [hprogram, ha] at hsplit
          exact release_mem (hsplit ▸ List.mem_append_right _ List.mem_cons_self)
        rw [← hzero, Function.update_self]
        exact hmark ha (by simp) (by simp)
    unmasked := fun d hd => by
      rcases unmasked_exec hd with hd | ⟨ha, rfl⟩
      · exact hkept (h.unmasked d hd)
      · rw [Function.update_self]
        exact hmark ha (by decide) (by decide)
    entered := fun d hd => unmasked_grows (h.entered d hd)
    idle := fun d hd => by
      dsimp only
      rw [Function.update_of_ne (by simp)]
      exact h.idle d hd
    handler := fun d b hb => by
      dsimp only at hb
      rw [Function.update_of_ne (by simp)] at hb
      exact h.handler d b hb
    found := h.found }

theorem isrAction_chars (cs : List Char) : ∀ b ∈ chars cs, IsrAction b := by
  intro b hb
  obtain ⟨c, -, rfl⟩ := List.mem_map.mp hb
  trivial

theorem isrAction_next {sh : Shared} (ha : IsrAction a) (hrest : ∀ b ∈ rest, IsrAction b) :
    ∀ b ∈ (exec setup core rest sh a).1, IsrAction b := by
  cases a with
  | console a =>
    cases a with
    | readLocking =>
      show ∀ b ∈ (if sh.console.g_locking then rest else rest.tail), IsrAction b
      split_ifs
      · exact hrest
      · exact fun b hb => hrest b (List.mem_of_mem_tail hb)
    | exchange =>
      show ∀ b ∈ (if sh.console.g_lock = 0 then rest else .console .exchange :: rest), IsrAction b
      split_ifs
      · exact hrest
      · exact List.forall_mem_cons.mpr ⟨trivial, hrest⟩
    | tick =>
      exact List.forall_mem_append.mpr
        ⟨isrAction_chars (Console.decimal (sh.console.g_ticks core + 1)), hrest⟩
    | put d => exact hrest
    | store => exact hrest
    | _ => exact ha.elim
  | setTval => exact hrest
  | _ => exact ha.elim

/-- A core takes the next action of its handler. -/
theorem Ordered.run_isr (h : Ordered setup s done) (hisr : s.inIsr core = true)
    (hprogram : s.program (.isr core) = a :: rest) :
    Ordered setup (System.step setup s (.run core)) done := by
  have hrunning : s.running core = .isr core := by simp [System.running, hisr]
  have hall := h.handler core
  rw [hprogram] at hall
  have ha := hall a List.mem_cons_self
  rw [step_run (hrunning ▸ hprogram), hrunning]
  exact {
    split := fun d => by
      dsimp only
      rw [Function.update_of_ne (by simp)]
      exact h.split d
    effects := fun d b hb => (h.effects d b hb).mono grows_exec
    mmu := fun d hd => by
      rcases mmu_exec hd with hd | ⟨rfl, -⟩
      · exact h.mmu d hd
      · exact ha.elim
    released := fun d hd => by
      rcases released_exec hd with hd | rfl
      · exact h.released d hd
      · exact ha.elim
    unmasked := fun d hd => by
      rcases unmasked_exec hd with hd | ⟨rfl, -⟩
      · exact h.unmasked d hd
      · exact ha.elim
    entered := fun d hd => unmasked_grows (h.entered d hd)
    idle := fun d hd => by
      have hne : d ≠ core := fun heq => by
        rw [heq, hisr] at hd
        cases hd
      dsimp only
      rw [Function.update_of_ne (by simpa using hne)]
      exact h.idle d hd
    handler := fun d b hb => by
      dsimp only at hb
      by_cases hd : d = core
      · rw [hd, Function.update_self] at hb
        exact isrAction_next ha (fun b hb => hall b (List.mem_cons_of_mem a hb)) b hb
      · rw [Function.update_of_ne (by simpa using hd)] at hb
        exact h.handler d b hb
    found := h.found }

/-- The interrupt controller names the timer. -/
theorem irq_handler_c_ready {sh : Shared} (hready : Ready sh core) (hfires : sh.fires core = true) :
    sh.irq_handler_c core = [.timer_isr] := by
  have hsource : (sh.controller core).source core = 1 <<< CNTPNSIRQ := by
    show Function.update sh.armLocal _ _ _ = _
    rw [Function.update_self, if_pos hfires]
  have hselected : Interrupt.selected core (sh.controller core) =
      some (Interrupt.kLocalBase + CNTPNSIRQ) := by
    rw [Interrupt.selected, hsource]
    rfl
  rw [Shared.irq_handler_c, if_pos hready.active, (Interrupt.dispatch_spec _ _ _).2,
    Interrupt.chosen, hselected, Option.bind_some]
  exact congrArg Option.toList hready.handler

theorem isrAction_timer_isr (core : Core) : ∀ b ∈ timer_isr core, IsrAction b := by
  simp only [timer_isr, uartPuts, uartDec, uartLock, uartUnlock, Console.uartLock,
    Console.uartUnlock, List.map_cons, List.map_nil, List.forall_mem_append, List.forall_mem_cons,
    iff_true_intro (isrAction_chars _), and_true]
  have hnil : ∀ b ∈ ([] : List Action), IsrAction b := List.forall_mem_nil _
  exact ⟨⟨⟨⟨trivial, trivial, hnil⟩, trivial, hnil⟩, trivial, trivial, hnil⟩, trivial, hnil⟩

/-- An interrupt runs the timer handler. -/
theorem Ordered.interrupt (h : Ordered setup s done) (htakes : s.Takes core) :
    System.step setup s (.interrupt core) = { s with
      program := Function.update s.program (.isr core) (timer_isr core)
      inIsr := Function.update s.inIsr core true } := by
  have hready := h.ready_of_unmasked htakes.1
  have hcode : (s.shared.irq_handler_c core).flatMap (System.isrCode core) = timer_isr core := by
    rw [irq_handler_c_ready hready htakes.2.2, List.flatMap_singleton]
    rfl
  rw [System.step, if_pos htakes, if_pos hready.vbar, hcode]

/-- A program has ended. -/
theorem Ordered.run_nil (h : Ordered setup s done) (hprogram : s.program (s.running core) = []) :
    Ordered setup (System.step setup s (.run core)) done := by
  have hstep : System.step setup s (.run core) =
      { s with inIsr := Function.update s.inIsr core false } := by
    simp only [System.step, hprogram]
  have hidle : s.program (.isr core) = [] := by
    cases hisr : s.inIsr core with
    | false => exact h.idle core hisr
    | true => simpa [System.running, hisr] using hprogram
  rw [hstep]
  exact { h with
    entered := fun d hd => by
      by_cases hcore : d = core
      · rw [hcore] at hd
        simp at hd
      · dsimp only at hd
        rw [Function.update_of_ne hcore] at hd
        exact h.entered d hd
    idle := fun d hd => by
      by_cases hcore : d = core
      · rw [hcore]
        exact hidle
      · dsimp only at hd
        rw [Function.update_of_ne hcore] at hd
        exact h.idle d hd }

theorem Ordered.step (h : Ordered setup s done) (e : Event) :
    ∃ done', Ordered setup (System.step setup s e) done' := by
  cases e with
  | run core =>
    cases hprogram : s.program (s.running core) with
    | nil => exact ⟨done, h.run_nil hprogram⟩
    | cons a rest =>
      cases hisr : s.inIsr core with
      | false => exact h.run_main hisr (by simpa [System.running, hisr] using hprogram)
      | true => exact ⟨done, h.run_isr hisr (by simpa [System.running, hisr] using hprogram)⟩
  | interrupt core =>
    by_cases htakes : s.Takes core
    · refine ⟨done, ?_⟩
      rw [h.interrupt htakes]
      exact {
        split := fun d => by
          dsimp only
          rw [Function.update_of_ne (by simp)]
          exact h.split d
        effects := h.effects
        mmu := h.mmu
        released := h.released
        unmasked := h.unmasked
        entered := fun d hd => by
          by_cases hcore : d = core
          · rw [hcore]
            exact htakes.1
          · dsimp only at hd
            rw [Function.update_of_ne hcore] at hd
            exact h.entered d hd
        idle := fun d hd => by
          have hne : d ≠ core := fun heq => by
            rw [heq] at hd
            simp at hd
          dsimp only at hd ⊢
          rw [Function.update_of_ne hne] at hd
          rw [Function.update_of_ne (by simpa using hne)]
          exact h.idle d hd
        handler := fun d b hb => by
          dsimp only at hb
          by_cases hcore : d = core
          · rw [hcore, Function.update_self] at hb
            exact isrAction_timer_isr core b hb
          · rw [Function.update_of_ne (by simpa using hcore)] at hb
            exact h.handler d b hb
        found := h.found }
    · refine ⟨done, ?_⟩
      rw [System.step, if_neg htakes]
      exact h
  | count =>
    have hgrows : Grows s.shared { s.shared with counter := s.shared.counter + 1 } :=
      ⟨id, fun _ h => h, id, fun _ h => h, id, fun _ h => h, fun _ h => h, id, fun _ h => h⟩
    exact ⟨done, { h with effects := fun c a ha => (h.effects c a ha).mono hgrows }⟩

theorem ordered_start (hw : System.Hardware) :
    Ordered setup (System.start setup hw) fun _ => [] where
  split _ := rfl
  effects _ _ ha := absurd ha List.not_mem_nil
  mmu _ h := by simp [System.start] at h
  released _ h := by simp [System.start] at h
  unmasked _ h := by simp [System.start] at h
  entered _ h := by simp [System.start] at h
  idle _ _ := rfl
  handler _ _ ha := absurd ha List.not_mem_nil
  found _ := rfl

theorem ordered_run (setup : Setup) (hw : System.Hardware) (events : List Event) :
    ∃ done, Ordered setup (System.run setup (System.start setup hw) events) done := by
  induction events using List.reverseRecOn with
  | nil => exact ⟨_, ordered_start hw⟩
  | append_singleton events e ih =>
    obtain ⟨done, h⟩ := ih
    rw [System.run_concat]
    exact h.step e

end Steps

/-- Over every schedule: the tables are complete before a core turns its MMU on; a core that can
be interrupted or uses the console lock has everything for it set up, so no interrupt is lost,
and each one that is taken runs the timer handler. -/
theorem bringup_ordered (setup : Setup) (hw : System.Hardware) (events : List Event) :
    let s := System.run setup (System.start setup hw) events
    (∀ core, s.shared.mmu core = true → s.shared.tables = true) ∧
      (∀ core, s.shared.console.unmasked core = true → Ready s.shared core ∧
        (s.shared.timer core).enabled = true ∧
        (s.shared.armLocal (CORE_TIMER_IRQCNTL0 + core)).getLsbD CNTPNSIRQ = true) ∧
      (∀ core rest, s.program (s.running core) = .console .readLocking :: rest →
        Ready s.shared core ∧ (s.shared.timer core).enabled = true ∧
        (s.shared.armLocal (CORE_TIMER_IRQCNTL0 + core)).getLsbD CNTPNSIRQ = true) ∧
      (∀ core, s.lost core = false) ∧
      ∀ core, s.Takes core →
        (System.step setup s (.interrupt core)).program (.isr core) = timer_isr core := by
  intro s
  obtain ⟨done, h⟩ := ordered_run setup hw events
  have htimer : ∀ core, (∀ a ∈ timerActions, a ∈ done core) → (s.shared.timer core).enabled = true ∧
      (s.shared.armLocal (CORE_TIMER_IRQCNTL0 + core)).getLsbD CNTPNSIRQ = true :=
    fun core hall => ⟨h.effects core _ (hall .enableTimer (by decide)),
      h.effects core _ (hall .route (by decide))⟩
  have hunmasked : ∀ core, s.shared.console.unmasked core = true → Ready s.shared core ∧
      (s.shared.timer core).enabled = true ∧
      (s.shared.armLocal (CORE_TIMER_IRQCNTL0 + core)).getLsbD CNTPNSIRQ = true :=
    fun core hcore => ⟨h.ready_of_unmasked hcore, htimer core (h.timer_of_unmasked hcore)⟩
  refine ⟨fun core hcore => h.tables_of_mmu hcore, hunmasked, fun core rest hprogram => ?_,
    h.found, fun core htakes => ?_⟩
  · cases hisr : s.inIsr core with
    | false =>
      have hmain : s.program (.main core) = .console .readLocking :: rest := by
        simpa [System.running, hisr] using hprogram
      exact ⟨h.ready_of_readLocking hmain, htimer core (h.timer_of_readLocking hmain)⟩
    | true => exact hunmasked core (h.entered core hisr)
  · rw [h.interrupt htakes]
    exact Function.update_self _ _ _

end Bcm2837.Bringup
