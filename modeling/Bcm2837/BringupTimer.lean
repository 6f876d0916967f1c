import Bcm2837.BringupOrder

/-!
# The rate of the ticks

Each core arms its timer once on the way up and once in each interrupt, always one interval
ahead of the counter, so the ticks of a core are at least an interval apart and a core that
waits for its timer waits no longer than that.
-/
namespace Bcm2837.Bringup

open Console (Core Context)

/-- The counts from one tick to the next. -/
def period (setup : Setup) : ℕ := (interval setup).toNat

/-- The core has still to arm its timer. -/
def Pending (s : System) (c : Core) : Prop :=
  .setTval ∈ s.program (.main c) ∨ .setTval ∈ s.program (.isr c)

/-- The ticks of a core, with the one that its handler has still to count. -/
def ticked (s : System) (c : Core) : ℕ :=
  (s.shared.console.g_ticks c).toNat + (s.program (.isr c)).count (.console .tick)

/-- The core is on time: the bring-up began when the counter stood at `t₀`. -/
structure OnTime (setup : Setup) (t₀ : ℕ) (s : System) (c : Core) : Prop where
  due : Pending s c → t₀ + ticked s c * period setup ≤ s.shared.counter
  armed : ¬Pending s c →
    (t₀ : ℤ) + (ticked s c + 1) * period setup ≤ (s.shared.timer c).cval ∧
      (s.shared.timer c).cval ≤ s.shared.counter + period setup

structure Timed (setup : Setup) (t₀ : ℕ) (s : System) : Prop where
  ends : ∀ c, s.program (.isr c) = [] ∨ ∃ p, s.program (.isr c) = p ++ [.setTval]
  onTime : ∀ c, OnTime setup t₀ s c

section Steps

variable {setup : Setup} {t₀ : ℕ} {s : System} {done : Core → List Action} {core c : Core}
  {a : Action} {rest : List Action}

theorem compareValue_interval (hshort : period setup < 2 ^ 31) (sh : Shared) :
    sh.compareValue (interval setup) = sh.counter + period setup := by
  have hword : ((interval setup).setWidth 32).toNat = period setup := by
    rw [BitVec.toNat_setWidth]
    exact Nat.mod_eq_of_lt (lt_trans hshort (by decide))
  rw [Shared.compareValue, BitVec.toInt_eq_toNat_of_lt (by omega), hword]

theorem setTval_mem_chars (cs : List Char) : .setTval ∉ chars cs := by simp [chars]

theorem tick_mem_chars (cs : List Char) : .console .tick ∉ chars cs := by simp [chars]

/-- What an action that does not arm the timer leaves of the timers. -/
theorem timer_exec (ha : a ≠ .setTval) (sh : Shared) :
    (∀ d, ((exec setup core rest sh a).2.timer d).cval = (sh.timer d).cval) ∧
      (exec setup core rest sh a).2.counter = sh.counter := by
  cases a with
  | setTval => exact absurd rfl ha
  | enableTimer =>
    refine ⟨fun d => ?_, rfl⟩
    show (Function.update sh.timer core _ d).cval = _
    by_cases hd : d = core
    · rw [hd, Function.update_self]
    · rw [Function.update_of_ne hd]
  | _ => exact ⟨fun _ => rfl, rfl⟩

/-- Only the tick counts. -/
theorem ticks_exec (ha : a ≠ .console .tick) (sh : Shared) :
    (exec setup core rest sh a).2.console.g_ticks = sh.console.g_ticks := by
  cases a with
  | console a =>
    cases a with
    | tick => exact absurd rfl ha
    | _ => rfl
  | _ => rfl

theorem ticks_exec_tick (setup : Setup) (core : Core) (rest : List Action) (sh : Shared) :
    ((exec setup core rest sh (.console .tick)).2.console.g_ticks core).toNat ≤
      (sh.console.g_ticks core).toNat + 1 ∧
      ∀ d ≠ core, (exec setup core rest sh (.console .tick)).2.console.g_ticks d =
        sh.console.g_ticks d := by
  constructor
  · show (Function.update sh.console.g_ticks core _ core).toNat ≤ _
    rw [Function.update_self, BitVec.toNat_add]
    exact Nat.mod_le _ _
  · intro d hd
    exact Function.update_of_ne hd _ _

/-- What an action leaves of the program. -/
theorem program_exec (setup : Setup) (core : Core) (rest : List Action)
    (ha : a ≠ .console .tick) {sh : Shared}
    (hlock : a = .console .readLocking → sh.console.g_locking = true) :
    (exec setup core rest sh a).1 = rest ∨
      (exec setup core rest sh a).1 = a :: rest ∧ a ≠ .setTval := by
  rcases exec_program setup core rest ha hlock with
    ⟨hnext, -⟩ | ⟨hnext, hwait⟩
  · exact .inl hnext
  · refine .inr ⟨hnext, ?_⟩
    rcases hwait with rfl | rfl <;> decide

/-- The program of a handler goes on to its end. -/
theorem ends_next {sh : Shared} (hlock : a = .console .readLocking → sh.console.g_locking = true)
    {p : List Action} (hprogram : a :: rest = p ++ [.setTval]) :
    (exec setup core rest sh a).1 = [] ∨
      ∃ q, (exec setup core rest sh a).1 = q ++ [.setTval] := by
  have hrest : rest = [] ∨ ∃ q, rest = q ++ [.setTval] := by
    cases p with
    | nil => exact .inl (List.cons.inj hprogram).2
    | cons b p => exact .inr ⟨p, (List.cons.inj hprogram).2⟩
  by_cases htick : a = .console .tick
  · subst htick
    rcases hrest with rfl | ⟨q, rfl⟩
    · have hlast := congrArg List.getLast? hprogram
      simp at hlast
    · exact .inr ⟨_, (List.append_assoc _ _ _).symm⟩
  · rcases program_exec setup core _ htick hlock with hnext | ⟨hnext, -⟩
    · rwa [hnext]
    · exact .inr ⟨p, hnext.trans hprogram⟩

/-- An action that does not arm the timer leaves that ahead or behind as it was, and counts no
tick twice. -/
theorem pending_exec (setup : Setup) (core : Core) (rest : List Action)
    (ha : a ≠ .setTval) (sh : Shared)
    (hlock : a = .console .readLocking → sh.console.g_locking = true) :
    (.setTval ∈ (exec setup core rest sh a).1 ↔ .setTval ∈ a :: rest) ∧
      ((exec setup core rest sh a).2.console.g_ticks core).toNat +
          (exec setup core rest sh a).1.count (.console .tick) ≤
        (sh.console.g_ticks core).toNat + (a :: rest).count (.console .tick) := by
  by_cases htick : a = .console .tick
  · subst htick
    have hnext : (exec setup core rest sh (.console .tick)).1 =
        uartDec (sh.console.g_ticks core + 1) ++ rest := rfl
    have hcount : (uartDec (sh.console.g_ticks core + 1)).count (.console .tick) = 0 :=
      List.count_eq_zero.mpr (tick_mem_chars _)
    have hticks := (ticks_exec_tick setup core rest sh).1
    rw [hnext, List.count_append, hcount, List.count_cons_self]
    refine ⟨?_, by omega⟩
    have hnone : .setTval ∉ uartDec (sh.console.g_ticks core + 1) := setTval_mem_chars _
    simp only [List.mem_append, hnone, false_or, List.mem_cons, reduceCtorEq]
  · rw [ticks_exec htick]
    rcases program_exec setup core rest htick hlock with
      hnext | ⟨hnext, -⟩
    · rw [hnext, List.count_cons_of_ne htick]
      exact ⟨by simp [ha.symm], le_rfl⟩
    · rw [hnext]
      exact ⟨Iff.rfl, le_rfl⟩

/-- A step that neither arms the timer of the core nor counts a tick twice. -/
theorem OnTime.congr {s' : System} (h : OnTime setup t₀ s c) (hpending : Pending s' c ↔ Pending s c)
    (hticked : ticked s' c ≤ ticked s c)
    (hcval : (s'.shared.timer c).cval = (s.shared.timer c).cval)
    (hcounter : s.shared.counter ≤ s'.shared.counter) : OnTime setup t₀ s' c where
  due hp := by
    have hdue := h.due (hpending.mp hp)
    have hmul := Nat.mul_le_mul_right (period setup) hticked
    omega
  armed hp := by
    obtain ⟨hlow, hhigh⟩ := h.armed (mt hpending.mpr hp)
    have hmul := Nat.mul_le_mul_right (period setup) hticked
    rw [hcval]
    refine ⟨?_, by omega⟩
    rw [add_one_mul] at hlow ⊢
    have hcast : (ticked s' c : ℤ) * period setup ≤ ticked s c * period setup := by
      exact_mod_cast hmul
    omega

/-- The timer of the core is armed now. -/
theorem OnTime.arm {s' : System} (h : OnTime setup t₀ s c) (hbefore : Pending s c)
    (hticked : ticked s' c = ticked s c)
    (hcval : (s'.shared.timer c).cval = s.shared.counter + period setup)
    (hcounter : s'.shared.counter = s.shared.counter) : OnTime setup t₀ s' c where
  due _ := by
    rw [hticked, hcounter]
    exact h.due hbefore
  armed _ := by
    have hdue := h.due hbefore
    rw [hticked, hcval, hcounter, add_one_mul]
    have hcast : (t₀ : ℤ) + ticked s c * period setup ≤ s.shared.counter := by exact_mod_cast hdue
    omega

/-- A step of one core leaves the others on time. -/
theorem OnTime.run_other (h : OnTime setup t₀ s c) (hc : c ≠ core)
    (hprogram : s.program (s.running core) = a :: rest) :
    OnTime setup t₀ (System.step setup s (.run core)) c := by
  have hmain : Context.main c ≠ s.running core := by
    unfold System.running
    split_ifs <;> simp [hc]
  have hisr : Context.isr c ≠ s.running core := by
    unfold System.running
    split_ifs <;> simp [hc]
  have hticks : (exec setup core rest s.shared a).2.console.g_ticks c =
      s.shared.console.g_ticks c := by
    by_cases htick : a = .console .tick
    · rw [htick]
      exact (ticks_exec_tick _ _ _ s.shared).2 c hc
    · rw [ticks_exec htick]
  have htimer : ((exec setup core rest s.shared a).2.timer c).cval = (s.shared.timer c).cval ∧
      (exec setup core rest s.shared a).2.counter = s.shared.counter := by
    by_cases ha : a = .setTval
    · rw [ha]
      refine ⟨?_, rfl⟩
      show (Function.update s.shared.timer core _ c).cval = _
      rw [Function.update_of_ne hc]
    · exact ⟨(timer_exec ha s.shared).1 c, (timer_exec ha s.shared).2⟩
  rw [step_run hprogram]
  apply h.congr
  · unfold Pending
    dsimp only
    rw [Function.update_of_ne hmain, Function.update_of_ne hisr]
  · unfold ticked
    dsimp only
    rw [Function.update_of_ne hisr, hticks]
  · exact htimer.1
  · exact htimer.2.ge

/-- The main program of a core goes on. -/
theorem OnTime.run_main (hs : Ordered setup s done) (h : OnTime setup t₀ s core)
    (hshort : period setup < 2 ^ 31) (hisr : s.inIsr core = false)
    (hprogram : s.program (.main core) = a :: rest) :
    OnTime setup t₀ (System.step setup s (.run core)) core := by
  have hrunning : s.running core = .main core := by simp [System.running, hisr]
  have htick : a ≠ .console .tick := by
    rintro rfl
    have hsplit := hs.split core
    rw [hprogram] at hsplit
    exact tick_not_mem core (hsplit ▸ List.mem_append_right _ List.mem_cons_self)
  have hne : Context.isr core ≠ .main core := by simp
  rw [step_run (hrunning ▸ hprogram), hrunning]
  by_cases ha : a = .setTval
  · subst ha
    apply h.arm
    · exact .inl (hprogram ▸ List.mem_cons_self)
    · unfold ticked
      dsimp only
      rw [Function.update_of_ne hne]
      rfl
    · show (Function.update s.shared.timer core _ core).cval = _
      rw [Function.update_self]
      exact compareValue_interval hshort s.shared
    · rfl
  · have hlock (hread : a = .console .readLocking) : s.shared.console.g_locking = true :=
      (hs.ready_of_readLocking (hread ▸ hprogram)).locking
    apply h.congr
    · unfold Pending
      dsimp only
      rw [Function.update_self, Function.update_of_ne hne, (pending_exec _ _ _ ha _ hlock).1,
        hprogram]
    · unfold ticked
      dsimp only
      rw [Function.update_of_ne hne, ticks_exec htick]
    · exact (timer_exec ha s.shared).1 core
    · exact (timer_exec ha s.shared).2.ge

/-- The handler of a core goes on. -/
theorem OnTime.run_isr (hs : Ordered setup s done) (h : OnTime setup t₀ s core)
    (hshort : period setup < 2 ^ 31) (hisr : s.inIsr core = true)
    (hprogram : s.program (.isr core) = a :: rest) :
    OnTime setup t₀ (System.step setup s (.run core)) core := by
  have hrunning : s.running core = .isr core := by simp [System.running, hisr]
  have hne : Context.main core ≠ .isr core := by simp
  rw [step_run (hrunning ▸ hprogram), hrunning]
  by_cases ha : a = .setTval
  · subst ha
    have hnext : (exec setup core rest s.shared .setTval).1 = rest := rfl
    apply h.arm
    · exact .inr (hprogram ▸ List.mem_cons_self)
    · unfold ticked
      dsimp only
      rw [Function.update_self, hprogram, hnext, List.count_cons_of_ne (by decide)]
      rfl
    · show (Function.update s.shared.timer core _ core).cval = _
      rw [Function.update_self]
      exact compareValue_interval hshort s.shared
    · rfl
  · obtain ⟨hmem, hcount⟩ := pending_exec setup core rest ha s.shared
      fun _ => (hs.ready_of_unmasked (hs.entered core hisr)).locking
    apply h.congr
    · unfold Pending
      dsimp only
      rw [Function.update_of_ne hne, Function.update_self, hmem, hprogram]
    · unfold ticked
      dsimp only
      rw [Function.update_self, hprogram]
      exact hcount
    · exact (timer_exec ha s.shared).1 core
    · exact (timer_exec ha s.shared).2.ge

theorem setTval_count (setup : Setup) (core : Core) :
    (mainProgram setup core).count .setTval = 1 := by
  have hchars (cs : List Char) : (chars cs).count Action.setTval = 0 :=
    List.count_eq_zero.mpr (setTval_mem_chars cs)
  unfold mainProgram
  split_ifs <;> simp [kmain, boot, kmainRest, ksecondary, online, uartPuts, uartDec, hchars,
    core_timer_start, uartLock, uartUnlock, Console.uartLock, Console.uartUnlock,
    Console.smpReleaseSecondaries]

/-- The core waits for its timer. -/
def Waiting (s : System) (core : Core) : Prop :=
  s.shared.console.unmasked core = true ∧ s.inIsr core = false

/-- A core that waits for its timer has armed it. -/
theorem Ordered.not_pending (h : Ordered setup s done) (hwaiting : Waiting s core) :
    ¬Pending s core := by
  have hdone := h.timer_of_unmasked hwaiting.1 .setTval (by decide)
  have hcount := setTval_count setup core
  rw [← h.split core, List.count_append] at hcount
  have hpos := List.count_pos_iff.mpr hdone
  rintro (hmain | hisr)
  · have hmore := List.count_pos_iff.mpr hmain
    omega
  · rw [h.idle core hwaiting.2] at hisr
    exact absurd hisr List.not_mem_nil

theorem count_timer_isr (core : Core) : (timer_isr core).count (.console .tick) = 1 := by
  have hchars (cs : List Char) : (chars cs).count (Action.console .tick) = 0 :=
    List.count_eq_zero.mpr (tick_mem_chars cs)
  simp [timer_isr, uartPuts, uartDec, hchars, uartLock, uartUnlock, Console.uartLock,
    Console.uartUnlock]

theorem OnTime.interrupt (hs : Ordered setup s done) (h : OnTime setup t₀ s c)
    (htakes : s.Takes core) : OnTime setup t₀ (System.step setup s (.interrupt core)) c := by
  rw [hs.interrupt htakes]
  by_cases hc : c = core
  · subst hc
    have hlow := (h.armed (hs.not_pending ⟨htakes.1, htakes.2.1⟩)).1
    have hfires : (s.shared.timer c).cval ≤ s.shared.counter := by
      have hfires := htakes.2.2
      simp only [Shared.fires, Bool.and_eq_true, decide_eq_true_eq] at hfires
      exact hfires.1.2
    have hticked : ticked s c = (s.shared.console.g_ticks c).toNat := by
      rw [ticked, hs.idle c htakes.2.1]
      rfl
    have hpending : .setTval ∈ timer_isr c := by
      unfold timer_isr
      exact List.mem_append_right _ List.mem_cons_self
    constructor
    · intro _
      unfold ticked
      dsimp only
      rw [Function.update_self, count_timer_isr]
      rw [hticked] at hlow
      have hcast : (t₀ : ℤ) + ((s.shared.console.g_ticks c).toNat + 1) * period setup ≤
          s.shared.counter := hlow.trans hfires
      exact_mod_cast hcast
    · intro hnot
      refine absurd (Or.inr ?_) hnot
      dsimp only
      rwa [Function.update_self]
  · apply h.congr
    · unfold Pending
      dsimp only
      rw [Function.update_of_ne (by simp), Function.update_of_ne (by simpa using hc)]
    · unfold ticked
      dsimp only
      rw [Function.update_of_ne (by simpa using hc)]
    · rfl
    · exact le_rfl

theorem Timed.step (hs : Ordered setup s done) (h : Timed setup t₀ s)
    (hshort : period setup < 2 ^ 31) (e : Event) : Timed setup t₀ (System.step setup s e) := by
  cases e with
  | run core =>
    cases hprogram : s.program (s.running core) with
    | nil =>
      have hstep : System.step setup s (.run core) =
          { s with inIsr := Function.update s.inIsr core false } := by
        simp only [System.step, hprogram]
      rw [hstep]
      exact ⟨h.ends, fun c => ⟨(h.onTime c).due, (h.onTime c).armed⟩⟩
    | cons a rest =>
      cases hisr : s.inIsr core with
      | false =>
        have hmain : s.program (.main core) = a :: rest := by
          simpa [System.running, hisr] using hprogram
        constructor
        · intro c
          rw [step_run hprogram, System.running, hisr]
          exact h.ends c
        · intro c
          by_cases hc : c = core
          · rw [hc]
            exact (h.onTime core).run_main hs hshort hisr hmain
          · exact (h.onTime c).run_other hc hprogram
      | true =>
        have hhandler : s.program (.isr core) = a :: rest := by
          simpa [System.running, hisr] using hprogram
        constructor
        · intro c
          rw [step_run hprogram, System.running, hisr]
          dsimp only
          by_cases hc : c = core
          · subst hc
            rcases h.ends c with hnil | ⟨p, hp⟩
            · rw [hnil] at hhandler
              cases hhandler
            · rw [if_pos rfl, Function.update_self]
              exact ends_next (fun _ => (hs.ready_of_unmasked (hs.entered c hisr)).locking)
                (hhandler.symm.trans hp)
          · rw [if_pos rfl, Function.update_of_ne (by simpa using hc)]
            exact h.ends c
        · intro c
          by_cases hc : c = core
          · rw [hc]
            exact (h.onTime core).run_isr hs hshort hisr hhandler
          · exact (h.onTime c).run_other hc hprogram
  | interrupt core =>
    by_cases htakes : s.Takes core
    · refine ⟨fun c => ?_, fun c => (h.onTime c).interrupt hs htakes⟩
      rw [hs.interrupt htakes]
      dsimp only
      by_cases hc : c = core
      · rw [hc, Function.update_self]
        exact .inr ⟨_, rfl⟩
      · rw [Function.update_of_ne (by simpa using hc)]
        exact h.ends c
    · rw [System.step, if_neg htakes]
      exact h
  | count =>
    refine ⟨h.ends, fun c => (h.onTime c).congr Iff.rfl le_rfl rfl ?_⟩
    exact Nat.le_succ _

theorem timed_start (hw : System.Hardware) :
    Timed setup hw.counter (System.start setup hw) where
  ends _ := .inl rfl
  onTime c := by
    have hpending : Pending (System.start setup hw) c :=
      .inl (List.count_pos_iff.mp (by
        rw [show (System.start setup hw).program (.main c) = mainProgram setup c from rfl,
          setTval_count]
        decide))
    constructor
    · intro _
      simp [ticked, System.start]
    · exact fun hnot => absurd hpending hnot

theorem timed_run (hshort : period setup < 2 ^ 31) (hw : System.Hardware) (events : List Event) :
    Timed setup hw.counter (System.run setup (System.start setup hw) events) := by
  induction events using List.reverseRecOn with
  | nil => exact timed_start hw
  | append_singleton events e ih =>
    obtain ⟨done, hs⟩ := ordered_run setup hw events
    rw [System.run_concat]
    exact ih.step hs hshort e

end Steps

/-! ## A core by itself -/

section Alone

variable (setup : Setup) (core : Core)

/-- What a core has still to do and leaves after `n` actions in a row. -/
def advance : ℕ → List Action → Shared → Option (List Action × Shared)
  | 0, p, s => some (p, s)
  | _ + 1, [], _ => none
  | n + 1, a :: rest, s => advance n (exec setup core rest s a).1 (exec setup core rest s a).2

variable {setup core}

/-- A core that acts alone. -/
theorem run_advance {n : ℕ} {s : System} {c : Context} {p p' : List Action} {sh : Shared}
    (hc : s.running core = c) (hp : s.program c = p)
    (h : advance setup core n p s.shared = some (p', sh)) :
    System.run setup s (List.replicate n (.run core)) =
      { s with program := Function.update s.program c p', shared := sh } := by
  induction n generalizing s p with
  | zero =>
    obtain ⟨rfl, rfl⟩ := Prod.mk.inj (Option.some.inj h)
    rw [← hp, Function.update_eq_self]
    rfl
  | succ n ih =>
    cases p with
    | nil => cases h
    | cons a rest =>
      have hstep : System.step setup s (.run core) = { s with
          program := Function.update s.program c (exec setup core rest s.shared a).1
          shared := (exec setup core rest s.shared a).2 } := by
        simp only [System.step, hc, hp]
      have hnext : (System.step setup s (.run core)).program c =
          (exec setup core rest s.shared a).1 := by
        rw [hstep]
        exact Function.update_self c _ _
      have hrest := ih (s := System.step setup s (.run core)) (by rw [hstep, ← hc]; rfl) hnext
        (by rw [hstep]; exact h)
      rw [List.replicate_succ, System.run, List.foldl_cons, ← System.run, hrest, hstep,
        Function.update_idem]

theorem System.run_append (s : System) (before after : List Event) :
    System.run setup s (before ++ after) =
      System.run setup (System.run setup s before) after := List.foldl_append

/-- An interrupt that is taken and served to the end. -/
theorem Ordered.serve {s : System} {done : Core → List Action} (h : Ordered setup s done)
    (htakes : s.Takes core) {n : ℕ} {sh : Shared}
    (hisr : advance setup core n (timer_isr core) s.shared = some ([], sh)) :
    ∃ t, System.run setup s (.interrupt core :: List.replicate n (.run core) ++ [.run core]) = t ∧
      t.shared = sh ∧ t.inIsr core = false := by
  have htaken := h.interrupt htakes
  have hrunning : (System.step setup s (.interrupt core)).running core = .isr core := by
    rw [htaken]
    simp [System.running]
  have hprogram : (System.step setup s (.interrupt core)).program (.isr core) = timer_isr core := by
    rw [htaken]
    exact Function.update_self _ _ _
  have hshared : advance setup core n (timer_isr core)
      (System.step setup s (.interrupt core)).shared = some ([], sh) := by
    rw [htaken]
    exact hisr
  have hserved := run_advance hrunning hprogram hshared
  refine ⟨_, rfl, ?_⟩
  rw [System.run_concat, System.run, List.foldl_cons, ← System.run, hserved, htaken]
  simp [System.step, System.running]

end Alone

/-- Over every schedule the ticks of a core are at least an interval apart, and a core that waits
for its timer has it set no further ahead than that and is interrupted when it is due. The
interval, a fifth of `timer_freq`, has to be less than 2^31 counts, as `timer_set_tval` takes it
for a signed number; the 32 bits of the frequency register allow no more. -/
theorem ticks_paced (setup : Setup) (hshort : period setup < 2 ^ 31) (hw : System.Hardware)
    (events : List Event) (core : Core) :
    let s := System.run setup (System.start setup hw) events
    hw.counter + (s.shared.console.g_ticks core).toNat * period setup ≤ s.shared.counter ∧
      (Waiting s core → (s.shared.timer core).cval ≤ s.shared.counter + period setup ∧
        ((s.shared.timer core).cval ≤ s.shared.counter → s.Takes core)) := by
  intro s
  obtain ⟨done, hs⟩ := ordered_run setup hw events
  have ht : OnTime setup hw.counter s core := (timed_run hshort hw events).onTime core
  constructor
  · have hticks : (s.shared.console.g_ticks core).toNat ≤ ticked s core := Nat.le_add_right _ _
    have hmul := Nat.mul_le_mul_right (period setup) hticks
    by_cases hpending : Pending s core
    · have hdue := ht.due hpending
      omega
    · obtain ⟨hlow, hhigh⟩ := ht.armed hpending
      rw [add_one_mul] at hlow
      have hcast : (hw.counter : ℤ) + ticked s core * period setup ≤ s.shared.counter := by omega
      have hnat : hw.counter + ticked s core * period setup ≤ s.shared.counter := by
        exact_mod_cast hcast
      omega
  · intro hwaiting
    refine ⟨(ht.armed (hs.not_pending hwaiting)).2, fun hdue => ⟨hwaiting.1, hwaiting.2, ?_⟩⟩
    have henabled : (s.shared.timer core).enabled = true :=
      hs.effects core _ (hs.timer_of_unmasked hwaiting.1 .enableTimer (by decide))
    have hrouted : (s.shared.armLocal (CORE_TIMER_IRQCNTL0 + core)).getLsbD CNTPNSIRQ = true :=
      hs.effects core _ (hs.timer_of_unmasked hwaiting.1 .route (by decide))
    simp only [Shared.fires, henabled, hrouted, hdue, decide_true, Bool.and_self]

/-- A timer at 5 Hz, so that an interval is one count: core 0 comes up and has ticked once. -/
theorem ticks_paced_board :
    let setup : Setup := ⟨1, 0x80800, 5, []⟩
    let hw : System.Hardware := ⟨fun _ => 0, fun _ => 0, fun _ => ⟨true, 0⟩, 7⟩
    let s := System.run setup (System.start setup hw) (List.replicate 255 (.run 0) ++ [.count] ++
      (.interrupt 0 :: List.replicate 29 (.run 0) ++ [.run 0]))
    (s.shared.console.g_ticks 0 = 1 ∧ Waiting s 0) ∧
      hw.counter + (s.shared.console.g_ticks 0).toNat * period setup ≤ s.shared.counter ∧
      (s.shared.timer 0).cval ≤ s.shared.counter + period setup := by
  intro setup hw
  have hshort : period setup < 2 ^ 31 := by decide
  have hfacts : ((advance setup 0 255 (mainProgram setup 0) (System.start setup hw).shared).bind
      fun r => (advance setup 0 29 (timer_isr 0) { r.2 with counter := r.2.counter + 1 }).map
        fun r' => (r.1, r.2.console.unmasked 0 && { r.2 with counter := r.2.counter + 1 }.fires 0,
          r'.1, r'.2.console.g_ticks 0, r'.2.console.unmasked 0)) =
      some ([], true, [], 1, true) := by decide +kernel
  obtain ⟨⟨p, sh⟩, hmain, hfacts⟩ := Option.bind_eq_some_iff.mp hfacts
  obtain ⟨⟨p', sh'⟩, hisr, hfacts⟩ := Option.map_eq_some_iff.mp hfacts
  simp only [Prod.mk.injEq, Bool.and_eq_true] at hfacts hisr
  obtain ⟨rfl, ⟨hunmasked, hfires⟩, rfl, hticks, hunmasked'⟩ := hfacts
  obtain ⟨done, hordered⟩ := ordered_run setup hw (List.replicate 255 (.run 0) ++ [.count])
  have hup := System.run_concat (System.start setup hw) setup (List.replicate 255 (.run 0)) .count
  rw [run_advance rfl (Eq.refl (mainProgram setup 0)) hmain] at hup
  rw [hup] at hordered
  obtain ⟨t, ht, hshared, hreturned⟩ := hordered.serve
    (show System.Takes _ 0 from ⟨hunmasked, rfl, hfires⟩) hisr
  generalize hevents : List.replicate 255 (Event.run 0) ++ [.count] ++
    (.interrupt 0 :: List.replicate 29 (.run 0) ++ [.run 0]) = events
  have hs : System.run setup (System.start setup hw) events = t := by
    rw [← hevents, System.run_append, hup, ht]
  obtain ⟨hpaced, hwaiting⟩ := ticks_paced setup hshort hw events 0
  rw [hs] at hpaced hwaiting ⊢
  have hwaits : Waiting t 0 := ⟨by rw [hshared, hunmasked'], hreturned⟩
  exact ⟨⟨by rw [hshared, hticks], hwaits⟩, hpaced, (hwaiting hwaits).1⟩

end Bcm2837.Bringup
