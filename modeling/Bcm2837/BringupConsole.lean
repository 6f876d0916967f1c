import Bcm2837.BringupOrder

/-!
# The bring-up and the console

Without its timers, tables and MMUs the bring-up is the console system: from
`uart_enable_lock()` on each of its steps is one of the console or none, and an interrupt of the
console. What `kmain` prints before is the text that the console starts with.
-/
namespace Bcm2837.Bringup

open Console (Core Context)

/-- What the console makes of an action. -/
def Action.abs : Action → Console.Action
  | .console a => a
  | _ => .work

/-- What a program prints before it comes to the lock. -/
def text : List Action → List Char
  | [] => []
  | .console (.put c) :: p => c :: text p
  | _ :: p => text p

/-- Actions before `uart_enable_lock()`. -/
def Early : Action → Prop
  | .console (.put _) | .console .work => True
  | .buildTables | .enableMmu | .setActive | .installVector | .registerHandler => True
  | _ => False

/-- `s` is at `t` of the console, but for the actions `early` that core 0 has still to take
before. -/
structure Related (s : System) (t : Console.System) (early : List Action) : Prop where
  main : ∃ later, s.program (.main 0) = early ++ later ∧
    t.program (.main 0) = later.map Action.abs ∧ (early ≠ [] → later = kmainRest)
  others : ∀ x, x ≠ .main 0 → t.program x = (s.program x).map Action.abs
  inIsr : t.inIsr = s.inIsr
  shared : t.shared =
    { s.shared.console with output := s.shared.console.output ++ text early }
  before : ∀ a ∈ early, Early a
  parked : early ≠ [] → ∀ c, s.inIsr c = false ∧ s.shared.console.released c = false ∧
    s.shared.console.unmasked c = false ∧
    (c ≠ 0 → s.program (.main c) = .console .park :: ksecondary c)

@[simp] theorem map_abs_chars (cs : List Char) :
    (chars cs).map Action.abs = cs.map Console.Action.put := by
  simp [chars, Action.abs, Function.comp_def]

@[simp] theorem abs_comp_console : Action.abs ∘ Action.console = id := rfl

theorem map_abs_timer_isr (core : Core) :
    (timer_isr core).map Action.abs = Console.timerIsr core := by
  simp [timer_isr, Console.timerIsr, uartLock, uartUnlock, uartPuts, uartDec, Console.uartPuts,
    Console.uartDec, Action.abs]

theorem map_abs_kmainRest : kmainRest.map Action.abs = Console.kmain := by
  simp [kmainRest, Console.kmain, uartLock, uartUnlock, uartPuts, Console.uartPuts,
    core_timer_start, Console.coreTimerStart, Action.abs]

theorem map_abs_ksecondary (core : Core) :
    (ksecondary core).map Action.abs = Console.ksecondary core := by
  simp [ksecondary, online, Console.ksecondary, uartLock, uartUnlock, uartPuts, uartDec,
    Console.uartPuts, Console.uartDec, core_timer_start, Console.coreTimerStart, Action.abs]

section Steps

variable {setup : Setup} {s : System} {t : Console.System} {done : Core → List Action}
  {core : Core} {a : Action} {rest early : List Action}

/-- An action does to the console what the console's action does. -/
theorem exec_abs (setup : Setup) (core : Core) (rest : List Action) (a : Action)
    (sh : Shared) :
    ((exec setup core rest sh a).1.map Action.abs, (exec setup core rest sh a).2.console) =
      Console.exec core (rest.map Action.abs) sh.console a.abs := by
  cases a with
  | console a =>
    cases a with
    | park =>
      simp only [exec, next, Console.exec, Action.abs]
      split_ifs <;> rfl
    | readLocking =>
      simp only [exec, next, Console.exec, Action.abs]
      split_ifs
      · rfl
      · rw [List.map_tail]
    | exchange =>
      simp only [exec, next, Console.exec, Action.abs]
      split_ifs <;> rfl
    | tick =>
      simp [exec, next, Console.exec, Action.abs, uartDec, Console.uartDec]
    | _ => rfl
  | _ => rfl

/-- An early action is no more to the console than what it prints. -/
theorem early_cases (setup : Setup) (core : Core) (rest : List Action) (ha : Early a)
    (sh : Shared) :
    (exec setup core rest sh a).1 = rest ∧
      { (exec setup core rest sh a).2.console with
        output := (exec setup core rest sh a).2.console.output ++ text rest } =
      { sh.console with output := sh.console.output ++ text (a :: rest) } ∧
      (exec setup core rest sh a).2.console.released = sh.console.released ∧
      (exec setup core rest sh a).2.console.unmasked = sh.console.unmasked := by
  cases a with
  | console a =>
    cases a with
    | put c => exact ⟨rfl, by simp [exec, Console.exec, text], rfl, rfl⟩
    | work => exact ⟨rfl, rfl, rfl, rfl⟩
    | _ => exact ha.elim
  | buildTables => exact ⟨rfl, rfl, rfl, rfl⟩
  | enableMmu => exact ⟨rfl, rfl, rfl, rfl⟩
  | setActive => exact ⟨rfl, rfl, rfl, rfl⟩
  | installVector => exact ⟨rfl, rfl, rfl, rfl⟩
  | registerHandler => exact ⟨rfl, rfl, rfl, rfl⟩
  | _ => exact ha.elim

theorem Related.running (h : Related s t early) (core : Core) :
    t.running core = s.running core := by
  rw [Console.System.running, System.running, h.inIsr]

/-- Core 0 takes an action before the lock is in use. -/
theorem Related.run_early (h : Related s t (a :: early)) :
    Related (System.step setup s (.run 0)) t early := by
  obtain ⟨later, hprogram, hlater, hrest⟩ := h.main
  have hparked := h.parked (List.cons_ne_nil a early)
  have hrunning : s.running 0 = .main 0 := by simp [System.running, (hparked 0).1]
  obtain ⟨hnext, hshared, hreleased, hunmasked⟩ := early_cases setup 0 early
    (h.before a List.mem_cons_self) s.shared
  have hnext' : (exec setup 0 (early ++ later) s.shared a).1 = early ++ later :=
    (early_cases _ _ _ (h.before a List.mem_cons_self) s.shared).1
  have hconsole : (exec setup 0 (early ++ later) s.shared a).2 =
      (exec setup 0 early s.shared a).2 := by cases a <;> rfl
  have hnow : s.program (s.running 0) = a :: (early ++ later) := hrunning ▸ hprogram
  rw [step_run hnow, hrunning, hnext', hconsole]
  exact {
    main := ⟨later, by simp, hlater, fun _ => hrest (List.cons_ne_nil _ _)⟩
    others := fun x hx => by
      dsimp only
      rw [Function.update_of_ne hx]
      exact h.others x hx
    inIsr := h.inIsr
    shared := h.shared.trans hshared.symm
    before := fun b hb => h.before b (List.mem_cons_of_mem a hb)
    parked := fun _ c => by
      dsimp only
      rw [hreleased, hunmasked]
      refine ⟨(hparked c).1, (hparked c).2.1, (hparked c).2.2.1, fun hc => ?_⟩
      rw [Function.update_of_ne (by simpa using hc)]
      exact (hparked c).2.2.2 hc }

/-- Before the lock is in use the other cores wait. -/
theorem Related.run_parked (h : Related s t (a :: early)) (hcore : core ≠ 0) :
    System.step setup s (.run core) = s := by
  obtain ⟨hisr, hreleased, -, hprogram⟩ := h.parked (List.cons_ne_nil a early) core
  have hrunning : s.running core = .main core := by simp [System.running, hisr]
  have hexec : exec setup core (ksecondary core) s.shared (.console .park) =
      (.console .park :: ksecondary core, s.shared) := by
    simp [exec, next, Console.exec, hreleased]
  rw [step_run (hrunning ▸ hprogram hcore), hrunning, hexec, ← hprogram hcore]
  dsimp only
  rw [Function.update_eq_self]

/-- Once the lock is in use each step is one of the console. -/
theorem Related.run_late (h : Related s t []) (core : Core) :
    Related (System.step setup s (.run core)) (t.step (.run core)) [] := by
  obtain ⟨later, hmain, hlater, -⟩ := h.main
  have hall : ∀ x, t.program x = (s.program x).map Action.abs := by
    intro x
    by_cases hx : x = .main 0
    · rw [hx, hlater, hmain, List.nil_append]
    · exact h.others x hx
  have hsame : t.shared = s.shared.console := by
    rw [h.shared]
    simp [text]
  have hkeep {s' : System} {t' : Console.System} (hprogram : ∀ x, t'.program x =
      (s'.program x).map Action.abs) (hisr : t'.inIsr = s'.inIsr)
      (hshared : t'.shared = s'.shared.console) : Related s' t' [] := {
    main := ⟨s'.program (.main 0), rfl, hprogram _, fun hne => absurd rfl hne⟩
    others := fun x _ => hprogram x
    inIsr := hisr
    shared := by
      rw [hshared]
      simp [text]
    before := fun _ hb => absurd hb List.not_mem_nil
    parked := fun hne => absurd rfl hne }
  cases hprogram : s.program (s.running core) with
  | nil =>
    have hconsole : t.program (t.running core) = [] := by
      rw [h.running, hall, hprogram]
      rfl
    have hstep : System.step setup s (.run core) =
        { s with inIsr := Function.update s.inIsr core false } := by
      simp only [System.step, hprogram]
    rw [hstep, Console.System.step_run_nil hconsole]
    exact hkeep hall (by rw [h.inIsr]) hsame
  | cons a rest =>
    have hconsole : t.program (t.running core) = a.abs :: rest.map Action.abs := by
      rw [h.running, hall, hprogram]
      rfl
    have habs := exec_abs setup core rest a s.shared
    rw [step_run hprogram, Console.System.step_run_cons hconsole, h.running, hsame, ← habs]
    refine hkeep (fun x => ?_) h.inIsr rfl
    dsimp only
    by_cases hx : x = s.running core
    · rw [hx, Console.System.put_program_self, Function.update_self]
    · rw [Console.System.put_program_of_ne _ hx, Function.update_of_ne hx, hall]

/-- An interrupt of the bring-up is one of the console. -/
theorem Related.interrupt (hs : Ordered setup s done) (h : Related s t early)
    (htakes : s.Takes core) :
    Related (System.step setup s (.interrupt core)) (t.step (.interrupt core)) early := by
  have hearly : early = [] := by
    by_contra hne
    have hmasked := (h.parked hne core).2.2.1
    rw [htakes.1] at hmasked
    cases hmasked
  subst hearly
  obtain ⟨later, hmain, hlater, -⟩ := h.main
  have hconsole : t.Takes core := by
    refine ⟨?_, ?_⟩
    · rw [h.shared]
      exact htakes.1
    · rw [h.inIsr]
      exact htakes.2.1
  have hstep : t.step (.interrupt core) = { t with
      program := Function.update t.program (.isr core) (Console.timerIsr core)
      inIsr := Function.update t.inIsr core true } := if_pos hconsole
  rw [hs.interrupt htakes, hstep]
  exact {
    main := by
      refine ⟨later, ?_, ?_, fun hne => absurd rfl hne⟩
      · dsimp only
        rwa [Function.update_of_ne (by simp)]
      · dsimp only
        rwa [Function.update_of_ne (by simp)]
    others := fun x hx => by
      dsimp only
      by_cases hisr : x = .isr core
      · rw [hisr, Function.update_self, Function.update_self, map_abs_timer_isr]
      · rw [Function.update_of_ne hisr, Function.update_of_ne hisr]
        exact h.others x hx
    inIsr := by rw [h.inIsr]
    shared := h.shared
    before := h.before
    parked := fun hne => absurd rfl hne }

theorem Related.step (hs : Ordered setup s done) (h : Related s t early) (e : Event) :
    ∃ events early', Related (System.step setup s e) (t.run events) early' := by
  cases e with
  | run core =>
    cases early with
    | nil => exact ⟨[.run core], [], h.run_late core⟩
    | cons a early =>
      by_cases hcore : core = 0
      · rw [hcore]
        exact ⟨[], early, h.run_early⟩
      · refine ⟨[], a :: early, ?_⟩
        rw [h.run_parked hcore]
        exact h
  | interrupt core =>
    by_cases htakes : s.Takes core
    · exact ⟨[.interrupt core], early, h.interrupt hs htakes⟩
    · refine ⟨[], early, ?_⟩
      rw [System.step, if_neg htakes]
      exact h
  | count => exact ⟨[], early, ⟨h.main, h.others, h.inIsr, h.shared, h.before, h.parked⟩⟩

theorem early_boot (setup : Setup) : ∀ a ∈ boot setup, Early a := by
  have hchars (cs : List Char) : ∀ a ∈ chars cs, Early a := by
    intro a ha
    obtain ⟨c, -, rfl⟩ := List.mem_map.mp ha
    trivial
  simp only [boot, uartPuts, uartDec, List.forall_mem_append, List.forall_mem_cons,
    iff_true_intro (hchars _), and_true]
  have hnil : ∀ a ∈ ([] : List Action), Early a := List.forall_mem_nil _
  exact ⟨⟨⟨⟨trivial, hnil⟩, trivial, trivial, hnil⟩, trivial, trivial, hnil⟩, trivial, hnil⟩

theorem related_start (hw : System.Hardware) : Related (System.start setup hw)
    (Console.System.start (text (boot setup))) (boot setup) where
  main := ⟨kmainRest, rfl, map_abs_kmainRest.symm, fun _ => rfl⟩
  others x hx := by
    cases x with
    | main core =>
      have hcore : core ≠ 0 := fun h => hx (h ▸ rfl)
      have hval : core.val ≠ 0 := fun h => hcore (Fin.ext h)
      simp only [Console.System.start, System.start, mainProgram, if_neg hcore, if_neg hval,
        List.map_cons, map_abs_ksecondary]
      rfl
    | isr core => rfl
  inIsr := rfl
  shared := rfl
  before := early_boot setup
  parked _ c := ⟨rfl, rfl, rfl, fun hc => by simp [System.start, mainProgram, hc]⟩

end Steps

/-- Every schedule of the bring-up is one of the console, and what has come out on the UART, with
what `kmain` has still to print before the lock is in use, is what the console has printed. -/
theorem bringup_refines_console (setup : Setup) (hw : System.Hardware) (events : List Event) :
    ∃ schedule early, Related (System.run setup (System.start setup hw) events)
      ((Console.System.start (text (boot setup))).run schedule) early := by
  induction events using List.reverseRecOn with
  | nil => exact ⟨[], _, related_start hw⟩
  | append_singleton events e ih =>
    obtain ⟨schedule, early, h⟩ := ih
    obtain ⟨done, hs⟩ := ordered_run setup hw events
    obtain ⟨more, early', hstep⟩ := h.step hs e
    rw [System.run_concat]
    exact ⟨schedule ++ more, early', by rwa [Console.System.run_append]⟩

end Bcm2837.Bringup
