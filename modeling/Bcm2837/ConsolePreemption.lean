import Bcm2837.ConsoleLock

/-!
# A core against its own timer

`uart_lock` does not mask interrupts, and `kmain` and `ksecondary` print after
`core_timer_start` has unmasked them. A timer interrupt that arrives while the main code of
its core is inside the lock waits for that code, which waits for the handler to return.
-/
namespace Bcm2837.Console

/-- The handler of the core spins in `uart_lock`, and the main code it has preempted is inside
the lock. -/
def Deadlocked (s : System) (core : Core) : Prop :=
  s.inIsr core = true ∧ s.shared.g_lock = 1 ∧
    (s.program (.isr core)).head? = some .exchange ∧ Holding (s.program (.main core))

instance (s : System) (core : Core) : Decidable (Deadlocked s core) :=
  inferInstanceAs (Decidable (_ ∧ _ ∧ _ ∧ _))

/-- The timer interrupt of a core would be taken while its main code is inside the lock. -/
def Preempts (s : System) (core : Core) : Prop := s.Takes core ∧ Holding (s.program (.main core))

/-! ## While a handler is active -/

section Handler

variable {s : System} {core : Core}

theorem run_program_of_ne {x : Context} {c : Core} (hx : x ≠ s.running c) :
    (s.step (.run c)).program x = s.program x := by
  cases hp : s.program (s.running c) with
  | nil => rw [System.step_run_nil hp]
  | cons a p => rw [System.step_run_cons hp, System.put_program_of_ne s hx]

theorem run_inIsr_of_ne {c : Core} (hc : core ≠ c) :
    (s.step (.run c)).inIsr core = s.inIsr core := by
  cases hp : s.program (s.running c) with
  | nil =>
    rw [System.step_run_nil hp]
    exact Function.update_of_ne hc _ _
  | cons a p =>
    rw [System.step_run_cons hp]
    rfl

theorem running_of_ne {x : Context} {c : Core} (hx : x.core ≠ c) : x ≠ s.running c := by
  rintro rfl
  exact hx (System.running_core s c)

theorem interrupt_of_inIsr {c : Core} (hc : s.inIsr c = true) :
    s.step (.interrupt c) = s := by
  simp [System.step, System.Takes, hc]

theorem interrupt_of_takes (htakes : s.Takes core) :
    (s.step (.interrupt core)).inIsr core = true ∧
      (s.step (.interrupt core)).program (.isr core) = timerIsr core ∧
      (s.step (.interrupt core)).program (.main core) = s.program (.main core) := by
  simp [System.step, htakes]

/-- An interrupt of another core. -/
theorem interrupt_of_ne {c : Core} (hc : core ≠ c) :
    (s.step (.interrupt c)).inIsr core = s.inIsr core ∧
      ∀ x : Context, x.core = core → (s.step (.interrupt c)).program x = s.program x := by
  simp only [System.step]
  split
  · refine ⟨Function.update_of_ne hc _ _, fun x hx => Function.update_of_ne ?_ _ _⟩
    rintro rfl
    exact hc hx.symm
  · exact ⟨rfl, fun _ _ => rfl⟩

/-- Only its own core runs the handler. -/
theorem step_isr (hc : s.inIsr core = true) {e : Event} (he : e ≠ .run core) :
    (s.step e).inIsr core = true ∧ (s.step e).program (.isr core) = s.program (.isr core) := by
  cases e with
  | run c =>
    have hne : core ≠ c := fun h => he (congrArg Event.run h.symm)
    exact ⟨(run_inIsr_of_ne hne).trans hc, run_program_of_ne (running_of_ne hne)⟩
  | interrupt c =>
    by_cases hcore : core = c
    · subst hcore
      rw [interrupt_of_inIsr hc]
      exact ⟨hc, rfl⟩
    · obtain ⟨hinIsr, hprogram⟩ := interrupt_of_ne (s := s) hcore
      exact ⟨hinIsr.trans hc, hprogram _ rfl⟩

/-- The preempted code does not move. -/
theorem step_main (hc : s.inIsr core = true) (e : Event) :
    (s.step e).program (.main core) = s.program (.main core) := by
  cases e with
  | run c =>
    apply run_program_of_ne
    by_cases hcore : core = c
    · subst hcore
      simp [System.running, hc]
    · exact running_of_ne hcore
  | interrupt c =>
    by_cases hcore : core = c
    · subst hcore
      rw [interrupt_of_inIsr hc]
    · exact (interrupt_of_ne hcore).2 _ rfl

/-- A handler begins with the interrupt of its core. -/
theorem step_enters (hc : s.inIsr core = false) {e : Event}
    (hc' : (s.step e).inIsr core = true) : e = .interrupt core ∧ s.Takes core := by
  cases e with
  | run c =>
    exfalso
    by_cases hcore : core = c
    · subst hcore
      cases hp : s.program (s.running core) with
      | nil =>
        rw [System.step_run_nil hp] at hc'
        simp at hc'
      | cons a p =>
        rw [System.step_run_cons hp] at hc'
        exact Bool.false_ne_true (hc.symm.trans hc')
    · rw [run_inIsr_of_ne hcore, hc] at hc'
      exact Bool.false_ne_true hc'
  | interrupt c =>
    by_cases hcore : core = c
    · subst hcore
      refine ⟨rfl, ?_⟩
      by_contra htakes
      simp [System.step, htakes, hc] at hc'
    · rw [(interrupt_of_ne hcore).1, hc] at hc'
      exact absurd hc' Bool.false_ne_true

end Handler

/-! ## Deadlocks last -/

section Deadlocks

variable {boot : List Char} {core : Core}

theorem Deadlocked.step {s : System} {holder : Option Context} {ms : List Message}
    (h : Locked boot s holder ms) (hd : Deadlocked s core) (e : Event) :
    Deadlocked (s.step e) core := by
  obtain ⟨hinIsr, hlock, hspin, hholds⟩ := hd
  obtain ⟨holder', ms', h'⟩ := h.step e
  have hholds' : Holding ((s.step e).program (.main core)) := by
    rw [step_main hinIsr e]
    exact hholds
  have hlock' : (s.step e).shared.g_lock = 1 := by
    rw [h'.lock, (h'.holding _).mp hholds']
    rfl
  by_cases he : e = .run core
  · subst he
    obtain ⟨p, hp⟩ : ∃ p, s.program (.isr core) = .exchange :: p := List.head?_eq_some_iff.mp hspin
    have hrunning : s.running core = .isr core := if_pos hinIsr
    have hstep : s.step (.run core) =
        s.put (.isr core) (.exchange :: p) { s.shared with g_lock := 1 } := by
      rw [System.step_run_cons (hrunning ▸ hp), hrunning]
      simp [exec, hlock]
    rw [hstep] at hlock' hholds' ⊢
    exact ⟨hinIsr, rfl, by simp, hholds'⟩
  · obtain ⟨hinIsr', hisr⟩ := step_isr hinIsr he
    exact ⟨hinIsr', hlock', hisr ▸ hspin, hholds'⟩

theorem Deadlocked.run {before : List Event}
    (hd : Deadlocked ((System.start boot).run before) core) (after : List Event) :
    Deadlocked ((System.start boot).run (before ++ after)) core := by
  induction after using List.reverseRecOn with
  | nil => simpa using hd
  | append_singleton after e ih =>
    rw [← List.append_assoc, System.run_concat]
    obtain ⟨holder, ms, h⟩ := locked_run boot (before ++ after)
    exact ih.step h e

end Deadlocks

/-! ## When the console is free of them -/

section Schedules

variable {boot : List Char} {core : Core}

/-- Without a step of its core a handler stays where it is. -/
theorem run_isr {s : System} (hc : s.inIsr core = true) {events : List Event}
    (hevents : .run core ∉ events) :
    (s.run events).inIsr core = true ∧
      (s.run events).program (.isr core) = s.program (.isr core) ∧
      (s.run events).program (.main core) = s.program (.main core) := by
  induction events using List.reverseRecOn with
  | nil => exact ⟨hc, rfl, rfl⟩
  | append_singleton events e ih =>
    simp only [List.mem_append, List.mem_singleton, not_or] at hevents
    obtain ⟨hinIsr, hisr, hmain⟩ := ih hevents.1
    obtain ⟨hinIsr', hisr'⟩ := step_isr hinIsr (Ne.symm hevents.2)
    rw [System.run_concat]
    exact ⟨hinIsr', hisr'.trans hisr, (step_main hinIsr e).trans hmain⟩

/-- An active handler was entered by an interrupt of its core, and has not moved before the
core has taken a step. -/
theorem handler_entered {events : List Event}
    (hc : ((System.start boot).run events).inIsr core = true) :
    ∃ before after, events = before ++ .interrupt core :: after ∧
      ((System.start boot).run before).Takes core ∧
      ((System.start boot).run events).program (.main core) =
        ((System.start boot).run before).program (.main core) ∧
      (.run core ∉ after →
        ((System.start boot).run events).program (.isr core) = timerIsr core) := by
  induction events using List.reverseRecOn with
  | nil => exact absurd hc Bool.false_ne_true
  | append_singleton events e ih =>
    rw [System.run_concat] at hc ⊢
    cases hprev : ((System.start boot).run events).inIsr core with
    | false =>
      obtain ⟨rfl, htakes⟩ := step_enters hprev hc
      obtain ⟨-, hisr, hmain⟩ := interrupt_of_takes htakes
      exact ⟨events, [], rfl, htakes, hmain, fun _ => hisr⟩
    | true =>
      obtain ⟨before, after, rfl, htakes, hmain, hisr⟩ := ih hprev
      refine ⟨before, after ++ [e], by simp, htakes, (step_main hprev e).trans hmain, ?_⟩
      intro hafter
      simp only [List.mem_append, List.mem_singleton, not_or] at hafter
      rw [(step_isr hprev (Ne.symm hafter.2)).2]
      exact hisr hafter.1

/-- One step of the core brings the handler to the exchange. -/
theorem deadlocked_of_preempts {before mid : List Event}
    (hpreempts : Preempts ((System.start boot).run before) core) (hmid : .run core ∉ mid) :
    Deadlocked ((System.start boot).run (before ++ .interrupt core :: mid ++ [.run core]))
      core := by
  obtain ⟨htakes, hholds⟩ := hpreempts
  obtain ⟨hentered, hisr, hmain⟩ := interrupt_of_takes htakes
  obtain ⟨holder, ms, h⟩ := locked_run boot (before ++ .interrupt core :: mid)
  rw [System.run_concat]
  have hrun : (System.start boot).run (before ++ .interrupt core :: mid) =
      (((System.start boot).run before).step (.interrupt core)).run mid := System.run_append ..
  obtain ⟨hinIsr, hisr', hmain'⟩ := run_isr hentered hmid
  rw [← hrun] at hinIsr hisr' hmain'
  generalize (System.start boot).run (before ++ .interrupt core :: mid) = s at h hinIsr hisr' hmain'
  rw [← hmain, ← hmain'] at hholds
  obtain ⟨p, hp, -⟩ := timerIsr_eq core
  have hprogram : s.program (.isr core) = .readLocking :: .exchange :: p :=
    hisr'.trans (hisr.trans hp)
  have hlocking : s.shared.g_locking = true := by
    rcases h.locking with hs | rfl
    · exact hs
    · exact absurd hinIsr Bool.false_ne_true
  have hlock : s.shared.g_lock = 1 := by
    rw [h.lock, (h.holding _).mp hholds]
    rfl
  have hrunning : s.running core = .isr core := if_pos hinIsr
  have hstep : s.step (.run core) = s.put (.isr core) (.exchange :: p) s.shared := by
    rw [System.step_run_cons (hrunning ▸ hprogram), hrunning]
    simp [exec, hlocking]
  rw [hstep]
  refine ⟨hinIsr, hlock, by simp, ?_⟩
  rw [System.put_program_of_ne s (by simp)]
  exact hholds

/-- No core takes its timer interrupt while its main code is inside the lock, unless the
schedule ends before that core's next step. -/
def Spared (boot : List Char) (events : List Event) : Prop :=
  ∀ before core after, events = before ++ .interrupt core :: after →
    Preempts ((System.start boot).run before) core → .run core ∉ after

theorem deadlockFree_iff (boot : List Char) (events : List Event) :
    (∀ core, ¬ Deadlocked ((System.start boot).run events) core) ↔ Spared boot events := by
  constructor
  · rintro hfree before core after rfl hpreempts hrun
    obtain ⟨mid, rest, rfl, hmid⟩ := List.eq_append_cons_of_mem hrun
    have hd := (deadlocked_of_preempts hpreempts hmid).run rest
    refine hfree core ?_
    simpa using hd
  · rintro hspared core ⟨hinIsr, -, hspin, hholds⟩
    obtain ⟨before, after, hevents, htakes, hmain, hisr⟩ := handler_entered hinIsr
    have hnone := hspared before core after hevents ⟨htakes, hmain ▸ hholds⟩
    obtain ⟨p, hp, -⟩ := timerIsr_eq core
    rw [hisr hnone, hp] at hspin
    simp at hspin

/-- Core 0 is interrupted right after its exchange. -/
theorem not_deadlockFree :
    ¬ ∀ boot events core, ¬ Deadlocked ((System.start boot).run events) core := by
  intro hfree
  refine hfree [] (List.replicate 11 (.run 0) ++ [.interrupt 0, .run 0]) 0 ?_
  decide +kernel

end Schedules

end Bcm2837.Console
