import Bcm2837.ConsoleStages

/-!
# Exclusion on the console

The invariant of the lock: `g_lock` is 1 exactly while one context is inside, and the
output is the messages begun so far up to what that context has still to print.
-/
namespace Bcm2837.Console

/-! ## The invariant -/

/-- The numbers in the tick messages of a core. -/
def tickNumbers (core : Core) : List Message → List (BitVec 64)
  | [] => []
  | .online _ :: ms => tickNumbers core ms
  | .tick c number :: ms =>
    if c = core then number :: tickNumbers core ms else tickNumbers core ms

/-- 1, 2, 3 and so on, as `uint64_t` counts. -/
def firstNumbers (k : ℕ) : List (BitVec 64) := (List.range k).map fun i => BitVec.ofNat 64 (i + 1)

theorem tickNumbers_append (core : Core) (ms ms' : List Message) :
    tickNumbers core (ms ++ ms') = tickNumbers core ms ++ tickNumbers core ms' := by
  induction ms with
  | nil => rfl
  | cons m ms ih =>
    cases m with
    | online c => exact ih
    | tick c number =>
      simp only [List.cons_append, tickNumbers, ih]
      split <;> rfl

theorem firstNumbers_succ (k : ℕ) :
    firstNumbers (k + 1) = firstNumbers k ++ [BitVec.ofNat 64 (k + 1)] := by
  simp [firstNumbers, List.range_succ]

/-- What the holder of the lock has still to print. -/
def unsaid (s : System) : Option Context → List Char
  | none => []
  | some x => pending (s.shared.g_ticks x.core) (s.program x)

/-- The counter of a core when the message being printed is complete. -/
def settled (s : System) (core : Core) : Option Context → BitVec 64
  | none => s.shared.g_ticks core
  | some x =>
    if x.core = core then
      s.shared.g_ticks core + BitVec.ofNat 64 ((s.program x).count .tick)
    else s.shared.g_ticks core

/-- `holder` is inside the lock and `ms` are the messages begun. -/
structure Locked (boot : List Char) (s : System) (holder : Option Context) (ms : List Message) :
    Prop where
  locking : s.shared.g_locking = true ∨ s = System.start boot
  stage : ∀ x, Stage x.core (s.program x)
  idle : ∀ core, s.inIsr core = false → s.program (.isr core) = []
  holding : ∀ x, Holding (s.program x) ↔ holder = some x
  lock : s.shared.g_lock = if holder.isSome then 1 else 0
  output : s.shared.output ++ unsaid s holder = boot ++ ms.flatMap Message.text
  last : ∀ x, holder = some x →
    ∃ done m, ms = done ++ [m] ∧ m.core = x.core ∧ unsaid s holder <:+ m.text
  ticks : ∀ core, ∃ k, tickNumbers core ms = firstNumbers k ∧
    settled s core holder = BitVec.ofNat 64 k

/-! ## The steps of one program -/

/-- A step that neither takes the lock nor frees it. -/
structure Advances (core : Core) (p p' : List Action) (s s' : Shared) : Prop where
  locking : s'.g_locking = true
  lock : s'.g_lock = s.g_lock
  stage : Stage core p'
  holding : Holding p' ↔ Holding p
  outside : ¬ Holding p → s'.output = s.output ∧ s'.g_ticks = s.g_ticks
  inside : Holding p → ∃ cs, s'.output = s.output ++ cs ∧
    pending (s.g_ticks core) p = cs ++ pending (s'.g_ticks core) p'
  counter : Holding p → s'.g_ticks core + BitVec.ofNat 64 (p'.count .tick) =
    s.g_ticks core + BitVec.ofNat 64 (p.count .tick)
  others : ∀ c, c ≠ core → s'.g_ticks c = s.g_ticks c

section Steps

variable {core : Core} {a : Action} {p : List Action} {s s' : Shared}

theorem Silent.count_cons (ha : Silent a) : (a :: p).count .tick = p.count .tick := by
  cases a <;> first | rfl | exact ha.elim

theorem holding_cons (hexchange : a ≠ .exchange) (hstore : a ≠ .store) :
    Holding (a :: p) ↔ Holding p := by
  simp [Holding, hexchange.symm, hstore.symm]

theorem Silent.holding_cons (ha : Silent a) : Holding (a :: p) ↔ Holding p := by
  apply Console.holding_cons
  · rintro rfl
    exact ha
  · rintro rfl
    exact ha

theorem Advances.refl (h : Stage core p) (hs : s.g_locking = true) : Advances core p p s s where
  locking := hs
  lock := rfl
  stage := h
  holding := Iff.rfl
  outside _ := ⟨rfl, rfl⟩
  inside _ := ⟨[], by simp⟩
  counter _ := rfl
  others _ _ := rfl

theorem Advances.skip (ha : Silent a) (h : Stage core p) (hlocking : s'.g_locking = true)
    (hlock : s'.g_lock = s.g_lock) (houtput : s'.output = s.output)
    (hticks : s'.g_ticks = s.g_ticks) : Advances core (a :: p) p s s' where
  locking := hlocking
  lock := hlock
  stage := h
  holding := ha.holding_cons.symm
  outside _ := ⟨houtput, hticks⟩
  inside _ := ⟨[], by simp [houtput, hticks, ha.pending_cons]⟩
  counter _ := by rw [hticks, ha.count_cons]
  others c _ := by rw [hticks]

theorem advances_quiet (ha : Quiet a) (hall : Stage core (a :: p)) (h : Stage core p)
    (hs : s.g_locking = true) :
    Advances core (a :: p) (exec core p s a).1 s (exec core p s a).2 := by
  cases a with
  | enableLocking => exact .skip trivial h rfl rfl rfl rfl
  | release | work | unmask => exact .skip trivial h hs rfl rfl rfl
  | park =>
    by_cases hreleased : s.released core
    · simp only [exec, if_pos hreleased]
      exact .skip trivial h hs rfl rfl rfl
    · simp only [exec, if_neg hreleased]
      exact .refl hall hs
  | readLocking | exchange | put | tick | store => exact ha.elim

theorem advances_readLocking (h : Stage core p) (hs : s.g_locking = true) :
    Advances core (.readLocking :: p) (exec core p s .readLocking).1 s
      (exec core p s .readLocking).2 := by
  simp only [exec, if_pos hs]
  exact .skip trivial h hs rfl rfl rfl

theorem advances_put (c : Char) (h : Inside p) (hs : s.g_locking = true) :
    Advances core (.put c :: p) (exec core p s (.put c)).1 s (exec core p s (.put c)).2 where
  locking := hs
  lock := rfl
  stage := .inside h
  holding := iff_of_true h.holding (Inside.put c h).holding
  outside hp := absurd (Inside.put c h).holding hp
  inside _ := ⟨[c], rfl, rfl⟩
  counter _ := by simp [exec]
  others _ _ := rfl

/-- The counter moves and its digits are to be printed. -/
theorem advances_tick (h : Inside p) (hs : s.g_locking = true) :
    Advances core (.tick :: p) (exec core p s .tick).1 s (exec core p s .tick).2 where
  locking := hs
  lock := rfl
  stage := .inside (inside_map_put _ h)
  holding := iff_of_true (inside_map_put _ h).holding (Inside.tick h).holding
  outside hp := absurd (Inside.tick h).holding hp
  inside _ := ⟨[], by simp [exec, uartDec]⟩
  counter _ := by
    simp only [exec, uartDec, Function.update_self, List.count_append, count_map_put,
      List.count_cons_self, Nat.zero_add, BitVec.ofNat_add]
    rw [BitVec.add_assoc, BitVec.add_comm 1]
    rfl
  others c hc := Function.update_of_ne hc _ _

/-- A program outside the lock advances or takes it; inside it advances or frees it. -/
theorem Stage.step_cases (h : Stage core (a :: p)) (hs : s.g_locking = true)
    (hlock : s.g_lock = 0 ∨ s.g_lock = 1) :
    Advances core (a :: p) (exec core p s a).1 s (exec core p s a).2 ∨
      (a = .exchange ∧ s.g_lock = 0 ∧ Inside p ∧ Prints core p) ∨ a = .store ∧ After p := by
  rcases h with hbefore | hinside | hafter
  · cases hbefore with
    | exchange h hprints =>
      rcases hlock with hfree | htaken
      · exact .inr (.inl ⟨rfl, hfree, h, hprints⟩)
      · have hsame : ({ s with g_lock := 1 } : Shared) = s := by
          rw [← htaken]
        left
        simp only [exec, htaken, one_ne_zero, if_false, hsame]
        exact .refl (.before (.exchange h hprints)) hs
    | read h hprints => exact .inl (advances_readLocking (.before (.exchange h hprints)) hs)
    | quiet ha h => exact .inl (advances_quiet ha (.before (.quiet ha h)) (.before h) hs)
  · cases hinside with
    | store h => exact .inr (.inr ⟨rfl, h⟩)
    | read h => exact .inl (advances_readLocking (.inside (.store h)) hs)
    | put c h => exact .inl (advances_put c h hs)
    | tick h => exact .inl (advances_tick h hs)
  · have hrest : After p := fun b hb => hafter b (List.mem_cons_of_mem _ hb)
    exact .inl (advances_quiet (hafter a List.mem_cons_self) (.after hafter) (.after hrest) hs)

end Steps

/-! ## The steps of the system -/

namespace System

/-- The program of one context and the shared variables replaced. -/
def put (s : System) (x : Context) (p : List Action) (shared : Shared) : System :=
  { s with
    program := Function.update s.program x p
    shared := shared }

@[simp] theorem put_program_self (s : System) (x : Context) (p : List Action) (shared : Shared) :
    (s.put x p shared).program x = p := Function.update_self ..

theorem put_program_of_ne (s : System) {x y : Context} (h : y ≠ x) (p : List Action)
    (shared : Shared) : (s.put x p shared).program y = s.program y := Function.update_of_ne h ..

@[simp] theorem put_shared (s : System) (x : Context) (p : List Action) (shared : Shared) :
    (s.put x p shared).shared = shared := rfl

theorem running_core (s : System) (core : Core) : (s.running core).core = core := by
  unfold running
  split <;> rfl

theorem step_run_nil {s : System} {core : Core} (h : s.program (s.running core) = []) :
    s.step (.run core) = { s with inIsr := Function.update s.inIsr core false } := by
  simp only [step, h]

theorem step_run_cons {s : System} {core : Core} {a : Action} {p : List Action}
    (h : s.program (s.running core) = a :: p) :
    s.step (.run core) =
      s.put (s.running core) (exec core p s.shared a).1 (exec core p s.shared a).2 := by
  simp only [step, h, put]

end System

section Locked

variable {boot : List Char} {s : System} {holder : Option Context} {ms : List Message}
  {core : Core} {p : List Action} {shared : Shared}

/-- Whatever runs on a core, the handlers that are not active stay empty. -/
theorem Locked.put_idle (h : Locked boot s holder ms) (c : Core) (hc : s.inIsr c = false) :
    (s.put (s.running core) p shared).program (.isr c) = [] := by
  have hne : Context.isr c ≠ s.running core := by
    unfold System.running
    split
    · rintro ⟨⟩
      simp_all
    · nofun
  rw [System.put_program_of_ne s hne]
  exact h.idle c hc

theorem Locked.put_stage (h : Locked boot s holder ms) (hp : Stage core p) (x : Context) :
    Stage x.core ((s.put (s.running core) p shared).program x) := by
  by_cases hx : x = s.running core
  · rw [hx, System.put_program_self, System.running_core]
    exact hp
  · rw [System.put_program_of_ne s hx]
    exact h.stage x

theorem unsaid_advance (h : Locked boot s holder ms)
    (ha : Advances core (s.program (s.running core)) p s.shared shared) :
    ∃ cs, shared.output = s.shared.output ++ cs ∧
      unsaid s holder = cs ++ unsaid (s.put (s.running core) p shared) holder := by
  by_cases hx : holder = some (s.running core)
  · obtain ⟨cs, houtput, hpending⟩ := ha.inside ((h.holding _).mpr hx)
    refine ⟨cs, houtput, ?_⟩
    simpa [hx, unsaid, System.running_core] using hpending
  · obtain ⟨houtput, hticks⟩ := ha.outside fun hp => hx ((h.holding _).mp hp)
    refine ⟨[], by simp [houtput], ?_⟩
    cases holder with
    | none => rfl
    | some y =>
      have hy : y ≠ s.running core := fun heq => hx (congrArg some heq)
      simp [unsaid, System.put_program_of_ne s hy, hticks]

theorem settled_advance (h : Locked boot s holder ms)
    (ha : Advances core (s.program (s.running core)) p s.shared shared) (c : Core) :
    settled (s.put (s.running core) p shared) c holder = settled s c holder := by
  by_cases hx : holder = some (s.running core)
  · by_cases hc : c = core
    · simpa [hx, hc, settled, System.running_core] using ha.counter ((h.holding _).mpr hx)
    · have hne : core ≠ c := fun heq => hc heq.symm
      simpa [hx, hne, settled, System.running_core] using ha.others c hc
  · obtain ⟨-, hticks⟩ := ha.outside fun hp => hx ((h.holding _).mp hp)
    cases holder with
    | none => exact congrFun hticks c
    | some y =>
      have hy : y ≠ s.running core := fun heq => hx (congrArg some heq)
      simp [settled, System.put_program_of_ne s hy, hticks]

theorem Locked.advance (h : Locked boot s holder ms)
    (ha : Advances core (s.program (s.running core)) p s.shared shared) :
    Locked boot (s.put (s.running core) p shared) holder ms := by
  obtain ⟨cs, houtput, hunsaid⟩ := unsaid_advance h ha
  exact {
    locking := .inl ha.locking
    stage := h.put_stage ha.stage
    idle := h.put_idle
    holding := fun x => by
      by_cases hx : x = s.running core
      · rw [hx, System.put_program_self, ha.holding]
        exact h.holding _
      · rw [System.put_program_of_ne s hx]
        exact h.holding x
    lock := ha.lock.trans h.lock
    output := by
      rw [← h.output, hunsaid, ← List.append_assoc, ← houtput]
      rfl
    last := fun x hx => by
      obtain ⟨done, m, hms, hcore, hsuffix⟩ := h.last x hx
      exact ⟨done, m, hms, hcore, (List.suffix_append cs _).trans (hunsaid ▸ hsuffix)⟩
    ticks := fun c => by
      rw [settled_advance h ha]
      exact h.ticks c }

/-- The message the exchange begins. -/
theorem Prints.message (h : Prints core p) (t : BitVec 64) :
    ∃ m : Message, m.core = core ∧ pending t p = m.text ∧
      (∀ c, c ≠ core → tickNumbers c [m] = []) ∧
      (p.count .tick = 0 ∧ tickNumbers core [m] = [] ∨
        p.count .tick = 1 ∧ tickNumbers core [m] = [t + 1]) := by
  rcases h with ⟨htext, hcount⟩ | ⟨htext, hcount⟩
  · exact ⟨.online core, rfl, htext t, fun _ _ => rfl, .inl ⟨hcount, rfl⟩⟩
  · exact ⟨.tick core (t + 1), rfl, htext t, fun _ hc => if_neg hc.symm,
      .inr ⟨hcount, if_pos rfl⟩⟩

/-- The exchange answered 0. -/
theorem Locked.acquire (h : Locked boot s none ms) (hs : s.shared.g_locking = true)
    (hinside : Inside p) (hprints : Prints core p) :
    ∃ m, Locked boot (s.put (s.running core) p { s.shared with g_lock := 1 })
      (some (s.running core)) (ms ++ [m]) := by
  obtain ⟨m, hm, htext, hothers, hnumbers⟩ := hprints.message (s.shared.g_ticks core)
  refine ⟨m, ?_⟩
  have hunsaid : unsaid (s.put (s.running core) p { s.shared with g_lock := 1 })
      (some (s.running core)) = m.text := by
    simpa [unsaid, System.running_core] using htext
  exact {
    locking := .inl hs
    stage := h.put_stage (.inside hinside)
    idle := h.put_idle
    holding := fun x => by
      by_cases hx : x = s.running core
      · simp [hx, hinside.holding]
      · have hout : ¬ Holding (s.program x) := fun hp => nomatch (h.holding x).mp hp
        simp [System.put_program_of_ne s hx, hout, Ne.symm hx]
    lock := rfl
    output := by
      have houtput := h.output
      rw [unsaid, List.append_nil] at houtput
      rw [hunsaid, List.flatMap_append, ← List.append_assoc, ← houtput]
      simp
    last := fun x hx => by
      rw [hunsaid, ← Option.some_inj.mp hx, System.running_core]
      exact ⟨ms, m, rfl, hm, List.suffix_rfl⟩
    ticks := fun c => by
      obtain ⟨k, hk, hsettled⟩ := h.ticks c
      rw [settled] at hsettled
      rw [tickNumbers_append, hk]
      by_cases hc : c = core
      · subst hc
        rcases hnumbers with ⟨hcount, hnone⟩ | ⟨hcount, hnext⟩
        · exact ⟨k, by rw [hnone, List.append_nil],
            by simp [settled, System.running_core, hcount, hsettled]⟩
        · refine ⟨k + 1, ?_, ?_⟩
          · rw [hnext, hsettled, firstNumbers_succ, BitVec.ofNat_add]
            rfl
          · simp [settled, System.running_core, hcount, hsettled, BitVec.ofNat_add]
      · rw [hothers c hc, List.append_nil]
        exact ⟨k, rfl, by simp [settled, System.running_core, Ne.symm hc, hsettled]⟩ }

/-- The store of the holder. -/
theorem Locked.free (h : Locked boot s (some (s.running core)) ms)
    (hs : s.shared.g_locking = true) (hafter : After p)
    (hp : s.program (s.running core) = .store :: p) :
    Locked boot (s.put (s.running core) p { s.shared with g_lock := 0 }) none ms where
  locking := .inl hs
  stage := h.put_stage (.after hafter)
  idle := h.put_idle
  holding x := by
    by_cases hx : x = s.running core
    · simp [hx, hafter.not_holding]
    · have hout : ¬ Holding (s.program x) := fun hp =>
        hx (Option.some_inj.mp ((h.holding x).mp hp)).symm
      simp [System.put_program_of_ne s hx, hout]
  lock := rfl
  output := by
    have houtput := h.output
    simp only [unsaid, hp, pending_store, pending_after _ hafter, List.append_nil] at houtput
    simpa [unsaid] using houtput
  last := nofun
  ticks c := by
    obtain ⟨k, hk, hsettled⟩ := h.ticks c
    have hcount : p.count .tick = 0 := List.count_eq_zero.mpr fun hmem => hafter .tick hmem
    refine ⟨k, hk, ?_⟩
    simpa [settled, hp, hcount] using hsettled

/-- A handler may begin or return. -/
theorem Locked.of_shared {s' : System} (h : Locked boot s holder ms)
    (hs : s.shared.g_locking = true) (hshared : s'.shared = s.shared)
    (hprogram : ∀ x, s'.program x = s.program x ∨
      ¬ Holding (s.program x) ∧ Before x.core (s'.program x))
    (hidle : ∀ core, s'.inIsr core = false → s'.program (.isr core) = []) :
    Locked boot s' holder ms := by
  have hholder : ∀ x, holder = some x → s'.program x = s.program x := fun x hx =>
    (hprogram x).resolve_right fun hp => hp.1 ((h.holding x).mpr hx)
  have hunsaid : unsaid s' holder = unsaid s holder := by
    cases holder with
    | none => rfl
    | some x => simp [unsaid, hshared, hholder x rfl]
  have hsettled : ∀ c, settled s' c holder = settled s c holder := fun c => by
    cases holder with
    | none => simp [settled, hshared]
    | some x => simp [settled, hshared, hholder x rfl]
  exact {
    locking := .inl (by rw [hshared, hs])
    stage := fun x => by
      rcases hprogram x with hsame | ⟨-, hbefore⟩
      · rw [hsame]
        exact h.stage x
      · exact .before hbefore
    idle := hidle
    holding := fun x => by
      rcases hprogram x with hsame | ⟨hout, hbefore⟩
      · rw [hsame]
        exact h.holding x
      · rw [← h.holding x]
        exact iff_of_false (fun hp => hp.2 hbefore.exchange_mem) hout
    lock := by rw [hshared, h.lock]
    output := by rw [hshared, hunsaid, h.output]
    last := fun x hx => by
      rw [hunsaid]
      exact h.last x hx
    ticks := fun c => by
      rw [hsettled]
      exact h.ticks c }

theorem Locked.interrupt (h : Locked boot s holder ms) (hs : s.shared.g_locking = true)
    (core : Core) :
    Locked boot (s.step (.interrupt core)) holder ms := by
  simp only [System.step]
  split
  case isFalse => exact h
  case isTrue htakes =>
    refine h.of_shared hs rfl (fun x => ?_) fun c hc => ?_
    · by_cases hx : x = .isr core
      · subst hx
        right
        simp only [h.idle core htakes.2, Function.update_self]
        exact ⟨by decide, before_timerIsr core⟩
      · exact .inl (Function.update_of_ne hx _ _)
    · by_cases hcore : c = core
      · subst hcore
        simp at hc
      · have hne : Context.isr c ≠ .isr core := by simp [hcore]
        simp only [Function.update_of_ne hcore] at hc
        simp only [Function.update_of_ne hne]
        exact h.idle c hc

/-- A handler at its end returns. -/
theorem Locked.finish (h : Locked boot s holder ms) (hs : s.shared.g_locking = true)
    (hp : s.program (s.running core) = []) :
    Locked boot (s.step (.run core)) holder ms := by
  rw [System.step_run_nil hp]
  refine h.of_shared hs rfl (fun x => .inl rfl) fun c hc => ?_
  by_cases hidle : s.inIsr c = false
  · exact h.idle c hidle
  · have hcore : c = core := by
      by_contra hne
      simp only [Function.update_of_ne hne] at hc
      exact hidle hc
    subst hcore
    simpa [System.running, hidle] using hp

theorem Locked.step_enabled (h : Locked boot s holder ms) (hs : s.shared.g_locking = true)
    (e : Event) : ∃ holder' ms', Locked boot (s.step e) holder' ms' := by
  cases e with
  | interrupt core => exact ⟨holder, ms, h.interrupt hs core⟩
  | run core =>
    cases hp : s.program (s.running core) with
    | nil => exact ⟨holder, ms, h.finish hs hp⟩
    | cons a p =>
      have hstage := h.stage (s.running core)
      have hlock : s.shared.g_lock = 0 ∨ s.shared.g_lock = 1 := by
        rw [h.lock]
        split <;> simp
      rw [hp, System.running_core] at hstage
      rw [System.step_run_cons hp]
      rcases hstage.step_cases hs hlock with
        hadvance | ⟨rfl, hfree, hinside, hprints⟩ | ⟨rfl, hafter⟩
      · exact ⟨holder, ms, h.advance (hp ▸ hadvance)⟩
      · have hnone : holder = none := by
          have hl := h.lock
          rw [hfree] at hl
          cases holder with
          | none => rfl
          | some x => simp at hl
        subst hnone
        obtain ⟨m, hm⟩ := h.acquire hs hinside hprints
        simp only [exec, if_pos hfree]
        exact ⟨_, _, hm⟩
      · have hholder : holder = some (s.running core) := by
          rw [← h.holding, hp]
          exact (Inside.store hafter).holding
        subst hholder
        exact ⟨none, ms, h.free hs hafter hp⟩

/-- Until core 0 enables the lock nothing moves: no secondary is released, no interrupt is
unmasked. -/
theorem start_step {e : Event} (he : e ≠ .run 0) :
    (System.start boot).step e = System.start boot := by
  cases e with
  | interrupt core => rfl
  | run core =>
    have hcore : core ≠ 0 := fun h => he (congrArg Event.run h)
    have hprogram : (System.start boot).program ((System.start boot).running core) =
        .park :: ksecondary core := if_neg hcore
    rw [System.step_run_cons hprogram, System.put]
    congr 1
    exact Function.update_eq_self_iff.mpr hprogram.symm

theorem Locked.step (h : Locked boot s holder ms) (e : Event) :
    ∃ holder' ms', Locked boot (s.step e) holder' ms' := by
  rcases h.locking with hs | rfl
  · exact h.step_enabled hs e
  · refine ⟨holder, ms, ?_⟩
    by_cases he : e = .run 0
    · obtain ⟨p, hkmain, hp⟩ := kmain_eq
      have hprogram : (System.start boot).program ((System.start boot).running 0) =
          .enableLocking :: p := hkmain
      rw [he, System.step_run_cons hprogram]
      refine h.advance ?_
      rw [hprogram]
      exact .skip trivial (.before hp) rfl rfl rfl rfl
    · rw [start_step he]
      exact h

/-! ## Runs -/

theorem before_start (boot : List Char) (x : Context) :
    Before x.core ((System.start boot).program x) ∨ (System.start boot).program x = [] := by
  cases x with
  | isr core => exact .inr rfl
  | main core =>
    left
    by_cases hcore : core = 0
    · obtain ⟨p, hkmain, hp⟩ := kmain_eq
      simp only [System.start, hkmain, hcore]
      exact .quiet trivial hp
    · simp only [System.start, if_neg hcore]
      exact before_ksecondary core

theorem locked_start (boot : List Char) : Locked boot (System.start boot) none [] where
  locking := .inr rfl
  stage x := by
    rcases before_start boot x with hbefore | hnil
    · exact .before hbefore
    · exact .after (hnil ▸ nofun)
  idle _ _ := rfl
  holding x := by
    refine iff_of_false (fun hx => ?_) nofun
    rcases before_start boot x with hbefore | hnil
    · exact hx.2 hbefore.exchange_mem
    · rw [hnil] at hx
      exact absurd hx (by decide)
  lock := rfl
  output := by simp [System.start, unsaid]
  last := nofun
  ticks _ := ⟨0, rfl, rfl⟩

theorem locked_run (boot : List Char) (events : List Event) :
    ∃ holder ms, Locked boot ((System.start boot).run events) holder ms := by
  induction events using List.reverseRecOn with
  | nil => exact ⟨none, [], locked_start boot⟩
  | append_singleton events e ih =>
    obtain ⟨holder, ms, h⟩ := ih
    rw [System.run_concat]
    exact h.step e

end Locked

/-! ## Exclusion -/

/-- In `uart_unlock`, the store still ahead. -/
def Unlocking (p : List Action) : Prop :=
  ∃ rest, p = .readLocking :: .store :: rest ∨ p = .store :: rest

/-- What the lock gives: one context inside at a time, released by that context only, and an
output of whole messages, the last of which the context inside may still be printing. -/
structure Exclusive (boot : List Char) (s : System) : Prop where
  one : ∀ x y, Holding (s.program x) → Holding (s.program y) → x = y
  held : s.shared.g_lock = 1 ↔ ∃ x, Holding (s.program x)
  free : s.shared.g_lock = 0 ↔ ∀ x, ¬ Holding (s.program x)
  unlock : ∀ x, Unlocking (s.program x) → Holding (s.program x)
  messages : ∃ ms, (∀ core, ∃ k, tickNumbers core ms = firstNumbers k) ∧
    (s.shared.output = boot ++ ms.flatMap Message.text ∨
      ∃ x done m said, Holding (s.program x) ∧ ms = done ++ [m] ∧ m.core = x.core ∧
        said <+: m.text ∧ s.shared.output = boot ++ done.flatMap Message.text ++ said)

/-- No program reaches `uart_unlock` but through the exchange. -/
theorem Unlocking.holding {core : Core} {p : List Action} (hp : Unlocking p) (h : Stage core p) :
    Holding p := by
  rcases h with hbefore | hinside | hafter
  · obtain ⟨rest, rfl | rfl⟩ := hp
    · cases hbefore with
      | quiet ha => exact ha.elim
    · cases hbefore with
      | quiet ha => exact ha.elim
  · exact hinside.holding
  · obtain ⟨rest, rfl | rfl⟩ := hp
    · exact (hafter .store (by simp)).elim
    · exact (hafter .store (by simp)).elim

theorem Locked.excludes {boot : List Char} {s : System} {holder : Option Context}
    {ms : List Message} (h : Locked boot s holder ms) : Exclusive boot s where
  one x y hx hy := Option.some_inj.mp (((h.holding x).mp hx).symm.trans ((h.holding y).mp hy))
  held := by
    rw [h.lock]
    simp only [h.holding]
    cases holder <;> simp
  free := by
    rw [h.lock]
    simp only [h.holding]
    cases holder <;> simp
  unlock x hx := hx.holding (h.stage x)
  messages := by
    refine ⟨ms, fun core => (h.ticks core).imp fun k hk => hk.1, ?_⟩
    have houtput := h.output
    cases holder with
    | none => exact .inl (by simpa [unsaid] using houtput)
    | some x =>
      obtain ⟨done, m, hms, hcore, said, hsaid⟩ := h.last x rfl
      refine .inr ⟨x, done, m, said, (h.holding x).mpr rfl, hms, hcore, ⟨_, hsaid⟩, ?_⟩
      rw [hms, List.flatMap_append, List.flatMap_singleton, ← hsaid, ← List.append_assoc,
        ← List.append_assoc] at houtput
      exact List.append_cancel_right houtput

/-- Every schedule of the four cores and their timers, from `uart_enable_lock` on, keeps the
console exclusive. -/
theorem exclusive (boot : List Char) (events : List Event) :
    Exclusive boot ((System.start boot).run events) := by
  obtain ⟨holder, ms, h⟩ := locked_run boot events
  exact h.excludes

end Bcm2837.Console
