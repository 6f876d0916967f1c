import Mathlib.Data.Stream.Init
import Bcm2837.Program

/-!
# Programs next to an autonomous environment

The environment takes steps of its own, any number of them before each command; a
schedule says how many. Assertions that the environment keeps can be reasoned with as if
it stood still, so the rules for a program look like those without it, with one
stability condition for each command.
-/

universe u v w x

namespace Prog

variable {Cmd : Type u} {Ans : Cmd → Type v} {α β : Type w} {σ : Type x}

/-- Before each command, the environment takes as many steps as the schedule says. -/
def interleave (env : σ → σ) (h : Handler Cmd Ans σ) : Handler Cmd Ans (σ × Stream' ℕ) :=
  fun c s => ((h c (env^[s.2.head] s.1)).1, (h c (env^[s.2.head] s.1)).2, s.2.tail)

/-- The environment keeps the assertion. -/
def Stable (env : σ → σ) (P : σ → Prop) : Prop := ∀ s, P s → P (env s)

theorem Stable.iterate {env : σ → σ} {P : σ → Prop} (hP : Stable env P) (n : ℕ) {s : σ} (hs : P s) :
    P (env^[n] s) := by
  induction n generalizing s with
  | zero => exact hs
  | succ n ih => exact ih (hP s hs)

/-- `G` holds whenever a command is issued, however far the environment has gone. -/
def Always (env : σ → σ) (G : σ → Prop) (_ : σ × Stream' ℕ)
    (H : List (Cmd × (σ × Stream' ℕ))) (_ : σ × Stream' ℕ) : Prop :=
  ∀ e ∈ H, ∀ n, G (env^[n] e.2.1)

theorem sequential_always (env : σ → σ) (G : σ → Prop) :
    Sequential (@Always Cmd σ env G) where
  idle _ := fun _ he => absurd he List.not_mem_nil
  trans h₁ h₂ := by
    intro e he
    rcases List.mem_append.mp he with he | he
    · exact h₁ e he
    · exact h₂ e he

/-- From `P`, the program next to the environment answers and ends in `Q`, with `G`
throughout. -/
abbrev Safe (env : σ → σ) (h : Handler Cmd Ans σ) (G P : σ → Prop) (p : Prog Cmd Ans α)
    (Q : α → σ → Prop) : Prop :=
  Triple (interleave env h) (Always env G) (fun s => P s.1) p fun a s => Q a s.1

section Safe

variable {env : σ → σ} {h : Handler Cmd Ans σ} {G P : σ → Prop}

/-- One command, from an assertion that the environment keeps. -/
theorem Safe.call {c : Cmd} {k : Ans c → Prog Cmd Ans α} {R : Ans c → σ → Prop}
    {Q : α → σ → Prop} (hP : Stable env P) (hG : ∀ s, P s → G s)
    (hc : ∀ s, P s → R (h c s).1 (h c s).2) (hk : ∀ a, Safe env h G (R a) (k a) Q) :
    Safe env h G P (Prog.call c k) Q := by
  intro s hs
  have hmid := hP.iterate s.2.head hs
  have hrest := hk (h c (env^[s.2.head] s.1)).1 ((h c (env^[s.2.head] s.1)).2, s.2.tail)
    (hc _ hmid)
  refine ⟨hrest.1, fun e he n => ?_⟩
  rcases List.mem_cons.mp he with rfl | he
  · exact hG _ (hP.iterate n hs)
  · exact hrest.2 e he n

/-- The last command of a program. -/
theorem Safe.command {c : Cmd} {Q : Ans c → σ → Prop} (hP : Stable env P) (hG : ∀ s, P s → G s)
    (hc : ∀ s, P s → Q (h c s).1 (h c s).2) :
    Triple (interleave env h) (Always env G) (fun s => P s.1) (Prog.call c Prog.ret)
      fun a s => Q a s.1 :=
  Safe.call hP hG hc fun _ => Triple.pure (sequential_always env G) fun _ hs => hs

/-- A run during which the environment has nothing to do is the run without it. -/
theorem run_interleave_of_fixed (p : Prog Cmd Ans α) (s : σ) (sched : Stream' ℕ)
    (hfixed : ∀ e ∈ history h p s, env e.2 = e.2) :
    (∃ sched', run (interleave env h) p (s, sched) = ((run h p s).1, (run h p s).2, sched')) ∧
      ∀ e ∈ history (interleave env h) p (s, sched), ∃ e' ∈ history h p s, e.2.1 = e'.2 := by
  induction p generalizing s sched with
  | ret a => exact ⟨⟨sched, rfl⟩, fun e he => absurd he List.not_mem_nil⟩
  | call c k ih =>
    have hs : env^[sched.head] s = s :=
      Function.iterate_fixed (hfixed (c, s) List.mem_cons_self) sched.head
    obtain ⟨⟨sched', hrun⟩, hhist⟩ := ih (h c s).1 (h c s).2 sched.tail
      fun e he => hfixed e (List.mem_cons_of_mem _ he)
    have hstep : interleave env h c (s, sched) = ((h c s).1, (h c s).2, sched.tail) := by
      rw [interleave, hs]
    refine ⟨⟨sched', ?_⟩, ?_⟩
    · rw [run, hstep]
      exact hrun
    · intro e he
      rw [history, hstep] at he
      rcases List.mem_cons.mp he with rfl | he
      · exact ⟨(c, s), List.mem_cons_self, rfl⟩
      · obtain ⟨e', he', heq⟩ := hhist e he
        exact ⟨e', List.mem_cons_of_mem _ he', heq⟩

/-- A program during which the environment has nothing to do, by its own runs. -/
theorem Safe.of_run {p : Prog Cmd Ans α} {Q : α → σ → Prop}
    (hp : ∀ s, P s → (∀ e ∈ history h p s, env e.2 = e.2 ∧ G e.2) ∧
      Q (run h p s).1 (run h p s).2) : Safe env h G P p Q := by
  intro s hs
  obtain ⟨hall, hQ⟩ := hp s.1 hs
  have hfixed : ∀ e ∈ history h p s.1, env e.2 = e.2 := fun e he => (hall e he).1
  obtain ⟨⟨sched', hrun⟩, hhist⟩ := run_interleave_of_fixed p s.1 s.2 hfixed
  refine ⟨?_, fun e he n => ?_⟩
  · rw [hrun]
    exact hQ
  · obtain ⟨e', he', heq⟩ := hhist e he
    rw [heq, Function.iterate_fixed (hall e' he').1 n]
    exact (hall e' he').2

end Safe

end Prog
