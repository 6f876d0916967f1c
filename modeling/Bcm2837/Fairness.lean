import Mathlib.Order.Lattice.Nat
import Bcm2837.Interleaving

/-!
# Schedules that keep the environment moving

A schedule is fair when the environment gets a step within any `q` commands in a row. For an
environment whose steps lower a measure until they change nothing any more, `rest` bounds the
commands it still takes: no command raises it, and one that finds the environment on the
move lowers it.
-/

universe u v w x

namespace Prog

variable {Cmd : Type u} {Ans : Cmd → Type v} {α : Type w} {σ : Type x}

def Fair (q : ℕ) (sched : Stream' ℕ) : Prop := ∀ n, ∃ k < q, sched.get (n + k) ≠ 0

/-- Commands before the environment's next step. -/
noncomputable def lead (sched : Stream' ℕ) : ℕ := sInf {k | sched.get k ≠ 0}

section Fair

variable {q : ℕ} {sched : Stream' ℕ}

theorem Fair.tail (h : Fair q sched) : Fair q sched.tail := by
  intro n
  obtain ⟨k, hk, hstep⟩ := h (n + 1)
  refine ⟨k, hk, ?_⟩
  rwa [Nat.add_right_comm] at hstep

theorem Fair.const {n : ℕ} (hq : 0 < q) (hn : n ≠ 0) : Fair q (Stream'.const n) :=
  fun _ => ⟨0, hq, hn⟩

/-- A program leaves a fair schedule fair. -/
theorem Fair.run {env : σ → σ} {h : Handler Cmd Ans σ} (p : Prog Cmd Ans α)
    {s : σ × Stream' ℕ} (hs : Fair q s.2) : Fair q (p.run (interleave env h) s).2.2 := by
  induction p generalizing s with
  | ret a => exact hs
  | call c k ih => exact ih _ hs.tail

theorem Fair.lead_lt (h : Fair q sched) : lead sched < q := by
  obtain ⟨k, hk, hstep⟩ := h 0
  rw [Nat.zero_add] at hstep
  exact (Nat.sInf_le hstep).trans_lt hk

theorem Fair.lead_of_wait (hfair : Fair q sched) (h : sched.head = 0) :
    lead sched = lead sched.tail + 1 := by
  have hmem {t : Stream' ℕ} (ht : Fair q t) : t.get (lead t) ≠ 0 := by
    obtain ⟨k, -, hstep⟩ := ht 0
    exact Nat.sInf_mem (s := {k | t.get k ≠ 0}) ⟨0 + k, hstep⟩
  apply Nat.le_antisymm
  · exact Nat.sInf_le (hmem hfair.tail)
  · -- the first step of the schedule is one of its tail
    obtain ⟨k, hk⟩ : ∃ k, lead sched = k + 1 := by
      refine Nat.exists_eq_succ_of_ne_zero fun hzero => ?_
      have hstep := hmem hfair
      rw [hzero] at hstep
      exact hstep h
    have hstep := hmem hfair
    rw [hk] at hstep ⊢
    exact Nat.succ_le_succ (Nat.sInf_le hstep)

end Fair

/-- The environment's steps lower the measure as long as they change anything. -/
structure Falls (env : σ → σ) (I : σ → Prop) (work : σ → ℕ) : Prop where
  stable : Stable env I
  step : ∀ s, I s → env s = s ∨ work (env s) < work s

open Classical in
/-- Commands that the environment may still take: `q` for each unit of the measure, and those
before its next step. One that has nothing to do is given the longest wait. -/
noncomputable def rest (env : σ → σ) (q : ℕ) (work : σ → ℕ) (s : σ) (sched : Stream' ℕ) : ℕ :=
  q * work s + if env s = s then q else lead sched

section Rest

variable {env : σ → σ} {I : σ → Prop} {work : σ → ℕ} {q : ℕ} {s : σ} {sched : Stream' ℕ}

theorem le_rest : q * work s ≤ rest env q work s sched := Nat.le_add_right _ _

theorem rest_le (hfair : Fair q sched) : rest env q work s sched ≤ q * work s + q := by
  have hlead := hfair.lead_lt
  unfold rest
  split_ifs <;> omega

theorem Falls.work_le (h : Falls env I work) (n : ℕ) (hs : I s) :
    work (env^[n] s) ≤ work s := by
  induction n generalizing s with
  | zero => exact Nat.le_refl _
  | succ n ih =>
    refine (ih (h.stable s hs)).trans ?_
    rcases h.step s hs with hidle | hless
    · rw [hidle]
    · exact hless.le

/-- Either no step has changed anything, or work has been done. -/
theorem Falls.iterate (h : Falls env I work) (n : ℕ) (hs : I s) :
    (env^[n] s = s ∧ (n = 0 ∨ env s = s)) ∨ work (env^[n] s) < work s := by
  rcases h.step s hs with hidle | hless
  · exact .inl ⟨Function.iterate_fixed hidle n, .inr hidle⟩
  · cases n with
    | zero => exact .inl ⟨rfl, .inl rfl⟩
    | succ n => exact .inr ((h.work_le n (h.stable s hs)).trans_lt hless)

/-- What the environment does before a command leaves it no more to do. -/
theorem Falls.rest_le (h : Falls env I work) (hfair : Fair q sched) (hs : I s) :
    rest env q work (env^[sched.head] s) sched.tail ≤ rest env q work s sched := by
  rcases h.iterate sched.head hs with ⟨hsame, hwhy⟩ | hfallen
  · rw [hsame]
    unfold rest
    split_ifs with hidle
    · exact Nat.le_refl _
    · have hwait := hfair.lead_of_wait (hwhy.resolve_right hidle)
      omega
  · calc rest env q work (env^[sched.head] s) sched.tail
        ≤ q * work (env^[sched.head] s) + q := Prog.rest_le hfair.tail
      _ = q * (work (env^[sched.head] s) + 1) := (Nat.mul_succ _ _).symm
      _ ≤ q * work s := Nat.mul_le_mul_left q hfallen
      _ ≤ rest env q work s sched := le_rest

/-- A command that finds the environment on the move brings it nearer to its end. -/
theorem Falls.rest_lt (h : Falls env I work) (hfair : Fair q sched) (hs : I s)
    (hmoves : env (env^[sched.head] s) ≠ env^[sched.head] s) :
    rest env q work (env^[sched.head] s) sched.tail < rest env q work s sched := by
  rcases h.iterate sched.head hs with ⟨hsame, hwhy⟩ | hfallen
  · rw [hsame] at hmoves ⊢
    have hwait := hfair.lead_of_wait (hwhy.resolve_right hmoves)
    unfold rest
    rw [if_neg hmoves, if_neg hmoves]
    omega
  · calc rest env q work (env^[sched.head] s) sched.tail
        = q * work (env^[sched.head] s) + lead sched.tail := by rw [rest, if_neg hmoves]
      _ < q * work (env^[sched.head] s) + q := Nat.add_lt_add_left hfair.tail.lead_lt _
      _ = q * (work (env^[sched.head] s) + 1) := (Nat.mul_succ _ _).symm
      _ ≤ q * work s := Nat.mul_le_mul_left q hfallen
      _ ≤ rest env q work s sched := le_rest

end Rest

end Prog
