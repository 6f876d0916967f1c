import Bcm2837.Program

/-!
# Loops without a bound

The body of a loop answers with the point to go on from or with the result to leave with.
Whether the loop comes to an end depends on the environment, so a loop is no program but
a relation; a rank that falls from round to round shows that it does.
-/

universe u v w x y

namespace Prog

variable {Cmd : Type u} {Ans : Cmd → Type v} {α β : Type w} {σ : Type x}

/-- Entered at `a` in state `s`, the loop leaves with `b` in state `t` after `n` rounds,
and `H` is what it issued on the way. -/
inductive Leaves (h : Handler Cmd Ans σ) (body : α → Prog Cmd Ans (α ⊕ β)) :
    ℕ → α → σ → List (Cmd × σ) → β → σ → Prop
  | exit {a : α} {s : σ} {b : β} (hb : ((body a).run h s).1 = .inr b) :
      Leaves h body 1 a s ((body a).history h s) b ((body a).run h s).2
  | again {n : ℕ} {a a' : α} {s t : σ} {H : List (Cmd × σ)} {b : β}
      (hb : ((body a).run h s).1 = .inl a')
      (hl : Leaves h body n a' ((body a).run h s).2 H b t) :
      Leaves h body (n + 1) a s ((body a).history h s ++ H) b t

section Rules

variable {h : Handler Cmd Ans σ} {body : α → Prog Cmd Ans (α ⊕ β)} {I : α → σ → Prop}

/-- The environment leaves one way through a loop. -/
theorem Leaves.unique {n m : ℕ} {a : α} {s t t' : σ} {H H' : List (Cmd × σ)} {b b' : β}
    (hl : Leaves h body n a s H b t) (hl' : Leaves h body m a s H' b' t') :
    n = m ∧ H = H' ∧ b = b' ∧ t = t' := by
  induction hl generalizing m H' b' t' with
  | exit hb =>
    cases hl' with
    | exit hb' => exact ⟨rfl, rfl, Sum.inr.inj (hb.symm.trans hb'), rfl⟩
    | again hb' _ => rw [hb] at hb'; cases hb'
  | again hb _ ih =>
    cases hl' with
    | exit hb' => rw [hb] at hb'; cases hb'
    | again hb' hrest =>
      rw [hb] at hb'
      cases hb'
      obtain ⟨rfl, rfl, rfl, rfl⟩ := ih hrest
      exact ⟨rfl, rfl, rfl, rfl⟩

/-- A loop with a rank that falls leaves. -/
theorem leaves_of_rank {γ : Type y} {r : γ → γ → Prop} (hr : WellFounded r) (rank : α → σ → γ)
    (hagain : ∀ a s a', I a s → ((body a).run h s).1 = .inl a' →
      I a' ((body a).run h s).2 ∧ r (rank a' ((body a).run h s).2) (rank a s))
    {a : α} {s : σ} (ha : I a s) : ∃ n H b t, Leaves h body n a s H b t := by
  induction hk : rank a s using hr.induction generalizing a s with
  | _ k ih =>
    cases hb : ((body a).run h s).1 with
    | inr b => exact ⟨1, _, b, _, .exit hb⟩
    | inl a' =>
      obtain ⟨hI, hlt⟩ := hagain a s a' ha hb
      obtain ⟨n, H, b, t, hl⟩ := ih _ (hk ▸ hlt) hI rfl
      exact ⟨n + 1, _, b, t, .again hb hl⟩

/-- A rank in the numbers bounds the rounds. -/
theorem Leaves.rounds_le (rank : α → σ → ℕ)
    (hagain : ∀ a s a', I a s → ((body a).run h s).1 = .inl a' →
      I a' ((body a).run h s).2 ∧ rank a' ((body a).run h s).2 < rank a s)
    {n : ℕ} {a : α} {s t : σ} {H : List (Cmd × σ)} {b : β} (hl : Leaves h body n a s H b t)
    (ha : I a s) : n ≤ rank a s + 1 := by
  induction hl with
  | exit hb => omega
  | again hb _ ih =>
    obtain ⟨hI, hlt⟩ := hagain _ _ _ ha hb
    have := ih hI
    omega

/-- What every round keeps, the loop keeps. -/
theorem Leaves.keeps {R : σ → List (Cmd × σ) → σ → Prop} (hR : Sequential R)
    (hround : ∀ a s, I a s → R s ((body a).history h s) ((body a).run h s).2)
    (hagain : ∀ a s a', I a s → ((body a).run h s).1 = .inl a' → I a' ((body a).run h s).2)
    {n : ℕ} {a : α} {s t : σ} {H : List (Cmd × σ)} {b : β} (hl : Leaves h body n a s H b t)
    (ha : I a s) : R s H t := by
  induction hl with
  | exit hb => exact hround _ _ ha
  | again hb _ ih => exact hR.trans (hround _ _ ha) (ih (hagain _ _ _ ha hb))

end Rules

end Prog
