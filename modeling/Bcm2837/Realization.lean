import Bcm2837.Loops

/-!
# Commands that take work

What a program does to its surroundings can itself take a program, one that loops until the
hardware is ready, say. A realizer relates each command to its answers and the states it may
leave. A program run by a realizer does what it does with a handler, seen through an
abstraction, when the commands do.
-/

universe u v w x y

namespace Prog

variable {Cmd : Type u} {Ans : Cmd → Type v} {α β : Type w} {σ : Type x} {τ : Type y}

/-- How commands are carried out: the answers they may give and the states they may leave. -/
abbrev Realizer (Cmd : Type u) (Ans : Cmd → Type v) (σ : Type x) :=
  (c : Cmd) → σ → Ans c → σ → Prop

inductive Runs (R : Realizer Cmd Ans σ) : Prog Cmd Ans α → σ → α → σ → Prop
  | ret (a : α) (s : σ) : Runs R (ret a) s a s
  | call {c : Cmd} {k : Ans c → Prog Cmd Ans α} {a : Ans c} {b : α} {s t r : σ} (hc : R c s a t)
      (hk : Runs R (k a) t b r) : Runs R (call c k) s b r

/-- A loop whose rounds are carried out by the realizer. -/
inductive LeavesBy (R : Realizer Cmd Ans σ) (body : α → Prog Cmd Ans (α ⊕ β)) :
    α → σ → β → σ → Prop
  | exit {a : α} {b : β} {s t : σ} (hb : Runs R (body a) s (.inr b) t) : LeavesBy R body a s b t
  | again {a a' : α} {b : β} {s t r : σ} (hb : Runs R (body a) s (.inl a') t)
      (hl : LeavesBy R body a' t b r) : LeavesBy R body a s b r

/-- Whatever answers a command, the handler answers the same. -/
def Realizes (R : Realizer Cmd Ans σ) (h : Handler Cmd Ans τ) (Abs : σ → τ → Prop) : Prop :=
  ∀ c s w a t, Abs s w → R c s a t → a = (h c w).1 ∧ Abs t (h c w).2

/-- What the handler answers to a command is an answer to it. -/
def Completes (R : Realizer Cmd Ans σ) (h : Handler Cmd Ans τ) (Abs : σ → τ → Prop) : Prop :=
  ∀ c s w, Abs s w → ∃ t, R c s (h c w).1 t ∧ Abs t (h c w).2

section Realizers

variable {R : Realizer Cmd Ans σ} {h : Handler Cmd Ans τ} {Abs : σ → τ → Prop}

theorem Runs.realizes (hR : Realizes R h Abs) {p : Prog Cmd Ans α} {s t : σ} {a : α}
    (hp : Runs R p s a t) {w : τ} (hs : Abs s w) : a = (run h p w).1 ∧ Abs t (run h p w).2 := by
  induction hp generalizing w with
  | ret a s => exact ⟨rfl, hs⟩
  | call hc hk ih =>
    obtain ⟨rfl, ht⟩ := hR _ _ _ _ _ hs hc
    exact ih ht

theorem runs_of_completes (hR : Completes R h Abs) (p : Prog Cmd Ans α) {s : σ} {w : τ}
    (hs : Abs s w) : ∃ t, Runs R p s (run h p w).1 t ∧ Abs t (run h p w).2 := by
  induction p generalizing s w with
  | ret a => exact ⟨s, .ret a s, hs⟩
  | call c k ih =>
    obtain ⟨t, hc, ht⟩ := hR c s w hs
    obtain ⟨r, hk, hr⟩ := ih _ ht
    exact ⟨r, .call hc hk, hr⟩

variable {body : α → Prog Cmd Ans (α ⊕ β)} {a : α} {b : β} {s t : σ} {w : τ}

/-- A loop that leaves, leaves as it does with the handler. -/
theorem LeavesBy.realizes (hR : Realizes R h Abs) (hl : LeavesBy R body a s b t)
    (hs : Abs s w) : ∃ n H w', Leaves h body n a w H b w' ∧ Abs t w' := by
  induction hl generalizing w with
  | exit hb =>
    obtain ⟨hanswer, ht⟩ := hb.realizes hR hs
    exact ⟨1, _, _, .exit hanswer.symm, ht⟩
  | again hb _ ih =>
    obtain ⟨hanswer, ht⟩ := hb.realizes hR hs
    obtain ⟨n, H, w', hl', hend⟩ := ih ht
    exact ⟨n + 1, _, w', .again hanswer.symm hl', hend⟩

/-- A loop that leaves with the handler leaves. -/
theorem Leaves.completes (hR : Completes R h Abs) {n : ℕ} {w' : τ} {H : List (Cmd × τ)}
    (hl : Leaves h body n a w H b w') (hs : Abs s w) :
    ∃ t, LeavesBy R body a s b t ∧ Abs t w' := by
  induction hl generalizing s with
  | @exit a w b hb =>
    obtain ⟨t, hrun, ht⟩ := runs_of_completes hR (body a) hs
    rw [hb] at hrun
    exact ⟨t, .exit hrun, ht⟩
  | @again n a a' w w' H b hb hl ih =>
    obtain ⟨t, hrun, ht⟩ := runs_of_completes hR (body a) hs
    rw [hb] at hrun
    obtain ⟨r, hrest, hr⟩ := ih ht
    exact ⟨r, .again hrun hrest, hr⟩

end Realizers

end Prog
