import Mathlib.Data.List.TakeWhile
import Mathlib.Logic.Function.Iterate
import Mathlib.Tactic

/-!
# Programs over an interface of commands

A program issues commands and continues on the answers it is given. What a
command does belongs to the environment, a `Handler`, so one program can be run
against plain storage, against a device with side effects, or against scripted
answers. `history` lists the commands of a run with the states in which they were
issued; statements about what a run does to its surroundings are read off it.
-/

universe u v w x

/-- A program over the commands `Cmd`, where command `c` is answered in `Ans c`. -/
inductive Prog (Cmd : Type u) (Ans : Cmd → Type v) (α : Type w) : Type (max u v w)
  | ret (a : α) : Prog Cmd Ans α
  | call (c : Cmd) (k : Ans c → Prog Cmd Ans α) : Prog Cmd Ans α

namespace Prog

variable {Cmd : Type u} {Ans : Cmd → Type v} {α β γ : Type w} {σ : Type x}

protected def bind : Prog Cmd Ans α → (α → Prog Cmd Ans β) → Prog Cmd Ans β
  | ret a, f => f a
  | call c k, f => call c fun a => (k a).bind f

instance : Monad (Prog Cmd Ans) where
  pure := ret
  bind := Prog.bind

@[simp] theorem ret_bind (a : α) (f : α → Prog Cmd Ans β) : (ret a >>= f) = f a := rfl

@[simp] theorem call_bind (c : Cmd) (k : Ans c → Prog Cmd Ans α) (f : α → Prog Cmd Ans β) :
    (call c k >>= f) = call c fun a => k a >>= f := rfl

protected theorem id_map (p : Prog Cmd Ans α) : id <$> p = p := by
  induction p with
  | ret a => rfl
  | call c k ih => exact congrArg (call c) (funext ih)

protected theorem bind_assoc (p : Prog Cmd Ans α) (f : α → Prog Cmd Ans β)
    (g : β → Prog Cmd Ans γ) : p >>= f >>= g = p >>= fun a => f a >>= g := by
  induction p with
  | ret a => rfl
  | call c k ih => exact congrArg (call c) (funext ih)

instance : LawfulMonad (Prog Cmd Ans) :=
  LawfulMonad.mk' _ Prog.id_map (fun _ _ => rfl) Prog.bind_assoc

/-- Issue one command and return its answer. -/
def issue (c : Cmd) : Prog Cmd Ans (Ans c) := call c ret

/-- `times n p` is `p` run `n` times in a row. -/
def times (p : Prog Cmd Ans PUnit) : ℕ → Prog Cmd Ans PUnit
  | 0 => pure ⟨⟩
  | n + 1 => p >>= fun _ => p.times n

/-- `weave isr p` runs `isr` before each command of `p`. -/
def weave (isr : Prog Cmd Ans PUnit) : Prog Cmd Ans α → Prog Cmd Ans α
  | ret a => ret a
  | call c k => isr >>= fun _ => call c fun a => weave isr (k a)

@[simp] theorem weave_pure (isr : Prog Cmd Ans PUnit) (a : α) :
    weave isr (pure a : Prog Cmd Ans α) = pure a := rfl

theorem weave_bind (isr : Prog Cmd Ans PUnit) (p : Prog Cmd Ans α) (f : α → Prog Cmd Ans β) :
    weave isr (p >>= f) = weave isr p >>= fun a => weave isr (f a) := by
  induction p with
  | ret a => rfl
  | call c k ih => simp only [call_bind, weave, ih, bind_assoc]

/-! ## Environments and runs -/

/-- An environment answers every command and moves to its next state. -/
abbrev Handler (Cmd : Type u) (Ans : Cmd → Type v) (σ : Type x) :=
  (c : Cmd) → σ → Ans c × σ

/-- The answer of a whole run and the state it leaves. -/
def run (h : Handler Cmd Ans σ) : Prog Cmd Ans α → σ → α × σ
  | ret a, s => (a, s)
  | call c k, s => run h (k (h c s).1) (h c s).2

/-- The commands of a run in order, each with the state in which it was issued. -/
def history (h : Handler Cmd Ans σ) : Prog Cmd Ans α → σ → List (Cmd × σ)
  | ret _, _ => []
  | call c k, s => (c, s) :: history h (k (h c s).1) (h c s).2

section Runs

variable (h : Handler Cmd Ans σ) (s : σ)

@[simp] theorem run_pure (a : α) : run h (pure a) s = (a, s) := rfl

@[simp] theorem run_issue (c : Cmd) : run h (issue c) s = h c s := rfl

@[simp] theorem run_bind (p : Prog Cmd Ans α) (f : α → Prog Cmd Ans β) :
    run h (p >>= f) s = run h (f (run h p s).1) (run h p s).2 := by
  induction p generalizing s with
  | ret a => rfl
  | call c k ih => exact ih _ _

@[simp] theorem run_map (f : α → β) (p : Prog Cmd Ans α) :
    run h (f <$> p) s = (f (run h p s).1, (run h p s).2) := by
  rw [← bind_pure_comp, run_bind, run_pure]

@[simp] theorem history_pure (a : α) : history h (pure a) s = [] := rfl

@[simp] theorem history_issue (c : Cmd) : history h (issue c) s = [(c, s)] := rfl

@[simp] theorem history_bind (p : Prog Cmd Ans α) (f : α → Prog Cmd Ans β) :
    history h (p >>= f) s =
      history h p s ++ history h (f (run h p s).1) (run h p s).2 := by
  induction p generalizing s with
  | ret a => rfl
  | call c k ih => exact congrArg _ (ih _ _)

@[simp] theorem history_map (f : α → β) (p : Prog Cmd Ans α) :
    history h (f <$> p) s = history h p s := by
  rw [← bind_pure_comp, history_bind, history_pure, List.append_nil]

end Runs

/-- Two programs that the environment cannot tell apart from a state on. -/
def Alike (h : Handler Cmd Ans σ) (p q : Prog Cmd Ans α) (s : σ) : Prop :=
  run h p s = run h q s ∧ history h p s = history h q s

theorem Alike.refl {h : Handler Cmd Ans σ} (p : Prog Cmd Ans α) {s : σ} : Alike h p p s :=
  ⟨rfl, rfl⟩

/-- Programs that part only after `p`. -/
theorem Alike.bind {h : Handler Cmd Ans σ} {p : Prog Cmd Ans α} {f g : α → Prog Cmd Ans β} {s : σ}
    (hfg : Alike h (f (run h p s).1) (g (run h p s).1) (run h p s).2) :
    Alike h (p >>= f) (p >>= g) s := by
  unfold Alike
  rw [run_bind, run_bind, history_bind, history_bind, hfg.1, hfg.2]
  exact ⟨rfl, rfl⟩

/-! ## The commands a program can issue -/

/-- Every command that `p` can issue, whatever the answers, lies in `S`. -/
def Only (S : Cmd → Prop) : Prog Cmd Ans α → Prop
  | ret _ => True
  | call c k => S c ∧ ∀ a, (k a).Only S

section Only

variable {S T : Cmd → Prop}

@[simp] theorem only_pure (a : α) : (pure a : Prog Cmd Ans α).Only S := trivial

@[simp] theorem only_issue {c : Cmd} : (issue c : Prog Cmd Ans _).Only S ↔ S c := by
  simp [issue, Only]

theorem Only.bind {p : Prog Cmd Ans α} {f : α → Prog Cmd Ans β} (hp : p.Only S)
    (hf : ∀ a, (f a).Only S) : (p >>= f).Only S := by
  induction p with
  | ret a => exact hf a
  | call c k ih => exact ⟨hp.1, fun a => ih a (hp.2 a)⟩

theorem Only.mono {p : Prog Cmd Ans α} (hp : p.Only S) (hST : ∀ c, S c → T c) : p.Only T := by
  induction p with
  | ret a => trivial
  | call c k ih => exact ⟨hST c hp.1, fun a => ih a (hp.2 a)⟩

/-- A run issues only commands the program can issue. -/
theorem Only.mem_history {p : Prog Cmd Ans α} (hp : p.Only S) (h : Handler Cmd Ans σ) (s : σ) :
    ∀ e ∈ history h p s, S e.1 := by
  induction p generalizing s with
  | ret a => simp [history]
  | call c k ih =>
    intro e he
    rcases List.mem_cons.mp he with rfl | he
    · exact hp.1
    · exact ih _ (hp.2 _) _ e he

/-- What every command of `S` preserves, a program issuing only those preserves. -/
theorem Only.preserves {p : Prog Cmd Ans α} (hp : p.Only S) {h : Handler Cmd Ans σ}
    {I : σ → Prop} (hI : ∀ c, S c → ∀ s, I s → I (h c s).2) (s : σ) (hs : I s) :
    I (run h p s).2 := by
  induction p generalizing s with
  | ret a => exact hs
  | call c k ih => exact ih _ (hp.2 _) _ (hI c hp.1 s hs)

end Only

/-! ## The answers a program can give -/

/-- Every answer of `p`, whatever the environment says, lies in `Q`. -/
def Yields (Q : α → Prop) : Prog Cmd Ans α → Prop
  | ret a => Q a
  | call _ k => ∀ a, (k a).Yields Q

section Yields

variable {Q : α → Prop}

theorem yields_true (p : Prog Cmd Ans α) : p.Yields fun _ => True := by
  induction p with
  | ret a => trivial
  | call c k ih => exact ih

theorem Yields.bind {S : β → Prop} {p : Prog Cmd Ans α} {f : α → Prog Cmd Ans β}
    (hp : p.Yields Q) (hf : ∀ a, Q a → (f a).Yields S) : (p >>= f).Yields S := by
  induction p with
  | ret a => exact hf a hp
  | call c k ih => exact fun a => ih a (hp a)

theorem Yields.run {p : Prog Cmd Ans α} (hp : p.Yields Q) (h : Handler Cmd Ans σ) (s : σ) :
    Q (run h p s).1 := by
  induction p generalizing s with
  | ret a => exact hp
  | call c k ih => exact ih _ (hp _) _

end Yields

/-- The commands of a program that goes on only with answers in `Q`. -/
theorem Only.bind_of_yields {S : Cmd → Prop} {Q : α → Prop} {p : Prog Cmd Ans α}
    {f : α → Prog Cmd Ans β} (hp : p.Only S) (hQ : p.Yields Q) (hf : ∀ a, Q a → (f a).Only S) :
    (p >>= f).Only S := by
  induction p with
  | ret a => exact hf a hQ
  | call c k ih => exact ⟨hp.1, fun a => ih a (hp.2 a) (hQ a)⟩

/-! ## Relations kept by runs -/

/-- A relation between a state, the history of a run from it and the state the
run leaves, which holds of an idle run and of two runs in sequence. -/
structure Sequential (R : σ → List (Cmd × σ) → σ → Prop) : Prop where
  idle : ∀ s, R s [] s
  trans : ∀ {s t r : σ} {H K : List (Cmd × σ)}, R s H t → R t K r → R s (H ++ K) r

theorem sequential_true : Sequential fun (_ : σ) (_ : List (Cmd × σ)) (_ : σ) => True :=
  ⟨fun _ => trivial, fun _ _ => trivial⟩

theorem Sequential.and {R R' : σ → List (Cmd × σ) → σ → Prop} (hR : Sequential R)
    (hR' : Sequential R') : Sequential fun s H t => R s H t ∧ R' s H t where
  idle s := ⟨hR.idle s, hR'.idle s⟩
  trans h₁ h₂ := ⟨hR.trans h₁.1 h₂.1, hR'.trans h₁.2 h₂.2⟩

/-- Every command issued lies in `S`. -/
def Within (S : Cmd → Prop) (_ : σ) (H : List (Cmd × σ)) (_ : σ) : Prop := ∀ e ∈ H, S e.1

theorem sequential_within (S : Cmd → Prop) : Sequential (@Within Cmd σ S) where
  idle _ := fun _ he => absurd he List.not_mem_nil
  trans h₁ h₂ := by
    intro e he
    rcases List.mem_append.mp he with he | he
    · exact h₁ e he
    · exact h₂ e he

/-- Every command is issued in a state of `P`. -/
def Through (P : σ → Prop) (_ : σ) (H : List (Cmd × σ)) (_ : σ) : Prop := ∀ e ∈ H, P e.2

theorem sequential_through (P : σ → Prop) : Sequential (@Through Cmd σ P) where
  idle _ := fun _ he => absurd he List.not_mem_nil
  trans h₁ h₂ := by
    intro e he
    rcases List.mem_append.mp he with he | he
    · exact h₁ e he
    · exact h₂ e he

/-- Every command of `T` comes right after one of `S`. -/
def Follows (S T : Cmd → Prop) (_ : σ) (H : List (Cmd × σ)) (_ : σ) : Prop :=
  (∀ e ∈ H.head?, ¬ T e.1) ∧ H.IsChain fun e e' => T e'.1 → S e.1

theorem sequential_follows (S T : Cmd → Prop) : Sequential (@Follows Cmd σ S T) where
  idle _ := ⟨fun _ he => absurd he (Option.not_mem_none _), List.isChain_nil⟩
  trans {s t r H K} h₁ h₂ := by
    refine ⟨fun e he => ?_, h₁.2.append h₂.2 fun _ _ e he hT => absurd hT (h₂.1 e he)⟩
    cases H with
    | nil => exact h₂.1 e he
    | cons e' H => exact h₁.1 e he

theorem follows_of_free {S T : Cmd → Prop} {H : List (Cmd × σ)} (hH : ∀ e ∈ H, ¬ T e.1)
    (s t : σ) : Follows S T s H t := by
  refine ⟨fun e he => hH e (List.mem_of_mem_head? he), ?_⟩
  refine List.isChain_iff_forall_rel_of_append_cons_cons.mpr fun e e' H₁ H₂ heq hT => ?_
  exact absurd hT (hH e' (by simp [heq]))

/-- Two commands next to each other, anywhere in a history. -/
theorem Follows.of_adjacent {S T : Cmd → Prop} {H : List (Cmd × σ)} {s t : σ}
    (h : Follows S T s H t) {e e' : Cmd × σ} (he : [e, e'] <:+: H) (hT : T e'.1) : S e.1 := by
  obtain ⟨H₁, H₂, rfl⟩ := he
  have hpair := h.2.left_of_append.right_of_append
  exact List.isChain_pair.mp hpair hT

/-- `R` holds up to the first command of `stop`, to the end if there is none. -/
def UpTo (stop : Cmd → Bool) (R : σ → List (Cmd × σ) → σ → Prop) (s : σ) (H : List (Cmd × σ))
    (t : σ) : Prop :=
  ∃ u, R s (H.takeWhile fun e => !stop e.1) u ∧ ((∀ e ∈ H, stop e.1 = false) → u = t)

section UpTo

variable {stop : Cmd → Bool} {R : σ → List (Cmd × σ) → σ → Prop} {H : List (Cmd × σ)} {s t : σ}

theorem takeWhile_of_free (hH : ∀ e ∈ H, stop e.1 = false) :
    (H.takeWhile fun e => !stop e.1) = H :=
  List.takeWhile_eq_self_iff.mpr fun e he => by rw [hH e he]; rfl

theorem upTo_of_free (hH : ∀ e ∈ H, stop e.1 = false) : UpTo stop R s H t ↔ R s H t := by
  unfold UpTo
  rw [takeWhile_of_free hH]
  constructor
  · rintro ⟨u, hu, hend⟩
    rwa [← hend hH]
  · exact fun h => ⟨t, h, fun _ => rfl⟩

/-- What comes after a command of `stop` is of no account. -/
theorem upTo_of_stop {e : Cmd × σ} {K : List (Cmd × σ)} (he : stop e.1 = true)
    (hH : ∀ e ∈ H, stop e.1 = false) (h : R s H t) (r : σ) :
    UpTo stop R s (H ++ e :: K) r := by
  refine ⟨t, ?_, fun hfree => ?_⟩
  · rw [List.takeWhile_append_of_pos fun e he => by rw [hH e he]; rfl]
    simp [he, h]
  · have := hfree e (by simp)
    rw [he] at this
    cases this

theorem sequential_upTo (hR : Sequential R) (stop : Cmd → Bool) : Sequential (UpTo stop R) where
  idle s := ⟨s, hR.idle s, fun _ => rfl⟩
  trans := by
    rintro s t r H K ⟨u, hu, hend⟩ ⟨v, hv, hend'⟩
    by_cases hH : ∀ e ∈ H, stop e.1 = false
    · rw [takeWhile_of_free hH, hend hH] at hu
      refine ⟨v, ?_, fun hfree => hend' fun e he => hfree e (List.mem_append_right H he)⟩
      rw [List.takeWhile_append_of_pos fun e he => by rw [hH e he]; rfl]
      exact hR.trans hu hv
    · refine ⟨u, ?_, fun hfree => absurd (fun e he => hfree e (List.mem_append_left K he)) hH⟩
      have hshort : (H.takeWhile fun e => !stop e.1).length ≠ H.length := by
        intro hlen
        refine hH fun e he => ?_
        have hall := List.takeWhile_eq_self_iff.mp
          ((List.takeWhile_prefix fun e : Cmd × σ => !stop e.1).eq_of_length hlen) e he
        simpa using hall
      rw [List.takeWhile_append, if_neg hshort]
      exact hu

end UpTo

/-- From a state of `P`, the run of `p` answers and ends in `Q` and keeps `R`. -/
def Triple (h : Handler Cmd Ans σ) (R : σ → List (Cmd × σ) → σ → Prop) (P : σ → Prop)
    (p : Prog Cmd Ans α) (Q : α → σ → Prop) : Prop :=
  ∀ s, P s → Q (run h p s).1 (run h p s).2 ∧ R s (history h p s) (run h p s).2

section Triple

variable {h : Handler Cmd Ans σ} {R : σ → List (Cmd × σ) → σ → Prop} {P : σ → Prop}
variable {p : Prog Cmd Ans α} {Q : α → σ → Prop}

theorem Triple.pure (hR : Sequential R) {a : α} (ha : ∀ s, P s → Q a s) :
    Triple h R P (pure a) Q :=
  fun s hs => ⟨ha s hs, hR.idle s⟩

theorem Triple.bind (hR : Sequential R) {f : α → Prog Cmd Ans β} {S : β → σ → Prop}
    (hp : Triple h R P p Q) (hf : ∀ a, Triple h R (Q a) (f a) S) :
    Triple h R P (p >>= f) S := by
  intro s hs
  have h₁ := hp s hs
  have h₂ := hf (run h p s).1 _ h₁.1
  simp only [run_bind, history_bind]
  exact ⟨h₂.1, hR.trans h₁.2 h₂.2⟩

/-- Keeping less of what happened on the way. -/
theorem Triple.forget {R' : σ → List (Cmd × σ) → σ → Prop} (hp : Triple h R' P p Q)
    (hR : ∀ s H t, R' s H t → R s H t) : Triple h R P p Q :=
  fun s hs => ⟨(hp s hs).1, hR _ _ _ (hp s hs).2⟩

/-- A part of the precondition that is about no state. -/
theorem Triple.assume {φ : Prop} (hp : φ → Triple h R P p Q) :
    Triple h R (fun s => P s ∧ φ) p Q :=
  fun s hs => hp hs.2 s hs.1

theorem Triple.and {R' : σ → List (Cmd × σ) → σ → Prop} {P' : σ → Prop} {Q' : α → σ → Prop}
    (hp : Triple h R P p Q) (hp' : Triple h R' P' p Q') :
    Triple h (fun s H t => R s H t ∧ R' s H t) (fun s => P s ∧ P' s) p
      fun a s => Q a s ∧ Q' a s :=
  fun s hs => ⟨⟨(hp s hs.1).1, (hp' s hs.2).1⟩, (hp s hs.1).2, (hp' s hs.2).2⟩

/-- Dropping the answer of a program. -/
theorem Triple.drop (hR : Sequential R) {S : σ → Prop} (hp : Triple h R P p fun _ => S) (b : β) :
    Triple h R P (p >>= fun _ => Pure.pure b) fun _ => S :=
  Triple.bind hR hp fun _ => Triple.pure hR fun _ hs => hs

theorem Triple.weaken {P' : σ → Prop} {Q' : α → σ → Prop} (hp : Triple h R P' p Q')
    (hP : ∀ s, P s → P' s) (hQ : ∀ a s, Q' a s → Q a s) : Triple h R P p Q :=
  fun s hs => ⟨hQ _ _ (hp s (hP s hs)).1, (hp s (hP s hs)).2⟩

theorem Triple.ite (c : Prop) [Decidable c] {q : Prog Cmd Ans α} (hp : c → Triple h R P p Q)
    (hq : ¬ c → Triple h R P q Q) : Triple h R P (if c then p else q) Q := by
  split_ifs with hc
  · exact hp hc
  · exact hq hc

/-- An invariant of each command that a program can issue is one of the program. -/
theorem Triple.of_only (hR : Sequential R) {S : Cmd → Prop} (hp : p.Only S)
    (hS : ∀ c, S c → ∀ s, P s → P (h c s).2 ∧ R s [(c, s)] (h c s).2) :
    Triple h R P p fun _ => P := by
  induction p with
  | ret a => exact Triple.pure hR fun _ hs => hs
  | call c k ih =>
    intro s hs
    have h₁ := hS c hp.1 s hs
    have h₂ := ih (h c s).1 (hp.2 _) _ h₁.1
    exact ⟨h₂.1, hR.trans h₁.2 h₂.2⟩

theorem Triple.times (hR : Sequential R) {p : Prog Cmd Ans PUnit}
    (hp : Triple h R P p fun _ => P) (n : ℕ) : Triple h R P (p.times n) fun _ => P := by
  induction n with
  | zero => exact Triple.pure hR fun _ hs => hs
  | succ n ih => exact Triple.bind hR hp fun _ => ih

/-- Interrupts before each command keep what the interrupt and the commands keep. -/
theorem Triple.weave (hR : Sequential R) {isr : Prog Cmd Ans PUnit} {S : Cmd → Prop}
    (hisr : Triple h R P isr fun _ => P) (hp : p.Only S)
    (hS : ∀ c, S c → ∀ s, P s → P (h c s).2 ∧ R s [(c, s)] (h c s).2) :
    Triple h R P (weave isr p) fun _ => P := by
  induction p with
  | ret a => exact Triple.pure hR fun _ hs => hs
  | call c k ih =>
    refine Triple.bind hR hisr fun _ s hs => ?_
    have h₁ := hS c hp.1 s hs
    have h₂ := ih (h c s).1 (hp.2 _) _ h₁.1
    exact ⟨h₂.1, hR.trans h₁.2 h₂.2⟩

end Triple

/-! ## Programs over a part of a larger interface -/

section Lift

universe u' v'

variable {Cmd' : Type u'} {Ans' : Cmd' → Type v'}

/-- A program over `Cmd` as a program over an interface that includes it. -/
def lift (f : Cmd → Cmd') (g : ∀ c, Ans' (f c) → Ans c) : Prog Cmd Ans α → Prog Cmd' Ans' α
  | ret a => ret a
  | call c k => call (f c) fun a => (k (g c a)).lift f g

variable {f : Cmd → Cmd'} {g : ∀ c, Ans' (f c) → Ans c}

@[simp] theorem lift_pure (a : α) : (pure a : Prog Cmd Ans α).lift f g = pure a := rfl

@[simp] theorem lift_bind (p : Prog Cmd Ans α) (q : α → Prog Cmd Ans β) :
    (p >>= q).lift f g = p.lift f g >>= fun a => (q a).lift f g := by
  induction p with
  | ret a => rfl
  | call c k ih => exact congrArg (call (f c)) (funext fun a => ih _)

theorem Only.lift {S : Cmd → Prop} {T : Cmd' → Prop} {p : Prog Cmd Ans α} (hp : p.Only S)
    (hST : ∀ c, S c → T (f c)) : (p.lift f g).Only T := by
  induction p with
  | ret a => trivial
  | call c k ih => exact ⟨hST c hp.1, fun a => ih _ (hp.2 _)⟩

theorem only_lift {S : Cmd' → Prop} (hS : ∀ c, S (f c)) (p : Prog Cmd Ans α) :
    (p.lift f g).Only S := by
  induction p with
  | ret a => trivial
  | call c k ih => exact ⟨hS c, fun a => ih _⟩

/-- Commands of the part act on one component of the larger state. -/
structure Acts {τ : Type*} (h' : Handler Cmd' Ans' σ) (h : Handler Cmd Ans τ)
    (f : Cmd → Cmd') (g : ∀ c, Ans' (f c) → Ans c) (get : σ → τ) (put : τ → σ → σ) : Prop where
  answer : ∀ c s, g c (h' (f c) s).1 = (h c (get s)).1
  next : ∀ c s, (h' (f c) s).2 = put (h c (get s)).2 s
  get_put : ∀ t s, get (put t s) = t
  put_get : ∀ s, put (get s) s = s
  put_put : ∀ t t' s, put t (put t' s) = put t s

theorem Acts.run_lift {τ : Type*} {h' : Handler Cmd' Ans' σ} {h : Handler Cmd Ans τ}
    {get : σ → τ} {put : τ → σ → σ} (a : Acts h' h f g get put) (p : Prog Cmd Ans α) (s : σ) :
    run h' (p.lift f g) s = ((run h p (get s)).1, put (run h p (get s)).2 s) := by
  induction p generalizing s with
  | ret b => simp [lift, run, a.put_get]
  | call c k ih =>
    simp only [lift, run, ih, a.answer, a.next, a.get_put, a.put_put]

theorem Acts.history_lift {τ : Type*} {h' : Handler Cmd' Ans' σ} {h : Handler Cmd Ans τ}
    {get : σ → τ} {put : τ → σ → σ} (a : Acts h' h f g get put) (p : Prog Cmd Ans α) (s : σ) :
    history h' (p.lift f g) s = (history h p (get s)).map fun e => (f e.1, put e.2 s) := by
  induction p generalizing s with
  | ret b => rfl
  | call c k ih =>
    simp only [lift, history, ih, a.answer, a.next, a.get_put, a.put_put, a.put_get,
      List.map_cons]

end Lift

end Prog
