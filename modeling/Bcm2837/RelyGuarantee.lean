import Mathlib.Logic.Function.Basic
import Mathlib.Data.Nat.Notation

/-!
# Threads over a shared state

Each thread has local data and a list of operations still to do. An operation may change the
data of its thread and the shared state; whose operation comes next is open. A thread relies
on the others for how they change the shared state between its own operations, and
guarantees how its operations change it. When what each thread guarantees is what the others
rely on, a thread may be reasoned with alone.
-/
namespace RelyGuarantee

variable {ι L M : Type*}

/-- An operation on local data and the shared state. -/
abbrev Op (L M : Type*) := L → M → L × M

structure World (ι L M : Type*) where
  locals : ι → L
  shared : M
  code : ι → List (Op L M)

inductive Event (ι L M : Type*)
  /-- The next operation of a thread. -/
  | op (i : ι)
  /-- A thread with nothing to do is given something to do. -/
  | start (i : ι) (fs : List (Op L M))

/-- The event gives the thread something to do. -/
def Event.Starts (i : ι) : Event ι L M → Prop
  | .op _ => False
  | .start j _ => j = i

/-- How often it is the thread's turn. -/
def turns [DecidableEq ι] (i : ι) : List (Event ι L M) → ℕ
  | [] => 0
  | .op j :: es => turns i es + if j = i then 1 else 0
  | .start _ _ :: es => turns i es

namespace World

variable [DecidableEq ι] (w : World ι L M)

def step : Event ι L M → World ι L M
  | .op i =>
    match w.code i with
    | [] => w
    | f :: fs => {
        locals := Function.update w.locals i (f (w.locals i) w.shared).1
        shared := (f (w.locals i) w.shared).2
        code := Function.update w.code i fs }
  | .start i fs =>
    match w.code i with
    | [] => { w with code := Function.update w.code i fs }
    | _ :: _ => w

def run (es : List (Event ι L M)) : World ι L M := es.foldl step w

variable {w} {i : ι} {f : Op L M} {fs gs : List (Op L M)}

theorem step_op_nil (h : w.code i = []) : w.step (.op i) = w := by simp only [step, h]

theorem step_op_cons (h : w.code i = f :: fs) :
    w.step (.op i) = {
      locals := Function.update w.locals i (f (w.locals i) w.shared).1
      shared := (f (w.locals i) w.shared).2
      code := Function.update w.code i fs } := by
  simp only [step, h]

theorem step_start_nil (h : w.code i = []) :
    w.step (.start i gs) = { w with code := Function.update w.code i gs } := by
  simp only [step, h]

theorem step_start_cons (h : w.code i = f :: fs) : w.step (.start i gs) = w := by
  simp only [step, h]

/-- A thread does its operations one a turn. -/
theorem code_run {es : List (Event ι L M)} (hnot : ∀ e ∈ es, ¬e.Starts i) :
    (w.run es).code i = (w.code i).drop (turns i es) := by
  induction es generalizing w with
  | nil => rfl
  | cons e es ih =>
    have hrest : (w.run (e :: es)).code i = ((w.step e).code i).drop (turns i es) :=
      ih fun e' he' => hnot e' (List.mem_cons_of_mem e he')
    rw [hrest]
    cases e with
    | op j =>
      cases hcode : w.code j with
      | nil =>
        rw [step_op_nil hcode]
        by_cases hj : j = i
        · subst hj
          simp [hcode]
        · simp [turns, hj]
      | cons f fs =>
        rw [step_op_cons hcode]
        by_cases hj : j = i
        · subst hj
          simp [turns, hcode]
        · simp [turns, hj, Ne.symm hj]
    | start j gs =>
      have hj : i ≠ j := fun hij => hnot _ List.mem_cons_self hij.symm
      cases hcode : w.code j with
      | nil =>
        rw [step_start_nil hcode]
        simp [turns, hj]
      | cons f fs =>
        rw [step_start_cons hcode]
        rfl

end World

/-- Whatever the others do that the thread relies on, the operations keep the guarantee and
end in `Q`, which then stays. -/
def Robust (R G : M → M → Prop) (Q : L → M → Prop) : List (Op L M) → L → M → Prop
  | [], l, m => ∀ m', R m m' → Q l m'
  | f :: fs, l, m => ∀ m', R m m' → G m' (f l m').2 ∧ Robust R G Q fs (f l m').1 (f l m').2

section Robust

variable {R G : M → M → Prop} {Q P : L → M → Prop} {fs gs : List (Op L M)} {l : L} {m m' : M}

/-- The others take a step. -/
theorem Robust.rely [IsTrans M R] (h : Robust R G Q fs l m) (hm : R m m') :
    Robust R G Q fs l m' := by
  cases fs with
  | nil => exact fun m'' hm' => h m'' (IsTrans.trans _ _ _ hm hm')
  | cons f fs => exact fun m'' hm' => h m'' (IsTrans.trans _ _ _ hm hm')

theorem Robust.append (h : Robust R G (Robust R G Q gs) fs l m) (hrefl : ∀ m, R m m) :
    Robust R G Q (fs ++ gs) l m := by
  induction fs generalizing l m with
  | nil => exact h m (hrefl m)
  | cons f fs ih =>
    intro m' hm
    obtain ⟨hg, hrest⟩ := h m' hm
    exact ⟨hg, ih hrest⟩

theorem Robust.weaken (h : Robust R G Q fs l m) (hQ : ∀ l m, Q l m → P l m) :
    Robust R G P fs l m := by
  induction fs generalizing l m with
  | nil => exact fun m' hm => hQ l m' (h m' hm)
  | cons f fs ih =>
    intro m' hm
    obtain ⟨hg, hrest⟩ := h m' hm
    exact ⟨hg, ih hrest⟩

end Robust

/-! ## Runs -/

section Runs

variable {R G : ι → M → M → Prop}

/-- What is left to do of thread `i` ends in `Q`. -/
def Kept (R G : ι → M → M → Prop) (w : World ι L M) (i : ι) (Q : L → M → Prop) : Prop :=
  Robust (R i) (G i) Q (w.code i) (w.locals i) w.shared

variable {w : World ι L M} {i j : ι} {Q : L → M → Prop}

/-- A thread with nothing left to do is where it was to end. -/
theorem Kept.post (h : Kept R G w i Q) (hrefl : ∀ m, R i m m) (hcode : w.code i = []) :
    Q (w.locals i) w.shared := by
  unfold Kept at h
  rw [hcode] at h
  exact h _ (hrefl _)

variable [DecidableEq ι]

theorem Kept.op_self (h : Kept R G w i Q) (hrefl : ∀ m, R i m m) :
    Kept R G (w.step (.op i)) i Q := by
  unfold Kept at h ⊢
  cases hcode : w.code i with
  | nil =>
    rw [World.step_op_nil hcode]
    exact h
  | cons f fs =>
    rw [World.step_op_cons hcode]
    rw [hcode] at h
    simpa using (h _ (hrefl _)).2

/-- An operation of another thread. -/
theorem Kept.op_other [IsTrans M (R i)] (h : Kept R G w i Q) {P : L → M → Prop}
    (hj : Kept R G w j P) (hij : i ≠ j) (hrefl : ∀ m, R j m m)
    (hguar : ∀ m m', G j m m' → R i m m') : Kept R G (w.step (.op j)) i Q := by
  unfold Kept at h hj ⊢
  cases hcode : w.code j with
  | nil =>
    rw [World.step_op_nil hcode]
    exact h
  | cons f fs =>
    rw [World.step_op_cons hcode]
    rw [hcode] at hj
    have hmem := hguar _ _ (hj _ (hrefl _)).1
    simpa [hij] using h.rely hmem

/-- Another thread is given something to do. -/
theorem Kept.start_other (h : Kept R G w i Q) {fs : List (Op L M)} (hij : i ≠ j) :
    Kept R G (w.step (.start j fs)) i Q := by
  unfold Kept at h ⊢
  cases hcode : w.code j with
  | nil =>
    rw [World.step_start_nil hcode]
    simpa [hij] using h
  | cons f gs =>
    rw [World.step_start_cons hcode]
    exact h

/-- The thread itself is given something to do that ends in `Q` from there. -/
theorem Kept.start_self (h : Kept R G w i Q) {fs : List (Op L M)} (hrefl : ∀ m, R i m m)
    (hstart : Q (w.locals i) w.shared → Robust (R i) (G i) Q fs (w.locals i) w.shared) :
    Kept R G (w.step (.start i fs)) i Q := by
  have hpost := h.post hrefl
  unfold Kept at h ⊢
  cases hcode : w.code i with
  | nil =>
    rw [World.step_start_nil hcode]
    simpa using hstart (hpost hcode)
  | cons f gs =>
    rw [World.step_start_cons hcode]
    exact h

section

variable [∀ i, IsTrans M (R i)] (hrefl : ∀ i m, R i m m)
  (hguar : ∀ i j, i ≠ j → ∀ m m', G j m m' → R i m m')
  {Fit : ι → L → M → Prop} {Allowed : ι → List (Op L M) → Prop}
  (hallowed : ∀ i fs l m, Allowed i fs → Fit i l m → Robust (R i) (G i) (Fit i) fs l m)

/-- The events only give threads what they may do. -/
def Keeps (Allowed : ι → List (Op L M) → Prop) (es : List (Event ι L M)) : Prop :=
  ∀ i fs, .start i fs ∈ es → Allowed i fs

include hrefl hguar hallowed

/-- Each thread stays on its way to an end that fits it. -/
theorem kept_step {e : Event ι L M} (h : ∀ i, Kept R G w i (Fit i))
    (he : ∀ i fs, e = .start i fs → Allowed i fs) (i : ι) : Kept R G (w.step e) i (Fit i) := by
  cases e with
  | op j =>
    by_cases hij : i = j
    · subst hij
      exact (h i).op_self (hrefl i)
    · exact (h i).op_other (h j) hij (hrefl j) (hguar i j hij)
  | start j fs =>
    by_cases hij : i = j
    · subst hij
      exact (h i).start_self (hrefl i) fun hfit => hallowed i fs _ _ (he i fs rfl) hfit
    · exact (h i).start_other hij

theorem kept_run {es : List (Event ι L M)} (h : ∀ i, Kept R G w i (Fit i))
    (hes : Keeps Allowed es) (i : ι) : Kept R G (w.run es) i (Fit i) := by
  induction es generalizing w with
  | nil => exact h i
  | cons e es ih =>
    have hstep := kept_step hrefl hguar hallowed h fun j fs heq =>
      hes j fs (heq ▸ List.mem_cons_self)
    exact ih hstep fun j fs hmem => hes j fs (List.mem_cons_of_mem e hmem)

/-- What a thread is on its way to, it stays on its way to until it is given something else. -/
theorem kept_until {es : List (Event ι L M)} (h : ∀ i, Kept R G w i (Fit i))
    (hes : Keeps Allowed es) (hi : Kept R G w i Q) (hnot : ∀ e ∈ es, ¬e.Starts i) :
    Kept R G (w.run es) i Q := by
  induction es generalizing w with
  | nil => exact hi
  | cons e es ih =>
    have hstep := kept_step hrefl hguar hallowed h fun j fs heq =>
      hes j fs (heq ▸ List.mem_cons_self)
    have hnext : Kept R G (w.step e) i Q := by
      cases e with
      | op j =>
        by_cases hij : i = j
        · subst hij
          exact hi.op_self (hrefl i)
        · exact hi.op_other (h j) hij (hrefl j) (hguar i j hij)
      | start j fs =>
        exact hi.start_other fun hij => hnot _ List.mem_cons_self hij.symm
    exact ih hstep (fun j fs hmem => hes j fs (List.mem_cons_of_mem e hmem)) hnext
      fun e' he' => hnot e' (List.mem_cons_of_mem e he')

end

end Runs

end RelyGuarantee
