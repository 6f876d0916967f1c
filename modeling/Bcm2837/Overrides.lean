import Mathlib.Tactic

/-!
# Cells decided by the last request

A sequence of calls acts on a cell. A call may ask for a value of the cell, and it sets
the cell in a way that can depend on the calls before it. The cell holds what was asked
for last unless a call that asks for nothing overrides it and nothing repairs it.
-/

universe u v

namespace Overrides

variable {κ : Type u} {ν : Type v}

/-- The value asked for last, or the initial one. -/
def lastAsked (asked : κ → Option ν) (init : ν) (calls : List κ) : ν :=
  calls.foldl (fun v c => (asked c).getD v) init

section LastAsked

variable {asked : κ → Option ν} {init : ν}

@[simp] theorem lastAsked_nil : lastAsked asked init [] = init := rfl

@[simp] theorem lastAsked_concat (calls : List κ) (c : κ) :
    lastAsked asked init (calls ++ [c]) = (asked c).getD (lastAsked asked init calls) := by
  simp [lastAsked, List.foldl_append]

theorem lastAsked_append (before after : List κ) :
    lastAsked asked init (before ++ after) =
      lastAsked asked (lastAsked asked init before) after := List.foldl_append

/-- The value asked for last is the last of the values asked for. -/
theorem lastAsked_eq (asked : κ → Option ν) (init : ν) (calls : List κ) :
    lastAsked asked init calls = (calls.filterMap asked).getLast?.getD init := by
  induction calls using List.reverseRecOn with
  | nil => rfl
  | append_singleton calls c ih =>
    rw [lastAsked_concat, ih, List.filterMap_append]
    cases hc : asked c <;> simp [hc]

/-- Calls that ask for nothing change nothing. -/
theorem lastAsked_of_silent {calls : List κ} (h : ∀ c ∈ calls, asked c = none) :
    lastAsked asked init calls = init := by
  rw [lastAsked_eq, List.filterMap_eq_nil_iff.mpr h]
  rfl

/-- The value stands from the call that asked for it. -/
theorem lastAsked_split (before : List κ) {c : κ} {after : List κ} {v : ν} (hc : asked c = some v)
    (hafter : ∀ d ∈ after, asked d = none) :
    lastAsked asked init (before ++ c :: after) = v := by
  rw [← List.singleton_append, ← List.append_assoc, lastAsked_append, lastAsked_concat, hc,
    lastAsked_of_silent hafter]
  rfl

/-- Either nothing was asked for, or some call was the last to ask. -/
theorem silent_or_split (asked : κ → Option ν) (calls : List κ) :
    (∀ c ∈ calls, asked c = none) ∨ ∃ before c after v, calls = before ++ c :: after ∧
      asked c = some v ∧ ∀ d ∈ after, asked d = none := by
  induction calls using List.reverseRecOn with
  | nil => exact .inl fun c hc => absurd hc List.not_mem_nil
  | append_singleton calls c ih =>
    cases hc : asked c with
    | some v => exact .inr ⟨calls, c, [], v, rfl, hc, fun d hd => absurd hd List.not_mem_nil⟩
    | none =>
      have hlast : ∀ {ds : List κ}, (∀ d ∈ ds, asked d = none) →
          ∀ d ∈ ds ++ [c], asked d = none := by
        intro ds h d hd
        rcases List.mem_append.mp hd with hd | hd
        · exact h d hd
        · rw [List.mem_singleton.mp hd]
          exact hc
      rcases ih with h | ⟨before, d, after, v, rfl, hd, hafter⟩
      · exact .inl (hlast h)
      · exact .inr ⟨before, d, after ++ [c], v, by simp, hd, hlast hafter⟩

end LastAsked

/-- The call after `before` asks for nothing but sets the cell to `v`, and no later call
acts on it. -/
def Stray (asked : κ → Option ν) (act : List κ → κ → Option ν) (calls before : List κ)
    (v : ν) : Prop :=
  ∃ c after, calls = before ++ c :: after ∧ asked c = none ∧ act before c = some v ∧
    ∀ mid d rest, after = mid ++ d :: rest → act (before ++ c :: mid) d = none

section Cell

variable {asked : κ → Option ν} {act : List κ → κ → Option ν} (cell : List κ → ν)

/-- The cell holds what was asked for last at every moment exactly when no call that asks
for nothing ever sets it to something else. -/
theorem always_lastAsked_iff
    (hcell : ∀ before c, cell (before ++ [c]) = (act before c).getD (cell before))
    (hact : ∀ before c v, asked c = some v → act before c = some v) (calls : List κ) :
    (∀ before after, calls = before ++ after → cell before = lastAsked asked (cell []) before) ↔
      ∀ before c after v, calls = before ++ c :: after → asked c = none → act before c = some v →
        v = lastAsked asked (cell []) before := by
  constructor
  · intro h before c after v hsplit hasked hv
    have hafter := h (before ++ [c]) after (by simp [hsplit])
    rw [hcell, hv, lastAsked_concat, hasked] at hafter
    exact hafter
  · intro h before
    induction before using List.reverseRecOn with
    | nil => exact fun _ _ => rfl
    | append_singleton before c ih =>
      intro after hsplit
      have hbefore := ih (c :: after) (by simp [hsplit])
      rw [hcell, lastAsked_concat, hbefore]
      cases hasked : asked c with
      | some v => rw [hact before c v hasked]
      | none =>
        cases hv : act before c with
        | none => rfl
        | some v => exact h before c after v (by simp [hsplit]) hasked hv

theorem not_stray_nil (before : List κ) (v : ν) : ¬ Stray asked act [] before v := by
  rintro ⟨c, after, hsplit, -⟩
  simp at hsplit

/-- After a call that acts, only that call can be the stray one. -/
theorem stray_concat_of_act {calls before : List κ} {c : κ} {v w : ν}
    (hc : act calls c = some w) :
    Stray asked act (calls ++ [c]) before v ↔ asked c = none ∧ before = calls ∧ v = w := by
  constructor
  · rintro ⟨d, after, hsplit, hasked, hact, hquiet⟩
    rcases List.eq_nil_or_concat' after with rfl | ⟨mid, e, rfl⟩
    · obtain ⟨rfl, hd⟩ := List.append_inj' hsplit rfl
      cases hd
      exact ⟨hasked, rfl, Option.some.inj (hact.symm.trans hc)⟩
    · rw [← List.cons_append, ← List.append_assoc] at hsplit
      obtain ⟨rfl, he⟩ := List.append_inj' hsplit rfl
      cases he
      have hnone := hquiet mid c [] rfl
      rw [hc] at hnone
      cases hnone
  · rintro ⟨hasked, rfl, rfl⟩
    refine ⟨c, [], rfl, hasked, hc, fun mid d rest h => ?_⟩
    simp at h

/-- A call that does not act leaves the stray calls as they were. -/
theorem stray_concat_of_quiet {calls before : List κ} {c : κ} {v : ν} (hc : act calls c = none) :
    Stray asked act (calls ++ [c]) before v ↔ Stray asked act calls before v := by
  constructor
  · rintro ⟨d, after, hsplit, hasked, hact, hquiet⟩
    rcases List.eq_nil_or_concat' after with rfl | ⟨mid, e, rfl⟩
    · obtain ⟨rfl, hd⟩ := List.append_inj' hsplit rfl
      cases hd
      rw [hc] at hact
      cases hact
    · rw [← List.cons_append, ← List.append_assoc] at hsplit
      obtain ⟨rfl, -⟩ := List.append_inj' hsplit rfl
      refine ⟨d, mid, rfl, hasked, hact, fun m f rest h => ?_⟩
      exact hquiet m f (rest ++ [e]) (by simp [h])
  · rintro ⟨d, after, rfl, hasked, hact, hquiet⟩
    refine ⟨d, after ++ [c], by simp, hasked, hact, fun mid f rest h => ?_⟩
    rcases List.eq_nil_or_concat' rest with rfl | ⟨rest, g, rfl⟩
    · obtain ⟨rfl, hf⟩ := List.append_inj' h rfl
      cases hf
      exact hc
    · rw [← List.cons_append, ← List.append_assoc] at h
      obtain ⟨rfl, -⟩ := List.append_inj' h rfl
      exact hquiet mid f rest rfl

/-- The cell holds what was asked for last exactly when every stray call that stands set
it to just that. -/
theorem cell_eq_lastAsked_iff
    (hcell : ∀ before c, cell (before ++ [c]) = (act before c).getD (cell before))
    (hact : ∀ before c v, asked c = some v → act before c = some v) (calls : List κ) :
    cell calls = lastAsked asked (cell []) calls ↔
      ∀ before v, Stray asked act calls before v → v = lastAsked asked (cell []) before := by
  induction calls using List.reverseRecOn with
  | nil => exact ⟨fun _ before v h => absurd h (not_stray_nil before v), fun _ => rfl⟩
  | append_singleton calls c ih =>
    rw [hcell, lastAsked_concat]
    cases hc : act calls c with
    | none =>
      have hasked : asked c = none := by
        cases h : asked c with
        | none => rfl
        | some v => exact (hact calls c v h).symm.trans hc
      simp only [hasked, Option.getD_none, stray_concat_of_quiet hc]
      exact ih
    | some w =>
      simp only [stray_concat_of_act hc, Option.getD_some]
      cases h : asked c with
      | some v =>
        have hw : v = w := Option.some.inj ((hact calls c v h).symm.trans hc)
        simp [hw]
      | none => simp

end Cell

end Overrides
