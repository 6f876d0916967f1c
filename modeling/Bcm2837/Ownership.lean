import Mathlib.Data.Set.Insert
import Mathlib.Logic.Equiv.Basic

/-!
# Owned resources

Resources are handed out one by one, and each is held by one owner until it is given back.
The owners and the resources in use are in balance when nothing is in use that no one owns,
and nothing is owned twice or no longer in use.
-/
namespace Ownership

variable {ι H : Type*} {own own' : ι → Option H} {live live' : Set H} {i j : ι} {h : H}

structure Balanced (own : ι → Option H) (live : Set H) : Prop where
  owned : ∀ i h, own i = some h → h ∈ live
  owner : ∀ h ∈ live, ∃ i, own i = some h
  once : ∀ i j h, own i = some h → own j = some h → i = j

namespace Balanced

theorem congr (hb : Balanced own live) (hown : ∀ i, own' i = own i)
    (hlive : ∀ h, h ∈ live' ↔ h ∈ live) : Balanced own' live' where
  owned i h hi := (hlive h).mpr (hb.owned i h ((hown i).symm.trans hi))
  owner h hh := by
    obtain ⟨i, hi⟩ := hb.owner h ((hlive h).mp hh)
    exact ⟨i, (hown i).trans hi⟩
  once i j h hi hj := hb.once i j h ((hown i).symm.trans hi) ((hown j).symm.trans hj)

/-- Owners that change places. -/
theorem permute (hb : Balanced own live) (σ : Equiv.Perm ι) : Balanced (own ∘ σ) live where
  owned i h hi := hb.owned (σ i) h hi
  owner h hh := by
    obtain ⟨i, hi⟩ := hb.owner h hh
    refine ⟨σ.symm i, ?_⟩
    rw [Function.comp_apply, Equiv.apply_symm_apply, hi]
  once i j h hi hj := σ.injective (hb.once (σ i) (σ j) h hi hj)

section Update

variable [DecidableEq ι]

/-- A new resource goes to an owner that has none. -/
theorem acquire (hb : Balanced own live) (hi : own i = none) (hnew : h ∉ live) :
    Balanced (Function.update own i (some h)) (insert h live) where
  owned k g hk := by
    by_cases hki : k = i
    · rw [hki, Function.update_self] at hk
      exact Set.mem_insert_iff.mpr (.inl (Option.some.inj hk).symm)
    · rw [Function.update_of_ne hki] at hk
      exact Set.mem_insert_of_mem h (hb.owned k g hk)
  owner g hg := by
    rcases Set.mem_insert_iff.mp hg with rfl | hg
    · exact ⟨i, Function.update_self ..⟩
    · obtain ⟨k, hk⟩ := hb.owner g hg
      have hki : k ≠ i := by
        rintro rfl
        rw [hi] at hk
        cases hk
      exact ⟨k, (Function.update_of_ne hki _ _).trans hk⟩
  once k l g hk hl := by
    have hother (m : ι) (hm : m ≠ i) (hmg : Function.update own i (some h) m = some g) :
        own m = some g ∧ g ≠ h := by
      rw [Function.update_of_ne hm] at hmg
      exact ⟨hmg, fun heq => hnew (heq ▸ hb.owned m g hmg)⟩
    have hself (hg : Function.update own i (some h) i = some g) : g = h := by
      rw [Function.update_self] at hg
      exact (Option.some.inj hg).symm
    by_cases hki : k = i <;> by_cases hli : l = i
    · exact hki.trans hli.symm
    · exact absurd (hself (hki ▸ hk)) (hother l hli hl).2
    · exact absurd (hself (hli ▸ hl)) (hother k hki hk).2
    · exact hb.once k l g (hother k hki hk).1 (hother l hli hl).1

/-- An owner gives back what it has, if anything. -/
theorem release (hb : Balanced own live) (i : ι) :
    Balanced (Function.update own i none) (live \ {h | own i = some h}) where
  owned k g hk := by
    have hki : k ≠ i := by
      rintro rfl
      rw [Function.update_self] at hk
      cases hk
    rw [Function.update_of_ne hki] at hk
    exact ⟨hb.owned k g hk, fun hi => hki (hb.once k i g hk hi)⟩
  owner g hg := by
    obtain ⟨k, hk⟩ := hb.owner g hg.1
    have hki : k ≠ i := by
      rintro rfl
      exact hg.2 hk
    exact ⟨k, (Function.update_of_ne hki _ _).trans hk⟩
  once k l g hk hl := by
    have hother (m : ι) (hmg : Function.update own i none m = some g) : own m = some g := by
      by_cases hm : m = i
      · rw [hm, Function.update_self] at hmg
        cases hmg
      · rwa [Function.update_of_ne hm] at hmg
    exact hb.once k l g (hother k hk) (hother l hl)

end Update

end Balanced

end Ownership
