import Bcm2837.DispatchOrder

/-!
# Handler tables and ignored sources

A table is what a sequence of `registerHandler` and `installIRQHandler` calls leaves.
`dispatch` gives its one turn to the first raised source it looks at: when that source
has no handler, or when the only registered sources lie on lines it does not look at,
a registered source that is raised goes unserved.
-/
namespace Bcm2837.Interrupt

variable {F : Type}

/-- A call that changes the handler table; numbers are `uint8_t` in the source. -/
inductive Registration (F : Type)
  | registerHandler (number : Byte) (cb : Option F)
  | installIRQHandler (irqNumber : Byte) (cb : Option F)

def Registration.exec (dispatchTrampoline : F) : Registration F → Io F Unit
  | registerHandler number cb => Interrupt.registerHandler number.toNat cb
  | installIRQHandler irqNumber cb =>
    Interrupt.installIRQHandler dispatchTrampoline irqNumber.toNat cb

/-- The driver's blocks after a sequence of registrations. -/
def registered (dispatchTrampoline : F) (effect : F → Controller F → Controller F) :
    List (Registration F) → Controller F → Controller F
  | [], c => c
  | r :: rs, c =>
    registered dispatchTrampoline effect rs ((r.exec dispatchTrampoline).run (storage effect) c).2

/-- A raised source with a handler. -/
def Served (core : ℕ) (c : Controller F) (s : Source) (cb : F) : Prop :=
  raised core c s = true ∧ c.ivt.handler s.slot = some cb

/-- If some raised source has a handler, a call of `dispatch` calls the handler of one. -/
def NeverIgnored (core : ℕ) (effect : F → Controller F → Controller F) (c : Controller F) : Prop :=
  (∃ s cb, Served core c s cb) →
    ∃ s cb, Served core c s cb ∧ cb ∈ called ((dispatch core).history (storage effect) c)

/-- Nothing raised has a handler, or the first raised source that `dispatch` looks at
has one. -/
def FirstRegistered (core : ℕ) (c : Controller F) : Prop :=
  (∀ s, raised core c s = true → c.ivt.handler s.slot = none) ∨
    ∃ s, First (raised core c) s ∧ c.ivt.handler s.slot ≠ none

theorem neverIgnored_iff_firstRegistered (core : ℕ) (effect : F → Controller F → Controller F)
    (c : Controller F) : NeverIgnored core effect c ↔ FirstRegistered core c := by
  rw [NeverIgnored, (dispatch_spec effect c core).2]
  constructor
  · intro h
    by_cases hnone : ∀ s, raised core c s = true → c.ivt.handler s.slot = none
    · exact .inl hnone
    have hsome : ∃ s cb, Served core c s cb := by
      by_contra hno
      refine hnone fun s hs => Option.eq_none_iff_forall_ne_some.mpr fun cb hcb => ?_
      exact hno ⟨s, cb, hs, hcb⟩
    obtain ⟨-, cb, -, hcb⟩ := h hsome
    have hchosen : chosen core c = some cb := by simpa using hcb
    by_cases hlook : ∃ s : Source, s.scanned = true ∧ raised core c s = true
    · obtain ⟨s, hs, hr⟩ := hlook
      obtain ⟨t, ht⟩ := exists_first hs hr
      rw [chosen, selected_first ht, Option.bind_some] at hchosen
      exact .inr ⟨t, ht, by rw [hchosen]; exact Option.some_ne_none cb⟩
    · rw [chosen, selected_none fun s hs hr => hlook ⟨s, hs, hr⟩] at hchosen
      cases hchosen
  · rintro (hnone | ⟨s, hfirst, hs⟩) ⟨t, cb, ht, hcb⟩
    · rw [hnone t ht] at hcb
      cases hcb
    · obtain ⟨f, hf⟩ := Option.ne_none_iff_exists'.mp hs
      refine ⟨s, f, ⟨hfirst.holds, hf⟩, ?_⟩
      rw [chosen, selected_first hfirst, Option.bind_some, hf]
      exact List.mem_cons_self

/-- Over every table that registrations can leave and all register contents, no raised
and registered source is ignored precisely when the first raised source that `dispatch`
looks at is registered, or none is. -/
theorem registered_neverIgnored_iff (dispatchTrampoline : F)
    (effect : F → Controller F → Controller F) (rs : List (Registration F))
    (memory : Register → Word) (armLocal : ArmLocal.Register → Word) (core : ℕ) :
    NeverIgnored core effect
        (registered dispatchTrampoline effect rs ⟨memory, armLocal, IVT.empty⟩) ↔
      FirstRegistered core
        (registered dispatchTrampoline effect rs ⟨memory, armLocal, IVT.empty⟩) :=
  neverIgnored_iff_firstRegistered core effect _

/-- IRQ 3 has no handler and masks IRQ 5, which has one. -/
theorem unregistered_irq_masks :
    ¬ NeverIgnored 0 (fun _ c => c)
      (registered 0 (fun _ c => c) [.registerHandler 5 (some 1)]
        ⟨fun | .IRQ_Pending1 => 0x28 | _ => 0,
          fun r => if r = ArmLocal.CORE_IRQ_SOURCE0 then 0x100 else 0, IVT.empty⟩) := by
  intro h
  obtain ⟨s, cb, -, hcb⟩ := h ⟨.irq 5, 1, by decide, by decide⟩
  revert hcb
  have hnone : called ((dispatch 0).history (storage fun _ c => c)
      (registered 0 (fun _ c => c) [.registerHandler 5 (some 1)]
        ⟨fun | .IRQ_Pending1 => 0x28 | _ => 0,
          fun r => if r = ArmLocal.CORE_IRQ_SOURCE0 then 0x100 else 0, IVT.empty⟩)) = [] := by
    decide
  rw [hnone]
  exact List.not_mem_nil

end Bcm2837.Interrupt
