import Bcm2837.InterruptDispatch

/-!
# The order in which sources are served

The sources of a core's interrupt are the eight lines of its own source register and
the 64 legacy IRQs behind the GPU bit. `dispatch` looks at lines 0..3 and at the
legacy IRQs and calls the handler of the first source that is raised; a run of calls
therefore serves the pending sources in the order of their ranks.
-/
namespace Bcm2837.Interrupt

open BitField

/-- An interrupt source of a core. -/
inductive Source
  | line (b : Fin 8)
  | irq (n : Fin 64)
  deriving DecidableEq

namespace Source

/-- The slot of the handler table that belongs to a source. -/
def slot : Source → ℕ
  | line b => kLocalBase + b
  | irq n => n

/-- The position of a source: local lines first, then the legacy IRQs. -/
def rank : Source → ℕ
  | line b => b
  | irq n => 8 + n

/-- The sources that `dispatch` looks at. -/
def scanned : Source → Bool
  | line b => b < 4
  | irq _ => true

end Source

variable {F : Type}

/-- The pending bit of a source. -/
def pending (core : ℕ) (c : Controller F) : Source → Bool
  | .line b => (c.source core).getLsbD b
  | .irq n =>
    if n < 32 then (c.memory .IRQ_Pending1).getLsbD n
    else (c.memory .IRQ_Pending2).getLsbD (n - 32)

/-- A pending source reaches the core: legacy IRQs only through the GPU bit. -/
def raised (core : ℕ) (c : Controller F) (s : Source) : Bool :=
  pending core c s && match s with
    | .line _ => true
    | .irq _ => (c.source core).getLsbD ArmLocal.GPU

/-- The first of the sources `dispatch` looks at that satisfy `p`. -/
structure First (p : Source → Bool) (s : Source) : Prop where
  scanned : s.scanned = true
  holds : p s = true
  least : ∀ t : Source, t.scanned = true → p t = true → s.rank ≤ t.rank

theorem exists_first {p : Source → Bool} {s : Source} (hs : s.scanned = true) (hp : p s = true) :
    ∃ t, First p t := by
  classical
  have hex : ∃ n t, Source.scanned t = true ∧ p t = true ∧ t.rank = n := ⟨s.rank, s, hs, hp, rfl⟩
  obtain ⟨t, ht, htp, hrank⟩ := Nat.find_spec hex
  refine ⟨t, ht, htp, fun u hu hup => ?_⟩
  rw [hrank]
  exact Nat.find_min' hex ⟨u, hu, hup, rfl⟩

theorem not_raised_line {core : ℕ} {c : Controller F} {b : Fin 8}
    (h : ¬ raised core c (.line b) = true) : (c.source core).getLsbD b = false := by
  simpa [raised, pending] using h

/-- The timer lines are scanned upwards. -/
theorem find_timerLine (v : Word) (b : ℕ) (hb : b < 4) (hbit : v.getLsbD b = true)
    (hlow : ∀ m < b, v.getLsbD m = false) :
    (timerLines.find? fun line => v.getLsbD line) = some b := by
  have hlines : timerLines = [0, 1, 2, 3] := by decide
  rw [hlines, List.find?_eq_some_iff_append]
  refine ⟨hbit, List.range b, List.range' (b + 1) (3 - b), ?_, fun m hm => ?_⟩
  · interval_cases b <;> decide
  · rw [hlow m (List.mem_range.mp hm)]
    rfl

theorem find_timerLine_none (v : Word) (h : ∀ m < 4, v.getLsbD m = false) :
    (timerLines.find? fun line => v.getLsbD line) = none := by
  have hlines : timerLines = [0, 1, 2, 3] := by decide
  rw [hlines, List.find?_eq_none]
  intro m hm
  have hm4 : m < 4 := by
    simp only [List.mem_cons, List.not_mem_nil, or_false] at hm
    omega
  rw [h m hm4]
  exact nofun

/-- The lowest bit of the two banks, by its IRQ number. -/
theorem banksSlot_eq {core : ℕ} {c : Controller F} {n : Fin 64}
    (hbit : pending core c (.irq n) = true)
    (hlow : ∀ m : Fin 64, m < n → pending core c (.irq m) = false) :
    banksSlot c = some (n : ℕ) := by
  by_cases hn : (n : ℕ) < 32
  · have hp₁ : lowestSetBit (c.memory .IRQ_Pending1) = some (n : ℕ) := by
      refine lowestSetBit_eq_some (by simpa [pending, Fin.lt_def, hn] using hbit) fun m hm => ?_
      have h := hlow ⟨m, by omega⟩ (by rw [Fin.lt_def]; exact hm)
      simpa [pending, Fin.lt_def, show m < 32 by omega] using h
    rw [banksSlot, hp₁]
  · have hp₁ : lowestSetBit (c.memory .IRQ_Pending1) = none := by
      rw [lowestSetBit_eq_none_iff, eq_zero_iff_getLsbD]
      intro m hm
      have h := hlow ⟨m, by omega⟩ (by rw [Fin.lt_def]; simp; omega)
      simpa [pending, Fin.lt_def, hm] using h
    have hp₂ : lowestSetBit (c.memory .IRQ_Pending2) = some (n - 32 : ℕ) := by
      refine lowestSetBit_eq_some (by simpa [pending, Fin.lt_def, hn] using hbit) fun m hm => ?_
      have h := hlow ⟨m + 32, by omega⟩ (by rw [Fin.lt_def]; simp; omega)
      simpa [pending, Fin.lt_def] using h
    rw [banksSlot, hp₁, hp₂]
    simp only [Option.map_some, Option.some.injEq]
    omega

theorem banksSlot_none {core : ℕ} {c : Controller F}
    (h : ∀ n : Fin 64, pending core c (.irq n) = false) : banksSlot c = none := by
  have hp₁ : lowestSetBit (c.memory .IRQ_Pending1) = none := by
    rw [lowestSetBit_eq_none_iff, eq_zero_iff_getLsbD]
    intro m hm
    simpa [pending, Fin.lt_def, hm] using h ⟨m, by omega⟩
  have hp₂ : lowestSetBit (c.memory .IRQ_Pending2) = none := by
    rw [lowestSetBit_eq_none_iff, eq_zero_iff_getLsbD]
    intro m hm
    simpa [pending, Fin.lt_def] using h ⟨m + 32, by omega⟩
  rw [banksSlot, hp₁, hp₂]
  rfl

/-- The slot looked up is that of the first raised source. -/
theorem selected_first {core : ℕ} {c : Controller F} {s : Source} (h : First (raised core c) s) :
    selected core c = some s.slot := by
  have hbefore : ∀ t : Source, t.scanned = true → t.rank < s.rank → ¬ raised core c t = true :=
    fun t ht hlt hr => absurd (h.least t ht hr) (by omega)
  cases s with
  | line b =>
    have hb : (b : ℕ) < 4 := by simpa [Source.scanned, Fin.lt_def] using h.scanned
    have hline := find_timerLine (c.source core) b hb
      (by simpa [raised, pending] using h.holds) fun m hm =>
        not_raised_line (hbefore (.line ⟨m, by omega⟩)
          (by simp [Source.scanned, Fin.lt_def]; omega) (by simpa [Source.rank] using hm))
    rw [selected, hline]
    rfl
  | irq n =>
    have hline := find_timerLine_none (c.source core) fun m hm =>
      not_raised_line (hbefore (.line ⟨m, by omega⟩)
        (by simp [Source.scanned, Fin.lt_def]; omega) (by simp [Source.rank]; omega))
    obtain ⟨hbit, hgpu⟩ := Bool.and_eq_true_iff.mp h.holds
    rw [selected, hline]
    simp only [hgpu, if_true]
    refine banksSlot_eq hbit fun m hm => ?_
    have hm' := hbefore (.irq m) rfl (by simp only [Source.rank]; omega)
    simpa [raised, hgpu] using hm'

theorem selected_none {core : ℕ} {c : Controller F}
    (h : ∀ s : Source, s.scanned = true → ¬ raised core c s = true) : selected core c = none := by
  have hline := find_timerLine_none (c.source core) fun m hm =>
    not_raised_line (h (.line ⟨m, by omega⟩) (by simp [Source.scanned, Fin.lt_def]; omega))
  rw [selected, hline]
  by_cases hgpu : (c.source core).getLsbD ArmLocal.GPU = true
  · simp only [hgpu, if_true]
    exact banksSlot_none fun n => by simpa [raised, hgpu] using h (.irq n) rfl
  · simp only [hgpu]
    rfl

/-! ## Runs of calls -/

/-- The sources `dispatch` looks at, in the order of their ranks. -/
def scanOrder : List Source :=
  (List.finRange 4).map (fun b => .line (b.castLE (by omega))) ++ (List.finRange 64).map .irq

theorem mem_scanOrder (s : Source) : s ∈ scanOrder ↔ s.scanned = true := by
  cases s with
  | line b =>
    simp only [scanOrder, List.mem_append, List.mem_map, List.mem_finRange, true_and,
      Source.line.injEq, reduceCtorEq, exists_false, or_false, Source.scanned, decide_eq_true_eq]
    constructor
    · rintro ⟨m, rfl⟩
      exact m.isLt
    · intro hb
      exact ⟨⟨b, hb⟩, rfl⟩
  | irq n => simp [scanOrder, Source.scanned]

theorem scanOrder_pairwise : scanOrder.Pairwise fun s t => s.rank < t.rank := by
  rw [scanOrder, List.pairwise_append]
  refine ⟨?_, ?_, ?_⟩
  · rw [List.pairwise_map]
    exact (List.pairwise_lt_finRange 4).imp fun h => h
  · rw [List.pairwise_map]
    refine (List.pairwise_lt_finRange 64).imp fun {m n} h => ?_
    simp only [Source.rank]
    omega
  · intro s hs t ht
    obtain ⟨b, -, rfl⟩ := List.mem_map.mp hs
    obtain ⟨n, -, rfl⟩ := List.mem_map.mp ht
    simp only [Source.rank, Fin.val_castLE]
    omega

/-- The pending sources in the order of their ranks. -/
def pendingList (core : ℕ) (c : Controller F) : List Source := scanOrder.filter (pending core c)

theorem mem_pendingList (core : ℕ) (c : Controller F) (s : Source) :
    s ∈ pendingList core c ↔ s.scanned = true ∧ pending core c s = true := by
  rw [pendingList, List.mem_filter, mem_scanOrder]

theorem pendingList_pairwise (core : ℕ) (c : Controller F) :
    (pendingList core c).Pairwise fun s t => s.rank < t.rank :=
  scanOrder_pairwise.filter _

theorem first_of_cons {core : ℕ} {c : Controller F} {s : Source} {rest : List Source}
    (h : pendingList core c = s :: rest) : First (pending core c) s := by
  have hs := (mem_pendingList core c s).mp (h ▸ List.mem_cons_self)
  refine ⟨hs.1, hs.2, fun t ht htp => ?_⟩
  have hmem : t ∈ s :: rest := h ▸ (mem_pendingList core c t).mpr ⟨ht, htp⟩
  have hsorted := h ▸ pendingList_pairwise core c
  rcases List.mem_cons.mp hmem with rfl | hmem
  · exact le_rfl
  · exact (List.rel_of_pairwise_cons hsorted hmem).le

/-- What the environment promises between calls: the GPU bit tells whether a legacy IRQ
is pending, and whatever is pending has the handler `h` gives. -/
structure Wired (core : ℕ) (h : Source → F) (c : Controller F) : Prop where
  gpu : (c.source core).getLsbD ArmLocal.GPU = true ↔ ∃ n, pending core c (.irq n) = true
  registered : ∀ s : Source, s.scanned = true → pending core c s = true →
    c.ivt.handler s.slot = some (h s)

/-- The handler of a source clears the pending bit of that source alone. -/
structure Acknowledges (core : ℕ) (h : Source → F)
    (effect : F → Controller F → Controller F) : Prop where
  clears : ∀ s : Source, s.scanned = true → ∀ c t,
    pending core (effect (h s) c) t = (pending core c t && decide (t ≠ s))
  wired : ∀ s : Source, s.scanned = true → ∀ c, Wired core h c → Wired core h (effect (h s) c)

section Served

variable {core : ℕ} {h : Source → F} {effect : F → Controller F → Controller F}
variable {c : Controller F}

theorem Wired.raised_eq (hw : Wired core h c) : raised core c = pending core c := by
  funext s
  cases s with
  | line b => simp [raised]
  | irq n =>
    cases hp : pending core c (.irq n)
    · simp [raised, hp]
    · simp [raised, hp, hw.gpu.mpr ⟨n, hp⟩]

theorem Wired.chosen_eq (hw : Wired core h c) :
    chosen core c = (pendingList core c).head?.map h := by
  cases hl : pendingList core c with
  | nil =>
    have hnone : selected core c = none := by
      refine selected_none fun s hs hr => ?_
      have hmem := (mem_pendingList core c s).mpr ⟨hs, hw.raised_eq ▸ hr⟩
      rw [hl] at hmem
      cases hmem
    rw [chosen, hnone]
    rfl
  | cons s rest =>
    have hfirst := first_of_cons hl
    rw [chosen, selected_first (hw.raised_eq ▸ hfirst)]
    exact hw.registered s hfirst.scanned hfirst.holds

/-- One call serves the head of the pending list. -/
theorem dispatch_serves (hA : Acknowledges core h effect) (hw : Wired core h c) :
    called ((dispatch core).history (storage effect) c) =
        ((pendingList core c).take 1).map h ∧
      pendingList core ((dispatch core).run (storage effect) c).2 =
        (pendingList core c).drop 1 ∧
      Wired core h ((dispatch core).run (storage effect) c).2 := by
  obtain ⟨hrun, hcalled⟩ := dispatch_spec effect c core
  rw [hrun, hcalled, hw.chosen_eq]
  cases hl : pendingList core c with
  | nil => exact ⟨rfl, hl, hw⟩
  | cons s rest =>
    have hs := (first_of_cons hl).scanned
    refine ⟨rfl, ?_, hA.wired s hs c hw⟩
    have hclears : pending core (effect (h s) c) = fun t => pending core c t && decide (t ≠ s) :=
      funext (hA.clears s hs c)
    have hsorted := hl ▸ pendingList_pairwise core c
    have hrest : ∀ t ∈ rest, decide (t ≠ s) = true := by
      intro t ht
      have hlt := List.rel_of_pairwise_cons hsorted ht
      simp only [ne_eq, decide_not, Bool.not_eq_eq_eq_not, Bool.not_true, decide_eq_false_iff_not]
      rintro rfl
      exact absurd hlt (lt_irrefl _)
    simp only [List.head?_cons, Option.map_some, Option.elim_some, List.drop_succ_cons,
      List.drop_zero]
    rw [pendingList, hclears]
    calc scanOrder.filter (fun t => pending core c t && decide (t ≠ s))
        = (pendingList core c).filter (fun t => decide (t ≠ s)) := by
          rw [pendingList, List.filter_filter]
          simp only [Bool.and_comm]
      _ = rest.filter (fun t => decide (t ≠ s)) := by rw [hl]; simp
      _ = rest := List.filter_eq_self.mpr hrest

/-- With no arrivals, `n` calls serve the first `n` pending sources. -/
theorem times_dispatch (hA : Acknowledges core h effect) (hw : Wired core h c) (n : ℕ) :
    called (((dispatch core).times n).history (storage effect) c) =
        ((pendingList core c).take n).map h ∧
      pendingList core (((dispatch core).times n).run (storage effect) c).2 =
        (pendingList core c).drop n := by
  induction n generalizing c with
  | zero => exact ⟨rfl, rfl⟩
  | succ n ih =>
    obtain ⟨hcalled, hafter, hw'⟩ := dispatch_serves hA hw
    obtain ⟨hcalls, hend⟩ := ih hw'
    rw [Prog.times, Prog.history_bind, Prog.run_bind]
    refine ⟨?_, ?_⟩
    · rw [called, List.filterMap_append]
      rw [called] at hcalled hcalls
      rw [hcalled, hcalls, hafter, ← List.map_append, ← List.take_add, Nat.add_comm]
    · rw [hend, hafter, List.drop_drop, Nat.add_comm]

end Served

/-- Successive calls of `dispatch`: before each one further sources may become pending.
The list holds the states in which the calls are made. -/
inductive Calls (core : ℕ) (h : Source → F) (effect : F → Controller F → Controller F) :
    Controller F → List (Controller F) → Controller F → Prop
  | done (c : Controller F) : Calls core h effect c [] c
  | call {c c₁ c' : Controller F} {cs : List (Controller F)}
      (arrive : ∀ s, pending core c s = true → pending core c₁ s = true)
      (wired : Wired core h c₁)
      (rest : Calls core h effect ((dispatch core).run (storage effect) c₁).2 cs c') :
      Calls core h effect c (c₁ :: cs) c'

/-- Each call serves the first pending source, or nothing when nothing is pending. -/
theorem Calls.serves {core : ℕ} {h : Source → F} {effect : F → Controller F → Controller F}
    (hA : Acknowledges core h effect) {c c' : Controller F} {cs : List (Controller F)}
    (hcs : Calls core h effect c cs c') :
    ∀ c₁ ∈ cs, (∃ s, First (pending core c₁) s ∧
        called ((dispatch core).history (storage effect) c₁) = [h s]) ∨
      ((∀ s : Source, s.scanned = true → pending core c₁ s = false) ∧
        called ((dispatch core).history (storage effect) c₁) = []) := by
  induction hcs with
  | done c => exact fun _ h => absurd h List.not_mem_nil
  | @call c c₀ c' cs arrive wired rest ih =>
    intro c₁ hc₁
    rcases List.mem_cons.mp hc₁ with rfl | hc₁
    · obtain ⟨hcalled, -, -⟩ := dispatch_serves hA wired
      rw [hcalled]
      cases hl : pendingList core c₁ with
      | nil =>
        refine .inr ⟨fun s hs => ?_, rfl⟩
        by_contra hp
        have hmem := (mem_pendingList core c₁ s).mpr ⟨hs, by simpa using hp⟩
        rw [hl] at hmem
        cases hmem
      | cons s rest => exact .inl ⟨s, first_of_cons hl, rfl⟩
    · exact ih c₁ hc₁

/-- No pending source is lost: it is the one served by some call, or still pending. -/
theorem Calls.keeps {core : ℕ} {h : Source → F} {effect : F → Controller F → Controller F}
    (hA : Acknowledges core h effect) {c c' : Controller F} {cs : List (Controller F)}
    (hcs : Calls core h effect c cs c') (s : Source) (hs : s.scanned = true)
    (hp : pending core c s = true) :
    (∃ c₁ ∈ cs, First (pending core c₁) s) ∨ pending core c' s = true := by
  induction hcs with
  | done c => exact .inr hp
  | @call c c₀ c' cs arrive wired rest ih =>
    by_cases hfirst : First (pending core c₀) s
    · exact .inl ⟨c₀, List.mem_cons_self, hfirst⟩
    · have hmem := (mem_pendingList core c₀ s).mpr ⟨hs, arrive s hp⟩
      obtain ⟨-, hafter, -⟩ := dispatch_serves hA wired
      have hkept : s ∈ (pendingList core c₀).drop 1 := by
        cases hl : pendingList core c₀ with
        | nil =>
          rw [hl] at hmem
          cases hmem
        | cons t rest =>
          rw [hl] at hmem
          rcases List.mem_cons.mp hmem with rfl | hmem
          · exact absurd (first_of_cons hl) hfirst
          · exact hmem
      rw [← hafter, mem_pendingList] at hkept
      rcases ih hkept.2 with ⟨c₁, hc₁, hf⟩ | hend
      · exact .inl ⟨c₁, List.mem_cons_of_mem _ hc₁, hf⟩
      · exact .inr hend

theorem chosen_congr {core : ℕ} {c c' : Controller F} (hivt : c'.ivt = c.ivt)
    (hmemory : c'.memory = c.memory) (hsource : c'.source core = c.source core) :
    chosen core c' = chosen core c := by
  rw [chosen, chosen, selected, selected, banksSlot, banksSlot, hivt, hmemory, hsource]

/-- Dispatch order and no loss, for a core whose pending sources all have handlers that
acknowledge them. -/
theorem dispatch_order (core : ℕ) (h : Source → F) (effect : F → Controller F → Controller F)
    (hA : Acknowledges core h effect) :
    (∀ c cs c', Calls core h effect c cs c' →
      (∀ c₁ ∈ cs, (∃ s, First (pending core c₁) s ∧
          called ((dispatch core).history (storage effect) c₁) = [h s]) ∨
        ((∀ s : Source, s.scanned = true → pending core c₁ s = false) ∧
          called ((dispatch core).history (storage effect) c₁) = [])) ∧
      ∀ s : Source, s.scanned = true → pending core c s = true →
        (∃ c₁ ∈ cs, First (pending core c₁) s) ∨ pending core c' s = true) ∧
    (∀ c, Wired core h c → ∀ n,
      called (((dispatch core).times n).history (storage effect) c) =
          ((pendingList core c).take n).map h ∧
        pendingList core (((dispatch core).times n).run (storage effect) c).2 =
          (pendingList core c).drop n) ∧
    (∀ c c' : Controller F, c'.ivt = c.ivt → c'.memory = c.memory →
      c'.source core = c.source core →
        called ((dispatch core).history (storage effect) c') =
          called ((dispatch core).history (storage effect) c)) := by
  refine ⟨fun c cs c' hcs => ⟨hcs.serves hA, fun s hs hp => hcs.keeps hA s hs hp⟩,
    fun c hw n => times_dispatch hA hw n, fun c c' hivt hmemory hsource => ?_⟩
  rw [(dispatch_spec effect c core).2, (dispatch_spec effect c' core).2,
    chosen_congr hivt hmemory hsource]

/-! ## A controller whose handlers acknowledge their sources -/

/-- The hardware's gate: the GPU bit tells whether a bank has a pending bit. -/
def regate (core : ℕ) (c : Controller F) : Controller F :=
  let v := if c.memory .IRQ_Pending1 = 0 ∧ c.memory .IRQ_Pending2 = 0 then
      clearBit (c.source core) ArmLocal.GPU
    else setBit (c.source core) ArmLocal.GPU
  { c with armLocal := Function.update c.armLocal (ArmLocal.CORE_IRQ_SOURCE0 + core) v }

/-- Clear the pending bit of one source. -/
def withdraw (core : ℕ) (s : Source) (c : Controller F) : Controller F :=
  match s with
  | .line b =>
    let v := clearBit (c.source core) b
    { c with armLocal := Function.update c.armLocal (ArmLocal.CORE_IRQ_SOURCE0 + core) v }
  | .irq n =>
    if n < 32 then
      let v := clearBit (c.memory .IRQ_Pending1) n
      { c with memory := Function.update c.memory .IRQ_Pending1 v }
    else
      let v := clearBit (c.memory .IRQ_Pending2) (n - 32)
      { c with memory := Function.update c.memory .IRQ_Pending2 v }

theorem source_update (core : ℕ) (c : Controller F) (v : Word) :
    ({ c with armLocal := Function.update c.armLocal (ArmLocal.CORE_IRQ_SOURCE0 + core) v } :
      Controller F).source core = v := by
  simp [Controller.source]

theorem pending_regate (core : ℕ) (c : Controller F) (t : Source) :
    pending core (regate core c) t = pending core c t := by
  cases t with
  | line b =>
    have hb : ¬ ArmLocal.GPU = (b : ℕ) := by simp only [ArmLocal.GPU]; omega
    simp only [pending, regate, source_update]
    split_ifs
    · simp [getLsbD_clearBit, hb]
    · simp [getLsbD_setBit, hb]
  | irq n => rfl

theorem pending_withdraw (core : ℕ) (s : Source) (c : Controller F) (t : Source) :
    pending core (withdraw core s c) t = (pending core c t && decide (t ≠ s)) := by
  cases s with
  | line b =>
    cases t with
    | line b' =>
      simp only [pending, withdraw, source_update, getLsbD_clearBit, ne_eq, Source.line.injEq,
        Fin.ext_iff, eq_comm]
    | irq n => simp [pending, withdraw]
  | irq n =>
    cases t with
    | line b =>
      by_cases hn : n < 32 <;> simp [pending, withdraw, hn, Controller.source]
    | irq n' =>
      by_cases hn : n < 32 <;> by_cases hn' : n' < 32
      · simp only [pending, withdraw, hn, hn', if_true, Function.update_self, getLsbD_clearBit,
          ne_eq, Source.irq.injEq, Fin.ext_iff, eq_comm]
      · have hne : n' ≠ n := by rintro rfl; exact hn' hn
        simp [pending, withdraw, hn, hn', hne]
      · have hne : n' ≠ n := by rintro rfl; exact hn hn'
        simp [pending, withdraw, hn, hn', hne]
      · have hiff : (n : ℕ) - 32 = n' - 32 ↔ n' = n := by
          rw [Fin.lt_def] at hn hn'
          rw [Fin.ext_iff]
          simp at hn hn'
          omega
        simp [pending, withdraw, hn, hn', getLsbD_clearBit, hiff]

theorem banks_eq_zero_iff (core : ℕ) (c : Controller F) :
    (c.memory .IRQ_Pending1 = 0 ∧ c.memory .IRQ_Pending2 = 0) ↔
      ¬ ∃ n, pending core c (.irq n) = true := by
  rw [eq_zero_iff_getLsbD, eq_zero_iff_getLsbD]
  constructor
  · rintro ⟨h₁, h₂⟩ ⟨n, hn⟩
    by_cases hlt : n < 32
    · have hbit := h₁ n (by simpa [Fin.lt_def] using hlt)
      simp [pending, hlt, hbit] at hn
    · have hbit := h₂ (n - 32) (by omega)
      simp [pending, hlt, hbit] at hn
  · intro h
    refine ⟨fun i hi => ?_, fun i hi => ?_⟩
    · by_contra hbit
      refine h ⟨⟨i, by omega⟩, ?_⟩
      simpa [pending, Fin.lt_def, hi] using hbit
    · by_contra hbit
      refine h ⟨⟨i + 32, by omega⟩, ?_⟩
      simpa [pending, Fin.lt_def] using hbit

/-- Handlers named by their sources, each withdrawing its own, acknowledge. -/
theorem acknowledges_withdraw (core : ℕ) :
    Acknowledges core id fun s c => regate core (withdraw core s c) := by
  have hclears : ∀ (s : Source) (c : Controller Source) t,
      pending core (regate core (withdraw core s c)) t = (pending core c t && decide (t ≠ s)) := by
    intro s c t
    rw [pending_regate, pending_withdraw]
  refine ⟨fun s _ c t => hclears s c t, fun s _ c hw => ⟨?_, fun t ht htp => ?_⟩⟩
  · simp only [id_eq, regate, source_update]
    by_cases hz : (withdraw core s c).memory .IRQ_Pending1 = 0 ∧
        (withdraw core s c).memory .IRQ_Pending2 = 0
    · rw [if_pos hz]
      refine iff_of_false ?_ ((banks_eq_zero_iff core _).mp hz)
      simp [getLsbD_clearBit]
    · rw [if_neg hz]
      refine iff_of_true ?_ (not_not.mp (mt (banks_eq_zero_iff core _).mpr hz))
      simp [getLsbD_setBit, ArmLocal.GPU]
  · rw [id_eq, hclears, Bool.and_eq_true_iff] at htp
    have hivt : (regate core (withdraw core s c)).ivt = c.ivt := by
      cases s with
      | line b => rfl
      | irq n => by_cases hn : n < 32 <;> simp [regate, withdraw, hn]
    rw [id_eq, hivt]
    exact hw.registered t ht htp.1

/-- Timer line 2 and the IRQs 7 and 53 pending on core 1. -/
def threePending : Controller Source where
  memory := fun
    | .IRQ_Pending1 => 1 <<< 7
    | .IRQ_Pending2 => 1 <<< 21
    | _ => 0
  armLocal := fun r => if r = ArmLocal.CORE_IRQ_SOURCE0 + 1 then 0x104 else 0
  ivt := ⟨fun _ => none, fun i =>
    some (if h : i.val < 64 then .irq ⟨i, h⟩ else .line (Fin.ofNat 8 (i - 64)))⟩

/-- Three calls serve them in this order. -/
theorem dispatch_order_threePending :
    called (((dispatch 1).times 3).history
        (storage fun s c => regate 1 (withdraw 1 s c)) threePending) =
      [.line 2, .irq 7, .irq 53] := by
  have horder := dispatch_order 1 id _ (acknowledges_withdraw 1)
  have hw : Wired 1 id threePending := by
    refine ⟨iff_of_true (by decide) ⟨7, by decide⟩, fun s _ _ => ?_⟩
    cases s with
    | line b => fin_cases b <;> rfl
    | irq n => fin_cases n <;> rfl
  have hlist : pendingList 1 threePending = [.line 2, .irq 7, .irq 53] := by decide
  rw [(horder.2.1 threePending hw 3).1, hlist]
  rfl

end Bcm2837.Interrupt
