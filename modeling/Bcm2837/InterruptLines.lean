import Bcm2837.BitField
import Bcm2837.InterruptDriver
import Bcm2837.Overrides

/-!
# Switching interrupt lines

The enable and disable registers of the legacy controller take requests: a written 1
switches its line, a written 0 does nothing. The driver changes both by
read-modify-write, so a disable also repeats the requests the register still reads back.
-/
namespace Bcm2837.Interrupt

variable {F : Type}

/-- The legacy controller. An enable register reads back the enabled lines, a disable
register what was last written to it. -/
def writeOne : Prog.Handler (Access Register Word) Access.Ans (Register → Word)
  | .load r, m => (m r, m)
  | .store .Enable_IRQs_1 v, m =>
    ((), Function.update m .Enable_IRQs_1 (m .Enable_IRQs_1 ||| v))
  | .store .Enable_IRQs_2 v, m =>
    ((), Function.update m .Enable_IRQs_2 (m .Enable_IRQs_2 ||| v))
  | .store .Disable_IRQs_1 v, m =>
    ((), Function.update (Function.update m .Enable_IRQs_1 (m .Enable_IRQs_1 &&& ~~~v))
      .Disable_IRQs_1 v)
  | .store .Disable_IRQs_2 v, m =>
    ((), Function.update (Function.update m .Enable_IRQs_2 (m .Enable_IRQs_2 &&& ~~~v))
      .Disable_IRQs_2 v)
  | .store r v, m => ((), Function.update m r v)

/-- The driver's surroundings with the legacy controller in place of storage. -/
def legacy : Prog.Handler (Cmd F) Cmd.Ans (Controller F)
  | .memory a, c => ((writeOne a c.memory).1, { c with memory := (writeOne a c.memory).2 })
  | a, c => storage (fun _ c => c) a c

/-- A call that switches a line. -/
inductive LineCall
  | enable (irqNumber : ℕ)
  | disable (irqNumber : ℕ)
  deriving DecidableEq

namespace LineCall

def number : LineCall → ℕ
  | enable n => n
  | disable n => n

def exec : LineCall → Io F Unit
  | enable n => Interrupt.enable n
  | disable n => Interrupt.disable n

/-- What the call asks for line `n`. -/
def asks (n : ℕ) : LineCall → Option Bool
  | enable k => if k = n then some true else none
  | disable k => if k = n then some false else none

end LineCall

/-- The controller after a sequence of calls. -/
def switched (c : Controller F) (calls : List LineCall) : Controller F :=
  calls.foldl (fun c call => (call.exec.run legacy c).2) c

/-- The amount by which a call for a line shifts. -/
def lineShift (n : ℕ) : ℕ := if n < 32 then n else n - 32

def enableReg (n : ℕ) : Register := if n < 32 then .Enable_IRQs_1 else .Enable_IRQs_2
def disableReg (n : ℕ) : Register := if n < 32 then .Disable_IRQs_1 else .Disable_IRQs_2

theorem enable_eq (n : ℕ) :
    (enable n : Io F Unit) = modify (enableReg n) (· ||| ((1 : Word) <<< lineShift n)) := by
  unfold enable enableReg lineShift
  split_ifs <;> rfl

theorem disable_eq (n : ℕ) :
    (disable n : Io F Unit) = modify (disableReg n) (· ||| ((1 : Word) <<< lineShift n)) := by
  unfold disable disableReg lineShift
  split_ifs <;> rfl

/-- Line `n` is enabled. -/
def Controller.lit (c : Controller F) (n : ℕ) : Bool :=
  (c.memory (enableReg n)).getLsbD (lineShift n)

/-- The disable register reads back a request for line `n`. -/
def Controller.requested (c : Controller F) (n : ℕ) : Bool :=
  (c.memory (disableReg n)).getLsbD (lineShift n)

/-- Two lines share their registers. -/
def SameBank (k n : ℕ) : Prop := k < 32 ↔ n < 32

instance (k n : ℕ) : Decidable (SameBank k n) := inferInstanceAs (Decidable (_ ↔ _))

theorem lineShift_lt {n : ℕ} (hn : n ≤ 63) : lineShift n < 32 := by
  unfold lineShift
  split_ifs <;> omega

/-- Within a bank, lines are told apart by their shift. -/
theorem SameBank.shift_eq {k n : ℕ} (h : SameBank k n) : lineShift k = lineShift n ↔ k = n := by
  unfold SameBank at h
  unfold lineShift
  split_ifs <;> omega

theorem getLsbD_request {k n : ℕ} (hn : n ≤ 63) (h : SameBank k n) :
    ((1 : Word) <<< lineShift k).getLsbD (lineShift n) = decide (k = n) := by
  rw [BitField.getLsbD_one_shiftLeft, Bool.eq_iff_iff, decide_eq_true_iff, decide_eq_true_iff,
    h.shift_eq]
  exact ⟨fun hk => hk.2, fun hk => ⟨lineShift_lt hn, hk⟩⟩

section Steps

variable (c : Controller F)

theorem memory_modify (r : Register) (f : Word → Word) :
    ((modify r f).run legacy c).2.memory = (writeOne (.store r (f (c.memory r))) c.memory).2 := rfl

theorem isEnabled_answer (n : ℕ) : ((isEnabled n).run legacy c).1 = c.lit n := by
  have hbit : ∀ (v : Word) (i : ℕ), ((v >>> i) &&& 1 == 1) = v.getLsbD i := by
    intro v i
    rw [BitField.shiftRight_and_one]
    cases v.getLsbD i <;> rfl
  unfold isEnabled Controller.lit enableReg lineShift
  split_ifs
  · exact hbit _ n
  · exact hbit _ (n - 32)

/-- What a store to an enable register leaves. -/
theorem memory_enable (k : ℕ) : (((enable k).run legacy c).2).memory =
    Function.update c.memory (enableReg k)
      (c.memory (enableReg k) ||| (1 : Word) <<< lineShift k) := by
  have hstore : ∀ (v : Word) (m : Register → Word), (writeOne (.store (enableReg k) v) m).2 =
      Function.update m (enableReg k) (m (enableReg k) ||| v) := by
    intro v m
    by_cases hk : k < 32
    · have hreg : enableReg k = .Enable_IRQs_1 := if_pos hk
      rw [hreg]
      rfl
    · have hreg : enableReg k = .Enable_IRQs_2 := if_neg hk
      rw [hreg]
      rfl
  rw [enable_eq, memory_modify, hstore, ← BitVec.or_assoc, BitVec.or_self]

/-- What a store to a disable register leaves. -/
theorem memory_disable (k : ℕ) : (((disable k).run legacy c).2).memory =
    Function.update (Function.update c.memory (enableReg k)
      (c.memory (enableReg k) &&& ~~~(c.memory (disableReg k) ||| (1 : Word) <<< lineShift k)))
      (disableReg k) (c.memory (disableReg k) ||| (1 : Word) <<< lineShift k) := by
  rw [disable_eq, memory_modify]
  by_cases hk : k < 32
  · have henable : enableReg k = .Enable_IRQs_1 := if_pos hk
    have hdisable : disableReg k = .Disable_IRQs_1 := if_pos hk
    rw [henable, hdisable]
    rfl
  · have henable : enableReg k = .Enable_IRQs_2 := if_neg hk
    have hdisable : disableReg k = .Disable_IRQs_2 := if_neg hk
    rw [henable, hdisable]
    rfl

theorem enableReg_eq {k n : ℕ} : enableReg k = enableReg n ↔ SameBank k n := by
  unfold enableReg SameBank
  split_ifs <;> simp [*]

theorem disableReg_eq {k n : ℕ} : disableReg k = disableReg n ↔ SameBank k n := by
  unfold disableReg SameBank
  split_ifs <;> simp [*]

theorem enableReg_ne_disableReg (k n : ℕ) : enableReg k ≠ disableReg n := by
  unfold enableReg disableReg
  split_ifs <;> exact nofun

/-- An enable switches its line on and leaves every other line alone. -/
theorem lit_enable (k : ℕ) {n : ℕ} (hn : n ≤ 63) :
    (((enable k).run legacy c).2).lit n = (decide (k = n) || c.lit n) := by
  rw [Controller.lit, memory_enable]
  by_cases hbank : SameBank k n
  · rw [enableReg_eq.mpr hbank, Function.update_self, BitVec.getLsbD_or, getLsbD_request hn hbank,
      Bool.or_comm]
    rfl
  · have hne : k ≠ n := fun h => hbank (h ▸ Iff.rfl)
    rw [Function.update_of_ne fun h => hbank (enableReg_eq.mp h.symm), decide_eq_false hne]
    rfl

theorem requested_enable (k n : ℕ) :
    (((enable k).run legacy c).2).requested n = c.requested n := by
  rw [Controller.requested, memory_enable,
    Function.update_of_ne (enableReg_ne_disableReg k n).symm]
  rfl

/-- A disable switches off its line and every line of the bank still requested. -/
theorem lit_disable (k : ℕ) {n : ℕ} (hn : n ≤ 63) :
    (((disable k).run legacy c).2).lit n =
      (c.lit n && !(decide (k = n) || decide (SameBank k n) && c.requested n)) := by
  rw [Controller.lit, memory_disable, Function.update_of_ne (enableReg_ne_disableReg n k)]
  by_cases hbank : SameBank k n
  · rw [enableReg_eq.mpr hbank, disableReg_eq.mpr hbank, Function.update_self, BitVec.getLsbD_and,
      BitVec.getLsbD_not, BitVec.getLsbD_or, getLsbD_request hn hbank, decide_eq_true hbank,
      decide_eq_true (lineShift_lt hn), Bool.true_and, Bool.true_and, Bool.or_comm]
    rfl
  · have hne : k ≠ n := fun h => hbank (h ▸ Iff.rfl)
    rw [Function.update_of_ne fun h => hbank (enableReg_eq.mp h.symm), decide_eq_false hne,
      decide_eq_false hbank, Bool.false_and, Bool.or_self, Bool.not_false, Bool.and_true]
    rfl

theorem requested_disable (k : ℕ) {n : ℕ} (hn : n ≤ 63) :
    (((disable k).run legacy c).2).requested n = (decide (k = n) || c.requested n) := by
  rw [Controller.requested, memory_disable]
  by_cases hbank : SameBank k n
  · rw [disableReg_eq.mpr hbank, Function.update_self, BitVec.getLsbD_or,
      getLsbD_request hn hbank, Bool.or_comm]
    rfl
  · have hne : k ≠ n := fun h => hbank (h ▸ Iff.rfl)
    rw [Function.update_of_ne fun h => hbank (disableReg_eq.mp h.symm),
      Function.update_of_ne (enableReg_ne_disableReg k n).symm, decide_eq_false hne]
    rfl

end Steps

/-! ## Sequences of calls -/

section Sequences

variable (c : Controller F)

theorem switched_concat (calls : List LineCall) (call : LineCall) :
    switched c (calls ++ [call]) = (call.exec.run legacy (switched c calls)).2 := by
  simp [switched, List.foldl_append]

theorem switched_append (before after : List LineCall) :
    switched c (before ++ after) = switched (switched c before) after := List.foldl_append

/-- Requests accumulate: none is ever withdrawn. -/
theorem requested_switched (calls : List LineCall) {n : ℕ} (hn : n ≤ 63) :
    (switched c calls).requested n = (c.requested n || decide (.disable n ∈ calls)) := by
  induction calls using List.reverseRecOn with
  | nil => simp [switched]
  | append_singleton calls call ih =>
    rw [switched_concat]
    cases call with
    | enable k => simp [LineCall.exec, requested_enable, ih]
    | disable k =>
      rw [LineCall.exec, requested_disable _ k hn, ih]
      by_cases hk : k = n
      · simp [hk]
      · simp [hk, Ne.symm hk]

/-- What a call, after the calls before it, does to line `n`. -/
def acts (n : ℕ) (before : List LineCall) : LineCall → Option Bool
  | .enable k => if k = n then some true else none
  | .disable k =>
    if k = n ∨ SameBank k n ∧ (c.requested n = true ∨ .disable n ∈ before) then some false else none

theorem lit_switched_concat {n : ℕ} (hn : n ≤ 63) (before : List LineCall) (call : LineCall) :
    (switched c (before ++ [call])).lit n =
      (acts c n before call).getD ((switched c before).lit n) := by
  rw [switched_concat]
  cases call with
  | enable k =>
    rw [LineCall.exec, lit_enable _ k hn, acts]
    by_cases hk : k = n <;> simp [hk]
  | disable k =>
    rw [LineCall.exec, lit_disable _ k hn, requested_switched c before hn, acts]
    by_cases hk : k = n
    · simp [hk]
    by_cases hbank : SameBank k n
    · by_cases hrequest : c.requested n = true ∨ .disable n ∈ before
      · rcases hrequest with h | h <;> simp [hk, hbank, h]
      · rw [not_or, Bool.not_eq_true] at hrequest
        simp [hk, hbank, hrequest.1, hrequest.2]
    · simp [hk, hbank]

theorem LineCall.asks_eq_none_iff (n : ℕ) (call : LineCall) :
    call.asks n = none ↔ call.number ≠ n := by
  cases call <;> simp [LineCall.asks, LineCall.number]

theorem LineCall.eq_of_asks {n : ℕ} {call : LineCall} {v : Bool} (h : call.asks n = some v) :
    call = if v then .enable n else .disable n := by
  cases call <;> simp only [LineCall.asks] at h <;> split_ifs at h with hk <;> cases h <;>
    rw [hk] <;> rfl

/-- Line `n` is enabled while its bank still holds a request to disable it, and a disable
of another line repeats that request. -/
def Replayed (n : ℕ) (calls : List LineCall) : Prop :=
  ∃ before after k, calls = before ++ .enable n :: after ∧
    (c.requested n = true ∨ .disable n ∈ before) ∧ (∀ d ∈ after, d.number ≠ n) ∧
    .disable k ∈ after ∧ SameBank k n

/-- Only an enable of the line itself switches it on. -/
theorem lit_switched_of_off {n : ℕ} (hn : n ≤ 63) {calls : List LineCall}
    (hoff : c.lit n = false) (hcalls : ∀ d ∈ calls, d.number ≠ n) :
    (switched c calls).lit n = false := by
  induction calls using List.reverseRecOn with
  | nil => exact hoff
  | append_singleton calls call ih =>
    have hlit := ih fun d hd => hcalls d (List.mem_append_left _ hd)
    rw [lit_switched_concat c hn, hlit]
    cases call with
    | enable k =>
      have hk : k ≠ n := hcalls (.enable k) (by simp)
      rw [acts, if_neg hk]
      rfl
    | disable k => rw [acts]; split_ifs <;> rfl

theorem lit_of_replayed {n : ℕ} (hn : n ≤ 63) {calls : List LineCall} (h : Replayed c n calls) :
    (switched c calls).lit n = false := by
  obtain ⟨before, after, k, rfl, hrequest, hafter, hk, hbank⟩ := h
  obtain ⟨mid, rest, rfl⟩ := List.append_of_mem hk
  have hsplit : before ++ .enable n :: (mid ++ .disable k :: rest) =
      (before ++ .enable n :: mid) ++ [.disable k] ++ rest := by simp
  have hrequest' : c.requested n = true ∨ .disable n ∈ before ++ .enable n :: mid :=
    hrequest.imp_right fun h => List.mem_append_left _ h
  have hoff : (switched c ((before ++ .enable n :: mid) ++ [.disable k])).lit n = false := by
    rw [lit_switched_concat c hn, acts, if_pos (.inr ⟨hbank, hrequest'⟩)]
    rfl
  rw [hsplit, switched_append]
  exact lit_switched_of_off _ hn hoff fun d hd => hafter d (by simp [hd])

/-- A call that repeats a request made before the line was last enabled. -/
theorem replayed_of_lastAsked {n k : ℕ} {before after : List LineCall} (hbank : SameBank k n)
    (hrequest : c.requested n = true ∨ .disable n ∈ before)
    (hafter : ∀ d ∈ .disable k :: after, LineCall.asks n d = none)
    (hlast : Overrides.lastAsked (LineCall.asks n) false before = true) :
    Replayed c n (before ++ .disable k :: after) := by
  rcases Overrides.silent_or_split (LineCall.asks n) before with
    hsilent | ⟨front, e, back, w, rfl, he, hback⟩
  · rw [Overrides.lastAsked_of_silent hsilent] at hlast
    cases hlast
  · rw [Overrides.lastAsked_split front he hback] at hlast
    subst hlast
    have henable : e = .enable n := LineCall.eq_of_asks he
    subst henable
    refine ⟨front, back ++ .disable k :: after, k, by simp, ?_, ?_, by simp, hbank⟩
    · refine hrequest.imp_right fun h => ?_
      rcases List.mem_append.mp h with h | h
      · exact h
      · rcases List.mem_cons.mp h with h | h
        · cases h
        · exact absurd rfl ((LineCall.asks_eq_none_iff n _).mp (hback _ h))
    · intro d hd
      rw [← LineCall.asks_eq_none_iff]
      rcases List.mem_append.mp hd with hd | hd
      · exact hback d hd
      · exact hafter d hd

theorem lastAsked_of_replayed {n : ℕ} {calls : List LineCall} (h : Replayed c n calls) :
    Overrides.lastAsked (LineCall.asks n) false calls = true := by
  obtain ⟨before, after, k, rfl, -, hafter, -⟩ := h
  have hasks : LineCall.asks n (.enable n) = some true := if_pos rfl
  exact Overrides.lastAsked_split before hasks
    fun d hd => (LineCall.asks_eq_none_iff n d).mpr (hafter d hd)

/-- A line is as it was last asked to be unless an old request was repeated. -/
theorem lit_eq_lastAsked_iff {n : ℕ} (hn : n ≤ 63) (hoff : c.lit n = false)
    (calls : List LineCall) :
    (switched c calls).lit n = Overrides.lastAsked (LineCall.asks n) false calls ↔
      ¬ Replayed c n calls := by
  constructor
  · intro h hreplayed
    rw [lit_of_replayed c hn hreplayed, lastAsked_of_replayed c hreplayed] at h
    cases h
  · intro hreplayed
    have hacts : ∀ before call v, LineCall.asks n call = some v →
        acts c n before call = some v := by
      intro before call v h
      rw [LineCall.eq_of_asks h]
      cases v <;> simp [acts]
    have hinit : (switched c []).lit n = false := hoff
    rw [← hinit]
    refine (Overrides.cell_eq_lastAsked_iff (fun calls => (switched c calls).lit n)
      (lit_switched_concat c hn) hacts calls).mpr ?_
    rintro before v ⟨call, after, rfl, hasks, hact, hquiet⟩
    obtain ⟨k, rfl, hk, rfl⟩ : ∃ k, call = .disable k ∧
        (SameBank k n ∧ (c.requested n = true ∨ .disable n ∈ before)) ∧ v = false := by
      cases call with
      | enable k =>
        have hne : k ≠ n := (LineCall.asks_eq_none_iff n _).mp hasks
        rw [acts, if_neg hne] at hact
        cases hact
      | disable k =>
        have hne : k ≠ n := (LineCall.asks_eq_none_iff n _).mp hasks
        rw [acts] at hact
        split_ifs at hact with h
        exact ⟨k, rfl, h.resolve_left hne, (Option.some.inj hact).symm⟩
    have hafter : ∀ d ∈ .disable k :: after, LineCall.asks n d = none := by
      intro d hd
      rcases List.mem_cons.mp hd with rfl | hd
      · exact hasks
      · obtain ⟨mid, rest, rfl⟩ := List.append_of_mem hd
        cases hasksd : d.asks n with
        | none => rfl
        | some w =>
          have hnone := hquiet mid d rest rfl
          rw [hacts _ d w hasksd] at hnone
          cases hnone
    rw [hinit]
    cases hlast : Overrides.lastAsked (LineCall.asks n) false before with
    | false => rfl
    | true => exact absurd (replayed_of_lastAsked c hk.1 hk.2 hafter hlast) hreplayed

/-- What the driver's interface promises of a sequence of calls: every line is as the last
call naming it asked, and a call for a number without a line does nothing, with no shift
by a word's width or more on the way. `lineShift` is the count that `enable` and `disable`
shift by (`enable_eq`, `disable_eq`). -/
structure Switchable (calls : List LineCall) : Prop where
  answers : ∀ n ≤ 63, ((isEnabled n).run legacy (switched c calls)).1 =
    Overrides.lastAsked (LineCall.asks n) false calls
  outOfRange : ∀ before call after, calls = before ++ call :: after → 63 < call.number →
    lineShift call.number < 32 ∧ switched c (before ++ [call]) = switched c before

/-- From all lines disabled, the lines are switched independently exactly when every call
names a line and no call repeats an old request for another line. -/
theorem switchable_iff (hoff : ∀ n ≤ 63, c.lit n = false) (calls : List LineCall) :
    Switchable c calls ↔
      (∀ call ∈ calls, call.number ≤ 63) ∧ ∀ n ≤ 63, ¬ Replayed c n calls := by
  constructor
  · intro h
    refine ⟨fun call hcall => ?_, fun n hn => ?_⟩
    · by_contra hlarge
      obtain ⟨before, after, hsplit⟩ := List.append_of_mem hcall
      have hshift := (h.outOfRange before call after hsplit (by omega)).1
      unfold lineShift at hshift
      split_ifs at hshift <;> omega
    · rw [← lit_eq_lastAsked_iff c hn (hoff n hn), ← isEnabled_answer]
      exact h.answers n hn
  · rintro ⟨hnumbers, hreplayed⟩
    refine ⟨fun n hn => ?_, fun before call after hsplit hlarge => ?_⟩
    · rw [isEnabled_answer, lit_eq_lastAsked_iff c hn (hoff n hn)]
      exact hreplayed n hn
    · have hnumber := hnumbers call (by simp [hsplit])
      omega

end Sequences

/-- All registers of the controller zero, no handlers. -/
def Controller.reset : Controller F := ⟨fun _ => 0, fun _ => 0, IVT.empty⟩

/-- Two lines of one bank, switched without a request for either being repeated. -/
theorem switchable_twoLines :
    Switchable (.reset : Controller Unit) [.enable 3, .disable 3, .disable 5, .enable 5] := by
  refine (switchable_iff .reset (fun n _ => BitVec.getLsbD_zero) _).mpr ⟨by decide, fun n _ => ?_⟩
  rintro ⟨before, after, k, hsplit, hrequest, -, hk, -⟩
  rcases before with _ | ⟨a, _ | ⟨b, _ | ⟨c, _ | ⟨d, before⟩⟩⟩⟩ <;> simp at hsplit
  · obtain ⟨rfl, rfl⟩ := hsplit
    rcases hrequest with h | h
    · cases h
    · cases h
  · obtain ⟨-, -, -, -, rfl⟩ := hsplit
    cases hk

/-- Line 3 is disabled and enabled again; disabling line 5 disables it once more. -/
theorem not_switchable_replay :
    ¬ Switchable (.reset : Controller Unit) [.disable 3, .enable 3, .disable 5] := by
  intro h
  have hanswer := h.answers 3 (by decide)
  revert hanswer
  decide

end Bcm2837.Interrupt
