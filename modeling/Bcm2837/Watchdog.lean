import Bcm2837.Overrides
import Bcm2837.PolledSteps
import Bcm2837.Traffic

/-!
# The watchdog and the last wait

The watchdog loop looks at the record before each wait, and not after the last one. A
transfer that is finalised for the first time in the last permitted wait is aborted and
reported as timed out.
-/
namespace Bcm2837
namespace Irq

open Bsc

variable {δ : Type} (d : Device δ)

def finalises (e : Cmd × World δ) : Option (Option I2cResult) := (reported e.1).map some

/-- The result of the last finalisation in a history. -/
def finalised (H : List (Cmd × World δ)) : Option I2cResult :=
  Overrides.lastAsked finalises none H

/-- The surroundings after `k` waits. -/
def waited (w : World δ) : ℕ → World δ
  | 0 => w
  | k + 1 => (anyIrqs.run (world d) (waited w k)).2

/-- The result with which wait `k` finalises the transfer. -/
def finalisedIn (w : World δ) (k : ℕ) : Option I2cResult :=
  finalised (anyIrqs.history (world d) (waited d w k))

/-- A synchronous transfer, by direction. -/
def synchronous (maxWaits : ℕ) (reading : Bool) (addr : Byte) (buf : Ptr) (len : ℕ) :
    TransportM I2cResult :=
  if reading then read anyIrqs maxWaits addr buf len else write anyIrqs maxWaits addr buf len

/-- `abortTransfer` runs at some point of a call. -/
def Aborts (p : TransportM I2cResult) (w : World δ) : Prop :=
  ∃ v, abortTransfer.history (world d) v <:+: p.history (world d) w

/-- A transfer finalised in one of the permitted waits returns that result; a timeout that
is not on record is returned, and the transfer is aborted, only when none of them finalises
it. -/
structure NeverDiscards (maxWaits : ℕ) (reading : Bool) (addr : Byte) (buf : Ptr) (len : ℕ)
    (w : World δ) : Prop where
  returns : ∀ k < maxWaits, ∀ r,
    finalisedIn d ((begin reading addr buf len).run (world d) w).2 k = some r →
    (∀ j < k, finalisedIn d ((begin reading addr buf len).run (world d) w).2 j = none) →
    ((synchronous maxWaits reading addr buf len).run (world d) w).1 = r
  expires : ((synchronous maxWaits reading addr buf len).run (world d) w).1 = .timeout →
    (∀ k < maxWaits,
      finalisedIn d ((begin reading addr buf len).run (world d) w).2 k ≠ some .timeout) →
    ∀ k < maxWaits, finalisedIn d ((begin reading addr buf len).run (world d) w).2 k = none
  fires : Aborts d (synchronous maxWaits reading addr buf len) w →
    ∀ k < maxWaits, finalisedIn d ((begin reading addr buf len).run (world d) w).2 k = none

variable {d}

/-! ## What a wait leaves in the record -/

/-- What the watchdog loop sees of the record. -/
def outcome (x : Xfer) : Option I2cResult := if x.done then some x.result else none

/-- The record shows the last finalisation. -/
def Shows (s : World δ) (H : List (Cmd × World δ)) (t : World δ) : Prop :=
  outcome t.xfer = Overrides.lastAsked finalises (outcome s.xfer) H

theorem sequential_shows : Prog.Sequential (@Shows δ) where
  idle s := rfl
  trans {s t r H K} h₁ h₂ := by
    unfold Shows at h₁ h₂ ⊢
    rw [Overrides.lastAsked_append, ← h₁, h₂]

/-- Nothing finalised, and the record as it was. -/
theorem shows_silent {s t : World δ} {H : List (Cmd × World δ)}
    (hH : ∀ e ∈ H, finalises e = none) (hdone : t.xfer.done = s.xfer.done)
    (hresult : t.xfer.result = s.xfer.result) : Shows s H t := by
  unfold Shows outcome
  rw [Overrides.lastAsked_of_silent hH, hdone, hresult]

theorem finalised_finalize (r : I2cResult) (w : World δ) (hw : Uncalled w)
    (init : Option I2cResult) :
    Overrides.lastAsked finalises init ((finalize r).history (world d) w) = some r := by
  obtain ⟨H, -, hreports, hhist⟩ := history_finalize d w r
  have hcb : w.xfer.cb = nullptr := hw
  have hall : ((finalize r).history (world d) w).filterMap finalises = [some r] := by
    rw [hhist, if_pos hcb, List.append_nil]
    have hmap : H.filterMap finalises = (reports H).map some := List.map_filterMap.symm
    rw [hmap, hreports]
    rfl
  rw [Overrides.lastAsked_eq, hall]
  rfl

theorem shows_finalize (r : I2cResult) (w : World δ) (hw : Uncalled w) :
    Uncalled ((finalize r).run (world d) w).2 ∧
      Shows w ((finalize r).history (world d) w) ((finalize r).run (world d) w).2 := by
  have hcb : w.xfer.cb = nullptr := hw
  rw [Shows, finalised_finalize r w hw, run_finalize, if_pos hcb]
  exact ⟨hw, rfl⟩

theorem shows_peek (w : World δ) : Shows w ((.status, w) :: peek d w) w.next := by
  refine shows_silent ?_ rfl rfl
  unfold peek
  split_ifs <;> simp [finalises, reported]

/-- Any number of interrupts of a transfer without a callback. -/
theorem shows_anyIrqs : Prog.Triple (world d) Shows Uncalled anyIrqs fun _ => Uncalled := by
  have hlook : ∀ w : World δ, Shows w [(.xfer, w)] w :=
    fun w => shows_silent (by simp [finalises, reported]) rfl rfl
  have hcount : ∀ w : World δ, Shows w [(.interrupts, w)] (world d .interrupts w).2 :=
    fun w => shows_silent (by simp [finalises, reported]) rfl rfl
  refine triple_anyIrqs sequential_shows (fun w hw => ⟨hw, hcount w⟩)
    (triple_handleIrq sequential_shows (fun w _ => hlook w) fun fuel =>
      triple_passes sequential_shows ?_ ?_ ?_ ?_ fuel)
  · exact fun w hw _ => ⟨hw, shows_peek w⟩
  · intro w hw _
    refine ⟨hw, sequential_shows.trans (shows_peek w) (shows_silent ?_ rfl rfl)⟩
    rw [history_popByte]
    simp [finalises, reported]
  · intro w hw _
    refine ⟨hw, sequential_shows.trans (shows_peek w) (shows_silent ?_ rfl rfl)⟩
    rw [history_pushByte]
    simp [finalises, reported]
  · intro w r hw _
    obtain ⟨hnext, hshows⟩ := shows_finalize (d := d) r w.next hw
    exact ⟨hnext, sequential_shows.trans (shows_peek w) hshows⟩

/-! ## The watchdog loop -/

/-- Unless none of the waits finalises the transfer, one of them is the first to do so. -/
theorem none_or_first (w : World δ) (n : ℕ) :
    (∀ k < n, finalisedIn d w k = none) ∨
      ∃ k < n, ∃ r, finalisedIn d w k = some r ∧ ∀ j < k, finalisedIn d w j = none := by
  induction n with
  | zero => exact .inl fun k hk => absurd hk (Nat.not_lt_zero k)
  | succ n ih =>
    rcases ih with hnone | ⟨k, hk, hfirst⟩
    · cases hr : finalisedIn d w n with
      | none =>
        refine .inl fun k hk => ?_
        rcases Nat.lt_succ_iff_lt_or_eq.mp hk with hlt | rfl
        · exact hnone k hlt
        · exact hr
      | some r => exact .inr ⟨n, Nat.lt_succ_self n, r, hr, hnone⟩
    · exact .inr ⟨k, Nat.lt_succ_of_lt hk, hfirst⟩

section Loop

variable {w : World δ}

theorem uncalled_waited (hw : Uncalled w) (k : ℕ) : Uncalled (waited d w k) := by
  induction k with
  | zero => exact hw
  | succ k ih => exact (shows_anyIrqs _ ih).1

theorem outcome_waited_succ (hw : Uncalled w) (k : ℕ)
    (hopen : outcome (waited d w k).xfer = none) :
    outcome (waited d w (k + 1)).xfer = finalisedIn d w k := by
  have hshows : outcome (waited d w (k + 1)).xfer = _ :=
    (shows_anyIrqs (waited d w k) (uncalled_waited hw k)).2
  rw [hshows, hopen]
  rfl

/-- The record stays open through waits that finalise nothing. -/
theorem outcome_waited (hw : Uncalled w) (hopen : outcome w.xfer = none) (k : ℕ)
    (hnone : ∀ j < k, finalisedIn d w j = none) : outcome (waited d w k).xfer = none := by
  induction k with
  | zero => exact hopen
  | succ k ih =>
    have hk := ih fun j hj => hnone j (Nat.lt_succ_of_lt hj)
    rw [outcome_waited_succ hw k hk, hnone k (Nat.lt_succ_self k)]

theorem run_waitLoop_succ (wait : TransportM Unit) (m : ℕ) (v : World δ) :
    (waitLoop wait (m + 1)).run (world d) v =
      match outcome v.xfer with
      | some r => (some r, v)
      | none => (waitLoop wait m).run (world d) (wait.run (world d) v).2 := by
  have hx : xfer.run (world d) v = (v.xfer, v) := rfl
  rw [waitLoop, memBarrier, pure_bind, Prog.run_bind, hx, outcome]
  dsimp only
  split_ifs
  · rfl
  · rw [Prog.run_bind]

/-- Waits that finalise nothing use up the budget. -/
theorem run_waitLoop_waited (hw : Uncalled w) (hopen : outcome w.xfer = none) (k m : ℕ)
    (hnone : ∀ j < k, finalisedIn d w j = none) :
    (waitLoop anyIrqs (m + k)).run (world d) w =
      (waitLoop anyIrqs m).run (world d) (waited d w k) := by
  induction k generalizing m with
  | zero => rfl
  | succ k ih =>
    have hbefore : ∀ j < k, finalisedIn d w j = none :=
      fun j hj => hnone j (Nat.lt_succ_of_lt hj)
    have hstep := run_waitLoop_succ (d := d) anyIrqs m (waited d w k)
    rw [outcome_waited hw hopen k hbefore] at hstep
    rw [← Nat.add_assoc, Nat.add_right_comm, ih (m + 1) hbefore, hstep]
    rfl

/-- A transfer finalised before the last wait is seen. -/
theorem run_waitLoop_finalised (hw : Uncalled w) (hopen : outcome w.xfer = none) {k m : ℕ}
    {r : I2cResult} (hfirst : ∀ j < k, finalisedIn d w j = none)
    (hk : finalisedIn d w k = some r) (hlt : k + 1 < m) :
    ((waitLoop anyIrqs m).run (world d) w).1 = some r := by
  obtain ⟨m, rfl⟩ : ∃ n, m = n + 1 + 1 + k := ⟨m - k - 2, by omega⟩
  have hmiss := outcome_waited hw hopen k hfirst
  have hseen := outcome_waited_succ hw k hmiss
  rw [run_waitLoop_waited hw hopen k _ hfirst, run_waitLoop_succ, hmiss]
  have hnext : (anyIrqs.run (world d) (waited d w k)).2 = waited d w (k + 1) := rfl
  dsimp only
  rw [hnext, run_waitLoop_succ, hseen, hk]

/-- The watchdog fires when all waits but the last finalise nothing. -/
theorem run_waitLoop_none (hw : Uncalled w) (hopen : outcome w.xfer = none) (m : ℕ)
    (hnone : ∀ j < m, finalisedIn d w j = none) :
    ((waitLoop anyIrqs (m + 1)).run (world d) w).1 = none := by
  rw [Nat.add_comm, run_waitLoop_waited hw hopen m 1 hnone, run_waitLoop_succ,
    outcome_waited hw hopen m hnone]
  rfl

end Loop

/-! ## A finished transfer is not aborted -/

def Marks (c : Cmd) : Prop := c = .assign (.done true)

def Deactivates (c : Cmd) : Prop := c = .assign (.active false)

/-- The record is deactivated only right after it has been marked as done. -/
def Orderly : World δ → List (Cmd × World δ) → World δ → Prop := Prog.Follows Marks Deactivates

theorem sequential_orderly : Prog.Sequential (@Orderly δ) :=
  Prog.sequential_follows Marks Deactivates

/-- A program that never deactivates the record. -/
theorem orderly_of_only {α : Type} {p : TransportM α} (hp : p.Only fun c => ¬ Deactivates c)
    (w t : World δ) : Orderly w (p.history (world d) w) t :=
  Prog.follows_of_free (hp.mem_history (world d) w) w t

theorem keeps_i2c {α : Type} (p : I2c.Io α) : (i2c p).Only fun c => ¬ Deactivates c :=
  Prog.only_lift (fun _ h => Cmd.noConfusion h) p

theorem keeps_begin (reading : Bool) (addr : Byte) (buf : Ptr) (len : ℕ) :
    (begin reading addr buf len).Only fun c => ¬ Deactivates c := by
  have hassign : ∀ a, a ≠ .active false → (assign a).Only fun c => ¬ Deactivates c :=
    fun a ha => ⟨fun h => ha (Cmd.assign.inj h), fun _ => trivial⟩
  have hpublish : (publishFor reading buf len).Only fun c => ¬ Deactivates c := by
    cases reading
    all_goals
      refine (hassign _ ?_).bind fun _ => (hassign _ ?_).bind fun _ => (hassign _ ?_).bind fun _ =>
        (hassign _ ?_).bind fun _ => (hassign _ ?_).bind fun _ => (hassign _ ?_).bind fun _ =>
          (hassign _ ?_).bind fun _ => hassign _ ?_
    all_goals simp
  exact (hassign _ (by simp)).bind fun _ => hpublish.bind fun _ => keeps_i2c _

theorem orderly_moves {c : Cmd} (hc : Moves c) (w t : World δ) : Orderly w [(c, w)] t := by
  refine Prog.follows_of_free (fun e he heq => ?_) w t
  rw [List.mem_singleton.mp he] at heq
  subst heq
  exact hc

theorem orderly_finalize (r : I2cResult) (w : World δ) (hw : Uncalled w) :
    Orderly w ((finalize r).history (world d) w) ((finalize r).run (world d) w).2 := by
  have hcb : w.xfer.cb = nullptr := hw
  have hhist : (finalize r).history (world d) w = (close r).history (world d) w ++
      [(.xfer, finished d w r)] := by
    simp [finalize_close, run_close, finished, hcb]
  have hrest : ∀ u t : World δ, Orderly u ((do
      assign (.result r)
      assign (.done true)
      assign (.active false) : TransportM Unit).history (world d) u) t := by
    intro u t
    constructor
    · rintro e ⟨⟩ h
      cases h
    · simp [Deactivates, Marks]
  rw [hhist, close, Prog.history_bind, List.append_assoc]
  exact sequential_orderly.trans (orderly_of_only (keeps_i2c _) w _)
    (sequential_orderly.trans (hrest _ _) (orderly_moves (c := .xfer) trivial _ _))

theorem orderly_look (w t : World δ) : Orderly w [(.xfer, w)] t :=
  orderly_moves (c := .xfer) trivial w t

theorem orderly_peek (w : World δ) : Orderly w ((.status, w) :: peek d w) w.next := by
  have hstatus : Orderly w [(.status, w)] w.next := orderly_moves (c := .status) trivial w _
  have hpeek : Orderly w.next (peek d w) w.next := by
    unfold peek
    split_ifs
    · exact sequential_orderly.idle _
    · exact orderly_look _ _
  exact sequential_orderly.trans hstatus hpeek

/-- Any number of interrupts of a transfer without a callback. -/
theorem orderly_anyIrqs : Prog.Triple (world d) Orderly Uncalled anyIrqs fun _ => Uncalled := by
  have hmove : ∀ c, Moves c → ∀ w : World δ, Uncalled w →
      Uncalled (world d c w).2 ∧ Orderly w [(c, w)] (world d c w).2 := by
    intro c hc w hw
    obtain ⟨ti, ri, hx⟩ := moves_xfer d w hc
    refine ⟨?_, orderly_moves hc w _⟩
    rw [Uncalled, hx]
    exact hw
  have hcount : ∀ w t : World δ, Orderly w [(.interrupts, w)] t := fun w =>
    Prog.follows_of_free (by simp [Deactivates]) w
  refine triple_anyIrqs sequential_orderly (fun w hw => ⟨hw, hcount w _⟩)
    (triple_handleIrq sequential_orderly (fun w _ => orderly_look w w)
      (triple_irqLoop sequential_orderly hmove ?_))
  intro w r hw _
  have hfinalize := orderly_finalize (d := d) r w.next hw
  exact ⟨(shows_finalize r w.next hw).1, sequential_orderly.trans (orderly_peek w) hfinalize⟩

/-- The watchdog loop by itself aborts nothing. -/
theorem orderly_waitLoop (maxWaits : ℕ) (w : World δ) (hw : Uncalled w) :
    Orderly w ((waitLoop anyIrqs maxWaits).history (world d) w)
      ((waitLoop anyIrqs maxWaits).run (world d) w).2 :=
  (triple_waitLoop (Q := fun _ _ => True) sequential_orderly
    (fun w hw => ⟨⟨hw, fun _ => trivial⟩, orderly_look w w⟩) orderly_anyIrqs maxWaits w hw).2

/-- An abort deactivates the record right after it has stopped the controller. -/
theorem not_orderly_abort {v : World δ} {H : List (Cmd × World δ)}
    (h : abortTransfer.history (world d) v <:+: H) (s t : World δ) : ¬ Orderly s H t := by
  intro horderly
  obtain ⟨K, a, u, u', hlast⟩ : ∃ K a, ∃ u u' : World δ, abortTransfer.history (world d) v =
      K ++ [(.bsc a, u), (.assign (.active false), u')] := by
    have hne : I2c.reset.history d.access v.dev ≠ [] := List.cons_ne_nil _ _
    rw [abortTransfer_eq, Prog.history_bind, history_i2c, ← List.dropLast_append_getLast hne,
      List.map_append, List.append_assoc]
    exact ⟨_, _, _, _, rfl⟩
  rw [hlast] at h
  have hmarks : Marks (.bsc a) :=
    horderly.of_adjacent ((List.suffix_append K _).isInfix.trans h) (Eq.refl _)
  exact Cmd.noConfusion hmarks

/-! ## The synchronous calls -/

theorem synchronous_eq (maxWaits : ℕ) (reading : Bool) {addr : Byte} {buf : Ptr} {len : ℕ}
    (hgood : badArgs addr buf len = false) :
    synchronous maxWaits reading addr buf len =
      transfer anyIrqs maxWaits reading addr buf len := by
  cases reading
  · simp [synchronous, write_eq, hgood]
  · simp [synchronous, read_eq, hgood]

theorem run_synchronous (d : Device δ) (maxWaits : ℕ) (reading : Bool) {addr : Byte} {buf : Ptr}
    {len : ℕ} (hgood : badArgs addr buf len = false) (w : World δ) :
    ((synchronous maxWaits reading addr buf len).run (world d) w).1 =
      (((waitLoop anyIrqs maxWaits).run (world d)
        ((begin reading addr buf len).run (world d) w).2).1).getD .timeout := by
  rw [synchronous_eq maxWaits reading hgood, transfer, Prog.run_bind, waitComplete, Prog.run_bind]
  cases ((waitLoop anyIrqs maxWaits).run (world d)
    ((begin reading addr buf len).run (world d) w).2).1 with
  | some r => rfl
  | none => rfl

/-- The surroundings in which a transfer's watchdog starts. -/
theorem uncalled_begin (d : Device δ) (reading : Bool) (addr : Byte) (buf : Ptr) (len : ℕ)
    (w : World δ) : Uncalled ((begin reading addr buf len).run (world d) w).2 := by
  rw [run_begin]
  cases reading <;> rfl

/-- A call aborts its transfer exactly when its watchdog loop leaves it open. -/
theorem aborts_iff (d : Device δ) (maxWaits : ℕ) (reading : Bool) {addr : Byte} {buf : Ptr}
    {len : ℕ} (hgood : badArgs addr buf len = false) (w : World δ) :
    Aborts d (synchronous maxWaits reading addr buf len) w ↔
      ((waitLoop anyIrqs maxWaits).run (world d)
        ((begin reading addr buf len).run (world d) w).2).1 = none := by
  have hhist : (synchronous maxWaits reading addr buf len).history (world d) w =
      (begin reading addr buf len).history (world d) w ++
        (waitComplete anyIrqs maxWaits).history (world d)
          ((begin reading addr buf len).run (world d) w).2 := by
    rw [synchronous_eq maxWaits reading hgood, transfer, Prog.history_bind]
  have hw := uncalled_begin d reading addr buf len w
  have hbegin : Orderly w ((begin reading addr buf len).history (world d) w) _ :=
    orderly_of_only (keeps_begin reading addr buf len) w
      ((begin reading addr buf len).run (world d) w).2
  rw [Aborts, hhist]
  generalize ((begin reading addr buf len).run (world d) w).2 = s at hw hbegin
  have hloop := orderly_waitLoop (d := d) maxWaits s hw
  rw [waitComplete, Prog.history_bind]
  generalize (waitLoop anyIrqs maxWaits).run (world d) s = t at hloop
  obtain ⟨r, t⟩ := t
  cases r with
  | some r =>
    refine iff_of_false ?_ (Option.some_ne_none r)
    rintro ⟨v, hv⟩
    refine not_orderly_abort hv w t (sequential_orderly.trans hbegin ?_)
    exact sequential_orderly.trans hloop (sequential_orderly.idle t)
  | none =>
    refine iff_of_true ⟨t, ?_⟩ rfl
    dsimp only
    rw [Prog.history_bind, Prog.history_pure, List.append_nil, ← List.append_assoc]
    exact (List.suffix_append _ _).isInfix

/-- A transfer is discarded exactly when it is finalised for the first time in the last
of the permitted waits. -/
theorem neverDiscards_iff (d : Device δ) (maxWaits : ℕ) (hmax : 1 ≤ maxWaits) (reading : Bool)
    (addr : Byte) (buf : Ptr) (len : ℕ) (hgood : badArgs addr buf len = false) (w : World δ) :
    NeverDiscards d maxWaits reading addr buf len w ↔
      ¬ (finalisedIn d ((begin reading addr buf len).run (world d) w).2 (maxWaits - 1) ≠ none ∧
        ∀ j < maxWaits - 1,
          finalisedIn d ((begin reading addr buf len).run (world d) w).2 j = none) := by
  obtain ⟨m, rfl⟩ : ∃ n, maxWaits = n + 1 := ⟨maxWaits - 1, by omega⟩
  rw [Nat.add_sub_cancel]
  have hrun := run_synchronous d (m + 1) reading hgood w
  have haborts := aborts_iff d (m + 1) reading hgood w
  have hw := uncalled_begin d reading addr buf len w
  have hopen : outcome ((begin reading addr buf len).run (world d) w).2.xfer = none := by
    rw [run_begin]
    cases reading <;> rfl
  constructor
  · rintro h ⟨hlast, hnone⟩
    have hfires := haborts.mpr (run_waitLoop_none hw hopen m hnone)
    exact hlast (h.fires hfires m (Nat.lt_succ_self m))
  · intro h
    -- a first finalisation is not in the last wait, so there is a look at the record after it
    have hseen : ∀ k < m + 1, ∀ r,
        finalisedIn d ((begin reading addr buf len).run (world d) w).2 k = some r →
        (∀ j < k, finalisedIn d ((begin reading addr buf len).run (world d) w).2 j = none) →
        ((waitLoop anyIrqs (m + 1)).run (world d)
          ((begin reading addr buf len).run (world d) w).2).1 = some r := by
      intro k hk r hr hfirst
      rcases Nat.lt_succ_iff_lt_or_eq.mp hk with hlt | rfl
      · exact run_waitLoop_finalised hw hopen hfirst hr (Nat.succ_lt_succ hlt)
      · refine absurd ⟨?_, hfirst⟩ h
        rw [hr]
        exact Option.some_ne_none r
    have hfirst := none_or_first (d := d) ((begin reading addr buf len).run (world d) w).2 (m + 1)
    refine ⟨fun k hk r hr hfirst => ?_, fun htimeout hrecorded => ?_, fun hfires => ?_⟩
    · rw [hrun, hseen k hk r hr hfirst]
      rfl
    · rcases hfirst with hnone | ⟨k, hk, r, hr, hbefore⟩
      · exact hnone
      rw [hrun, hseen k hk r hr hbefore, Option.getD_some] at htimeout
      exact absurd (htimeout ▸ hr) (hrecorded k hk)
    · rcases hfirst with hnone | ⟨k, hk, r, hr, hbefore⟩
      · exact hnone
      have hsome := hseen k hk r hr hbefore
      rw [haborts.mp hfires] at hsome
      cases hsome

/-- DONE from the first word on, met by an interrupt in the only wait. -/
def doneAtOnce : World (Register → Word) :=
  { World.powerOn (fun _ => 0) S_DONE with interrupts := Stream'.const 1 }

/-- The only wait puts `ok` on record; the call aborts the transfer all the same and returns
the watchdog's timeout. -/
theorem not_neverDiscards_onlyWait :
    finalisedIn Device.plain ((begin false 0x50 8 1).run (world Device.plain) doneAtOnce).2 0 =
      some .ok ∧
    ((synchronous 1 false 0x50 8 1).run (world Device.plain) doneAtOnce).1 = .timeout ∧
    Aborts Device.plain (synchronous 1 false 0x50 8 1) doneAtOnce ∧
    ¬ NeverDiscards Device.plain 1 false 0x50 8 1 doneAtOnce := by
  have haborts : Aborts Device.plain (synchronous 1 false 0x50 8 1) doneAtOnce :=
    (aborts_iff Device.plain 1 false (by decide) doneAtOnce).mpr (by decide)
  refine ⟨by decide, by decide, haborts, fun h => ?_⟩
  have hnone := h.fires haborts 0 (by decide)
  revert hnone
  decide

theorem neverDiscards_iff_secondWait :
    NeverDiscards Device.plain 2 false 0x50 8 1 doneAtOnce :=
  (neverDiscards_iff Device.plain 2 (by decide) false 0x50 8 1 (by decide) doneAtOnce).mpr
    (by decide)

end Irq
end Bcm2837
