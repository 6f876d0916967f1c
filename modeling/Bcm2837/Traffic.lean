import Bcm2837.IrqRuns

/-!
# The traffic of a run

What a history has to do with the bus: the status words read, the words popped from the
FIFO and the words pushed to it. A callback may start the next transfer inside the
handler, so what belongs to one transfer is the history up to there.
-/
namespace Bcm2837
namespace Irq

variable {δ : Type}

def pushed : Cmd × World δ → Option Word
  | (.bsc (.store .FIFO v), _) => some v
  | _ => none

/-- The words stored to the FIFO. -/
def pushes (H : List (Cmd × World δ)) : List Word := H.filterMap pushed

/-- Byte `i` of a buffer as it is stored to the FIFO. -/
def txWord (mem : Ptr → Byte) (tx : Ptr) (i : ℕ) : Word := (mem (tx + i)).setWidth 32 &&& 0xFF

def isPop : Cmd × World δ → Bool
  | (.bsc (.load .FIFO), _) => true
  | _ => false

/-- How often the FIFO is read. -/
def pops (H : List (Cmd × World δ)) : ℕ := H.countP isPop

def isStatusRead : Cmd × World δ → Bool
  | (.status, _) => true
  | _ => false

/-- How often the status word is read. -/
def statusReads (H : List (Cmd × World δ)) : ℕ := H.countP isStatusRead

/-- The record starts over. -/
def restarts : Cmd → Bool
  | .assign .fresh => true
  | _ => false

/-- The part of a history that belongs to the record it starts with. -/
def life (H : List (Cmd × World δ)) : List (Cmd × World δ) :=
  H.takeWhile fun e => !restarts e.1

/-- A record without a callback. -/
def Uncalled (w : World δ) : Prop := w.xfer.cb = nullptr

section Append

variable (H K : List (Cmd × World δ))

@[simp] theorem pushes_append : pushes (H ++ K) = pushes H ++ pushes K := List.filterMap_append
@[simp] theorem pops_append : pops (H ++ K) = pops H + pops K := List.countP_append
@[simp] theorem statusReads_append : statusReads (H ++ K) = statusReads H + statusReads K :=
  List.countP_append

end Append

/-- An internal command causes no traffic. -/
theorem internal_quiet {c : Cmd} (hc : Internal c) (w : World δ) :
    pushed (c, w) = none ∧ isPop (c, w) = false ∧ isStatusRead (c, w) = false := by
  cases c with
  | bsc a =>
    cases a with
    | load r => cases r <;> first | exact ⟨rfl, rfl, rfl⟩ | exact absurd rfl hc
    | store r v => cases r <;> first | exact ⟨rfl, rfl, rfl⟩ | exact absurd rfl hc
  | assign a => exact ⟨rfl, rfl, rfl⟩
  | xfer => exact ⟨rfl, rfl, rfl⟩
  | _ => exact hc.elim

theorem restarts_internal {c : Cmd} (hc : Internal c) : restarts c = false := by
  cases c with
  | assign a => cases a <;> first | rfl | exact absurd rfl hc
  | _ => rfl

theorem restarts_moves {c : Cmd} (hc : Moves c) : restarts c = false := by
  cases c with
  | assign a => cases a <;> first | rfl | exact hc.elim
  | _ => rfl

section Quiet

variable {H : List (Cmd × World δ)} (hH : ∀ e ∈ H, Internal e.1)

include hH

theorem pushes_internal : pushes H = [] :=
  List.filterMap_eq_nil_iff.mpr fun e he => (internal_quiet (hH e he) e.2).1

theorem pops_internal : pops H = 0 :=
  List.countP_eq_zero.mpr fun e he => by
    rw [(internal_quiet (hH e he) e.2).2.1]
    exact Bool.false_ne_true

theorem statusReads_internal : statusReads H = 0 :=
  List.countP_eq_zero.mpr fun e he => by
    rw [(internal_quiet (hH e he) e.2).2.2]
    exact Bool.false_ne_true

end Quiet

/-! ## Up to the next start -/

section Life

variable {d : Device δ} {R : World δ → List (Cmd × World δ) → World δ → Prop}

/-- Of an asynchronous call, only the refusal belongs to the record before it. -/
theorem upTo_perform (hR : Prog.Sequential R) (hlook : ∀ w, R w [(.xfer, w)] w)
    (hrefused : ∀ c w, R w [(.returned c .badArg, w)] w) (c : AsyncCall) (w : World δ) :
    Prog.UpTo restarts R w ((perform c).history (world d) w) ((perform c).run (world d) w).2 := by
  obtain ⟨H, hH, hhist⟩ := history_call d w c
  have hfree : ∀ e ∈ [(Cmd.xfer, w)], restarts e.1 = false := by simp [restarts]
  rw [history_perform, hhist, run_perform, run_call]
  by_cases href : c.refused w.xfer
  · rw [if_pos href, if_pos href]
    refine (Prog.upTo_of_free ?_).mpr (hR.trans (hlook w) (hrefused c w))
    simp [restarts]
  · rw [if_neg href, if_neg href]
    exact Prog.upTo_of_stop (e := (Cmd.assign .fresh, w)) rfl hfree (hlook w) _

/-- An interrupt keeps, up to the next start, what each kind of pass keeps. -/
theorem triple_life (hR : Prog.Sequential R) (hlook : ∀ w, R w [(.xfer, w)] w)
    (hrefused : ∀ c w, R w [(.returned c .badArg, w)] w)
    (hidle : ∀ w, action (w.word d) w.xfer = .idle → R w ((.status, w) :: peek d w) w.next)
    (hpop : ∀ w, action (w.word d) w.xfer = .pop →
      R w ((.status, w) :: (peek d w ++ (popByte w.xfer).history (world d) w.next))
        ((popByte w.xfer).run (world d) w.next).2)
    (hpush : ∀ w, action (w.word d) w.xfer = .push →
      R w ((.status, w) :: (peek d w ++ (pushByte w.xfer).history (world d) w.next))
        ((pushByte w.xfer).run (world d) w.next).2)
    (hfinish : ∀ w r, action (w.word d) w.xfer = .finish r → ∀ H : List (Cmd × World δ),
      (∀ e ∈ H, Closing e.1) → reports H = [r] → R w ((.status, w) :: H) (finished d w.next r))
    (henter : ∀ w r, R (finished d w r) [(.enter w.xfer.cb r w.xfer.user, entering d w r)]
      (entered d w r)) :
    Prog.Triple (world d) (Prog.UpTo restarts R) (fun _ => True) handleIrq fun _ _ => True := by
  have hupTo := Prog.sequential_upTo hR restarts
  have hclosing : ∀ (w : World δ) {H : List (Cmd × World δ)}, (∀ e ∈ H, Closing e.1) →
      ∀ e ∈ (Cmd.status, w) :: H, restarts e.1 = false := by
    intro w H hH e he
    rcases List.mem_cons.mp he with rfl | he
    · rfl
    · exact restarts_internal (hH e he).internal
  have hmoves : ∀ (w : World δ) {p : TransportM Unit}, p.Only Moves →
      ∀ e ∈ (Cmd.status, w) :: (peek d w ++ p.history (world d) w.next),
        restarts e.1 = false := by
    intro w p hp e he
    rw [← List.cons_append] at he
    rcases List.mem_append.mp he with he | he
    · exact hclosing w (closing_peek d w) e he
    · exact restarts_moves (hp.mem_history (world d) w.next e he)
  refine triple_handleIrq hupTo
    (fun w _ => (Prog.upTo_of_free (by simp [restarts])).mpr (hlook w)) fun fuel =>
    triple_passes hupTo ?_ ?_ ?_ ?_ fuel
  · intro w _ ha
    exact ⟨trivial, (Prog.upTo_of_free (hclosing w (closing_peek d w))).mpr (hidle w ha)⟩
  · intro w _ ha
    exact ⟨trivial, (Prog.upTo_of_free (hmoves w (moves_popByte _))).mpr (hpop w ha)⟩
  · intro w _ ha
    exact ⟨trivial, (Prog.upTo_of_free (hmoves w (moves_pushByte _))).mpr (hpush w ha)⟩
  · intro w r _ ha
    refine finish_keeps (P := fun _ => True) hupTo w r
      (fun _ => ⟨trivial, fun H hH hreports => ?_⟩) fun _ =>
      ⟨fun c w _ => ⟨trivial, upTo_perform hR hlook hrefused c w⟩, trivial,
        fun H hH hreports => ?_⟩
    · exact (Prog.upTo_of_free (hclosing w hH)).mpr (hfinish w r ha H hH hreports)
    · have hclosed := (Prog.upTo_of_free (hclosing w hH)).mpr (hfinish w r ha H hH hreports)
      have hentered : Prog.UpTo restarts R (finished d w.next r)
          [(.enter w.xfer.cb r w.xfer.user, entering d w.next r)] (entered d w.next r) :=
        (Prog.upTo_of_free (by simp [restarts])).mpr (henter w.next r)
      exact hupTo.trans hclosed hentered

end Life

end Irq
end Bcm2837
