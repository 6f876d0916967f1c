import Bcm2837.GpioDriver

/-!
# Acknowledging GPIO events

The event-detect status registers record edges, and a written 1 clears the event of its
pin. The driver acknowledges by read-modify-write, so it writes back a 1 for every event
that it has read.
-/
namespace Bcm2837.Gpio

/-- A register of the event-detect status. -/
def Detects (r : Register) : Prop := r = GPEDS0 ∨ r = GPEDS1

instance (r : Register) : Decidable (Detects r) := inferInstanceAs (Decidable (_ ∨ _))

/-- Edges set the bits of their pins. -/
def arrive (edges : Register → Word) (m : Register → Word) : Register → Word :=
  fun r => if Detects r then m r ||| edges r else m r

/-- The block while edges arrive between an access that reads and one that writes. -/
def detect (edges : Register → Word) :
    Prog.Handler (Access Register Word) Access.Ans (Register → Word)
  | .load r, m => (m r, m)
  | .store r v, m =>
    ((), if Detects r then Function.update (arrive edges m) r (arrive edges m r &&& ~~~v)
      else Function.update (arrive edges m) r v)

inductive Event
  | edges (e : Register → Word)
  /-- `GPEDSn(gpio)`, with the edges between its load and its store. -/
  | acknowledge (gpio : ℕ) (during : Register → Word)

def Event.exec : Event → (Register → Word) → Register → Word
  | edges e, m => arrive e m
  | acknowledge gpio during, m => ((GPEDSn.set gpio).run (detect during) m).2

/-- The block after a history of events. -/
def detected (m : Register → Word) (events : List Event) : Register → Word :=
  events.foldl (fun m e => e.exec m) m

/-- The event of a pin. -/
def event (m : Register → Word) (gpio : ℕ) : Bool := pinBit GPEDS0 GPEDS1 m gpio

/-- What `GPEDSn(gpio) const` returns. -/
def readback (m : Register → Word) (gpio : ℕ) : Word :=
  ((GPEDSn.get gpio).run (detect fun _ => 0) m).1

theorem detects_bank (gpio : ℕ) : Detects (bank GPEDS0 GPEDS1 gpio) := by
  unfold bank
  split_ifs
  · exact .inl rfl
  · exact .inr rfl

section Steps

variable (m : Register → Word)

theorem readback_eq {gpio : ℕ} (hg : gpio ≤ 53) :
    readback m gpio = if event m gpio then 1 else 0 := by
  rw [readback, GPEDSn.get, getBit_eq, if_pos hg]
  exact BitField.shiftRight_and_one _ _

theorem event_arrive (e : Register → Word) (p : ℕ) :
    event (arrive e m) p = (event m p || event e p) := by
  rw [event, pinBit, arrive, if_pos (detects_bank p), BitVec.getLsbD_or]
  rfl

/-- An acknowledgement clears its pin's event, and every event of the bank it has read. -/
theorem event_acknowledge (e : Register → Word) {p gpio : ℕ} (hp : p ≤ 53) (hg : gpio ≤ 53) :
    event ((Event.acknowledge gpio e).exec m) p =
      ((event m p || event e p) &&
        !(decide (p = gpio) || decide (SameBank p gpio) && event m p)) := by
  have hne : GPEDS0 ≠ GPEDS1 := by decide
  have hexec : (Event.acknowledge gpio e).exec m =
      Function.update (arrive e m) (bank GPEDS0 GPEDS1 gpio)
        (arrive e m (bank GPEDS0 GPEDS1 gpio) &&&
          ~~~(m (bank GPEDS0 GPEDS1 gpio) ||| (1 : Word) <<< (gpio % 32))) := by
    rw [Event.exec, GPEDSn.set, setBit_eq, if_pos hg]
    exact if_pos (detects_bank gpio)
  rw [hexec, ← event_arrive]
  by_cases hbank : SameBank p gpio
  · rw [event, event, event, pinBit, pinBit, pinBit, (bank_eq_iff hne).mpr hbank,
      Function.update_self, BitVec.getLsbD_and, BitVec.getLsbD_not, BitVec.getLsbD_or,
      getLsbD_ownBit hp hg hbank,
      decide_eq_true (Nat.mod_lt p (by decide)), decide_eq_true hbank, Bool.true_and, Bool.true_and,
      Bool.or_comm (BitVec.getLsbD _ _) (decide _)]
  · have hpg : p ≠ gpio := fun h => hbank (h ▸ Iff.rfl)
    rw [event, pinBit, Function.update_of_ne fun h => hbank ((bank_eq_iff hne).mp h),
      decide_eq_false hpg, decide_eq_false hbank, Bool.false_and, Bool.or_self, Bool.not_false,
      Bool.and_true]
    rfl

end Steps

/-! ## Histories -/

section Histories

variable (m : Register → Word)

theorem detected_concat (events : List Event) (e : Event) :
    detected m (events ++ [e]) = e.exec (detected m events) := by
  simp [detected, List.foldl_append]

/-- What an acknowledgement promises: it clears the event of its pin and no other, and a
pending event stays readable until it is acknowledged. -/
structure LosesNone (events : List Event) : Prop where
  clears : ∀ before gpio during after, events = before ++ .acknowledge gpio during :: after →
    gpio ≤ 53 → ∀ p ≤ 53, readback (detected m (before ++ [.acknowledge gpio during])) p =
      if p ≠ gpio ∧ (event (detected m before) p || event during p) then 1 else 0
  stays : ∀ before mid after, events = before ++ mid ++ after → ∀ p ≤ 53,
    readback (detected m before) p = 1 → (∀ during, .acknowledge p during ∉ mid) →
      readback (detected m (before ++ mid)) p = 1

/-- No acknowledgement finds an event of another pin of its bank. -/
def Alone (events : List Event) : Prop :=
  ∀ before gpio during after, events = before ++ .acknowledge gpio during :: after → gpio ≤ 53 →
    ∀ p ≤ 53, p ≠ gpio → SameBank p gpio → event (detected m before) p = false

theorem readback_eq_one_iff {p : ℕ} (hp : p ≤ 53) : readback m p = 1 ↔ event m p = true := by
  rw [readback_eq m hp]
  cases event m p <;> decide

/-- Acknowledgements lose no event exactly when each finds no event of another pin of its
bank. -/
theorem losesNone_iff_alone (events : List Event) : LosesNone m events ↔ Alone m events := by
  constructor
  · intro h before gpio during after hsplit hg p hp hne hbank
    by_contra hpending
    rw [Bool.not_eq_false] at hpending
    have hstays := h.stays before [.acknowledge gpio during] after (by simp [hsplit]) p hp
      ((readback_eq_one_iff _ hp).mpr hpending) (by simp [hne])
    rw [readback_eq_one_iff _ hp, detected_concat, event_acknowledge _ _ hp hg, hpending] at hstays
    simp [hbank] at hstays
  · intro h
    refine ⟨fun before gpio during after hsplit hg p hp => ?_,
      fun before mid after hsplit p hp => ?_⟩
    · rw [readback_eq _ hp, detected_concat, event_acknowledge _ _ hp hg]
      by_cases hpg : p = gpio
      · simp [hpg]
      · by_cases hbank : SameBank p gpio
        · have halone := h before gpio during after hsplit hg p hp hpg hbank
          simp [hpg, halone]
        · simp [hpg, hbank]
    · rw [readback_eq_one_iff _ hp, readback_eq_one_iff _ hp]
      intro hpending hmid
      induction mid using List.reverseRecOn generalizing after with
      | nil => rwa [List.append_nil]
      | append_singleton mid e ih =>
        have hbefore := ih (e :: after) (by simp [hsplit]) fun d hd => hmid d (by simp [hd])
        rw [← List.append_assoc, detected_concat]
        cases e with
        | edges e => rw [Event.exec, event_arrive, hbefore, Bool.true_or]
        | acknowledge gpio during =>
          by_cases hg : gpio ≤ 53
          · have hpg : p ≠ gpio := by
              rintro rfl
              exact hmid during (by simp)
            rw [event_acknowledge _ _ hp hg, hbefore]
            by_cases hbank : SameBank p gpio
            · have halone :=
                h (before ++ mid) gpio during after (by simp [hsplit]) hg p hp hpg hbank
              rw [hbefore] at halone
              cases halone
            · simp [hpg, hbank]
          · rw [Event.exec, GPEDSn.set, setBit_eq, if_neg hg]
            exact hbefore

end Histories

/-- The events of pins 3 and 5 are pending; acknowledging the first loses the second. -/
theorem not_losesNone_twoPending :
    ¬ LosesNone (fun r => if r = GPEDS0 then 0x28 else 0) [.acknowledge 3 fun _ => 0] := by
  intro h
  have hstays := h.stays [] [.acknowledge 3 fun _ => 0] [] rfl 5 (by decide) (by decide) (by simp)
  revert hstays
  decide

end Bcm2837.Gpio
