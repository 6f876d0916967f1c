import Bcm2837.PolledSteps
import Bcm2837.Traffic

/-!
# Short writes

A write succeeds at DONE whether or not all bytes are in the FIFO. What a transfer shows
from outside is a list of signs: the status words it reads, the words it pushes and the
successes it reports. Both transports give such lists by the same rules, and by these
rules a success comes too early exactly when a word with DONE and without room comes
before `len` words with room.
-/
namespace Bcm2837

open Bsc

/-! ## Lists entry by entry -/

section AtEach

variable {α : Type} {φ : List α → α → Prop} {L : List α}

/-- `φ` holds of each entry and the entries before it. -/
def AtEach (φ : List α → α → Prop) (L : List α) : Prop := ∀ A x B, L = A ++ x :: B → φ A x

theorem atEach_nil : AtEach φ [] := by
  intro A x B h
  simp at h

theorem atEach_concat {x : α} : AtEach φ (L ++ [x]) ↔ AtEach φ L ∧ φ L x := by
  constructor
  · intro h
    exact ⟨fun A y B hL => h A y (B ++ [x]) (by simp [hL]), h L x [] rfl⟩
  · rintro ⟨hL, hx⟩ A y B h
    rcases List.append_eq_append_iff.mp h with ⟨C, rfl, hC⟩ | ⟨C, rfl, hC⟩
    · -- the split is after `L`, so the entry is `x`
      cases C with
      | nil =>
        rw [List.append_nil]
        cases hC
        exact hx
      | cons z C => simp at hC
    · cases C with
      | nil =>
        rw [List.append_nil] at hx
        cases hC
        exact hx
      | cons z C =>
        rw [List.cons_append] at hC
        obtain ⟨rfl, -⟩ := List.cons.inj hC
        exact hL A y C rfl

end AtEach

/-! ## The signs of a write -/

inductive Sign
  | word (s : Word)
  | pushed (v : Word)
  | ok
  deriving DecidableEq

namespace Sign

/-- The words pushed. -/
def sent (L : List Sign) : List Word :=
  L.filterMap fun | pushed v => some v | _ => none

/-- A word that reports room in the FIFO and no error. -/
def HasRoom (s : Word) : Prop :=
  Word.has s S_ERR = false ∧ Word.has s S_CLKT = false ∧ Word.has s S_TXD = true

instance (s : Word) : Decidable (HasRoom s) := inferInstanceAs (Decidable (_ ∧ _))

/-- A word that reports DONE without room and without an error. -/
def StopsDry (s : Word) : Prop :=
  Word.has s S_ERR = false ∧ Word.has s S_CLKT = false ∧ Word.has s S_TXD = false ∧
    Word.has s S_DONE = true

/-- How many words report room. -/
def rooms (L : List Sign) : ℕ :=
  L.countP fun | word s => decide (HasRoom s) | _ => false

/-- A word stops the write while fewer than `len` words have reported room. -/
def ShortStop (len : ℕ) (L : List Sign) : Prop :=
  ∃ A s B, L = A ++ word s :: B ∧ StopsDry s ∧ rooms A < len

/-- At each success all bytes have been pushed, in order and nothing else. -/
def AllSent (bytes : List Word) (L : List Sign) : Prop :=
  AtEach (fun A x => x = ok → sent A = bytes) L

theorem not_shortStop_iff {len : ℕ} {L : List Sign} :
    ¬ ShortStop len L ↔
      AtEach (fun A x => ∀ s, x = word s → ¬ (StopsDry s ∧ rooms A < len)) L := by
  constructor
  · rintro h A x B rfl s rfl hs
    exact h ⟨A, s, B, rfl, hs⟩
  · rintro h ⟨A, s, B, rfl, hs⟩
    exact h A (word s) B rfl s rfl hs

@[simp] theorem sent_append (L K : List Sign) : sent (L ++ K) = sent L ++ sent K :=
  List.filterMap_append

@[simp] theorem rooms_append (L K : List Sign) : rooms (L ++ K) = rooms L + rooms K :=
  List.countP_append

end Sign

/-! ## The rules of both transports -/

namespace Irq

/-- What a pass does about a word when `i` of `len` bytes have been pushed. -/
def writeAction (s : Word) (len i : ℕ) : Action := action s { tn := len, ti := i }

theorem action_writing {s : Word} {x : Xfer} (hx : x.reading = false) :
    action s x = writeAction s x.tn x.ti := by
  simp [writeAction, action, hx]

end Irq

open Irq Sign

/-- The signs of a write and the bytes pushed by then. -/
inductive Passes (byte : ℕ → Word) (len : ℕ) : List Sign → ℕ → Prop
  | start : Passes byte len [] 0
  | data {L : List Sign} {i : ℕ} {s : Word} (h : Passes byte len L i)
      (hs : writeAction s len i = .push) :
      Passes byte len (L ++ [word s] ++ [pushed (byte i)]) (i + 1)
  | stop {L : List Sign} {i : ℕ} {s : Word} (h : Passes byte len L i)
      (hs : writeAction s len i = .finish .ok) : Passes byte len (L ++ [word s] ++ [ok]) i
  | other {L : List Sign} {i : ℕ} {s : Word} (h : Passes byte len L i)
      (hpush : writeAction s len i ≠ .push) (hok : writeAction s len i ≠ .finish .ok) :
      Passes byte len (L ++ [word s]) i

section Rules

variable {byte : ℕ → Word} {len i : ℕ} {L : List Sign} {s : Word}

theorem writeAction_push_iff : writeAction s len i = .push ↔ HasRoom s ∧ i < len := by
  unfold writeAction action HasRoom
  by_cases herr : Word.has s S_ERR
  · simp [herr]
  by_cases hclk : Word.has s S_CLKT
  · simp [herr, hclk]
  by_cases hpush : Word.has s S_TXD ∧ i < len
  · simp [herr, hclk, hpush]
  · by_cases hdone : Word.has s S_DONE <;> simp [herr, hclk, hpush, hdone]

theorem writeAction_ok_iff :
    writeAction s len i = .finish .ok ↔ Word.has s S_ERR = false ∧ Word.has s S_CLKT = false ∧
      ¬ (Word.has s S_TXD = true ∧ i < len) ∧ Word.has s S_DONE = true := by
  unfold writeAction action
  by_cases herr : Word.has s S_ERR
  · simp [herr]
  by_cases hclk : Word.has s S_CLKT
  · simp [herr, hclk]
  by_cases hpush : Word.has s S_TXD ∧ i < len
  · simp [herr, hclk, hpush]
  · by_cases hdone : Word.has s S_DONE <;> simp [herr, hclk, hpush, hdone]

theorem Passes.le (h : Passes byte len L i) : i ≤ len := by
  induction h with
  | start => exact Nat.zero_le _
  | data _ hs _ => exact (writeAction_push_iff.mp hs).2
  | stop _ _ ih => exact ih
  | other _ _ _ ih => exact ih

/-- The bytes pushed are the first `i`, in order. -/
theorem Passes.sent_eq (h : Passes byte len L i) : sent L = (List.range i).map byte := by
  induction h with
  | start => rfl
  | data _ _ ih =>
    rw [sent_append, sent_append, ih, List.range_succ, List.map_append]
    simp [sent]
  | stop _ _ ih =>
    rw [sent_append, sent_append, ih]
    simp [sent]
  | other _ _ _ ih =>
    rw [sent_append, ih]
    simp [sent]

/-- A byte is pushed at each word with room, until all are. -/
theorem Passes.rooms_eq (h : Passes byte len L i) : i = min (rooms L) len := by
  have hword : ∀ s : Word, rooms [word s] = if HasRoom s then 1 else 0 := by
    intro s
    by_cases hs : HasRoom s <;> simp [rooms, hs]
  induction h with
  | start => exact (Nat.zero_min len).symm
  | data h hs ih =>
    obtain ⟨hroom, hlt⟩ := writeAction_push_iff.mp hs
    rw [rooms_append, rooms_append, hword, if_pos hroom]
    have hnone : ∀ v, rooms [pushed v] = 0 := fun _ => rfl
    rw [hnone]
    omega
  | @stop L i s h hs ih =>
    obtain ⟨herr, hclk, hfull, -⟩ := writeAction_ok_iff.mp hs
    have hle := h.le
    rw [rooms_append, rooms_append, hword]
    have hnone : rooms [ok] = 0 := rfl
    rw [hnone]
    split_ifs with hroom
    · have hge : ¬ i < len := fun hlt => hfull ⟨hroom.2.2, hlt⟩
      omega
    · omega
  | @other L i s h hpush hok ih =>
    have hle := h.le
    rw [rooms_append, hword]
    split_ifs with hroom
    · have hge : ¬ i < len := fun hlt => hpush (writeAction_push_iff.mpr ⟨hroom, hlt⟩)
      omega
    · omega

/-- All bytes have been pushed once the index is at the end. -/
theorem Passes.sent_iff (h : Passes byte len L i) :
    sent L = (List.range len).map byte ↔ i = len := by
  rw [h.sent_eq]
  constructor
  · intro heq
    simpa using congrArg List.length heq
  · rintro rfl
    rfl

/-- The successes reported are right exactly when no stop is short. -/
theorem Passes.allSent_iff (h : Passes byte len L i) :
    AllSent ((List.range len).map byte) L ↔ ¬ ShortStop len L := by
  rw [not_shortStop_iff]
  unfold AllSent
  induction h with
  | start => exact iff_of_true atEach_nil atEach_nil
  | @data L i s h hs ih =>
    have hroom := (writeAction_push_iff.mp hs).1
    have hwet : ¬ StopsDry s := by
      rintro ⟨-, -, htxd, -⟩
      rw [hroom.2.2] at htxd
      cases htxd
    simp only [atEach_concat, ih]
    simp [hwet]
  | @stop L i s h hs ih =>
    obtain ⟨herr, hclk, hfull, hdone⟩ := writeAction_ok_iff.mp hs
    have hle := h.le
    have hrooms := h.rooms_eq
    have hsent : sent (L ++ [word s]) = sent L := by simp [sent]
    have hshort : sent L = (List.range len).map byte ↔ ¬ (StopsDry s ∧ rooms L < len) := by
      rw [h.sent_iff]
      constructor
      · rintro rfl ⟨-, hlt⟩
        omega
      · intro hnot
        by_contra hne
        have hlt : i < len := by omega
        have hdry : Word.has s S_TXD = false := by
          cases htxd : Word.has s S_TXD with
          | false => rfl
          | true => exact absurd ⟨htxd, hlt⟩ hfull
        exact hnot ⟨⟨herr, hclk, hdry, hdone⟩, by omega⟩
    simp only [atEach_concat, ih, hsent]
    simp [hshort]
  | @other L i s h hpush hok ih =>
    have hrooms := h.rooms_eq
    have hwet : ¬ (StopsDry s ∧ rooms L < len) := by
      rintro ⟨⟨herr, hclk, htxd, hdone⟩, hlt⟩
      refine hok (writeAction_ok_iff.mpr ⟨herr, hclk, ?_, hdone⟩)
      rintro ⟨htxd', -⟩
      rw [htxd] at htxd'
      cases htxd'
    simp only [atEach_concat, ih]
    simpa using fun _ => not_and.mp hwet

/-- A reported success with all bytes pushed is one of the whole transfer. -/
theorem Passes.sent_of_ok (h : Passes byte len L i)
    (hall : AllSent ((List.range len).map byte) L) (hok : ok ∈ L) :
    sent L = (List.range len).map byte := by
  obtain ⟨A, B, rfl⟩ := List.append_of_mem hok
  have hA : sent A = (List.range len).map byte := hall A ok B rfl rfl
  have hle := h.le
  refine h.sent_iff.mpr ?_
  have hlen := congrArg List.length h.sent_eq
  rw [sent_append, hA] at hlen
  simp at hlen
  omega

end Rules

/-! ## The signs of a history -/

section Signs

variable {δ : Type} (d : Device δ)

def sign : Cmd × World δ → Option Sign
  | (.status, w) => some (.word (w.word d))
  | (.bsc (.store .FIFO v), _) => some (.pushed v)
  | (.assign (.result .ok), _) => some .ok
  | _ => none

def signs (H : List (Cmd × World δ)) : List Sign := H.filterMap (sign d)

@[simp] theorem signs_append (H K : List (Cmd × World δ)) :
    signs d (H ++ K) = signs d H ++ signs d K := List.filterMap_append

/-- Internal commands show the successes they report. -/
theorem signs_internal {H : List (Cmd × World δ)} (hH : ∀ e ∈ H, Internal e.1) :
    signs d H = (reports H).filterMap fun r => if r = .ok then some Sign.ok else none := by
  rw [signs, reports, List.filterMap_filterMap]
  refine List.filterMap_congr fun e he => ?_
  obtain ⟨c, w⟩ := e
  have hc : Internal c := hH _ he
  cases c with
  | bsc a =>
    cases a with
    | load r => rfl
    | store r v => cases r <;> first | rfl | exact absurd rfl hc
  | assign a =>
    cases a with
    | result r => cases r <;> rfl
    | _ => rfl
  | xfer => rfl
  | _ => exact hc.elim

theorem signs_device {α : Type} {p : I2c.Io α} (hp : p.Only I2c.Configures) (w : World δ) :
    signs d ((i2c p).history (world d) w) = [] := by
  rw [signs_internal d ((internal_i2c hp).mem_history (world d) w), reports_i2c]
  rfl

end Signs

/-! ## The interrupt-driven transport -/

namespace Irq

variable {δ : Type} {d : Device δ}

/-- A write of `len` bytes at `buf` of memory `m` is on record, and `L` is what it has shown. -/
structure Sends (m : Ptr → Byte) (buf : Ptr) (len : ℕ) (L : List Sign) (w : World δ) : Prop where
  passes : Passes (txWord m buf) len L w.xfer.ti
  reading : w.xfer.reading = false
  tx_eq : w.xfer.tx = buf
  tn_eq : w.xfer.tn = len
  mem_eq : w.mem = m
  ok_mem : w.xfer.done = true → w.xfer.result = .ok → .ok ∈ L

/-- The signs of a run go on as the rules have it. -/
def Signals (d : Device δ) (m : Ptr → Byte) (buf : Ptr) (len : ℕ) (s : World δ)
    (H : List (Cmd × World δ)) (t : World δ) : Prop :=
  ∀ L, Sends m buf len L s → Sends m buf len (L ++ signs d H) t

section Passes

variable (m : Ptr → Byte) (buf : Ptr) (len : ℕ)

theorem sequential_signals : Prog.Sequential (Signals d m buf len) where
  idle s L hL := by
    rw [signs, List.filterMap_nil, List.append_nil]
    exact hL
  trans h₁ h₂ L hL := by
    rw [signs_append, ← List.append_assoc]
    exact h₂ _ (h₁ L hL)

/-- Nothing shown, and what counts of the record as it was. -/
theorem signals_silent {s t : World δ} {H : List (Cmd × World δ)} (hH : signs d H = [])
    (hti : t.xfer.ti = s.xfer.ti) (hreading : t.xfer.reading = s.xfer.reading)
    (htx : t.xfer.tx = s.xfer.tx) (htn : t.xfer.tn = s.xfer.tn)
    (hdone : t.xfer.done = s.xfer.done) (hresult : t.xfer.result = s.xfer.result)
    (hmem : t.mem = s.mem) : Signals d m buf len s H t := by
  intro L hL
  rw [hH, List.append_nil]
  refine ⟨?_, hreading.trans hL.reading, htx.trans hL.tx_eq, htn.trans hL.tn_eq,
    hmem.trans hL.mem_eq, ?_⟩
  · rw [hti]
    exact hL.passes
  · rw [hdone, hresult]
    exact hL.ok_mem

theorem signals_same {s t : World δ} {H : List (Cmd × World δ)} (hH : signs d H = [])
    (hx : t.xfer = s.xfer) (hm : t.mem = s.mem) : Signals d m buf len s H t := by
  refine signals_silent m buf len hH ?_ ?_ ?_ ?_ ?_ ?_ hm
  all_goals rw [hx]

theorem Sends.action {m : Ptr → Byte} {buf : Ptr} {len : ℕ} {L : List Sign} {w : World δ}
    (h : Sends m buf len L w) (s : Word) : action s w.xfer = writeAction s len w.xfer.ti := by
  rw [action_writing h.reading, h.tn_eq]

theorem signs_look (w : World δ) (H : List (Cmd × World δ)) :
    signs d ((.status, w) :: (peek d w ++ H)) = [.word (w.word d)] ++ signs d H := by
  have hpeek : signs d (peek d w) = [] := by
    rw [signs_internal d fun e he => (closing_peek d w e he).internal, reports_peek]
    rfl
  have hcons : signs d ((.status, w) :: (peek d w ++ H)) =
      [.word (w.word d)] ++ signs d (peek d w ++ H) := rfl
  rw [hcons, signs_append, hpeek, List.nil_append]

theorem signals_idle (w : World δ) (ha : action (w.word d) w.xfer = .idle) :
    Signals d m buf len w ((.status, w) :: peek d w) w.next := by
  intro L hL
  have hsigns := signs_look (d := d) w []
  rw [List.append_nil] at hsigns
  have hact := hL.action (w.word d)
  rw [ha] at hact
  have hpush : writeAction (w.word d) len w.xfer.ti ≠ .push := by simp [← hact]
  have hok : writeAction (w.word d) len w.xfer.ti ≠ .finish .ok := by simp [← hact]
  rw [hsigns]
  refine ⟨Passes.other hL.passes hpush hok, hL.reading, hL.tx_eq, hL.tn_eq, hL.mem_eq,
    fun hd hr => ?_⟩
  exact List.mem_append_left _ (hL.ok_mem hd hr)

theorem signals_push (w : World δ) (ha : action (w.word d) w.xfer = .push) :
    Signals d m buf len w
      ((.status, w) :: (peek d w ++ (pushByte w.xfer).history (world d) w.next))
      ((pushByte w.xfer).run (world d) w.next).2 := by
  intro L hL
  have hact := hL.action (w.word d)
  rw [ha] at hact
  have hbyte : signs d ((pushByte w.xfer).history (world d) w.next) =
      [.pushed (txWord m buf w.xfer.ti)] := by
    rw [txWord, ← hL.tx_eq, ← hL.mem_eq]
    rfl
  rw [signs_look, hbyte, ← List.append_assoc]
  refine ⟨Passes.data hL.passes hact.symm, hL.reading, hL.tx_eq, hL.tn_eq, hL.mem_eq,
    fun hd hr => ?_⟩
  exact List.mem_append_left _ (List.mem_append_left _ (hL.ok_mem hd hr))

/-- A write never pops. -/
theorem signals_pop (w : World δ) (ha : action (w.word d) w.xfer = .pop) :
    Signals d m buf len w
      ((.status, w) :: (peek d w ++ (popByte w.xfer).history (world d) w.next))
      ((popByte w.xfer).run (world d) w.next).2 := by
  intro L hL
  have hreading := (action_moves.1 ha).1
  rw [hL.reading] at hreading
  cases hreading

theorem signals_finish (w : World δ) {r : I2cResult} (ha : action (w.word d) w.xfer = .finish r)
    {H : List (Cmd × World δ)} (hH : ∀ e ∈ H, Closing e.1) (hreports : reports H = [r]) :
    Signals d m buf len w ((.status, w) :: H) (finished d w.next r) := by
  intro L hL
  have hact := hL.action (w.word d)
  rw [ha] at hact
  have hsigns : signs d ((.status, w) :: H) =
      [.word (w.word d)] ++ if r = .ok then [Sign.ok] else [] := by
    have hcons : signs d ((.status, w) :: H) = [.word (w.word d)] ++ signs d H := rfl
    rw [hcons, signs_internal d fun e he => (hH e he).internal, hreports]
    by_cases hr : r = .ok <;> simp [hr]
  rw [hsigns]
  by_cases hr : r = .ok
  · subst hr
    rw [if_pos rfl, ← List.append_assoc]
    refine ⟨Passes.stop hL.passes hact.symm, hL.reading, hL.tx_eq, hL.tn_eq, hL.mem_eq,
      fun _ _ => ?_⟩
    simp
  · have hpush : writeAction (w.word d) len w.xfer.ti ≠ .push := by simp [← hact]
    have hok : writeAction (w.word d) len w.xfer.ti ≠ .finish .ok := by simp [← hact, hr]
    rw [if_neg hr, List.append_nil]
    exact ⟨Passes.other hL.passes hpush hok, hL.reading, hL.tx_eq, hL.tn_eq, hL.mem_eq,
      fun _ hres => absurd hres hr⟩

/-- Interrupts of a write without a callback. -/
theorem signals_anyIrqs :
    Prog.Triple (world d) (Signals d m buf len) Uncalled anyIrqs fun _ => Uncalled := by
  have hR := sequential_signals (d := d) m buf len
  refine triple_anyIrqs hR (fun w hw => ⟨hw, signals_same m buf len rfl rfl rfl⟩)
    (triple_handleIrq hR (fun w _ => signals_same m buf len rfl rfl rfl) fun fuel =>
      triple_passes hR (fun w hw ha => ⟨hw, signals_idle m buf len w ha⟩)
        (fun w hw ha => ⟨hw, signals_pop m buf len w ha⟩)
        (fun w hw ha => ⟨hw, signals_push m buf len w ha⟩) (fun w r hw ha => ?_) fuel)
  exact finish_keeps hR w r
    (fun _ => ⟨hw, fun H hH hreports => signals_finish m buf len w ha hH hreports⟩)
    fun hcb => absurd hw hcb

/-- An interrupt of a write, up to the next start. -/
theorem signals_handleIrq :
    Prog.Triple (world d) (Prog.UpTo restarts (Signals d m buf len)) (fun _ => True) handleIrq
      fun _ _ => True := by
  exact triple_life (sequential_signals m buf len) (fun w => signals_same m buf len rfl rfl rfl)
    (fun c w => signals_same m buf len rfl rfl rfl) (signals_idle m buf len) (signals_pop m buf len)
    (signals_push m buf len) (fun w r ha H hH hreports =>
      signals_finish m buf len w ha hH hreports)
    fun w r => signals_silent m buf len rfl rfl rfl rfl rfl rfl rfl rfl

/-- The watchdog loop returns success only of a record that holds one. -/
theorem signals_waitComplete (maxWaits : ℕ) :
    Prog.Triple (world d) (Signals d m buf len) Uncalled (waitComplete anyIrqs maxWaits)
      fun r w => r = .ok → w.xfer.done = true ∧ w.xfer.result = .ok := by
  have hR := sequential_signals (d := d) m buf len
  refine triple_waitComplete hR (triple_look (fun w _ => ?_) fun w _ hdone hok => ⟨hdone, hok⟩)
    (signals_anyIrqs m buf len) (fun w _ => ⟨?_, ?_⟩) maxWaits
  · exact signals_same m buf len rfl rfl rfl
  · intro h
    cases h
  · rw [abortTransfer_eq, Prog.history_bind, Prog.run_bind, run_i2c]
    refine signals_silent m buf len ?_ rfl rfl rfl rfl rfl rfl rfl
    rw [signs_append, signs_device d (I2c.steers_reset.mono I2c.Steers.configures), history_assign]
    rfl

end Passes

section Starts

variable (w : World δ) (addr : Byte) (buf : Ptr) (len : ℕ)

theorem signs_begin : signs d ((begin false addr buf len).history (world d) w) = [] := by
  rw [begin, Prog.history_bind, Prog.history_bind, signs_append, signs_append,
    signs_device d (I2c.configures_launch addr len false), List.append_nil]
  rfl

theorem sends_begin : Sends w.mem buf len [] ((begin false addr buf len).run (world d) w).2 := by
  rw [run_begin]
  refine ⟨.start, rfl, rfl, rfl, rfl, fun hdone => ?_⟩
  cases hdone

theorem sends_write (hgood : badArgs addr buf len = false) (maxWaits : ℕ) :
    ∃ t : World δ,
      Sends w.mem buf len
        (signs d ((write anyIrqs maxWaits addr buf len).history (world d) w)) t ∧
      (((write anyIrqs maxWaits addr buf len).run (world d) w).1 = .ok →
        t.xfer.done = true ∧ t.xfer.result = .ok) := by
  have heq : write anyIrqs maxWaits addr buf len = transfer anyIrqs maxWaits false addr buf len := by
    simp [write_eq, hgood]
  have hw : Uncalled ((begin false addr buf len).run (world d) w).2 := by
    rw [run_begin]
    rfl
  obtain ⟨hres, hsigns⟩ := signals_waitComplete (d := d) w.mem buf len maxWaits _ hw
  have hend := hsigns [] (sends_begin w addr buf len)
  rw [List.nil_append] at hend
  rw [heq, transfer, Prog.run_bind, Prog.history_bind, signs_append, signs_begin, List.nil_append]
  exact ⟨_, hend, hres⟩

theorem sends_writeAsync (hgood : badArgs addr buf len = false) (hactive : w.xfer.active = false)
    (cb : Completion) (user : Ptr) :
    Sends w.mem buf len [] ((writeAsync addr buf len cb user).run (world d) w).2 := by
  have hrun := run_call d w (.writeAsync addr buf len cb user)
  have haccepted : ¬ (AsyncCall.writeAsync addr buf len cb user).refused w.xfer = true := by
    simp [AsyncCall.refused, AsyncCall.addr, AsyncCall.buf, AsyncCall.len, hgood, hactive]
  rw [if_neg haccepted] at hrun
  have hcall : (writeAsync addr buf len cb user).run (world d) w =
      (.ok, launched d w (.writeAsync addr buf len cb user)) := hrun
  rw [hcall]
  refine ⟨.start, rfl, rfl, rfl, rfl, fun hdone => ?_⟩
  cases hdone

end Starts

end Irq

/-! ## The polled transport -/

namespace Polled

variable {δ : Type} {d : Device δ}

/-- The success that a polled write reports by returning it. -/
def returned (r : Option I2cResult) : List Sign := if r = some .ok then [.ok] else []

/-- The polling loop goes on by the same rules. -/
theorem passes_loop (buf : Ptr) (len spins i : ℕ) (w : World δ) (L : List Sign)
    (hL : Passes (txWord w.mem buf) len L i) :
    ∃ j, Passes (txWord w.mem buf) len
        (L ++ signs d ((loop false buf len spins i).history (world d) w) ++
          returned ((loop false buf len spins i).run (world d) w).1) j ∧
      Sign.ok ∉ signs d ((loop false buf len spins i).history (world d) w) := by
  induction spins generalizing i w L with
  | zero =>
    refine ⟨i, ?_, by simp [loop, signs]⟩
    simpa [loop, signs, returned] using hL
  | succ spins ih =>
    have hact : action (w.word d) (progress false buf len i) = writeAction (w.word d) len i :=
      action_writing rfl
    have hcons : ∀ H : List (Cmd × World δ),
        signs d ((.status, w) :: H) = [.word (w.word d)] ++ signs d H := fun _ => rfl
    have hstatus : ∀ H : List (Cmd × World δ), Sign.ok ∉ signs d H →
        Sign.ok ∉ [Sign.word (w.word d)] ++ signs d H := by
      intro H hH
      simp [hH]
    rw [run_loop_succ, history_loop_succ, hact]
    cases ha : writeAction (w.word d) len i with
    | finish r =>
      refine ⟨i, ?_, by simp [signs, sign]⟩
      have hword : signs d [(Cmd.status, w)] = [.word (w.word d)] := rfl
      dsimp only
      rw [hword]
      by_cases hr : r = .ok
      · subst hr
        exact hL.stop ha
      · have hnone : returned (some r) = [] := by simp [returned, hr]
        rw [hnone, List.append_nil]
        exact hL.other (by simp [ha]) (by simp [ha, hr])
    | idle =>
      have hpass : Passes (txWord w.mem buf) len (L ++ [.word (w.word d)]) i :=
        hL.other (by simp [ha]) (by simp [ha])
      obtain ⟨j, hj, hnot⟩ := ih i w.next _ hpass
      dsimp only
      rw [hcons, ← List.append_assoc]
      exact ⟨j, hj, hstatus _ hnot⟩
    | pop =>
      rw [← hact] at ha
      cases (action_progress.1 ha).1
    | push =>
      have hbyte : signs d ((move false buf i).history (world d) w.next) =
          [.pushed (txWord w.mem buf i)] := rfl
      have hpass : Passes (txWord w.mem buf) len
          (L ++ [.word (w.word d)] ++ [.pushed (txWord w.mem buf i)]) (i + 1) := hL.data ha
      obtain ⟨j, hj, hnot⟩ := ih (i + 1) ((move false buf i).run (world d) w.next).2 _ hpass
      dsimp only
      rw [hcons, signs_append, hbyte, ← List.append_assoc, ← List.append_assoc]
      refine ⟨j, hj, ?_⟩
      simp [hnot]

theorem passes_write (maxSpins : ℕ) (addr : Byte) (buf : Ptr) (len : ℕ) (w : World δ)
    (hgood : badArgs addr buf len = false) :
    ∃ j, Passes (txWord w.mem buf) len
        (signs d ((write maxSpins addr buf len).history (world d) w) ++
          if ((write maxSpins addr buf len).run (world d) w).1 = .ok then [Sign.ok] else []) j ∧
      Sign.ok ∉ signs d ((write maxSpins addr buf len).history (world d) w) := by
  obtain ⟨j, hj, hnot⟩ := passes_loop (d := d) buf len maxSpins 0
    ((i2c (do I2c.setup addr len; I2c.kick false)).run (world d) w).2 [] .start
  have hmem : ((i2c (do I2c.setup addr len; I2c.kick false)).run (world d) w).2.mem = w.mem := by
    rw [run_i2c]
  rw [hmem, List.nil_append] at hj
  have hreturned : ∀ r : Option I2cResult,
      returned r = if r.getD .timeout = .ok then [Sign.ok] else [] := by
    intro r
    cases r <;> simp [returned]
  rw [hreturned] at hj
  simp only [write_eq, hgood, Bool.false_eq_true, if_false, transfer, Prog.run_bind,
    Prog.history_bind, Prog.run_pure, Prog.history_pure, List.append_nil, signs_append,
    signs_device d (configures_start addr len false), List.nil_append]
  exact ⟨j, hj, hnot⟩

end Polled

/-! ## Successes and short stops -/

section NoShortWrite

variable {δ : Type} {d : Device δ} {w : World δ} {buf : Ptr} {len : ℕ}

/-- The words that a buffer comes to in the FIFO. -/
def txWords (m : Ptr → Byte) (buf : Ptr) (len : ℕ) : List Word :=
  (List.range len).map (txWord m buf)

/-- A success that the caller is told after the signs `L`. -/
theorem told_iff {byte : ℕ → Word} {L : List Sign} {j : ℕ} {told : Prop} [Decidable told]
    (h : Passes byte len (L ++ if told then [Sign.ok] else []) j) (hok : Sign.ok ∉ L) :
    (told → sent L = (List.range len).map byte) ↔ ¬ ShortStop len L := by
  have hall := h.allSent_iff
  have hL : AllSent ((List.range len).map byte) L := by
    rintro A x B rfl rfl
    simp at hok
  rw [not_shortStop_iff] at hall ⊢
  by_cases htold : told
  · rw [if_pos htold, AllSent, atEach_concat, atEach_concat] at hall
    simp only [htold, forall_const]
    constructor
    · exact fun hsent => (hall.mp ⟨hL, fun _ => hsent⟩).1
    · exact fun hlong => (hall.mpr ⟨hlong, nofun⟩).2 rfl
  · rw [if_neg htold, List.append_nil] at hall
    exact iff_of_true (fun h => absurd h htold) (hall.mp hL)

/-- Of an interrupt-driven write, the successes it reports and the one it returns. -/
theorem reported_iff {m : Ptr → Byte} {L : List Sign} {t : World δ} {told : Prop}
    (h : Irq.Sends m buf len L t)
    (htold : told → t.xfer.done = true ∧ t.xfer.result = .ok) :
    (AllSent (txWords m buf len) L ∧ (told → sent L = txWords m buf len)) ↔
      ¬ ShortStop len L := by
  rw [← h.passes.allSent_iff]
  constructor
  · exact fun hall => hall.1
  · refine fun hall => ⟨hall, fun hyes => ?_⟩
    obtain ⟨hdone, hresult⟩ := htold hyes
    exact h.passes.sent_of_ok hall (h.ok_mem hdone hresult)

end NoShortWrite

/-- A write reports success before all bytes are in the FIFO exactly when it reads a word
with DONE, without room and without an error, before `len` words with room: for the polled
write, the synchronous and the asynchronous interrupt-driven one. -/
theorem noShortWrite_iff {δ : Type} (d : Device δ) (w : World δ) (addr : Byte) (buf : Ptr)
    (len : ℕ) (hgood : badArgs addr buf len = false) :
    (∀ maxSpins,
      ((((Polled.write maxSpins addr buf len).run (world d) w).1 = .ok →
          sent (signs d ((Polled.write maxSpins addr buf len).history (world d) w)) =
            txWords w.mem buf len) ↔
        ¬ ShortStop len (signs d ((Polled.write maxSpins addr buf len).history (world d) w)))) ∧
    (∀ maxWaits,
      ((AllSent (txWords w.mem buf len)
            (signs d ((Irq.write anyIrqs maxWaits addr buf len).history (world d) w)) ∧
          (((Irq.write anyIrqs maxWaits addr buf len).run (world d) w).1 = .ok →
            sent (signs d ((Irq.write anyIrqs maxWaits addr buf len).history (world d) w)) =
              txWords w.mem buf len)) ↔
        ¬ ShortStop len
          (signs d ((Irq.write anyIrqs maxWaits addr buf len).history (world d) w)))) ∧
    (∀ cb user interrupts, w.xfer.active = false →
      (AllSent (txWords w.mem buf len) (signs d (life ((Prog.times handleIrq interrupts).history
          (world d) ((writeAsync addr buf len cb user).run (world d) w).2))) ↔
        ¬ ShortStop len (signs d (life ((Prog.times handleIrq interrupts).history
          (world d) ((writeAsync addr buf len cb user).run (world d) w).2))))) := by
  refine ⟨fun maxSpins => ?_, fun maxWaits => ?_, fun cb user interrupts hactive => ?_⟩
  · obtain ⟨j, hpasses, hok⟩ := Polled.passes_write (d := d) maxSpins addr buf len w hgood
    exact told_iff hpasses hok
  · obtain ⟨t, hsends, htold⟩ := Irq.sends_write (d := d) w addr buf len hgood maxWaits
    exact reported_iff hsends htold
  · have hR := Prog.sequential_upTo (Irq.sequential_signals (d := d) w.mem buf len) restarts
    obtain ⟨-, u, hsignals, -⟩ := Prog.Triple.times hR (Irq.signals_handleIrq w.mem buf len)
      interrupts ((writeAsync addr buf len cb user).run (world d) w).2 trivial
    have hsends := hsignals [] (Irq.sends_writeAsync w addr buf len hgood hactive cb user)
    exact hsends.passes.allSent_iff

/-- DONE and no room from the first word on, and an interrupt a wait. -/
def dryFromStart : World (Register → Word) :=
  { World.powerOn (fun _ => 0) S_DONE with interrupts := Stream'.const 1 }

/-- Both transports report the write of a byte that they never push. -/
theorem shortWrite_succeeds :
    ¬ (((Polled.write 1 0x50 8 1).run (world Device.plain) dryFromStart).1 = .ok →
        sent (signs Device.plain
          ((Polled.write 1 0x50 8 1).history (world Device.plain) dryFromStart)) =
            txWords dryFromStart.mem 8 1) ∧
      ¬ (((Irq.write anyIrqs 2 0x50 8 1).run (world Device.plain) dryFromStart).1 = .ok →
        sent (signs Device.plain
          ((Irq.write anyIrqs 2 0x50 8 1).history (world Device.plain) dryFromStart)) =
            txWords dryFromStart.mem 8 1) := by
  decide

/-- Room for the byte first, then DONE. -/
theorem noShortWrite_iff_oneByte :
    ¬ ShortStop 1 (signs Device.plain ((Polled.write 2 0x50 8 1).history (world Device.plain)
      { dryFromStart with words := Stream'.cons S_TXD (Stream'.const S_DONE) })) :=
  ((noShortWrite_iff Device.plain { dryFromStart with
    words := Stream'.cons S_TXD (Stream'.const S_DONE) } 0x50 8 1 (by decide)).1 2).mp (by decide)

end Bcm2837
