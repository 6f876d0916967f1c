import Bcm2837.Refinement
import Bcm2837.Traffic

/-!
# What the polled read makes of a status stream

The status words are classified by themselves: a data word has a byte to take, a stop
word ends the transfer with or without all bytes, an error word ends it at once. Result,
buffer and FIFO of the read follow from the first word that ends it.
-/
namespace Bcm2837

open Bsc

namespace StatusStream

/-- An error word. -/
def Fails (s : Word) : Prop := Word.has s S_ERR ∨ Word.has s S_CLKT

instance (s : Word) : Decidable (Fails s) := inferInstanceAs (Decidable (_ ∨ _))

variable (W : Stream' Word) (len : ℕ)

/-- The number of data words before word `k`: no word up to a data word is an error, it
has RXD and fewer than `len` data words come before it. -/
def dataBefore : ℕ → ℕ
  | 0 => 0
  | k + 1 =>
    if (∀ j < k + 1, ¬ Fails (W.get j)) ∧ Word.has (W.get k) S_RXD ∧ dataBefore k < len then
      dataBefore k + 1
    else dataBefore k

def IsData (k : ℕ) : Prop :=
  (∀ j < k + 1, ¬ Fails (W.get j)) ∧ Word.has (W.get k) S_RXD ∧ dataBefore W len k < len

def IsStop (k : ℕ) : Prop :=
  Word.has (W.get k) S_DONE ∧ ¬ IsData W len k ∧ ¬ Fails (W.get k)

/-- A word at which the read ends. -/
def IsEnd (k : ℕ) : Prop := Fails (W.get k) ∨ IsStop W len k

/-- The result of a read that ends at word `k`. -/
def endResult (k : ℕ) : I2cResult :=
  if Word.has (W.get k) S_ERR then .nack
  else if Word.has (W.get k) S_CLKT then .clockTimeout
  else if dataBefore W len k = len then .ok
  else .timeout

instance (k : ℕ) : Decidable (IsData W len k) := inferInstanceAs (Decidable (_ ∧ _))
instance (k : ℕ) : Decidable (IsStop W len k) := inferInstanceAs (Decidable (_ ∧ _))
instance (k : ℕ) : Decidable (IsEnd W len k) := inferInstanceAs (Decidable (_ ∨ _))

theorem dataBefore_succ (k : ℕ) :
    dataBefore W len (k + 1) = dataBefore W len k + if IsData W len k then 1 else 0 := by
  by_cases hdata : IsData W len k
  · rw [if_pos hdata]
    exact if_pos hdata
  · rw [if_neg hdata]
    exact if_neg hdata

theorem dataBefore_le (k : ℕ) : dataBefore W len k ≤ len := by
  induction k with
  | zero => exact Nat.zero_le _
  | succ k ih =>
    rw [dataBefore_succ]
    split_ifs with hdata
    · exact hdata.2.2
    · exact ih

variable {W len} {k : ℕ}

/-- Before the first word that ends the read there is no error word. -/
theorem isData_iff (hopen : ∀ j < k, ¬ IsEnd W len j) :
    IsData W len k ↔ ¬ Fails (W.get k) ∧ Word.has (W.get k) S_RXD ∧ dataBefore W len k < len := by
  constructor
  · exact fun h => ⟨h.1 k (Nat.lt_succ_self k), h.2⟩
  · intro h
    refine ⟨fun j hj => ?_, h.2⟩
    rcases Nat.lt_succ_iff_lt_or_eq.mp hj with hlt | rfl
    · exact fun hfail => hopen j hlt (.inl hfail)
    · exact h.1

/-- The action of a read on word `k`, with the data words before it as its index. -/
theorem action_read (hopen : ∀ j < k, ¬ IsEnd W len j) (buf : Ptr) :
    match Irq.action (W.get k) (Irq.progress true buf len (dataBefore W len k)) with
    | .finish r => IsEnd W len k ∧ r = endResult W len k
    | .idle => ¬ IsEnd W len k ∧ ¬ IsData W len k
    | .pop => ¬ IsEnd W len k ∧ IsData W len k
    | .push => False := by
  have hdata := isData_iff hopen
  unfold Irq.action IsEnd IsStop endResult
  by_cases herr : Word.has (W.get k) S_ERR
  · simp [herr, Fails]
  by_cases hclk : Word.has (W.get k) S_CLKT
  · simp [herr, hclk, Fails]
  have hgood : ¬ Fails (W.get k) := not_or.mpr ⟨herr, hclk⟩
  by_cases hpop : IsData W len k
  · obtain ⟨-, hroom, hlt⟩ := hdata.mp hpop
    simp [herr, hclk, hroom, hlt, hgood, hpop, Irq.progress]
  have hwait : ¬ (Word.has (W.get k) S_RXD = true ∧ dataBefore W len k < len) :=
    fun h => hpop (hdata.mpr ⟨hgood, h⟩)
  by_cases hdone : Word.has (W.get k) S_DONE
  · simp [herr, hclk, hwait, hdone, hgood, hpop, Irq.progress]
  · simp [herr, hclk, hwait, hdone, hgood, hpop, Irq.progress]

/-- A read succeeds at a stop word with all bytes taken. -/
theorem endResult_eq_ok_iff (hend : IsEnd W len k) :
    endResult W len k = .ok ↔ IsStop W len k ∧ dataBefore W len k = len := by
  unfold endResult
  by_cases herr : Word.has (W.get k) S_ERR
  · simp [herr, IsStop, Fails]
  by_cases hclk : Word.has (W.get k) S_CLKT
  · simp [herr, hclk, IsStop, Fails]
  have hstop : IsStop W len k := hend.resolve_left (not_or.mpr ⟨herr, hclk⟩)
  simp [herr, hclk, hstop]

/-- There is at most one first word that ends a read. -/
theorem first_unique {e : ℕ} (hk : IsEnd W len k) (hbefore : ∀ j < k, ¬ IsEnd W len j)
    (he : IsEnd W len e) (hbefore' : ∀ j < e, ¬ IsEnd W len j) : e = k := by
  rcases Nat.lt_trichotomy e k with hlt | heq | hgt
  · exact absurd he (hbefore e hlt)
  · exact heq
  · exact absurd hk (hbefore' k hgt)

end StatusStream

namespace Polled

/-- From `w` to `t` with history `H`, `d` bytes have been taken into the buffer and `n`
status words have been read. -/
structure Drained (w : World Streamed) (H : List (Cmd × World Streamed)) (t : World Streamed)
    (buf d n : ℕ) : Prop where
  stored : ∀ j < d, t.mem (buf + j) = (w.dev.fifo.get j).setWidth 8
  kept : ∀ q : ℕ, q < buf ∨ buf + d ≤ q → t.mem q = w.mem q
  fifo : t.dev.fifo = w.dev.fifo.drop d
  words : t.words = w.words.drop n
  popped : Irq.pops H = d
  read : Irq.statusReads H = n

variable {w t : World Streamed} {H : List (Cmd × World Streamed)} {buf d n : ℕ}

theorem Drained.word (h : Drained w H t buf d n) :
    t.word Device.streamed = w.words.get n := by
  change t.words.head = _
  rw [h.words, Stream'.head_drop]

theorem Drained.status (h : Drained w H t buf d n) :
    Drained w (H ++ [(.status, t)]) t.next buf d (n + 1) where
  stored := h.stored
  kept := h.kept
  fifo := h.fifo
  words := by
    change t.words.tail = _
    rw [h.words, Stream'.tail_drop']
  popped := by
    rw [Irq.pops_append, h.popped]
    rfl
  read := by
    rw [Irq.statusReads_append, h.read]
    rfl

/-- Taking a byte out of the FIFO stores its low eight bits. -/
theorem mem_move_streamed (t : World Streamed) (buf i : ℕ) :
    ((move true buf i).run (world Device.streamed) t).2.mem =
      Function.update t.mem (buf + i) (t.dev.fifo.head.setWidth 8) := by
  have hlow : (t.dev.fifo.head &&& 0xFF &&& 0xFF).setWidth 8 = t.dev.fifo.head.setWidth 8 := by
    rw [BitVec.and_assoc, BitVec.and_self, ← BitField.lowBits_eight]
    exact BitField.setWidth_and_lowBits _ 8
  have hmem : ((move true buf i).run (world Device.streamed) t).2.mem =
      Function.update t.mem (buf + i) ((t.dev.fifo.head &&& 0xFF &&& 0xFF).setWidth 8) := rfl
  rw [hmem, hlow]

theorem Drained.move (h : Drained w H t buf d n) :
    Drained w (H ++ (Polled.move true buf d).history (world Device.streamed) t)
      ((Polled.move true buf d).run (world Device.streamed) t).2 buf (d + 1) n where
  stored := by
    intro j hj
    rw [mem_move_streamed]
    rcases Nat.lt_succ_iff_lt_or_eq.mp hj with hlt | rfl
    · have hne : buf + j ≠ buf + d := by omega
      rw [Function.update_of_ne hne, h.stored j hlt]
    · rw [Function.update_self, h.fifo, Stream'.head_drop]
  kept := by
    intro q hq
    have hne : q ≠ buf + d := by omega
    rw [mem_move_streamed, Function.update_of_ne hne]
    exact h.kept q (by omega)
  fifo := by
    change t.dev.fifo.tail = _
    rw [h.fifo, Stream'.tail_drop']
  words := h.words
  popped := by
    rw [Irq.pops_append, h.popped]
    rfl
  read := by
    rw [Irq.statusReads_append, h.read]
    rfl

open StatusStream

/-- The first word that ends the read has come, or `limit` words without one. -/
def EndsBy (w : World Streamed) (buf len limit : ℕ) (r : Option I2cResult × World Streamed)
    (H : List (Cmd × World Streamed)) : Prop :=
  ∃ e, (∀ j < e, ¬ IsEnd w.words len j) ∧
    (e = limit ∧ r.1 = none ∧ Drained w H r.2 buf (dataBefore w.words len e) e ∨
      e < limit ∧ IsEnd w.words len e ∧ r.1 = some (endResult w.words len e) ∧
        Drained w H r.2 buf (dataBefore w.words len e) (e + 1))

/-- With the data words so far as its index, the loop goes on to the end of the read. -/
theorem endsBy_loop (len spins : ℕ)
    (h : Drained w H t buf (dataBefore w.words len n) n)
    (hopen : ∀ j < n, ¬ IsEnd w.words len j) :
    EndsBy w buf len (n + spins)
      ((loop true buf len spins (dataBefore w.words len n)).run (world Device.streamed) t)
      (H ++ (loop true buf len spins (dataBefore w.words len n)).history
        (world Device.streamed) t) := by
  induction spins generalizing H t n with
  | zero =>
    refine ⟨n, hopen, .inl ⟨rfl, rfl, ?_⟩⟩
    rw [loop, Prog.history_pure, List.append_nil]
    exact h
  | succ spins ih =>
    have hact := action_read hopen buf
    have hnext : (∀ j < n + 1, ¬ IsEnd w.words len j) ↔ ¬ IsEnd w.words len n :=
      ⟨fun hall => hall n (Nat.lt_succ_self n), fun hn j hj =>
        (Nat.lt_succ_iff_lt_or_eq.mp hj).elim (hopen j) fun heq => heq ▸ hn⟩
    rw [run_loop_succ, history_loop_succ, h.word]
    cases ha : Irq.action (w.words.get n)
        (Irq.progress true buf len (dataBefore w.words len n)) with
    | finish r =>
      rw [ha] at hact
      exact ⟨n, hopen, .inr ⟨by omega, hact.1, congrArg some hact.2, h.status⟩⟩
    | push =>
      rw [ha] at hact
      exact hact.elim
    | idle =>
      rw [ha] at hact
      have hsame : dataBefore w.words len (n + 1) = dataBefore w.words len n := by
        rw [dataBefore_succ, if_neg hact.2, Nat.add_zero]
      have hstep := h.status
      rw [← hsame] at hstep
      have hend := ih hstep (hnext.mpr hact.1)
      rwa [hsame, List.append_assoc, List.singleton_append, Nat.add_right_comm, Nat.add_assoc]
        at hend
    | pop =>
      rw [ha] at hact
      have hmore : dataBefore w.words len (n + 1) = dataBefore w.words len n + 1 := by
        rw [dataBefore_succ, if_pos hact.2]
      have hstep := h.status.move
      rw [← hmore] at hstep
      have hend := ih hstep (hnext.mpr hact.1)
      rwa [hmore, List.append_assoc, List.append_assoc, List.singleton_append,
        Nat.add_right_comm, Nat.add_assoc] at hend

/-- Programming the controller leaves its FIFO alone. -/
theorem configures_fifo {α : Type} {p : I2c.Io α} (hp : p.Only I2c.Configures) (s : Streamed) :
    (p.run Device.streamed.access s).2.fifo = s.fifo := by
  refine hp.preserves (I := fun t => t.fifo = s.fifo) ?_ s rfl
  intro a ha t ht
  cases a with
  | load r => cases r <;> first | exact ht | exact absurd rfl ha
  | store r v => exact ht

/-- A started read has drained nothing. -/
theorem drained_start (addr : Byte) (w : World Streamed) (buf len : ℕ) :
    Drained w ((i2c (do I2c.setup addr len; I2c.kick true)).history (world Device.streamed) w)
      ((i2c (do I2c.setup addr len; I2c.kick true)).run (world Device.streamed) w).2 buf 0 0 := by
  have hstart := configures_start addr len true
  have hquiet := (Irq.internal_i2c hstart).mem_history (world Device.streamed) w
  refine ⟨nofun, ?_, ?_, ?_, Irq.pops_internal hquiet, Irq.statusReads_internal hquiet⟩
  · intro q _
    rw [run_i2c]
  · rw [run_i2c]
    exact configures_fifo hstart w.dev
  · rw [run_i2c]
    rfl

theorem endsBy_transfer (maxSpins : ℕ) (addr : Byte) (buf len : ℕ) (w : World Streamed) :
    EndsBy w buf len maxSpins
      ((transfer maxSpins true addr buf len).run (world Device.streamed) w)
      ((transfer maxSpins true addr buf len).history (world Device.streamed) w) := by
  have hloop := endsBy_loop (n := 0) len maxSpins (drained_start addr w buf len) nofun
  rw [Nat.zero_add] at hloop
  rw [transfer, Prog.run_bind, Prog.history_bind]
  exact hloop

/-- The read is decided by the first of its `maxSpins` status words that ends it. -/
theorem read_exact (maxSpins : ℕ) (addr : Byte) (buf : Ptr) (len : ℕ) (w : World Streamed)
    (haddr : addr ≤ 0x7F) (hbuf : buf ≠ nullptr) (hlen : 1 ≤ len) :
    let r := (read maxSpins addr buf len).run (world Device.streamed) w
    let H := (read maxSpins addr buf len).history (world Device.streamed) w
    (∀ k < maxSpins, IsEnd w.words len k → (∀ j < k, ¬ IsEnd w.words len j) →
      r.1 = endResult w.words len k ∧
      (r.1 = .ok ↔ IsStop w.words len k ∧ dataBefore w.words len k = len) ∧
      dataBefore w.words len k ≤ len ∧
      Drained w H r.2 buf (dataBefore w.words len k) (k + 1)) ∧
    ((∀ k < maxSpins, ¬ IsEnd w.words len k) →
      r.1 = .timeout ∧ dataBefore w.words len maxSpins ≤ len ∧
      Drained w H r.2 buf (dataBefore w.words len maxSpins) maxSpins) := by
  have hgood : badArgs addr buf len = false := by
    have hle : ¬ ADDR_MAX < addr := BitVec.not_lt.mpr haddr
    simp [badArgs, hle, hbuf, Nat.ne_of_gt hlen]
  obtain ⟨e, hopen, hend⟩ := endsBy_transfer maxSpins addr buf len w
  simp only [read_eq, hgood, Bool.false_eq_true, if_false, Prog.run_bind, Prog.history_bind,
    Prog.run_pure, Prog.history_pure, List.append_nil]
  constructor
  · intro k hk hfirst hbefore
    rcases hend with ⟨rfl, -, -⟩ | ⟨-, he, hres, hdrained⟩
    · exact absurd hfirst (hopen k hk)
    · obtain rfl := first_unique hfirst hbefore he hopen
      rw [hres]
      exact ⟨rfl, endResult_eq_ok_iff he, dataBefore_le _ _ _, hdrained⟩
  · intro hnone
    rcases hend with ⟨rfl, hres, hdrained⟩ | ⟨hlt, he, -, -⟩
    · rw [hres]
      exact ⟨rfl, dataBefore_le _ _ _, hdrained⟩
    · exact absurd he (hnone e hlt)

/-- A byte is ready and the transfer done from the first word on. -/
def fullStream : World Streamed :=
  World.powerOn ⟨fun _ => 0, Stream'.const 0x15A⟩ (S_RXD ||| S_DONE)

theorem read_exact_oneByte :
    ((read 4 0x50 8 1).run (world Device.streamed) fullStream).1 = .ok ∧
      ((read 4 0x50 8 1).run (world Device.streamed) fullStream).2.mem 8 = 0x5A := by
  obtain ⟨hres, -, -, hdrained⟩ := (read_exact 4 0x50 8 1 fullStream (by decide) (by decide)
    (by decide)).1 1 (by decide) (by decide) (by decide)
  exact ⟨hres.trans (by decide), (hdrained.stored 0 (by decide)).trans (by decide)⟩

end Polled
end Bcm2837
