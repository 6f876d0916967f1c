import Bcm2837.Loops
import Bcm2837.MemoryMap
import Bcm2837.NumberPrinting

/-!
# The freestanding `printf`

One loop scans the format, skips the length modifiers and prints string arguments, with a
point of the loop for each of these. A conversion ends where the scan looks next, so one
that the format breaks off carries the scan over the terminating NUL.
-/
namespace Bcm2837.Print

/-- The NUL character. -/
abbrev NUL : Char := Char.ofNat 0

def fetch (i : ℕ) : Io Char := Prog.call (Cmd.fetch i) Prog.ret

def arg : Io (BitVec 64) := Prog.call Cmd.arg Prog.ret

def deref (s : BitVec 64) (i : ℕ) : Io Char := Prog.call (Cmd.deref s i) Prog.ret

/-- `lng ? va_arg(ap, unsigned long) : va_arg(ap, unsigned int)` -/
def unsignedArg (lng : ℕ) : Io (BitVec 64) := do
  let a ← arg
  return if lng = 0 then (a.setWidth 32).setWidth 64 else a

/-- `lng ? va_arg(ap, long) : va_arg(ap, int)` -/
def signedArg (lng : ℕ) : Io (BitVec 64) := do
  let a ← arg
  return if lng = 0 then (a.setWidth 32).signExtend 64 else a

def printSigned (v : BitVec 64) : Io Unit :=
  if v.slt 0 then do
    uartPutc '-'
    printUint (-v) 10 false
  else printUint v 10 false

/-- The cases of the switch other than `%s`. -/
def conversion (lng : ℕ) (c : Char) : Io Unit :=
  if c = 'c' then do
    let a ← arg
    uartPutc (Char.ofNat (a.toNat % 256))
  else if c = 'd' ∨ c = 'i' then do
    let v ← signedArg lng
    printSigned v
  else if c = 'u' then do
    let v ← unsignedArg lng
    printUint v 10 false
  else if c = 'x' then do
    let v ← unsignedArg lng
    printUint v 16 false
  else if c = 'X' then do
    let v ← unsignedArg lng
    printUint v 16 true
  else if c = 'p' then do
    uartPutc '0'
    uartPutc 'x'
    let a ← arg
    printUint a 16 false
  else if c = '%' then uartPutc '%'
  else do
    uartPutc '%'
    uartPutc c

/-- A string argument to print, `%s`, or another conversion. -/
def switch (lng : ℕ) (c : Char) : Io (Option (BitVec 64)) :=
  if c = 's' then some <$> arg
  else (fun _ => none) <$> conversion lng c

/-- Where `printf` can be between two tests of a loop. -/
inductive Point
  /-- `for(; *fmt; ++fmt)` with `fmt` at `p`. -/
  | outer (p : ℕ)
  /-- `while(*fmt == 'l')` with `fmt` at `p`. -/
  | skip (p lng : ℕ)
  /-- The loop of `uart_puts` at character `i` of `s`; the format goes on at `p`. -/
  | puts (s : BitVec 64) (i p : ℕ)

/-- The body of the outer loop, at the character `c` of the format. -/
def outerBody (p : ℕ) (c : Char) : Io (Point ⊕ Word) :=
  if c = NUL then return .inr 0
  else if c = '%' then return .inl (.skip (p + 1) 0)
  else do
    uartPutc c
    return .inl (.outer (p + 1))

/-- The loop over the modifiers and the conversion behind it. -/
def skipBody (p lng : ℕ) (c : Char) : Io (Point ⊕ Word) :=
  if c = 'l' then return .inl (.skip (p + 1) (lng + 1))
  else do
    let s ← switch lng c
    -- the outer loop advances once more after every conversion
    return .inl (s.elim (.outer (p + 1)) fun s => .puts s 0 (p + 1))

/-- The body of the loop of `uart_puts`, at the character `c` of its string. -/
def putsBody (s : BitVec 64) (i p : ℕ) (c : Char) : Io (Point ⊕ Word) :=
  if c = NUL then return .inl (.outer p)
  else do
    if c = '\n' then uartPutc '\r' else pure ()
    uartPutc c
    return .inl (.puts s (i + 1) p)

/-- One round, to the next test or to the return. -/
def printfRound : Point → Io (Point ⊕ Word)
  | .outer p => do
    let c ← fetch p
    outerBody p c
  | .skip p lng => do
    let c ← fetch p
    skipBody p lng c
  | .puts s i p => do
    let c ← deref s i
    putsBody s i p c

/-- `printf` returns after some rounds, and `H` is what it did. -/
def Returns (w : World) (H : List (Cmd × World)) (b : Word) (t : World) : Prop :=
  ∃ n, Prog.Leaves print printfRound n (.outer 0) w H b t

/-- The character is one of the format or its NUL. -/
def Cmd.Inside (f : CString) : Cmd → Prop
  | .fetch i => i ≤ f.len
  | _ => True

/-- `printf` returns and reads nothing beyond the NUL of its format. -/
def Stops (w : World) : Prop :=
  ∃ H b t, Returns w H b t ∧ ∀ e ∈ H, e.1.Inside w.format

/-- A conversion is open after the first `p` characters of the format. -/
def Open (f : CString) : ℕ → Bool
  | 0 => false
  | p + 1 => if Open f p then f.chars p = 'l' else f.chars p = '%'

/-! ## One round -/

/-- The strings of a world stay as they are. -/
theorem strings_run {α : Type} (p : Io α) (w : World) :
    (p.run print w).2.format = w.format ∧ (p.run print w).2.strings = w.strings := by
  have honly : p.Only fun _ => True := by
    induction p with
    | ret a => trivial
    | call c k ih => exact ⟨trivial, ih⟩
  refine honly.preserves (I := fun t => t.format = w.format ∧ t.strings = w.strings) ?_ w
    ⟨rfl, rfl⟩
  intro c _ s hs
  cases c <;> exact hs

/-- Where in the format a round looks. -/
def Point.position : Point → ℕ
  | outer p => p
  | skip p _ => p
  | puts _ _ p => p

/-- The format is read at position `p` only. -/
def Cmd.At (p : ℕ) : Cmd → Prop
  | .fetch i => i = p
  | _ => True

theorem at_printUint (p : ℕ) (v : BitVec 64) (base : ℕ) (upper : Bool) :
    (printUint v base upper).Only (Cmd.At p) := by
  apply (within_printDigits _ _ _ _).mono
  intro c hc
  cases c with
  | fetch i => exact hc.elim
  | _ => trivial

theorem at_unsignedArg (p lng : ℕ) : (unsignedArg lng).Only (Cmd.At p) :=
  ⟨trivial, fun _ => trivial⟩

theorem at_signedArg (p lng : ℕ) : (signedArg lng).Only (Cmd.At p) :=
  ⟨trivial, fun _ => trivial⟩

theorem at_printSigned (p : ℕ) (v : BitVec 64) : (printSigned v).Only (Cmd.At p) := by
  unfold printSigned
  split_ifs
  · exact ⟨trivial, fun _ => at_printUint p _ _ _⟩
  · exact at_printUint p _ _ _

theorem at_conversion (p lng : ℕ) (c : Char) : (conversion lng c).Only (Cmd.At p) := by
  unfold conversion
  split_ifs
  · exact ⟨trivial, fun _ => ⟨trivial, fun _ => trivial⟩⟩
  · exact (at_signedArg p lng).bind fun v => at_printSigned p v
  · exact (at_unsignedArg p lng).bind fun v => at_printUint p v 10 false
  · exact (at_unsignedArg p lng).bind fun v => at_printUint p v 16 false
  · exact (at_unsignedArg p lng).bind fun v => at_printUint p v 16 true
  · exact ⟨trivial, fun _ => ⟨trivial, fun _ => ⟨trivial, fun a => at_printUint p a 16 false⟩⟩⟩
  · exact ⟨trivial, fun _ => trivial⟩
  · exact ⟨trivial, fun _ => ⟨trivial, fun _ => trivial⟩⟩

theorem at_switch (p lng : ℕ) (c : Char) : (switch lng c).Only (Cmd.At p) := by
  unfold switch
  split_ifs
  · exact ⟨trivial, fun _ => trivial⟩
  · rw [← bind_pure_comp]
    exact (at_conversion p lng c).bind fun _ => trivial

theorem at_outerBody (p : ℕ) (c : Char) : (outerBody p c).Only (Cmd.At p) := by
  unfold outerBody
  split_ifs
  · trivial
  · trivial
  · exact ⟨trivial, fun _ => trivial⟩

theorem at_skipBody (p lng : ℕ) (c : Char) : (skipBody p lng c).Only (Cmd.At p) := by
  unfold skipBody
  split_ifs
  · trivial
  · exact (at_switch p lng c).bind fun _ => trivial

theorem at_putsBody (s : BitVec 64) (i p : ℕ) (c : Char) :
    (putsBody s i p c).Only (Cmd.At p) := by
  unfold putsBody
  split_ifs
  · trivial
  · exact ⟨trivial, fun _ => ⟨trivial, fun _ => trivial⟩⟩
  · exact ⟨trivial, fun _ => trivial⟩

/-- A round reads the format at its position only. -/
theorem at_printfRound (a : Point) : (printfRound a).Only (Cmd.At a.position) := by
  cases a with
  | outer p => exact ⟨rfl, fun c => at_outerBody p c⟩
  | skip p lng => exact ⟨rfl, fun c => at_skipBody p lng c⟩
  | puts s i p => exact ⟨trivial, fun c => at_putsBody s i p c⟩

/-- A round of the outer loop begins with the character at its position. -/
theorem fetch_mem_outer (p : ℕ) (w : World) :
    (Cmd.fetch p, w) ∈ (printfRound (.outer p)).history print w := List.mem_cons_self

section Answers

variable (w : World)

theorem answer_outer (p : ℕ) :
    ((printfRound (.outer p)).run print w).1 =
      if w.format.chars p = NUL then .inr 0
      else if w.format.chars p = '%' then .inl (.skip (p + 1) 0)
      else .inl (.outer (p + 1)) := by
  change ((outerBody p (w.format.chars p)).run print w).1 = _
  unfold outerBody
  split_ifs <;> rfl

theorem answer_skip_l {p : ℕ} (lng : ℕ) (h : w.format.chars p = 'l') :
    ((printfRound (.skip p lng)).run print w).1 = .inl (.skip (p + 1) (lng + 1)) := by
  change ((skipBody p lng (w.format.chars p)).run print w).1 = _
  rw [skipBody, if_pos h]
  rfl

/-- After a conversion the scan goes on behind its character. -/
theorem answer_skip {p : ℕ} (lng : ℕ) (h : w.format.chars p ≠ 'l') :
    ((printfRound (.skip p lng)).run print w).1 = .inl (.outer (p + 1)) ∨
      ∃ s, ((printfRound (.skip p lng)).run print w).1 = .inl (.puts s 0 (p + 1)) := by
  change ((skipBody p lng (w.format.chars p)).run print w).1 = _ ∨
    ∃ s, ((skipBody p lng (w.format.chars p)).run print w).1 = _
  rw [skipBody, if_neg h, Prog.run_bind]
  cases ((switch lng (w.format.chars p)).run print w).1 with
  | none => exact .inl rfl
  | some s => exact .inr ⟨s, rfl⟩

/-- The NUL is taken for an unknown conversion. -/
theorem answer_skip_nul {p : ℕ} (lng : ℕ) (h : w.format.chars p = NUL) :
    ((printfRound (.skip p lng)).run print w).1 = .inl (.outer (p + 1)) := by
  change ((skipBody p lng (w.format.chars p)).run print w).1 = _
  rw [h]
  rfl

theorem answer_puts (s : BitVec 64) (i p : ℕ) :
    ((printfRound (.puts s i p)).run print w).1 =
      if (w.strings s).chars i = NUL then .inl (.outer p) else .inl (.puts s (i + 1) p) := by
  change ((putsBody s i p ((w.strings s).chars i)).run print w).1 = _
  unfold putsBody
  split_ifs <;> rfl

end Answers

/-! ## Open conversions -/

theorem open_succ (f : CString) (p : ℕ) :
    Open f (p + 1) = if Open f p then decide (f.chars p = 'l') else decide (f.chars p = '%') := by
  rw [Open]

theorem lt_len (f : CString) {p : ℕ} (hp : p ≤ f.len) (hc : f.chars p ≠ NUL) : p < f.len := by
  rcases Nat.lt_or_eq_of_le hp with h | h
  · exact h
  · rw [h] at hc
    exact absurd f.terminated hc

variable {f : CString} {g : BitVec 64 → CString}

/-- The scan is within the strings, and in a conversion exactly when one is open. -/
def Point.Fits (f : CString) (g : BitVec 64 → CString) : Point → Prop
  | outer p => p ≤ f.len ∧ Open f p = false
  | skip p _ => p ≤ f.len ∧ Open f p = true
  | puts s i p => (p ≤ f.len ∧ Open f p = false) ∧ i ≤ (g s).len

/-- What is left of the format, then of the string. -/
def Point.rank (f : CString) (g : BitVec 64 → CString) : Point → ℕ × ℕ
  | outer p => (f.len - p, 0)
  | skip p _ => (f.len - p, 0)
  | puts s i p => (f.len - p, (g s).len - i + 1)

/-- The loop goes on to a point with less to do, unless it carries an open conversion over
the end of the format. -/
def Point.Next (f : CString) (g : BitVec 64 → CString) (a a' : Point) : Prop :=
  (a'.Fits f g ∧ Prod.Lex (· < ·) (· < ·) (a'.rank f g) (a.rank f g)) ∨
    (a' = .outer (f.len + 1) ∧ Open f f.len = true)

theorem next_outer {w : World} (hw : w.format = f ∧ w.strings = g) {p : ℕ} {a' : Point}
    (ha : (Point.outer p).Fits f g)
    (h : ((printfRound (.outer p)).run print w).1 = .inl a') : (Point.outer p).Next f g a' := by
  rw [answer_outer, hw.1] at h
  split_ifs at h with hnul hpercent
  · have hp := lt_len f ha.1 hnul
    cases h
    refine .inl ⟨⟨by omega, ?_⟩, Prod.Lex.left _ _ (by omega)⟩
    simp [open_succ, ha.2, hpercent]
  · have hp := lt_len f ha.1 hnul
    cases h
    refine .inl ⟨⟨by omega, ?_⟩, Prod.Lex.left _ _ (by omega)⟩
    simp [open_succ, ha.2, hpercent]

theorem next_skip {w : World} (hw : w.format = f ∧ w.strings = g) {p lng : ℕ} {a' : Point}
    (ha : (Point.skip p lng).Fits f g)
    (h : ((printfRound (.skip p lng)).run print w).1 = .inl a') :
    (Point.skip p lng).Next f g a' := by
  by_cases hl : f.chars p = 'l'
  · have hp := lt_len f ha.1 (by rw [hl]; decide)
    rw [answer_skip_l w lng (by rw [hw.1, hl])] at h
    cases h
    refine .inl ⟨⟨by omega, ?_⟩, Prod.Lex.left _ _ (by omega)⟩
    simp [open_succ, ha.2, hl]
  · by_cases hnul : f.chars p = NUL
    · have hp : p = f.len := by
        rcases Nat.lt_or_eq_of_le ha.1 with hlt | heq
        · exact absurd hnul (f.nonzero p hlt)
        · exact heq
      rw [answer_skip_nul w lng (by rw [hw.1, hnul])] at h
      cases h
      have hopen := ha.2
      rw [hp] at hopen ⊢
      exact .inr ⟨rfl, hopen⟩
    · have hp := lt_len f ha.1 hnul
      have hclosed : Open f (p + 1) = false := by simp [open_succ, ha.2, hl]
      rcases answer_skip w lng (by rw [hw.1]; exact hl) with hanswer | ⟨s, hanswer⟩
      · rw [hanswer] at h
        cases h
        exact .inl ⟨⟨by omega, hclosed⟩, Prod.Lex.left _ _ (by omega)⟩
      · rw [hanswer] at h
        cases h
        exact .inl ⟨⟨⟨by omega, hclosed⟩, Nat.zero_le _⟩, Prod.Lex.left _ _ (by omega)⟩

theorem next_puts {w : World} (hw : w.format = f ∧ w.strings = g) {s : BitVec 64} {i p : ℕ}
    {a' : Point} (ha : (Point.puts s i p).Fits f g)
    (h : ((printfRound (.puts s i p)).run print w).1 = .inl a') :
    (Point.puts s i p).Next f g a' := by
  rw [answer_puts, hw.2] at h
  split_ifs at h with hnul
  · cases h
    exact .inl ⟨ha.1, Prod.Lex.right _ (by omega)⟩
  · have hi := lt_len (g s) ha.2 hnul
    cases h
    exact .inl ⟨⟨ha.1, hi⟩, Prod.Lex.right _ (by omega)⟩

/-- What one round does. -/
theorem next_printfRound {w : World} (hw : w.format = f ∧ w.strings = g) {a a' : Point}
    (ha : a.Fits f g) (h : ((printfRound a).run print w).1 = .inl a') : a.Next f g a' := by
  cases a with
  | outer p => exact next_outer hw ha h
  | skip p lng => exact next_skip hw ha h
  | puts s i p => exact next_puts hw ha h

/-- The loop returns at the NUL, with no conversion open. -/
theorem closed_of_return {w : World} (hw : w.format = f ∧ w.strings = g) {a : Point} {b : Word}
    (ha : a.Fits f g) (h : ((printfRound a).run print w).1 = .inr b) : Open f f.len = false := by
  cases a with
  | outer p =>
    rw [answer_outer, hw.1] at h
    split_ifs at h with hnul
    have hp : p = f.len := by
      rcases Nat.lt_or_eq_of_le ha.1 with hlt | heq
      · exact absurd hnul (f.nonzero p hlt)
      · exact heq
    exact hp ▸ ha.2
  | skip p lng =>
    by_cases hl : w.format.chars p = 'l'
    · rw [answer_skip_l w lng hl] at h
      cases h
    · rcases answer_skip w lng hl with hanswer | ⟨s, hanswer⟩
      · rw [hanswer] at h
        cases h
      · rw [hanswer] at h
        cases h
  | puts s i p =>
    rw [answer_puts] at h
    split_ifs at h

/-- A point that fits, in a world with the strings as given. -/
def FitsIn (f : CString) (g : BitVec 64 → CString) (a : Point) (w : World) : Prop :=
  (w.format = f ∧ w.strings = g) ∧ a.Fits f g

theorem strings_next {w : World} (hw : w.format = f ∧ w.strings = g) (a : Point) :
    ((printfRound a).run print w).2.format = f ∧ ((printfRound a).run print w).2.strings = g := by
  have hrun := strings_run (printfRound a) w
  exact ⟨hrun.1.trans hw.1, hrun.2.trans hw.2⟩

/-- Without an open conversion at the end, `printf` returns within its format. -/
theorem stops_of_closed {w : World} (hclosed : Open w.format w.format.len = false) :
    Stops w := by
  have hstep : ∀ a s a', FitsIn w.format w.strings a s →
      ((printfRound a).run print s).1 = .inl a' →
        FitsIn w.format w.strings a' ((printfRound a).run print s).2 ∧
          Prod.Lex (· < ·) (· < ·) (a'.rank w.format w.strings) (a.rank w.format w.strings) := by
    intro a s a' ha h
    rcases next_printfRound ha.1 ha.2 h with ⟨hfits, hlt⟩ | ⟨-, hopen⟩
    · exact ⟨⟨strings_next ha.1 a, hfits⟩, hlt⟩
    · rw [hclosed] at hopen
      cases hopen
  have hwf : WellFounded (Prod.Lex (α := ℕ) (β := ℕ) (· < ·) (· < ·)) :=
    WellFounded.prod_lex wellFounded_lt wellFounded_lt
  have hstart : FitsIn w.format w.strings (.outer 0) w := ⟨⟨rfl, rfl⟩, Nat.zero_le _, rfl⟩
  obtain ⟨n, H, b, t, hl⟩ := Prog.leaves_of_rank hwf
    (fun a _ => a.rank w.format w.strings) hstep hstart
  refine ⟨H, b, t, ⟨n, hl⟩, ?_⟩
  refine hl.keeps (Prog.sequential_within (Cmd.Inside w.format)) ?_
    (fun a s a' ha h => (hstep a s a' ha h).1) hstart
  intro a s ha e he
  have hat := (at_printfRound a).mem_history print s e he
  have hposition : a.position ≤ w.format.len := by
    obtain ⟨-, ha⟩ := ha
    cases a with
    | outer p => exact ha.1
    | skip p lng => exact ha.1
    | puts s i p => exact ha.1.1
  cases hc : e.1 with
  | fetch i =>
    rw [hc] at hat
    exact hat ▸ hposition
  | _ => trivial

/-- With an open conversion at the end, a run that returns has read behind the NUL. -/
theorem fetch_of_open (hopen : Open f f.len = true) {n : ℕ} {a : Point} {w t : World}
    {H : List (Cmd × World)} {b : Word} (hl : Prog.Leaves print printfRound n a w H b t)
    (ha : FitsIn f g a w) : ∃ e ∈ H, e.1 = Cmd.fetch (f.len + 1) := by
  induction hl with
  | exit hb =>
    have hclosed := closed_of_return ha.1 ha.2 hb
    rw [hopen] at hclosed
    cases hclosed
  | @again n a a' w t H b hb hl ih =>
    rcases next_printfRound ha.1 ha.2 hb with ⟨hfits, -⟩ | ⟨rfl, -⟩
    · obtain ⟨e, he, hfetch⟩ := ih ⟨strings_next ha.1 a, hfits⟩
      exact ⟨e, List.mem_append_right _ he, hfetch⟩
    · have hfirst : ∃ e ∈ H, e.1 = Cmd.fetch (f.len + 1) := by
        cases hl with
        | exit _ => exact ⟨_, fetch_mem_outer _ _, rfl⟩
        | again _ _ => exact ⟨_, List.mem_append_left _ (fetch_mem_outer _ _), rfl⟩
      obtain ⟨e, he, hfetch⟩ := hfirst
      exact ⟨e, List.mem_append_right _ he, hfetch⟩

theorem not_stops_of_open {w : World} (hopen : Open w.format w.format.len = true) :
    ¬ Stops w := by
  rintro ⟨H, b, t, ⟨n, hl⟩, hinside⟩
  obtain ⟨e, he, hfetch⟩ := fetch_of_open hopen hl
    (g := w.strings) ⟨⟨rfl, rfl⟩, Nat.zero_le _, rfl⟩
  have hle := hinside e he
  rw [hfetch] at hle
  exact absurd hle (Nat.not_succ_le_self _)

/-- `printf` returns without reading behind its format exactly when the format leaves no
conversion open. -/
theorem stops_iff_closed (w : World) : Stops w ↔ Open w.format w.format.len = false := by
  constructor
  · intro h
    by_contra hopen
    exact not_stops_of_open (by simpa using hopen) h
  · exact stops_of_closed

/-- The format `"%"`. -/
def percent : CString where
  chars i := if i = 0 then '%' else NUL
  len := 1
  nonzero i hi := by
    have hi : i = 0 := by omega
    rw [hi]
    decide
  terminated := rfl

theorem not_stops_percent :
    ¬ Stops ⟨percent, fun _ => percent, fun _ => 0, 0, fun _ => NUL, []⟩ :=
  not_stops_of_open rfl

end Bcm2837.Print
