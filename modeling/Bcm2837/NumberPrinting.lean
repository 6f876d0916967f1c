import Bcm2837.Console
import Bcm2837.Numerals
import Bcm2837.Program

/-!
# Printing numbers

The printing functions of the freestanding image. A number goes through a buffer on the
stack: the digits are stored from the lowest up and then sent in the other direction.
-/
namespace Bcm2837.Print

open Numerals (Alphabet)

/-- A NUL-terminated string, with whatever lies behind it. -/
structure CString where
  chars : ℕ → Char
  len : ℕ
  nonzero : ∀ i < len, chars i ≠ Char.ofNat 0
  terminated : chars len = Char.ofNat 0

inductive Cmd
  /-- `uart_putc(c)` -/
  | putc (c : Char)
  /-- `buf[i] = c` -/
  | setBuf (i : ℕ) (c : Char)
  /-- `buf[i]` -/
  | getBuf (i : ℕ)
  /-- The character `i` of the format. -/
  | fetch (i : ℕ)
  /-- The next variadic argument, as the 64-bit slot it is in. -/
  | arg
  /-- The character `i` of the string at `s`. -/
  | deref (s : BitVec 64) (i : ℕ)

def Ans : Cmd → Type
  | .putc _ => Unit
  | .setBuf _ _ => Unit
  | .getBuf _ => Char
  | .fetch _ => Char
  | .arg => BitVec 64
  | .deref _ _ => Char

abbrev Io := Prog Cmd Ans

structure World where
  format : CString
  strings : BitVec 64 → CString
  args : ℕ → BitVec 64
  nextArg : ℕ
  /-- The local buffer of the function that prints a number. -/
  buf : ℕ → Char
  /-- The characters sent. -/
  out : List Char

def print : Prog.Handler Cmd Ans World
  | .putc c, w => ((), { w with out := w.out ++ [c] })
  | .setBuf i c, w => ((), { w with buf := Function.update w.buf i c })
  | .getBuf i, w => (w.buf i, w)
  | .fetch i, w => (w.format.chars i, w)
  | .arg, w => (w.args w.nextArg, { w with nextArg := w.nextArg + 1 })
  | .deref s i, w => ((w.strings s).chars i, w)

def uartPutc (c : Char) : Io Unit := Prog.call (Cmd.putc c) Prog.ret

def setBuf (i : ℕ) (c : Char) : Io Unit := Prog.call (Cmd.setBuf i c) Prog.ret

def getBuf (i : ℕ) : Io Char := Prog.call (Cmd.getBuf i) Prog.ret

section Run

variable (w : World)

@[simp] theorem run_uartPutc (c : Char) :
    (uartPutc c).run print w = ((), { w with out := w.out ++ [c] }) := rfl

@[simp] theorem run_setBuf (i : ℕ) (c : Char) :
    (setBuf i c).run print w = ((), { w with buf := Function.update w.buf i c }) := rfl

@[simp] theorem run_getBuf (i : ℕ) : (getBuf i).run print w = (w.buf i, w) := rfl

end Run

/-! ## The functions -/

/-- `while(v && i < cap) { buf[i++] = digit(v % base); v /= base; }`, with the `i` it leaves. -/
def fill (digit : ℕ → Char) (base cap v i : ℕ) : Io ℕ :=
  if h : v ≠ 0 ∧ i < cap then do
    setBuf i (digit (v % base))
    fill digit base cap (v / base) (i + 1)
  else pure i
termination_by cap - i

/-- `while(i--) uart_putc(buf[i]);` -/
def emit : ℕ → Io Unit
  | 0 => pure ()
  | i + 1 => do
    let c ← getBuf i
    uartPutc c
    emit i

/-- The body that `uart_dec` and `print_uint` share. -/
def printDigits (digit : ℕ → Char) (base cap v : ℕ) : Io Unit :=
  if v = 0 then uartPutc '0'
  else do
    let i ← fill digit base cap v 0
    emit i

def uartDec (v : BitVec 64) : Io Unit :=
  printDigits (fun d => Char.ofNat (48 + d)) 10 20 v.toNat

/-- `digits[d]` -/
def digitTable (upper : Bool) (d : ℕ) : Char :=
  (if upper then "0123456789ABCDEF" else "0123456789abcdef").toList.getD d (Char.ofNat 0)

def printUint (v : BitVec 64) (base : ℕ) (upper : Bool) : Io Unit :=
  printDigits (digitTable upper) base 24 v.toNat

def nibbleChar (nib : ℕ) : Char :=
  if nib < 10 then Char.ofNat (48 + nib) else Char.ofNat (97 + (nib - 10))

/-- The loop over the shifts `4 * (n - 1)` down to 0. -/
def hexLoop (v : BitVec 64) : ℕ → Io Unit
  | 0 => pure ()
  | n + 1 => do
    uartPutc (nibbleChar ((v >>> (4 * n)) &&& 0xF).toNat)
    hexLoop v n

def uartHex (v : BitVec 64) : Io Unit := do
  uartPutc '0'
  uartPutc 'x'
  hexLoop v 16

/-! ## The buffer -/

/-- The buffer with the characters `cs` stored from place `i` on. -/
def written (buf : ℕ → Char) (i : ℕ) : List Char → ℕ → Char
  | [] => buf
  | c :: cs => written (Function.update buf i c) (i + 1) cs

theorem written_of_lt (buf : ℕ → Char) {i j : ℕ} (h : j < i) (cs : List Char) :
    written buf i cs j = buf j := by
  induction cs generalizing buf i with
  | nil => rfl
  | cons c cs ih => rw [written, ih _ (by omega), Function.update_of_ne (by omega)]

/-- What was stored is read back in order. -/
theorem map_written (buf : ℕ → Char) (i : ℕ) (cs : List Char) :
    (List.range' i cs.length).map (written buf i cs) = cs := by
  induction cs generalizing buf i with
  | nil => rfl
  | cons c cs ih =>
    rw [List.length_cons, List.range'_succ, List.map_cons, written,
      written_of_lt _ (Nat.lt_succ_self i), Function.update_self, ih]

/-- Characters are sent and the first `cap` places of the buffer used, nothing else. -/
def Cmd.Within (cap : ℕ) : Cmd → Prop
  | .putc _ => True
  | .setBuf i _ => i < cap
  | .getBuf i => i < cap
  | _ => False

theorem within_fill (digit : ℕ → Char) (base cap v i : ℕ) :
    (fill digit base cap v i).Only (Cmd.Within cap) := by
  induction v, i using fill.induct base cap with
  | case1 v i h ih =>
    rw [fill, dif_pos h]
    exact Prog.Only.bind ⟨h.2, fun _ => trivial⟩ fun _ => ih
  | case2 v i h =>
    rw [fill, dif_neg h]
    exact Prog.only_pure i

theorem yields_fill (digit : ℕ → Char) (base cap v i : ℕ) (hi : i ≤ cap) :
    (fill digit base cap v i).Yields (· ≤ cap) := by
  induction v, i using fill.induct base cap with
  | case1 v i h ih =>
    rw [fill, dif_pos h]
    exact (Prog.yields_true _).bind fun _ _ => ih h.2
  | case2 v i h =>
    rw [fill, dif_neg h]
    exact hi

theorem within_emit {cap n : ℕ} (h : n ≤ cap) : (emit n).Only (Cmd.Within cap) := by
  induction n with
  | zero => trivial
  | succ n ih => exact ⟨h, fun _ => ⟨trivial, fun _ => ih (by omega)⟩⟩

theorem within_printDigits (digit : ℕ → Char) (base cap v : ℕ) :
    (printDigits digit base cap v).Only (Cmd.Within cap) := by
  unfold printDigits
  split_ifs
  · exact ⟨trivial, fun _ => trivial⟩
  · exact (within_fill digit base cap v 0).bind_of_yields
      (yields_fill digit base cap v 0 (Nat.zero_le cap)) fun _ hi => within_emit hi

/-- With room for all digits, the loop stores them all. -/
theorem run_fill (digit : ℕ → Char) {base cap v i : ℕ} (hbase : 1 < base)
    (hroom : i + (Nat.digits base v).length ≤ cap) (w : World) :
    (fill digit base cap v i).run print w =
      (i + (Nat.digits base v).length,
        { w with buf := written w.buf i ((Nat.digits base v).map digit) }) := by
  induction v, i using fill.induct base cap generalizing w with
  | case1 v i h ih =>
    have hdigits := Nat.digits_def' hbase (Nat.pos_of_ne_zero h.1)
    rw [hdigits, List.length_cons] at hroom
    rw [fill, dif_pos h, Prog.run_bind, run_setBuf, ih (by omega), hdigits, List.length_cons,
      List.map_cons, written]
    simp only [Prod.mk.injEq, and_true]
    omega
  | case2 v i h =>
    have hv : v = 0 := by
      by_contra hv
      have hne := Nat.digits_ne_nil_iff_ne_zero (b := base).mpr hv
      have hpos := List.length_pos_iff.mpr hne
      exact h ⟨hv, by omega⟩
    rw [fill, dif_neg h, hv]
    simp [written]

theorem run_emit (n : ℕ) (w : World) :
    (emit n).run print w = ((), { w with out := w.out ++ ((List.range n).map w.buf).reverse }) := by
  induction n generalizing w with
  | zero => simp [emit]
  | succ n ih =>
    rw [emit, Prog.run_bind, run_getBuf, Prog.run_bind, run_uartPutc, ih]
    simp [List.range_succ]

/-- A number with room for all its digits is printed as its numeral. -/
theorem out_printDigits {base : ℕ} (A : Alphabet base) (hbase : 1 < base)
    (hzero : A.digit 0 = '0') {cap v : ℕ} (hv : v < base ^ cap) (w : World) :
    ((printDigits A.digit base cap v).run print w).2.out = w.out ++ A.numeral v := by
  unfold printDigits Alphabet.numeral
  split_ifs with h
  · rw [run_uartPutc, hzero]
  · have hroom := (Nat.digits_length_le_iff hbase v).mpr hv
    rw [Prog.run_bind, run_fill A.digit hbase (by omega), run_emit]
    have hread := map_written w.buf 0 ((Nat.digits base v).map A.digit)
    rw [List.length_map, ← List.range_eq_range'] at hread
    simp only [Nat.zero_add, hread, Alphabet.text]

/-! ## The numerals -/

/-- The value of a digit character. -/
def charValue (c : Char) : ℕ :=
  if '0' ≤ c ∧ c ≤ '9' then c.toNat - 48
  else if 'a' ≤ c ∧ c ≤ 'f' then c.toNat - 87
  else c.toNat - 55

/-- The digits of `uart_dec`. -/
def decimalDigits : Alphabet 10 where
  digit d := Char.ofNat (48 + d)
  value := charValue
  value_digit := by decide

/-- The digits of `print_uint`. -/
def tableDigits (upper : Bool) (base : ℕ) (h : base ≤ 16) : Alphabet base where
  digit := digitTable upper
  value := charValue
  value_digit d hd := by
    have htable : ∀ d < 16, charValue (digitTable upper d) = d := by cases upper <;> decide
    exact htable d (by omega)

/-- The digits of `uart_hex`. -/
def nibbleDigits : Alphabet 16 where
  digit := nibbleChar
  value := charValue
  value_digit := by decide

theorem toNat_nibble (v : BitVec 64) (n : ℕ) :
    ((v >>> (4 * n)) &&& 0xF).toNat = v.toNat / 16 ^ n % 16 := by
  have hmask : ((0xF : BitVec 64)).toNat = 2 ^ 4 - 1 := by decide
  have hpow : (16 : ℕ) = 2 ^ 4 := by norm_num
  rw [BitVec.toNat_and, BitVec.toNat_ushiftRight, hmask, Nat.and_two_pow_sub_one_eq_mod,
    Nat.shiftRight_eq_div_pow, hpow, pow_mul]

theorem out_hexLoop (v : BitVec 64) (n : ℕ) (w : World) :
    ((hexLoop v n).run print w).2.out =
      w.out ++ nibbleDigits.text (Alphabet.places 16 n v.toNat) := by
  induction n generalizing w with
  | zero => simp [hexLoop, Alphabet.places, Alphabet.text]
  | succ n ih =>
    rw [hexLoop, Prog.run_bind, run_uartPutc, ih, toNat_nibble, Alphabet.text_places_succ,
      List.append_assoc]
    rfl

theorem within_hexLoop (v : BitVec 64) (n : ℕ) : (hexLoop v n).Only (Cmd.Within 0) := by
  induction n with
  | zero => trivial
  | succ n ih => exact ⟨trivial, fun _ => ih⟩

/-- A run of `p` sends the text and uses at most `cap` places of the buffer. -/
structure Prints (p : Io Unit) (w : World) (cap : ℕ) (cs : List Char) : Prop where
  out : (p.run print w).2.out = w.out ++ cs
  inside : ∀ e ∈ p.history print w, e.1.Within cap

theorem prints_printDigits {base : ℕ} (A : Alphabet base) (hbase : 1 < base)
    (hzero : A.digit 0 = '0') {cap v : ℕ} (hv : v < base ^ cap) (w : World) :
    Prints (printDigits A.digit base cap v) w cap (A.numeral v) where
  out := out_printDigits A hbase hzero hv w
  inside := (within_printDigits A.digit base cap v).mem_history print w

theorem prints_uartHex (v : BitVec 64) (w : World) :
    Prints (uartHex v) w 0 (['0', 'x'] ++ nibbleDigits.text (Alphabet.places 16 16 v.toNat)) where
  out := by
    rw [uartHex, Prog.run_bind, run_uartPutc, Prog.run_bind, run_uartPutc, out_hexLoop]
    simp
  inside := by
    have hputc : ∀ c, (uartPutc c).Only (Cmd.Within 0) := fun _ => ⟨trivial, fun _ => trivial⟩
    have honly : (uartHex v).Only (Cmd.Within 0) :=
      (hputc _).bind fun _ => (hputc _).bind fun _ => within_hexLoop v 16
    exact honly.mem_history print w

/-- The console of the cores prints what `uart_dec` sends. -/
theorem prints_decimal (v : BitVec 64) (w : World) :
    Prints (uartDec v) w 20 (Console.decimal v) := by
  have hlt : v.toNat < 10 ^ 20 := lt_trans v.isLt (by decide)
  have hdigits (room n : ℕ) (hroom : n < 10 ^ room) :
      Console.digits room n = (Nat.digits 10 n).map decimalDigits.digit := by
    induction room generalizing n with
    | zero =>
      have hn : n = 0 := by omega
      rw [hn]
      rfl
    | succ room ih =>
      unfold Console.digits
      split_ifs with hn
      · rw [hn]
        rfl
      · rw [Nat.digits_def' (by decide) (by omega), List.map_cons,
          ih (n / 10) (by rw [pow_succ] at hroom; omega)]
        rfl
  have heq : Console.decimal v = decimalDigits.numeral v.toNat := by
    have hzero : v = 0 ↔ v.toNat = 0 := BitVec.toNat_eq
    unfold Console.decimal Alphabet.numeral
    rw [hdigits 20 v.toNat hlt]
    simp only [hzero]
    rfl
  rw [heq]
  exact prints_printDigits decimalDigits (by decide) rfl hlt w

/-- Every 64-bit number is printed in full: `uart_dec` and `print_uint` send its canonical
numeral, `uart_hex` its sixteen digits, and the buffers of 20 and 24 places suffice. -/
theorem numbers_exact (w : World) (v : BitVec 64) :
    (∃ cs, Prints (uartDec v) w 20 cs ∧ decimalDigits.Canonical v.toNat cs) ∧
      (∀ upper, ∃ cs, Prints (printUint v 10 upper) w 24 cs ∧
        (tableDigits upper 10 (by decide)).Canonical v.toNat cs) ∧
      (∀ upper, ∃ cs, Prints (printUint v 16 upper) w 24 cs ∧
        (tableDigits upper 16 (by decide)).Canonical v.toNat cs) ∧
      ∃ cs, Prints (uartHex v) w 0 (['0', 'x'] ++ cs) ∧ cs.length = 16 ∧
        nibbleDigits.Digits cs ∧ nibbleDigits.decode cs = v.toNat := by
  have hten : v.toNat < 10 ^ 20 := lt_trans v.isLt (by decide)
  have hsixteen : v.toNat < 16 ^ 16 := v.isLt
  refine ⟨?_, fun upper => ?_, fun upper => ?_, ?_⟩
  · exact ⟨_, prints_printDigits decimalDigits (by decide) rfl hten w,
      Alphabet.canonical_numeral _ (by decide) _⟩
  · exact ⟨_, prints_printDigits (tableDigits upper 10 (by decide)) (by decide)
      (by cases upper <;> rfl) (lt_trans hten (by decide)) w,
      Alphabet.canonical_numeral _ (by decide) _⟩
  · exact ⟨_, prints_printDigits (tableDigits upper 16 (by decide)) (by decide)
      (by cases upper <;> rfl) (lt_trans hsixteen (by decide)) w,
      Alphabet.canonical_numeral _ (by decide) _⟩
  · refine ⟨_, prints_uartHex v w, ?_, ?_, ?_⟩
    · simp [Alphabet.text]
    · exact nibbleDigits.digits_text (Alphabet.places_lt (by decide) 16 v.toNat)
    · exact nibbleDigits.decode_text_places (by decide) hsixteen

end Bcm2837.Print
