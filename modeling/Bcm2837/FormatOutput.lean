import Bcm2837.Printf

/-!
# What `printf` prints

A format is a sequence of pieces, each a character to copy or a conversion of the next
argument. `render` says what the pieces mean; the scan of `printf` prints exactly that.
-/
namespace Bcm2837.Print

/-! ## The meaning of a format -/

inductive Piece
  | literal (c : Char)
  /-- The conversion `c`, with an `l` before it or without. -/
  | conversion (long : Bool) (c : Char)
  deriving DecidableEq

/-- The pieces that a text spells, with the conversion that is open at its start. -/
def pieces : Option Bool → List Char → List Piece
  | _, [] => []
  | none, c :: cs => if c = '%' then pieces (some false) cs else .literal c :: pieces none cs
  | some long, c :: cs =>
    if c = 'l' then pieces (some true) cs else .conversion long c :: pieces none cs

/-- Conversions of an argument. -/
def converters : List Char := ['c', 's', 'd', 'i', 'u', 'x', 'X', 'p']

/-- The arguments a piece takes. -/
def Piece.arity : Piece → ℕ
  | literal _ => 0
  | conversion _ c => if c ∈ converters then 1 else 0

/-- A number in decimal, with its sign if it is negative. -/
def signed (z : ℤ) : List Char := if z < 0 then '-' :: Nat.toDigits 10 z.natAbs
  else Nat.toDigits 10 z.natAbs

/-- The value of an argument slot as an unsigned type of its size. -/
def unsignedValue (long : Bool) (a : BitVec 64) : ℕ := if long then a.toNat else a.toNat % 2 ^ 32

def signedValue (long : Bool) (a : BitVec 64) : ℤ := if long then a.toInt else (a.setWidth 32).toInt

/-- What a conversion makes of its argument `a`; an unknown one is copied. -/
def convert (string : BitVec 64 → List Char) (a : BitVec 64) (long : Bool) (c : Char) : List Char :=
  if c = 'c' then [Char.ofNat (a.toNat % 256)]
  else if c = 's' then Console.crlf (string a)
  else if c = 'd' ∨ c = 'i' then signed (signedValue long a)
  else if c = 'u' then Nat.toDigits 10 (unsignedValue long a)
  else if c = 'x' then Nat.toDigits 16 (unsignedValue long a)
  else if c = 'X' then (Nat.toDigits 16 (unsignedValue long a)).map Char.toUpper
  else if c = 'p' then ['0', 'x'] ++ Nat.toDigits 16 a.toNat
  else if c = '%' then ['%']
  else ['%', c]

def Piece.text (string : BitVec 64 → List Char) (a : BitVec 64) : Piece → List Char
  | literal c => [c]
  | conversion long c => convert string a long c

/-- The text of the pieces, with argument `k` the next. -/
def render (string : BitVec 64 → List Char) (args : ℕ → BitVec 64) : ℕ → List Piece → List Char
  | _, [] => []
  | k, p :: ps => p.text string (args k) ++ render string args (k + p.arity) ps

/-- The arguments that the pieces take. -/
def arity (ps : List Piece) : ℕ := (ps.map Piece.arity).sum

/-- The characters of a string from `i` on, without the NUL. -/
def CString.from (f : CString) (i : ℕ) : List Char := (List.range' i (f.len - i)).map f.chars

/-- The text of the string. -/
def CString.text (f : CString) : List Char := f.from 0

theorem CString.from_len (f : CString) : f.from f.len = [] := by simp [CString.from]

theorem CString.from_of_lt (f : CString) {i : ℕ} (h : i < f.len) :
    f.from i = f.chars i :: f.from (i + 1) := by
  obtain ⟨k, hk⟩ : ∃ k, f.len - i = k + 1 := ⟨f.len - i - 1, by omega⟩
  have hrest : f.len - (i + 1) = k := by omega
  rw [CString.from, CString.from, hk, hrest, List.range'_succ, List.map_cons]

/-! ## What the functions send -/

/-- Between `w` and `w'` the text `cs` is sent and `k` arguments are taken. -/
structure Emits (w w' : World) (cs : List Char) (k : ℕ) : Prop where
  out : w'.out = w.out ++ cs
  nextArg : w'.nextArg = w.nextArg + k
  args : w'.args = w.args

section Emits

variable {w w' w'' : World} {cs cs' : List Char} {k k' : ℕ}

theorem Emits.refl (w : World) : Emits w w [] 0 := ⟨by simp, rfl, rfl⟩

theorem Emits.trans (h : Emits w w' cs k) (h' : Emits w' w'' cs' k') :
    Emits w w'' (cs ++ cs') (k + k') where
  out := by rw [h'.out, h.out, List.append_assoc]
  nextArg := by rw [h'.nextArg, h.nextArg, Nat.add_assoc]
  args := h'.args.trans h.args

theorem emits_putc (w : World) (c : Char) : Emits w ((uartPutc c).run print w).2 [c] 0 :=
  ⟨rfl, rfl, rfl⟩

theorem run_arg (w : World) :
    arg.run print w = (w.args w.nextArg, { w with nextArg := w.nextArg + 1 }) :=
  rfl

theorem emits_arg (w : World) : Emits w (arg.run print w).2 [] 1 := ⟨by simp [run_arg], rfl, rfl⟩

/-- Printing in a buffer takes no argument. -/
theorem Prints.emits {p : Io Unit} {cap : ℕ} (h : Prints p w cap cs)
    (hp : p.Only (Cmd.Within cap)) :
    Emits w (p.run print w).2 cs 0 := by
  have hkeep := hp.preserves (h := print) (I := fun t => t.nextArg = w.nextArg ∧ t.args = w.args)
    (fun c hc s hs => by cases c <;> first | exact hs | exact hc.elim) w ⟨rfl, rfl⟩
  exact ⟨h.out, hkeep.1, hkeep.2⟩

end Emits

theorem digitTable_lower {d : ℕ} (h : d < 16) : digitTable false d = d.digitChar := by
  interval_cases d <;> rfl

theorem digitTable_upper {d : ℕ} (h : d < 16) : digitTable true d = d.digitChar.toUpper := by
  interval_cases d <;> rfl

/-- The case of the hexadecimal digits. -/
def cased (upper : Bool) (c : Char) : Char := if upper then c.toUpper else c

theorem digitTable_eq (upper : Bool) {d : ℕ} (h : d < 16) :
    digitTable upper d = cased upper d.digitChar := by
  cases upper
  · exact digitTable_lower h
  · exact digitTable_upper h

theorem emits_printUint (v : BitVec 64) {base : ℕ} (hbase : base = 10 ∨ base = 16) (upper : Bool)
    (w : World) : Emits w ((printUint v base upper).run print w).2
      ((Nat.toDigits base v.toNat).map (cased upper)) 0 := by
  have hle : base ≤ 16 := by omega
  have hroom : v.toNat < base ^ 24 := by
    rcases hbase with rfl | rfl
    · exact lt_trans v.isLt (by decide)
    · exact lt_trans v.isLt (by decide)
  have htext := (tableDigits upper base hle).numeral_eq_toDigits (by omega) (cased upper)
    (fun d hd => digitTable_eq upper (by omega)) v.toNat
  have hprints := prints_printDigits (tableDigits upper base hle) (by omega)
    (by cases upper <;> rfl) hroom w
  rw [htext] at hprints
  exact hprints.emits (within_printDigits _ _ _ _)

/-- Decimal digits have no case. -/
theorem toDigits_ten_cased (n : ℕ) : (Nat.toDigits 10 n).map (cased false) = Nat.toDigits 10 n :=
  List.map_id _

theorem emits_printSigned (v : BitVec 64) (w : World) :
    Emits w ((printSigned v).run print w).2 (signed v.toInt) 0 := by
  have hsign : v.slt 0 = true ↔ v.toInt < 0 := by simp [BitVec.slt]
  unfold printSigned signed
  by_cases hneg : v.toInt < 0
  · have hnat : (-v).toNat = v.toInt.natAbs := by
      rw [BitVec.toInt_eq_toNat_cond] at hneg ⊢
      rw [BitVec.toNat_neg]
      omega
    rw [if_pos (hsign.mpr hneg), if_pos hneg, Prog.run_bind, ← hnat]
    have hdigits := emits_printUint (-v) (.inl rfl) false ((uartPutc '-').run print w).2
    rw [toDigits_ten_cased] at hdigits
    exact (emits_putc w '-').trans hdigits
  · have hnat : v.toNat = v.toInt.natAbs := by
      rw [BitVec.toInt_eq_toNat_cond] at hneg ⊢
      omega
    rw [if_neg (mt hsign.mp hneg), if_neg hneg, ← hnat]
    have hdigits := emits_printUint v (.inl rfl) false w
    rwa [toDigits_ten_cased] at hdigits

section Arguments

variable (lng : ℕ) (w : World)

theorem signedArg_spec : ((signedArg lng).run print w).1.toInt =
      signedValue (lng ≠ 0) (w.args w.nextArg) ∧
    Emits w ((signedArg lng).run print w).2 [] 1 := by
  refine ⟨?_, emits_arg w⟩
  change (if lng = 0 then ((w.args w.nextArg).setWidth 32).signExtend 64
    else w.args w.nextArg).toInt = _
  unfold signedValue
  by_cases hlng : lng = 0
  · simp [hlng, BitVec.toInt_signExtend_of_le]
  · simp [hlng]

theorem unsignedArg_spec : ((unsignedArg lng).run print w).1.toNat =
      unsignedValue (lng ≠ 0) (w.args w.nextArg) ∧
    Emits w ((unsignedArg lng).run print w).2 [] 1 := by
  refine ⟨?_, emits_arg w⟩
  change (if lng = 0 then ((w.args w.nextArg).setWidth 32).setWidth 64
    else w.args w.nextArg).toNat = _
  unfold unsignedValue
  by_cases hlng : lng = 0
  · simp only [hlng, if_true, BitVec.toNat_setWidth]
    simp
    omega
  · simp [hlng]

end Arguments

theorem emits_conversion (string : BitVec 64 → List Char) (lng : ℕ) {c : Char} (hc : c ≠ 's')
    (w : World) : Emits w ((conversion lng c).run print w).2
      (convert string (w.args w.nextArg) (lng ≠ 0) c) (if c ∈ converters then 1 else 0) := by
  obtain ⟨hsigned, hsignedArg⟩ := signedArg_spec lng w
  obtain ⟨hunsigned, hunsignedArg⟩ := unsignedArg_spec lng w
  unfold conversion convert
  rw [if_neg hc]
  split_ifs with hchar hmem hdec hmem huns hmem hhex hmem hupper hmem hptr hmem hpercent hmem hmem
  · exact (emits_arg w).trans (emits_putc _ _)
  · exact absurd (by simp [hchar, converters]) hmem
  · rw [Prog.run_bind, ← hsigned]
    exact hsignedArg.trans (emits_printSigned _ _)
  · exact absurd (by rcases hdec with rfl | rfl <;> simp [converters]) hmem
  · rw [Prog.run_bind, ← hunsigned, ← toDigits_ten_cased]
    exact hunsignedArg.trans (emits_printUint _ (.inl rfl) false _)
  · exact absurd (by simp [huns, converters]) hmem
  · rw [Prog.run_bind, ← hunsigned, ← List.map_id (Nat.toDigits 16 _)]
    exact hunsignedArg.trans (emits_printUint _ (.inr rfl) false _)
  · exact absurd (by simp [hhex, converters]) hmem
  · rw [Prog.run_bind, ← hunsigned]
    exact hunsignedArg.trans (emits_printUint _ (.inr rfl) true _)
  · exact absurd (by simp [hupper, converters]) hmem
  · rw [← List.map_id (Nat.toDigits 16 _)]
    exact ((emits_putc w '0').trans (emits_putc _ 'x')).trans
      ((emits_arg _).trans (emits_printUint _ (.inr rfl) false _))
  · exact absurd (by simp [hptr, converters]) hmem
  · exact absurd hmem (by simp [hpercent, converters])
  · exact emits_putc w '%'
  · exact absurd hmem (by
      simp [converters, hchar, hc, huns, hhex, hupper, hptr, not_or.mp hdec])
  · exact (emits_putc w '%').trans (emits_putc _ c)

/-! ## The rounds of the scan -/

/-- The pieces ahead of the scan. -/
def Point.ahead (f : CString) : Point → List Piece
  | outer p => pieces none (f.from p)
  | skip p lng => pieces (some (lng ≠ 0)) (f.from p)
  | puts _ _ p => pieces none (f.from p)

/-- What is left of a string argument that is being printed. -/
def Point.begun (g : BitVec 64 → CString) : Point → List Char
  | outer _ => []
  | skip _ _ => []
  | puts s i _ => Console.crlf ((g s).from i)

/-- What the scan has still to send, with argument `k` the next. -/
def Point.rest (f : CString) (g : BitVec 64 → CString) (args : ℕ → BitVec 64) (k : ℕ) (a : Point) :
    List Char :=
  a.begun g ++ render (fun s => (g s).text) args k (a.ahead f)

/-- A round sends some of what is ahead and takes the arguments for it. -/
def Sends (f : CString) (g : BitVec 64 → CString) (a a' : Point) (w w' : World) : Prop :=
  ∃ cs k, Emits w w' cs k ∧ a.rest f g w.args w.nextArg = cs ++ a'.rest f g w.args (w.nextArg + k) ∧
    arity (a.ahead f) = k + arity (a'.ahead f)

section Rounds

variable {f : CString} {g : BitVec 64 → CString} {w : World}
  (hw : w.format = f ∧ w.strings = g)
include hw

theorem sends_outer {p : ℕ} {a' : Point} (ha : (Point.outer p).Fits f g)
    (h : ((printfRound (.outer p)).run print w).1 = .inl a') :
    Sends f g (.outer p) a' w ((printfRound (.outer p)).run print w).2 := by
  rw [answer_outer, hw.1] at h
  have hrun : (printfRound (.outer p)).run print w = (outerBody p (f.chars p)).run print w := by
    rw [← hw.1]
    rfl
  rw [hrun, outerBody]
  split_ifs at h ⊢ with hnul hpercent
  · have hfrom := f.from_of_lt (lt_len f ha.1 hnul)
    cases h
    refine ⟨[], 0, Emits.refl w, ?_, ?_⟩
    · simp [Point.rest, Point.begun, Point.ahead, hfrom, pieces, hpercent]
    · simp [Point.ahead, hfrom, pieces, hpercent]
  · have hfrom := f.from_of_lt (lt_len f ha.1 hnul)
    cases h
    refine ⟨[f.chars p], 0, emits_putc w _, ?_, ?_⟩
    · simp [Point.rest, Point.begun, Point.ahead, hfrom, pieces, hpercent, render, Piece.text,
        Piece.arity]
    · simp [Point.ahead, hfrom, pieces, hpercent, arity, Piece.arity]

theorem sends_puts {s : BitVec 64} {i p : ℕ} {a' : Point} (ha : (Point.puts s i p).Fits f g)
    (h : ((printfRound (.puts s i p)).run print w).1 = .inl a') :
    Sends f g (.puts s i p) a' w ((printfRound (.puts s i p)).run print w).2 := by
  rw [answer_puts, hw.2] at h
  have hrun : (printfRound (.puts s i p)).run print w =
      (putsBody s i p ((g s).chars i)).run print w := by
    rw [← hw.2]
    rfl
  rw [hrun, putsBody]
  split_ifs at h ⊢ with hnul hline
  · have hi : i = (g s).len := by
      rcases Nat.lt_or_eq_of_le ha.2 with hlt | heq
      · exact absurd hnul ((g s).nonzero i hlt)
      · exact heq
    cases h
    refine ⟨[], 0, Emits.refl w, ?_, ?_⟩
    · simp [Point.rest, Point.begun, Point.ahead, hi, CString.from_len, Console.crlf]
    · simp [Point.ahead]
  · have hfrom := (g s).from_of_lt (lt_len (g s) ha.2 hnul)
    cases h
    refine ⟨['\r', (g s).chars i], 0, (emits_putc w '\r').trans (emits_putc _ _), ?_, ?_⟩
    · simp [Point.rest, Point.begun, Point.ahead, hfrom, Console.crlf, hline]
    · simp [Point.ahead]
  · have hfrom := (g s).from_of_lt (lt_len (g s) ha.2 hnul)
    cases h
    refine ⟨[(g s).chars i], 0, emits_putc w _, ?_, ?_⟩
    · simp [Point.rest, Point.begun, Point.ahead, hfrom, Console.crlf, hline]
    · simp [Point.ahead]

theorem sends_skip (hclosed : Open f f.len = false) {p lng : ℕ} {a' : Point}
    (ha : (Point.skip p lng).Fits f g)
    (h : ((printfRound (.skip p lng)).run print w).1 = .inl a') :
    Sends f g (.skip p lng) a' w ((printfRound (.skip p lng)).run print w).2 := by
  have hp : p < f.len := by
    rcases Nat.lt_or_eq_of_le ha.1 with hlt | heq
    · exact hlt
    · rw [← heq, ha.2] at hclosed
      cases hclosed
  have hfrom := f.from_of_lt hp
  have hrun : (printfRound (.skip p lng)).run print w =
      (skipBody p lng (f.chars p)).run print w := by
    rw [← hw.1]
    rfl
  rw [hrun] at h ⊢
  unfold skipBody at h ⊢
  by_cases hl : f.chars p = 'l'
  · rw [if_pos hl] at h ⊢
    cases h
    refine ⟨[], 0, Emits.refl w, ?_, ?_⟩
    · simp [Point.rest, Point.begun, Point.ahead, hfrom, pieces, hl]
    · simp [Point.ahead, hfrom, pieces, hl]
  · rw [if_neg hl, Prog.run_bind] at h
    rw [if_neg hl, Prog.run_bind]
    by_cases hs : f.chars p = 's'
    · have hswitch : (switch lng (f.chars p)).run print w =
          (some (w.args w.nextArg), { w with nextArg := w.nextArg + 1 }) := by
        rw [switch, if_pos hs, Prog.run_map, run_arg]
      rw [hswitch] at h ⊢
      cases h
      refine ⟨[], 1, emits_arg w, ?_, ?_⟩
      · simp [Point.rest, Point.begun, Point.ahead, hfrom, pieces, hs, render, Piece.text,
          convert, Piece.arity, converters, CString.text]
      · simp [Point.ahead, hfrom, pieces, hs, arity, Piece.arity, converters]
    · have hswitch : (switch lng (f.chars p)).run print w =
          (none, ((conversion lng (f.chars p)).run print w).2) := by
        rw [switch, if_neg hs, Prog.run_map]
      rw [hswitch] at h ⊢
      cases h
      refine ⟨_, _, emits_conversion (fun s => (g s).text) lng hs w, ?_, ?_⟩
      · simp [Point.rest, Point.begun, Point.ahead, hfrom, pieces, hl, render, Piece.text,
          Piece.arity]
      · simp [Point.ahead, hfrom, pieces, hl, arity, Piece.arity]

/-- What one round sends, at any point of the scan. -/
theorem sends_printfRound (hclosed : Open f f.len = false) {a a' : Point} (ha : a.Fits f g)
    (h : ((printfRound a).run print w).1 = .inl a') :
    Sends f g a a' w ((printfRound a).run print w).2 := by
  cases a with
  | outer p => exact sends_outer hw ha h
  | skip p lng => exact sends_skip hw hclosed ha h
  | puts s i p => exact sends_puts hw ha h

end Rounds

/-- At the return nothing is ahead. -/
theorem rest_of_return {f : CString} {g : BitVec 64 → CString} {w : World}
    (hw : w.format = f ∧ w.strings = g) {a : Point} {b : Word} (ha : a.Fits f g)
    (h : ((printfRound a).run print w).1 = .inr b) :
    b = 0 ∧ ((printfRound a).run print w).2 = w ∧ a.begun g = [] ∧ a.ahead f = [] := by
  cases a with
  | outer p =>
    have hnul : f.chars p = NUL := by
      rw [answer_outer, hw.1] at h
      split_ifs at h with hnul
      exact hnul
    have hp : p = f.len := by
      rcases Nat.lt_or_eq_of_le ha.1 with hlt | heq
      · exact absurd hnul (f.nonzero p hlt)
      · exact heq
    have hrun : (printfRound (.outer p)).run print w = (.inr 0, w) := by
      change (outerBody p (w.format.chars p)).run print w = _
      rw [hw.1, outerBody, if_pos hnul]
      rfl
    rw [hrun] at h ⊢
    cases h
    exact ⟨rfl, rfl, rfl, by rw [Point.ahead, hp, CString.from_len, pieces]⟩
  | skip p lng =>
    by_cases hl : w.format.chars p = 'l'
    · rw [answer_skip_l w lng hl] at h
      cases h
    · rcases answer_skip w lng hl with hanswer | ⟨s, hanswer⟩
      · rw [hanswer] at h
        cases h
      · rw [hanswer] at h
        cases h
  | puts s i p =>
    rw [answer_puts] at h
    split_ifs at h

/-- From any point of the scan, the rounds send what is ahead. -/
theorem leaves_sends {f : CString} {g : BitVec 64 → CString} (hclosed : Open f f.len = false)
    {n : ℕ} {a : Point} {w t : World} {H : List (Cmd × World)} {b : Word}
    (hl : Prog.Leaves print printfRound n a w H b t) (ha : FitsIn f g a w) :
    b = 0 ∧ t.out = w.out ++ a.rest f g w.args w.nextArg ∧
      t.nextArg = w.nextArg + arity (a.ahead f) := by
  induction hl with
  | exit hb =>
    obtain ⟨rfl, ht, hbegun, hahead⟩ := rest_of_return ha.1 ha.2 hb
    rw [ht, Point.rest, hbegun, hahead]
    exact ⟨rfl, by simp [render], rfl⟩
  | again hb hl ih =>
    obtain ⟨cs, k, hemits, hrest, harity⟩ := sends_printfRound ha.1 hclosed ha.2 hb
    rcases next_printfRound ha.1 ha.2 hb with ⟨hfits, -⟩ | ⟨-, hopen⟩
    · obtain ⟨hzero, hout, hnext⟩ := ih ⟨strings_next ha.1 _, hfits⟩
      refine ⟨hzero, ?_, ?_⟩
      · rw [hout, hemits.out, hemits.args, hemits.nextArg, hrest, List.append_assoc]
      · rw [hnext, hemits.nextArg, harity, Nat.add_assoc]
    · rw [hclosed] at hopen
      cases hopen

/-- A format that leaves no conversion open is printed as its pieces mean: each conversion
takes the next argument and sends its text, and `printf` answers 0. -/
theorem printf_renders (w : World) (hclosed : Open w.format w.format.len = false) :
    ∃ H t, Returns w H 0 t ∧
      t.out = w.out ++ render (fun s => (w.strings s).text) w.args w.nextArg
        (pieces none w.format.text) ∧
      t.nextArg = w.nextArg + arity (pieces none w.format.text) := by
  obtain ⟨H, b, t, ⟨n, hl⟩, -⟩ := stops_of_closed hclosed
  obtain ⟨rfl, hout, hnext⟩ := leaves_sends hclosed hl ⟨⟨rfl, rfl⟩, Nat.zero_le _, rfl⟩
  exact ⟨H, t, ⟨n, hl⟩, hout, hnext⟩

/-- The format `"%d"`. -/
def percentD : CString where
  chars i := if i = 0 then '%' else if i = 1 then 'd' else NUL
  len := 2
  nonzero i hi := by interval_cases i <;> decide
  terminated := rfl

/-- A negative `int`, whose slot is not sign-extended. -/
theorem printf_renders_minus : ∃ H t,
    Returns ⟨percentD, fun _ => percentD, fun _ => 0xFFFFFFFB, 0, fun _ => NUL, []⟩ H 0 t ∧
      t.out = ['-', '5'] := by
  obtain ⟨H, t, hreturns, hout, -⟩ := printf_renders
    ⟨percentD, fun _ => percentD, fun _ => 0xFFFFFFFB, 0, fun _ => NUL, []⟩ rfl
  exact ⟨H, t, hreturns, hout.trans (by decide)⟩

end Bcm2837.Print
