import Mathlib.Data.Nat.Digits.Lemmas
import Mathlib.Tactic

/-!
# Numerals

Numbers written with the characters of an alphabet, most significant digit first. Digits
are taken off a number from the lowest up, so a numeral is a list of digits reversed.
-/
namespace Numerals

/-- The digits of a base and the value of each. -/
structure Alphabet (base : ℕ) where
  digit : ℕ → Char
  value : Char → ℕ
  value_digit : ∀ d < base, value (digit d) = d

namespace Alphabet

variable {base : ℕ} (A : Alphabet base)

/-- The number that a text denotes. -/
def decode (cs : List Char) : ℕ := cs.foldl (fun n c => base * n + A.value c) 0

/-- Digits given from the lowest up, as text. -/
def text (ds : List ℕ) : List Char := (ds.map A.digit).reverse

@[simp] theorem text_cons (d : ℕ) (ds : List ℕ) : A.text (d :: ds) = A.text ds ++ [A.digit d] := by
  simp [text]

@[simp] theorem decode_concat (cs : List Char) (c : Char) :
    A.decode (cs ++ [c]) = base * A.decode cs + A.value c := by
  simp [decode, List.foldl_append]

theorem decode_text {ds : List ℕ} (h : ∀ d ∈ ds, d < base) :
    A.decode (A.text ds) = Nat.ofDigits base ds := by
  induction ds with
  | nil => rfl
  | cons d ds ih =>
    rw [text_cons, decode_concat, ih fun e he => h e (List.mem_cons_of_mem _ he),
      A.value_digit d (h d List.mem_cons_self), Nat.ofDigits_cons]
    omega

/-- Every character is a digit. -/
def Digits (cs : List Char) : Prop := ∀ c ∈ cs, ∃ d < base, c = A.digit d

theorem digits_text {ds : List ℕ} (h : ∀ d ∈ ds, d < base) : A.Digits (A.text ds) := by
  intro c hc
  obtain ⟨d, hd, rfl⟩ := List.mem_map.mp (List.mem_reverse.mp hc)
  exact ⟨d, h d hd, rfl⟩

/-- The one text for a number: digits that denote it, the first of them not zero unless
the number is. -/
structure Canonical (v : ℕ) (cs : List Char) : Prop where
  digits : A.Digits cs
  value : A.decode cs = v
  nonempty : cs ≠ []
  leading : v ≠ 0 → cs.head? ≠ some (A.digit 0)
  zero : v = 0 → cs = [A.digit 0]

/-- The numeral of a number. -/
def numeral (v : ℕ) : List Char := if v = 0 then [A.digit 0] else A.text (Nat.digits base v)

theorem canonical_numeral (hbase : 1 < base) (v : ℕ) : A.Canonical v (A.numeral v) := by
  unfold numeral
  split_ifs with hv
  · subst hv
    refine ⟨?_, ?_, by simp, by simp, by simp⟩
    · intro c hc
      exact ⟨0, by omega, List.mem_singleton.mp hc⟩
    · simp [decode, A.value_digit 0 (by omega)]
  · have hlt : ∀ d ∈ Nat.digits base v, d < base := fun d hd => Nat.digits_lt_base hbase hd
    have hne : Nat.digits base v ≠ [] := Nat.digits_ne_nil_iff_ne_zero.mpr hv
    refine ⟨A.digits_text hlt, ?_, ?_, fun _ => ?_, fun h => absurd h hv⟩
    · rw [A.decode_text hlt, Nat.ofDigits_digits]
    · simpa [text] using hne
    · have hlast := Nat.getLast_digit_ne_zero base hv
      rw [text, List.head?_reverse, List.getLast?_map, List.getLast?_eq_some_getLast hne]
      intro h
      have hvalue := congrArg A.value (Option.some.inj h)
      rw [A.value_digit _ (hlt _ (List.getLast_mem hne)), A.value_digit 0 (by omega)] at hvalue
      exact hlast hvalue

/-- With the library's digit characters, each changed by `f`, the numerals are the
library's so changed. -/
theorem numeral_eq_toDigits (hbase : 1 < base) (f : Char → Char)
    (hdigit : ∀ d < base, A.digit d = f d.digitChar) (v : ℕ) :
    A.numeral v = (Nat.toDigits base v).map f := by
  induction v using Nat.strongRecOn with
  | _ v ih =>
    rw [Nat.toDigits_eq_if hbase]
    by_cases hsmall : v < base
    · rw [if_pos hsmall, List.map_singleton, ← hdigit v hsmall, numeral]
      split_ifs with hv
      · rw [hv]
      · rw [Nat.digits_of_lt base v hv hsmall]
        rfl
    · have hv : v ≠ 0 := by omega
      have hdiv : v / base ≠ 0 := (Nat.div_pos (by omega) (by omega)).ne'
      rw [if_neg hsmall, List.map_append, List.map_singleton,
        ← ih _ (Nat.div_lt_self (by omega) hbase), ← hdigit _ (Nat.mod_lt v (by omega)), numeral,
        numeral, if_neg hv, if_neg hdiv, Nat.digits_def' hbase (by omega), text_cons]

/-- The digits in the `n` lowest places of a number, from the lowest up. -/
def places (base : ℕ) : ℕ → ℕ → List ℕ
  | 0, _ => []
  | n + 1, v => places base n v ++ [v / base ^ n % base]

@[simp] theorem length_places (n v : ℕ) : (places base n v).length = n := by
  induction n with
  | zero => rfl
  | succ n ih => simp [places, ih]

theorem places_lt (hbase : 0 < base) (n v : ℕ) : ∀ d ∈ places base n v, d < base := by
  induction n with
  | zero => simp [places]
  | succ n ih =>
    intro d hd
    rcases List.mem_append.mp hd with hd | hd
    · exact ih d hd
    · rw [List.mem_singleton.mp hd]
      exact Nat.mod_lt _ hbase

theorem ofDigits_places (n v : ℕ) : Nat.ofDigits base (places base n v) = v % base ^ n := by
  induction n with
  | zero => simp [places, Nat.mod_one]
  | succ n ih =>
    have hplace := Nat.mod_pow_succ (b := base) (x := v) (k := n)
    rw [places, Nat.ofDigits_append, length_places, ih, hplace]
    simp

theorem text_places_succ (n v : ℕ) :
    A.text (places base (n + 1) v) =
      A.digit (v / base ^ n % base) :: A.text (places base n v) := by
  simp [text, places]

/-- A fixed number of places denotes a number that fits in them. -/
theorem decode_text_places (hbase : 0 < base) {n v : ℕ} (h : v < base ^ n) :
    A.decode (A.text (places base n v)) = v := by
  rw [A.decode_text (places_lt hbase n v), ofDigits_places, Nat.mod_eq_of_lt h]

end Alphabet

end Numerals
