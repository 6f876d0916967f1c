import Bcm2837.BitField
import Bcm2837.Overrides
import Bcm2837.RegisterFile

/-!
# Words cut into fields

A table names the fields of a word, with one more name for the word as a whole. The named
fields do not meet, so what a field holds after any number of field writes is decided by
the last write that named it or the word. A driver that makes each of its calls out of
such writes inherits this (`independent_of_writes`).
-/

universe u v

/-- Named fields of a word that do not meet, and a name for the whole word. -/
structure FieldTable (F : Type u) (n : ℕ) where
  shift : F → ℕ
  width : F → ℕ
  whole : F
  shift_whole : shift whole = 0
  width_whole : width whole = n
  within : ∀ f, shift f + width f ≤ n
  apart : ∀ f g, f ≠ whole → g ≠ whole → f ≠ g →
    shift f + width f ≤ shift g ∨ shift g + width g ≤ shift f

namespace FieldTable

/-- Fields listed from the lowest bit up do not meet. -/
theorem apart_of_ordered {F : Type u} {shift width : F → ℕ} {named : List F}
    (h : named.Pairwise fun f g => shift f + width f ≤ shift g) {f g : F} (hf : f ∈ named)
    (hg : g ∈ named) (hfg : f ≠ g) :
    shift f + width f ≤ shift g ∨ shift g + width g ≤ shift f := by
  let R : F → F → Prop := fun f g => shift f + width f ≤ shift g ∨ shift g + width g ≤ shift f
  have hsymm : Std.Symm R := ⟨fun _ _ hfg => hfg.symm⟩
  have hapart : named.Pairwise R := h.imp Or.inl
  exact hapart.forall hf hg hfg

open BitField Overrides

variable {F : Type u} {n : ℕ} (T : FieldTable F n)

def get (v : BitVec n) (f : F) : BitVec n := getField v (T.shift f) (T.width f)

def set (v : BitVec n) (f : F) (x : BitVec n) : BitVec n := setField v (T.shift f) (T.width f) x

/-- A value cut to the width of a field. -/
def cut (f : F) (x : BitVec n) : BitVec n := x &&& lowBits n (T.width f)

/-- Some named field has bit `i`. -/
def Named (i : ℕ) : Prop := ∃ f, f ≠ T.whole ∧ T.shift f ≤ i ∧ i < T.shift f + T.width f

theorem get_whole (v : BitVec n) : T.get v T.whole = v := by
  unfold get getField
  rw [T.shift_whole, T.width_whole, BitVec.ushiftRight_zero, lowBits_of_le le_rfl,
    BitVec.and_allOnes]

theorem set_whole (v x : BitVec n) : T.set v T.whole x = x := by
  apply BitVec.eq_of_getLsbD_eq
  intro i hi
  rw [set, getLsbD_setField, T.shift_whole, T.width_whole, if_pos (by omega), Nat.sub_zero,
    decide_eq_true hi, Bool.true_and]

theorem get_set_same (v x : BitVec n) (f : F) : T.get (T.set v f x) f = T.cut f x :=
  getField_setField_same v x _ _ (T.within f)

theorem get_set_of_ne (v x : BitVec n) {f g : F} (hf : f ≠ T.whole) (hg : g ≠ T.whole)
    (hfg : f ≠ g) : T.get (T.set v f x) g = T.get v g :=
  getField_setField_of_disjoint v x _ _ _ _ (T.apart f g hf hg hfg)

/-- A write to a named field does not reach the bits outside the named fields. -/
theorem getLsbD_set_of_not_named (v x : BitVec n) {f : F} (hf : f ≠ T.whole) {i : ℕ}
    (hi : ¬ T.Named i) : (T.set v f x).getLsbD i = v.getLsbD i := by
  rw [set, getLsbD_setField, if_neg]
  exact fun h => hi ⟨f, hf, h.1, h.2⟩

/-! ## Sequences of writes -/

def setAll (v : BitVec n) (ws : List (F × BitVec n)) : BitVec n :=
  ws.foldl (fun v w => T.set v w.1 w.2) v

theorem setAll_append (v : BitVec n) (ws us : List (F × BitVec n)) :
    T.setAll v (ws ++ us) = T.setAll (T.setAll v ws) us := List.foldl_append

@[simp] theorem setAll_concat (v : BitVec n) (ws : List (F × BitVec n)) (w : F × BitVec n) :
    T.setAll v (ws ++ [w]) = T.set (T.setAll v ws) w.1 w.2 := by
  rw [setAll_append]
  rfl

theorem getLsbD_setAll_of_not_named (v : BitVec n) {ws : List (F × BitVec n)}
    (hws : ∀ w ∈ ws, w.1 ≠ T.whole) {i : ℕ} (hi : ¬ T.Named i) :
    (T.setAll v ws).getLsbD i = v.getLsbD i := by
  induction ws using List.reverseRecOn with
  | nil => rfl
  | append_singleton ws w ih =>
    rw [setAll_concat, T.getLsbD_set_of_not_named _ _ (hws w (by simp)) hi]
    exact ih fun u hu => hws u (List.mem_append_left _ hu)

variable [DecidableEq F]

/-- What a write leaves in field `f`, if it names the field or the word. -/
def given (f : F) (w : F × BitVec n) : Option (BitVec n) :=
  if w.1 = f then some (T.cut f w.2)
  else if w.1 = T.whole then some (T.get w.2 f)
  else none

theorem get_set (v : BitVec n) {f : F} (hf : f ≠ T.whole) (w : F × BitVec n) :
    T.get (T.set v w.1 w.2) f = (T.given f w).getD (T.get v f) := by
  unfold given
  split_ifs with hsame hwhole
  · rw [hsame, get_set_same]
    rfl
  · rw [hwhole, set_whole]
    rfl
  · rw [T.get_set_of_ne v w.2 hwhole hf hsame]
    rfl

/-- A named field holds what the last write that named it or the word gave it. -/
theorem get_setAll (v : BitVec n) {f : F} (hf : f ≠ T.whole) (ws : List (F × BitVec n)) :
    T.get (T.setAll v ws) f = lastAsked (T.given f) (T.get v f) ws := by
  induction ws using List.reverseRecOn with
  | nil => rfl
  | append_singleton ws w ih => rw [setAll_concat, get_set T _ hf, ih, lastAsked_concat]

/-- Writes to other named fields leave a named field as it was. -/
theorem get_setAll_of_ne (v : BitVec n) {f : F} (hf : f ≠ T.whole) {ws : List (F × BitVec n)}
    (hws : ∀ w ∈ ws, w.1 ≠ T.whole) (hne : ∀ w ∈ ws, w.1 ≠ f) :
    T.get (T.setAll v ws) f = T.get v f := by
  rw [get_setAll T v hf, lastAsked_of_silent]
  intro w hw
  rw [given, if_neg (hne w hw), if_neg (hws w hw)]

/-! ## Drivers of one word -/

section Driver

open Access (storage)

variable {R : Type} [DecidableEq R] {κ : Type v} (r : R)
variable (get : F → Mmio R (BitVec n) (BitVec n)) (call : κ → Mmio R (BitVec n) Unit)
variable (gives : κ → List (F × BitVec n))

/-- The block after a sequence of calls. -/
def after (m : R → BitVec n) (calls : List κ) : R → BitVec n :=
  calls.foldl (fun m c => ((call c).run storage m).2) m

/-- A driver whose calls make the field writes `gives` keeps the fields of the word `r`
independent of each other. -/
structure Independent : Prop where
  /-- After any calls a named field reads as what it was given last, cut to its width. -/
  reads : ∀ (m : R → BitVec n) (calls : List κ) (f : F), f ≠ T.whole →
    ((get f).run storage (after call m calls)).1 =
      lastAsked (T.given f) ((get f).run storage m).1 (calls.flatMap gives)
  /-- A call on named fields changes no other named field. -/
  fields : ∀ (m : R → BitVec n) (c : κ) (f : F), f ≠ T.whole →
    (∀ w ∈ gives c, w.1 ≠ T.whole ∧ w.1 ≠ f) →
      ((get f).run storage ((call c).run storage m).2).1 = ((get f).run storage m).1
  /-- A call on named fields changes no bit outside the named fields. -/
  outside : ∀ (m : R → BitVec n) (c : κ) (i : ℕ), ¬ T.Named i →
    (∀ w ∈ gives c, w.1 ≠ T.whole) →
      (((call c).run storage m).2 r).getLsbD i = (m r).getLsbD i
  /-- The name of the whole word replaces it. -/
  whole : ∀ (m : R → BitVec n) (c : κ) (x : BitVec n), gives c = [(T.whole, x)] →
    ((call c).run storage m).2 r = x
  /-- The name of the whole word reads it. -/
  getWhole : ∀ m : R → BitVec n, ((get T.whole).run storage m).1 = m r
  /-- No call reaches another register. -/
  others : ∀ (m : R → BitVec n) (calls : List κ) (r' : R), r' ≠ r → after call m calls r' = m r'

variable {r get call gives}

omit [DecidableEq F] in
theorem after_eq (hcall : ∀ c m, ((call c).run storage m).2 =
      Function.update m r (T.setAll (m r) (gives c))) (m : R → BitVec n) (calls : List κ) :
    after call m calls = Function.update m r (T.setAll (m r) (calls.flatMap gives)) := by
  induction calls using List.reverseRecOn with
  | nil => exact (Function.update_eq_self r m).symm
  | append_singleton calls c ih =>
    have hlast : after call m (calls ++ [c]) = ((call c).run storage (after call m calls)).2 := by
      simp [after, List.foldl_append]
    rw [hlast, hcall, ih, Function.update_idem, Function.update_self, List.flatMap_append,
      setAll_append, List.flatMap_singleton]

/-- Calls made out of field writes keep the fields independent. -/
theorem independent_of_writes (hget : ∀ f m, ((get f).run storage m).1 = T.get (m r) f)
    (hcall : ∀ c m, ((call c).run storage m).2 =
      Function.update m r (T.setAll (m r) (gives c))) :
    T.Independent r get call gives where
  reads m calls f hf := by
    rw [hget, hget, T.after_eq hcall, Function.update_self, get_setAll T _ hf]
  fields m c f hf hws := by
    rw [hget, hget, hcall, Function.update_self]
    exact T.get_setAll_of_ne _ hf (fun w hw => (hws w hw).1) fun w hw => (hws w hw).2
  outside m c i hi hws := by
    rw [hcall, Function.update_self]
    exact T.getLsbD_setAll_of_not_named _ hws hi
  whole m c x hx := by
    rw [hcall, Function.update_self, hx]
    exact T.set_whole _ _
  getWhole m := by rw [hget, get_whole]
  others m calls r' hr := by rw [T.after_eq hcall, Function.update_of_ne hr]

end Driver

end FieldTable
