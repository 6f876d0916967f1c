import Mathlib.Tactic

/-!
# A mailbox with one slot

Letters are posted into an empty slot and taken out of it again. `settle` replays a
log of posts and takes and fails on a post into a full slot or on a take of a letter
that is not there. A log that settles is an exactly-once log: the letters taken are
the letters posted, in order, short of the one still in the slot.
-/
namespace Mailbox

variable {T : Type*}

/-- An entry of the log. -/
inductive Mail (T : Type*)
  | post (t : T)
  | take (t : T)

open Mail

/-- Replay a log from a slot; `none` is a violation. -/
def settle [DecidableEq T] : List (Mail T) → Option T → Option (Option T)
  | [], slot => some slot
  | post t :: es, none => settle es (some t)
  | post _ :: _, some _ => none
  | take t :: es, some u => if t = u then settle es none else none
  | take _ :: _, none => none

def posted (es : List (Mail T)) : List T :=
  es.filterMap fun | post t => some t | take _ => none

def taken (es : List (Mail T)) : List T :=
  es.filterMap fun | post _ => none | take t => some t

@[simp] theorem posted_nil : posted ([] : List (Mail T)) = [] := rfl
@[simp] theorem posted_post (t : T) (es : List (Mail T)) :
    posted (post t :: es) = t :: posted es := rfl
@[simp] theorem posted_take (t : T) (es : List (Mail T)) :
    posted (take t :: es) = posted es := rfl
@[simp] theorem taken_nil : taken ([] : List (Mail T)) = [] := rfl
@[simp] theorem taken_post (t : T) (es : List (Mail T)) :
    taken (post t :: es) = taken es := rfl
@[simp] theorem taken_take (t : T) (es : List (Mail T)) :
    taken (take t :: es) = t :: taken es := rfl

variable [DecidableEq T]

theorem settle_append (es fs : List (Mail T)) (slot : Option T) :
    settle (es ++ fs) slot = (settle es slot).bind (settle fs) := by
  induction es generalizing slot with
  | nil => rfl
  | cons e es ih =>
    cases e with
    | post t =>
      cases slot with
      | none => exact ih _
      | some u => rfl
    | take t =>
      cases slot with
      | none => rfl
      | some u =>
        by_cases h : t = u
        · simp only [List.cons_append, settle, if_pos h, ih]
        · simp only [List.cons_append, settle, if_neg h, Option.bind_none]

/-- Replaying one log after another. -/
theorem settle_trans {es fs : List (Mail T)} {a b c : Option T}
    (h₁ : settle es a = some b) (h₂ : settle fs b = some c) :
    settle (es ++ fs) a = some c := by
  rw [settle_append, h₁, Option.bind_some, h₂]

/-- Conservation: what was in the slot and what was posted has been taken or is in
the slot, each letter once and in order. -/
theorem settle_conserves {es : List (Mail T)} {a b : Option T} (h : settle es a = some b) :
    a.toList ++ posted es = taken es ++ b.toList := by
  induction es generalizing a with
  | nil =>
    simp only [settle, Option.some.injEq] at h
    simp [h]
  | cons e es ih =>
    cases e with
    | post t =>
      cases a with
      | none => simpa using ih h
      | some u => simp [settle] at h
    | take t =>
      cases a with
      | none => simp [settle] at h
      | some u =>
        by_cases htu : t = u
        · subst htu
          simp only [settle, if_true] at h
          simpa using ih h
        · simp [settle, htu] at h

/-- A letter is taken when it is the one letter posted and not yet taken. -/
theorem settle_take {es fs : List (Mail T)} {t : T} {a b : Option T}
    (h : settle (es ++ take t :: fs) a = some b) :
    a.toList ++ posted es = taken es ++ [t] := by
  rw [settle_append] at h
  obtain ⟨slot, hes, hfs⟩ := Option.bind_eq_some_iff.mp h
  have hslot : slot = some t := by
    cases slot with
    | none => simp [settle] at hfs
    | some u =>
      by_cases htu : t = u
      · rw [htu]
      · simp [settle, htu] at hfs
  simpa [hslot] using settle_conserves hes

end Mailbox
