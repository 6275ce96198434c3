import ZstdPure.Lib.Cycle

/-!
# Reference copies

The copies of a dictionary coder, one element at a time and below a ceiling on the output.
-/

namespace Lz77

open List

variable {α : Type}

/-- Append one element, unless the output is full. -/
def push (limit : Nat) (out : List α) (a : α) : Option (List α) :=
  if out.length < limit then some (out ++ [a]) else none

/-- Append the next `n` elements of `lits` one by one; the output and the elements left. -/
def literals (limit : Nat) : Nat → List α → List α → Option (List α × List α)
  | 0, lits, out => some (out, lits)
  | _ + 1, [], _ => none
  | n + 1, a :: lits, out => (push limit out a).bind (literals limit n lits)

/-- Append `n` elements one by one, each the one `off` back from the end. -/
def copy (limit off : Nat) : Nat → List α → Option (List α)
  | 0, out => some out
  | n + 1, out =>
    if out.length < off then none
    else (out[out.length - off]?).bind fun a => (push limit out a).bind (copy limit off n)

variable {limit off n : Nat} {lits out : List α}

/-- Literals fail when there are too few, or no room for them. -/
theorem literals_eq : literals limit n lits out
    = if n ≤ lits.length ∧ (n = 0 ∨ out.length + n ≤ limit) then some (out ++ lits.take n,
      lits.drop n)
      else none := by
  induction n generalizing lits out with
  | zero => simp [literals]
  | succ n ih =>
    cases lits with
    | nil => simp [literals]
    | cons a lits =>
      rw [literals, push]
      split_ifs with h₁ h₂ h₂
      · rw [Option.bind_some, ih, if_pos]
        · simp
        · simp only [length_cons, length_append, length_nil, false_or] at h₂ ⊢
          omega
      · rw [Option.bind_some, ih, if_neg]
        simp only [length_cons, length_append, length_nil, false_or] at h₂ ⊢
        omega
      · simp only [length_cons, false_or] at h₂
        omega
      · rfl

/-- All literals, if there is room for them. -/
theorem literals_length : literals limit lits.length lits out
    = if lits = [] ∨ out.length + lits.length ≤ limit then some (out ++ lits, []) else none := by
  rw [literals_eq, take_length, drop_length]
  simp only [le_refl, true_and, length_eq_zero_iff]

/-- One element of a periodic extension. -/
theorem extendBack_cons (h0 : 0 < off) (h : off ≤ out.length) (n : Nat) {a : α}
    (ha : out[out.length - off]? = some a) :
    extendBack (out ++ [a]) off n = extendBack out off (n + 1) := by
  have hlen := length_extendBack h0 h (n + 1)
  have htake : (extendBack out off (n + 1)).take (out.length + 1) = out ++ [a] := by
    have hget := getElem?_extendBack h0 h (by omega : 0 < n + 1)
    simp only [Nat.add_zero] at hget
    have hback : (extendBack out off (n + 1))[out.length - off]? = some a := by
      rw [extendBack, getElem?_append_left (by omega), ha]
    have hprefix : (extendBack out off (n + 1)).take out.length = out := by
      rw [extendBack, take_left]
    rw [take_add_one, hprefix, hget, hback]
    rfl
  have hrep : ∀ i, i < n → (extendBack out off (n + 1))[out.length + 1 + i]?
      = (extendBack out off (n + 1))[out.length + 1 + i - off]? := by
    intro i hi
    have hget := getElem?_extendBack h0 h (by omega : 1 + i < n + 1)
    rwa [← Nat.add_assoc] at hget
  have heq := extendBack_eq_take (m := out.length + 1) (n := n) h0 (by omega)
    (by rw [hlen]; omega) hrep
  rw [htake, take_of_length_le (by rw [hlen]; omega)] at heq
  exact heq

/-- A copy fails when it starts before the output, or when there is no room for it. -/
theorem copy_eq (h0 : 0 < off) : copy limit off n out
    = if n = 0 ∨ (off ≤ out.length ∧ out.length + n ≤ limit) then some (extendBack out off n)
      else none := by
  induction n generalizing out with
  | zero => simp [copy, extendBack]
  | succ n ih =>
    rw [copy]
    by_cases hoff : out.length < off
    · rw [if_pos hoff, if_neg (by omega)]
    · rw [if_neg hoff, getElem?_eq_getElem (by omega), Option.bind_some, push]
      split_ifs with h₁ h₂ h₂
      · rw [Option.bind_some, ih, if_pos,
          extendBack_cons h0 (by omega) n (getElem?_eq_getElem (by omega))]
        simp only [length_append, length_singleton, false_or] at h₂ ⊢
        omega
      · rw [Option.bind_some, ih, if_neg]
        simp only [length_append, length_singleton, false_or] at h₂ ⊢
        omega
      · simp only [false_or] at h₂
        omega
      · rfl

end Lz77
