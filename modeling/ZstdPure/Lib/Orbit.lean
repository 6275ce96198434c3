import Mathlib

/-!
# Walks around a cycle

A walk around `n` positions with a step coprime to `n` visits every position once.
-/

namespace Orbit

variable {n step : Nat}

/-- The position after `i` steps. -/
def pos (n step i : Nat) : Nat := i * step % n

theorem pos_lt (hn : 0 < n) (i : Nat) : pos n step i < n := Nat.mod_lt _ hn

@[simp] theorem pos_zero : pos n step 0 = 0 := by simp [pos]

@[simp] theorem pos_self : pos n step n = 0 := by simp [pos]

/-- One step further. -/
theorem pos_succ (i : Nat) : (pos n step i + step) % n = pos n step (i + 1) := by
  simp [pos, Nat.add_mul]

theorem pos_injOn (h : Nat.Coprime step n) :
    Set.InjOn (pos n step) (Finset.range n : Set Nat) := by
  intro i hi j hj hij
  have hi' : i < n := by simpa using hi
  have hj' : j < n := by simpa using hj
  have hm : i ≡ j [MOD n] := Nat.ModEq.cancel_right_of_coprime (Nat.Coprime.symm h) hij
  rwa [Nat.ModEq, Nat.mod_eq_of_lt hi', Nat.mod_eq_of_lt hj'] at hm

/-- The walk visits every position. -/
theorem image_pos (h : Nat.Coprime step n) :
    (Finset.range n).image (pos n step) = Finset.range n := by
  refine Finset.eq_of_subset_of_card_le ?_ ?_
  · intro x hx
    obtain ⟨i, hi, rfl⟩ := Finset.mem_image.mp hx
    exact Finset.mem_range.mpr (pos_lt (by have := Finset.mem_range.mp hi; omega) i)
  · rw [Finset.card_image_of_injOn (pos_injOn h)]

theorem exists_pos_eq (h : Nat.Coprime step n) {r : Nat} (hr : r < n) :
    ∃ i < n, pos n step i = r := by
  have hmem : r ∈ (Finset.range n).image (pos n step) := by
    rw [image_pos h]; exact Finset.mem_range.mpr hr
  obtain ⟨i, hi, he⟩ := Finset.mem_image.mp hmem
  exact ⟨i, Finset.mem_range.mp hi, he⟩

/-- Counting along the walk counts positions. -/
theorem count_pos (h : Nat.Coprime step n) (P : Nat → Prop) [DecidablePred P] :
    Nat.count (fun i => P (pos n step i)) n = Nat.count P n := by
  rw [Nat.count_eq_card_filter_range, Nat.count_eq_card_filter_range]
  conv_rhs => rw [← image_pos h, Finset.filter_image]
  refine (Finset.card_image_of_injOn ((pos_injOn h).mono ?_)).symm
  exact Finset.coe_subset.mpr (Finset.filter_subset _ _)

/-- Counting is unchanged over a range without hits. -/
theorem count_eq_of_forall_not (P : Nat → Prop) [DecidablePred P] {i j : Nat} (hij : i ≤ j)
    (h : ∀ k, i ≤ k → k < j → ¬ P k) : Nat.count P j = Nat.count P i := by
  induction j, hij using Nat.le_induction with
  | base => rfl
  | succ j hij ih =>
    rw [Nat.count_succ, if_neg (h j hij (Nat.lt_succ_self j)), Nat.add_zero,
      ih fun k hk hkj => h k hk (by omega)]

/-- Counting what only holds from `m` on. -/
theorem count_add_of_ge (P : Nat → Prop) [DecidablePred P] {m : Nat} (n : Nat)
    (h : ∀ k, P k → m ≤ k) : Nat.count P (m + n) = Nat.count (fun k => P (m + k)) n := by
  rw [Nat.count_add, count_eq_of_forall_not P (Nat.zero_le m) fun k _ hk hP => by
    have := h k hP; omega]
  simp

/-- Counting in two classes. -/
theorem count_split (P Q : Nat → Prop) [DecidablePred P] [DecidablePred Q] (n : Nat) :
    Nat.count P n = Nat.count (fun k => ¬ Q k ∧ P k) n + Nat.count (fun k => Q k ∧ P k) n := by
  induction n with
  | zero => simp
  | succ n ih =>
    rw [Nat.count_succ, Nat.count_succ, Nat.count_succ, ih]
    by_cases hP : P n <;> by_cases hQ : Q n <;> simp [hP, hQ] <;> omega

end Orbit
