import Mathlib

/-!
# Coverage

The weight of a list is that of the values in it, each counted once. The first maximum of a function
over the indices below a bound is found by one pass.
-/

namespace Coverage

section Weight

variable {α : Type} [DecidableEq α] {f : α → Nat} {xs : List α} {x : α}

/-- The sum of `f` over the distinct values of a list. -/
def weight (f : α → Nat) (xs : List α) : Nat := ∑ x ∈ xs.toFinset, f x

theorem weight_cons_of_mem (h : x ∈ xs) : weight f (x :: xs) = weight f xs := by
  unfold weight
  rw [List.toFinset_cons, Finset.insert_eq_of_mem (List.mem_toFinset.mpr h)]

theorem weight_cons_of_not_mem (h : x ∉ xs) : weight f (x :: xs) = f x + weight f xs := by
  unfold weight
  rw [List.toFinset_cons, Finset.sum_insert fun hx => h (List.mem_toFinset.mp hx)]

/-- The order does not matter. -/
theorem weight_concat : weight f (xs ++ [x]) = weight f (x :: xs) := by
  unfold weight
  rw [List.toFinset_eq_of_perm _ _ (List.perm_append_singleton x xs)]

theorem le_weight (h : x ∈ xs) : f x ≤ weight f xs :=
  Finset.single_le_sum (fun _ _ => Nat.zero_le _) (List.mem_toFinset.mpr h)

theorem weight_eq_zero (h : ∀ x ∈ xs, f x = 0) : weight f xs = 0 :=
  Finset.sum_eq_zero fun x hx => h x (List.mem_toFinset.mp hx)

/-- Values counted by the lists they are in weigh no more than these lists have places. -/
theorem weight_le_sum_length (pieces : List (List α)) : ∀ f : α → Nat,
    (∀ x, f x ≤ pieces.countP fun p => decide (x ∈ p)) →
    weight f xs ≤ (pieces.map List.length).sum := by
  induction pieces with
  | nil =>
    intro f h
    rw [weight_eq_zero fun x _ => Nat.le_zero.mp (h x)]
    exact Nat.zero_le _
  | cons p pieces ih =>
    intro f h
    have hrest := ih (fun x => f x - if x ∈ p then 1 else 0) fun x => by
      have := h x
      rw [List.countP_cons] at this
      simp only [decide_eq_true_eq] at this
      split_ifs at this ⊢ <;> omega
    have hcard : ∑ x ∈ xs.toFinset, (if x ∈ p then 1 else 0) ≤ p.length := by
      rw [Finset.sum_boole]
      calc ((xs.toFinset.filter (· ∈ p)).card : Nat) ≤ p.toFinset.card :=
            Finset.card_le_card fun x hx => List.mem_toFinset.mpr (Finset.mem_filter.mp hx).2
        _ ≤ p.length := List.toFinset_card_le p
    have hsplit : weight f xs ≤ weight (fun x => f x - if x ∈ p then 1 else 0) xs
        + ∑ x ∈ xs.toFinset, (if x ∈ p then 1 else 0) := by
      unfold weight
      rw [← Finset.sum_add_distrib]
      exact Finset.sum_le_sum fun x _ => by omega
    rw [List.map_cons, List.sum_cons]
    omega

end Weight

section FirstMax

variable {ok : Nat → Prop} {f : Nat → Nat} {n score best : Nat}

/-- `score` is the greatest value of `f` at the admissible indices below `n`, or zero, and `best`
the first index it is reached at, if it is not zero. -/
structure FirstMax (ok : Nat → Prop) (f : Nat → Nat) (n score best : Nat) : Prop where
  le : ∀ i, i < n → ok i → f i ≤ score
  first : 0 < score → best < n ∧ ok best ∧ f best = score ∧ ∀ i, i < best → ok i → f i < score

/-- An index with a greater value is the new first maximum. -/
theorem FirstMax.better (h : FirstMax ok f n score best) (hok : ok n) (hlt : score < f n) :
    FirstMax ok f (n + 1) (f n) n := by
  constructor
  · intro i hi hoki
    rcases Nat.lt_succ_iff_lt_or_eq.mp hi with hi | rfl
    · exact le_trans (h.le i hi hoki) hlt.le
    · exact le_rfl
  · intro _
    refine ⟨Nat.lt_succ_self n, hok, rfl, fun i hi hoki => ?_⟩
    exact lt_of_le_of_lt (h.le i hi hoki) hlt

/-- Any other index leaves it as it is. -/
theorem FirstMax.keep (h : FirstMax ok f n score best) (hn : ok n → f n ≤ score) :
    FirstMax ok f (n + 1) score best := by
  constructor
  · intro i hi hoki
    rcases Nat.lt_succ_iff_lt_or_eq.mp hi with hi | rfl
    · exact h.le i hi hoki
    · exact hn hoki
  · intro hpos
    obtain ⟨hlt, hok, heq, hbefore⟩ := h.first hpos
    exact ⟨Nat.lt_succ_of_lt hlt, hok, heq, hbefore⟩

end FirstMax

end Coverage
