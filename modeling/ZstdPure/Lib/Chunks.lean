import Mathlib

/-!
# Chunks of a list

A list cut into pieces of a fixed length, the last of which may be shorter.
-/

namespace List

variable {α : Type}

/-- The pieces of `n` elements of a list, in order. -/
def chunks (n : Nat) (l : List α) : List (List α) :=
  if 0 < n ∧ l ≠ [] then l.take n :: chunks n (l.drop n) else []
termination_by l.length
decreasing_by
  rename_i h
  have := length_pos_of_ne_nil h.2
  rw [length_drop]
  omega

theorem chunks_nil (n : Nat) : chunks n ([] : List α) = [] := by
  rw [chunks, if_neg (fun h => h.2 rfl)]

/-- The pieces of a non-empty list. -/
theorem chunks_of_ne_nil {n : Nat} {l : List α} (hn : 0 < n) (hl : l ≠ []) :
    chunks n l = l.take n :: chunks n (l.drop n) := by
  rw [chunks, if_pos ⟨hn, hl⟩]

/-- The pieces make up the list. -/
theorem flatten_chunks {n : Nat} (hn : 0 < n) (l : List α) : (chunks n l).flatten = l := by
  induction l using chunks.induct n with
  | case1 l h ih => rw [chunks_of_ne_nil hn h.2, flatten_cons, ih, take_append_drop]
  | case2 l h =>
    have hl : l = [] := by
      by_contra hc
      exact h ⟨hn, hc⟩
    rw [hl, chunks_nil, flatten_nil]

/-- No piece is empty. -/
theorem ne_nil_of_mem_chunks {n : Nat} (hn : 0 < n) (l : List α) : ∀ c ∈ chunks n l, c ≠ [] := by
  induction l using chunks.induct n with
  | case1 l h ih =>
    rw [chunks_of_ne_nil hn h.2]
    intro c hc
    rcases mem_cons.mp hc with rfl | hc
    · intro hnil
      have hlen := congrArg length hnil
      have hpos := length_pos_of_ne_nil h.2
      rw [length_take, length_nil] at hlen
      omega
    · exact ih c hc
  | case2 l h =>
    rw [chunks, if_neg h]
    exact fun c hc => absurd hc not_mem_nil

/-- The pieces are as many as the length needs. -/
theorem length_chunks {n : Nat} (hn : 0 < n) (l : List α) :
    (chunks n l).length = (l.length + n - 1) / n := by
  induction l using chunks.induct n with
  | case1 l h ih =>
    have hpos := length_pos_of_ne_nil h.2
    rw [chunks_of_ne_nil hn h.2, length_cons, ih, length_drop]
    by_cases hle : n ≤ l.length
    · rw [show l.length + n - 1 = l.length - n + n - 1 + n by omega, Nat.add_div_right _ hn]
    · rw [show l.length - n + n - 1 = n - 1 by omega, Nat.div_eq_of_lt (by omega),
        show l.length + n - 1 = l.length - 1 + n by omega, Nat.add_div_right _ hn,
        Nat.div_eq_of_lt (by omega)]
  | case2 l h =>
    have hl : l = [] := by
      by_contra hc
      exact h ⟨hn, hc⟩
    rw [hl, chunks_nil, length_nil, length_nil, Nat.zero_add, Nat.div_eq_of_lt (by omega)]

/-! ## Lists in a row -/

variable {xs : List (List α)} {x : List α} {i : Nat}

/-- A list in a row of lists lies between those before it and those after it. -/
theorem flatten_around (h : xs[i]? = some x) :
    xs.flatten = (xs.take i).flatten ++ (x ++ (xs.drop (i + 1)).flatten) := by
  obtain ⟨hi, rfl⟩ := getElem?_eq_some_iff.mp h
  conv_lhs => rw [← take_append_drop i xs, flatten_append, drop_eq_getElem_cons hi, flatten_cons]

/-- The elements of a list in a row of lists. -/
theorem getElem?_flatten_around (h : xs[i]? = some x) {j : Nat} (hj : j < x.length) :
    xs.flatten[(xs.take i).flatten.length + j]? = x[j]? := by
  rw [flatten_around h, getElem?_append_right (Nat.le_add_right _ _), Nat.add_sub_cancel_left,
    getElem?_append_left hj]

end List
