import Mathlib

/-!
# Occurrences in a list

The `k`-th occurrence of a value, as a position with `k` occurrences before it.
-/

namespace List

variable {α : Type} [DecidableEq α] {l : List α} {d s : α} {k u v : Nat}

/-- Every occurrence has a position. -/
theorem exists_occurrence (d : α) (h : k < l.count s) :
    ∃ u, u < l.length ∧ l.getD u d = s ∧ (l.take u).count s = k := by
  induction l generalizing k with
  | nil => simp at h
  | cons a l ih =>
    by_cases ha : a = s
    · subst ha
      rw [count_cons_self] at h
      cases k with
      | zero => exact ⟨0, by simp, by simp, by simp⟩
      | succ k =>
        obtain ⟨u, hu, hs, hc⟩ := ih (by omega : k < l.count a)
        refine ⟨u + 1, by simpa using hu, by simpa using hs, ?_⟩
        rw [take_succ_cons, count_cons_self, hc]
    · rw [count_cons_of_ne ha] at h
      obtain ⟨u, hu, hs, hc⟩ := ih h
      refine ⟨u + 1, by simpa using hu, by simpa using hs, ?_⟩
      rw [take_succ_cons, count_cons_of_ne ha, hc]

/-- Later positions of a value have more occurrences before them. -/
theorem count_take_lt_of_lt (huv : u < v) (hv : v ≤ l.length) :
    (l.take u).count (l.getD u d) < (l.take v).count (l.getD u d) := by
  have hsub : l.take v = l.take (u + 1) ++ (l.take v).drop (u + 1) := by
    have htake := take_append_drop (u + 1) (l.take v)
    rw [take_take, Nat.min_eq_left (by omega)] at htake
    exact htake.symm
  rw [hsub, take_succ_eq_append_getElem (by omega), getD_eq_getElem _ _ (by omega)]
  simp only [count_append, count_singleton_self]
  omega

/-- An occurrence is not among the ones before it. -/
theorem count_take_lt (h : u < l.length) : (l.take u).count (l.getD u d) <
    l.count (l.getD u d) := by
  have hlt := count_take_lt_of_lt (d := d) h le_rfl
  rwa [take_length] at hlt

end List
