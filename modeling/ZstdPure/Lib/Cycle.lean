import Mathlib

/-!
# Periodic extensions

`cycle base n` repeats `base` up to `n` elements. Copying from `off` elements back while the list
grows extends it by a cycle of its last `off` elements.
-/

namespace List

variable {α : Type}

/-- The first `n` elements of `base` repeated for ever. -/
def cycle (base : List α) (n : Nat) : List α :=
  (List.range n).filterMap fun i => base[i % base.length]?

section

variable {base out : List α} {m n off : Nat}

theorem cycle_eq_map (h : 0 < base.length) (n : Nat) :
    cycle base n = (List.range n).map fun i => base.get ⟨i % base.length, Nat.mod_lt _ h⟩ := by
  rw [cycle, ← List.filterMap_eq_map]
  refine List.filterMap_congr fun i _ => ?_
  rw [List.getElem?_eq_getElem (Nat.mod_lt _ h)]
  rfl

@[simp] theorem cycle_zero (base : List α) : cycle base 0 = [] := rfl

theorem length_cycle (h : 0 < base.length) (n : Nat) : (cycle base n).length = n := by
  rw [cycle_eq_map h]; simp

theorem getElem?_cycle (h : 0 < base.length) {i : Nat} (hi : i < n) :
    (cycle base n)[i]? = base[i % base.length]? := by
  rw [cycle_eq_map h, List.getElem?_map, List.getElem?_range hi,
    List.getElem?_eq_getElem (Nat.mod_lt _ h)]
  rfl

theorem take_cycle (h : 0 < base.length) (hm : m ≤ n) : (cycle base n).take m = cycle base m := by
  refine List.ext_getElem? fun i => ?_
  rw [List.getElem?_take]
  split_ifs with hi
  · rw [getElem?_cycle h (by omega), getElem?_cycle h hi]
  · rw [List.getElem?_eq_none (by rw [length_cycle h]; omega)]

theorem cycle_length (base : List α) : cycle base base.length = base := by
  rcases Nat.eq_zero_or_pos base.length with h | h
  · rw [h, cycle_zero, List.eq_nil_of_length_eq_zero h]
  · refine List.ext_getElem? fun i => ?_
    rcases Nat.lt_or_ge i base.length with hi | hi
    · rw [getElem?_cycle h hi, Nat.mod_eq_of_lt hi]
    · rw [List.getElem?_eq_none (by rw [length_cycle h]; omega), List.getElem?_eq_none hi]

theorem cycle_of_length_eq (h : base.length = n) : cycle base n = base := by
  rw [← h, cycle_length]

theorem cycle_singleton (a : α) (n : Nat) : cycle [a] n = List.replicate n a := by
  refine List.ext_getElem? fun i => ?_
  rcases Nat.lt_or_ge i n with hi | hi
  · rw [getElem?_cycle (by simp) hi, List.getElem?_replicate, if_pos hi, List.length_singleton,
      Nat.mod_one]
    rfl
  · rw [List.getElem?_eq_none (by rw [length_cycle (by simp)]; exact hi),
      List.getElem?_eq_none (by simpa using hi)]

/-- A cycle goes on after whole periods. -/
theorem cycle_add (hm : base.length ∣ m) (n : Nat) :
    cycle base (m + n) = cycle base m ++ cycle base n := by
  rcases Nat.eq_zero_or_pos base.length with h | h
  · have : base = [] := List.eq_nil_of_length_eq_zero h
    subst this
    simp [cycle]
  · refine List.ext_getElem? fun i => ?_
    rcases Nat.lt_or_ge i m with hi | hi
    · rw [List.getElem?_append_left (by rw [length_cycle h]; exact hi), getElem?_cycle h hi,
        getElem?_cycle h (by omega)]
    · rw [List.getElem?_append_right (by rw [length_cycle h]; exact hi), length_cycle h]
      rcases Nat.lt_or_ge i (m + n) with hn | hn
      · obtain ⟨k, rfl⟩ := hm
        obtain ⟨j, rfl⟩ := Nat.exists_eq_add_of_le hi
        rw [getElem?_cycle h hn, getElem?_cycle h (by omega), Nat.add_sub_cancel_left,
          Nat.mul_add_mod]
      · rw [List.getElem?_eq_none (by rw [length_cycle h]; omega),
          List.getElem?_eq_none (by rw [length_cycle h]; omega)]

theorem base_append_cycle (base : List α) (n : Nat) :
    base ++ cycle base n = cycle base (base.length + n) := by
  rw [cycle_add dvd_rfl, cycle_length]

/-- The list extended by `n` elements, each a copy of the one `off` before it. -/
def extendBack (out : List α) (off n : Nat) : List α :=
  out ++ cycle (out.drop (out.length - off)) n

theorem length_base (h : off ≤ out.length) : (out.drop (out.length - off)).length = off := by
  rw [List.length_drop]; omega

theorem length_extendBack (h0 : 0 < off) (h : off ≤ out.length) (n : Nat) :
    (extendBack out off n).length = out.length + n := by
  rw [extendBack, List.length_append, length_cycle (by rw [length_base h]; exact h0)]

/-- Every element of the extension repeats the one `off` before it. -/
theorem getElem?_extendBack (h0 : 0 < off) (h : off ≤ out.length) {i : Nat} (hi : i < n) :
    (extendBack out off n)[out.length + i]? = (extendBack out off n)[out.length + i - off]? := by
  have hbase := length_base h
  rw [extendBack, List.getElem?_append_right (by omega), Nat.add_sub_cancel_left,
    getElem?_cycle (by omega) hi, hbase]
  rcases Nat.lt_or_ge i off with hlt | hge
  · rw [List.getElem?_append_left (by omega), Nat.mod_eq_of_lt hlt, List.getElem?_drop]
    congr 1
    omega
  · rw [List.getElem?_append_right (by omega), Nat.add_sub_assoc hge, Nat.add_sub_cancel_left,
      getElem?_cycle (by omega) (by omega), hbase, Nat.mod_eq_sub_mod hge]

/-- The extension depends on the last `off` elements only. -/
theorem extendBack_append (pre : List α) (h : off ≤ out.length) (n : Nat) :
    extendBack (pre ++ out) off n = pre ++ extendBack out off n := by
  have hdrop : (pre ++ out).drop ((pre ++ out).length - off) = out.drop (out.length - off) := by
    rw [List.length_append, List.drop_append, List.drop_of_length_le (by omega), List.nil_append]
    congr 1
    omega
  rw [extendBack, extendBack, hdrop, List.append_assoc]

/-- A list in which every element after the first `m` repeats the one `off` before it extends its
first `m` elements. -/
theorem extendBack_eq_take {l : List α} (h0 : 0 < off) (h : off ≤ m) (hn : m + n ≤ l.length)
    (hrep : ∀ i, i < n → l[m + i]? = l[m + i - off]?) :
    extendBack (l.take m) off n = l.take (m + n) := by
  have hlen : (l.take m).length = m := by rw [List.length_take]; omega
  have hbase : ((l.take m).drop (m - off)).length = off := by
    rw [List.length_drop, hlen]; omega
  have hval : ∀ i, i < n → l[m + i]? = ((l.take m).drop (m - off))[i % off]? := by
    intro i
    induction i using Nat.strong_induction_on with
    | _ i ih =>
      intro hi
      rw [hrep i hi]
      rcases Nat.lt_or_ge i off with hlt | hge
      · rw [Nat.mod_eq_of_lt hlt, List.getElem?_drop, List.getElem?_take, if_pos (by omega)]
        congr 1
        omega
      · rw [show m + i - off = m + (i - off) by omega, ih (i - off) (by omega) (by omega)]
        congr 1
        conv_rhs => rw [← Nat.sub_add_cancel hge, Nat.add_mod_right]
  rw [extendBack, hlen]
  refine List.ext_getElem? fun i => ?_
  rcases Nat.lt_or_ge i m with hi | hi
  · rw [List.getElem?_append_left (by omega), List.getElem?_take, List.getElem?_take, if_pos hi,
      if_pos (by omega)]
  · obtain ⟨j, rfl⟩ := Nat.exists_eq_add_of_le hi
    rw [List.getElem?_append_right (by omega), hlen, Nat.add_sub_cancel_left, List.getElem?_take]
    split_ifs with hj
    · rw [getElem?_cycle (by omega) (by omega), hbase, ← hval j (by omega)]
    · rw [List.getElem?_eq_none (by rw [length_cycle (by omega)]; omega)]

end

end List
