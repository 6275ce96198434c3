import Mathlib

/-!
# Tallies

A list of counts, indexed by what is counted. `weigh f` adds up a value `f i` for every unit of the
count of `i`; counting one more thing adds its value.
-/

namespace Tally

/-- The sum of the counts, each times the value of its index. -/
def weigh (f : Nat → Nat) : List Nat → Nat
  | [] => 0
  | c :: counts => c * f 0 + weigh (fun i => f (i + 1)) counts

/-- The tally of a list of indices, on top of `counts`. -/
def tally (ds : List Nat) (counts : List Nat) : List Nat :=
  ds.foldl (fun counts d => counts.modify d (· + 1)) counts

section

variable {f g : Nat → Nat} {counts : List Nat}

theorem getD_modify (counts : List Nat) (i j : Nat) (h : Nat → Nat) (hi : i < counts.length) :
    (counts.modify i h).getD j 0 = if i = j then h (counts.getD j 0) else counts.getD j 0 := by
  by_cases hj : j < counts.length
  · rw [List.getD_eq_getElem _ _ (by simpa using hj), List.getElem_modify,
      List.getD_eq_getElem _ _ hj]
  · rw [List.getD_eq_default _ _ (by simpa using hj), List.getD_eq_default _ _ (by omega),
      if_neg (by omega)]

theorem getD_set (l : List Nat) (i j v d : Nat) (h : i < l.length) :
    (l.set i v).getD j d = if i = j then v else l.getD j d := by
  rw [List.getD_eq_getElem?_getD, List.getElem?_set, List.getD_eq_getElem?_getD]
  split_ifs <;> rfl

theorem getD_replicate_zero (n i : Nat) : (List.replicate n 0).getD i 0 = 0 := by
  rw [List.getD_eq_getElem?_getD, List.getElem?_replicate]
  split_ifs <;> rfl

theorem lt_length_of_getD {l : List Nat} {i : Nat} (h : l.getD i 0 ≠ 0) : i < l.length := by
  by_contra hc
  exact h (List.getD_eq_default _ _ (by omega))

theorem getElem?_of_getD {l : List Nat} {i : Nat} (h : l.getD i 0 ≠ 0) : l[i]? =
    some (l.getD i 0) := by
  rw [List.getD_eq_getElem _ _ (lt_length_of_getD h), List.getElem?_eq_getElem]

/-- Storing values that only depend on the key. -/
theorem getD_foldl_set (f : Nat → Nat) (k : Nat) : ∀ (ps : List (Nat × Nat)) (l : List Nat),
    (∀ p ∈ ps, p.1 < l.length ∧ p.2 = f p.1) →
    (ps.foldl (fun l p => l.set p.1 p.2) l).getD k 0
      = if k ∈ ps.map Prod.fst then f k else l.getD k 0 := by
  intro ps
  induction ps with
  | nil => intro l _; rfl
  | cons q ps ih =>
    intro l h
    obtain ⟨⟨hq, hval⟩, hps⟩ := List.forall_mem_cons.mp h
    rw [List.foldl_cons, ih _ (by simpa using hps), getD_set _ _ _ _ _ hq, hval, List.map_cons]
    by_cases hk : k ∈ ps.map Prod.fst
    · rw [if_pos hk, if_pos (List.mem_cons_of_mem _ hk)]
    · by_cases hqk : q.1 = k
      · rw [if_neg hk, if_pos hqk, if_pos (by rw [hqk]; exact List.mem_cons_self), hqk]
      · rw [if_neg hk, if_neg hqk, if_neg]
        rw [List.mem_cons, not_or]
        exact ⟨fun e => hqk e.symm, hk⟩

/-- A list read at every index below `n`. -/
theorem map_getD_range {l : List Nat} {n : Nat} (h : l.length ≤ n) :
    (List.range n).map (fun i => l.getD i 0) = l ++ List.replicate (n - l.length) 0 := by
  refine List.ext_getElem? fun i => ?_
  rw [List.getElem?_map, List.getElem?_append]
  split_ifs with hi
  · rw [List.getElem?_range (by omega), Option.map_some, List.getD_eq_getElem _ _ hi,
      List.getElem?_eq_getElem hi]
  · rw [List.getElem?_replicate]
    split_ifs with hi'
    · rw [List.getElem?_range (by omega), Option.map_some, List.getD_eq_default _ _ (by omega)]
    · rw [List.getElem?_eq_none (by rw [List.length_range]; omega), Option.map_none]

theorem map_getD_range_length {l : List Nat} {n : Nat} (h : l.length = n) :
    (List.range n).map (fun i => l.getD i 0) = l := by
  rw [map_getD_range h.le, h, Nat.sub_self, List.replicate_zero, List.append_nil]

@[simp] theorem weigh_replicate_zero (f : Nat → Nat) (n : Nat) :
    weigh f (List.replicate n 0) = 0 := by
  induction n generalizing f with
  | zero => rfl
  | succ n ih => rw [List.replicate_succ, weigh, ih, Nat.zero_mul]

/-- Changing one count. -/
theorem weigh_modify (f : Nat → Nat) (counts : List Nat) (i : Nat) (h : Nat → Nat)
    (hi : i < counts.length) :
    weigh f (counts.modify i h) + counts.getD i 0 * f i
      = weigh f counts + h (counts.getD i 0) * f i := by
  induction counts generalizing f i with
  | nil => exact absurd hi (Nat.not_lt_zero _)
  | cons c counts ih =>
    cases i with
    | zero =>
      rw [List.modify_zero_cons, weigh, weigh, List.getD_cons_zero]
      omega
    | succ i =>
      have hrest := ih (fun i => f (i + 1)) i (by simpa using hi)
      rw [List.modify_succ_cons, weigh, weigh, List.getD_cons_succ]
      omega

theorem weigh_add (f : Nat → Nat) (counts : List Nat) (i n : Nat) (hi : i < counts.length) :
    weigh f (counts.modify i (· + n)) = weigh f counts + n * f i := by
  have h := weigh_modify f counts i (· + n) hi
  rw [Nat.add_mul] at h
  omega

theorem weigh_sub (f : Nat → Nat) (counts : List Nat) (i n : Nat) (hi : i < counts.length)
    (hn : n ≤ counts.getD i 0) : weigh f (counts.modify i (· - n)) + n * f i = weigh f counts := by
  have h := weigh_modify f counts i (· - n) hi
  have hsplit : counts.getD i 0 * f i = (counts.getD i 0 - n) * f i + n * f i := by
    rw [← Nat.add_mul, Nat.sub_add_cancel hn]
  omega

theorem weigh_one (counts : List Nat) : weigh (fun _ => 1) counts = counts.sum := by
  induction counts with
  | nil => rfl
  | cons c counts ih => rw [weigh, ih, Nat.mul_one, List.sum_cons]

/-- Two different counts are part of the sum. -/
theorem getD_add_getD_le_sum {i j : Nat} (hne : i ≠ j) : counts.getD i 0 + counts.getD j 0 ≤
    counts.sum := by
  have hle : ∀ (l : List Nat) (k : Nat), l.getD k 0 ≤ l.sum := by
    intro l k
    by_cases hk : k < l.length
    · rw [List.getD_eq_getElem _ _ hk]
      exact List.le_sum_of_mem (List.getElem_mem hk)
    · rw [List.getD_eq_default _ _ (by omega)]
      exact Nat.zero_le _
  by_cases hi : i < counts.length
  · have hsum := weigh_modify (fun _ => 1) counts i (fun _ => 0) hi
    rw [weigh_one, weigh_one, Nat.zero_mul, Nat.mul_one] at hsum
    have hj := hle (counts.modify i fun _ => 0) j
    rw [getD_modify _ _ _ _ hi, if_neg hne] at hj
    omega
  · rw [List.getD_eq_default _ _ (by omega), Nat.zero_add]
    exact hle counts j

/-- A bound for every value that counts. -/
theorem weigh_le_mul {b : Nat} (h : ∀ i, counts.getD i 0 ≠ 0 → f i ≤ b * g i) :
    weigh f counts ≤ b * weigh g counts := by
  induction counts generalizing f g with
  | nil => exact Nat.zero_le _
  | cons c counts ih =>
    have hrest := ih (f := fun i => f (i + 1)) (g := fun i => g (i + 1)) fun i hi => h (i + 1) hi
    have hhead : c * f 0 ≤ b * (c * g 0) := by
      by_cases hc : c = 0
      · rw [hc, Nat.zero_mul]
        exact Nat.zero_le _
      · calc c * f 0 ≤ c * (b * g 0) := Nat.mul_le_mul_left _ (h 0 hc)
          _ = b * (c * g 0) := by ring
    rw [weigh, weigh, Nat.mul_add]
    exact Nat.add_le_add hhead hrest

theorem dvd_weigh {n : Nat} (h : ∀ i, n ∣ counts.getD i 0 * f i) : n ∣ weigh f counts := by
  induction counts generalizing f with
  | nil => exact dvd_zero _
  | cons c counts ih => exact (h 0).add (ih fun i => h (i + 1))

/-- When every other count is a multiple, so is one count of a sum that is. -/
theorem dvd_of_dvd_weigh {n i : Nat} (hi : i < counts.length) (h : n ∣ weigh f counts)
    (hne : ∀ j, j ≠ i → n ∣ counts.getD j 0 * f j) : n ∣ counts.getD i 0 * f i := by
  have hrest : n ∣ weigh f (counts.modify i fun _ => 0) := dvd_weigh fun j => by
    rw [getD_modify _ _ _ _ hi]
    split_ifs with hij
    · rw [Nat.zero_mul]
      exact dvd_zero _
    · exact hne j fun e => hij e.symm
  have hsum := weigh_modify f counts i (fun _ => 0) hi
  rw [Nat.zero_mul, Nat.add_zero] at hsum
  rw [← hsum] at h
  exact (Nat.dvd_add_right hrest).mp h

/-- What a tally counts. -/
theorem tally_spec {ds : List Nat} (h : ∀ d ∈ ds, d < counts.length) :
    (tally ds counts).length = counts.length ∧
      (∀ i, (tally ds counts).getD i 0 = counts.getD i 0 + ds.count i) ∧
      ∀ f, weigh f (tally ds counts) = weigh f counts + (ds.map f).sum := by
  induction ds generalizing counts with
  | nil => exact ⟨rfl, fun _ => rfl, fun _ => rfl⟩
  | cons d ds ih =>
    obtain ⟨hd, hds⟩ := List.forall_mem_cons.mp h
    obtain ⟨hlen, hget, hweigh⟩ := @ih (counts.modify d (· + 1)) (by simpa using hds)
    refine ⟨by rw [tally, List.foldl_cons]; exact hlen.trans (List.length_modify ..), fun i => ?_,
      fun f => ?_⟩
    · rw [tally, List.foldl_cons]
      refine (hget i).trans ?_
      rw [getD_modify _ _ _ _ hd, List.count_cons]
      by_cases hdi : d = i
      · rw [if_pos hdi, if_pos (by simpa using hdi)]
        omega
      · rw [if_neg hdi, if_neg (by simpa using hdi)]
        omega
    · rw [tally, List.foldl_cons]
      refine (hweigh f).trans ?_
      have hone := weigh_modify f counts d (· + 1) hd
      rw [Nat.add_mul, Nat.one_mul] at hone
      rw [List.map_cons, List.sum_cons]
      omega

/-- The counts of a tally from zero. -/
theorem getD_tally_zero {ds : List Nat} {n : Nat} (h : ∀ d ∈ ds, d < n) (i : Nat) :
    (tally ds (List.replicate n 0)).getD i 0 = ds.count i := by
  rw [(tally_spec (by simpa using h)).2.1 i]
  rw [getD_replicate_zero, Nat.zero_add]

theorem length_tally_zero {ds : List Nat} {n : Nat} (h : ∀ d ∈ ds, d < n) :
    (tally ds (List.replicate n 0)).length = n := by
  rw [(tally_spec (by simpa using h)).1, List.length_replicate]

theorem weigh_tally_zero {ds : List Nat} {n : Nat} (h : ∀ d ∈ ds, d < n) (f : Nat → Nat) :
    weigh f (tally ds (List.replicate n 0)) = (ds.map f).sum := by
  rw [(tally_spec (by simpa using h)).2.2 f, weigh_replicate_zero, Nat.zero_add]

/-! ## The indices of a tally -/

/-- The indices, from `k` up, that a list of counts stands for, in order. -/
def indices (counts : List Nat) (k : Nat) : List Nat :=
  (counts.zipIdx k).flatMap fun c => List.replicate c.1 c.2

theorem indices_cons (c : Nat) (counts : List Nat) (k : Nat) :
    indices (c :: counts) k = List.replicate c k ++ indices counts (k + 1) := by
  rw [indices, List.zipIdx_cons, List.flatMap_cons]
  rfl

theorem mem_indices {l : Nat} : ∀ {counts : List Nat} {k : Nat}, l ∈ indices counts k →
    k ≤ l ∧ l < k + counts.length := by
  intro counts
  induction counts with
  | nil => intro k h; exact absurd h (by simp [indices])
  | cons c counts ih =>
    intro k h
    rw [indices_cons, List.mem_append] at h
    rw [List.length_cons]
    rcases h with h | h
    · obtain rfl := List.eq_of_mem_replicate h
      omega
    · have := ih h
      omega

theorem indices_sorted (counts : List Nat) (k : Nat) : (indices counts k).Pairwise (· ≤ ·) := by
  induction counts generalizing k with
  | nil => exact List.Pairwise.nil
  | cons c counts ih =>
    rw [indices_cons, List.pairwise_append]
    refine ⟨List.pairwise_replicate.mpr (Or.inr le_rfl), ih (k + 1), fun a ha b hb => ?_⟩
    obtain rfl := List.eq_of_mem_replicate ha
    have := mem_indices hb
    omega

theorem sum_map_indices (f : Nat → Nat) (counts : List Nat) (k : Nat) :
    ((indices counts k).map f).sum = weigh (fun i => f (k + i)) counts := by
  induction counts generalizing k with
  | nil => rfl
  | cons c counts ih =>
    rw [indices_cons, List.map_append, List.sum_append, ih, weigh, List.map_replicate,
      List.sum_replicate, smul_eq_mul]
    simp only [Nat.add_zero, Nat.add_assoc, Nat.add_comm 1]

/-- Counts that are zero from `n` on. -/
theorem weigh_take {n : Nat} (h : ∀ i, n ≤ i → counts.getD i 0 = 0) :
    weigh f (counts.take n) = weigh f counts := by
  induction counts generalizing f n with
  | nil => rw [List.take_nil]
  | cons c counts ih =>
    cases n with
    | zero =>
      have hzero := @weigh_le_mul f (fun _ => 0) (c :: counts) 0 fun i hi =>
        absurd (h i (Nat.zero_le i)) hi
      rw [Nat.zero_mul] at hzero
      exact (Nat.le_zero.mp hzero).symm
    | succ n =>
      rw [List.take_succ_cons, weigh, weigh, ih fun i hi => h (i + 1) (by omega)]

/-! ## The greatest index -/

theorem foldl_max_spec : ∀ (ds : List Nat) (a : Nat),
    a ≤ ds.foldl max a ∧ (∀ d ∈ ds, d ≤ ds.foldl max a) ∧
      (ds.foldl max a = a ∨ ds.foldl max a ∈ ds) := by
  intro ds
  induction ds with
  | nil => intro a; exact ⟨le_rfl, by simp, Or.inl rfl⟩
  | cons d ds ih =>
    intro a
    obtain ⟨hge, hle, hmem⟩ := ih (max a d)
    rw [List.foldl_cons]
    refine ⟨le_trans (le_max_left _ _) hge,
      List.forall_mem_cons.mpr ⟨le_trans (le_max_right _ _) hge, hle⟩, ?_⟩
    rcases hmem with h | h
    · rw [h]
      rcases max_choice a d with h' | h'
      · exact Or.inl h'
      · rw [h']
        exact Or.inr (by simp)
    · exact Or.inr (List.mem_cons_of_mem _ h)

theorem le_foldl_max {ds : List Nat} {d : Nat} (hd : d ∈ ds) : d ≤ ds.foldl max 0 :=
  (foldl_max_spec ds 0).2.1 d hd

/-- The greatest index occurs. -/
theorem foldl_max_mem {ds : List Nat} (hne : ds ≠ []) : ds.foldl max 0 ∈ ds := by
  obtain ⟨-, hle, h | h⟩ := foldl_max_spec ds 0
  · obtain ⟨d, hd⟩ := List.exists_mem_of_ne_nil ds hne
    have hd0 : d = 0 := by have := hle d hd; omega
    rw [h, ← hd0]
    exact hd
  · exact h

/-! ## Nonzero counts -/

theorem one_le_countP {l : List Nat} {i : Nat} (h : 0 < l.getD i 0) : 1 ≤ l.countP (0 < ·) := by
  have hi : i < l.length := by
    by_contra hc
    rw [List.getD_eq_default _ _ (by omega)] at h
    omega
  rw [List.getD_eq_getElem _ _ hi] at h
  exact List.countP_pos_iff.mpr ⟨_, List.getElem_mem hi, by simpa using h⟩

/-- Two different indices with a count make two nonzero counts. -/
theorem two_le_countP {l : List Nat} {i j : Nat} (hne : i ≠ j) (hi : 0 < l.getD i 0)
    (hj : 0 < l.getD j 0) : 2 ≤ l.countP (0 < ·) := by
  wlog hlt : i < j generalizing i j
  · exact this hne.symm hj hi (by omega)
  have hsplit : l.countP (0 < ·) = (l.take j).countP (0 < ·) + (l.drop j).countP (0 < ·) := by
    rw [← List.countP_append, List.take_append_drop]
  have h1 := @one_le_countP (l.take j) i (by
    rw [List.getD_eq_getElem?_getD, List.getElem?_take_of_lt hlt, ← List.getD_eq_getElem?_getD]
    exact hi)
  have h2 := @one_le_countP (l.drop j) 0 (by
    rw [List.getD_eq_getElem?_getD, List.getElem?_drop, Nat.add_zero, ← List.getD_eq_getElem?_getD]
    exact hj)
  omega

/-- With two nonzero counts there is always another one. -/
theorem exists_other {l : List Nat} (h : 2 ≤ l.countP (0 < ·)) (a : Nat) : ∃ b, b ≠ a ∧
    0 < l.getD b 0 := by
  induction l generalizing a with
  | nil => exact absurd h (by decide)
  | cons c l ih =>
    rw [List.countP_cons] at h
    cases a with
    | zero =>
      obtain ⟨x, hx, hx0⟩ := List.countP_pos_iff.mp (by split_ifs at h <;> omega : 0 <
        l.countP (0 < ·))
      obtain ⟨b, hb, rfl⟩ := List.getElem_of_mem hx
      refine ⟨b + 1, by omega, ?_⟩
      rw [List.getD_cons_succ, List.getD_eq_getElem _ _ hb]
      exact of_decide_eq_true hx0
    | succ a =>
      by_cases hc : 0 < c
      · exact ⟨0, by omega, by rwa [List.getD_cons_zero]⟩
      · rw [if_neg (by simpa using hc)] at h
        obtain ⟨b, hb, hpos⟩ := ih h a
        exact ⟨b + 1, by omega, by rwa [List.getD_cons_succ]⟩

/-- There are no more nonzero counts than places below which they all are. -/
theorem countP_le_of_lt {l : List Nat} {n : Nat} (h : ∀ i, 0 < l.getD i 0 → i < n) :
    l.countP (0 < ·) ≤ n := by
  rw [← List.take_append_drop n l, List.countP_append]
  have htake := List.countP_le_length (p := fun c => decide (0 < c)) (l := l.take n)
  have hdrop : (l.drop n).countP (fun c => decide (0 < c)) = 0 := by
    refine List.countP_eq_zero.mpr fun c hc => ?_
    obtain ⟨i, hi, rfl⟩ := List.getElem_of_mem hc
    rw [List.getElem_drop, decide_eq_true_eq]
    rw [List.length_drop] at hi
    intro hpos
    have := h (n + i) (by rwa [List.getD_eq_getElem _ _ (by omega)])
    omega
  rw [List.length_take] at htake
  omega

end

end Tally
