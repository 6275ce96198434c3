import ZstdPure.Lib.Checked

/-!
# Binary search

The partition point of a list that a predicate splits, found by halving, and ranges that follow each
other: the range that holds an offset is the partition point of the ends.
-/

namespace Outcome

variable {ε α : Type}

/-- One step of the search in the `s.2` elements from `s.1` on. -/
def halve (pred : α → Outcome ε Bool) (xs : List α) (s : Nat × Nat) : Outcome ε (Nat × Nat) := do
  let half := s.2 / 2
  let mid := s.1 + half
  let x ← get xs mid
  let below ← pred x
  pure (if below then mid else s.1, s.2 - half)

/-- `xs.partition_point(pred)`. -/
def partition_point (pred : α → Outcome ε Bool) (xs : List α) : Outcome ε Nat :=
  if xs.length = 0 then pure 0
  else do
    let (base, _) ← loop (fun s : Nat × Nat => decide (1 < s.2)) (halve pred xs) xs.length
      (0, xs.length)
    let x ← get xs base
    let below ← pred x
    pure (if below then base + 1 else base)

/-- `p` holds of the first `k` elements and of no other. -/
structure PartitionedAt (p : α → Bool) (xs : List α) (k : Nat) : Prop where
  le : k ≤ xs.length
  iff : ∀ i x, xs[i]? = some x → (p x = true ↔ i < k)

variable {pred : α → Outcome ε Bool} {p : α → Bool} {xs : List α} {k : Nat}

/-- The partition point lies in the elements still searched, or just behind them. -/
structure Searching (xs : List α) (k : Nat) (s : Nat × Nat) : Prop where
  pos : 1 ≤ s.2
  bound : s.1 + s.2 ≤ xs.length
  above : k ≤ s.1 + s.2
  below : s.1 = 0 ∨ s.1 < k

theorem Searching.halve (hpred : ∀ x ∈ xs, pred x = .ok (p x)) (hk : PartitionedAt p xs k)
    {s : Nat × Nat} (h : Searching xs k s) (hs : 1 < s.2) :
    Returns (halve pred xs s) fun s' => Searching xs k s' ∧ s'.2 - 1 < s.2 - 1 := by
  obtain ⟨pos, bound, above, below⟩ := h
  have hmid : s.1 + s.2 / 2 < xs.length := by omega
  have hiff := hk.iff (s.1 + s.2 / 2) _ (List.getElem?_eq_getElem hmid)
  rw [Outcome.halve, get_ok hmid, bind_ok, hpred _ (List.getElem_mem hmid), bind_ok]
  by_cases hp : p xs[s.1 + s.2 / 2] = true
  · have hlt := hiff.mp hp
    rw [if_pos hp]
    refine ⟨(s.1 + s.2 / 2, s.2 - s.2 / 2), rfl, ?_, by dsimp only; omega⟩
    constructor <;> dsimp only <;> omega
  · have hge := mt hiff.mpr hp
    rw [if_neg hp]
    refine ⟨(s.1, s.2 - s.2 / 2), rfl, ?_, by dsimp only; omega⟩
    constructor <;> dsimp only <;> omega

/-- The search finds where the predicate stops to hold. -/
theorem partition_point_ok (hpred : ∀ x ∈ xs, pred x = .ok (p x)) (hk : PartitionedAt p xs k) :
    partition_point pred xs = .ok k := by
  have hle := hk.le
  rw [partition_point]
  by_cases hempty : xs.length = 0
  · rw [if_pos hempty]
    obtain rfl : k = 0 := by omega
    rfl
  · rw [if_neg hempty]
    have hinit : Searching xs k (0, xs.length) := by
      constructor <;> dsimp only <;> omega
    obtain ⟨⟨base, n⟩, hloop, ⟨pos, bound, above, below⟩, hend⟩ :=
      Returns.loop (Searching xs k) (fun s => s.2 - 1)
        (fun s hs hc => hs.halve hpred hk (of_decide_eq_true hc)) xs.length _ hinit
        (by show xs.length - 1 < xs.length; omega)
    have hn : ¬ 1 < n := of_decide_eq_false hend
    dsimp only at pos bound above below
    have hbase : base < xs.length := by omega
    have hiff := hk.iff base _ (List.getElem?_eq_getElem hbase)
    rw [hloop, bind_ok]
    dsimp only
    rw [get_ok hbase, bind_ok, hpred _ (List.getElem_mem hbase), bind_ok]
    by_cases hp : p xs[base] = true
    · have hlt := hiff.mp hp
      rw [if_pos hp]
      show (Except.ok (base + 1) : Outcome ε Nat) = _
      rw [show base + 1 = k by omega]
    · have hge := mt hiff.mpr hp
      rw [if_neg hp]
      show (Except.ok base : Outcome ε Nat) = _
      rw [show base = k by omega]

end Outcome

/-! ## Ranges -/

/-- Ranges, as offset and size, that follow each other from `start` to `stop`. -/
def Contiguous : List (Nat × Nat) → Nat → Nat → Prop
  | [], start, stop => start = stop
  | r :: rs, start, stop => r.1 = start ∧ Contiguous rs (r.1 + r.2) stop

/-- Ranges whose offsets are the sums of the sizes before them. -/
theorem contiguous_of_sums {α : Type} {off size : α → Nat} : ∀ {xs : List α} {start : Nat},
    (∀ i x, xs[i]? = some x → off x = start + ((xs.take i).map size).sum) →
      Contiguous (xs.map fun x => (off x, size x)) start (start + (xs.map size).sum)
  | [], start, _ => rfl
  | x :: xs, start, h => by
    have hx : off x = start := by simpa using h 0 x rfl
    refine ⟨hx, ?_⟩
    have hrest := @contiguous_of_sums _ off size xs (off x + size x) fun i y hy => by
      have := h (i + 1) y (by simpa using hy)
      rw [this, hx, List.take_succ_cons, List.map_cons, List.sum_cons, Nat.add_assoc]
    rw [List.map_cons, List.sum_cons, ← Nat.add_assoc]
    rw [← hx]
    exact hrest

theorem Contiguous.start_le : ∀ {rs : List (Nat × Nat)} {start stop : Nat},
    Contiguous rs start stop → ∀ r ∈ rs, start ≤ r.1
  | [], _, _, _ => fun r hr => absurd hr List.not_mem_nil
  | r :: rs, start, stop, ⟨hr, hrest⟩ => by
    intro s hs
    rcases List.mem_cons.mp hs with rfl | hs
    · exact hr.ge
    · have := hrest.start_le s hs
      omega

/-- The range that holds an offset: the first one that ends behind it, and the only one. -/
theorem Contiguous.locate : ∀ {rs : List (Nat × Nat)} {start stop offset : Nat},
    Contiguous rs start stop → start ≤ offset → offset < stop →
      ∃ k < rs.length, Outcome.PartitionedAt (fun r => decide (r.1 + r.2 ≤ offset)) rs k ∧
        ∀ i r, rs[i]? = some r → (r.1 ≤ offset ∧ offset < r.1 + r.2 ↔ i = k)
  | [], start, stop, offset, h, h₁, h₂ => by
    obtain rfl : start = stop := h
    omega
  | r :: rs, start, stop, offset, ⟨hr, hrest⟩, h₁, h₂ => by
    by_cases hend : r.1 + r.2 ≤ offset
    · obtain ⟨k, hk, hpart, honly⟩ := hrest.locate hend h₂
      refine ⟨k + 1, by rw [List.length_cons]; omega, ⟨by rw [List.length_cons]; omega, ?_⟩, ?_⟩
      · rintro (_ | i) s hs
        · obtain rfl := Option.some.inj hs
          exact iff_of_true (decide_eq_true hend) (Nat.succ_pos k)
        · rw [hpart.iff i s hs, Nat.succ_lt_succ_iff]
      · rintro (_ | i) s hs
        · obtain rfl := Option.some.inj hs
          omega
        · rw [honly i s hs, Nat.succ_inj]
    · have hlater : ∀ s ∈ rs, offset < s.1 := fun s hs => by
        have := hrest.start_le s hs
        omega
      refine ⟨0, by rw [List.length_cons]; omega, ⟨Nat.zero_le _, ?_⟩, ?_⟩
      · rintro (_ | i) s hs
        · obtain rfl := Option.some.inj hs
          exact iff_of_false (by simpa using hend) (Nat.lt_irrefl 0)
        · have := hlater s (List.mem_of_getElem? hs)
          exact iff_of_false (by simp only [decide_eq_true_eq]; omega) (Nat.not_lt_zero _)
      · rintro (_ | i) s hs
        · obtain rfl := Option.some.inj hs
          omega
        · have := hlater s (List.mem_of_getElem? hs)
          omega
