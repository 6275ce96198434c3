import ZstdPure.Encode.Huff
import ZstdPure.Lib.Tally

/-!
# The merging of the nodes of a Huffman tree

`merge_nodes` only fills in parents, so the depth of a node is known once its parent's is: the
depths are followed backwards, from the last merge to the first. At every stage the depths of the
nodes still in the heap satisfy Kraft's equation, and they are bounded by the weights as Fibonacci
numbers. -/

namespace ZstdPure.Encode

open Tally

/-! ## Depths -/

/-- The distance of a node from its root. -/
inductive Depth (parent : List Nat) : Nat → Nat → Prop
  | root {x : Nat} (h : parent.getD x usizeMax = usizeMax) : Depth parent x 0
  | step {x y d : Nat} (h : parent.getD x usizeMax = y) (hy : y ≠ usizeMax)
      (hd : Depth parent y d) :
      Depth parent x (d + 1)

/-- The walk of `depth_of` with enough fuel. -/
theorem Depth.depth_of {parent : List Nat} {x d : Nat} (h : Depth parent x d) :
    ∀ {n : Nat}, d ≤ n → depth_of parent n (parent.getD x usizeMax) = d := by
  induction h with
  | root h =>
    intro n _
    rw [h]
    cases n with
    | zero => rfl
    | succ n => exact if_pos rfl
  | step h hy hd ih =>
    intro n hn
    cases n with
    | zero => exact absurd hn (Nat.not_succ_le_zero _)
    | succ n => rw [h, Encode.depth_of, if_neg hy, ih (by omega)]

/-! ## The heap -/

instance : Std.Total heap_le := ⟨fun a b => by unfold heap_le; omega⟩

instance : IsTrans (Nat × Nat) heap_le := ⟨fun a b c => by unfold heap_le; omega⟩

theorem heap_le.fst_le {a b : Nat × Nat} (h : heap_le a b) : a.1 ≤ b.1 := by
  unfold heap_le at h
  omega

/-- The state of the loop: the nodes in the heap have no parent yet, nor have those to come. -/
structure Heap (heap : List (Nat × Nat)) (parent : List Nat) (next : Nat) : Prop where
  sorted : heap.Pairwise heap_le
  nodup : (heap.map Prod.snd).Nodup
  lt : ∀ p ∈ heap, p.2 < next
  root : ∀ p ∈ heap, parent.getD p.2 usizeMax = usizeMax
  fresh : ∀ y, next ≤ y → parent.getD y usizeMax = usizeMax
  room : next + heap.length ≤ parent.length + 1
  small : parent.length ≤ usizeMax

section Merge

variable {w1 w2 a b next : Nat} {rest : List (Nat × Nat)} {parent : List Nat}

/-- The nodes of the two least pairs are different, and not among the others. -/
theorem Heap.distinct (h : Heap ((w1, a) :: (w2, b) :: rest) parent next) :
    a ≠ b ∧ (∀ p ∈ rest, p.2 ≠ a ∧ p.2 ≠ b) ∧ a < next ∧ b < next := by
  have hn := h.nodup
  simp only [List.map_cons, List.nodup_cons, List.mem_cons, not_or] at hn
  refine ⟨hn.1.1, fun p hp => ⟨?_, ?_⟩, h.lt (w1, a) (by simp), h.lt (w2, b) (by simp)⟩
  · rintro rfl
    exact hn.1.2 (List.mem_map_of_mem hp)
  · rintro rfl
    exact hn.2.1 (List.mem_map_of_mem hp)

/-- The parents after one merge. -/
theorem Heap.getD_merge (h : Heap ((w1, a) :: (w2, b) :: rest) parent next) (y : Nat) :
    ((parent.set a next).set b next).getD y usizeMax
      = if y = a ∨ y = b then next else parent.getD y usizeMax := by
  obtain ⟨-, -, ha, hb⟩ := h.distinct
  have hroom := h.room
  simp only [List.length_cons] at hroom
  rw [getD_set _ _ _ _ _ (by rw [List.length_set]; omega), getD_set _ _ _ _ _ (by omega)]
  by_cases hya : y = a
  · rw [hya]
    simp
  · by_cases hyb : y = b
    · rw [hyb]
      simp
    · rw [if_neg fun e => hyb e.symm, if_neg fun e => hya e.symm, if_neg (by simp [hya, hyb])]

/-- One merge keeps the state. -/
theorem Heap.merge (h : Heap ((w1, a) :: (w2, b) :: rest) parent next) :
    Heap (rest.orderedInsert heap_le (w1 + w2, next)) ((parent.set a next).set b next)
      (next + 1) := by
  obtain ⟨-, hother, ha, hb⟩ := h.distinct
  have hget := h.getD_merge
  have hmem := fun p => List.mem_orderedInsert heap_le (a := p) (b := (w1 + w2, next)) (l := rest)
  have hlt : ∀ p ∈ rest, p.2 < next := fun p hp => h.lt p (by simp [hp])
  have hperm := List.perm_orderedInsert heap_le (w1 + w2, next) rest
  refine ⟨?_, ?_, ?_, ?_, ?_, ?_, ?_⟩
  · exact (h.sorted.of_cons.of_cons).orderedInsert _ _
  · rw [(hperm.map Prod.snd).nodup_iff, List.map_cons, List.nodup_cons]
    refine ⟨fun hin => ?_, (h.nodup.of_cons).of_cons⟩
    obtain ⟨p, hp, he⟩ := List.mem_map.mp hin
    have := hlt p hp
    dsimp only at he
    omega
  · intro p hp
    rcases (hmem p).mp hp with rfl | hp
    · exact Nat.lt_succ_self _
    · exact (hlt p hp).trans (Nat.lt_succ_self _)
  · intro p hp
    rcases (hmem p).mp hp with rfl | hp
    · rw [hget, if_neg (by dsimp only; omega)]
      exact h.fresh next le_rfl
    · rw [hget, if_neg (not_or.mpr (hother p hp))]
      exact h.root p (by simp [hp])
  · intro y hy
    rw [hget, if_neg (by omega)]
    exact h.fresh y (by omega)
  · have hroom := h.room
    rw [List.orderedInsert_length, List.length_set, List.length_set]
    simp only [List.length_cons] at hroom
    omega
  · rw [List.length_set, List.length_set]
    exact h.small

end Merge

/-! ## The depths of the nodes in the heap -/

/-- Nodes that are no longer in the heap keep their parents. -/
theorem merge_nodes_frame (heap : List (Nat × Nat)) (parent : List Nat) (next : Nat)
    (h : Heap heap parent next) {y : Nat} (hy : y < next) (hout : y ∉ heap.map Prod.snd) :
    (merge_nodes heap parent next).getD y usizeMax = parent.getD y usizeMax := by
  induction heap, parent, next using merge_nodes.induct with
  | case1 parent next w1 a w2 b rest ih =>
    rw [merge_nodes]
    simp only [List.map_cons, List.mem_cons, not_or] at hout
    have hperm := List.perm_orderedInsert heap_le (w1 + w2, next) rest
    rw [ih h.merge (by omega) ?_, h.getD_merge, if_neg (not_or.mpr ⟨hout.1, hout.2.1⟩)]
    rw [(hperm.map Prod.snd).mem_iff, List.map_cons, List.mem_cons, not_or]
    exact ⟨by omega, hout.2.2⟩
  | case2 heap parent next hheap => rw [merge_nodes]; exact hheap

/-- The depths that the nodes of a heap end with. -/
structure Depths (final : List Nat) (heap : List (Nat × Nat)) (least k : Nat) (dep : Nat → Nat) :
    Prop where
  depth : ∀ p ∈ heap, Depth final p.2 (dep p.2)
  lt : ∀ p ∈ heap, dep p.2 < heap.length
  fib : ∀ p ∈ heap, Nat.fib (dep p.2 + 1) * p.1 + Nat.fib (dep p.2) * least ≤
    (heap.map Prod.fst).sum
  kraft : (heap.map fun p => 2 ^ (k - dep p.2)).sum = 2 ^ k

section Undo

variable {w1 w2 a b next least k : Nat} {rest : List (Nat × Nat)} {parent final : List Nat}
  {dep : Nat → Nat}

/-- The depths before a merge: the two nodes are one below the node they were merged into. -/
def before_merge (a b next : Nat) (dep : Nat → Nat) (x : Nat) : Nat :=
  if x = a ∨ x = b then dep next + 1 else dep x

/-- What the heap after a merge consists of. -/
theorem merged_sum (w x : Nat) (f : Nat × Nat → Nat) (rest : List (Nat × Nat)) :
    ((rest.orderedInsert heap_le (w, x)).map f).sum = f (w, x) + (rest.map f).sum := by
  rw [((List.perm_orderedInsert heap_le (w, x) rest).map f).sum_eq, List.map_cons, List.sum_cons]

/-- A property of the nodes before a merge. -/
theorem Heap.forall_before (h : Heap ((w1, a) :: (w2, b) :: rest) parent next)
    {P : Nat × Nat → Nat → Prop} (ha : P (w1, a) (dep next + 1)) (hb : P (w2, b) (dep next + 1))
    (hrest : ∀ p ∈ rest, P p (dep p.2)) :
    ∀ p ∈ (w1, a) :: (w2, b) :: rest, P p (before_merge a b next dep p.2) := by
  obtain ⟨-, hother, -⟩ := h.distinct
  intro p hp
  rcases List.mem_cons.mp hp with rfl | hp
  · rw [before_merge, if_pos (Or.inl rfl)]
    exact ha
  rcases List.mem_cons.mp hp with rfl | hp
  · rw [before_merge, if_pos (Or.inr rfl)]
    exact hb
  · rw [before_merge, if_neg (not_or.mpr (hother p hp))]
    exact hrest p hp

/-- The bound of a node that is merged with one of weight `v`, from that of the merged node. -/
theorem fib_before {d w u v W : Nat} (hw : w ≤ u) (hsum : w + least ≤ v)
    (h : Nat.fib (d + 1) * v + Nat.fib d * u ≤ W) :
    Nat.fib (d + 1 + 1) * w + Nat.fib (d + 1) * least ≤ W := by
  calc Nat.fib (d + 1 + 1) * w + Nat.fib (d + 1) * least
      = Nat.fib (d + 1) * (w + least) + Nat.fib d * w := by
        rw [Nat.fib_add_two]
        ring
    _ ≤ Nat.fib (d + 1) * v + Nat.fib d * u :=
        Nat.add_le_add (Nat.mul_le_mul_left _ hsum) (Nat.mul_le_mul_left _ hw)
    _ ≤ W := h

/-- The depths before a merge, from those after it. -/
theorem Depths.before (h : Heap ((w1, a) :: (w2, b) :: rest) parent next)
    (hleast : least ≤ w1) (hk : rest.length + 1 ≤ k)
    (hparent : ∀ y, y = a ∨ y = b → final.getD y usizeMax = next)
    (hd : Depths final (rest.orderedInsert heap_le (w1 + w2, next)) w2 k dep) :
    Depths final ((w1, a) :: (w2, b) :: rest) least k (before_merge a b next dep) := by
  obtain ⟨-, hother, -⟩ := h.distinct
  have hroom := h.room
  have hsmall := h.small
  simp only [List.length_cons] at hroom
  obtain ⟨h1, -⟩ := List.pairwise_cons.mp h.sorted
  have h12 : w1 ≤ w2 := (h1 (w2, b) (by simp)).fst_le
  have hmem := fun p => List.mem_orderedInsert heap_le (a := p) (b := (w1 + w2, next)) (l := rest)
  have hnew := (hmem (w1 + w2, next)).mpr (Or.inl rfl)
  have hold := fun p (hp : p ∈ rest) => (hmem p).mpr (Or.inr hp)
  have hlength := hd.lt _ hnew
  rw [List.orderedInsert_length] at hlength
  refine ⟨h.forall_before (P := fun p d => Depth final p.2 d) ?_ ?_ ?_,
    h.forall_before (P := fun _ d => d < ((w1, a) :: (w2, b) :: rest).length) ?_ ?_ ?_,
    h.forall_before (P := fun p d => Nat.fib (d + 1) * p.1 + Nat.fib d * least
      ≤ (((w1, a) :: (w2, b) :: rest).map Prod.fst).sum) ?_ ?_ ?_, ?_⟩
  · exact Depth.step (hparent a (Or.inl rfl)) (by omega) (hd.depth _ hnew)
  · exact Depth.step (hparent b (Or.inr rfl)) (by omega) (hd.depth _ hnew)
  · exact fun p hp => hd.depth p (hold p hp)
  · exact Nat.succ_lt_succ hlength
  · exact Nat.succ_lt_succ hlength
  · intro p hp
    have hlt := hd.lt p (hold p hp)
    rw [List.orderedInsert_length] at hlt
    exact hlt.trans (Nat.lt_succ_self _)
  · have hfib := hd.fib _ hnew
    rw [merged_sum, Nat.add_assoc] at hfib
    exact fib_before h12 (by dsimp only; omega) hfib
  · have hfib := hd.fib _ hnew
    rw [merged_sum, Nat.add_assoc] at hfib
    exact fib_before le_rfl (by dsimp only; omega) hfib
  · intro p hp
    have hfib := hd.fib p (hold p hp)
    rw [merged_sum, Nat.add_assoc] at hfib
    exact le_trans (Nat.add_le_add_left (Nat.mul_le_mul_left _ (hleast.trans h12)) _) hfib
  · have hkraft := hd.kraft
    rw [merged_sum] at hkraft
    have hrest : (rest.map fun p => 2 ^ (k - before_merge a b next dep p.2))
        = rest.map fun p => 2 ^ (k - dep p.2) :=
      List.map_congr_left fun p hp => by rw [before_merge, if_neg (not_or.mpr (hother p hp))]
    have htwice : 2 ^ (k - dep next) = 2 ^ (k - (dep next + 1)) + 2 ^ (k - (dep next + 1)) := by
      rw [← Nat.two_mul, ← pow_succ']
      congr 1
      dsimp only at hlength
      omega
    rw [List.map_cons, List.map_cons, List.sum_cons, List.sum_cons, hrest, ← hkraft, htwice,
      Nat.add_assoc, before_merge, before_merge, if_pos (Or.inl rfl), if_pos (Or.inr rfl)]

end Undo

/-- The depths at every stage satisfy Kraft's equation and the bound by the weights. -/
theorem merge_nodes_depths (heap : List (Nat × Nat)) (parent : List Nat) (next : Nat)
    (least k : Nat)
    (h : Heap heap parent next) (hne : heap ≠ []) (hleast : ∀ p ∈ heap, least ≤ p.1)
    (hk : heap.length ≤ k + 1) :
    ∃ dep, Depths (merge_nodes heap parent next) heap least k dep := by
  induction heap, parent, next using merge_nodes.induct generalizing least with
  | case2 heap parent next hheap =>
    rw [merge_nodes]
    · match heap, hne, hheap with
      | [p], _, _ =>
        refine ⟨fun _ => 0, ⟨?_, by simp, by simp, by simp⟩⟩
        intro q hq
        exact Depth.root (h.root q hq)
      | p :: q :: rest, _, hheap => exact absurd rfl (hheap p.1 p.2 q.1 q.2 rest)
    · exact hheap
  | case1 parent next w1 a w2 b rest ih =>
    rw [merge_nodes]
    obtain ⟨-, hother, ha, hb⟩ := h.distinct
    simp only [List.length_cons] at hk
    have hperm := List.perm_orderedInsert heap_le (w1 + w2, next) rest
    have hw2 : ∀ p ∈ rest.orderedInsert heap_le (w1 + w2, next), w2 ≤ p.1 := fun p hp => by
      rcases (List.mem_orderedInsert heap_le).mp hp with rfl | hp
      · exact Nat.le_add_left _ _
      · exact ((List.pairwise_cons.mp h.sorted.of_cons).1 p hp).fst_le
    obtain ⟨dep, hd⟩ := ih w2 h.merge
      (List.ne_nil_of_length_pos (by simp [List.orderedInsert_length]))
      hw2 (by rw [List.orderedInsert_length]; omega)
    refine ⟨_, hd.before h (hleast (w1, a) (by simp)) (by omega) fun y hy => ?_⟩
    rw [merge_nodes_frame _ _ _ h.merge (by omega), h.getD_merge, if_pos hy]
    rw [(hperm.map Prod.snd).mem_iff, List.map_cons, List.mem_cons, not_or]
    refine ⟨by dsimp only; omega, fun hin => ?_⟩
    obtain ⟨p, hp, rfl⟩ := List.mem_map.mp hin
    have hne := hother p hp
    omega

end ZstdPure.Encode
