import ZstdPure.Encode.CodeLengths
import ZstdPure.Proofs.CodeTableProofs
import ZstdPure.Proofs.HuffLengthsProofs

/-!
# `code_lengths` passes its checks

No index is out of range, nothing overflows, and every loop ends: the checked steps give the lengths
of `code_lengths`. These are the lengths of a complete code, so there is a table for them. -/

namespace ZstdPure.Encode

open Outcome Huff Tally

/-! ## The tree -/

section Tree

variable {w1 w2 a b next m : Nat} {heap rest : List (Nat × Nat)} {weight parent : List Nat}

/-- The weights of the leaves. -/
theorem fill_weights (f : Nat → Nat) (freq : List Nat) : ∀ (present pre : List Nat) (r : Nat),
    (∀ s ∈ present, s < freq.length ∧ freq.getD s 0 = f s) →
    (present.zipIdx pre.length).foldlM (fun weight c => do
      let w ← get freq c.1
      set weight c.2 w) (pre ++ List.replicate (present.length + r) 0)
      = (.ok (pre ++ present.map f ++ List.replicate r 0) : Res (List Nat)) := by
  intro present
  induction present with
  | nil =>
    intro pre r _
    rw [List.zipIdx_nil, List.foldlM_nil, List.length_nil, Nat.zero_add, List.map_nil,
      List.append_nil]
    rfl
  | cons s present ih =>
    intro pre r h
    obtain ⟨⟨hs, hval⟩, hrest⟩ := List.forall_mem_cons.mp h
    have hlt : pre.length < (pre ++ List.replicate ((s :: present).length + r) 0).length := by
      rw [List.length_append, List.length_replicate, List.length_cons]
      omega
    have hset : (pre ++ List.replicate ((s :: present).length + r) 0).set pre.length (f s)
        = (pre ++ [f s]) ++ List.replicate (present.length + r) 0 := by
      rw [List.set_append_right _ _ le_rfl, Nat.sub_self, List.length_cons,
        show present.length + 1 + r = present.length + r + 1 by omega, List.replicate_succ,
        List.set_cons_zero, List.append_assoc, List.singleton_append]
    have hstep := ih (pre ++ [f s]) r hrest
    rw [List.length_append, List.length_singleton] at hstep
    rw [List.zipIdx_cons, List.foldlM_cons, get_ok hs, bind_ok, ← List.getD_eq_getElem _ 0, hval,
      set_ok hlt, bind_ok, hset, hstep, List.map_cons, List.append_assoc pre, List.singleton_append]

/-- One merge passes its checks. -/
theorem merge_step_ok (h : Heap ((w1, a) :: (w2, b) :: rest) parent next)
    (hlen : weight.length = parent.length) (hsum : w1 + w2 < 2 ^ 64) :
    merge_step ⟨(w1, a) :: (w2, b) :: rest, weight, parent, next⟩
      = .ok ⟨rest.orderedInsert heap_le (w1 + w2, next), weight.set next (w1 + w2),
        (parent.set a next).set b next, next + 1⟩ := by
  obtain ⟨-, -, ha, hb⟩ := h.distinct
  have hroom := h.room
  have hsmall := h.small
  have hmax : usizeMax = 2 ^ 64 - 1 := rfl
  simp only [List.length_cons] at hroom
  have hnext : next < weight.length := by omega
  rw [merge_step, pop_least, pure_eq_ok, bind_ok]
  dsimp only
  rw [pop_least, pure_eq_ok, bind_ok]
  dsimp only
  rw [add_ok hsum, bind_ok, set_ok hnext, bind_ok, set_ok (by omega), bind_ok,
    set_ok (by rw [List.length_set]; omega), bind_ok, get_ok (by rw [List.length_set]; omega),
    bind_ok,
    List.getElem_set_self, add_ok (by omega), bind_ok]
  rfl

/-- The loop ends, with the parents of `merge_nodes`. -/
theorem merge_loop (h : Heap heap parent next) : ∀ (weight : List Nat) (n : Nat),
    weight.length = parent.length → (heap.map Prod.fst).sum < 2 ^ 64 → heap.length ≤ n + 1 →
    ∃ t, loop (fun t : Arena => decide (1 < t.heap.length)) merge_step n ⟨heap, weight, parent,
      next⟩
        = .ok t ∧ t.parent = merge_nodes heap parent next := by
  induction heap, parent, next using merge_nodes.induct with
  | case2 heap parent next hheap =>
    intro weight n _ _ _
    refine ⟨_, loop_of_not ?_ n, ?_⟩
    · rcases heap with _ | ⟨p, _ | ⟨q, rest⟩⟩
      · rfl
      · rfl
      · exact absurd rfl (hheap p.1 p.2 q.1 q.2 rest)
    · rw [merge_nodes]
      exact hheap
  | case1 parent next w1 a w2 b rest ih =>
    intro weight n hlen hsum hn
    simp only [List.length_cons] at hn
    simp only [List.map_cons, List.sum_cons] at hsum
    obtain ⟨n, rfl⟩ : ∃ k, n = k + 1 := ⟨n - 1, by omega⟩
    rw [loop_succ_of (by simp), merge_step_ok h hlen (by omega), bind_ok, merge_nodes]
    refine ih h.merge _ n ?_ ?_ ?_
    · rw [List.length_set, List.length_set, List.length_set, hlen]
    · have hmerged := merged_sum (w1 + w2) next Prod.fst rest
      dsimp only at hmerged
      omega
    · rw [List.orderedInsert_length]
      omega

/-- A parent is a node, or there is none. -/
theorem merge_nodes_inside (h : Heap heap parent next)
    (hin : ∀ v ∈ parent, v = usizeMax ∨ v < parent.length) :
    (merge_nodes heap parent next).length = parent.length ∧
      ∀ v ∈ merge_nodes heap parent next, v = usizeMax ∨ v < parent.length := by
  induction heap, parent, next using merge_nodes.induct with
  | case2 heap parent next hheap => rw [merge_nodes]; exacts [⟨rfl, hin⟩, hheap]
  | case1 parent next w1 a w2 b rest ih =>
    have hroom := h.room
    simp only [List.length_cons] at hroom
    have hlen : ((parent.set a next).set b next).length = parent.length := by
      rw [List.length_set, List.length_set]
    rw [merge_nodes]
    rw [← hlen]
    refine ih h.merge fun v hv => ?_
    rw [hlen]
    rcases List.mem_or_eq_of_mem_set hv with hv | rfl
    · rcases List.mem_or_eq_of_mem_set hv with hv | rfl
      · exact hin v hv
      · exact Or.inr (by omega)
    · exact Or.inr (by omega)

/-- The climb from a node counts its depth. -/
theorem climb_loop (hin : ∀ v ∈ parent, v = usizeMax ∨ v < parent.length) {x d : Nat}
    (h : Depth parent x d) : ∀ (k n : Nat), d ≤ n → k + d < 2 ^ 64 →
      loop (fun s : Nat × Nat => decide (s.2 ≠ usizeMax)) (climb parent) n
        (k, parent.getD x usizeMax) = .ok (k + d, usizeMax) := by
  induction h with
  | root h =>
    intro k n _ _
    rw [h]
    exact loop_of_not (by simp) n
  | @step x y d h hy hd ih =>
    intro k n hn hk
    obtain ⟨n, rfl⟩ : ∃ j, n = j + 1 := ⟨n - 1, by omega⟩
    have hx : x < parent.length := by
      by_contra hc
      rw [List.getD_eq_default _ _ (by omega)] at h
      exact hy h.symm
    have hylt : y < parent.length := by
      rcases hin y (by rw [← h, List.getD_eq_getElem _ _ hx]; exact List.getElem_mem hx) with he
        | hlt
      · exact absurd he hy
      · exact hlt
    rw [h, loop_succ_of (by simpa using hy), climb, add_ok (by dsimp only; omega), bind_ok,
      get_ok hylt,
      bind_ok, pure_eq_ok, bind_ok, ← List.getD_eq_getElem _ usizeMax, ih _ n (by omega) (by
        dsimp only
        omega)]
    congr 2
    dsimp only
    omega

end Tree

/-! ## The counts -/

section Counts

variable {counts : List Nat} {i m : Nat}

theorem update_ok {f : Nat → Res Nat} {g : Nat → Nat} (hi : i < counts.length)
    (hf : f (counts.getD i 0) = .ok (g (counts.getD i 0))) :
    update counts i f = .ok (counts.modify i g) := by
  have hset : counts.set i (g (counts.getD i 0)) = counts.modify i g := by
    refine List.ext_getElem (by simp) fun j h1 h2 => ?_
    rw [List.getElem_set, List.getElem_modify]
    split_ifs with hij
    · rw [List.getD_eq_getElem _ _ hi]
      simp only [hij]
    · rfl
  rw [update, get_ok hi, bind_ok, ← List.getD_eq_getElem _ 0, hf, bind_ok, set_ok hi, hset]

/-- The depths of the leaves are counted. -/
theorem count_depths {parent : List Nat} {dep : Nat → Nat}
    (hin : ∀ v ∈ parent, v = usizeMax ∨ v < parent.length) (hm : m ≤ 256)
      (hroom : m ≤ parent.length)
    (hdep : ∀ i < m, Depth parent i (dep i) ∧ dep i < m) (h64 : ∀ i < m, dep i < 64) :
    ∀ k ≤ m, (List.range k).foldlM (count_depth parent) (List.replicate 64 0, [])
      = .ok (tally ((List.range k).map dep) (List.replicate 64 0), (List.range k).map dep) := by
  intro k
  induction k with
  | zero => intro _; rfl
  | succ k ih =>
    intro hk
    obtain ⟨hdepth, hlt⟩ := hdep k (by omega)
    have hd64 := h64 k (by omega)
    have hds : ∀ d ∈ (List.range k).map dep, d < 64 := fun d hd => by
      obtain ⟨j, hj, rfl⟩ := List.mem_map.mp hd
      exact h64 j (by rw [List.mem_range] at hj; omega)
    have hcount : (tally ((List.range k).map dep) (List.replicate 64 0)).getD (dep k) 0 ≤ k := by
      rw [getD_tally_zero hds]
      refine le_trans List.count_le_length ?_
      rw [List.length_map, List.length_range]
    have hupdate := @update_ok (tally ((List.range k).map dep) (List.replicate 64 0)) (dep k)
      (fun c => add 32 c 1) (· + 1) (by rw [length_tally_zero hds]; exact hd64) (add_ok (by omega))
    have hparent : k < parent.length := by omega
    have hclimb := climb_loop hin hdepth 0 parent.length (by omega) (by omega)
    rw [List.getD_eq_getElem _ _ hparent, Nat.zero_add] at hclimb
    rw [List.range_succ, List.foldlM_append, ih (by omega), bind_ok, List.foldlM_cons, count_depth,
      get_ok hparent, bind_ok, hclimb, bind_ok]
    dsimp only
    rw [hupdate, bind_ok, pure_eq_ok, bind_ok, List.foldlM_nil, List.map_append, tally, tally,
      List.foldl_append]
    rfl

theorem max?_eq {depth : List Nat} (hne : depth ≠ []) : depth.max? = some (depth.foldl max 0) := by
  cases depth with
  | nil => exact absurd rfl hne
  | cons d depth => rw [List.max?_cons', List.foldl_cons, Nat.zero_max]

/-- The donor search ends at the donor. -/
theorem find_donor_ok (counts : List Nat) : ∀ n, n < counts.length → 1 ≤ donor counts n →
    find_donor counts n = .ok (donor counts n) := by
  have hloop : ∀ n, n < counts.length → 1 ≤ donor counts n →
      loop (fun j => counts.getD j 0 == 0) (fun j => do
        let _ ← get counts j
        sub j 1) n n = (.ok (donor counts n) : Res Nat) := by
    intro n
    induction n with
    | zero => intro _ h; exact absurd h (by rw [donor]; omega)
    | succ n ih =>
      intro hn h
      rw [donor] at h ⊢
      by_cases h0 : counts.getD (n + 1) 0 = 0
      · rw [if_pos h0] at h ⊢
        rw [loop_succ_of (by simpa using h0), get_ok hn, bind_ok, sub_ok (by omega), bind_ok,
          Nat.add_sub_cancel]
        exact ih (by omega) h
      · rw [if_neg h0]
        exact loop_of_not (by simpa using h0) _
  intro n hn h
  have hle : donor counts n ≤ n := by
    rcases donor_spec counts n with ⟨-, hle, -⟩ | hnone
    · exact hle
    · clear hloop hn h
      induction n with
      | zero => exact le_rfl
      | succ n ih =>
        rw [donor, if_pos (hnone (n + 1) (by omega) le_rfl)]
        exact le_trans (ih fun l h1 hl => hnone l h1 (by omega)) (by omega)
  rw [find_donor, hloop n hn h, bind_ok, get_ok (by omega)]
  rfl

/-- A count is at most the number of codes. -/
theorem Kraft.getD_le (h : Kraft m i counts) (j : Nat) : counts.getD j 0 ≤ m := by
  have htotal := h.total
  rw [weigh_one] at htotal
  by_cases hj : j = 64
  · rw [List.getD_eq_default _ _ (by rw [h.length]; omega)]
    exact Nat.zero_le _
  · have := @getD_add_getD_le_sum counts j 64 hj
    omega

/-- A repair round passes its checks. -/
theorem repair_round_ok (h : Kraft m i counts) (hm : m ≤ 256) (h12 : 12 ≤ i) (h64 : i < 64)
    (hpos : 0 < counts.getD i 0) : repair_round i counts = .ok (repair_step i counts) := by
  obtain ⟨hj1, hj2, hj3⟩ := h.donor hm h12 h64
  have htwo : 2 ≤ counts.getD i 0 := Nat.le_of_dvd hpos (h.two_dvd (by omega) h64)
  have hlen := h.length
  have hfind := find_donor_ok counts (i - 2) (by omega) hj1
  have hle := h.getD_le
  rw [repair_round, sub_ok (by omega), bind_ok, hfind, bind_ok, repair_step]
  generalize donor counts (i - 2) = j at *
  -- the four places in turn
  have h1 := @update_ok counts i (fun c => sub c 2) (· - 2) (by omega) (sub_ok htwo)
  have hget1 : ∀ k, (counts.modify i (· - 2)).getD k 0 ≤ 256 := fun k => by
    have := hle k
    rw [getD_modify _ _ _ _ (by omega)]
    split_ifs <;> omega
  have h2 := @update_ok (counts.modify i (· - 2)) (i - 1) (fun c => add 32 c 1) (· + 1)
    (by simp; omega)
    (add_ok (by have := hget1 (i - 1); omega))
  have hget2 : ∀ k, ((counts.modify i (· - 2)).modify (i - 1) (· + 1)).getD k 0 ≤ 257 := fun k => by
    have := hget1 k
    rw [getD_modify _ _ _ _ (by simp; omega)]
    split_ifs <;> omega
  have h3 := @update_ok ((counts.modify i (· - 2)).modify (i - 1) (· + 1)) (j + 1)
    (fun c => add 32 c 2) (· + 2) (by simp; omega) (add_ok (by have := hget2 (j + 1); omega))
  have h4 := @update_ok (((counts.modify i (· - 2)).modify (i - 1) (· + 1)).modify (j + 1) (· + 2))
    j
    (fun c => sub c 1) (· - 1) (by simp; omega) (sub_ok (by
      rw [getD_modify _ _ _ _ (by simp; omega), if_neg (by omega),
        getD_modify _ _ _ _ (by simp; omega), if_neg (by omega), getD_modify _ _ _ _ (by omega),
        if_neg (by omega)]
      exact hj3))
  rw [h1, bind_ok, sub_ok (by omega), bind_ok, h2, bind_ok, add_ok (by omega), bind_ok, h3, bind_ok,
    h4]

theorem repair_while_ok (h : Kraft m i counts) (hm : m ≤ 256) (h12 : 12 ≤ i) (h64 : i < 64) :
    repair_while counts i = .ok (repair_length i (counts.getD i 0) counts) := by
  have hrun : ∀ (n : Nat) (counts : List Nat), Kraft m i counts → counts.getD i 0 ≤ n →
      loop (fun counts => decide (0 < counts.getD i 0)) (repair_round i) n counts
        = .ok (repair_length i n counts) := by
    intro n
    induction n with
    | zero =>
      intro counts _ hn
      exact loop_of_not (by simpa using hn) 0
    | succ n ih =>
      intro counts h hn
      rw [repair_length]
      split_ifs with hpos
      · obtain ⟨hstep, hget⟩ := h.repair_step hm h12 h64 hpos
        rw [loop_succ_of (by simpa using hpos), repair_round_ok h hm h12 h64 hpos, bind_ok]
        exact ih _ hstep (by omega)
      · exact loop_of_not (by simpa using hpos) _
  have hi : i < counts.length := by rw [h.length]; exact h64
  rw [repair_while, get_ok hi, bind_ok, ← List.getD_eq_getElem _ 0]
  exact hrun _ counts h le_rfl

/-- The repair of all lengths above the limit passes its checks. -/
theorem limit_lengths_ok (hm : m ≤ 256) : ∀ (n : Nat) (counts : List Nat), MAX_CODE_LEN + n < 64 →
    Kraft m (MAX_CODE_LEN + n) counts →
    ((List.range' (MAX_CODE_LEN + 1) n).reverse).foldlM repair_while counts
      = .ok (((List.range' (MAX_CODE_LEN + 1) n).reverse).foldl
        (fun counts i => repair_length i (counts.getD i 0) counts) counts) := by
  intro n
  induction n with
  | zero => intro counts _ _; rfl
  | succ n ih =>
    intro counts h64 h
    have h11 : MAX_CODE_LEN = 11 := rfl
    have hi : MAX_CODE_LEN + 1 + n = MAX_CODE_LEN + (n + 1) := by omega
    rw [List.range'_concat, List.reverse_append, List.reverse_singleton, List.singleton_append,
      List.foldl_cons, List.foldlM_cons, Nat.one_mul, hi,
      repair_while_ok h hm (by omega) h64, bind_ok]
    refine ih _ (by omega) ?_
    have hstep := Kraft.repair_length hm (by omega) h64 _ counts le_rfl h
    rwa [show MAX_CODE_LEN + (n + 1) - 1 = MAX_CODE_LEN + n by omega] at hstep

end Counts

/-! ## The assignment -/

section Assign

variable {order : List Nat}

/-- The lengths are given out one by one. -/
theorem assign_lengths : ∀ (lens lengths : List Nat) (k : Nat), k + lens.length ≤ order.length →
    order.length < 2 ^ 64 → (∀ s ∈ order, s < lengths.length) →
    lens.foldlM (assign_length order) (lengths, k)
      = .ok (((order.drop k).zip lens).foldl (fun lengths c => lengths.set c.1 c.2) lengths,
        k + lens.length) := by
  intro lens
  induction lens with
  | nil =>
    intro lengths k _ _ _
    rw [List.zip_nil_right]
    rfl
  | cons len lens ih =>
    intro lengths k hk h64 hlt
    rw [List.length_cons] at hk ⊢
    have hkl : k < order.length := by omega
    rw [List.foldlM_cons, assign_length, get_ok hkl, bind_ok, set_ok (hlt _ (List.getElem_mem hkl)),
      bind_ok, add_ok (by dsimp only; omega), bind_ok, pure_eq_ok, bind_ok,
      ih _ _ (by omega) h64 (by simpa using hlt), List.drop_eq_getElem_cons hkl, List.zip_cons_cons,
      List.foldl_cons, Nat.add_assoc, Nat.add_comm 1]

/-- The counted loops go over the lengths in order. -/
theorem assign_counts (cs : List (Nat × Nat)) (st : List Nat × Nat) :
    cs.foldlM (fun s c => times (fun s => assign_length order s c.2) c.1 s) st
      = (cs.flatMap fun c => List.replicate c.1 c.2).foldlM (assign_length order) st := by
  have htimes : ∀ (n len : Nat) (st : List Nat × Nat), times (fun s => assign_length order s len) n
    st
      = (List.replicate n len).foldlM (assign_length order) st := by
    intro n len
    induction n with
    | zero => intro st; rfl
    | succ n ih =>
      intro st
      rw [times, List.replicate_succ, List.foldlM_cons]
      exact bind_congr fun st' => ih st'
  induction cs generalizing st with
  | nil => rfl
  | cons c cs ih =>
    rw [List.foldlM_cons, List.flatMap_cons, List.foldlM_append, htimes]
    exact bind_congr fun st' => ih st'

end Assign

/-- The tree is built, and the depths of its leaves are counted. -/
theorem build_tree_ok {freq present : List Nat} (h2 : 2 ≤ present.length)
    (h256 : present.length ≤ 256) (hlt : ∀ s ∈ present, s < freq.length)
    (hpos : ∀ w ∈ present.map fun s => freq.getD s 0, 1 ≤ w)
    (hsum : (present.map fun s => freq.getD s 0).sum < 2 ^ 40) :
    ∃ t, build_tree freq present = .ok t ∧
      (List.range present.length).foldlM (count_depth t.parent) (List.replicate 64 0, [])
        = .ok (tally (leaf_depths (present.map fun s => freq.getD s 0)) (List.replicate 64 0),
          leaf_depths (present.map fun s => freq.getD s 0)) := by
  have hfill := fill_weights (fun s => freq.getD s 0) freq present [] present.length
    fun s hs => ⟨hlt s hs, rfl⟩
  rw [List.nil_append, List.nil_append, List.length_nil, ← Nat.two_mul] at hfill
  have hwlen : (present.map fun s => freq.getD s 0).length = present.length := List.length_map _
  rw [build_tree, hfill, bind_ok]
  dsimp only
  rw [← hwlen, List.take_left]
  generalize (present.map fun s => freq.getD s 0) = ws at *
  rw [← hwlen] at h2 h256
  obtain ⟨hheap, hweights, -⟩ := leaf_heap_perm ws
  have hinit := initial_heap h256
  obtain ⟨t, hloop, hparent⟩ := merge_loop hinit (ws ++ List.replicate ws.length 0) ws.length
    (by rw [List.length_append, List.length_replicate, List.length_replicate]; omega)
    (by
      show ((leaf_heap ws).map Prod.fst).sum < 2 ^ 64
      rw [hweights.sum_eq]
      omega)
    (by show (leaf_heap ws).length ≤ _; omega)
  obtain ⟨hplen, hpin⟩ := merge_nodes_inside hinit fun v hv => Or.inl (List.eq_of_mem_replicate hv)
  rw [← hparent] at hplen hpin
  rw [← hplen] at hpin
  rw [List.length_replicate] at hplen
  obtain ⟨dep, hdep, -, hdepth⟩ := leaf_depths_eq (List.ne_nil_of_length_pos (by omega)) h256 hpos
  obtain ⟨-, h64, -⟩ := leaf_depths_spec (List.ne_nil_of_length_pos (by omega)) h256 hpos hsum
  have hcounts := count_depths hpin h256 (by omega) (fun i hi => by rw [hparent]; exact hdepth i hi)
    (fun i hi => h64 _ (by rw [hdep]; exact List.mem_map_of_mem (List.mem_range.mpr hi))) _ le_rfl
  rw [← hdep] at hcounts
  exact ⟨t, hloop, hcounts⟩

theorem limit_checked_ok {depth : List Nat} (h2 : 2 ≤ depth.length) (h256 : depth.length ≤ 256)
    (h64 : ∀ d ∈ depth, d < 64) (hsum : (depth.map fun d => 2 ^ (255 - d)).sum = 2 ^ 255) :
    limit_checked (tally depth (List.replicate 64 0)) depth = .ok (length_counts depth) := by
  have hlong := longest_lt h2 h64
  rw [limit_checked, max?_eq (List.ne_nil_of_length_pos (by omega)), unwrap_some, bind_ok,
    length_counts]
  split_ifs with h
  · exact limit_lengths_ok h256 _ _ (by omega) (tally_kraft h2 h64 hsum (by omega))
  · rfl

/-- `code_lengths` passes its checks. -/
theorem code_lengths_checked_ok {freq : List Nat} (h : Histogram freq) :
    code_lengths_checked freq = .ok (code_lengths freq) := by
  obtain ⟨h2, h256⟩ := h.present
  obtain ⟨hwsum, hwpos⟩ := h.weights
  obtain ⟨hdlen, hd64, hdsum⟩ := h.depths
  have hlens := (code_lens_spec h.counts).1
  have hperm := by_frequency_perm freq (present_symbols freq)
  have hmem := fun s => @mem_present_symbols freq s
  obtain ⟨t, htree, hcounts⟩ := build_tree_ok h2 h256
    (fun s hs => by rw [h.length]; exact ((hmem s).mp hs).1) hwpos hwsum
  have hlimit := limit_checked_ok (by omega) (by omega) hd64 hdsum
  have hassign := @assign_lengths (by_frequency freq (present_symbols freq))
    (code_lens (length_counts (symbol_depths freq))) (List.replicate 256 0) 0
    (by rw [hperm.length_eq, hlens, Nat.zero_add]) (by rw [hperm.length_eq]; omega) fun s hs => by
      rw [List.length_replicate]
      exact ((hmem s).mp (hperm.mem_iff.mp hs)).1
  rw [code_lengths_checked]
  show (assert (decide (2 ≤ (present_symbols freq).length)) >>= fun _ =>
    build_tree freq (present_symbols freq) >>= _) = _
  rw [assert_ok (decide_eq_true h2), bind_ok, htree, bind_ok]
  show ((List.range (present_symbols freq).length).foldlM _ _ >>= _) = _
  rw [hcounts, bind_ok]
  show (limit_checked (tally (symbol_depths freq) _) (symbol_depths freq) >>= _) = _
  rw [hlimit, bind_ok, assign_counts]
  show ((code_lens (length_counts (symbol_depths freq))).foldlM
    (assign_length (by_frequency freq (present_symbols freq))) _ >>= _) = _
  rw [hassign, bind_ok]
  dsimp only
  rw [assert_ok (by
    show (0 + _ == (present_symbols freq).length) = true
    rw [hlens, Nat.zero_add, beq_self_eq_true]), bind_ok, List.drop_zero, code_lengths_eq]
  rfl

/-! ## The lengths and their table -/

/-- Kraft's sum, in units of the longest code or as it is. -/
theorem kraft_sum_rat : ∀ (lengths : List Nat), (∀ l ∈ lengths, l ≤ MAX_CODE_LEN) →
    (lengths.map fun l => if l = 0 then (0 : ℚ) else 1 / 2 ^ l).sum
      = ((lengths.map (code_share MAX_CODE_LEN)).sum : ℚ) / 2 ^ MAX_CODE_LEN := by
  intro lengths
  induction lengths with
  | nil => intro _; simp
  | cons l lengths ih =>
    intro h
    obtain ⟨hl, hrest⟩ := List.forall_mem_cons.mp h
    rw [List.map_cons, List.sum_cons, ih hrest, List.map_cons, List.sum_cons, Nat.cast_add, add_div]
    congr 1
    rw [code_share]
    split_ifs with h0
    · rw [Nat.cast_zero, zero_div]
    · rw [Nat.cast_pow, Nat.cast_ofNat, eq_div_iff (by positivity), one_div, mul_comm,
        ← div_eq_mul_inv, div_eq_iff (by positivity), ← pow_add, Nat.sub_add_cancel hl]

theorem CodeLengths.mem_le {freq lengths : List Nat} (h : CodeLengths freq lengths) :
    ∀ l ∈ lengths, l ≤ MAX_CODE_LEN := fun l hl => by
  obtain ⟨s, hs, rfl⟩ := List.mem_iff_getElem.mp hl
  rw [← List.getD_eq_getElem _ 0]
  exact h.le s

theorem CodeLengths.complete {freq lengths : List Nat} (h : CodeLengths freq lengths) :
    CompleteCode MAX_CODE_LEN lengths :=
  ⟨h.length, by decide, h.mem_le, h.kraft⟩

theorem Histogram.of_u32 {freq : List Nat} (hlen : freq.length = 256)
    (hu32 : ∀ c ∈ freq, c < 2 ^ 32) (h2 : 2 ≤ freq.countP (0 < ·)) : Histogram freq := by
  refine ⟨hlen, ?_, h2⟩
  have hle := List.sum_le_card_nsmul freq (2 ^ 32 - 1) fun c hc => by
    have := hu32 c hc
    omega
  rw [hlen, smul_eq_mul] at hle
  omega

/-- For every histogram of at least two symbols `code_lengths` passes all its checks; the depths
stay below 64, just the present symbols have a length, none is above the limit, the code is
complete, and a more frequent symbol has no longer code. So there is a table with codes of these
lengths. -/
theorem code_lengths_complete (freq : List Nat) (hlen : freq.length = 256)
    (hu32 : ∀ c ∈ freq, c < 2 ^ 32) (h2 : 2 ≤ freq.countP (0 < ·)) :
    code_lengths_checked freq = .ok (code_lengths freq) ∧
      (∀ d ∈ symbol_depths freq, d < 64) ∧
      (code_lengths freq).length = 256 ∧
      (∀ s, 0 < (code_lengths freq).getD s 0 ↔ 0 < freq.getD s 0) ∧
      (∀ s, (code_lengths freq).getD s 0 ≤ 11) ∧
      ((code_lengths freq).map fun l => if l = 0 then (0 : ℚ) else 1 / 2 ^ l).sum = 1 ∧
      (∀ s s', 0 < freq.getD s' 0 → freq.getD s' 0 < freq.getD s 0 →
        (code_lengths freq).getD s 0 ≤ (code_lengths freq).getD s' 0) ∧
      ∃ ct t, build_code_table (code_lengths freq) = .ok ct ∧ SameCodes ct t ∧
        ∀ s : UInt8, ct.nbits.getD s.toNat 0 = (code_lengths freq).getD s.toNat 0 := by
  have h := Histogram.of_u32 hlen hu32 h2
  have hspec := code_lengths_spec h
  obtain ⟨ct, t, hbuild, hsame, -, hnbits⟩ := hspec.complete.build
  refine ⟨code_lengths_checked_ok h, h.depths.2.1, hspec.length, hspec.present, hspec.le, ?_,
    hspec.frequent, ct, t, hbuild, hsame, hnbits⟩
  rw [kraft_sum_rat _ hspec.mem_le, hspec.complete.kraft, Nat.cast_pow, Nat.cast_ofNat,
    div_self (by positivity)]

/-- `code_lengths_complete` for a histogram whose tree is two levels deeper than the limit. -/
theorem code_lengths_complete_deep :
    let freq := [1, 1, 2, 3, 5, 8, 13, 21, 34, 55, 89, 144, 233, 377] ++ List.replicate 242 0
    13 ∈ symbol_depths freq ∧ code_lengths_checked freq = .ok (code_lengths freq) ∧
      (∀ s, (code_lengths freq).getD s 0 ≤ 11) ∧
      ((code_lengths freq).map fun l => if l = 0 then (0 : ℚ) else 1 / 2 ^ l).sum = 1 := by
  intro freq
  obtain ⟨hok, -, -, -, hle, hkraft, -⟩ := code_lengths_complete freq (by decide +kernel)
    (by decide +kernel) (by decide +kernel)
  exact ⟨by decide +kernel, hok, hle, hkraft⟩

end ZstdPure.Encode
