import ZstdPure.Encode.Opt

/-!
# Proofs: the reduction of the candidates to their frontier

The reduction keeps a candidate exactly when no candidate at least as long has an offset at most its
own, so the least offset for each length stays what it was.
-/

namespace ZstdPure.Encode

/-- The order of the sort: longest first, then the smaller offset first. -/
def Longer (a b : Nat × Nat) : Prop := b.1 < a.1 ∨ a.1 = b.1 ∧ a.2 ≤ b.2

/-- The order of the frontier: both the length and the offset go down. -/
def Descends (a b : Nat × Nat) : Prop := b.1 < a.1 ∧ b.2 < a.2

/-- The candidates as the reduction sorts them. -/
def sort_cands (cands : List (Nat × Nat)) : List (Nat × Nat) :=
  cands.mergeSort fun a b => decide (b.1 < a.1 ∨ a.1 = b.1 ∧ a.2 ≤ b.2)

theorem sort_cands_perm (cands : List (Nat × Nat)) : (sort_cands cands).Perm cands :=
  List.mergeSort_perm _ _

theorem sort_cands_pairwise (cands : List (Nat × Nat)) : (sort_cands cands).Pairwise Longer := by
  have h := @List.pairwise_mergeSort _
    (fun a b : Nat × Nat => decide (b.1 < a.1 ∨ a.1 = b.1 ∧ a.2 ≤ b.2)) (by
      intro a b c hab hbc
      rw [decide_eq_true_iff] at hab hbc ⊢
      omega) (by
      intro a b
      rw [Bool.or_eq_true, decide_eq_true_iff, decide_eq_true_iff]
      omega) cands
  exact h.imp fun hab => of_decide_eq_true hab

/-! ## The compacting pass -/

section Compact

variable {m : Nat} {cands : List (Nat × Nat)}

theorem strict_offsets_sublist (m : Nat) (cands : List (Nat × Nat)) :
    (strict_offsets m cands).Sublist cands := by
  induction cands generalizing m with
  | nil => exact List.Sublist.refl _
  | cons c cands ih =>
    unfold strict_offsets
    split_ifs
    · exact (ih c.2).cons_cons c
    · exact (ih m).cons c

theorem strict_offsets_lt : ∀ c ∈ strict_offsets m cands, c.2 < m := by
  induction cands generalizing m with
  | nil => intro c hc; exact absurd hc List.not_mem_nil
  | cons d cands ih =>
    intro c hc
    unfold strict_offsets at hc
    split_ifs at hc with hd
    · rcases List.mem_cons.mp hc with rfl | hc
      · exact hd
      · exact lt_trans (ih c hc) hd
    · exact ih c hc

/-- Of sorted candidates, those kept go down in length and in offset. -/
theorem strict_offsets_pairwise (h : cands.Pairwise Longer) :
    (strict_offsets m cands).Pairwise Descends := by
  induction cands generalizing m with
  | nil => exact List.Pairwise.nil
  | cons d cands ih =>
    obtain ⟨hd, hrest⟩ := List.pairwise_cons.mp h
    unfold strict_offsets
    split_ifs
    · refine List.pairwise_cons.mpr ⟨?_, ih hrest⟩
      intro c hc
      have hlt := strict_offsets_lt c hc
      rcases hd c ((strict_offsets_sublist d.2 cands).subset hc) with hlen | ⟨_, hle⟩
      · exact ⟨hlen, hlt⟩
      · omega
    · exact ih hrest

/-- Of sorted candidates, each one below the least offset so far is covered by one kept. -/
theorem strict_offsets_cover (h : cands.Pairwise Longer) :
    ∀ c ∈ cands, c.2 < m → ∃ d ∈ strict_offsets m cands, c.1 ≤ d.1 ∧ d.2 ≤ c.2 := by
  induction cands generalizing m with
  | nil => intro c hc; exact absurd hc List.not_mem_nil
  | cons e cands ih =>
    obtain ⟨he, hrest⟩ := List.pairwise_cons.mp h
    intro c hc hm
    unfold strict_offsets
    split_ifs with hkeep
    · rcases List.mem_cons.mp hc with rfl | hc
      · exact ⟨c, List.mem_cons_self, le_refl _, le_refl _⟩
      · rcases Nat.lt_or_ge c.2 e.2 with hlt | hge
        · obtain ⟨d, hd, hcover⟩ := ih hrest c hc hlt
          exact ⟨d, List.mem_cons_of_mem e hd, hcover⟩
        · have hlonger := he c hc
          unfold Longer at hlonger
          exact ⟨e, List.mem_cons_self, by omega, hge⟩
    · rcases List.mem_cons.mp hc with rfl | hc
      · exact absurd hm hkeep
      · exact ih hrest c hc hm

/-- Candidates that already go down are all kept. -/
theorem strict_offsets_of_pairwise (h : cands.Pairwise Descends) (hm : ∀ c ∈ cands, c.2 < m) :
    strict_offsets m cands = cands := by
  induction cands generalizing m with
  | nil => rfl
  | cons d cands ih =>
    obtain ⟨hd, hrest⟩ := List.pairwise_cons.mp h
    rw [strict_offsets, if_pos (hm d List.mem_cons_self), ih hrest fun c hc => (hd c hc).2]

end Compact

/-! ## The pass in place -/

/-- One iteration of the compacting pass as the code makes it: the list, where the next candidate
kept is written, and the least offset so far. -/
def compact_step (s : List (Nat × Nat) × Nat × Nat) (r : Nat) : List (Nat × Nat) × Nat × Nat :=
  let c := s.1.getD r (0, 0)
  if c.2 < s.2.2 then (s.1.set s.2.1 c, s.2.1 + 1, c.2) else s

/-- `reduce_to_frontier` with its compacting pass in place. -/
def reduce_in_place (cands : List (Nat × Nat)) : List (Nat × Nat) :=
  if cands.length < 2 then cands
  else
    let s := (List.range cands.length).foldl compact_step (sort_cands cands, 0, 2 ^ 32 - 1)
    (s.1.take s.2.1).reverse

/-- What the first `r` iterations have kept, before what the rest will keep, is what the whole pass
keeps; the candidates not read yet are untouched. -/
structure Compacting (cands : List (Nat × Nat)) (m r : Nat) (s : List (Nat × Nat) × Nat × Nat) :
    Prop where
  length : s.1.length = cands.length
  write_le : s.2.1 ≤ r
  unread : s.1.drop r = cands.drop r
  kept : s.1.take s.2.1 ++ strict_offsets s.2.2 (cands.drop r) = strict_offsets m cands

theorem Compacting.step {cands : List (Nat × Nat)} {m r : Nat} {s : List (Nat × Nat) × Nat × Nat}
    (h : Compacting cands m r s) (hr : r < cands.length) :
    Compacting cands m (r + 1) (compact_step s r) := by
  obtain ⟨hlength, hwrite, hunread, hkept⟩ := h
  have hdrop : cands.drop r = cands[r] :: cands.drop (r + 1) := List.drop_eq_getElem_cons hr
  have hread : s.1.getD r (0, 0) = cands[r] := by
    have hhead := congrArg List.head? hunread
    rw [List.head?_drop, List.head?_drop, List.getElem?_eq_getElem hr] at hhead
    rw [List.getD, hhead]
    rfl
  have hnext : s.1.drop (r + 1) = cands.drop (r + 1) := by
    rw [← List.drop_drop, hunread, List.drop_drop]
  rw [hdrop, strict_offsets] at hkept
  unfold compact_step
  rw [hread]
  dsimp only
  split_ifs with hlt
  · rw [if_pos hlt] at hkept
    have hin : s.2.1 < s.1.length := by omega
    refine ⟨?_, ?_, ?_, ?_⟩
    · rw [List.length_set, hlength]
    · exact Nat.succ_le_succ hwrite
    · rw [List.drop_set_of_lt (by omega), hnext]
    · show (s.1.set s.2.1 cands[r]).take (s.2.1 + 1) ++ _ = _
      rw [List.take_succ_eq_append_getElem (by rw [List.length_set]; exact hin),
        List.take_set_of_le (le_refl _), List.getElem_set_self, List.append_assoc]
      exact hkept
  · rw [if_neg hlt] at hkept
    exact ⟨hlength, by omega, hnext, hkept⟩

theorem compact_eq (cands : List (Nat × Nat)) (m r : Nat) (hr : r ≤ cands.length) :
    Compacting cands m r ((List.range r).foldl compact_step (cands, 0, m)) := by
  induction r with
  | zero => exact ⟨rfl, le_refl 0, rfl, rfl⟩
  | succ r ih =>
    rw [List.range_succ, List.foldl_append]
    exact (ih (by omega)).step hr

/-- The pass in place reduces to the same frontier. -/
theorem reduce_in_place_eq (cands : List (Nat × Nat)) :
    reduce_in_place cands = reduce_to_frontier cands := by
  unfold reduce_in_place reduce_to_frontier
  split_ifs
  · rfl
  · have hlen : (sort_cands cands).length = cands.length := (sort_cands_perm cands).length_eq
    have h := compact_eq (sort_cands cands) (2 ^ 32 - 1) cands.length (le_of_eq hlen.symm)
    have hkept := h.kept
    rw [List.drop_of_length_le (le_of_eq hlen), strict_offsets, List.append_nil] at hkept
    dsimp only
    rw [hkept]
    rfl

/-! ## The frontier -/

/-- The least offset among the candidates of length `len` or more, if there is one. -/
def least_offset (len : Nat) (cands : List (Nat × Nat)) : Option Nat :=
  ((cands.filter fun c => decide (len ≤ c.1)).map Prod.snd).min?

theorem least_offset_eq_some {len v : Nat} {cands : List (Nat × Nat)} :
    least_offset len cands = some v ↔
      (∃ c ∈ cands, len ≤ c.1 ∧ c.2 = v) ∧ ∀ c ∈ cands, len ≤ c.1 → v ≤ c.2 := by
  unfold least_offset
  rw [List.min?_eq_some_iff]
  constructor
  · rintro ⟨hmem, hle⟩
    obtain ⟨c, hc, rfl⟩ := List.mem_map.mp hmem
    obtain ⟨hc, hlen⟩ := List.mem_filter.mp hc
    refine ⟨⟨c, hc, of_decide_eq_true hlen, rfl⟩, ?_⟩
    intro d hd hdlen
    exact hle _ (List.mem_map_of_mem (List.mem_filter.mpr ⟨hd, decide_eq_true hdlen⟩))
  · rintro ⟨⟨c, hc, hlen, rfl⟩, hle⟩
    refine ⟨List.mem_map_of_mem (List.mem_filter.mpr ⟨hc, decide_eq_true hlen⟩), ?_⟩
    intro v hv
    obtain ⟨d, hd, rfl⟩ := List.mem_map.mp hv
    obtain ⟨hd, hdlen⟩ := List.mem_filter.mp hd
    exact hle d hd (of_decide_eq_true hdlen)

/-- Candidates that are among others and cover them have the same least offsets. -/
theorem least_offset_of_cover {cands kept : List (Nat × Nat)} (hsub : kept ⊆ cands)
    (hcover : ∀ c ∈ cands, ∃ d ∈ kept, c.1 ≤ d.1 ∧ d.2 ≤ c.2) (len : Nat) :
    least_offset len kept = least_offset len cands := by
  apply Option.ext
  intro v
  rw [least_offset_eq_some, least_offset_eq_some]
  constructor
  · rintro ⟨⟨c, hc, hlen, rfl⟩, hle⟩
    refine ⟨⟨c, hsub hc, hlen, rfl⟩, ?_⟩
    intro d hd hdlen
    obtain ⟨e, he, h1, h2⟩ := hcover d hd
    exact (hle e he (hdlen.trans h1)).trans h2
  · rintro ⟨⟨c, hc, hlen, rfl⟩, hle⟩
    obtain ⟨e, he, h1, h2⟩ := hcover c hc
    refine ⟨⟨e, he, hlen.trans h1, le_antisymm h2 (hle e (hsub he) (hlen.trans h1))⟩, ?_⟩
    intro d hd hdlen
    exact hle d (hsub hd) hdlen

section Frontier

variable {cands : List (Nat × Nat)}

theorem reduce_to_frontier_of_long (h : 2 ≤ cands.length) :
    reduce_to_frontier cands = (strict_offsets (2 ^ 32 - 1) (sort_cands cands)).reverse := by
  rw [reduce_to_frontier, if_neg (by omega)]
  rfl

theorem pairwise_of_short {R : Nat × Nat → Nat × Nat → Prop} (h : cands.length < 2) :
    cands.Pairwise R := by
  match cands, h with
  | [], _ => exact List.Pairwise.nil
  | [c], _ => exact List.pairwise_singleton R c

theorem reduce_subperm (cands : List (Nat × Nat)) : (reduce_to_frontier cands).Subperm cands := by
  rcases Nat.lt_or_ge cands.length 2 with h | h
  · rw [reduce_to_frontier, if_pos h]
  · rw [reduce_to_frontier_of_long h]
    exact ((List.reverse_perm _).subperm.trans (strict_offsets_sublist _ _).subperm).trans
      (sort_cands_perm cands).subperm

theorem reduce_pairwise (cands : List (Nat × Nat)) :
    (reduce_to_frontier cands).Pairwise fun a b => a.1 < b.1 ∧ a.2 < b.2 := by
  rcases Nat.lt_or_ge cands.length 2 with h | h
  · rw [reduce_to_frontier, if_pos h]
    exact pairwise_of_short h
  · rw [reduce_to_frontier_of_long h]
    exact List.pairwise_reverse.mpr (strict_offsets_pairwise (sort_cands_pairwise cands))

theorem reduce_cover (hoff : ∀ c ∈ cands, c.2 < 2 ^ 32 - 1) :
    ∀ c ∈ cands, ∃ d ∈ reduce_to_frontier cands, c.1 ≤ d.1 ∧ d.2 ≤ c.2 := by
  intro c hc
  rcases Nat.lt_or_ge cands.length 2 with h | h
  · rw [reduce_to_frontier, if_pos h]
    exact ⟨c, hc, le_refl _, le_refl _⟩
  · rw [reduce_to_frontier_of_long h]
    obtain ⟨d, hd, hcover⟩ := strict_offsets_cover (sort_cands_pairwise cands) c
      ((sort_cands_perm cands).mem_iff.mpr hc) (hoff c hc)
    exact ⟨d, List.mem_reverse.mpr hd, hcover⟩

/-- Candidates that already go up are reduced to themselves. -/
theorem reduce_of_pairwise (h : cands.Pairwise fun a b => a.1 < b.1 ∧ a.2 < b.2)
    (hoff : ∀ c ∈ cands, c.2 < 2 ^ 32 - 1) : reduce_to_frontier cands = cands := by
  rcases Nat.lt_or_ge cands.length 2 with hlen | hlen
  · rw [reduce_to_frontier, if_pos hlen]
  · have hdown : cands.reverse.Pairwise Descends := List.pairwise_reverse.mpr h
    have hsort : sort_cands cands = cands.reverse := by
      refine ((sort_cands_perm cands).trans (List.reverse_perm cands).symm).eq_of_pairwise ?_
        (sort_cands_pairwise cands) (hdown.imp fun hab => Or.inl hab.1)
      intro a b _ _ hab hba
      unfold Longer at hab hba
      exact Prod.ext (by omega) (by omega)
    rw [reduce_to_frontier_of_long hlen, hsort, strict_offsets_of_pairwise hdown,
      List.reverse_reverse]
    intro c hc
    exact hoff c (List.mem_reverse.mp hc)

end Frontier

/-- The reduction keeps some of the candidates, going up in length and in offset, with the least
offset of every length; reducing again changes nothing. -/
theorem reduce_to_frontier_spec (cands : List (Nat × Nat)) (hoff : ∀ c ∈ cands, c.2 < 2 ^ 32 - 1) :
    (reduce_to_frontier cands).Subperm cands ∧
    (reduce_to_frontier cands).Pairwise (fun a b => a.1 < b.1 ∧ a.2 < b.2) ∧
    (∀ len, least_offset len (reduce_to_frontier cands) = least_offset len cands) ∧
    reduce_to_frontier (reduce_to_frontier cands) = reduce_to_frontier cands := by
  have hsub := reduce_subperm cands
  refine ⟨hsub, reduce_pairwise cands, ?_, ?_⟩
  · exact least_offset_of_cover hsub.subset (reduce_cover hoff)
  · exact reduce_of_pairwise (reduce_pairwise cands) fun c hc => hoff c (hsub.subset hc)

/-- Ties in either coordinate, and candidates that longer ones cover. -/
theorem reduce_to_frontier_spec_ties :
    let cands : List (Nat × Nat) := [(8, 50), (8, 80), (6, 10), (5, 100), (6, 10), (4, 5)]
    (reduce_to_frontier cands).Subperm cands ∧
    (reduce_to_frontier cands).Pairwise (fun a b => a.1 < b.1 ∧ a.2 < b.2) ∧
    (∀ len, least_offset len (reduce_to_frontier cands) = least_offset len cands) ∧
    reduce_to_frontier (reduce_to_frontier cands) = reduce_to_frontier cands :=
  reduce_to_frontier_spec _ (by decide)

end ZstdPure.Encode
