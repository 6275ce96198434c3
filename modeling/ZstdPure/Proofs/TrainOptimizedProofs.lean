import ZstdPure.Lib.ArgMin
import ZstdPure.Proofs.RoundTripProofs
import ZstdPure.Proofs.TrainStructuredProofs

/-!
# Proofs: the search for training parameters

The search returns the first dictionary of its grid under which the samples compress to the fewest
bytes. -/

namespace ZstdPure.Encode.Train

open Outcome

variable {samples : List Bytes} {max_size : Nat}

/-! ## The score -/

theorem length_compress_with_dict_le (data : Bytes) (d : Dictionary) (level : Int)
    (checksum m : Bool) :
    (compress_with_dict data d level checksum m).length ≤ 4 * data.length + 25 := by
  unfold compress_with_dict
  dsimp only
  generalize params_for_level_with_dict level data.length d.content.length = params
  generalize (⟨(Finder.new params).prime asI32 (d.content ++ data) d.content.length
    (2 ^ params.window_log),
    none, dict_state d⟩ : Session) = s
  have hmagic := length_magic_bytes_le m
  have hheader := length_write_frame_header_le data.length checksum params.window_log d.id
  have hcheck := length_checksum_bytes_le checksum data
  have hblocks := length_frame_blocks_mul (regular_env params) (d.content ++ data) d.content.length
    s
  rw [@List.length_append _ d.content, Nat.add_sub_cancel_left] at hblocks
  rw [List.length_append, List.length_append, List.length_append]
  omega

/-- The samples are too few for their score to reach the one that the search starts from. -/
theorem corpus_score_lt (hs : samples.flatten.length < 2 ^ 32) (content : Bytes) :
    corpus_score samples content < 2 ^ 64 - 1 := by
  have hle : corpus_score samples content ≤ 29 * samples.flatten.length := by
    unfold corpus_score
    dsimp only
    clear hs
    induction samples with
    | nil => exact Nat.zero_le _
    | cons s samples ih =>
      rw [List.flatten_cons, List.length_append]
      cases hempty : s.isEmpty with
      | true =>
        rw [List.filter_cons_of_neg (by simp [hempty])]
        omega
      | false =>
        have hpos := List.length_pos_of_ne_nil (List.isEmpty_eq_false_iff.mp hempty)
        have hlen := length_compress_with_dict_le s (Dictionary.raw content) OPTIMIZE_SCORE_LEVEL
          false true
        rw [List.filter_cons_of_pos (by simp [hempty]), List.map_cons, List.sum_cons]
        omega
  omega

/-! ## The search -/

/-- The dictionaries that were trained for some of the parameters. -/
def Trained (samples : List Bytes) (max_size : Nat) (kds : List (Nat × Nat))
    (contents : List Bytes) :
    Prop :=
  List.Forall₂ (fun kd content => train_cover samples max_size kd.1 kd.2 = .ok content) kds contents

/-- The dictionaries that are not empty. -/
def useful (contents : List Bytes) : List Bytes := contents.filter fun c => !c.isEmpty

theorem mem_useful {contents : List Bytes} {c : Bytes} : c ∈ useful contents ↔ c ∈ contents ∧
    c ≠ [] := by
  rw [useful, List.mem_filter, Bool.not_eq_true', List.isEmpty_eq_false_iff]

/-- One round of the search. -/
theorem consider_trained {best : Option Bytes × Nat} {kd : Nat × Nat} {content : Bytes}
    (h : train_cover samples max_size kd.1 kd.2 = .ok content) :
    consider samples max_size best kd =
      .ok ((useful [content]).foldl (keep_smaller (corpus_score samples)) best) := by
  rw [consider, h, bind_ok]
  cases hempty : content.isEmpty with
  | true =>
    rw [useful, List.filter_cons_of_neg (by simp [hempty])]
    rfl
  | false =>
    rw [useful, List.filter_cons_of_pos (by simp [hempty]), List.filter_nil, List.foldl_cons,
      List.foldl_nil,
      keep_smaller, if_neg Bool.false_ne_true]
    dsimp only
    split_ifs <;> rfl

/-- All rounds. -/
theorem foldlM_consider {kds : List (Nat × Nat)} {contents : List Bytes}
    (h : Trained samples max_size kds contents)
    (best : Option Bytes × Nat) : kds.foldlM (consider samples max_size) best =
      .ok ((useful contents).foldl (keep_smaller (corpus_score samples)) best) := by
  induction h generalizing best with
  | nil => rfl
  | @cons kd content kds contents hkd _ ih =>
    have hsplit : useful (content :: contents) = useful [content] ++ useful contents := by
      rw [useful, useful, useful, ← List.filter_append, List.singleton_append]
    rw [List.foldlM_cons, consider_trained hkd, bind_ok, ih, hsplit, List.foldl_append]

theorem grid_range {kd : Nat × Nat} (h : kd ∈ grid) : 1 ≤ kd.2 ∧ kd.2 ≤ 8 := by
  revert kd
  decide

/-- Every point of the grid trains a dictionary. -/
theorem grid_trained (hs : samples.flatten.length < 2 ^ 32) :
    ∃ contents, Trained samples max_size grid contents ∧ ∀ c ∈ contents, c.length ≤ max_size := by
  suffices h : ∀ kds : List (Nat × Nat), (∀ kd ∈ kds, kd ∈ grid) → ∃ contents,
      Trained samples max_size kds contents ∧ ∀ c ∈ contents, c.length ≤ max_size from h grid fun _
        h => h
  intro kds hgrid
  induction kds with
  | nil => exact ⟨[], .nil, fun c hc => absurd hc List.not_mem_nil⟩
  | cons kd kds ih =>
    obtain ⟨contents, htrained, hlen⟩ := ih fun p hp => hgrid p (List.mem_cons_of_mem _ hp)
    obtain ⟨h1, h8⟩ := grid_range (hgrid kd List.mem_cons_self)
    have hfit : CountersFit samples kd.2 (segment_len samples kd.1 kd.2) max_size :=
      countersFit_of_total h1 h8 hs
    obtain ⟨content, hcontent, hle⟩ := train_cover_returns h1 h8 hfit
    refine ⟨content :: contents, .cons hcontent htrained, ?_⟩
    intro c hc
    rcases List.mem_cons.mp hc with rfl | hc
    · exact hle
    · exact hlen c hc

theorem Trained.mem {kds : List (Nat × Nat)} {contents : List Bytes}
    (h : Trained samples max_size kds contents)
    {kd : Nat × Nat} (hkd : kd ∈ kds) {content : Bytes}
    (hcontent : train_cover samples max_size kd.1 kd.2 = .ok content) : content ∈ contents := by
  induction h with
  | nil => exact absurd hkd List.not_mem_nil
  | cons hok _ ih =>
    rcases List.mem_cons.mp hkd with rfl | hkd
    · rw [Except.ok.inj (hcontent.symm.trans hok)]
      exact List.mem_cons_self
    · exact List.mem_cons_of_mem _ (ih hkd)

/-- The search, as a minimum. -/
theorem train_dictionary_optimized_eq (hs : samples.flatten.length < 2 ^ 32) {contents : List Bytes}
    (htrained : Trained samples max_size grid contents) (hlen : ∀ c ∈ contents,
      c.length ≤ max_size) :
    train_dictionary_optimized samples max_size =
      .ok (((useful contents).argmin (corpus_score samples)).getD []) := by
  unfold train_dictionary_optimized
  by_cases hzero : max_size = 0
  · have hnone : useful contents = [] := by
      refine List.eq_nil_iff_forall_not_mem.mpr fun c hc => ?_
      obtain ⟨hmem, hne⟩ := mem_useful.mp hc
      exact hne (List.eq_nil_of_length_eq_zero (by have := hlen c hmem; omega))
    rw [if_pos hzero, hnone]
    rfl
  · rw [if_neg hzero, foldlM_consider htrained, foldl_keep_smaller fun c _ => corpus_score_lt hs c,
      bind_ok]
    cases hbest : (useful contents).argmin (corpus_score samples) with
    | some c => rfl
    | none =>
      -- the default parameters are on the grid, so they have no more to offer
      obtain ⟨content, hcontent, -⟩ := @train_dictionary_returns samples max_size hs
      have hmem := htrained.mem (by decide : (DEFAULT_SEGMENT, DEFAULT_D) ∈ grid) hcontent
      have hempty : content = [] := by
        by_contra hne
        have huseful := mem_useful.mpr ⟨hmem, hne⟩
        rw [List.argmin_eq_none.mp hbest] at huseful
        exact List.not_mem_nil huseful
      show train_dictionary samples max_size = _
      rw [hcontent, hempty]
      rfl

/-- The search ends, and returns the first of the dictionaries on the grid under which the samples
compress to the fewest bytes. It is never worse than the dictionary of the default parameters. -/
theorem train_dictionary_optimized_best (hs : samples.flatten.length < 2 ^ 32) :
    ∃ contents out, Trained samples max_size grid contents ∧
      train_dictionary_optimized samples max_size = .ok out ∧ out.length ≤ max_size ∧
      out = ((useful contents).argmin (corpus_score samples)).getD [] ∧
      ∀ content, train_dictionary samples max_size = .ok content → content ≠ [] →
        out ≠ [] ∧ corpus_score samples out ≤ corpus_score samples content := by
  obtain ⟨contents, htrained, hlen⟩ := @grid_trained samples max_size hs
  refine ⟨contents, _, htrained, train_dictionary_optimized_eq hs htrained hlen, ?_, rfl, ?_⟩
  · cases hbest : (useful contents).argmin (corpus_score samples) with
    | none => exact Nat.zero_le _
    | some c => exact hlen c (mem_useful.mp (List.argmin_mem hbest)).1
  · intro content hcontent hne
    have huseful := mem_useful.mpr
      ⟨htrained.mem (by decide : (DEFAULT_SEGMENT, DEFAULT_D) ∈ grid) hcontent, hne⟩
    cases hbest : (useful contents).argmin (corpus_score samples) with
    | none =>
      rw [List.argmin_eq_none.mp hbest] at huseful
      exact absurd huseful List.not_mem_nil
    | some c => exact ⟨(mem_useful.mp (List.argmin_mem hbest)).2,
        List.le_of_mem_argmin huseful hbest⟩

/-- Samples that share a few bytes. -/
theorem train_dictionary_optimized_best_two :
    let samples : List Bytes := [[1, 2, 3, 4, 5, 6, 7, 8], [0, 1, 2, 3, 4, 5, 6, 7]]
    ∃ contents out, Trained samples 16 grid contents ∧ train_dictionary_optimized samples 16 =
      .ok out ∧
      out.length ≤ 16 ∧ out = ((useful contents).argmin (corpus_score samples)).getD [] ∧
      ∀ content, train_dictionary samples 16 = .ok content → content ≠ [] →
        out ≠ [] ∧ corpus_score samples out ≤ corpus_score samples content :=
  train_dictionary_optimized_best (by decide)

end ZstdPure.Encode.Train
