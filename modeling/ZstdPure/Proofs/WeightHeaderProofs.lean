import ZstdPure.Proofs.CodeTableProofs
import ZstdPure.Proofs.HuffLengthsProofs
import ZstdPure.Proofs.NCountProofs
import ZstdPure.Proofs.NormalizeProofs
import ZstdPure.Proofs.TwoStateProofs

/-!
# The description of a Huffman table

Both forms of the weight header, four bits a weight and FSE-compressed, give the decoder the weights
that the table was built from.
-/

namespace ZstdPure.Encode

open Outcome Huff Fse Tally

/-! ## Four bits a weight -/

theorem pack_weights_spec (ws : List Nat) (h16 : ∀ w ∈ ws, w < 16) :
    (pack_weights ws).length = (ws.length + 1) / 2 ∧
      ∀ i (h : i < ws.length), ∃ b : UInt8, (pack_weights ws)[i / 2]? = some b ∧
        (if i % 2 = 0 then b.toNat / 16 else b.toNat % 16) = ws[i] := by
  induction ws using pack_weights.induct with
  | case1 =>
    rw [pack_weights]
    exact ⟨by simp, fun i h => absurd h (Nat.not_lt_zero _)⟩
  | case2 hi =>
    have hlt := h16 hi (by simp)
    rw [pack_weights]
    refine ⟨by simp, fun i h => ⟨UInt8.ofNat (hi <<< 4), ?_, ?_⟩⟩
    · rw [List.length_singleton] at h
      rw [show i / 2 = 0 by omega]
      rfl
    · obtain rfl : i = 0 := by rw [List.length_singleton] at h; omega
      rw [if_pos rfl, UInt8.toNat_ofNat', Nat.shiftLeft_eq, List.getElem_cons_zero]
      omega
  | case3 hi lo rest ih =>
    have hhi := h16 hi (by simp)
    have hlo := h16 lo (by simp)
    obtain ⟨hlen, hget⟩ := ih fun w hw => h16 w (by simp [hw])
    have hbyte : (UInt8.ofNat (hi <<< 4 ||| lo)).toNat = lo + hi * 16 := by
      rw [Nat.lor_comm, lor_shl_eq_add hi 4 hlo, UInt8.toNat_ofNat']
      omega
    refine ⟨?_, fun i h => ?_⟩
    · rw [pack_weights, List.length_cons, hlen, List.length_cons, List.length_cons]
      omega
    · rw [pack_weights]
      match i, h with
      | 0, _ => exact ⟨_, rfl, by rw [if_pos rfl, hbyte, List.getElem_cons_zero]; omega⟩
      | 1, _ =>
        refine ⟨_, rfl, ?_⟩
        rw [if_neg (by decide), hbyte, List.getElem_cons_succ, List.getElem_cons_zero]
        omega
      | i + 2, h =>
        obtain ⟨b, hb, hval⟩ := hget i (by simpa using h)
        refine ⟨b, ?_, ?_⟩
        · rw [show (i + 2) / 2 = i / 2 + 1 by omega, List.getElem?_cons_succ]
          exact hb
        · rw [show (i + 2) % 2 = i % 2 by omega]
          simpa using hval

/-- The direct form is read back. -/
theorem direct_weights_pack (ws : List Nat) (h16 : ∀ w ∈ ws, w < 16) (b : UInt8) (rest : Bytes) :
    direct_weights (b :: (pack_weights ws ++ rest)) ws.length = .ok ws := by
  obtain ⟨hlen, hget⟩ := pack_weights_spec ws h16
  rw [direct_weights]
  refine mapM_eq_ok.mpr (List.forall₂_iff_get.mpr ⟨List.length_range, fun i h1 h2 => ?_⟩)
  rw [List.length_range] at h1
  obtain ⟨c, hc, hval⟩ := hget i h1
  obtain ⟨hlt, hc⟩ := List.getElem?_eq_some_iff.mp hc
  have hbyte : (get (b :: (pack_weights ws ++ rest)) (1 + i / 2) : Res UInt8) = .ok c := by
    rw [get_ok (by rw [List.length_cons, List.length_append]; omega)]
    simp only [Nat.add_comm 1, List.getElem_cons_succ]
    rw [List.getElem_append_left hlt, hc]
  simp only [List.get_eq_getElem, List.getElem_range]
  rw [hbyte, bind_ok, hval]
  rfl

/-! ## Compressed weights -/

/-- The counts of the weights: none fills the table. -/
theorem weight_counts {weights : List Nat} (h12 : ∀ w ∈ weights, w ≤ 12)
    (h2 : 2 ≤ (tally weights (List.replicate 256 0)).countP (0 < ·)) :
    ∃ max_w norm, last_symbol (tally weights (List.replicate 256 0)) = max_w ∧
      normalize_counts (tally weights (List.replicate 256 0)) weights.length max_w 6 = norm ∧
      max_w ≤ 12 ∧ ValidCounts norm 6 ∧ norm.length = max_w + 1 ∧
      (∀ w ∈ weights, norm.getD w 0 ≠ 0) ∧ norm.getD max_w 0 ≠ 0 ∧
      ∀ a, (norm.getD a 0).natAbs < 2 ^ 6 := by
  have h256 : ∀ w ∈ weights, w < 256 := fun w hw => lt_of_le_of_lt (h12 w hw) (by decide)
  have hlen := length_tally_zero h256
  have hget := getD_tally_zero h256
  generalize tally weights (List.replicate 256 0) = freq at *
  have hpos : ∀ w, 0 < freq.getD w 0 → w ∈ weights := fun w hw => by
    rw [hget] at hw
    exact List.count_pos_iff.mp hw
  have hlast : 0 < freq.getD (last_symbol freq) 0 := by
    obtain ⟨b, hb, hbpos⟩ := exists_other h2 0
    rcases last_symbol_mem freq with h0 | h
    · have hle := le_last_symbol (lt_of_le_of_lt (h12 b (hpos b hbpos)) (by decide)) hbpos
      omega
    · exact h.2
  have hmax := h12 _ (hpos _ hlast)
  obtain ⟨max_w, hmaxw⟩ : ∃ max_w, last_symbol freq = max_w := ⟨_, rfl⟩
  rw [hmaxw] at hlast hmax
  -- only the counts up to the greatest weight matter
  have htlen : (freq.take (max_w + 1)).length = max_w + 1 := by
    rw [List.length_take]
    omega
  have htake : normalize_counts (freq.take (max_w + 1)) weights.length max_w 6
      = normalize_counts freq weights.length max_w 6 := by
    unfold normalize_counts
    rw [List.take_take, Nat.min_self]
  have htget : ∀ w, w ≤ max_w → (freq.take (max_w + 1)).getD w 0 = freq.getD w 0 := fun w hw => by
    rw [List.getD_eq_getElem?_getD, List.getElem?_take_of_lt (by omega), List.getD_eq_getElem?_getD]
  obtain ⟨hvalid, hnlen, hnz⟩ := @normalize_counts_valid _ weights.length _ 6 htlen
    (by omega) (by
      have := List.countP_le_length (p := (0 < ·)) (l := freq.take (max_w + 1))
      omega)
  rw [htake] at hvalid hnlen hnz
  have hnz' : ∀ w, 0 < freq.getD w 0 → (normalize_counts freq weights.length max_w 6).getD w 0 ≠
    0 := by
    intro w hw
    have hle : w ≤ max_w := by
      rw [← hmaxw]
      exact le_last_symbol (h256 w (hpos w hw)) hw
    exact hnz w (by rw [htget w hle]; exact hw)
  refine ⟨max_w, _, hmaxw, rfl, hmax, hvalid, hnlen, fun w hw => hnz' w ?_, hnz' _ hlast,
    fun a => ?_⟩
  · rw [hget]
    exact List.count_pos_iff.mpr hw
  · -- another symbol has a count too
    obtain ⟨b, hb, hbpos⟩ := exists_other h2 a
    have hother := hnz' b hbpos
    have hsum := @getD_add_getD_le_sum
      ((normalize_counts freq weights.length max_w 6).map Int.natAbs) b a hb
    rw [hvalid.sum, ← Int.natAbs_zero, List.getD_map, List.getD_map] at hsum
    omega

/-- `read_table` after the weights. -/
theorem read_table_direct {weights : List Nat} {t : HuffTable} (ht : build_table weights = .ok t)
    (hne : weights ≠ []) (h16 : ∀ w ∈ weights, w < 16) (h128 : weights.length ≤ 128)
      (rest : Bytes) :
    read_table ((UInt8.ofNat (127 + weights.length) :: pack_weights weights) ++ rest)
      = .ok (t, (UInt8.ofNat (127 + weights.length) :: pack_weights weights).length) := by
  have hpos := List.length_pos_of_ne_nil hne
  obtain ⟨hplen, -⟩ := pack_weights_spec weights h16
  have hread := direct_weights_pack weights h16 (UInt8.ofNat (127 + weights.length)) rest
  have hb : (UInt8.ofNat (127 + weights.length)).toNat = 127 + weights.length := by
    rw [UInt8.toNat_ofNat']
    omega
  rw [List.cons_append, read_table, if_neg (by simp), get_ok (by simp), bind_ok]
  simp only [List.getElem_cons_zero, hb]
  rw [if_neg (by omega), sub_ok (by omega), bind_ok]
  simp only [Nat.add_sub_cancel_left]
  rw [if_neg (by simp only [List.length_cons, List.length_append]; omega), hread, bind_ok,
    pure_eq_ok,
    bind_ok]
  dsimp only
  rw [ht, bind_ok, List.length_cons, hplen, Nat.add_comm]
  rfl

theorem read_table_fse {weights : List Nat} {t : HuffTable} {table : CodeTable} {header : Bytes}
    (ht : build_table weights = .ok t) (hweights : table.weights = weights)
    (h12 : ∀ w ∈ weights, w ≤ 12) (h2 : 2 < weights.length) (h256 : weights.length ≤ 256)
    (h : write_weight_header_fse table = .ok header) (rest : Bytes) :
    header.length ≤ 128 ∧ read_table (header ++ rest) = .ok (t, header.length) := by
  rw [write_weight_header_fse, hweights] at h
  obtain ⟨hpresent, h⟩ := guard_eq_ok.mp h
  obtain ⟨hcomp, h⟩ := guard_eq_ok.mp h
  change ¬ (tally weights (List.replicate 256 0)).countP (0 < ·) < 2 at hpresent
  obtain ⟨max_w, norm, hmaxw, hnorm, hmax12, hvalid, hnlen, hnz, hlast, hfull⟩ :=
    weight_counts h12 (by omega)
  change last_symbol (weights.foldl (fun freq w => freq.modify w (· + 1)) (List.replicate 256 0))
    = max_w at hmaxw
  change normalize_counts (weights.foldl (fun freq w => freq.modify w (· + 1))
    (List.replicate 256 0)) weights.length max_w 6 = norm at hnorm
  have hlog : ∀ n, choose_table_log HUF_WEIGHT_MAX_LOG n = 6 := fun n => rfl
  simp only [hmaxw, hlog, hnorm] at hcomp h
  have htake : norm.take (max_w + 1) = norm := List.take_of_length_le (by omega)
  have hinv := build_ctable_inverts htake hvalid (Or.inr (by decide)) (by decide)
  have hdt := dtable_valid hvalid (by decide) (by decide)
  have hbits := fun hs => @decompress_encode _ _ _ _ 256 hinv hdt hfull h2 hnz (by omega) hs
    (by omega)
  have hnc := @read_write_ncount _ _ _ _ 6
    (encode (build_ctable norm max_w 6) weights) htake hnlen hvalid hlast (by decide) (by decide)
    (by decide)
  have htake' : (norm ++ List.replicate (256 - norm.length) 0).take (max_w + 1) = norm := by
    rw [← hnlen, List.take_left]
  have hbuild := @build_dtable_ok (norm ++ List.replicate (256 - norm.length) 0) _ _ _
    (by rw [List.length_append]; omega) htake' hvalid (by decide) (by decide)
  generalize write_ncount norm max_w 6 = ncount at *
  generalize encode (build_ctable norm max_w 6) weights = bitstream at *
  rw [if_pos h256] at hbits
  obtain rfl := Except.ok.inj h
  have hb : (UInt8.ofNat (ncount.length + bitstream.length)).toNat
      = ncount.length + bitstream.length := by
    rw [UInt8.toNat_ofNat']
    omega
  have hdesc : (slice (UInt8.ofNat (ncount.length + bitstream.length) :: (ncount ++ bitstream) ++
    rest)
      1 (1 + (ncount.length + bitstream.length)) : Res Bytes) = .ok (ncount ++ bitstream) := by
    rw [slice_ok (by omega) (by simp only [List.length_cons, List.length_append]; omega)]
    congr 1
    rw [Nat.add_comm 1, List.cons_append, List.take_succ_cons, List.drop_succ_cons, List.drop_zero,
      ← List.length_append, List.take_left]
  have hstream : (slice (UInt8.ofNat (ncount.length + bitstream.length) :: (ncount ++ bitstream) ++
    rest)
      (1 + ncount.length) (1 + (ncount.length + bitstream.length)) : Res Bytes) =
        .ok bitstream := by
    rw [slice_ok (by omega) (by simp only [List.length_cons, List.length_append]; omega)]
    congr 1
    rw [Nat.add_comm 1, Nat.add_comm 1, List.cons_append, List.take_succ_cons, List.drop_succ_cons,
      ← List.length_append, List.take_left, List.drop_left]
  refine ⟨by rw [List.length_cons, List.length_append]; omega, ?_⟩
  have hnc' := hnc (by rw [List.length_append]; omega)
  rw [read_table, if_neg (by simp), get_ok (by simp), bind_ok]
  simp only [List.cons_append, List.getElem_cons_zero, hb]
  rw [if_pos (by omega), if_neg (by simp only [List.length_cons, List.length_append]; omega)]
  rw [← List.cons_append, hdesc, bind_ok, hnc', bind_ok]
  dsimp only
  rw [hbuild, bind_ok, add_ok (by omega), bind_ok, hstream, bind_ok, hbits (by omega), bind_ok,
    pure_eq_ok, bind_ok]
  dsimp only
  rw [ht, bind_ok, List.length_cons, List.length_append, Nat.add_comm]
  rfl

/-- The decoder builds the table that the codes were read from. -/
theorem read_write_weight_header {table : CodeTable} {t : HuffTable} {header : Bytes}
    (ht : build_table table.weights = .ok t) (hlen : table.weights.length = table.max_symbol)
    (h : write_weight_header table = .ok header) (rest : Bytes) :
    header.length ≤ 128 ∧ read_table (header ++ rest) = .ok (t, header.length) := by
  obtain ⟨last, max_bits, -, hl⟩ := build_table_layout ht
  have h256 := build_table_length ht
  have h12 : ∀ w ∈ table.weights, w ≤ 12 := fun w hw =>
    (hl.complete.le w (List.mem_append_left _ hw)).trans hl.complete.log
  have hne : table.weights ≠ [] := by
    intro h0
    rw [h0] at ht
    exact absurd ht (fail_ne_ok _ _)
  rw [write_weight_header] at h
  split_ifs at h with h128
  · obtain rfl := Except.ok.inj h
    have h16 : ∀ w ∈ table.weights, w < 16 := fun w hw => lt_of_le_of_lt (h12 w hw) (by decide)
    rw [write_weight_header_direct, ← hlen]
    refine ⟨?_, read_table_direct ht hne h16 (by omega) rest⟩
    rw [List.length_cons, (pack_weights_spec _ h16).1]
    omega
  · exact read_table_fse ht rfl h12 (by omega) (by omega) h rest

end ZstdPure.Encode
