import ZstdPure.Encode.Train
import ZstdPure.Proofs.CodeLengthsProofs
import ZstdPure.Proofs.DictProofs
import ZstdPure.Proofs.SeqSectionProofs
import ZstdPure.Proofs.WeightHeaderProofs

/-!
# Proofs: the entropy section of a dictionary

What the writers of a dictionary's tables write is read back from the bytes where it stands,
whatever follows it. -/

namespace ZstdPure.Encode

open Outcome Huff Fse Sequences

/-! ## Words -/

/-- A word is read back where it stands. -/
theorem read_u32_le_at {src before after : Bytes} {v p : Nat} (hv : v < 2 ^ 32)
    (hsrc : src = before ++ (leBytes 4 v ++ after)) (hp : before.length = p) :
    read_u32_le src p = .ok v := by
  subst hsrc hp
  have hlen : (leBytes 4 v).length = 4 := length_leBytes 4 v
  obtain ⟨x, hread, hx, -⟩ := read_u32_le_ok (before ++ (leBytes 4 v ++ after)) before.length (by
    rw [List.length_append, List.length_append, hlen]
    omega)
  have htake : (leBytes 4 v ++ after).take 4 = leBytes 4 v := by
    rw [List.take_append_of_le_length hlen.ge, List.take_of_length_le hlen.le]
  rw [List.drop_left, htake, leNat_leBytes, Nat.mod_eq_of_lt (by simpa using hv)] at hx
  rw [hread, hx]

/-- One part further on. -/
theorem next_part {src a b c : Bytes} {p : Nat} (h : src = a ++ (b ++ c)) (hp : a.length = p) :
    src = (a ++ b) ++ c ∧ (a ++ b).length = p + b.length :=
  ⟨h.trans (List.append_assoc a b c).symm, by rw [List.length_append, hp]⟩

/-! ## The FSE tables -/

/-- Counts as they stand in a table description: all of them are those of a table, and the last one
is not zero. -/
structure Described (nc : NormCounts) (max_log : Nat) : Prop where
  length : nc.counts.length = nc.max_symbol + 1
  counts : ValidCounts nc.counts nc.table_log
  last : nc.counts.getD nc.max_symbol 0 ≠ 0
  log_ge : 5 ≤ nc.table_log
  log_le : nc.table_log ≤ max_log

/-- The counts as the decoder keeps them. -/
def padded (nc : NormCounts) : NormCounts :=
  { nc with counts := nc.counts ++ List.replicate (256 - nc.counts.length) 0 }

/-- The bytes of a table description. -/
def description (nc : NormCounts) : Bytes := write_ncount nc.counts nc.max_symbol nc.table_log

section Tables

variable {nc : NormCounts} {max_log : Nat} {ch : Channel} {codes : List Nat}

theorem Described.length_le (h : Described nc max_log) (h9 : max_log ≤ 9) :
    (description nc).length ≤ 4 * (nc.max_symbol + 1) + 1 := by
  have hlog := h.log_le
  exact length_write_ncount_le (List.take_of_length_le h.length.le) h.length h.counts h.last
    h.log_ge
    (by omega)

/-- The decoder reads a description back where it stands, and builds the table of its counts. -/
theorem parse_table_at {src before rest : Bytes} {p : Nat} (h : Described nc max_log)
    (h9 : max_log ≤ 9)
    (hlen : src.length < 2 ^ 60) (hsrc : src = before ++ (description nc ++ rest))
    (hp : before.length = p) :
    Dictionary.parse_table src p max_log
      = .ok (padded nc, dtable nc.counts nc.table_log, p + (description nc).length) := by
  subst hsrc hp
  have hlog := h.log_le
  have hge := h.log_ge
  have h256 := h.counts.length
  have hclen := h.length
  have htake : nc.counts.take (nc.max_symbol + 1) = nc.counts := List.take_of_length_le h.length.le
  have hpad : (nc.counts ++ List.replicate (256 - nc.counts.length) 0).take (nc.max_symbol + 1)
      = nc.counts := by
    rw [← h.length, List.take_left]
  unfold description at hlen ⊢
  rw [List.length_append] at hlen
  have hread := read_write_ncount rest htake h.length h.counts h.last h.log_ge (by omega) hlog
    (by omega)
  rw [List.length_append] at hlen
  unfold Dictionary.parse_table
  rw [sliceFrom_ok (by simp), bind_ok, List.drop_left, hread, bind_ok]
  dsimp only
  rw [build_dtable_ok (by rw [List.length_append]; omega) hpad h.counts (by omega) (by omega),
    bind_ok,
    add_ok (by omega), bind_ok]
  rfl

/-- The counts that are written are those of a table, for any codes up to `m`; the greatest symbol
is a code, or the greatest one predefined. -/
theorem dict_fse_counts_described {m : Nat} (hch : ch.Valid) (hlog : ch.log ≤ ch.max_log)
    (hcodes : ∀ c ∈ codes, c ≤ m) (hmax : ch.max_symbol ≤ m) (hm : m < 2 ^ ch.max_log)
      (h256 : m < 256) :
    Described (dict_fse_counts codes ch.dist ch.max_symbol ch.log ch.max_log) ch.max_log ∧
      (dict_fse_counts codes ch.dist ch.max_symbol ch.log ch.max_log).max_symbol ≤ m := by
  unfold dict_fse_counts
  dsimp only
  split_ifs with htwo
  · have hne : codes ≠ [] := by
      rintro rfl
      exact absurd htwo (by decide)
    have hmem := Tally.foldl_max_mem hne
    have hle := hcodes _ hmem
    have hlen := length_code_histogram codes
    have hcount : (code_histogram codes (codes.foldl max 0)).countP (0 < ·) ≤ 2 ^ ch.max_log := by
      have hle : (code_histogram codes (codes.foldl max 0)).countP (0 < ·)
          ≤ (code_histogram codes (codes.foldl max 0)).length := List.countP_le_length
      omega
    obtain ⟨h5, hmaxlog, hpresent⟩ := table_log_spec hch.max_log_ge codes.length (codes.foldl max 0)
      hcount
    obtain ⟨hvalid, hnlen, hnz⟩ := normalize_counts_valid (codes.length % 2 ^ 32) hlen (by omega)
      hpresent
    exact ⟨⟨hnlen, hvalid, hnz _ (code_histogram_pos hmem), h5, hmaxlog⟩, hle⟩
  · refine ⟨⟨hch.length, hch.counts, ?_, hch.log_ge, hlog⟩, hmax⟩
    have hlast : ch.max_symbol < ch.dist.length := by rw [hch.length]; exact Nat.lt_succ_self _
    rw [List.getD_eq_getElem _ _ hlast]
    exact hch.all _ (List.getElem_mem _)

end Tables

/-! ## The Huffman table -/

/-- The section that is written is the description of a code, and gives the decoder that code. -/
theorem write_dict_huffman_table_spec {freq : List Nat} {huff : Bytes}
    (h : write_dict_huffman_table freq = .ok huff) :
    ∃ table t, build_code_table (code_lengths freq) = .ok table ∧
      write_weight_header table = .ok huff ∧ SameCodes table t ∧ huff.length ≤ 128 ∧
      ∀ rest, read_table (huff ++ rest) = .ok (t, huff.length) := by
  unfold write_dict_huffman_table at h
  obtain ⟨-, h⟩ := guard_eq_ok.mp h
  obtain ⟨table, hbuild, hwrite⟩ := bind_eq_ok.mp h
  obtain ⟨t, ht, hsame, -, hwlen, -⟩ := build_code_table_spec (length_code_lengths freq) hbuild
  have hread := read_write_weight_header ht hwlen hwrite
  exact ⟨table, t, hbuild, hwrite, hsame, (hread []).1, fun rest => (hread rest).2⟩

/-- A histogram of two symbols, both small, always has a section. -/
theorem write_dict_huffman_table_ok {freq : List Nat} (h : Histogram freq)
    (hsmall : ∀ s, 0 < freq.getD s 0 → s ≤ 128) : ∃ huff, write_dict_huffman_table freq =
      .ok huff := by
  have htwo := h.two
  have hspec := code_lengths_spec h
  obtain ⟨table, t, hbuild, -, -, -⟩ := hspec.complete.build
  obtain ⟨-, -, -, hmax, -, -⟩ := build_code_table_spec hspec.length hbuild
  have hlast : table.max_symbol ≤ 128 := by
    rw [hmax]
    rcases last_symbol_mem (code_lengths freq) with h0 | ⟨-, hpos⟩
    · rw [h0]
      exact Nat.zero_le _
    · exact hsmall _ ((hspec.present _).mp hpos)
  refine ⟨write_weight_header_direct table, ?_⟩
  unfold write_dict_huffman_table
  rw [if_neg (by omega), hbuild, bind_ok]
  unfold write_weight_header
  rw [if_pos hlast]
  rfl

end ZstdPure.Encode
