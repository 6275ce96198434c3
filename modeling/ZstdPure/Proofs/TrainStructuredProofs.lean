import ZstdPure.Proofs.DictTablesProofs
import ZstdPure.Proofs.LiteralsSectionProofs
import ZstdPure.Proofs.TrainProofs

/-!
# Proofs: structured dictionaries

The header of a structured dictionary is short, its parts are read back one behind the other, and
the content that is kept is the front of the content that was trained. -/

namespace ZstdPure.Encode.Train

open Outcome Huff Fse Sequences

/-! ## The sequences of the statistics -/

section Sequences

variable {σ : Type}

/-- An offset value that a parse stores. -/
def Small (s : Seq) : Prop := s.offset_value < 2 ^ 33

theorem encode_offset_lt (rep : Reps) (offset : Nat) (ll0 : Bool) :
    encode_offset rep (offset % 2 ^ 32) ll0 < 2 ^ 33 := by
  unfold encode_offset
  split_ifs <;> omega

theorem push_small {out : ParseOut} (h : ∀ s ∈ out.seqs, Small s) (data : Bytes)
    (anchor p match_len offset : Nat) : ∀ s ∈ (out.push data anchor p match_len offset).seqs,
      Small s := by
  intro s hs
  rcases List.mem_append.mp hs with hs | hs
  · exact h s hs
  · obtain rfl := List.mem_singleton.mp hs
    exact encode_offset_lt _ _ _

theorem look_ahead_out (f : LazyFinder σ) (ilimit : Nat) : ∀ (steps : Nat) (s : LazyState σ)
    (ml moff bits : Nat), (LazyState.look_ahead f ilimit steps s ml moff bits).1.out = s.out := by
  intro steps
  induction steps with
  | zero => intro s ml moff bits; rfl
  | succ steps ih =>
    intro s ml moff bits
    unfold LazyState.look_ahead
    dsimp only
    split_ifs
    · exact ih _ _ _ _
    · rfl
    · rfl

theorem lazy_parse_step_small (f : LazyFinder σ) (data : Bytes) (stop lazy_steps : Nat)
    (s : LazyState σ) (h : ∀ q ∈ s.out.seqs, Small q) :
    ∀ q ∈ (LazyState.parse_step f data stop lazy_steps s).out.seqs, Small q := by
  unfold LazyState.parse_step
  dsimp only
  split_ifs
  · exact h
  · refine push_small ?_ _ _ _ _ _
    rw [look_ahead_out]
    exact h

theorem lazy_parse_block_small (f : LazyFinder σ) (data : Bytes) (start stop lazy_steps : Nat)
    (rep : Reps) (finder : σ) :
    ∀ q ∈ (LazyState.parse_block f data start stop lazy_steps rep finder).1.parse.seqs,
    Small q := by
  unfold LazyState.parse_block
  split_ifs
  · exact fun q hq => absurd hq List.not_mem_nil
  · exact While.iterate_inv (fun s : LazyState σ => ∀ q ∈ s.out.seqs, Small q)
      (fun s hs => lazy_parse_step_small f data stop lazy_steps s hs) _ _ fun q hq =>
        absurd hq List.not_mem_nil

/-- The statistics are gathered with the lazy parse over the chain. -/
theorem new_stats_finder (src_size dict_size : Nat) : ∃ st,
    Finder.new (params_for_level_with_dict STATS_LEVEL src_size dict_size)
      = .Chain st 2 (2 ^ min (params_for_level_with_dict STATS_LEVEL src_size dict_size).search_log
        10) :=
  ⟨_, rfl⟩

theorem sample_stats_small (content : Bytes) {st : Stats} (h : ∀ q ∈ st.seqs, Small q) (s : Bytes) :
    ∀ q ∈ (sample_stats content st s).seqs, Small q := by
  unfold sample_stats
  dsimp only
  split_ifs
  · exact h
  · intro q hq
    rcases List.mem_append.mp hq with hq | hq
    · exact h q hq
    · obtain ⟨chain, hnew⟩ := new_stats_finder s.length content.length
      rw [hnew] at hq
      exact lazy_parse_block_small _ _ _ _ _ _ _ q hq

theorem gather_stats_small (samples : List Bytes) (content : Bytes) :
    ∀ q ∈ (gather_stats samples content).seqs, Small q := by
  unfold gather_stats
  suffices h : ∀ (samples : List Bytes) (st : Stats), (∀ q ∈ st.seqs, Small q) →
      ∀ q ∈ (samples.foldl (sample_stats content) st).seqs, Small q from
    h samples _ fun q hq => absurd hq List.not_mem_nil
  intro samples
  induction samples with
  | nil => intro st h; exact h
  | cons s rest ih => intro st h; exact ih _ (sample_stats_small content h s)

theorem code_of_lt (base : List Nat) (x : Nat) (h : 0 < base.length) : code_of base x <
    base.length := by
  have hle : (base.takeWhile fun b => decide (b ≤ x)).length ≤ base.length :=
    (List.takeWhile_prefix _).length_le
  unfold code_of
  omega

end Sequences

/-! ## The header -/

section Header

variable {content huff kept : Bytes} {seqs : List Seq} {t : HuffTable}

/-- The counts of the three tables that are written. -/
def of_counts (seqs : List Seq) : NormCounts :=
  dict_fse_counts (seqs.map fun s => of_code s.offset_value) OF_DEFAULT OF_PRED_MAX OF_PRED_LOG
    OF_MAX_LOG

def ml_counts (seqs : List Seq) : NormCounts :=
  dict_fse_counts (seqs.map fun s => ml_code s.match_len) ML_DEFAULT ML_PRED_MAX ML_PRED_LOG
    ML_MAX_LOG

def ll_counts (seqs : List Seq) : NormCounts :=
  dict_fse_counts (seqs.map fun s => ll_code s.lit_len) LL_DEFAULT LL_PRED_MAX LL_PRED_LOG
    LL_MAX_LOG

theorem of_codes_le (h : ∀ q ∈ seqs, Small q) : ∀ c ∈ seqs.map fun s => of_code s.offset_value,
    c ≤ 32 := by
  intro c hc
  obtain ⟨q, hq, rfl⟩ := List.mem_map.mp hc
  have hsmall : q.offset_value < 2 ^ 33 := h q hq
  show Nat.log2 q.offset_value ≤ 32
  by_cases h0 : q.offset_value = 0
  · rw [h0]
    decide
  · have := (Nat.log2_lt h0).mpr hsmall
    omega

theorem ml_codes_le : ∀ c ∈ seqs.map fun s => ml_code s.match_len, c ≤ 52 := by
  intro c hc
  obtain ⟨q, -, rfl⟩ := List.mem_map.mp hc
  exact Nat.le_of_lt_succ (code_of_lt ML_BASE _ (by decide))

theorem ll_codes_le : ∀ c ∈ seqs.map fun s => ll_code s.lit_len, c ≤ 35 := by
  intro c hc
  obtain ⟨q, -, rfl⟩ := List.mem_map.mp hc
  exact Nat.le_of_lt_succ (code_of_lt LL_BASE _ (by decide))

theorem of_counts_described (h : ∀ q ∈ seqs, Small q) :
    Described (of_counts seqs) 8 ∧ (of_counts seqs).max_symbol ≤ 32 := by
  have hspec := @dict_fse_counts_described of_channel _ 32 of_channel_valid (by decide)
    (of_codes_le h)
    (by decide) (by decide) (by decide)
  exact hspec

theorem ml_counts_described (seqs : List Seq) :
    Described (ml_counts seqs) 9 ∧ (ml_counts seqs).max_symbol ≤ 52 := by
  have hspec := @dict_fse_counts_described ml_channel _ 52 ml_channel_valid (by decide)
    (@ml_codes_le seqs) (by decide) (by decide) (by decide)
  exact hspec

theorem ll_counts_described (seqs : List Seq) :
    Described (ll_counts seqs) 9 ∧ (ll_counts seqs).max_symbol ≤ 35 := by
  have hspec := @dict_fse_counts_described ll_channel _ 35 ll_channel_valid (by decide)
    (@ll_codes_le seqs) (by decide) (by decide) (by decide)
  exact hspec

theorem write_dict_seq_tables_eq (seqs : List Seq) : write_dict_seq_tables seqs
    = description (of_counts seqs) ++ description (ml_counts seqs) ++
      description (ll_counts seqs) := rfl

/-- The header takes no more than 639 bytes. -/
theorem length_header_le (h : ∀ q ∈ seqs, Small q) (hhuff : huff.length ≤ 128) :
    (header content huff seqs).length ≤ 639 := by
  obtain ⟨hof, hofmax⟩ := of_counts_described h
  obtain ⟨hml, hmlmax⟩ := ml_counts_described seqs
  obtain ⟨hll, hllmax⟩ := ll_counts_described seqs
  have h1 : (description (of_counts seqs)).length ≤ 4 * ((of_counts seqs).max_symbol + 1) + 1 :=
    hof.length_le (by decide)
  have h2 : (description (ml_counts seqs)).length ≤ 4 * ((ml_counts seqs).max_symbol + 1) + 1 :=
    hml.length_le (by decide)
  have h3 : (description (ll_counts seqs)).length ≤ 4 * ((ll_counts seqs).max_symbol + 1) + 1 :=
    hll.length_le (by decide)
  unfold header
  rw [write_dict_seq_tables_eq]
  simp only [List.length_append, length_leBytes, List.flatMap_cons, List.flatMap_nil,
    List.length_nil]
  omega

theorem content_id_lt (content : Bytes) : content_id content < 2 ^ 32 :=
  Nat.or_lt_two_pow (Nat.mod_lt _ (by decide)) (by decide)

theorem content_id_ne_zero (content : Bytes) : content_id content ≠ 0 := by
  unfold content_id
  intro h
  exact absurd (Nat.or_eq_zero_iff.mp h).2 one_ne_zero

/-- A header and at least eight bytes of content make a dictionary, with the tables that were
written. -/
theorem parse_header (h : ∀ q ∈ seqs, Small q) (hhuff : huff.length ≤ 128)
    (hread : ∀ rest, read_table (huff ++ rest) = .ok (t, huff.length)) (h8 : 8 ≤ kept.length)
    (hlen : kept.length < 2 ^ 59) :
    Dictionary.parse (header content huff seqs ++ kept) = .ok ⟨content_id content, kept, some ⟨t,
      ⟨some (dtable (ll_counts seqs).counts (ll_counts seqs).table_log),
        some (dtable (of_counts seqs).counts (of_counts seqs).table_log),
        some (dtable (ml_counts seqs).counts (ml_counts seqs).table_log)⟩,
      ⟨1, 4, 8⟩, padded (ll_counts seqs), padded (of_counts seqs), padded (ml_counts seqs)⟩⟩ := by
  have hheader := @length_header_le content huff seqs h hhuff
  obtain ⟨hof, -⟩ := of_counts_described h
  obtain ⟨hml, -⟩ := ml_counts_described seqs
  obtain ⟨hll, -⟩ := ll_counts_described seqs
  obtain ⟨src, hsrc⟩ : ∃ src, src = header content huff seqs ++ kept := ⟨_, rfl⟩
  have hsrclen : src.length < 2 ^ 60 := by
    rw [hsrc, List.length_append]
    omega
  -- the parts of the dictionary, one behind the other
  have p1 : src = leBytes 4 DICT_MAGIC ++ (leBytes 4 (content_id content) ++ (huff ++
      (description (of_counts seqs) ++
        (description (ml_counts seqs) ++ (description (ll_counts seqs) ++
        (leBytes 4 1 ++ (leBytes 4 4 ++ (leBytes 4 8 ++ kept)))))))) := by
    rw [hsrc]
    unfold header
    rw [write_dict_seq_tables_eq]
    simp only [List.flatMap_cons, List.flatMap_nil, List.append_nil, List.append_assoc]
  rw [← hsrc]
  have hword : ∀ v, (leBytes 4 v).length = 4 := length_leBytes 4
  obtain ⟨p2, l2⟩ := next_part p1 (hword _)
  simp only [hword, Nat.reduceAdd] at l2
  obtain ⟨p3, l3⟩ := next_part p2 l2
  obtain ⟨p4, l4⟩ := next_part p3 l3
  obtain ⟨p5, l5⟩ := next_part p4 l4
  obtain ⟨p6, l6⟩ := next_part p5 l5
  obtain ⟨p7, l7⟩ := next_part p6 l6
  rw [hword] at l7
  obtain ⟨p8, l8⟩ := next_part p7 l7
  rw [hword, Nat.add_assoc _ 4 4] at l8
  obtain ⟨p9, l9⟩ := next_part p8 l8
  rw [hword, Nat.add_assoc _ (4 + 4) 4] at l9
  have hmagic : read_u32_le src 0 = .ok DICT_MAGIC :=
    read_u32_le_at (by unfold DICT_MAGIC; omega) (p1.trans (List.nil_append _).symm) rfl
  have hid : read_u32_le src 4 = .ok (content_id content) := read_u32_le_at (content_id_lt content)
    p1 (hword _)
  have hdesc : src.drop 8 = _ := (congrArg (List.drop 8) p2).trans (List.drop_left' l2)
  have hof' := parse_table_at hof (by decide) hsrclen p3 l3
  have hml' := parse_table_at hml (by decide) hsrclen p4 l4
  have hll' := parse_table_at hll (by decide) hsrclen p5 l5
  have hrep0 := read_u32_le_at (by decide) p6 l6
  have hrep1 := read_u32_le_at (by decide) p7 l7
  have hrep2 := read_u32_le_at (by decide) p8 l8
  have hlast : src.length = 8 + huff.length + (description (of_counts seqs)).length
      + (description (ml_counts seqs)).length + (description (ll_counts seqs)).length + 12 +
        kept.length := by
    rw [p9, List.length_append, l9]
  have hcontent : src.drop (8 + huff.length + (description (of_counts seqs)).length
      + (description (ml_counts seqs)).length + (description (ll_counts seqs)).length + 12) =
        kept :=
    (congrArg (List.drop _) p9).trans (List.drop_left' l9)
  have hcheck : ∀ r, r ≠ 0 → r ≤ 8 → Dictionary.check_rep kept r = .ok () := by
    intro r h0 hr
    unfold Dictionary.check_rep
    rw [if_neg (by omega)]
    rfl
  unfold Dictionary.parse
  rw [if_neg (by omega), hmagic, bind_ok, if_neg (by simp), hid, bind_ok, sliceFrom_ok (by omega),
    bind_ok,
    hdesc, hread, bind_ok]
  dsimp only
  rw [add_ok (by omega), bind_ok, hof', bind_ok]
  dsimp only
  rw [hml', bind_ok]
  dsimp only
  rw [hll', bind_ok]
  dsimp only
  rw [add_ok (by omega), bind_ok, if_neg (by omega), hrep0, bind_ok, hrep1, bind_ok, hrep2, bind_ok,
    sliceFrom_ok (by omega), bind_ok, hcontent, hcheck 1 (by decide) (by decide), bind_ok,
    hcheck 4 (by decide) (by decide), bind_ok, hcheck 8 (by decide) (by decide), bind_ok]
  rfl

/-- The Huffman section is the description of a code of the literals left, or of the content. -/
theorem huffman_section_spec {lit_freq : List Nat}
    (h : huffman_section lit_freq content = some huff) :
    ∃ freq, (freq = lit_freq ∨ freq = histogram content) ∧ write_dict_huffman_table freq =
      .ok huff := by
  unfold huffman_section at h
  split at h
  · rename_i bytes hbytes
    obtain rfl := Option.some.inj h
    exact ⟨lit_freq, Or.inl rfl, hbytes⟩
  · split at h
    · rename_i bytes hbytes
      obtain rfl := Option.some.inj h
      exact ⟨histogram content, Or.inr rfl, hbytes⟩
    · exact absurd h (by simp)

/-- Content of a few low bytes always has a section. -/
theorem huffman_section_isSome (lit_freq : List Nat) {bytes : Bytes}
    (h : write_dict_huffman_table (histogram content) = .ok bytes) :
    ∃ huff, huffman_section lit_freq content = some huff := by
  unfold huffman_section
  split
  · exact ⟨_, rfl⟩
  · rw [h]
    exact ⟨_, rfl⟩

end Header

/-! ## The assembled form -/

section Assembled

variable {samples : List Bytes} {max_size : Nat} {content huff : Bytes}

/-- The sequences of the statistics. -/
def stats_seqs (samples : List Bytes) (content : Bytes) : List Seq :=
    (gather_stats samples content).seqs

/-- The content that fits behind the header. -/
def kept_content (samples : List Bytes) (max_size : Nat) (content huff : Bytes) : Bytes :=
  content.take (min content.length
    (max_size - (header content huff (stats_seqs samples content)).length))

/-- `train_dictionary_structured` gets as far as the assembled form: there is enough content, there
is a Huffman alphabet, and the header leaves room. -/
structure Assembled (samples : List Bytes) (max_size : Nat) (content huff : Bytes) : Prop where
  trained : train_dictionary samples max_size = .ok content
  enough : 8 ≤ content.length
  alphabet : huffman_section (gather_stats samples content).lit_freq content = some huff
  room : (header content huff (stats_seqs samples content)).length + 8 ≤ max_size

theorem Assembled.result (h : Assembled samples max_size content huff) :
    train_dictionary_structured samples max_size
      = .ok (header content huff (stats_seqs samples content) ++ kept_content samples max_size
        content huff) := by
  have henough := h.enough
  have hroom := h.room
  unfold stats_seqs at hroom
  unfold train_dictionary_structured
  rw [h.trained, bind_ok, if_neg (by omega)]
  dsimp only
  rw [h.alphabet]
  dsimp only
  rw [if_neg (by omega)]
  rfl

/-- Short of that, the trained content is returned as it is. -/
theorem not_assembled_result (h : train_dictionary samples max_size = .ok content)
    (hnot : ∀ huff, ¬ Assembled samples max_size content huff) :
    train_dictionary_structured samples max_size = .ok content := by
  unfold train_dictionary_structured
  rw [h, bind_ok]
  split_ifs with h8
  · rfl
  · dsimp only
    cases halph : huffman_section (gather_stats samples content).lit_freq content with
    | none => rfl
    | some huff =>
      dsimp only
      rw [if_pos]
      · rfl
      · by_contra hroom
        exact hnot huff ⟨h, by omega, halph, Nat.le_of_not_lt hroom⟩

theorem train_dictionary_returns (hs : samples.flatten.length < 2 ^ 32) :
    Returns (train_dictionary samples max_size) fun content => content.length ≤ max_size :=
  train_cover_returns (by decide) (by decide) (countersFit_of_total (by decide) (by decide) hs)

/-- One sample: a byte and many zeros. -/
def lead_sample : Bytes := 1 :: List.replicate 1023 0

theorem length_lead_sample : lead_sample.length = 1024 := by
  unfold lead_sample
  rw [List.length_cons, List.length_replicate]

theorem lead_sample_assembled : ∃ huff, Assembled [lead_sample] 1024 lead_sample huff := by
  have hlen := length_lead_sample
  have htrained : train_dictionary [lead_sample] 1024 = .ok lead_sample :=
    train_cover_single (by decide) (by decide) (by rw [hlen]; decide) hlen.le hlen.le
      (by rw [hlen]; decide)
  have hmem : ∀ b ∈ lead_sample, b = 1 ∨ b = 0 := by
    intro b hb
    rcases List.mem_cons.mp hb with rfl | hb
    · exact Or.inl rfl
    · exact Or.inr (List.eq_of_mem_replicate hb)
  obtain ⟨hhlen, hsum, hpos⟩ := histogram_spec lead_sample
  have hone := hpos 1 List.mem_cons_self
  have hzero := hpos 0 (List.mem_cons_of_mem _ (List.mem_replicate.mpr ⟨by decide, rfl⟩))
  have hhist : Histogram (histogram lead_sample) :=
    ⟨hhlen, by rw [hsum, hlen]; decide, Tally.two_le_countP (by decide) hone hzero⟩
  obtain ⟨bytes, hbytes⟩ := write_dict_huffman_table_ok hhist fun s hs => by
    rw [getD_histogram, List.count_pos_iff] at hs
    obtain ⟨b, hb, rfl⟩ := List.mem_map.mp hs
    rcases hmem b hb with rfl | rfl <;> decide
  obtain ⟨huff, hhuff⟩ := huffman_section_isSome (gather_stats [lead_sample] lead_sample).lit_freq
    hbytes
  obtain ⟨freq, -, hwrite⟩ := huffman_section_spec hhuff
  obtain ⟨-, -, -, -, -, hshort, -⟩ := write_dict_huffman_table_spec hwrite
  have hheader := @length_header_le lead_sample huff (stats_seqs [lead_sample] lead_sample)
    (gather_stats_small _ _) hshort
  exact ⟨huff, htrained, by rw [hlen]; decide, hhuff, by omega⟩

/-- What is read back of an assembled dictionary: the id, the repeat offsets, the Huffman code and
the three FSE tables that were written, each within the reader's limit, and the content that was
kept. -/
structure ReadBack (samples : List Bytes) (content huff kept out : Bytes) : Prop where
  bytes : out = header content huff (stats_seqs samples content) ++ kept
  id : content_id content ≠ 0
  of : Described (of_counts (stats_seqs samples content)) 8
  ml : Described (ml_counts (stats_seqs samples content)) 9
  ll : Described (ll_counts (stats_seqs samples content)) 9
  parsed : ∃ freq table t,
    (freq = (gather_stats samples content).lit_freq ∨ freq = histogram content) ∧
    build_code_table (code_lengths freq) = .ok table ∧ write_weight_header table = .ok huff ∧
    SameCodes table t ∧
    let seqs := stats_seqs samples content
    Dictionary.parse out = .ok ⟨content_id content, kept, some ⟨t,
      ⟨some (dtable (ll_counts seqs).counts (ll_counts seqs).table_log),
        some (dtable (of_counts seqs).counts (of_counts seqs).table_log),
        some (dtable (ml_counts seqs).counts (ml_counts seqs).table_log)⟩,
      ⟨1, 4, 8⟩, padded (ll_counts seqs), padded (of_counts seqs), padded (ml_counts seqs)⟩⟩

/-- A structured dictionary is never longer than asked for; what is not assembled is the trained
content, and the assembled form is read back. -/
theorem train_dictionary_structured_parses (hs : samples.flatten.length < 2 ^ 30)
    (hm : max_size < 2 ^ 30) :
    ∃ out, train_dictionary_structured samples max_size = .ok out ∧ out.length ≤ max_size ∧
      ((∀ content huff, ¬ Assembled samples max_size content huff) →
        train_dictionary samples max_size = .ok out) ∧
      ∀ content huff, Assembled samples max_size content huff →
        ReadBack samples content huff (kept_content samples max_size content huff) out := by
  obtain ⟨content, htrained, hle⟩ := @train_dictionary_returns samples max_size (by omega)
  by_cases hex : ∃ huff, Assembled samples max_size content huff
  · obtain ⟨huff, h⟩ := hex
    have hroom := h.room
    have hkept : (kept_content samples max_size content huff).length = min content.length
        (max_size - (header content huff (stats_seqs samples content)).length) := by
      unfold kept_content
      rw [List.length_take]
      omega
    refine ⟨_, h.result, by rw [List.length_append, hkept]; omega, fun hnot => absurd h (hnot _ _),
      ?_⟩
    intro content' huff' h'
    obtain rfl : content = content' := Except.ok.inj (htrained.symm.trans h'.trained)
    obtain rfl : huff = huff' := Option.some.inj (h.alphabet.symm.trans h'.alphabet)
    have hsmall := gather_stats_small samples content
    obtain ⟨freq, hfreq, hwrite⟩ := huffman_section_spec h.alphabet
    obtain ⟨table, t, hbuild, hweights, hsame, hhuff, hread⟩ := write_dict_huffman_table_spec hwrite
    have henough := h.enough
    exact ⟨rfl, content_id_ne_zero content, (of_counts_described hsmall).1,
      (ml_counts_described _).1,
      (ll_counts_described _).1, freq, table, t, hfreq, hbuild, hweights, hsame,
      parse_header hsmall hhuff hread (by omega) (by omega)⟩
  · have hnot : ∀ huff, ¬ Assembled samples max_size content huff := fun huff h => hex ⟨huff, h⟩
    refine ⟨content, not_assembled_result htrained hnot, hle, fun _ => htrained, ?_⟩
    intro content' huff h
    obtain rfl : content = content' := Except.ok.inj (htrained.symm.trans h.trained)
    exact absurd h (hnot huff)

theorem train_dictionary_structured_parses_lead : ∃ out huff,
    train_dictionary_structured [lead_sample] 1024 = .ok out ∧ out.length ≤ 1024 ∧
      ReadBack [lead_sample] lead_sample huff (kept_content [lead_sample] 1024 lead_sample huff)
        out := by
  obtain ⟨huff, h⟩ := lead_sample_assembled
  obtain ⟨out, hout, hle, -, hread⟩ := @train_dictionary_structured_parses [lead_sample] 1024
    (by simp [length_lead_sample]) (by decide)
  exact ⟨out, huff, hout, hle, hread _ _ h⟩

/-! ## What is kept -/

/-- The bytes repeat, `cut` bytes further on. -/
def Repeats (cut : Nat) (content : Bytes) : Prop :=
  ∀ i, i + cut < content.length → content[i]? = content[i + cut]?

theorem take_suffix_iff {cut : Nat} (h : cut ≤ content.length) :
    content.take (content.length - cut) <:+ content ↔ Repeats cut content := by
  have hlen : (content.take (content.length - cut)).length = content.length - cut := by
    rw [List.length_take]
    omega
  rw [List.suffix_iff_eq_drop, hlen, Nat.sub_sub_self h]
  constructor
  · intro heq i hi
    have hget := congrArg (fun l => l[i]?) heq
    rwa [List.getElem?_take_of_lt (by omega), List.getElem?_drop, Nat.add_comm cut i] at hget
  · intro hrep
    refine List.ext_getElem? fun i => ?_
    rw [List.getElem?_drop, Nat.add_comm cut i, List.getElem?_take]
    split_ifs with hi
    · exact hrep i (by omega)
    · rw [List.getElem?_eq_none (by omega)]

theorem kept_content_suffix_iff :
    kept_content samples max_size content huff <:+ content ↔ Repeats (content.length -
      (max_size - (header content huff (stats_seqs samples content)).length)) content := by
  have hmin : min content.length
    (max_size - (header content huff (stats_seqs samples content)).length)
      = content.length - (content.length
        - (max_size - (header content huff (stats_seqs samples content)).length)) := by omega
  unfold kept_content
  rw [hmin]
  exact take_suffix_iff (Nat.sub_le _ _)

/-- The content of the assembled form is the end of the trained content exactly when the trained
content repeats itself, as far on as bytes are cut. -/
theorem kept_content_iff (h : Assembled samples max_size content huff) :
    let head := header content huff (stats_seqs samples content)
    ∃ kept, train_dictionary_structured samples max_size = .ok (head ++ kept) ∧
      (kept <:+ content ↔ Repeats (content.length - (max_size - head.length)) content) :=
  ⟨_, h.result, kept_content_suffix_iff⟩

theorem kept_content_iff_lead : ∃ huff,
    let head := header lead_sample huff (stats_seqs [lead_sample] lead_sample)
    ∃ kept, train_dictionary_structured [lead_sample] 1024 = .ok (head ++ kept) ∧
      (kept <:+ lead_sample ↔ Repeats (lead_sample.length - (1024 - head.length)) lead_sample) := by
  obtain ⟨huff, h⟩ := lead_sample_assembled
  exact ⟨huff, kept_content_iff h⟩

/-- The header leaves room for fewer bytes than there are, and the most valuable ones go. -/
theorem kept_content_counterexample : ∃ huff kept, Assembled [lead_sample] 1024 lead_sample huff ∧
    train_dictionary_structured [lead_sample] 1024
      = .ok (header lead_sample huff (stats_seqs [lead_sample] lead_sample) ++ kept) ∧
    ¬ kept <:+ lead_sample := by
  obtain ⟨huff, h⟩ := lead_sample_assembled
  refine ⟨huff, _, h, h.result, fun hsuffix => ?_⟩
  have hroom := h.room
  have hpos : 0 < (header lead_sample huff (stats_seqs [lead_sample] lead_sample)).length := by
    unfold header
    rw [List.length_append, List.length_append, List.length_append, List.length_append,
      length_leBytes]
    omega
  have hlen := length_lead_sample
  have hrep := kept_content_suffix_iff.mp hsuffix 0
  rw [hlen, Nat.sub_sub_self (by omega), Nat.zero_add] at hrep
  obtain ⟨cut, hcut⟩ : ∃ cut,
    (header lead_sample huff (stats_seqs [lead_sample] lead_sample)).length
      = cut + 1 := ⟨_, (Nat.succ_pred_eq_of_pos hpos).symm⟩
  rw [hcut] at hrep hroom
  have hbyte := hrep (by omega)
  unfold lead_sample at hbyte
  rw [List.getElem?_cons_zero, List.getElem?_cons_succ, List.getElem?_replicate,
    if_pos (by omega)] at hbyte
  exact absurd hbyte (by decide)

end Assembled

end ZstdPure.Encode.Train
