import ZstdPure.Proofs.ExecProofs
import ZstdPure.Proofs.PlanChannelProofs
import ZstdPure.Proofs.SeqStreamProofs

/-!
# Writing and reading a sequences section

The plans of the three channels, the number of sequences and the bitstream make up a section that
the decoder reads back, and both sides keep tables that belong together. -/

namespace ZstdPure.Encode

open Outcome Fse Sequences

/-! ## The three channels -/

def ll_channel : Channel := ⟨LL_DEFAULT, 35, 6, 9, "LL"⟩

def of_channel : Channel := ⟨OF_DEFAULT, 28, 5, 8, "OF"⟩

def ml_channel : Channel := ⟨ML_DEFAULT, 52, 6, 9, "ML"⟩

theorem ll_channel_valid : ll_channel.Valid :=
  ⟨rfl, ll_default_valid, by decide, by decide, by decide, by decide, by decide⟩

theorem of_channel_valid : of_channel.Valid :=
  ⟨rfl, of_default_valid, by decide, by decide, by decide, by decide, by decide⟩

theorem ml_channel_valid : ml_channel.Valid :=
  ⟨rfl, ml_default_valid, by decide, by decide, by decide, by decide, by decide⟩

/-- An encoding table that is kept for the next block is one whose decoding table is cached. -/
structure RelatedTables (prev : SeqCTables) (cache : SeqTables) : Prop where
  ll : ∀ ct ∈ prev.ll, ∃ dt ∈ cache.ll, Related ct dt
  of : ∀ ct ∈ prev.of, ∃ dt ∈ cache.of, Related ct dt
  ml : ∀ ct ∈ prev.ml, ∃ dt ∈ cache.ml, Related ct dt

theorem RelatedTables.default (cache : SeqTables) : RelatedTables SeqCTables.default cache :=
  ⟨fun _ h => by simp [SeqCTables.default] at h, fun _ h => by simp [SeqCTables.default] at h,
    fun _ h => by simp [SeqCTables.default] at h⟩

/-- A sequence within the ranges of the format. -/
structure Seq.InRange (s : Seq) : Prop where
  lit_len : s.lit_len ≤ 131071
  match_len_ge : 3 ≤ s.match_len
  match_len : s.match_len ≤ 131074
  offset_ge : 1 ≤ s.offset_value
  offset : s.offset_value < 2 ^ 32

/-- The three modes in their byte. -/
theorem modes_byte : ∀ a < 4, ∀ b < 4, ∀ c < 4,
    ((a <<< 6 ||| b <<< 4 ||| c <<< 2) % 256) >>> 6 &&& 3 = a ∧
      ((a <<< 6 ||| b <<< 4 ||| c <<< 2) % 256) >>> 4 &&& 3 = b ∧
      ((a <<< 6 ||| b <<< 4 ||| c <<< 2) % 256) >>> 2 &&& 3 = c := by
  decide

/-! ## The section -/

theorem length_write_seq_count (n : Nat) :
    1 ≤ (write_seq_count n).length ∧ (write_seq_count n).length ≤ 3 := by
  rw [write_seq_count]
  split_ifs <;> simp

section Section

variable {seqs : List Seq} {cache : SeqTables}

/-- The bitstream of any number of sequences that a section can have is short. -/
theorem length_encode_seq_bitstream {c_ll c_of c_ml : List Int} {t : ChannelTables} {p : Plan}
    {st : BitStack} {x_ll x_of x_ml : Nat} (hp : Paired c_ll c_of c_ml t p)
    (hs : ∀ s ∈ seqs, Encodable c_ll c_of c_ml s) (hn : seqs.length ≤ 0x7F00 + 0xFFFF)
    (hw : Written t seqs st x_ll x_of x_ml)
    (hlen : (encode_seq_bitstream seqs t).length = (with_states t st x_ll x_of x_ml).len / 8 + 1) :
    (encode_seq_bitstream seqs t).length ≤ 2 ^ 30 := by
  obtain ⟨-, -, -, -, -, -, -, -, -, hst⟩ := hw.range hp hs
  have h1 := hp.ll.log
  have h2 := hp.of.log
  have h3 := hp.ml.log
  have h1' := hp.ll.log_le
  have h2' := hp.of.log_le
  have h3' := hp.ml.log_le
  simp only [with_states, BitStack.push_len] at hlen
  omega

/-- The head of a section: the number of sequences, the modes and the descriptions of the tables. -/
theorem sequences_plan_of {src cnt h_ll h_of h_ml stream : Bytes} {n m_ll m_of m_ml : Nat}
    {k_ll k_of k_ml : Mode} {dt_ll dt_of dt_ml : FseDecodeTable} {br br1 br2 br3 : ReverseBitReader}
    {s_ll s_of s_ml : Nat}
    (hsrc : src = cnt ++ ([UInt8.ofNat (m_ll <<< 6 ||| m_of <<< 4 ||| m_ml <<< 2)] ++
      (h_ll ++ (h_of ++ (h_ml ++ stream)))))
    (hlen : src.length < 2 ^ 60) (hn : n ≠ 0) (hcnt : 1 ≤ cnt.length)
    (hread : read_nb_seq src = .ok (n, cnt.length)) (hm1 : m_ll < 4) (hm2 : m_of < 4)
      (hm3 : m_ml < 4)
    (h1 : parse_mode m_ll src (cnt.length + 1) 9 = .ok (k_ll, cnt.length + 1 + h_ll.length))
    (h2 : parse_mode m_of src (cnt.length + 1 + h_ll.length) 8
      = .ok (k_of, cnt.length + 1 + h_ll.length + h_of.length))
    (h3 : parse_mode m_ml src (cnt.length + 1 + h_ll.length + h_of.length) 9
      = .ok (k_ml, cnt.length + 1 + h_ll.length + h_of.length + h_ml.length))
    (hr1 : resolve_table k_ll LL_DEFAULT 35 6 cache.ll "LL" = .ok dt_ll)
    (hr2 : resolve_table k_of OF_DEFAULT 28 5 cache.of "OF" = .ok dt_of)
    (hr3 : resolve_table k_ml ML_DEFAULT 52 6 cache.ml "ML" = .ok dt_ml)
    (hnew : ReverseBitReader.new stream = .ok br) (hi1 : init dt_ll br = .ok (s_ll, br1))
    (hi2 : init dt_of br1 = .ok (s_of, br2)) (hi3 : init dt_ml br2 = .ok (s_ml, br3)) :
    sequences_plan src cache = .ok (some ⟨dt_ll, dt_of, dt_ml, n, br3, s_ll, s_of, s_ml⟩) := by
  obtain ⟨e1, e2, e3⟩ := modes_byte m_ll hm1 m_of hm2 m_ml hm3
  have hlen' := congrArg List.length hsrc
  simp only [List.length_append, List.length_singleton] at hlen'
  have hget : (get src cnt.length : Res UInt8)
      = .ok (UInt8.ofNat (m_ll <<< 6 ||| m_of <<< 4 ||| m_ml <<< 2)) := by
    rw [get_ok (by omega)]
    simp only [hsrc, List.getElem_append_right le_rfl, Nat.sub_self, List.cons_append,
      List.getElem_cons_zero]
  have hdrop : src.drop (cnt.length + 1 + h_ll.length + h_of.length + h_ml.length) = stream := by
    rw [hsrc, ← List.append_assoc, ← List.append_assoc, ← List.append_assoc, ← List.append_assoc]
    exact List.drop_left' (by simp only [List.length_append, List.length_singleton])
  rw [sequences_plan, sequences_source, if_neg (by omega), hread, bind_ok]
  dsimp only
  rw [if_neg hn, if_neg (by omega), hget, bind_ok, add_ok (by omega), bind_ok]
  simp only [UInt8.toNat_ofNat']
  rw [show (2 : Nat) ^ 8 = 256 from rfl, e1, e2, e3, h1, bind_ok]
  dsimp only
  rw [h2, bind_ok]
  dsimp only
  rw [h3, bind_ok]
  dsimp only
  rw [hr1, bind_ok, hr2, bind_ok, hr3, bind_ok, sliceFrom_ok (by omega), bind_ok, hdrop, pure_eq_ok,
    bind_ok]
  dsimp only
  rw [SeqSource.plan, hnew, bind_ok, hi1, bind_ok]
  dsimp only
  rw [hi2, bind_ok]
  dsimp only
  rw [hi3]
  rfl

/-- The bytes of a section with these plans. -/
def section_bytes (seqs : List Seq) (ll of ml : ChannelPlan) : Bytes :=
  write_seq_count seqs.length ++
    ([UInt8.ofNat (ll.mode <<< 6 ||| of.mode <<< 4 ||| ml.mode <<< 2)] ++
    (ll.header ++ (of.header ++ (ml.header ++ encode_seq_bitstream seqs ⟨ll.ct, of.ct, ml.ct⟩))))

/-- `write_sequences` writes a section with good plans. -/
theorem write_sequences_eq {prev : SeqCTables} (hne : seqs ≠ []) (hs : ∀ s ∈ seqs, s.InRange)
    (hrel : RelatedTables prev cache) :
    ∃ ll of ml : ChannelPlan,
      ll.Good ll_channel cache.ll (seqs.map fun s => ll_code s.lit_len) ∧
      of.Good of_channel cache.of (seqs.map fun s => of_code s.offset_value) ∧
      ml.Good ml_channel cache.ml (seqs.map fun s => ml_code s.match_len) ∧
      write_sequences seqs prev
        = (section_bytes seqs ll of ml, ⟨some ll.ct, some of.ct, some ml.ct⟩) := by
  have hll : ∀ c ∈ seqs.map fun s => ll_code s.lit_len, c < 36 := fun c hc => by
    obtain ⟨s, hmem, rfl⟩ := List.mem_map.mp hc
    exact (ll_code_spec (hs s hmem).lit_len).1
  have hof : ∀ c ∈ seqs.map fun s => of_code s.offset_value, c < 32 := fun c hc => by
    obtain ⟨s, hmem, rfl⟩ := List.mem_map.mp hc
    exact Nat.lt_succ_of_le (of_code_spec (hs s hmem).offset_ge (hs s hmem).offset).1
  have hml : ∀ c ∈ seqs.map fun s => ml_code s.match_len, c < 53 := fun c hc => by
    obtain ⟨s, hmem, rfl⟩ := List.mem_map.mp hc
    exact (ml_code_spec (hs s hmem).match_len_ge (hs s hmem).match_len).1
  refine ⟨_, _, _, plan_channel_good prev.ll ll_channel_valid (by simpa using hne)
      (fun c hc => lt_of_lt_of_le (hll c hc) (by decide))
        (fun c hc => lt_trans (hll c hc) (by decide))
      hrel.ll,
    plan_channel_good prev.of of_channel_valid (by simpa using hne)
      (fun c hc => lt_of_lt_of_le (hof c hc) (by decide))
        (fun c hc => lt_trans (hof c hc) (by decide))
      hrel.of,
    plan_channel_good prev.ml ml_channel_valid (by simpa using hne)
      (fun c hc => lt_of_lt_of_le (hml c hc) (by decide))
        (fun c hc => lt_trans (hml c hc) (by decide))
      hrel.ml, ?_⟩
  rw [write_sequences, if_neg (by simpa using hne)]
  simp only [section_bytes, List.append_assoc]
  rfl

/-- The decoder on a section with good plans. -/
theorem sequences_plan_section {ll of ml : ChannelPlan} (hne : seqs ≠ [])
    (hn : seqs.length ≤ 0x7F00 + 0xFFFF) (hs : ∀ s ∈ seqs, s.InRange)
    (hll : ll.Good ll_channel cache.ll (seqs.map fun s => ll_code s.lit_len))
    (hof : of.Good of_channel cache.of (seqs.map fun s => of_code s.offset_value))
    (hml : ml.Good ml_channel cache.ml (seqs.map fun s => ml_code s.match_len)) :
    ∃ p r, sequences_plan (section_bytes seqs ll of ml) cache = .ok (some p) ∧ p.Valid ∧
      p.nb_seq = seqs.length ∧ p.read_loop p.nb_seq p.reader = .ok (seqs.map Seq.triple, r) ∧
      r.br.Holds BitStack.empty ∧ Related ll.ct p.ll_table ∧ Related of.ct p.of_table ∧
      Related ml.ct p.ml_table := by
  obtain ⟨hm1, hh1, dt1, c1, hrel1, hinv1, hmem1, hread1⟩ := hll
  obtain ⟨hm2, hh2, dt2, c2, hrel2, hinv2, hmem2, hread2⟩ := hof
  obtain ⟨hm3, hh3, dt3, c3, hrel3, hinv3, hmem3, hread3⟩ := hml
  have he : ∀ s ∈ seqs, Encodable c1 c2 c3 s := fun s h =>
    ⟨(hs s h).lit_len, (hs s h).match_len_ge, (hs s h).match_len, (hs s h).offset_ge,
      (hs s h).offset,
      hmem1 _ (List.mem_map_of_mem h), hmem2 _ (List.mem_map_of_mem h),
      hmem3 _ (List.mem_map_of_mem h)⟩
  -- the tables are known before the rest of the plan
  have hp : ∀ nb br s1 s2 s3,
      Paired c1 c2 c3 ⟨ll.ct, of.ct, ml.ct⟩ (⟨dt1, dt2, dt3, nb, br, s1, s2, s3⟩ : Plan) :=
    fun _ _ _ _ _ => ⟨hinv1, hinv2, hinv3⟩
  obtain ⟨st, x_ll, x_of, x_ml, hw, hslen, hsval⟩ :=
    encode_seq_bitstream_spec (hp 0 ⟨[], 0, 0, 0⟩ 0 0 0) hne he
  have hshort := length_encode_seq_bitstream (hp 0 ⟨[], 0, 0, 0⟩ 0 0 0) he hn hw hslen
  obtain ⟨br, br1, br2, r, hnew, hi1, hi2, hi3, hdec⟩ :=
    read_states (hp 0 ⟨[], 0, 0, 0⟩ 0 0 0) hw he (by omega) hslen hsval
  obtain ⟨hc1, hc3⟩ := length_write_seq_count seqs.length
  have hlen : (section_bytes seqs ll of ml).length < 2 ^ 60 := by
    simp only [section_bytes, List.length_append, List.length_singleton]
    omega
  -- the description of each table follows those before it
  obtain ⟨modes, hmodes⟩ : ∃ modes : Bytes,
      [UInt8.ofNat (ll.mode <<< 6 ||| of.mode <<< 4 ||| ml.mode <<< 2)] = modes := ⟨_, rfl⟩
  have hmlen : modes.length = 1 := by rw [← hmodes]; rfl
  obtain ⟨stream, hstream⟩ : ∃ stream, encode_seq_bitstream seqs ⟨ll.ct, of.ct, ml.ct⟩ = stream :=
    ⟨_, rfl⟩
  obtain ⟨cnt, hcnt⟩ : ∃ cnt, write_seq_count seqs.length = cnt := ⟨_, rfl⟩
  have hsec : section_bytes seqs ll of ml
      = cnt ++ (modes ++ (ll.header ++ (of.header ++ (ml.header ++ stream)))) := by
    rw [section_bytes, hmodes, hstream, hcnt]
  have hnb := read_write_seq_count hn (modes ++ (ll.header ++ (of.header ++ (ml.header ++ stream))))
  obtain ⟨k1, hk1, hr1⟩ := hread1 (cnt ++ modes) (of.header ++ (ml.header ++ stream))
    (by rw [List.append_assoc, ← hsec]; exact hlen)
  obtain ⟨k2, hk2, hr2⟩ := hread2 (cnt ++ modes ++ ll.header) (ml.header ++ stream)
    (by rw [List.append_assoc, List.append_assoc, ← hsec]; exact hlen)
  obtain ⟨k3, hk3, hr3⟩ := hread3 (cnt ++ modes ++ ll.header ++ of.header) stream
    (by rw [List.append_assoc, List.append_assoc, List.append_assoc, ← hsec]; exact hlen)
  rw [hcnt, ← hsec] at hnb
  simp only [List.append_assoc] at hk1 hk2 hk3
  rw [← hsec] at hk1 hk2 hk3
  simp only [List.length_append, hmlen, ← Nat.add_assoc] at hk1 hk2 hk3
  rw [hstream] at hnew
  rw [hcnt] at hc1
  rw [← hmodes] at hsec
  have hplan := sequences_plan_of hsec hlen (mt List.length_eq_zero_iff.mp hne) hc1 hnb hm1 hm2 hm3
    hk1 hk2 hk3 hr1 hr2 hr3 hnew hi1 hi2 hi3
  obtain ⟨st', hw', hbr⟩ := hdec
  obtain ⟨r', hloop, hend⟩ := read_loop_spec (hp seqs.length r.br r.s_ll r.s_of r.s_ml) seqs r hne
    he
    ⟨st', hw', hbr⟩
  have hconsumed := hbr.consumed
  exact ⟨_, r', hplan, ⟨hrel1.inverts.1, hrel2.inverts.1, hrel3.inverts.1, by simp only; omega,
    hbr.valid, by simp only; omega⟩, rfl, hloop, hend, hrel1, hrel2, hrel3⟩

/-- The decoder on a section that the encoder wrote, and the tables both sides keep of it. -/
theorem sequences_plan_write_sequences {prev : SeqCTables} (hne : seqs ≠ [])
    (hn : seqs.length ≤ 0x7F00 + 0xFFFF) (hs : ∀ s ∈ seqs, s.InRange)
    (hrel : RelatedTables prev cache) :
    ∃ p r, sequences_plan (write_sequences seqs prev).1 cache = .ok (some p) ∧ p.Valid ∧
      p.nb_seq = seqs.length ∧ p.read_loop p.nb_seq p.reader = .ok (seqs.map Seq.triple, r) ∧
      r.br.Holds BitStack.empty ∧ RelatedTables (write_sequences seqs prev).2 p.tables := by
  obtain ⟨ll, of, ml, hll, hof, hml, hwrite⟩ := write_sequences_eq hne hs hrel
  obtain ⟨p, r, hplan, hvalid, hnb, hloop, hend, hrel1, hrel2, hrel3⟩ :=
    sequences_plan_section hne hn hs hll hof hml
  rw [hwrite]
  refine ⟨p, r, hplan, hvalid, hnb, hloop, hend, ?_, ?_, ?_⟩
  · rintro _ ⟨⟩
    exact ⟨p.ll_table, rfl, hrel1⟩
  · rintro _ ⟨⟩
    exact ⟨p.of_table, rfl, hrel2⟩
  · rintro _ ⟨⟩
    exact ⟨p.ml_table, rfl, hrel3⟩

/-- A section whose triples can be read is one whose triples are executed. -/
theorem decode_capped_read {src : Bytes} {p : Plan} {ts : List Triple} {r : SeqReader}
    (hplan : sequences_plan src cache = .ok (some p)) (hvalid : p.Valid)
    (hloop : p.read_loop p.nb_seq p.reader = .ok (ts, r)) (literals out : Bytes) (rep : Reps)
    (dict_len max_output : Nat) :
    decode_capped src literals out cache rep dict_len max_output =
      exec_triples (p.env literals dict_len max_output) ts (p.start out rep) >>=
        trailing_literals (p.env literals dict_len max_output) p.tables := by
  have hn17 := hvalid.nb_seq
  have hbits := hvalid.bits
  rw [decode_capped_eq, hplan, bind_ok]
  dsimp only
  rw [exec_loop_read hvalid p.nb_seq (p.start out rep) ts r hvalid.br
    (by show p.br.bits_consumed + 90 * p.nb_seq ≤ 2 ^ 29; omega) hloop, bind_assoc]
  rfl

end Section

/-- The decoder reads back the sequences of every section, in order and to the last bit, with
whatever tables the planner picked; it executes them, and both sides keep tables that belong
together. -/
theorem write_sequences_round_trip (seqs : List Seq) (prev : SeqCTables) (cache : SeqTables)
    (hne : seqs ≠ []) (hn : seqs.length ≤ 0x7F00 + 0xFFFF) (hs : ∀ s ∈ seqs, s.InRange)
    (hrel : RelatedTables prev cache) :
    ∃ p r, sequences_plan (write_sequences seqs prev).1 cache = .ok (some p) ∧
      p.nb_seq = seqs.length ∧
      p.read_loop p.nb_seq p.reader = .ok (seqs.map Seq.triple, r) ∧
      r.br.reload = .ok (.Completed, r.br) ∧
      RelatedTables (write_sequences seqs prev).2 p.tables ∧
      ∀ literals out rep dict_len max_output,
        decode_capped (write_sequences seqs prev).1 literals out cache rep dict_len max_output =
          exec_triples (p.env literals dict_len max_output) (seqs.map Seq.triple)
            (p.start out rep) >>=
            trailing_literals (p.env literals dict_len max_output) p.tables := by
  obtain ⟨p, r, hplan, hvalid, hnb, hloop, hend, hrel'⟩ :=
    sequences_plan_write_sequences hne hn hs hrel
  refine ⟨p, r, hplan, hnb, hloop, ?_, hrel', fun literals out rep dict_len max_output => ?_⟩
  · obtain ⟨hptr, hcon⟩ := hend.at_start rfl
    rw [ReverseBitReader.reload, if_neg (by omega), if_neg (by omega), if_pos hptr,
      if_neg (by omega)]
    rfl
  · exact decode_capped_read hplan hvalid hloop literals out rep dict_len max_output

/-- `write_sequences_round_trip` on two sequences after a block that kept a table of one symbol. -/
theorem write_sequences_round_trip_two :
    triples (write_sequences [⟨1, 5, 4⟩, ⟨0, 131074, 70000⟩] ⟨some (build_rle_ctable 3), none,
      none⟩).1
        ⟨some (rle_table 3), none, none⟩
      = .ok [⟨1, 5, 4⟩, ⟨0, 131074, 70000⟩] := by
  have hrel : RelatedTables ⟨some (build_rle_ctable 3), none, none⟩ ⟨some (rle_table 3), none,
    none⟩ := by
    refine ⟨?_, by simp, by simp⟩
    rintro _ ⟨⟩
    exact ⟨_, rfl, Related.rle (by decide)⟩
  obtain ⟨p, r, hplan, -, hloop, -⟩ := write_sequences_round_trip [⟨1, 5, 4⟩, ⟨0, 131074, 70000⟩]
    ⟨some (build_rle_ctable 3), none, none⟩ ⟨some (rle_table 3), none, none⟩ (by simp) (by simp)
    (by
      intro s hs
      simp only [List.mem_cons, List.not_mem_nil, or_false] at hs
      rcases hs with rfl | rfl
      · exact ⟨by decide, by decide, by decide, by decide, by decide⟩
      · exact ⟨by decide, by decide, by decide, by decide, by decide⟩) hrel
  rw [triples, hplan, bind_ok]
  dsimp only
  rw [hloop]
  rfl

end ZstdPure.Encode
