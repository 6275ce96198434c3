import ZstdPure.Proofs.FrameRunProofs
import ZstdPure.Proofs.LiteralsSectionProofs
import ZstdPure.Proofs.NoRegressionProofs
import ZstdPure.Proofs.ReplayProofs

/-!
# Proofs: encoder and decoder in lockstep

Whatever a block is written as, the decoder puts out its bytes, and the tables and repeat offsets
that the encoder keeps for the next block belong to those that the decoder keeps. -/

namespace ZstdPure.Encode

open Outcome Huff Sequences BlockState

/-! ## Runs of blocks -/

/-- One block that does not come after the last one. -/
def NextBlock (src : Bytes) (p p' : BlockPos) : Prop := p.last = false ∧ decode_block src p = .ok p'

/-- One or several blocks. -/
abbrev BlocksRun (src : Bytes) : BlockPos → BlockPos → Prop := Relation.TransGen (NextBlock src)

theorem NextBlock.run {src : Bytes} {s s' : BlockState} {pos pos' : Nat} {last : Bool}
    (h : s.decode_block_at src pos = .ok (s', pos', last)) :
    BlocksRun src ⟨s, pos, false⟩ ⟨s', pos', last⟩ := by
  refine Relation.TransGen.single ⟨rfl, ?_⟩
  rw [decode_block, h]
  rfl

/-! ## Blocks at their positions -/

section Positions

variable {before rest chunk : Bytes} {last : Bool} {ty : BlockType} {size : Nat}

theorem read_write_block_header (last : Bool) (ty : BlockType) (hsize : size < 2 ^ 21)
    (rest : Bytes) :
    read_header (write_block_header last ty size ++ rest) = .ok ⟨last, ty.bits, size⟩ := by
  obtain ⟨v, hv⟩ : ∃ v, v = last.toNat ||| ty.bits <<< 1 ||| size <<< 3 := ⟨_, rfl⟩
  have hlast : last.toNat < 2 ^ 1 := by cases last <;> decide
  have hty : ty.bits < 4 := by cases ty <;> decide
  have hsum : v = last.toNat + ty.bits * 2 ^ 1 + size * 2 ^ 3 := by
    rw [hv, lor_shl_eq_add _ 1 hlast, lor_shl_eq_add _ 3 (by omega)]
  have hbytes : write_block_header last ty size =
      [UInt8.ofNat v, UInt8.ofNat (v / 256), UInt8.ofNat (v / 256 / 256)] := by
    rw [write_block_header, ← hv]
    rfl
  have hvalue : v % 256 ||| (v / 256 % 256) <<< 8 ||| (v / 256 / 256 % 256) <<< 16 = v := by
    rw [Nat.div_div_eq_div_mul]
    exact (lor_bytes v).1.trans (Nat.mod_eq_of_lt (by omega))
  rw [hbytes]
  show read_header (UInt8.ofNat v :: UInt8.ofNat (v / 256) :: UInt8.ofNat (v / 256 / 256) :: rest) =
    _
  rw [read_header_cons, UInt8.toNat_ofNat', UInt8.toNat_ofNat', UInt8.toNat_ofNat', hvalue]
  dsimp only
  have hflag : (v &&& 1 != 0) = last := by
    rw [Nat.and_one_is_mod, hsum]
    cases last
    · rw [show (Bool.toNat false + ty.bits * 2 ^ 1 + size * 2 ^ 3) % 2 = 0 by
        show (0 + _ + _) % 2 = 0; omega]
      rfl
    · rw [show (Bool.toNat true + ty.bits * 2 ^ 1 + size * 2 ^ 3) % 2 = 1 by
        show (1 + _ + _) % 2 = 1; omega]
      rfl
  have htype : (v >>> 1) &&& 3 = ty.bits := by
    rw [show 3 = 2 ^ 2 - 1 from rfl, Nat.and_two_pow_sub_one_eq_mod, Nat.shiftRight_eq_div_pow,
      hsum]
    omega
  have hlen : v >>> 3 = size := by
    rw [Nat.shiftRight_eq_div_pow, hsum]
    omega
  rw [hflag, htype, hlen]

/-- The header of the block written at a position. -/
theorem header_at_append (last : Bool) (ty : BlockType) (hsize : size < 2 ^ 21)
    (before rest : Bytes) :
    header_at (before ++ (write_block_header last ty size ++ rest)) before.length =
      .ok ⟨last, ty.bits, size⟩ := by
  rw [header_at, sliceFrom_ok (by rw [List.length_append]; omega), bind_ok, List.drop_left,
    read_write_block_header last ty hsize]

/-- The body of the block written at a position. -/
theorem body_append (last : Bool) (ty : BlockType) (size : Nat) (before chunk rest : Bytes) :
    body (before ++ (write_block_header last ty size ++ (chunk ++ rest))) (before.length + 3)
      (before.length + 3 + chunk.length) = chunk := by
  have hheader := length_write_block_header last ty size
  have hpre : (before ++ write_block_header last ty size).length = before.length + 3 := by
    rw [List.length_append, hheader]
  rw [body, ← List.append_assoc, ← hpre, List.take_length_add_append, List.drop_left,
    List.take_left]

end Positions

/-! ## Tables of both sides -/

/-- The tables that the encoder keeps belong to those that the decoder has cached. -/
structure EncTables.RelatedTo (t : EncTables) (s : BlockState) : Prop where
  seq : RelatedTables t.seq s.seq
  lit : RelatedHuff t.lit s.huff

/-- The states of both sides between two blocks: the repeat offsets that the encoder knows are those
of the decoder. -/
structure EncState.RelatedTo (e : EncState) (s : BlockState) : Prop where
  rep : Knows e.rep s.rep
  tables : e.tables.RelatedTo s

/-- Without tables, the encoder belongs to any decoder. -/
theorem EncTables.default_related (s : BlockState) : EncTables.default.RelatedTo s :=
  ⟨RelatedTables.default _, fun ct hct => by simp [EncTables.default] at hct⟩

/-- The encoder's state at the start of a frame belongs to that of a decoder without dictionary. -/
theorem EncState.start_related (max_output block_max : Nat) :
    EncState.start.RelatedTo (BlockState.start max_output block_max none) :=
  ⟨Knows.refl _, EncTables.default_related _⟩

/-- The decoder before the bytes from `start` to `stop`, which it has room for. -/
structure Ready (data pre : Bytes) (start stop limit : Nat) (s : BlockState) : Prop where
  out : s.out = pre ++ data.take start
  dict : s.dict_len ≤ pre.length + start
  range : start ≤ stop
  inside : stop ≤ data.length
  small : stop - start ≤ limit
  limit_max : limit ≤ BLOCK_SIZE_MAX
  block_max : limit ≤ s.block_max
  ceiling : pre.length + stop ≤ s.dict_len + s.max_output
  word : pre.length + data.length < 2 ^ 63

/-- The decoder's repeat offsets, and the matches it executed, are within the window. -/
structure BlockNear (window : Nat) (s : BlockState) : Prop where
  rep : Within window s.rep
  matches_ : ∀ m ∈ s.matches_, m.distance ≤ window

/-- The decoder after the bytes up to `stop`, which has not reached beyond the window. -/
structure Decoded (window : Nat) (data pre : Bytes) (stop : Nat) (s s' : BlockState) : Prop where
  out : s'.out = pre ++ data.take stop
  same : s.SameFrame s'
  near : BlockNear window s → BlockNear window s'

theorem Decoded.trans {window : Nat} {data pre : Bytes} {mid stop : Nat} {s s₁ s₂ : BlockState}
    (h₁ : Decoded window data pre mid s s₁) (h₂ : Decoded window data pre stop s₁ s₂) :
    Decoded window data pre stop s s₂ :=
  ⟨h₂.out, ⟨h₂.same.1.trans h₁.same.1, h₂.same.2.trans h₁.same.2, h₂.same.3.trans h₁.same.3⟩,
    fun h => h₂.near (h₁.near h)⟩

/-- Repeat offsets that are not within the window say nothing about the matches. -/
theorem Decoded.of_not_within {window window' : Nat} {data pre : Bytes} {stop : Nat}
    {s s' : BlockState}
    (h : Decoded window' data pre stop s s') (hnot : ¬ Within window s.rep) :
    Decoded window data pre stop s s' :=
  ⟨h.out, h.same, fun hs => absurd hs.rep hnot⟩

section Blocks

variable {data pre before rest : Bytes} {window start stop limit : Nat} {s : BlockState}
  {last : Bool}

theorem Ready.length_out (h : Ready data pre start stop limit s) :
    s.out.length = pre.length + start := by
  have hrange := h.range
  have hinside := h.inside
  rw [h.out, List.length_append, List.length_take, min_eq_left (by omega)]

/-- The block begins in the same state, but for its count. -/
theorem Ready.counted (h : Ready data pre start stop limit s) :
    Ready data pre start stop limit s.counted :=
  ⟨h.out, h.dict, h.range, h.inside, h.small, h.limit_max, h.block_max, h.ceiling, h.word⟩

/-- Between two parts of the block, the second one follows. -/
theorem Ready.next {mid : Nat} {s' : BlockState} (h : Ready data pre start stop limit s)
    (hstart : start ≤ mid) (hstop : mid ≤ stop) (hdec : Decoded window data pre mid s s') :
    Ready data pre mid stop limit s' := by
  have hsame := hdec.same
  have hdict := h.dict
  have hsmall := h.small
  refine ⟨hdec.out, ?_, hstop, h.inside, by omega, h.limit_max, ?_, ?_, h.word⟩
  · rw [hsame.dict_len]
    omega
  · rw [hsame.block_max]
    exact h.block_max
  · rw [hsame.dict_len, hsame.max_output]
    exact h.ceiling

/-- The first part of a block. -/
theorem Ready.first {mid : Nat} (h : Ready data pre start stop limit s) (hstart : start ≤ mid)
    (hstop : mid ≤ stop) : Ready data pre start mid limit s := by
  have hinside := h.inside
  have hsmall := h.small
  have hceiling := h.ceiling
  exact ⟨h.out, h.dict, hstart, by omega, by omega, h.limit_max, h.block_max, by omega, h.word⟩

/-! ## Stored blocks -/

theorem write_raw_block_run (h : Ready data pre start stop limit s) (last : Bool)
    (before rest : Bytes)
    (hsrc : (before ++ (write_raw_block last (range_of data start stop) ++ rest)).length < 2 ^ 63) :
    s.decode_block_at (before ++ (write_raw_block last (range_of data start stop) ++ rest))
        before.length =
      .ok (({ s.counted with out := s.out ++ range_of data start stop } : BlockState),
        before.length + (write_raw_block last (range_of data start stop)).length, last) := by
  have hlen := length_range (p := start) data h.inside
  have hheader := length_write_block_header last .Raw (range_of data start stop).length
  have hout := h.length_out
  have hdict := h.dict
  have hsmall := h.small
  have hlimit := h.limit_max
  have hblock := h.block_max
  have hceiling := h.ceiling
  have hword := h.word
  have hrange := h.range
  have hinside := h.inside
  have hmax : BLOCK_SIZE_MAX = 131072 := rfl
  have husize : usizeMax = 2 ^ 64 - 1 := rfl
  generalize range_of data start stop = chunk at hlen hheader hsrc ⊢
  unfold write_raw_block at hsrc ⊢
  rw [List.append_assoc] at hsrc ⊢
  rw [List.length_append, List.length_append, List.length_append, hheader] at hsrc
  have hbody := body_append last .Raw chunk.length before chunk rest
  have hdecode : s.counted.decode_raw chunk = .ok { s.counted with out := s.out ++ chunk } := by
    rw [decode_raw, check_ceiling_ok (by show s.dict_len ≤ s.out.length; omega)
      (by show s.out.length + _ ≤ s.dict_len + s.max_output; omega)
      (by show s.out.length + _ ≤ _; omega)]
    rfl
  rw [← hbody] at hdecode
  have hstep := BlockStep.raw (header_at_append last .Raw (by omega) before (chunk ++ rest)) rfl
    (by show chunk.length ≤ _; omega) (by show before.length + 3 + chunk.length ≤ _; omega)
    (by
      show before.length + 3 + chunk.length ≤ _
      rw [List.length_append, List.length_append, List.length_append, hheader]
      omega) hdecode
  rw [hstep.decode, List.length_append, hheader, hbody, Nat.add_assoc]

theorem write_rle_block_run (h : Ready data pre start stop limit s) (last : Bool) {b : UInt8}
    (hrun : range_of data start stop = List.replicate (stop - start) b) (before rest : Bytes)
    (hsrc : (before ++ (write_rle_block last b (stop - start) ++ rest)).length < 2 ^ 63) :
    s.decode_block_at (before ++ (write_rle_block last b (stop - start) ++ rest)) before.length =
      .ok (({ s.counted with out := s.out ++ range_of data start stop } : BlockState),
        before.length + (write_rle_block last b (stop - start)).length, last) := by
  have hheader := length_write_block_header last .Rle (stop - start)
  have hout := h.length_out
  have hdict := h.dict
  have hsmall := h.small
  have hlimit := h.limit_max
  have hblock := h.block_max
  have hceiling := h.ceiling
  have hword := h.word
  have hrange := h.range
  have hinside := h.inside
  have hmax : BLOCK_SIZE_MAX = 131072 := rfl
  have husize : usizeMax = 2 ^ 64 - 1 := rfl
  unfold write_rle_block at hsrc ⊢
  rw [List.append_assoc] at hsrc ⊢
  rw [List.length_append, List.length_append, List.length_append, hheader,
    List.length_singleton] at hsrc
  have hdecode : s.counted.decode_rle b (stop - start) =
      .ok { s.counted with out := s.out ++ range_of data start stop } := by
    rw [decode_rle, check_ceiling_ok (by show s.dict_len ≤ s.out.length; omega)
      (by show s.out.length + _ ≤ s.dict_len + s.max_output; omega)
      (by show s.out.length + _ ≤ _; omega), hrun]
    rfl
  have hbyte : (get (before ++ (write_block_header last .Rle (stop - start) ++ ([b] ++ rest)))
      (before.length + 3) : Res UInt8) = .ok b := by
    have hpre : (before ++ write_block_header last .Rle (stop - start)).length = before.length +
      3 := by
      rw [List.length_append, hheader]
    have hget : (before ++ (write_block_header last .Rle (stop - start) ++ ([b] ++ rest)))[
        before.length + 3]? = some b := by
      rw [← List.append_assoc, List.getElem?_append_right (le_of_eq hpre), hpre, Nat.sub_self]
      rfl
    obtain ⟨hlt, heq⟩ := List.getElem?_eq_some_iff.mp hget
    rw [get_ok hlt, heq]
  have hstep := BlockStep.rle (header_at_append last .Rle (by omega) before ([b] ++ rest)) rfl
    (by show stop - start ≤ _; omega) (by omega) hbyte hdecode
  rw [hstep.decode, List.length_append, hheader, List.length_singleton]

/-- A stored block is decoded to its bytes, and changes nothing else. -/
theorem write_store_block_run (h : Ready data pre start stop limit s) (last : Bool)
    (before rest : Bytes)
    (hsrc : (before ++ (write_store_block last (range_of data start stop) ++ rest)).length <
      2 ^ 63) :
    s.decode_block_at (before ++ (write_store_block last (range_of data start stop) ++ rest))
        before.length =
      .ok (({ s.counted with out := s.out ++ range_of data start stop } : BlockState),
        before.length + (write_store_block last (range_of data start stop)).length, last) := by
  have hlen := length_range (p := start) data h.inside
  by_cases hrle : ∃ b tail, range_of data start stop = b :: tail ∧ tail.all (· == b) = true
  · obtain ⟨b, tail, hchunk, hall⟩ := hrle
    have hstore : write_store_block last (range_of data start stop) =
        write_rle_block last b (stop - start) := by
      rw [← hlen, hchunk, write_store_block, if_pos hall]
    rw [hstore] at hsrc ⊢
    refine write_rle_block_run h last ?_ before rest hsrc
    rw [← hlen, hchunk, List.eq_replicate_iff]
    refine ⟨rfl, ?_⟩
    intro x hx
    rcases List.mem_cons.mp hx with rfl | hx
    · rfl
    · exact eq_of_beq (List.all_eq_true.mp hall x hx)
  · have hstore : write_store_block last (range_of data start stop) =
        write_raw_block last (range_of data start stop) := by
      cases hchunk : range_of data start stop with
      | nil => rfl
      | cons b tail =>
        rw [write_store_block, if_neg]
        exact fun hall => hrle ⟨b, tail, hchunk, hall⟩
    rw [hstore] at hsrc ⊢
    exact write_raw_block_run h last before rest hsrc

theorem length_write_store_block_le (last : Bool) (chunk : Bytes) :
    (write_store_block last chunk).length ≤ chunk.length + 3 := by
  cases chunk with
  | nil => rfl
  | cons b tail =>
    rw [write_store_block]
    split_ifs
    · rw [write_rle_block, List.length_append, length_write_block_header, List.length_cons]
      simp
    · rw [write_raw_block, List.length_append, length_write_block_header]
      omega

/-! ## One compressed block -/

/-- The body of a compressed block. -/
def block_body (p : Parse) (prev : EncTables) : Bytes :=
  (write_literals_auto p.literals prev.lit).1 ++ (write_sequences p.seqs prev.seq).1

theorem emit_one_eq (last : Bool) (p : Parse) (prev : EncTables) : emit_one last p prev =
    (write_block_header last .Compressed (block_body p prev).length ++ block_body p prev,
      ⟨(write_sequences p.seqs prev.seq).2, (write_literals_auto p.literals prev.lit).2⟩) := rfl

theorem ValidParse.length_literals_le {c : Candidate} {rep : Reps}
    (h : ValidParse data start stop rep c) (hstop : stop ≤ data.length) :
    c.parse.literals.length ≤ stop - start := by
  obtain ⟨last, hlast, hreplays, hlits⟩ := h
  have hruns := hreplays.length_literals_le (hlast.trans hstop)
  have htail := length_range (p := last) data hstop
  have hle := hreplays.le
  rw [hlits, List.length_append, htail]
  omega

/-- Whatever section holds the literals of a parse, its body is decoded to the bytes parsed. -/
theorem decode_parse_body (h : Ready data pre start stop limit s) {c : Candidate}
    (hvalid : ValidParse data start stop s.rep c)
    (hfields : ∀ q ∈ c.parse.seqs, q.offset_value < 2 ^ 32) (hnear : Near window c.parse.seqs)
    {prev : SeqCTables} (hrel : RelatedTables prev s.seq) {lits : Bytes} {cache : Option HuffTable}
    (hdecode : Literals.decode (lits ++ (write_sequences c.parse.seqs prev).1) s.huff =
      .ok ⟨c.parse.literals, lits.length, cache⟩) :
    ∃ s', s.decode_compressed (lits ++ (write_sequences c.parse.seqs prev).1) = .ok s' ∧
      Decoded window data pre stop s s' ∧ s'.rep = c.rep ∧
      RelatedTables (write_sequences c.parse.seqs prev).2 s'.seq ∧ s'.huff = cache := by
  have hdict := h.dict
  have hout := h.length_out
  have hsmall := h.small
  have hmax := h.limit_max
  have hceiling := h.ceiling
  have hword := h.word
  have hrange := h.range
  have hinside := h.inside
  have hblock := h.block_max
  have hbsm : BLOCK_SIZE_MAX = 131072 := rfl
  have husize : usizeMax = 2 ^ 64 - 1 := rfl
  obtain ⟨r, hcapped, hr, hrep, htables, hreach⟩ := @ValidParse.decode_capped data pre s.rep c start
    stop
    window hvalid h.inside (by omega) hfields hnear prev s.seq hrel s.dict_len
    (min s.max_output (min (s.out.length - s.dict_len + s.block_max) usizeMax)) hdict (by omega)
      hword
  rw [← h.out] at hcapped
  rw [decode_compressed, hdecode, bind_ok, output_len, sub_ok (by omega), bind_ok]
  dsimp only
  rw [sliceFrom_ok (by rw [List.length_append]; omega), bind_ok, List.drop_left, hcapped, bind_ok]
  refine ⟨_, rfl, ⟨hr, ⟨rfl, rfl, rfl⟩, fun hs => ?_⟩, hrep, htables, rfl⟩
  obtain ⟨hwithin, hmatches⟩ := hreach hs.rep
  refine ⟨by rw [← hrep] at hwithin; exact hwithin, ?_⟩
  intro m hm
  rcases List.mem_append.mp hm with hm | hm
  · exact hs.matches_ m hm
  · obtain ⟨m', hm', rfl⟩ := List.mem_map.mp hm
    exact hmatches m' hm'

/-- The body of a compressed block is decoded to the bytes parsed, and the tables of both sides go
on belonging together. -/
theorem decode_block_body (h : Ready data pre start stop limit s) {c : Candidate}
    (hvalid : ValidParse data start stop s.rep c)
    (hfields : ∀ q ∈ c.parse.seqs, q.offset_value < 2 ^ 32) (hnear : Near window c.parse.seqs)
    {prev : EncTables} (hrel : prev.RelatedTo s) (last : Bool) :
    ∃ s', s.decode_compressed (block_body c.parse prev) = .ok s' ∧
    Decoded window data pre stop s s' ∧
      s'.rep = c.rep ∧ (emit_one last c.parse prev).2.RelatedTo s' := by
  have hlits := hvalid.length_literals_le h.inside
  have hsmall := h.small
  have hmax := h.limit_max
  have hbsm : BLOCK_SIZE_MAX = 131072 := rfl
  have hlen : c.parse.literals.length < 2 ^ 20 := by omega
  obtain ⟨cache, hdecode, hhuff⟩ :=
    decode_write_literals_auto hlen hrel.lit (write_sequences c.parse.seqs prev.seq).1
  obtain ⟨s', hs', hdec, hrep, htables, rfl⟩ := decode_parse_body h hvalid hfields hnear hrel.seq
    hdecode
  exact ⟨s', hs', hdec, hrep, ⟨htables, hhuff⟩⟩

/-- A compressed block is read as its body is decoded. -/
theorem write_compressed_run (h : Ready data pre start stop limit s) {chunk : Bytes}
    {s' : BlockState}
    (hdecode : s.counted.decode_compressed chunk = .ok s') (last : Bool)
      (hlen : chunk.length ≤ limit)
    (before rest : Bytes)
    (hsrc : (before ++ (write_block_header last .Compressed chunk.length ++ chunk ++ rest)).length <
      2 ^ 63) :
    s.decode_block_at (before ++ (write_block_header last .Compressed chunk.length ++ chunk ++
      rest))
        before.length =
      .ok (s', before.length + (write_block_header last .Compressed chunk.length ++ chunk).length,
        last) := by
  have hlimit := h.limit_max
  have hblock := h.block_max
  have hmax : BLOCK_SIZE_MAX = 131072 := rfl
  have husize : usizeMax = 2 ^ 64 - 1 := rfl
  have hheader := length_write_block_header last .Compressed chunk.length
  rw [List.append_assoc] at hsrc ⊢
  rw [List.length_append, List.length_append, List.length_append, hheader] at hsrc
  have hbody := body_append last .Compressed chunk.length before chunk rest
  rw [← hbody] at hdecode
  have hstep := BlockStep.compressed
    (header_at_append last .Compressed (by omega) before (chunk ++ rest)) rfl
    (by show chunk.length ≤ _; omega) (by show before.length + 3 + chunk.length ≤ _; omega)
    (by
      show before.length + 3 + chunk.length ≤ _
      rw [List.length_append, List.length_append, List.length_append, hheader]
      omega) hdecode
  rw [hstep.decode, List.length_append, hheader, Nat.add_assoc]

/-- What a run of blocks over the bytes up to `stop` does. -/
structure RunTo (window : Nat) (data pre src : Bytes) (stop : Nat) (s : BlockState) (pos pos' : Nat)
    (last : Bool) (rep : Reps) (tables : EncTables) : Prop where
  run : ∃ s', BlocksRun src ⟨s, pos, false⟩ ⟨s', pos', last⟩ ∧ Decoded window data pre stop s s' ∧
    s'.rep = rep ∧ tables.RelatedTo s'

theorem emit_one_run (h : Ready data pre start stop limit s) {c : Candidate}
    (hvalid : ValidParse data start stop s.rep c)
    (hfields : ∀ q ∈ c.parse.seqs, q.offset_value < 2 ^ 32) (hnear : Near window c.parse.seqs)
    {prev : EncTables} (hrel : prev.RelatedTo s) (last : Bool)
    (hlen : (emit_one last c.parse prev).1.length ≤ limit + 3) (before rest : Bytes)
    (hsrc : (before ++ ((emit_one last c.parse prev).1 ++ rest)).length < 2 ^ 63) :
    RunTo window data pre (before ++ ((emit_one last c.parse prev).1 ++ rest)) stop s before.length
      (before.length + (emit_one last c.parse prev).1.length) last c.rep
      (emit_one last c.parse prev).2 := by
  obtain ⟨s', hdecode, hdec, hrep, htables⟩ :=
    decode_block_body h.counted hvalid hfields hnear
      (show prev.RelatedTo s.counted from ⟨hrel.seq, hrel.lit⟩) last
  refine ⟨s', NextBlock.run ?_, ⟨hdec.out, ⟨hdec.same.1, hdec.same.2, hdec.same.3⟩,
    fun hs => hdec.near ⟨hs.rep, hs.matches_⟩⟩, hrep, htables⟩
  have hheader := length_write_block_header last .Compressed (block_body c.parse prev).length
  rw [emit_one_eq] at hlen hsrc ⊢
  dsimp only at hlen hsrc ⊢
  rw [List.length_append, hheader] at hlen
  exact write_compressed_run h hdecode last (by omega) before rest hsrc

/-! ## Split blocks -/

/-- The blocks of a parse, whether it is split or not. -/
theorem emit_split_run (depth : Nat) : ∀ {start stop : Nat} {s : BlockState},
    Ready data pre start stop limit s → ∀ {c : Candidate}, ValidParse data start stop s.rep c →
    (∀ q ∈ c.parse.seqs, q.offset_value < 2 ^ 32) → Near window c.parse.seqs →
    ∀ {prev : EncTables}, prev.RelatedTo s →
    ∀ (last : Bool), (emit_split last c.parse prev depth).1.length ≤ limit + 3 →
    ∀ before rest : Bytes,
      (before ++ ((emit_split last c.parse prev depth).1 ++ rest)).length < 2 ^ 63 →
      RunTo window data pre (before ++ ((emit_split last c.parse prev depth).1 ++ rest)) stop s
        before.length
        (before.length + (emit_split last c.parse prev depth).1.length) last c.rep
        (emit_split last c.parse prev depth).2 := by
  induction depth with
  | zero =>
    intro start stop s h c hvalid hfields hnear prev hrel last hlen before rest hsrc
    exact emit_one_run h hvalid hfields hnear hrel last hlen before rest hsrc
  | succ depth ih =>
    intro start stop s h c hvalid hfields hnear prev hrel last hlen before rest hsrc
    by_cases hsplits : Splits c.parse
    · rw [emit_split_succ last prev hsplits depth] at hlen hsrc ⊢
      dsimp only at hlen hsrc ⊢
      split_ifs at hlen hsrc ⊢ with hshort
      · -- the halves are parses of the parts of the block
        obtain ⟨mid, rep_mid, hstart, hstop, hv₁, hv₂⟩ :=
          hvalid.halves h.inside (split_point c.parse.seqs)
        have hf₁ : ∀ q ∈ (first_half c.parse).seqs, q.offset_value < 2 ^ 32 :=
          fun q hq => hfields q (List.mem_of_mem_take hq)
        have hf₂ : ∀ q ∈ (second_half c.parse).seqs, q.offset_value < 2 ^ 32 :=
          fun q hq => hfields q (List.mem_of_mem_drop hq)
        have hn₁ : Near window (first_half c.parse).seqs :=
          fun q hq => hnear q (List.mem_of_mem_take hq)
        have hn₂ : Near window (second_half c.parse).seqs :=
          fun q hq => hnear q (List.mem_of_mem_drop hq)
        dsimp only at hlen hsrc ⊢
        rw [List.length_append] at hlen ⊢
        rw [List.append_assoc] at hsrc ⊢
        obtain ⟨s₁, hrun₁, hdec₁, hrep₁, hrel₁⟩ := (ih (h.first hstart hstop) hv₁ hf₁ hn₁ hrel false
          (by show (emit_split false (first_half c.parse) prev depth).1.length ≤ _; omega) before _
          hsrc).run
        subst hrep₁
        rw [← List.append_assoc before] at hsrc hrun₁ ⊢
        obtain ⟨s₂, hrun₂, hdec₂, hrep₂, hrel₂⟩ :=
          (ih (h.next hstart hstop hdec₁) hv₂ hf₂ hn₂ hrel₁ last
          (by
            show (emit_split last (second_half c.parse)
              (emit_split false (first_half c.parse) prev depth).2 depth).1.length ≤ _
            omega) (before ++ (emit_split false (first_half c.parse) prev depth).1) rest hsrc).run
        rw [List.length_append, Nat.add_assoc] at hrun₂
        exact ⟨s₂, hrun₁.trans hrun₂, hdec₁.trans hdec₂, hrep₂, hrel₂⟩
      · exact emit_one_run h hvalid hfields hnear hrel last hlen before rest hsrc
    · rw [emit_split_of_not_splits last prev hsplits] at hlen hsrc ⊢
      exact emit_one_run h hvalid hfields hnear hrel last hlen before rest hsrc

/-! ## The choice of a block -/

/-- The encoding picked is that of a candidate. -/
theorem emit_and_pick_mem (last : Bool) (parsed : Parsed) (prev : EncTables) (depth : Nat) :
    ∃ c ∈ parsed.primary :: parsed.alts,
      emit_and_pick last parsed prev depth = emit_candidate last prev depth c := by
  have hpick : ∀ (cs : List Candidate) (best : Candidate),
      ∃ c ∈ best :: cs, (cs.map (emit_candidate last prev depth)).foldl smaller
        (emit_candidate last prev depth best) = emit_candidate last prev depth c := by
    intro cs
    induction cs with
    | nil => exact fun best => ⟨best, List.mem_cons_self, rfl⟩
    | cons c cs ih =>
      intro best
      rw [List.map_cons, List.foldl_cons, smaller]
      split_ifs
      · obtain ⟨c', hc', heq⟩ := ih c
        exact ⟨c', List.mem_cons_of_mem _ hc', heq⟩
      · obtain ⟨c', hc', heq⟩ := ih best
        refine ⟨c', ?_, heq⟩
        rcases List.mem_cons.mp hc' with rfl | hc'
        · exact List.mem_cons_self
        · exact List.mem_cons_of_mem _ (List.mem_cons_of_mem _ hc')
  rw [emit_and_pick_eq]
  exact hpick parsed.alts parsed.primary

/-- The sequences that the bytes of a block are written from: none if it is stored, else those of a
valid parse. -/
def WrittenFrom (data : Bytes) (start stop : Nat) (e : EncState) (last : Bool) (depth : Nat)
    (bytes : Bytes) (seqs : List Seq) : Prop :=
  bytes = write_store_block last (range_of data start stop) ∧ seqs = [] ∨
    ∃ c, ValidParse data start stop e.rep c ∧ c.parse.seqs = seqs ∧
      bytes = (emit_candidate last e.tables depth c).bytes

/-- The blocks chosen for some bytes, from any valid parses of them. -/
theorem choose_block_run {e : EncState} (hrel : e.RelatedTo s)
    (h : Ready data pre start stop (stop - start) s) {parsed : Parsed}
    (hvalid : ∀ c ∈ parsed.primary :: parsed.alts, ValidParse data start stop e.rep c)
    (hfields : ∀ c ∈ parsed.primary :: parsed.alts, ∀ q ∈ c.parse.seqs, q.offset_value < 2 ^ 32)
    (hnear : Within window e.rep → ∀ c ∈ parsed.primary :: parsed.alts, Near window c.parse.seqs)
    (last : Bool) (depth : Nat) (before rest : Bytes) {chosen : Emitted}
    (hchosen : choose_block (write_store_block last (range_of data start stop)) e
      (emit_and_pick last parsed e.tables depth) = chosen)
    (hsrc : (before ++ (chosen.bytes ++ rest)).length < 2 ^ 63) :
    ∃ s', BlocksRun (before ++ (chosen.bytes ++ rest)) ⟨s, before.length, false⟩
        ⟨s', before.length + chosen.bytes.length, last⟩ ∧
      Decoded window data pre stop s s' ∧ chosen.state.RelatedTo s' ∧
      (e.rep = s.rep → chosen.state.rep = s'.rep) ∧
      ∃ seqs, WrittenFrom data start stop e last depth chosen.bytes seqs ∧
        KnowsAlong e.rep s.rep seqs chosen.state.rep s'.rep := by
  unfold choose_block at hchosen
  split_ifs at hchosen with hshort
  · obtain ⟨c, hc, hpick⟩ := emit_and_pick_mem last parsed e.tables depth
    rw [hpick] at hchosen hshort
    subst hchosen
    have hstore := length_write_store_block_le last (range_of data start stop)
    rw [length_range data h.inside] at hstore
    obtain ⟨rep', hv, hk, hall⟩ := (hvalid c hc).known hrel.rep
    have hlen : (emit_candidate last e.tables depth c).bytes.length ≤ stop - start + 3 := by omega
    obtain ⟨s', hrun, hdec, hrep, htables⟩ : ∃ s', BlocksRun _ _ _ ∧
      Decoded window data pre stop s s' ∧
        s'.rep = rep' ∧ _ := by
      by_cases hw : Within window s.rep
      · exact (emit_split_run depth h hv (hfields c hc) (hnear (hrel.rep.within hw) c hc)
          hrel.tables last
          hlen before rest hsrc).run
      · have hlarge : Near (2 ^ 32) c.parse.seqs :=
          fun q hq => (hfields c hc q hq).le.trans (Nat.le_add_right _ _)
        obtain ⟨s', hrun, hdec, hrest⟩ :=
          (emit_split_run depth h hv (hfields c hc) hlarge hrel.tables last
          hlen before rest hsrc).run
        exact ⟨s', hrun, hdec.of_not_within hw, hrest⟩
    subst hrep
    obtain ⟨_, -, hreplays, -⟩ := hvalid c hc
    obtain ⟨_, -, hreplays', -⟩ := hv
    exact ⟨s', hrun, hdec, ⟨hk, htables⟩, hall, c.parse.seqs, Or.inr ⟨c, hvalid c hc, rfl, rfl⟩,
      hreplays.knows_along hreplays' hrel.rep⟩
  · subst hchosen
    refine ⟨_, NextBlock.run (write_store_block_run h last before rest hsrc),
      ⟨?_, ⟨rfl, rfl, rfl⟩, fun hs => ⟨hs.rep, hs.matches_⟩⟩,
        ⟨hrel.rep, hrel.tables.seq, hrel.tables.lit⟩, fun h => h, [], Or.inl ⟨rfl, rfl⟩,
        .nil hrel.rep⟩
    show s.out ++ range_of data start stop = _
    rw [h.out, List.append_assoc, take_append_range data h.range]

/-- The block that is written decodes to the bytes of the block, whichever of the candidates, their
splits and the stored block it is, and what the encoder keeps belongs to what the decoder keeps. -/
theorem choose_block_step {e : EncState} (hrel : e.RelatedTo s)
    (h : Ready data pre start stop (stop - start) s) {parsed : Parsed}
    (hvalid : ∀ c ∈ parsed.primary :: parsed.alts, ValidParse data start stop e.rep c)
    (hfields : ∀ c ∈ parsed.primary :: parsed.alts, ∀ q ∈ c.parse.seqs, q.offset_value < 2 ^ 32)
    (last : Bool) (depth : Nat) (before rest : Bytes) (hsrc : before.length + rest.length < 2 ^ 62)
    {chosen : Emitted}
    (hchosen : choose_block (write_store_block last (range_of data start stop)) e
      (emit_and_pick last parsed e.tables depth) = chosen) :
    ∃ s', BlocksRun (before ++ (chosen.bytes ++ rest)) ⟨s, before.length, false⟩
        ⟨s', before.length + chosen.bytes.length, last⟩ ∧
      s'.out = s.out ++ range_of data start stop ∧ chosen.state.RelatedTo s' ∧
      (e.rep = s.rep → chosen.state.rep = s'.rep) := by
  have hlen := (length_choose_block_le (write_store_block last (range_of data start stop)) e
    (emit_and_pick last parsed e.tables depth)).trans (length_write_store_block_le _ _)
  rw [length_range data h.inside, hchosen] at hlen
  have hlimit := h.limit_max
  have hmax : BLOCK_SIZE_MAX = 131072 := rfl
  have hnear : Within (2 ^ 32) e.rep → ∀ c ∈ parsed.primary :: parsed.alts,
      Near (2 ^ 32) c.parse.seqs :=
    fun _ c hc q hq => (hfields c hc q hq).le.trans (Nat.le_add_right _ _)
  obtain ⟨s', hrun, hdec, hrel', hrep, -⟩ :=
    choose_block_run hrel h hvalid hfields hnear last depth before rest hchosen (by
      rw [List.length_append, List.length_append]
      omega)
  refine ⟨s', hrun, ?_, hrel', hrep⟩
  rw [hdec.out, h.out, List.append_assoc, take_append_range data h.range]

/-- One step of the frame loop for an encoder that knows only some of the decoder's repeat offsets,
as the later workers of a parallel frame do. -/
theorem choose_block_lockstep {e : EncState} (hrel : e.RelatedTo s)
    (h : Ready data pre start stop (stop - start) s) {parsed : Parsed}
    (hvalid : ∀ c ∈ parsed.primary :: parsed.alts, ValidParse data start stop e.rep c)
    (hfields : ∀ c ∈ parsed.primary :: parsed.alts, ∀ q ∈ c.parse.seqs, q.offset_value < 2 ^ 32)
    (last : Bool) (depth : Nat) (before rest : Bytes) (hsrc : before.length + rest.length <
      2 ^ 62) :
    let chosen := choose_block (write_store_block last (range_of data start stop)) e
      (emit_and_pick last parsed e.tables depth)
    ∃ s', BlocksRun (before ++ (chosen.bytes ++ rest)) ⟨s, before.length, false⟩
        ⟨s', before.length + chosen.bytes.length, last⟩ ∧
      s'.out = s.out ++ range_of data start stop ∧ chosen.state.RelatedTo s' ∧
      (e.rep = s.rep → chosen.state.rep = s'.rep) :=
  choose_block_step hrel h hvalid hfields last depth before rest hsrc rfl

/-- One step of the frame loop keeps both sides in lockstep: with equal repeat offsets and related
tables before the block, the bytes that are appended decode to those of the block, and the repeat
offsets are equal and the tables related after it. -/
theorem frame_loop_lockstep {e : EncState} (hrep : e.rep = s.rep) (htables : e.tables.RelatedTo s)
    (h : Ready data pre start stop (stop - start) s) {parsed : Parsed}
    (hvalid : ∀ c ∈ parsed.primary :: parsed.alts, ValidParse data start stop e.rep c)
    (hfields : ∀ c ∈ parsed.primary :: parsed.alts, ∀ q ∈ c.parse.seqs, q.offset_value < 2 ^ 32)
    (last : Bool) (depth : Nat) (before rest : Bytes) (hsrc : before.length + rest.length <
      2 ^ 62) :
    let chosen := choose_block (write_store_block last (range_of data start stop)) e
      (emit_and_pick last parsed e.tables depth)
    ∃ s', BlocksRun (before ++ (chosen.bytes ++ rest)) ⟨s, before.length, false⟩
        ⟨s', before.length + chosen.bytes.length, last⟩ ∧
      s'.out = s.out ++ range_of data start stop ∧ chosen.state.rep = s'.rep ∧
      chosen.state.tables.RelatedTo s' := by
  intro chosen
  have hrel : e.RelatedTo s := ⟨hrep ▸ Knows.refl _, htables⟩
  obtain ⟨s', hrun, hout, hrel', hsame⟩ :=
    choose_block_step hrel h hvalid hfields last depth before rest hsrc rfl
  exact ⟨s', hrun, hout, hsame hrep, hrel'.tables⟩

end Blocks

/-- A repetition of four bytes as the last block of a frame, from the repeat offsets of a frame. -/
theorem choose_block_lockstep_repetition :
    let data : Bytes := (List.replicate 6 [97, 98, 99, 100]).flatten
    let parsed : Parsed := ⟨⟨⟨[⟨4, 20, 2⟩], [97, 98, 99, 100]⟩, ⟨4, 1, 8⟩⟩, []⟩
    let e := EncState.start
    let s := BlockState.start 24 1024 none
    let before : Bytes := [1]
    let chosen := choose_block (write_store_block true (range_of data 0 24)) e
      (emit_and_pick true parsed e.tables 4)
    ∃ s', BlocksRun (before ++ (chosen.bytes ++ [2])) ⟨s, before.length, false⟩
        ⟨s', before.length + chosen.bytes.length, true⟩ ∧
      s'.out = s.out ++ range_of data 0 24 ∧ chosen.state.RelatedTo s' ∧
      (e.rep = s.rep → chosen.state.rep = s'.rep) := by
  intro data parsed e s before
  have hreal : RealMatch data 4 20 4 := by decide
  have hvalid : ValidParse data 0 24 EncState.start.rep parsed.primary :=
    ⟨24, le_refl _, Replays.cons rfl (by decide) (by decide) hreal (Replays.nil _ _), by decide⟩
  have hready : Ready data [] 0 24 24 s :=
    ⟨rfl, by decide, by decide, by decide, by decide, by decide, by decide, by decide, by decide⟩
  have hcands : ∀ c ∈ parsed.primary :: parsed.alts, c = parsed.primary := fun c hc =>
    List.mem_singleton.mp hc
  have hrun := @choose_block_lockstep data [] 0 24 s e (EncState.start_related 24 1024) hready
    parsed
    (fun c hc => hcands c hc ▸ hvalid) (fun c hc => hcands c hc ▸ by decide) true 4 before [2]
    (by decide)
  exact hrun

/-- The same repetition from equal repeat offsets, as the last block of a frame. -/
theorem frame_loop_lockstep_repetition :
    let data : Bytes := (List.replicate 6 [97, 98, 99, 100]).flatten
    let parsed : Parsed := ⟨⟨⟨[⟨4, 20, 2⟩], [97, 98, 99, 100]⟩, ⟨4, 1, 8⟩⟩, []⟩
    let e := EncState.start
    let s := BlockState.start 24 1024 none
    let before : Bytes := [1]
    let chosen := choose_block (write_store_block true (range_of data 0 24)) e
      (emit_and_pick true parsed e.tables 4)
    ∃ s', BlocksRun (before ++ (chosen.bytes ++ [2])) ⟨s, before.length, false⟩
        ⟨s', before.length + chosen.bytes.length, true⟩ ∧
      s'.out = s.out ++ range_of data 0 24 ∧ chosen.state.rep = s'.rep ∧
      chosen.state.tables.RelatedTo s' := by
  intro data parsed e s before
  have hreal : RealMatch data 4 20 4 := by decide
  have hvalid : ValidParse data 0 24 EncState.start.rep parsed.primary :=
    ⟨24, le_refl _, Replays.cons rfl (by decide) (by decide) hreal (Replays.nil _ _), by decide⟩
  have hready : Ready data [] 0 24 24 s :=
    ⟨rfl, by decide, by decide, by decide, by decide, by decide, by decide, by decide, by decide⟩
  have hcands : ∀ c ∈ parsed.primary :: parsed.alts, c = parsed.primary := fun c hc =>
    List.mem_singleton.mp hc
  have hrun := @frame_loop_lockstep data [] 0 24 s e rfl (EncTables.default_related s) hready parsed
    (fun c hc => hcands c hc ▸ hvalid) (fun c hc => hcands c hc ▸ by decide) true 4 before [2]
    (by decide)
  exact hrun

end ZstdPure.Encode
