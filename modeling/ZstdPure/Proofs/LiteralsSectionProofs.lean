import ZstdPure.Proofs.LitStreamProofs
import ZstdPure.Proofs.WeightHeaderProofs
import ZstdPure.Proofs.LiteralsProofs

/-!
# Writing and reading a literals section

Every section that `write_literals_auto` writes, raw, compressed or treeless, gives the decoder the
literals back, and both sides keep tables with the same codes.
-/

namespace ZstdPure.Encode

open Outcome Huff Literals Tally

section

variable {lits hdr rest payload : Bytes} {cache : Option HuffTable} {bt regen comp : Nat}
  {four : Bool}

/-! ## Headers -/

theorem getElem?_leBytes {k i : Nat} (v : Nat) (hi : i < k) :
    (leBytes k v)[i]? = some (UInt8.ofNat (v / 2 ^ (8 * i))) := by
  induction i generalizing k v with
  | zero =>
    obtain ⟨k, rfl⟩ := Nat.exists_eq_succ_of_ne_zero (Nat.pos_iff_ne_zero.mp hi)
    simp [leBytes]
  | succ i ih =>
    obtain ⟨k, rfl⟩ := Nat.exists_eq_succ_of_ne_zero (Nat.ne_zero_of_lt hi)
    rw [leBytes, List.getElem?_cons_succ, ih _ (by omega), Nat.div_div_eq_div_mul, Nat.mul_add,
      pow_add, Nat.mul_comm (2 ^ (8 * i))]
    rfl

theorem byte_of_getElem? {src : Bytes} {i : Nat} {b : UInt8} (h : src[i]? = some b) :
    byte src i = .ok b.toNat := by
  obtain ⟨hlt, hget⟩ := List.getElem?_eq_some_iff.mp h
  rw [byte, get_ok hlt, bind_ok, hget]
  rfl

theorem need_ok {src : Bytes} {n : Nat} (h : n ≤ src.length) : need src n = .ok () := by
  rw [need, if_neg (by omega)]
  rfl

/-- A byte of a written number. -/
theorem byte_leBytes {k i : Nat} (v : Nat) (hi : i < k) (rest : Bytes) :
    byte (leBytes k v ++ rest) i = .ok (v / 2 ^ (8 * i) % 256) := by
  rw [byte_of_getElem? (b := UInt8.ofNat (v / 2 ^ (8 * i)))]
  · rw [UInt8.toNat_ofNat']
  · rw [List.getElem?_append_left (by rw [length_leBytes]; exact hi), getElem?_leBytes v hi]

/-- The fields of a header: type, format and two sizes. -/
def header_value (bt fmt n regen comp : Nat) : Nat :=
  bt ||| fmt <<< 2 ||| regen <<< 4 ||| comp <<< (4 + n)

theorem header_value_spec (fmt : Nat) {n : Nat} (hbt : bt < 4) (hfmt : fmt < 4) (hr : regen < 2 ^ n)
    (hc : comp < 2 ^ n) :
    header_value bt fmt n regen comp < 2 ^ (4 + n + n) ∧
      header_value bt fmt n regen comp &&& 3 = bt ∧
      (header_value bt fmt n regen comp >>> 2) &&& 3 = fmt ∧
      (header_value bt fmt n regen comp >>> 4) &&& (2 ^ n - 1) = regen ∧
      (header_value bt fmt n regen comp >>> (4 + n)) &&& (2 ^ n - 1) = comp := by
  have hlow : bt + fmt * 2 ^ 2 < 2 ^ 4 := by omega
  have hmid : bt + fmt * 2 ^ 2 + regen * 2 ^ 4 < 2 ^ (4 + n) := by
    rw [pow_add]
    omega
  have hv : header_value bt fmt n regen comp
      = bt + fmt * 2 ^ 2 + (regen + comp * 2 ^ n) * 2 ^ 4 := by
    rw [header_value, lor_shl_eq_add _ 2 (by omega), lor_shl_eq_add _ 4 hlow,
      lor_shl_eq_add _ _ hmid]
    ring
  have hdiv : header_value bt fmt n regen comp / 2 ^ 4 = regen + comp * 2 ^ n := by
    rw [hv, Nat.add_mul_div_right _ _ (by decide), Nat.div_eq_of_lt hlow, Nat.zero_add]
  refine ⟨?_, ?_, ?_, ?_, ?_⟩
  · have hle : (comp + 1) * 2 ^ n ≤ 2 ^ n * 2 ^ n := Nat.mul_le_mul_right _ hc
    rw [Nat.add_mul] at hle
    rw [hv, pow_add, pow_add, Nat.mul_assoc]
    omega
  · rw [show 3 = 2 ^ 2 - 1 from rfl, Nat.and_two_pow_sub_one_eq_mod, hv]
    omega
  · rw [show 3 = 2 ^ 2 - 1 from rfl, Nat.and_two_pow_sub_one_eq_mod, Nat.shiftRight_eq_div_pow, hv]
    omega
  · rw [Nat.and_two_pow_sub_one_eq_mod, Nat.shiftRight_eq_div_pow, hdiv, Nat.add_mul_mod_self_right,
      Nat.mod_eq_of_lt hr]
  · rw [Nat.and_two_pow_sub_one_eq_mod, Nat.shiftRight_eq_div_pow, pow_add,
      ← Nat.div_div_eq_div_mul,
      hdiv, Nat.add_mul_div_right _ _ (by positivity), Nat.div_eq_of_lt hr, Nat.zero_add,
      Nat.mod_eq_of_lt hc]

/-- The size fields of each format: `n` bits in a header of `k` bytes. -/
theorem write_compressed_lit_header_eq
    (h : write_compressed_lit_header bt four regen comp = .ok hdr) :
    ∃ fmt k n, hdr = leBytes k (header_value bt fmt n regen comp) ∧ regen < 2 ^ n ∧ comp < 2 ^ n ∧
      ((fmt = 0 ∧ four = false ∨ fmt = 1 ∧ four = true) ∧ k = 3 ∧ n = 10 ∨
        fmt = 2 ∧ four = true ∧ k = 4 ∧ n = 14 ∨ fmt = 3 ∧ four = true ∧ k = 5 ∧ n = 18) := by
  rw [write_compressed_lit_header, size_format] at h
  cases four with
  | false =>
    simp only [Bool.not_false, if_true] at h
    split_ifs at h with h10
    · refine ⟨0, 3, 10, ?_, by omega, by omega, by simp⟩
      rw [← Except.ok.inj h, header_value]
      simp
    · exact absurd h (fail_ne_ok _ _)
  | true =>
    simp only [Bool.not_true, Bool.false_eq_true, if_false] at h
    split_ifs at h with h10 h14 h18
    · exact ⟨1, 3, 10, (Except.ok.inj h).symm, by omega, by omega, by simp⟩
    · exact ⟨2, 4, 14, (Except.ok.inj h).symm, by omega, by omega, by simp⟩
    · exact ⟨3, 5, 18, (Except.ok.inj h).symm, by omega, by omega, by simp⟩
    · exact absurd h (fail_ne_ok _ _)

/-- The bytes of a number put together again. -/
theorem lor_bytes (v : Nat) :
    (v % 256 ||| (v / 2 ^ 8 % 256) <<< 8 ||| (v / 2 ^ 16 % 256) <<< 16) = v % 2 ^ 24 ∧
      (v % 2 ^ 24 ||| (v / 2 ^ 24 % 256) <<< 24) = v % 2 ^ 32 ∧
      (v % 2 ^ 32 ||| (v / 2 ^ 32 % 256) <<< 32) = v % 2 ^ 40 := by
  refine ⟨?_, ?_, ?_⟩
  · rw [lor_shl_eq_add _ 8 (by omega), lor_shl_eq_add _ 16 (by omega)]
    omega
  · rw [lor_shl_eq_add _ 24 (by omega)]
    omega
  · rw [lor_shl_eq_add _ 32 (by omega)]
    omega

/-- The decoder reads the fields of a written header. -/
theorem parse_write_header (hbt : bt < 4)
    (h : write_compressed_lit_header bt four regen comp = .ok hdr) (rest : Bytes) :
    ∃ b0, byte (hdr ++ rest) 0 = .ok b0 ∧ b0 &&& 3 = bt ∧ regen < 2 ^ 18 ∧ comp < 2 ^ 18 ∧
      hdr.length ≤ 5 ∧ 0 < hdr.length ∧
      parse_compressed_header (hdr ++ rest) b0 ((b0 >>> 2) &&& 3)
        = .ok ⟨regen, comp, hdr.length, four⟩ := by
  obtain ⟨fmt, k, n, rfl, hr, hc, hform⟩ := write_compressed_lit_header_eq h
  obtain ⟨hlt, htype, hformat, hregen, hcomp⟩ :=
    header_value_spec fmt hbt (by omega) hr hc
  generalize header_value bt fmt n regen comp = v at *
  have hb := fun i hi => byte_leBytes (k := k) (i := i) v hi rest
  have hlen : k ≤ (leBytes k v ++ rest).length := by
    rw [List.length_append, length_leBytes]
    omega
  obtain ⟨h3, h4, h5⟩ := lor_bytes v
  have h18 : 2 ^ n ≤ 2 ^ 18 := Nat.pow_le_pow_right (by decide) (by omega)
  refine ⟨v % 256, by simpa using hb 0 (by omega), ?_, by omega, by omega,
    by rw [length_leBytes]; omega, by rw [length_leBytes]; omega, ?_⟩
  · rw [← htype, show 3 = 2 ^ 2 - 1 from rfl, Nat.and_two_pow_sub_one_eq_mod,
      Nat.and_two_pow_sub_one_eq_mod]
    omega
  have hfmt : ((v % 256) >>> 2) &&& 3 = fmt := by
    rw [← hformat, show 3 = 2 ^ 2 - 1 from rfl, Nat.and_two_pow_sub_one_eq_mod,
      Nat.and_two_pow_sub_one_eq_mod, Nat.shiftRight_eq_div_pow, Nat.shiftRight_eq_div_pow]
    omega
  rw [hfmt, parse_compressed_header, length_leBytes]
  rcases hform with ⟨hfmt, rfl, rfl⟩ | ⟨rfl, rfl, rfl, rfl⟩ | ⟨rfl, rfl, rfl, rfl⟩
  · rw [if_pos (by omega), need_ok hlen, bind_ok, hb 1 (by decide), bind_ok, hb 2 (by decide),
      bind_ok]
    simp only [Nat.reduceMul, h3, Nat.mod_eq_of_lt hlt]
    rw [show 0x3FF = 2 ^ 10 - 1 from rfl, hregen, hcomp]
    rcases hfmt with ⟨rfl, rfl⟩ | ⟨rfl, rfl⟩ <;> rfl
  · rw [if_neg (by decide), if_pos rfl, need_ok hlen, bind_ok, hb 1 (by decide), bind_ok,
      hb 2 (by decide), bind_ok, hb 3 (by decide), bind_ok]
    simp only [Nat.reduceMul, h3, h4, Nat.mod_eq_of_lt hlt]
    rw [show 0x3FFF = 2 ^ 14 - 1 from rfl, hregen, hcomp]
    rfl
  · rw [if_neg (by decide), if_neg (by decide), need_ok hlen, bind_ok, hb 1 (by decide), bind_ok,
      hb 2 (by decide), bind_ok, hb 3 (by decide), bind_ok, hb 4 (by decide), bind_ok]
    simp only [Nat.reduceMul, h3, h4, h5, Nat.mod_eq_of_lt hlt]
    rw [show 0x3FFFF = 2 ^ 18 - 1 from rfl, hregen, hcomp]
    rfl

/-! ## Sections -/

/-- A byte in front. -/
theorem byte_cons (b : UInt8) (rest : Bytes) : byte (b :: rest) 0 = .ok b.toNat := by
  rw [byte_of_getElem? (b := b) rfl]

/-- The decoder reads the header of a raw section. -/
theorem parse_raw_literals (hlen : lits.length < 2 ^ 20) (rest : Bytes) :
    ∃ hdr b0, write_raw_literals lits = hdr ++ lits ∧ byte (hdr ++ (lits ++ rest)) 0 = .ok b0 ∧
      b0 &&& 3 = 0 ∧ 0 < hdr.length ∧ hdr.length ≤ 3 ∧
      parse_raw_header (hdr ++ (lits ++ rest)) b0 ((b0 >>> 2) &&& 3)
        = .ok (lits.length, hdr.length) := by
  rw [write_raw_literals]
  generalize lits.length = n at hlen ⊢
  have hand : ∀ v, v &&& 3 = v % 4 := fun v => Nat.and_two_pow_sub_one_eq_mod v 2
  have hand' : ∀ v, v &&& 0xF = v % 16 := fun v => Nat.and_two_pow_sub_one_eq_mod v 4
  split_ifs with h32 h4096
  · refine ⟨_, _, rfl, byte_cons _ _, ?_, by simp, by simp, ?_⟩
    · rw [hand, UInt8.toNat_ofNat', Nat.shiftLeft_eq]
      omega
    · rw [hand, UInt8.toNat_ofNat', Nat.shiftLeft_eq, Nat.shiftRight_eq_div_pow, parse_raw_header,
        if_pos (by omega), Nat.shiftRight_eq_div_pow]
      congr 2
      omega
  · refine ⟨_, _, rfl, byte_cons _ _, ?_, by simp, by simp, ?_⟩
    · rw [hand, hand', UInt8.toNat_ofNat', lor_shl_eq_add _ 4 (by decide)]
      omega
    · rw [hand', UInt8.toNat_ofNat', lor_shl_eq_add _ 4 (by decide),
        show ((1 <<< 2 + n % 16 * 2 ^ 4) % 2 ^ 8) >>> 2 &&& 3 = 1 by
          rw [hand, Nat.shiftRight_eq_div_pow]; omega]
      rw [parse_raw_header, if_neg (by decide), if_pos rfl, need_ok (by simp), bind_ok]
      rw [byte_of_getElem? (i := 1) rfl, bind_ok, UInt8.toNat_ofNat', Nat.shiftRight_eq_div_pow,
        Nat.shiftRight_eq_div_pow, lor_shl_eq_add _ 4 (by omega)]
      congr 2
      omega
  · refine ⟨_, _, rfl, byte_cons _ _, ?_, by simp, by simp, ?_⟩
    · rw [hand, hand', UInt8.toNat_ofNat', lor_shl_eq_add _ 4 (by decide)]
      omega
    · rw [hand', UInt8.toNat_ofNat', lor_shl_eq_add _ 4 (by decide),
        show ((3 <<< 2 + n % 16 * 2 ^ 4) % 2 ^ 8) >>> 2 &&& 3 = 3 by
          rw [hand, Nat.shiftRight_eq_div_pow]; omega]
      rw [parse_raw_header, if_neg (by decide), if_neg (by decide), need_ok (by simp), bind_ok]
      rw [byte_of_getElem? (i := 1) rfl, bind_ok, byte_of_getElem? (i := 2) rfl, bind_ok,
        UInt8.toNat_ofNat', UInt8.toNat_ofNat', Nat.shiftRight_eq_div_pow,
        Nat.shiftRight_eq_div_pow, Nat.shiftRight_eq_div_pow, lor_shl_eq_add _ 4 (by omega),
        lor_shl_eq_add _ 12 (by omega)]
      congr 2
      omega

/-- Raw literals. -/
theorem decode_write_raw_literals (hlen : lits.length < 2 ^ 20) (rest : Bytes)
    (cache : Option HuffTable) :
    decode (write_raw_literals lits ++ rest) cache
      = .ok ⟨lits, (write_raw_literals lits).length, cache⟩ := by
  obtain ⟨hdr, b0, hw, hb0, htype, hpos, h3, hparse⟩ := parse_raw_literals hlen rest
  rw [hw, List.append_assoc, decode, if_neg (by rw [List.length_append]; omega), hb0, bind_ok]
  dsimp only
  rw [htype, if_pos (Or.inl rfl), hparse, bind_ok]
  dsimp only
  rw [if_pos rfl, add_ok (by omega), bind_ok,
    need_ok (by simp only [List.length_append]; omega), bind_ok,
    slice_ok (by omega) (by simp only [List.length_append]; omega), bind_ok, ← List.length_append,
    ← List.append_assoc, List.take_left, List.drop_left]
  rfl

/-- A section with its payload decodes to the literals of its streams. -/
theorem decode_compressed_section {t : HuffTable} {stream : Bytes} {n : Nat}
    (h : write_compressed_lit_header bt four lits.length payload.length = .ok hdr)
    (htable : bt = 2 ∧ read_table payload = .ok (t, n) ∧ n ≤ payload.length ∧ payload.drop n =
      stream ∨
      bt = 3 ∧ cache = some t ∧ payload = stream)
    (hdec : (if four then decode_4stream t stream lits.length
      else decode_1stream t stream lits.length) = .ok lits) (rest : Bytes) :
    decode (hdr ++ payload ++ rest) cache = .ok ⟨lits, (hdr ++ payload).length, some t⟩ := by
  obtain ⟨b0, hb0, htype, hregen, hcomp, h5, hpos, hparse⟩ :=
    parse_write_header (by omega) h (payload ++ rest)
  rw [List.append_assoc, decode, if_neg (by rw [List.length_append]; omega), hb0, bind_ok]
  dsimp only
  rw [htype, if_neg (by omega), compressed_streams]
  dsimp only
  rw [htype, hparse, bind_ok, add_ok (by dsimp only; omega), bind_ok,
    need_ok (by simp only [List.length_append]; omega), bind_ok,
    slice_ok (by omega) (by simp only [List.length_append]; omega), bind_ok]
  dsimp only
  rw [← List.length_append, ← List.append_assoc, List.take_left, List.drop_left]
  rcases htable with ⟨rfl, hread, hn, rfl⟩ | ⟨rfl, rfl, rfl⟩
  · rw [if_pos rfl, hread, bind_ok]
    dsimp only
    rw [sliceFrom_ok hn, bind_ok, pure_eq_ok, bind_ok]
    dsimp only
    rw [unwrap_some, bind_ok, pure_eq_ok, bind_ok, Streams.decode, hdec]
    rfl
  · rw [if_neg (by decide), if_neg (by simp), pure_eq_ok, bind_ok]
    dsimp only
    rw [unwrap_some, bind_ok, pure_eq_ok, bind_ok, Streams.decode, hdec]
    rfl

/-! ## Tables -/

theorem histogram_eq_tally (lits : Bytes) :
    histogram lits = tally (lits.map UInt8.toNat) (List.replicate 256 0) := by
  rw [histogram, tally, List.foldl_map]

theorem toNat_lt_of_mem {d : Nat} (h : d ∈ lits.map UInt8.toNat) : d < 256 := by
  obtain ⟨b, -, rfl⟩ := List.mem_map.mp h
  exact b.toNat_lt_256

theorem getD_histogram (lits : Bytes) (i : Nat) :
    (histogram lits).getD i 0 = (lits.map UInt8.toNat).count i := by
  rw [histogram_eq_tally, getD_tally_zero fun _ => toNat_lt_of_mem]

theorem histogram_spec (lits : Bytes) :
    (histogram lits).length = 256 ∧ (histogram lits).sum = lits.length ∧
      ∀ b ∈ lits, 0 < (histogram lits).getD b.toNat 0 := by
  refine ⟨?_, ?_, fun b hb => ?_⟩
  · rw [histogram_eq_tally, length_tally_zero fun _ => toNat_lt_of_mem]
  · rw [histogram_eq_tally, ← weigh_one, weigh_tally_zero fun _ => toNat_lt_of_mem, List.map_const',
      List.sum_replicate, List.length_map, smul_eq_mul, Nat.mul_one]
  · rw [getD_histogram]
    exact List.count_pos_iff.mpr (List.mem_map_of_mem hb)

/-- A table that passes the check has a code for every literal. -/
theorem can_encode_of_hist {ct : CodeTable} (h : ct.can_encode_hist (histogram lits) = true) :
    CanEncode ct lits := by
  intro b hb
  have hcode := List.all_eq_true.mp h b.toNat (List.mem_range.mpr b.toNat_lt_256)
  have hpos := (histogram_spec lits).2.2 b hb
  rw [Bool.or_eq_true, beq_iff_eq, decide_eq_true_iff] at hcode
  omega

/-- A fresh table has a code for every literal, and its description gives the decoder its codes. -/
theorem build_fresh_table_spec {ct : CodeTable} {header : Bytes} (hlen : lits.length < 2 ^ 20)
    (h : build_fresh_table (histogram lits) = some (ct, header)) :
    ∃ t, SameCodes ct t ∧ CanEncode ct lits ∧
      ∀ rest, read_table (header ++ rest) = .ok (t, header.length) := by
  obtain ⟨hflen, hsum, hpos⟩ := histogram_spec lits
  rw [build_fresh_table] at h
  split_ifs at h with h2
  split at h
  · rename_i table htable
    split at h
    · rename_i weight_header hheader
      obtain ⟨rfl, rfl⟩ := Prod.mk.inj (Option.some.inj h)
      obtain ⟨hllen, hlpos⟩ := code_lengths_pos hflen (by omega) (by omega)
      obtain ⟨t, ht, hs, -, hwlen, hcodes⟩ := build_code_table_spec hllen htable
      exact ⟨t, hs, fun b hb => hcodes _ (hlpos _ (hpos b hb)), fun rest =>
        (read_write_weight_header ht hwlen hheader rest).2⟩
    · exact absurd h (by simp)
  · exact absurd h (by simp)

/-- A compressed section gives the decoder its literals and the codes of its table. -/
theorem decode_assemble_compressed_section {ct : CodeTable} {header bytes : Bytes}
    (cache : Option HuffTable)
    (hlen : lits.length < 2 ^ 20) (hfresh : build_fresh_table (histogram lits) = some (ct, header))
    (h : assemble_compressed_section ct header lits = .ok bytes) (rest : Bytes) :
    ∃ t, SameCodes ct t ∧ decode (bytes ++ rest) cache = .ok ⟨lits, bytes.length, some t⟩ := by
  obtain ⟨t, hs, hcan, hread⟩ := build_fresh_table_spec hlen hfresh
  obtain ⟨weights, hbuilt⟩ := hs.built
  obtain ⟨last, max_bits, -, hl⟩ := build_table_layout hbuilt
  rw [assemble_compressed_section] at h
  obtain ⟨⟨four, streams⟩, hstreams, h⟩ := bind_eq_ok.mp h
  obtain ⟨hdr, hhdr, h⟩ := bind_eq_ok.mp h
  obtain rfl := Except.ok.inj h
  obtain ⟨-, hdec⟩ := decode_encode_lit_streams hs hl hcan hlen hstreams
  exact ⟨t, hs, decode_compressed_section hhdr
    (Or.inl ⟨rfl, hread streams, by simp, List.drop_left⟩)
    hdec rest⟩

/-- A treeless section gives a decoder with the same codes its literals. -/
theorem decode_build_treeless_section {ct : CodeTable} {t : HuffTable} {bytes : Bytes}
    (hlen : lits.length < 2 ^ 20) (hs : SameCodes ct t) (hcan : CanEncode ct lits)
    (h : build_treeless_section lits ct = .ok bytes) (rest : Bytes) :
    decode (bytes ++ rest) (some t) = .ok ⟨lits, bytes.length, some t⟩ := by
  obtain ⟨weights, hbuilt⟩ := hs.built
  obtain ⟨last, max_bits, -, hl⟩ := build_table_layout hbuilt
  rw [build_treeless_section] at h
  obtain ⟨⟨four, streams⟩, hstreams, h⟩ := bind_eq_ok.mp h
  obtain ⟨hdr, hhdr, h⟩ := bind_eq_ok.mp h
  obtain rfl := Except.ok.inj h
  obtain ⟨-, hdec⟩ := decode_encode_lit_streams hs hl hcan hlen hstreams
  exact @decode_compressed_section _ _ _ _ _ _ _ _ 0 hhdr (Or.inr ⟨rfl, rfl, rfl⟩) hdec rest

/-- A table of codes that is kept for the next block is one whose decoding table is cached. -/
def RelatedHuff (prev : Option CodeTable) (cache : Option HuffTable) : Prop :=
  ∀ ct ∈ prev, ∃ t ∈ cache, SameCodes ct t

/-- The section picked for some literals is read back, and both sides keep tables with the same
codes. -/
theorem decode_write_literals_auto {prev : Option CodeTable} {cache : Option HuffTable}
    (hlen : lits.length < 2 ^ 20) (hrel : RelatedHuff prev cache) (rest : Bytes) :
    ∃ cache', decode ((write_literals_auto lits prev).1 ++ rest) cache
        = .ok ⟨lits, (write_literals_auto lits prev).1.length, cache'⟩ ∧
      RelatedHuff (write_literals_auto lits prev).2 cache' := by
  rw [write_literals_auto]
  split
  · rename_i ct htreeless
    obtain ⟨hprev, hsize⟩ := Option.filter_eq_some_iff.mp htreeless
    split
    · rename_i bytes hbytes
      obtain ⟨t, rfl, hs⟩ := hrel ct hprev
      have hcan : ct.can_encode_hist (histogram lits) = true := by
        by_contra hc
        rw [treeless_size, if_pos (by simpa using hc)] at hsize
        exact absurd hsize (by simp)
      exact ⟨some t, decode_build_treeless_section hlen hs (can_encode_of_hist hcan) hbytes rest,
        hrel⟩
    · exact ⟨cache, decode_write_raw_literals hlen rest cache, hrel⟩
  · rename_i ct header _ hcompressed
    obtain ⟨hfresh, -⟩ := Option.filter_eq_some_iff.mp hcompressed
    split
    · rename_i bytes hbytes
      obtain ⟨t, hs, hdec⟩ := decode_assemble_compressed_section cache hlen hfresh hbytes rest
      refine ⟨some t, hdec, ?_⟩
      rintro _ ⟨⟩
      exact ⟨t, rfl, hs⟩
    · exact ⟨cache, decode_write_raw_literals hlen rest cache, hrel⟩
  · exact ⟨cache, decode_write_raw_literals hlen rest cache, hrel⟩

end

/-- The decoder reads back the literals of every section, raw, compressed or treeless, whatever
follows it, and both sides keep tables with the same codes. -/
theorem write_literals_auto_round_trip (lits : Bytes) (prev : Option CodeTable)
    (cache : Option HuffTable) (rest : Bytes) (hlen : lits.length < 2 ^ 20)
    (hrel : RelatedHuff prev cache) :
    ∃ cache', decode ((write_literals_auto lits prev).1 ++ rest) cache
        = .ok ⟨lits, (write_literals_auto lits prev).1.length, cache'⟩ ∧
      RelatedHuff (write_literals_auto lits prev).2 cache' :=
  decode_write_literals_auto hlen hrel rest

/-- `write_literals_auto_round_trip` after a block that kept a table of two symbols. -/
theorem write_literals_auto_round_trip_pair :
    ∃ ct t, SameCodes ct t ∧ ct.weights = [1] ∧
      ∃ cache', decode ((write_literals_auto [0, 1, 1, 0] (some ct)).1 ++ [7]) (some t)
        = .ok ⟨[0, 1, 1, 0], (write_literals_auto [0, 1, 1, 0] (some ct)).1.length, cache'⟩ ∧
        RelatedHuff (write_literals_auto [0, 1, 1, 0] (some ct)).2 cache' := by
  have hc : Completes [1] 1 1 := ⟨by decide, by decide, by decide, by decide, le_rfl, by decide⟩
  obtain ⟨t, ht, hl⟩ := build_table_ok hc
  obtain ⟨hs, -⟩ := @invert_same_codes t _ _ hl ⟨_, ht⟩ 1 _ _ [1] rfl
  refine ⟨_, t, hs, rfl, ?_⟩
  exact write_literals_auto_round_trip [0, 1, 1, 0] (some _) (some t) [7] (by decide) (by
    rintro _ ⟨⟩
    exact ⟨t, rfl, hs⟩)

end ZstdPure.Encode
