import ZstdPure.Block
import ZstdPure.Proofs.LiteralsProofs
import ZstdPure.Proofs.SequencesProofs

/-!
# Blocks

A block decoded from any bytes keeps the decode state valid, appends to its output and produces at
most `2 ^ 15` bytes for every byte it consumes.
-/

namespace ZstdPure

open Outcome Huff Sequences

/-- What decoding a block keeps. -/
structure BlockState.Valid (s : BlockState) : Prop where
  dict : s.dict_len ≤ s.out.length
  block_max : s.block_max ≤ MAX_BLOCK_SIZE
  huff : Literals.CacheValid s.huff
  seq : s.seq.Valid

/-- The parts of the state no block changes. -/
structure BlockState.SameFrame (s s' : BlockState) : Prop where
  dict_len : s'.dict_len = s.dict_len
  max_output : s'.max_output = s.max_output
  block_max : s'.block_max = s.block_max

/-- What a block does to the output: at most `n` bytes are appended, within the ceiling. -/
structure BlockState.Grows (s s' : BlockState) (n : Nat) : Prop where
  valid : s'.Valid
  same : s.SameFrame s'
  out : s.out <+: s'.out
  length : s'.out.length ≤ s.out.length + n
  ceiling : s'.out.length ≤ max s.out.length (s.dict_len + s.max_output)

/-- A buffer whose length stays within the machine's word during the next block. -/
def BlockState.Bounded (s : BlockState) : Prop :=
  s.out.length ≤ s.dict_len + s.max_output ∧ s.dict_len + s.max_output < 2 ^ 64 ∨
    s.out.length + 2 ^ 17 < 2 ^ 64

namespace BlockState

variable {s : BlockState}

theorem Valid.output_len_ok (h : s.Valid) :
    s.output_len = .ok (s.out.length - s.dict_len) := sub_ok h.dict

theorem check_ceiling_ok {extra : Nat} (hdict : s.dict_len ≤ s.out.length)
    (hceil : s.out.length + extra ≤ s.dict_len + s.max_output)
    (hword : s.out.length + extra ≤ usizeMax) : s.check_ceiling extra = .ok () := by
  rw [check_ceiling, output_len, sub_ok hdict, bind_ok, if_neg (by omega)]
  rfl

theorem check_ceiling_safe (h : s.Valid) (extra : Nat) :
    Safe (s.check_ceiling extra) fun _ => s.out.length - s.dict_len + extra ≤ s.max_output := by
  rw [check_ceiling, h.output_len_ok, bind_ok]
  exact safe_ite (fun _ => safe_fail) fun hc => Safe.ok (by omega)

theorem decode_raw_safe (h : s.Valid) (data : Bytes) :
    Safe (s.decode_raw data) fun s' => s.Grows s' data.length := by
  have hd := h.dict
  rw [decode_raw]
  refine (check_ceiling_safe h _).bind fun _ hc => Safe.ok ?_
  exact ⟨⟨by simp; omega, h.block_max, h.huff, h.seq⟩, ⟨rfl, rfl, rfl⟩, List.prefix_append _ _,
    by simp, by simp only [List.length_append]; omega⟩

theorem decode_rle_safe (h : s.Valid) (byte : UInt8) (count : Nat) :
    Safe (s.decode_rle byte count) fun s' => s.Grows s' count := by
  have hd := h.dict
  rw [decode_rle]
  refine (check_ceiling_safe h _).bind fun _ hc => Safe.ok ?_
  exact ⟨⟨by simp; omega, h.block_max, h.huff, h.seq⟩, ⟨rfl, rfl, rfl⟩, List.prefix_append _ _,
    by simp, by simp only [List.length_append, List.length_replicate]; omega⟩

theorem decode_compressed_safe (h : s.Valid) {data : Bytes} (hdata : data.length < 2 ^ 55)
    (hout : s.Bounded) :
    Safe (s.decode_compressed data) fun s' => data ≠ [] ∧ s.Grows s' s.block_max := by
  have hd := h.dict
  have hmax : s.block_max ≤ 131072 := h.block_max
  rw [Bounded] at hout
  by_cases h0 : data.length = 0
  · rw [decode_compressed, Literals.decode, if_pos h0]
    exact safe_fail
  rw [decode_compressed]
  refine (Literals.decode_safe h.huff hdata).bind ?_
  rintro lits ⟨hcons, hlits, hcache⟩
  rw [h.output_len_ok, bind_ok]
  dsimp only
  rw [sliceFrom_ok hcons, bind_ok]
  refine (decode_capped_safe h.seq (by rw [List.length_drop]; omega) (by omega) hd (by omega)
    (by omega)).bind ?_
  rintro r ⟨hpre, hlen, ht⟩
  refine Safe.ok ⟨by rintro rfl; exact h0 rfl, ⟨?_, h.block_max, hcache, ht⟩, ⟨rfl, rfl, rfl⟩, hpre,
    by simp only; omega, by simp only; omega⟩
  exact hd.trans hpre.length_le

end BlockState

/-- A block header is read from its three bytes. -/
theorem read_header_cons (b0 b1 b2 : UInt8) (rest : Bytes) :
    read_header (b0 :: b1 :: b2 :: rest) =
      let v := b0.toNat ||| b1.toNat <<< 8 ||| b2.toNat <<< 16
      .ok ⟨v &&& 1 != 0, (v >>> 1) &&& 3, v >>> 3⟩ := by
  have hlen : (b0 :: b1 :: b2 :: rest).length = rest.length + 3 := by simp
  rw [read_header, if_neg (by omega), get_ok (by omega), bind_ok, get_ok (by omega), bind_ok,
    get_ok (by omega), bind_ok]
  rfl

theorem read_header_safe {src : Bytes} : Safe (read_header src) fun h =>
    3 ≤ src.length ∧ h.block_size < 2 ^ 21 := by
  rw [read_header]
  refine safe_ite (fun _ => safe_fail) fun h3 => ?_
  have h0 := (src[0]).toNat_lt_256
  have h1 := (src[1]).toNat_lt_256
  have h2 := (src[2]).toNat_lt_256
  rw [get_ok (by omega), bind_ok, get_ok (by omega), bind_ok, get_ok (by omega), bind_ok]
  refine Safe.ok ⟨by omega, ?_⟩
  have hv : src[0].toNat ||| src[1].toNat <<< 8 ||| src[2].toNat <<< 16 < 2 ^ 24 := by
    refine Nat.or_lt_two_pow (Nat.or_lt_two_pow (by omega) ?_) ?_
    · rw [Nat.shiftLeft_eq]; omega
    · rw [Nat.shiftLeft_eq]; omega
  simp only [Nat.shiftRight_eq_div_pow]
  omega

namespace BlockState

/-- What `decode_block_at` does from position `pos`. -/
structure BlockRead (s : BlockState) (src : Bytes) (pos : Nat) (s' : BlockState) (pos' : Nat) :
    Prop where
  valid : s'.Valid
  same : s.SameFrame s'
  out : s.out <+: s'.out
  block : s'.out.length ≤ s.out.length + 2 ^ 17
  ceiling : s'.out.length ≤ max s.out.length (s.dict_len + s.max_output)
  lt : pos + 3 ≤ pos'
  le : pos' ≤ src.length
  ratio : s'.out.length + 2 ^ 15 * pos ≤ s.out.length + 2 ^ 15 * pos'

/-- `decode_block_at` never faults. -/
theorem decode_block_at_safe {s : BlockState} {src : Bytes} {pos : Nat} (h : s.Valid)
    (hlen : src.length < 2 ^ 63) (hpos : pos ≤ src.length)
    (hout : pos + 3 ≤ src.length → s.Bounded) :
    Safe (s.decode_block_at src pos) fun r => s.BlockRead src pos r.1 r.2.1 := by
  have hmax : s.block_max ≤ 131072 := h.block_max
  have husize : usizeMax = 2 ^ 64 - 1 := rfl
  rw [decode_block_at, sliceFrom_ok hpos, bind_ok]
  refine read_header_safe.bind ?_
  rintro header ⟨h3, -⟩
  rw [List.length_drop] at h3
  have hout := hout (by omega)
  refine safe_ite (fun _ => safe_fail) fun hsize => safe_ite (fun _ => safe_fail) fun _ => ?_
  dsimp only
  -- counting the block leaves the invariant
  have h' : BlockState.Valid { s with blocks := s.blocks + 1 } :=
    ⟨h.dict, h.block_max, h.huff, h.seq⟩
  refine safe_ite (fun _ => ?_) fun _ => safe_ite (fun _ => ?_) fun _ => safe_ite (fun _ => ?_)
    fun _ => safe_fail
  · refine safe_ite (fun _ => safe_fail) fun _ => safe_ite (fun _ => safe_fail) fun hstop => ?_
    rw [slice_ok (by omega) (by omega), bind_ok]
    refine (decode_raw_safe h' _).bind fun s' hg => Safe.ok ?_
    have hl := hg.length
    rw [List.length_drop, List.length_take] at hl
    dsimp only at hl
    exact ⟨hg.valid, ⟨hg.same.1, hg.same.2, hg.same.3⟩, hg.out, by simp only; omega,
      hg.ceiling, by simp only; omega, by simp only; omega, by simp only; omega⟩
  · refine safe_ite (fun _ => safe_fail) fun hbyte => ?_
    rw [get_ok (by omega), bind_ok]
    refine (decode_rle_safe h' _ _).bind fun s' hg => ?_
    have hl := hg.length
    dsimp only at hl
    rw [add_ok (by omega), bind_ok]
    exact Safe.ok ⟨hg.valid, ⟨hg.same.1, hg.same.2, hg.same.3⟩, hg.out, by simp only; omega,
      hg.ceiling, by simp only; omega, by simp only; omega, by simp only; omega⟩
  · refine safe_ite (fun _ => safe_fail) fun _ => safe_ite (fun _ => safe_fail) fun hstop => ?_
    rw [slice_ok (by omega) (by omega), bind_ok]
    refine (decode_compressed_safe h' (by rw [List.length_drop, List.length_take]; omega)
      hout).bind ?_
    rintro s' ⟨hne, hg⟩
    have hl := hg.length
    dsimp only at hl
    have hpos' : 0 < header.block_size := by
      have := List.length_pos_iff.mpr hne
      rw [List.length_drop, List.length_take] at this
      omega
    exact Safe.ok ⟨hg.valid, ⟨hg.same.1, hg.same.2, hg.same.3⟩, hg.out, by simp only; omega,
      hg.ceiling, by simp only; omega, by simp only; omega, by simp only; omega⟩

/-! ## The cases of a decoded block -/

/-- The block header at `pos`. -/
def header_at (src : Bytes) (pos : Nat) : Res BlockHeader := sliceFrom src pos >>= read_header

/-- The bytes of `src` from `pos` to `stop`. -/
def body (src : Bytes) (pos stop : Nat) : Bytes := (src.take stop).drop pos

/-- The state in which the body of the next block is decoded. -/
def counted (s : BlockState) : BlockState := { s with blocks := s.blocks + 1 }

/-- The ways `decode_block_at` can return: one per block type. -/
inductive BlockStep (s : BlockState) (src : Bytes) (pos : Nat) : BlockState × Nat × Bool → Prop
  | raw {header : BlockHeader} {s' : BlockState} (hheader : header_at src pos = .ok header)
      (htype : header.block_type = 0) (hsize : header.block_size ≤ s.block_max)
      (husize : pos + 3 + header.block_size ≤ usizeMax)
      (hstop : pos + 3 + header.block_size ≤ src.length)
      (hdecode : s.counted.decode_raw (body src (pos + 3) (pos + 3 + header.block_size)) = .ok s') :
      BlockStep s src pos (s', pos + 3 + header.block_size, header.last)
  | rle {header : BlockHeader} {b : UInt8} {s' : BlockState}
      (hheader : header_at src pos = .ok header)
      (htype : header.block_type = 1) (hsize : header.block_size ≤ s.block_max)
      (husize : pos + 4 ≤ usizeMax)
      (hbyte : (get src (pos + 3) : Res UInt8) = .ok b)
      (hdecode : s.counted.decode_rle b header.block_size = .ok s') :
      BlockStep s src pos (s', pos + 4, header.last)
  | compressed {header : BlockHeader} {s' : BlockState}
      (hheader : header_at src pos = .ok header)
      (htype : header.block_type = 2) (hsize : header.block_size ≤ s.block_max)
      (husize : pos + 3 + header.block_size ≤ usizeMax)
      (hstop : pos + 3 + header.block_size ≤ src.length)
      (hdecode : s.counted.decode_compressed
        (body src (pos + 3) (pos + 3 + header.block_size)) = .ok s') :
      BlockStep s src pos (s', pos + 3 + header.block_size, header.last)

theorem decode_block_at_cases {s : BlockState} {src : Bytes} {pos : Nat}
    {r : BlockState × Nat × Bool} (h : s.decode_block_at src pos = .ok r) :
    BlockStep s src pos r := by
  rw [decode_block_at] at h
  obtain ⟨rest, hrest, h⟩ := bind_eq_ok.mp h
  obtain ⟨header, hread, h⟩ := bind_eq_ok.mp h
  have hheader : header_at src pos = .ok header := by rw [header_at, hrest, bind_ok, hread]
  obtain ⟨hsize, h⟩ := guard_eq_ok.mp h
  obtain ⟨hpos, h⟩ := guard_eq_ok.mp h
  have hsize := Nat.le_of_not_lt hsize
  dsimp only at h
  split_ifs at h with h0 hu hs h1 hl h2 hu₂ hs₂
  all_goals first
    | exact absurd h (fail_ne_ok _ _)
    | skip
  · obtain ⟨data, hdata, h⟩ := bind_eq_ok.mp h
    obtain ⟨s', hs', h⟩ := bind_eq_ok.mp h
    rw [← Except.ok.inj h]
    rw [(slice_eq_ok.mp hdata).2] at hs'
    exact .raw hheader h0 hsize (Nat.le_of_not_lt hu) (Nat.le_of_not_lt hs) hs'
  · obtain ⟨b, hb, h⟩ := bind_eq_ok.mp h
    obtain ⟨s', hs', h⟩ := bind_eq_ok.mp h
    obtain ⟨pos', hpos', h⟩ := bind_eq_ok.mp h
    rw [← Except.ok.inj h, (add_eq_ok.mp hpos').2]
    have husize : usizeMax = 2 ^ 64 - 1 := rfl
    exact .rle hheader h1 hsize (by have := (add_eq_ok.mp hpos').1; omega) hb hs'
  · obtain ⟨data, hdata, h⟩ := bind_eq_ok.mp h
    obtain ⟨s', hs', h⟩ := bind_eq_ok.mp h
    rw [← Except.ok.inj h]
    rw [(slice_eq_ok.mp hdata).2] at hs'
    exact .compressed hheader h2 hsize (Nat.le_of_not_lt hu₂) (Nat.le_of_not_lt hs₂) hs'

theorem BlockStep.decode {s : BlockState} {src : Bytes} {pos : Nat}
    {r : BlockState × Nat × Bool} (h : BlockStep s src pos r) :
    s.decode_block_at src pos = .ok r := by
  have husize : usizeMax = 2 ^ 64 - 1 := rfl
  cases h with
  | @raw header s' hheader htype hsize hu hstop hdecode =>
    obtain ⟨rest, hrest, hread⟩ := bind_eq_ok.mp hheader
    rw [decode_block_at, hrest, bind_ok, hread, bind_ok, if_neg (by omega), if_neg (by omega)]
    dsimp only
    rw [if_pos htype, if_neg (by omega), if_neg (by omega), slice_ok (by omega) (by omega), bind_ok]
    rw [body, counted] at hdecode
    rw [hdecode]
    rfl
  | @rle header b s' hheader htype hsize hu hbyte hdecode =>
    obtain ⟨rest, hrest, hread⟩ := bind_eq_ok.mp hheader
    obtain ⟨hlt, -⟩ := get_eq_ok.mp hbyte
    rw [decode_block_at, hrest, bind_ok, hread, bind_ok, if_neg (by omega), if_neg (by omega)]
    dsimp only
    rw [if_neg (by omega), if_pos htype, if_neg (by omega), hbyte, bind_ok]
    rw [counted] at hdecode
    rw [hdecode, bind_ok, add_ok (by omega)]
    rfl
  | @compressed header s' hheader htype hsize hu hstop hdecode =>
    obtain ⟨rest, hrest, hread⟩ := bind_eq_ok.mp hheader
    rw [decode_block_at, hrest, bind_ok, hread, bind_ok, if_neg (by omega), if_neg (by omega)]
    dsimp only
    rw [if_neg (by omega), if_neg (by omega), if_pos htype, if_neg (by omega), if_neg (by omega),
      slice_ok (by omega) (by omega), bind_ok]
    rw [body, counted] at hdecode
    rw [hdecode]
    rfl

end BlockState

end ZstdPure
