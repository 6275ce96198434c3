import ZstdPure.Proofs.CodeTableFromHuffProofs
import ZstdPure.Proofs.RoundTripProofs
import ZstdPure.Proofs.SeekableProofs
import ZstdPure.Proofs.TotalityProofs

/-!
# Proofs: frames with a dictionary

Both sides start from the same entropy section: the encoding tables rebuilt from it belong to the
decoding tables it holds.
-/

namespace ZstdPure

open Outcome Huff Fse Sequences

/-! ## What a dictionary holds -/

/-- A table read from a description was built from weights. -/
theorem read_table_built (src : Bytes) :
    Ensures (read_table src) fun r => ∃ weights, build_table weights = .ok r.1 := by
  rintro ⟨t, n⟩ h
  rw [read_table] at h
  obtain ⟨-, h⟩ := guard_eq_ok.mp h
  obtain ⟨b, -, h⟩ := bind_eq_ok.mp h
  obtain ⟨⟨weights, hdr⟩, -, h⟩ := bind_eq_ok.mp h
  obtain ⟨t', ht, h⟩ := bind_eq_ok.mp h
  obtain ⟨rfl, -⟩ := Prod.mk.inj (Except.ok.inj h)
  exact ⟨weights, ht⟩

/-- A dictionary as it is obtained from bytes: its id is a word, and its Huffman table was built
from weights. -/
structure Dictionary.Loaded (d : Dictionary) : Prop where
  valid : d.Valid
  id : d.id < 2 ^ 32
  built : ∀ e ∈ d.entropy, ∃ weights, build_table weights = .ok e.huff

theorem Dictionary.Loaded.raw (bytes : Bytes) : (Dictionary.raw bytes).Loaded :=
  ⟨Dictionary.raw_valid bytes, Nat.two_pow_pos 32, fun e he => by simp [Dictionary.raw] at he⟩

theorem Dictionary.parse_loaded {bytes : Bytes} (hlen : bytes.length < 2 ^ 55) :
    Ensures (Dictionary.parse bytes) Dictionary.Loaded := by
  have hfields : Ensures (Dictionary.parse bytes) fun d =>
      d.id < 2 ^ 32 ∧ ∀ e ∈ d.entropy, ∃ weights, build_table weights = .ok e.huff := by
    have hraw : Ensures (.ok (Dictionary.raw bytes) : Res Dictionary) fun d =>
        d.id < 2 ^ 32 ∧ ∀ e ∈ d.entropy, ∃ weights, build_table weights = .ok e.huff :=
      Ensures.ok ⟨(Dictionary.Loaded.raw bytes).id, (Dictionary.Loaded.raw bytes).built⟩
    unfold Dictionary.parse
    refine ensures_ite (fun _ => hraw) fun _ => Ensures.after fun magic _ =>
      ensures_ite (fun _ => hraw) fun _ => read_u32_le_lt.bind fun id hid =>
      Ensures.after fun desc _ => (read_table_built desc).bind ?_
    rintro ⟨huff, used⟩ hbuilt
    refine Ensures.after fun p _ => Ensures.after ?_
    rintro ⟨of_nc, of, p₁⟩ -
    refine Ensures.after ?_
    rintro ⟨ml_nc, ml, p₂⟩ -
    refine Ensures.after ?_
    rintro ⟨ll_nc, ll, p₃⟩ -
    refine Ensures.after fun reps_end _ => ensures_ite (fun _ => ensures_fail) fun _ =>
      Ensures.after fun r0 _ => Ensures.after fun r1 _ => Ensures.after fun r2 _ =>
      Ensures.after fun content _ => Ensures.after fun _ _ => Ensures.after fun _ _ =>
      Ensures.after fun _ _ => Ensures.ok ⟨hid, fun e he => ?_⟩
    obtain rfl := Option.mem_some_iff.mp he
    exact hbuilt
  intro d h
  obtain ⟨hid, hbuilt⟩ := hfields d h
  exact ⟨((Dictionary.parse_safe hlen).of_ok h).1, hid, hbuilt⟩

theorem DictionaryFrom.loaded {bytes : Bytes} {d : Dictionary} (hlen : bytes.length < 2 ^ 55)
    (h : DictionaryFrom bytes (some d)) : d.Loaded := by
  cases h with
  | raw => exact Dictionary.Loaded.raw bytes
  | parsed h => exact Dictionary.parse_loaded hlen _ h

namespace Encode

open BlockState

/-! ## The tables of both sides -/

/-- The encoding table of a description belongs to its decoding table. -/
theorem dict_ctable_related {nc : NormCounts} {max_log : Nat} {table : Option FseDecodeTable}
    (h : TableOf nc max_log table) (h9 : max_log ≤ 9) :
    ∀ ct ∈ some (dict_ctable nc), ∃ dt ∈ table, Related ct dt := by
  intro ct hct
  obtain rfl := Option.mem_some_iff.mp hct
  have hlog := h.log_le
  have hge := h.ge_log
  have hsymbol : nc.max_symbol < nc.counts.length := by
    rw [h.length]
    exact h.symbol
  refine ⟨_, h.table, ?_⟩
  exact Related.counts hsymbol h.counts hge (by omega)
    (build_dtable_ok hsymbol rfl h.counts (by omega) (by omega))

/-- The codes rebuilt from a decoding table belong to it. -/
theorem code_table_from_huff_related {weights : List Nat} {t : HuffTable}
    (h : build_table weights = .ok t) :
    RelatedHuff (result_ok (code_table_from_huff t)) (some t) := by
  obtain ⟨last, max_bits, hlast, hl⟩ := build_table_layout h
  have hcode := huff_lengths_complete hl
  obtain ⟨ct, t', hbuild, hsame, hl', -⟩ := hcode.build
  have hmax : (huff_lengths t).foldl max 0 ≤ max_bits :=
    hcode.le _ (Tally.foldl_max_mem
      (List.ne_nil_of_length_pos (by rw [length_huff_lengths]; decide)))
  have hrebuilt : code_table_from_huff t = .ok ct := hbuild
  intro ct' hct'
  rw [hrebuilt, result_ok] at hct'
  obtain rfl := Option.mem_some_iff.mp hct'
  refine ⟨t, rfl, hsame.scale hl' (k := max_bits - (huff_lengths t).foldl max 0) ?_ ⟨weights, h⟩⟩
  rw [← scale_code_weights hlast hl, Nat.add_sub_cancel' hmax]
  exact hl

/-- The encoder that a dictionary seeds belongs to the decoder that it primes. -/
theorem dict_state_related {d : Dictionary} (hd : d.Loaded) (max_output block_max : Nat) :
    (dict_state d).RelatedTo (BlockState.start max_output block_max (some d)) := by
  obtain ⟨id, content, entropy⟩ := d
  cases entropy with
  | none => exact ⟨Knows.refl _, EncTables.default_related _⟩
  | some e =>
    have he := hd.valid e rfl
    obtain ⟨weights, hbuilt⟩ := hd.built e rfl
    exact ⟨Knows.refl _, ⟨dict_ctable_related he.ll (by decide),
      dict_ctable_related he.of (by decide),
      dict_ctable_related he.ml (by decide)⟩, code_table_from_huff_related hbuilt⟩

theorem dict_state_fits {d : Dictionary} (hd : d.Valid) (hlen : d.content.length < 2 ^ 32) :
    Fits32 (dict_state d).rep := by
  obtain ⟨id, content, entropy⟩ := d
  cases entropy with
  | none => exact Fits32.start
  | some e =>
    have hrep := (hd e rfl).rep
    have hle : ∀ r ∈ [e.rep.r0, e.rep.r1, e.rep.r2], r < 2 ^ 32 :=
      fun r hr => lt_of_le_of_lt (hrep r hr).2 hlen
    exact ⟨hle e.rep.r0 (by simp), hle e.rep.r1 (by simp), hle e.rep.r2 (by simp)⟩

/-! ## The frame -/

section Frame

variable {data rest : Bytes} {d : Dictionary} {max_output : Nat}

theorem start_dict_fields (d : Dictionary) (max_output block_max : Nat) :
    (BlockState.start max_output block_max (some d)).out = d.content ∧
      (BlockState.start max_output block_max (some d)).dict_len = d.content.length ∧
      (BlockState.start max_output block_max (some d)).max_output = max_output ∧
      (BlockState.start max_output block_max (some d)).block_max = block_max := by
  obtain ⟨id, content, entropy⟩ := d
  cases entropy <;> exact ⟨rfl, rfl, rfl, rfl⟩

/-- A decoder primed with the dictionary has room for the data behind it. -/
theorem RoomFor.behind_dict {log : Nat} (hlen : d.content.length + data.length < 2 ^ 63)
    (hwindow : min data.length BLOCK_SIZE_MAX ≤ 2 ^ log) :
    RoomFor (d.content ++ data) [] d.content.length
      (BlockState.start data.length (min (2 ^ log) MAX_BLOCK_SIZE) (some d)) := by
  have hblock : BLOCK_SIZE_MAX = 131072 := rfl
  have hblock' : MAX_BLOCK_SIZE = 131072 := rfl
  obtain ⟨hout, hdict, hmax, hbm⟩ := start_dict_fields d data.length (min (2 ^ log) MAX_BLOCK_SIZE)
  refine ⟨?_, ?_, ?_, ?_, ?_⟩
  · rw [hout, List.take_left, List.nil_append]
  · rw [hdict, List.length_nil, Nat.zero_add]
  · rw [hbm, List.length_append]
    omega
  · rw [hdict, hmax, List.length_append, List.length_nil, Nat.zero_add]
  · rw [List.length_append, List.length_nil]
    omega

theorem Session.Sound.primed (params : CParams) (hd : d.Valid)
    (hlen : d.content.length + data.length < 2 ^ 31) (max_offset : Nat) :
    (⟨(Finder.new params).prime asI32 (d.content ++ data) d.content.length max_offset, none,
      dict_state d⟩ : Session).Sound (d.content ++ data) d.content.length :=
  ⟨(Finder.Sound.new params _).prime (by rw [List.length_append]; omega) max_offset,
    fun _ hst => by simp at hst, dict_state_fits hd (by omega)⟩

/-- The window reaches over a dictionary of up to 8 MiB. -/
theorem content_le_window (level : Int) (src_size : Nat)
    (hlen : d.content.length ≤ HTTP_MAX_WINDOW_SIZE) :
    d.content.length ≤ 2 ^ (params_for_level_with_dict level src_size
      d.content.length).window_log := by
  have hcap : HTTP_MAX_WINDOW_SIZE = 2 ^ MAX_WINDOW_LOG := rfl
  have hword : 2 ^ MAX_WINDOW_LOG ≤ 2 ^ 32 := Nat.pow_le_pow_right Nat.two_pos (by decide)
  have hshows := shows_iff.mpr (shows_of_le (n := d.content.length) (by omega) (le_refl _))
  rw [← ceil_log2_eq, le_two_pow_max] at hshows
  rw [params_for_level_with_dict, le_two_pow_max]
  right
  rw [clamp, le_two_pow_max, le_two_pow_min]
  rcases hshows with h | h
  · exact Or.inr ⟨h, hlen⟩
  · exact Or.inl h

/-- The repeat offsets of a dictionary are within its content. -/
theorem BlockNear.start_dict (hd : d.Valid) {window : Nat} (hlen : d.content.length ≤ window)
    (hwindow : 2 ^ 10 ≤ window) (max_output block_max : Nat) :
    BlockNear window (BlockState.start max_output block_max (some d)) := by
  obtain ⟨id, content, entropy⟩ := d
  cases entropy with
  | none =>
    have hrep : (BlockState.start max_output block_max (some ⟨id, content, none⟩)).rep =
      ⟨1, 4, 8⟩ := rfl
    refine ⟨?_, fun m hm => absurd hm List.not_mem_nil⟩
    rw [hrep]
    exact ⟨le_trans (by decide) hwindow, le_trans (by decide) hwindow, le_trans (by decide) hwindow⟩
  | some e =>
    have hrep := (hd e rfl).rep
    have hle : ∀ r ∈ [e.rep.r0, e.rep.r1, e.rep.r2], r ≤ window :=
      fun r hr => (hrep r hr).2.trans hlen
    exact ⟨⟨hle e.rep.r0 (by simp), hle e.rep.r1 (by simp), hle e.rep.r2 (by simp)⟩,
      fun m hm => absurd hm List.not_mem_nil⟩

theorem decode_compress_with_dict (hd : d.Loaded) (level : Int) (checksum m : Bool)
    (hdata : d.content.length + data.length < 2 ^ 31) (hrest : rest.length < 2 ^ 61)
    (hmax : data.length ≤ max_output) {max_window : Option Nat}
    (hceil : Admitted HTTP_MAX_WINDOW_SIZE max_window) :
    ∃ matches_, decode_frame (compress_with_dict data d level checksum m ++ rest) m max_output
      (some d)
        max_window = .ok ⟨data, (compress_with_dict data d level checksum m).length, matches_⟩ ∧
      (d.content.length ≤ HTTP_MAX_WINDOW_SIZE →
        Conforms (some d) (compress_with_dict data d level checksum m ++ rest) m matches_) := by
  have hadmits := (@params_admit_blocks_of_le level data.length d.content.length (by omega)).2.1
  have hle := hadmits.window_log_le
  have hlog : MAX_WINDOW_LOG = 23 := rfl
  have hpre := (start_dict_fields d data.length (min
    (2 ^ (params_for_level_with_dict level data.length d.content.length).window_log)
      MAX_BLOCK_SIZE)).2.1
  have hreach := @content_le_window d level data.length
  have hcheck : check_dictionary d.id (some d) = .ok () := by
    rw [check_dictionary, if_neg (by simp)]
    rfl
  generalize hframe : compress_with_dict data d level checksum m = frame
  unfold compress_with_dict at hframe
  dsimp only at hframe
  generalize hparams : params_for_level_with_dict level data.length d.content.length = params at *
  have hcast : (regular_env params).cast = asI32 := by rw [regular_env]
  have hs := @Session.Sound.primed data d params hd.valid hdata (2 ^ params.window_log)
  have hlen := length_frame_blocks_mul (regular_env params) (d.content ++ data) d.content.length
    ⟨(Finder.new params).prime asI32 (d.content ++ data) d.content.length (2 ^ params.window_log),
      none,
      dict_state d⟩
  rw [List.length_append, Nat.add_sub_cancel_left] at hlen
  have hpow : 2 ^ 10 ≤ 2 ^ params.window_log := Nat.pow_le_pow_right Nat.two_pos
    hadmits.window_log_ge
  -- repeat offsets of a dictionary wider than the window reach beyond it
  obtain ⟨matches_, hdecode, hnear⟩ := @decode_sized_frame data d.content rest
    (max (2 ^ params.window_log) d.content.length) _ _ d.id (some d)
    hadmits.window_log_ge (by omega) hd.id hcheck hpre hlen (by
      intro before rest hsrc
      have hcombined : (d.content ++ data).length < 2 ^ 31 := by
        rw [List.length_append]
        exact hdata
      have hwin := (regular_env_searches params).mono (le_max_left _ d.content.length)
      obtain ⟨s', hrun, hdec⟩ := frame_blocks_run hcast hwin hcombined
        (by rw [List.length_append]; omega) hs
        (dict_state_related hd _ _) (RoomFor.behind_dict (by omega) hadmits.window) before rest hsrc
      refine ⟨s', hrun, ?_, (hdec.near (BlockNear.start_dict hd.valid (le_max_right _ _)
        (hpow.trans (le_max_left _ _)) _ _)).matches_⟩
      rw [hdec.out, List.take_length, List.nil_append]) checksum m
    (by omega) _ hmax _ (hceil.mono (window_le_http hle)) _ hframe.symm
  refine ⟨matches_, hdecode, fun hcontent => ?_⟩
  rw [max_eq_left (hreach hcontent)] at hnear
  exact sized_frame_conforms hadmits.window_log_ge (hle.trans (by decide)) hd.id hcheck (by omega)
    hframe.symm hnear

/-- What `compress_with_dict` writes with a dictionary obtained from any bytes is decoded with it to
the data, and to its own end, whatever follows. -/
theorem compress_with_dict_round_trip {bytes : Bytes} (hbytes : bytes.length < 2 ^ 55)
    (hd : DictionaryFrom bytes (some d)) (level : Int) (checksum m : Bool)
    (hdata : d.content.length + data.length < 2 ^ 31) (hrest : rest.length < 2 ^ 61)
    (hmax : data.length ≤ max_output) :
    ∃ f, decode_one_with_dict (compress_with_dict data d level checksum m ++ rest) m max_output
        (some d) = .ok f ∧
      f.data = data ∧ f.consumed = (compress_with_dict data d level checksum m).length := by
  obtain ⟨matches_, hdecode, -⟩ := decode_compress_with_dict (hd.loaded hbytes) level checksum m
    hdata hrest
    hmax (.unlimited _)
  exact ⟨_, hdecode, rfl, rfl⟩

/-- With a dictionary obtained from any bytes, what `compress_with_dict` writes is decoded to
exactly the data, whatever tables and repeat offsets the dictionary has. -/
theorem compress_with_dict_decodes {bytes : Bytes} (hbytes : bytes.length < 2 ^ 55)
    (hd : DictionaryFrom bytes (some d)) (level : Int) (checksum m : Bool)
    (hdata : data.length + d.content.length < 2 ^ 31) :
    ∃ f, decode_one_with_dict (compress_with_dict data d level checksum m) m data.length (some d) =
      .ok f ∧
      f.data = data ∧ f.consumed = (compress_with_dict data d level checksum m).length := by
  obtain ⟨matches_, hdecode, -⟩ := @decode_compress_with_dict data [] d data.length
    (hd.loaded hbytes) level
    checksum m (by omega) (by norm_num) (le_refl _) _ (.unlimited _)
  rw [List.append_nil] at hdecode
  exact ⟨_, hdecode, rfl, rfl⟩

end Frame

/-- A raw dictionary of the phrase that the data repeats. -/
theorem compress_with_dict_round_trip_raw :
    let d := Dictionary.raw (phrases.take 64)
    ∃ f, decode_one_with_dict (compress_with_dict phrases d 19 true true ++ [1]) true 4096
        (some d) = .ok f ∧
      f.data = phrases ∧ f.consumed = (compress_with_dict phrases d 19 true true).length := by
  intro d
  have hlen := length_phrases
  have hcontent : d.content.length ≤ 64 := List.length_take_le _ _
  exact compress_with_dict_round_trip (by rw [List.length_take]; omega) DictionaryFrom.raw 19 true
    true
    (by change d.content.length + _ < _; omega) (by decide) (by omega)

/-- The description of a Huffman table for the letters of the phrase. -/
def phrase_weights : Bytes :=
  243 :: (List.replicate 16 0 ++ [16] ++ List.replicate 31 0 ++ [2, 0, 17, 0, 16] ++
    List.replicate 5 0)

/-- A dictionary with a Huffman table for the phrase, the predefined tables of sequences and repeat
offsets of one, two and three phrases. -/
def phrase_dictionary : Bytes :=
  leBytes 4 DICT_MAGIC ++ leBytes 4 7 ++ phrase_weights ++ write_ncount OF_DEFAULT OF_PRED_MAX
    OF_PRED_LOG ++
    write_ncount ML_DEFAULT ML_PRED_MAX ML_PRED_LOG ++ write_ncount LL_DEFAULT LL_PRED_MAX
      LL_PRED_LOG ++
    leBytes 4 8 ++ leBytes 4 16 ++ leBytes 4 24 ++ phrases.take 64

theorem compress_with_dict_decodes_structured :
    ∃ d, Dictionary.parse phrase_dictionary = .ok d ∧ d.entropy.isSome ∧
      ∃ f, decode_one_with_dict (compress_with_dict phrases d 3 true true) true phrases.length
          (some d) = .ok f ∧
        f.data = phrases ∧ f.consumed = (compress_with_dict phrases d 3 true true).length := by
  have hparse : ((Dictionary.parse phrase_dictionary).map fun d => d.entropy.isSome) =
    .ok true := by
    decide +kernel
  have hlen : phrase_dictionary.length < 2 ^ 10 := by decide +kernel
  have hphrases := length_phrases
  cases h : Dictionary.parse phrase_dictionary with
  | error => rw [h] at hparse; cases hparse
  | ok d =>
    rw [h] at hparse
    have hcontent := ((Dictionary.parse_safe (by omega)).of_ok h).2
    exact ⟨d, rfl, Except.ok.inj hparse, compress_with_dict_decodes (by omega) (.parsed h) 3 true
      true
      (by omega)⟩

end Encode

end ZstdPure
