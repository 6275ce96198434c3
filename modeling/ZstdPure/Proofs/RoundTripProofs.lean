import ZstdPure.Proofs.ParamsProofs
import ZstdPure.Proofs.WrittenFrameProofs

/-!
# Proofs: what is compressed is decompressed

The entry points of the encoder against the one-shot decoder.
-/

namespace ZstdPure.Encode

open Outcome Sequences BlockState

/-! ## Sizes -/

section Sizes

/-- The block loop never writes more than four times the bytes it reads. -/
theorem length_encode_blocks_mul (e : FrameEnv) (ends : Bool) (data : Bytes) (n : Nat) :
    ∀ {start : Nat} {s : Session}, data.length - start ≤ n →
      (encode_blocks e ends data start s).length ≤ 4 * (data.length - start) := by
  induction n with
  | zero =>
    intro start s hn
    rw [encode_blocks, if_neg (by omega)]
    exact Nat.zero_le _
  | succ n ih =>
    intro start s hn
    have hmax : BLOCK_SIZE_MAX = 131072 := rfl
    by_cases hstart : start < data.length
    · obtain ⟨stop, hstop⟩ : ∃ stop, min (start + BLOCK_SIZE_MAX) data.length = stop := ⟨_, rfl⟩
      obtain ⟨bytes, s', henc⟩ : ∃ bytes s',
          encode_block e (ends && stop == data.length) data start stop s = (bytes, s') :=
          ⟨_, _, rfl⟩
      have hblock := length_encode_block_le (ends && stop == data.length) e data start stop s
      have hstore := length_write_store_block_le (ends && stop == data.length)
        (range_of data start stop)
      have hchunk := length_range (p := start) (q := stop) data (by omega)
      have hrest := @ih stop s' (by omega)
      rw [henc] at hblock
      rw [encode_blocks_next e ends s hstart hstop henc, List.length_append]
      dsimp only at hblock
      omega
    · rw [encode_blocks, if_neg hstart]
      exact Nat.zero_le _

theorem length_frame_blocks_mul (e : FrameEnv) (data : Bytes) (start : Nat) (s : Session) :
    (frame_blocks e data start s).length ≤ 4 * (data.length - start) + 3 := by
  unfold frame_blocks
  split_ifs
  · exact Nat.le_add_left _ _
  · exact (length_encode_blocks_mul e true data _ (le_refl _)).trans (Nat.le_add_right _ _)

theorem length_checksum_bytes_le (checksum : Bool) (data : Bytes) :
    (checksum_bytes checksum data).length ≤ 4 := by
  cases checksum
  · exact Nat.zero_le _
  · exact le_refl _

theorem length_magic_bytes_le (m : Bool) : (magic_bytes m).length ≤ 4 := by
  cases m <;> decide

theorem length_write_frame_header_le (content_size : Nat) (checksum : Bool)
    (window_log dict_id : Nat) :
    (write_frame_header content_size checksum window_log dict_id).length ≤ 14 := by
  have hid : (dict_id_field dict_id).2 ≤ 4 := by
    unfold dict_id_field
    split_ifs <;> decide
  unfold write_frame_header
  dsimp only
  rw [List.length_append, List.length_append, length_leBytes, length_leBytes, List.length_cons,
    List.length_singleton]
  split_ifs <;> omega

theorem length_store_blocks_le (chunks : List Bytes) :
    (store_blocks chunks).length ≤ chunks.flatten.length + 3 * chunks.length := by
  rw [length_store_blocks]
  induction chunks with
  | nil => exact Nat.zero_le _
  | cons c chunks ih =>
    have hstore := length_write_store_block_le true c
    rw [List.map_cons, List.sum_cons, List.flatten_cons, List.length_append, List.length_cons]
    omega

/-- A stored frame is hardly longer than its data. -/
theorem length_compress_store_le (data : Bytes) (checksum m : Bool) :
    (compress_store data checksum m).length ≤
      data.length + 3 * (data.length / BLOCK_SIZE_MAX + 1) + 22 := by
  have hmagic := length_magic_bytes_le m
  have hheader := length_write_frame_header_le data.length checksum STORE_WINDOW_LOG 0
  have hcheck := length_checksum_bytes_le checksum data
  have hblocks : (if data.isEmpty then write_raw_block true [] else
      store_blocks (data.chunks BLOCK_SIZE_MAX)).length ≤
        data.length + 3 * (data.length / BLOCK_SIZE_MAX + 1) := by
    have hle := length_store_blocks_le (data.chunks BLOCK_SIZE_MAX)
    have hcount : (data.length + BLOCK_SIZE_MAX - 1) / BLOCK_SIZE_MAX ≤
        data.length / BLOCK_SIZE_MAX + 1 := by
      rw [← Nat.add_div_right _ (by decide)]
      exact Nat.div_le_div_right (Nat.sub_le _ _)
    rw [List.flatten_chunks (by decide), List.length_chunks (by decide)] at hle
    generalize data.length / BLOCK_SIZE_MAX = n at hcount ⊢
    split_ifs
    · show 3 ≤ _
      omega
    · omega
  unfold compress_store
  rw [List.length_append, List.length_append, List.length_append]
  omega

/-- So is the frame of `compress`. -/
theorem length_compress_le (data : Bytes) (level : Int) (checksum m : Bool) :
    (compress data level checksum m).length ≤
      data.length + 3 * (data.length / BLOCK_SIZE_MAX + 1) + 22 :=
  (length_frame_le (regular_env (params_for_level level data.length)) [] data _ _ checksum m).trans
    (length_compress_store_le data checksum m)

end Sizes

/-! ## Ceilings on the window -/

/-- A ceiling on the window, if there is one, admits windows of this size. -/
def Admitted (window_size : Nat) (max_window : Option Nat) : Prop :=
  ∀ w, max_window = some w → window_size ≤ w

theorem Admitted.unlimited (window_size : Nat) : Admitted window_size none :=
  fun _ h => absurd h (Option.some_ne_none _).symm

theorem Admitted.mono {window_size smaller : Nat} {max_window : Option Nat}
    (h : Admitted window_size max_window) (hle : smaller ≤ window_size) : Admitted smaller
      max_window :=
  fun w hw => hle.trans (h w hw)

theorem Admitted.check {window_size : Nat} {max_window : Option Nat}
    (h : Admitted window_size max_window) : check_window window_size max_window = .ok () := by
  cases max_window with
  | none => rfl
  | some w =>
    rw [check_window, if_neg (Nat.not_lt.mpr (h w rfl))]
    rfl

/-- The windows of the regular levels are at most 8 MiB. -/
theorem window_le_http {log : Nat} (h : log ≤ MAX_WINDOW_LOG) : 2 ^ log ≤ HTTP_MAX_WINDOW_SIZE :=
  Nat.pow_le_pow_right (by decide) h

/-! ## The blocks of a frame -/

theorem Fits32.start : Fits32 ⟨1, 4, 8⟩ := ⟨by decide, by decide, by decide⟩

/-- The repeat offsets that a frame starts with are within the smallest window. -/
theorem BlockNear.start {log : Nat} (h10 : 10 ≤ log) (max_output block_max : Nat) :
    BlockNear (2 ^ log) (BlockState.start max_output block_max none) := by
  have hpow : 2 ^ 10 ≤ 2 ^ log := Nat.pow_le_pow_right (by decide) h10
  have hrep : (BlockState.start max_output block_max none).rep = ⟨1, 4, 8⟩ := rfl
  refine ⟨?_, fun m hm => absurd hm List.not_mem_nil⟩
  rw [hrep]
  exact ⟨le_trans (by decide) hpow, le_trans (by decide) hpow, le_trans (by decide) hpow⟩

section Frame

variable {e : FrameEnv} {data pre rest : Bytes} {window start : Nat} {s : Session} {d : BlockState}

/-- The decoder follows the blocks of a frame, of which there is one even without data. -/
theorem frame_blocks_run (hcast : e.cast = asI32) (hwin : e.SearchesIn window)
    (hdata : data.length < 2 ^ 31) (hstart : start ≤ data.length) (hs : s.Sound data start)
    (hrel : s.state.RelatedTo d)
    (hroom : RoomFor data pre start d) (before rest : Bytes)
    (hsrc : (before ++ (frame_blocks e data start s ++ rest)).length < 2 ^ 63) :
    ∃ d', BlocksRun (before ++ (frame_blocks e data start s ++ rest)) ⟨d, before.length, false⟩
        ⟨d', before.length + (frame_blocks e data start s).length, true⟩ ∧
      Decoded window data pre data.length d d' := by
  unfold frame_blocks at hsrc ⊢
  split_ifs at hsrc ⊢ with hempty
  · -- no data: an empty block
    have hready : Ready data pre start start 0 d :=
      ⟨hroom.out, hroom.dict, le_refl _, hstart, by omega, Nat.zero_le _, Nat.zero_le _,
        by have := hroom.ceiling; omega, hroom.word⟩
    have hchunk : range_of data start start = [] := by
      rw [range_of, List.drop_eq_nil_of_le (List.length_take_le _ _)]
    have hrun := @write_raw_block_run data pre start start 0 d hready true before rest
    rw [hchunk, List.append_nil] at hrun
    obtain rfl : start = data.length := by omega
    exact ⟨_, NextBlock.run (hrun hsrc), hroom.out, ⟨rfl, rfl, rfl⟩,
      fun hd => ⟨hd.rep, hd.matches_⟩⟩
  · exact encode_blocks_run hcast hdata hwin true (by omega) hs hrel hroom before rest hsrc

/-- A frame with its content size, from any blocks that the decoder follows to the data. -/
theorem decode_sized_frame {blocks : Bytes} {log id : Nat} {dict : Option Dictionary}
    (h10 : 10 ≤ log)
    (h41 : log ≤ 41) (hid : id < 2 ^ 32) (hdict : check_dictionary id dict = .ok ())
    (hpre : (BlockState.start data.length (min (2 ^ log) MAX_BLOCK_SIZE) dict).dict_len =
      pre.length)
    (hblocks : blocks.length ≤ 4 * data.length + 3)
    (hrun : ∀ before rest : Bytes, (before ++ (blocks ++ rest)).length < 2 ^ 63 →
      ∃ d, BlocksRun (before ++ (blocks ++ rest))
          ⟨BlockState.start data.length (min (2 ^ log) MAX_BLOCK_SIZE) dict, before.length, false⟩
          ⟨d, before.length + blocks.length, true⟩ ∧ d.out = pre ++ data ∧
        ∀ mt ∈ d.matches_, mt.distance ≤ window)
    (checksum m : Bool) (hrest : 4 * data.length + rest.length < 2 ^ 62) {max_output : Nat}
    (hmax : data.length ≤ max_output) {max_window : Option Nat}
    (hceil : Admitted (2 ^ log) max_window) {frame : Bytes}
    (hframe : frame = magic_bytes m ++ write_frame_header data.length checksum log id ++ blocks ++
      checksum_bytes checksum data) :
    ∃ matches_, decode_frame (frame ++ rest) m max_output dict max_window =
      .ok ⟨data, frame.length, matches_⟩ ∧ ∀ mt ∈ matches_, mt.distance ≤ window := by
  have hparse : ∀ tail, parse_frame_header (write_frame_header data.length checksum log id ++
    tail) =
      .ok ⟨(write_frame_header data.length checksum log id).length, checksum, some data.length,
        2 ^ log,
        id⟩ :=
    fun tail => parse_write_frame_header checksum tail (by omega) h10 h41 hid
  have hlen : (magic_bytes m ++ write_frame_header data.length checksum log id ++ blocks ++
      checksum_bytes checksum data ++ rest).length < 2 ^ 63 := by
    have h₁ := length_magic_bytes_le m
    have h₂ := length_write_frame_header_le data.length checksum log id
    have h₃ := length_checksum_bytes_le checksum data
    simp only [List.length_append]
    omega
  have hsrc : magic_bytes m ++ write_frame_header data.length checksum log id ++ blocks ++
      checksum_bytes checksum data ++ rest =
        (magic_bytes m ++ write_frame_header data.length checksum log id) ++
          (blocks ++ (checksum_bytes checksum data ++ rest)) := by
    simp only [List.append_assoc]
  obtain ⟨d, hrun, hout, hnear⟩ := hrun _ _ (by rw [← hsrc]; exact hlen)
  rw [← hsrc] at hrun
  have hcap : frame_cap (some data.length) max_output = .ok data.length := by
    rw [frame_cap, if_neg (Nat.not_lt.mpr hmax)]
    rfl
  have hdecode := decode_frame_written hparse rfl hlen hceil.check hcap hdict
    (fun n hn => (Option.some.inj hn).symm)
    (by rw [@List.length_append _ _ blocks]; exact hrun) hpre hout
  rw [hframe]
  exact ⟨d.matches_, hdecode, hnear⟩

/-- The header of a frame asks for the window that its matches are within. -/
theorem sized_frame_conforms {blocks : Bytes} {log id : Nat} {dict : Option Dictionary}
    (h10 : 10 ≤ log)
    (h27 : log ≤ DEFAULT_WINDOW_LOG_MAX) (hid : id < 2 ^ 32) (hdict : check_dictionary id dict =
      .ok ())
    (hdata : data.length < 2 ^ 62) {checksum m : Bool} {frame : Bytes}
    (hframe : frame = magic_bytes m ++ write_frame_header data.length checksum log id ++ blocks ++
      checksum_bytes checksum data) {matches_ : List FrameMatch}
    (hnear : ∀ mt ∈ matches_, mt.distance ≤ 2 ^ log) : Conforms dict (frame ++ rest) m
      matches_ := by
  have hlog : DEFAULT_WINDOW_LOG_MAX = 27 := rfl
  have hlen := length_write_frame_header_le data.length checksum log id
  have hparse : ∀ tail, parse_frame_header (write_frame_header data.length checksum log id ++
    tail) =
      .ok ⟨(write_frame_header data.length checksum log id).length, checksum, some data.length,
        2 ^ log,
        id⟩ :=
    fun tail => parse_write_frame_header checksum tail (by omega) h10 (by omega) hid
  obtain ⟨len, hheader⟩ := header_at_front_written hparse (by omega) m
    (blocks ++ (checksum_bytes checksum data ++ rest))
  refine ⟨⟨len, checksum, some data.length, 2 ^ log, id⟩, ?_, hdict,
    Nat.pow_le_pow_right Nat.two_pos h27, hnear⟩
  rw [hframe, List.append_assoc, List.append_assoc, List.append_assoc]
  exact hheader

/-- A decoder without dictionary has room for data whose blocks the window admits. -/
theorem RoomFor.at_start {log : Nat} (hdata : data.length < 2 ^ 63)
    (hwindow : min data.length BLOCK_SIZE_MAX ≤ 2 ^ log) :
    RoomFor data [] 0 (BlockState.start data.length (min (2 ^ log) MAX_BLOCK_SIZE) none) := by
  have hblock : BLOCK_SIZE_MAX = 131072 := rfl
  have hblock' : MAX_BLOCK_SIZE = 131072 := rfl
  refine ⟨rfl, Nat.zero_le _, ?_, ?_, ?_⟩
  · show min (data.length - 0) BLOCK_SIZE_MAX ≤ min (2 ^ log) MAX_BLOCK_SIZE
    omega
  · show 0 + data.length ≤ 0 + data.length
    exact le_refl _
  · show 0 + data.length < 2 ^ 63
    omega

/-- The blocks of a session from the start of a frame. -/
theorem session_blocks_run {log : Nat} (h10 : 10 ≤ log) (hcast : e.cast = asI32)
    (hwin : e.SearchesIn (2 ^ log)) (hdata : data.length < 2 ^ 31)
    (hwindow : min data.length BLOCK_SIZE_MAX ≤ 2 ^ log) (hs : s.Sound data 0)
    (hstate : s.state = EncState.start) (before rest : Bytes)
    (hsrc : (before ++ (frame_blocks e data 0 s ++ rest)).length < 2 ^ 63) :
    ∃ d, BlocksRun (before ++ (frame_blocks e data 0 s ++ rest))
        ⟨BlockState.start data.length (min (2 ^ log) MAX_BLOCK_SIZE) none, before.length, false⟩
        ⟨d, before.length + (frame_blocks e data 0 s).length, true⟩ ∧ d.out = [] ++ data ∧
      ∀ mt ∈ d.matches_, mt.distance ≤ 2 ^ log := by
  have hrel := EncState.start_related data.length (min (2 ^ log) MAX_BLOCK_SIZE)
  rw [← hstate] at hrel
  obtain ⟨d, hrun, hdec⟩ := frame_blocks_run hcast hwin hdata (Nat.zero_le _) hs hrel
    (RoomFor.at_start (by omega) hwindow) before rest hsrc
  refine ⟨d, hrun, ?_, (hdec.near (.start h10 _ _)).matches_⟩
  rw [hdec.out, List.take_length]

end Frame

/-! ## The entry points -/

/-- Long-distance matching never narrows the window. -/
theorem window_log_le_ldm (level : Int) (n : Nat) :
    (params_for_level level n).window_log ≤ (params_for_level_ldm level n).window_log :=
  le_max_left _ _

theorem params_window {level : Int} {n : Nat} (hn : n < 2 ^ 31) :
    AdmitsBlocks (params_for_level level n) MAX_WINDOW_LOG n ∧
      AdmitsBlocks (params_for_level_ldm level n) LDM_MAX_WINDOW_LOG n := by
  have hadmits := @params_admit_blocks_of_le level n 0 (by omega)
  exact ⟨hadmits.1, hadmits.2.2⟩

theorem Session.Sound.regular (params : CParams) (data : Bytes) :
    (⟨Finder.new params, none, EncState.start⟩ : Session).Sound data 0 :=
  ⟨Finder.Sound.new params data, fun _ hst => by simp at hst, Fits32.start⟩

theorem Session.Sound.long (params : CParams) (window_log : Nat) (data : Bytes) :
    (⟨Finder.new params, some (LdmState.new window_log), EncState.start⟩ : Session).Sound data
      0 := by
  refine ⟨Finder.Sound.new params data, ?_, Fits32.start⟩
  intro st hst
  rw [← Option.some.inj hst]
  exact LdmState.Before.new window_log 0

theorem regular_env_searches (params : CParams) :
    (regular_env params).SearchesIn (2 ^ params.window_log) := by
  rw [regular_env]
  exact ⟨le_refl _, le_refl _⟩

section EntryPoints

variable {data rest : Bytes} {max_output : Nat} {params : CParams}

/-- Parameters whose window admits the blocks. -/
theorem decode_compress_with_params (hdata : data.length < 2 ^ 31) (h10 : 10 ≤ params.window_log)
    (h27 : params.window_log ≤ DEFAULT_WINDOW_LOG_MAX)
    (hwindow : min data.length BLOCK_SIZE_MAX ≤ 2 ^ params.window_log) (checksum m : Bool)
    (hrest : rest.length < 2 ^ 61) (hmax : data.length ≤ max_output)
    {max_window : Option Nat} (hceil : Admitted (2 ^ params.window_log) max_window) :
    ∃ matches_, decode_frame (compress_with_params data params checksum m ++ rest) m max_output none
        max_window = .ok ⟨data, (compress_with_params data params checksum m).length, matches_⟩ ∧
      Conforms none (compress_with_params data params checksum m ++ rest) m matches_ := by
  have hs := Session.Sound.regular params data
  have hcast : (regular_env params).cast = asI32 := by rw [regular_env]
  have hwin := regular_env_searches params
  have hlog : DEFAULT_WINDOW_LOG_MAX = 27 := rfl
  generalize hframe : compress_with_params data params checksum m = frame
  rw [compress_with_params] at hframe
  obtain ⟨matches_, hdecode, hnear⟩ := @decode_sized_frame data [] rest _ _ _ 0 none h10
    (by omega) (by decide) rfl rfl (length_frame_blocks_mul _ data 0 _)
    (session_blocks_run h10 hcast hwin hdata hwindow hs rfl) checksum m (by omega) _ hmax _ hceil _
    hframe.symm
  exact ⟨matches_, hdecode, sized_frame_conforms h10 h27 (by decide) rfl (by omega) hframe.symm
    hnear⟩

theorem decode_compress_long_with_params (hdata : data.length < 2 ^ 31)
    (h10 : 10 ≤ params.window_log) (h27 : params.window_log ≤ DEFAULT_WINDOW_LOG_MAX)
    (hwindow : min data.length BLOCK_SIZE_MAX ≤ 2 ^ params.window_log) {regular_reach : Nat}
    (hreach : regular_reach ≤ 2 ^ params.window_log) (checksum m : Bool)
      (hrest : rest.length < 2 ^ 61)
    (hmax : data.length ≤ max_output)
    {max_window : Option Nat} (hceil : Admitted (2 ^ params.window_log) max_window) :
    ∃ matches_, decode_frame (compress_long_with_params data params regular_reach checksum m ++
      rest) m
        max_output none max_window =
          .ok ⟨data, (compress_long_with_params data params regular_reach checksum m).length,
            matches_⟩ ∧
      Conforms none (compress_long_with_params data params regular_reach checksum m ++ rest) m
        matches_ := by
  have hs := Session.Sound.long params params.window_log data
  have hcast : (long_env params regular_reach).cast = asI32 := by rw [long_env]
  have hwin : (long_env params regular_reach).SearchesIn (2 ^ params.window_log) := by
    rw [long_env]
    exact ⟨hreach, le_refl _⟩
  have hlog : DEFAULT_WINDOW_LOG_MAX = 27 := rfl
  generalize hframe : compress_long_with_params data params regular_reach checksum m = frame
  rw [compress_long_with_params] at hframe
  obtain ⟨matches_, hdecode, hnear⟩ := @decode_sized_frame data [] rest _ _ _ 0 none h10
    (by omega) (by decide) rfl rfl (length_frame_blocks_mul _ data 0 _)
    (session_blocks_run h10 hcast hwin hdata hwindow hs rfl) checksum m (by omega) _ hmax _ hceil _
    hframe.symm
  exact ⟨matches_, hdecode, sized_frame_conforms h10 h27 (by decide) rfl (by omega) hframe.symm
    hnear⟩

/-- The windows of `compress` are at most 8 MiB. -/
theorem decode_compress (level : Int) (checksum m : Bool) (hdata : data.length < 2 ^ 31)
    (hrest : rest.length < 2 ^ 61) (hmax : data.length ≤ max_output) {max_window : Option Nat}
    (hceil : Admitted HTTP_MAX_WINDOW_SIZE max_window) :
    ∃ matches_, decode_frame (compress data level checksum m ++ rest) m max_output none max_window =
        .ok ⟨data, (compress data level checksum m).length, matches_⟩ ∧
      Conforms none (compress data level checksum m ++ rest) m matches_ := by
  have hadmits := (@params_window level _ hdata).1
  have hle := hadmits.window_log_le
  exact decode_compress_with_params hdata hadmits.window_log_ge (hle.trans (by decide))
    hadmits.window
    checksum m hrest
    hmax (hceil.mono (window_le_http hle))

theorem decode_compress_long (level : Int) (checksum m : Bool) (hdata : data.length < 2 ^ 31)
    (hrest : rest.length < 2 ^ 61) (hmax : data.length ≤ max_output) :
    ∃ matches_, decode_frame (compress_long data level checksum m ++ rest) m max_output none none =
        .ok ⟨data, (compress_long data level checksum m).length, matches_⟩ ∧
      Conforms none (compress_long data level checksum m ++ rest) m matches_ := by
  have hadmits := (@params_window level _ hdata).2
  have hreach : 2 ^ (params_for_level level data.length).window_log ≤
      2 ^ (params_for_level_ldm level data.length).window_log :=
    Nat.pow_le_pow_right (by decide) (window_log_le_ldm level data.length)
  exact decode_compress_long_with_params hdata hadmits.window_log_ge hadmits.window_log_le
    hadmits.window
    hreach checksum m hrest hmax (.unlimited _)

/-- Whatever the level, `compress` writes one frame, which is decoded to exactly the data and up to
its very end. -/
theorem compress_decodes (level : Int) (checksum m : Bool) (hdata : data.length < 2 ^ 31)
    (hmax : data.length ≤ max_output) :
    ∃ f, decode_one (compress data level checksum m) m max_output = .ok f ∧ f.data = data ∧
      f.consumed = (compress data level checksum m).length := by
  obtain ⟨matches_, hdecode, -⟩ := @decode_compress data [] max_output level checksum m hdata
    (by decide)
    hmax _ (.unlimited _)
  rw [List.append_nil] at hdecode
  exact ⟨_, hdecode, rfl, rfl⟩

/-- What `compress` writes at any level is decoded to the data, and to its own end, whatever
follows. -/
theorem compress_round_trip (level : Int) (checksum m : Bool) (hdata : data.length < 2 ^ 31)
    (hrest : rest.length < 2 ^ 61) (hmax : data.length ≤ max_output) :
    ∃ f, decode_one (compress data level checksum m ++ rest) m max_output = .ok f ∧ f.data = data ∧
      f.consumed = (compress data level checksum m).length := by
  obtain ⟨matches_, hdecode, -⟩ := decode_compress level checksum m hdata hrest hmax (.unlimited _)
  exact ⟨_, hdecode, rfl, rfl⟩

/-- What `compress_long` writes likewise. -/
theorem compress_long_round_trip (level : Int) (checksum m : Bool) (hdata : data.length < 2 ^ 31)
    (hrest : rest.length < 2 ^ 61) (hmax : data.length ≤ max_output) :
    ∃ f, decode_one (compress_long data level checksum m ++ rest) m max_output = .ok f ∧
      f.data = data ∧ f.consumed = (compress_long data level checksum m).length := by
  obtain ⟨matches_, hdecode, -⟩ := decode_compress_long level checksum m hdata hrest hmax
  exact ⟨_, hdecode, rfl, rfl⟩

end EntryPoints

/-- Two KiB of one phrase over and over. -/
def phrases : Bytes := (List.replicate 256 [116, 104, 101, 32, 100, 97, 116, 97]).flatten

theorem length_phrases : phrases.length = 2048 := by
  rw [phrases, List.length_flatten, List.map_replicate, List.sum_replicate]
  rfl

theorem compress_decodes_phrases :
    ∃ f, decode_one (compress phrases 19 true true) true 4096 = .ok f ∧ f.data = phrases ∧
      f.consumed = (compress phrases 19 true true).length :=
  compress_decodes 19 true true (by rw [length_phrases]; decide) (by rw [length_phrases]; decide)

/-- Two KiB of phrases before another frame, with a magic number and without. -/
theorem compress_round_trip_phrases :
    ∃ f, decode_one (compress phrases 19 true false ++ [5]) false 2048 = .ok f ∧
      f.data = phrases ∧ f.consumed = (compress phrases 19 true false).length :=
  compress_round_trip 19 true false (by rw [length_phrases]; decide) (by decide)
    (by rw [length_phrases])

/-- One MiB of changing bytes, and the same again, which is too far for the regular finder of the
first level. -/
def repeated_mib : Bytes :=
  (List.range (2 ^ 20)).map (fun i => UInt8.ofNat (i * i / 7)) ++
    (List.range (2 ^ 20)).map (fun i => UInt8.ofNat (i * i / 7))

theorem length_repeated_mib : repeated_mib.length = 2 ^ 21 := by
  rw [repeated_mib, List.length_append, List.length_map, List.length_range]
  norm_num

theorem compress_long_round_trip_mib :
    ∃ f, decode_one (compress_long repeated_mib 1 true true ++ [5]) true (2 ^ 22) = .ok f ∧
      f.data = repeated_mib ∧ f.consumed = (compress_long repeated_mib 1 true true).length :=
  compress_long_round_trip 1 true true (by rw [length_repeated_mib]; norm_num) (by norm_num)
    (by rw [length_repeated_mib]; norm_num)

section Store

variable {data rest : Bytes} {max_output window : Nat}

theorem chunk_eq_range (data : Bytes) (start : Nat) : (data.drop start).take BLOCK_SIZE_MAX =
    range_of data start (min (start + BLOCK_SIZE_MAX) data.length) := by
  rw [range_of, List.take_drop, Nat.min_def]
  split_ifs with h
  · rfl
  · rw [List.take_of_length_le (Nat.le_of_not_le h), List.take_length]

/-- The decoder follows whatever is written for a part of the data, to the end of that part, and the
written form is hardly longer than the part. -/
structure Followed (window : Nat) (data : Bytes) (write : Bool → Bytes → Bytes) : Prop where
  run : ∀ {start stop limit : Nat} {s : BlockState}, Ready data [] start stop limit s →
    ∀ (last : Bool) (before rest : Bytes),
    (before ++ (write last (range_of data start stop) ++ rest)).length < 2 ^ 63 →
    ∃ s', s.decode_block_at (before ++ (write last (range_of data start stop) ++ rest))
      before.length =
        .ok (s', before.length + (write last (range_of data start stop)).length, last) ∧
      Decoded window data [] stop s s'
  length : ∀ (last : Bool) (chunk : Bytes), (write last chunk).length ≤ chunk.length + 3

section Chunks

variable {write : Bool → Bytes → Bytes}

/-- The decoder follows the chunks, to the end of the frame. -/
theorem Followed.chunks_run (h : Followed window data write) (rest : Bytes) (n : Nat) :
    ∀ {start : Nat} {d : BlockState},
    data.length - start ≤ n → start < data.length → RoomFor data [] start d → ∀ before : Bytes,
    (before ++ (write_chunks write ((data.drop start).chunks BLOCK_SIZE_MAX) ++ rest)).length <
      2 ^ 63 →
    ∃ d', BlocksRun (before ++ (write_chunks write ((data.drop start).chunks BLOCK_SIZE_MAX) ++
      rest))
        ⟨d, before.length, false⟩
        ⟨d', before.length + (write_chunks write ((data.drop start).chunks BLOCK_SIZE_MAX)).length,
          true⟩ ∧
      Decoded window data [] data.length d d' := by
  induction n with
  | zero => intro start d hn hstart; omega
  | succ n ih =>
    intro start d hn hstart hroom before hsrc
    have hmax : BLOCK_SIZE_MAX = 131072 := rfl
    have hready := hroom.ready hstart
    have hne : data.drop start ≠ [] := by
      rw [Ne, List.drop_eq_nil_iff]
      omega
    rw [List.chunks_of_ne_nil (by decide) hne, chunk_eq_range, List.drop_drop] at hsrc ⊢
    by_cases hend : data.length ≤ start + BLOCK_SIZE_MAX
    · have hlast : (data.drop (start + BLOCK_SIZE_MAX)).chunks BLOCK_SIZE_MAX = [] := by
        rw [List.drop_eq_nil_of_le hend, List.chunks_nil]
      rw [hlast, write_chunks] at hsrc ⊢
      rw [min_eq_right hend] at hready hsrc ⊢
      obtain ⟨d', hrun, hdec⟩ := h.run hready true before rest hsrc
      exact ⟨d', NextBlock.run hrun, hdec⟩
    · obtain ⟨chunk, chunks, hmore⟩ : ∃ chunk chunks,
          (data.drop (start + BLOCK_SIZE_MAX)).chunks BLOCK_SIZE_MAX = chunk :: chunks := by
        rw [List.chunks_of_ne_nil (by decide) (by rw [Ne, List.drop_eq_nil_iff]; omega)]
        exact ⟨_, _, rfl⟩
      rw [min_eq_left (by omega)] at hready hsrc ⊢
      have hnext : write_chunks write (range_of data start (start + BLOCK_SIZE_MAX) ::
          (data.drop (start + BLOCK_SIZE_MAX)).chunks BLOCK_SIZE_MAX) =
            write false (range_of data start (start + BLOCK_SIZE_MAX)) ++
              write_chunks write ((data.drop (start + BLOCK_SIZE_MAX)).chunks BLOCK_SIZE_MAX) := by
        rw [hmore]
        rfl
      rw [hnext, List.append_assoc] at hsrc ⊢
      obtain ⟨d₁, hrun₁, hdec₁⟩ := h.run hready false before _ hsrc
      have hrun₁ := NextBlock.run hrun₁
      rw [← List.append_assoc before] at hsrc hrun₁ ⊢
      obtain ⟨d₂, hrun₂, hdec₂⟩ :=
        ih (by omega) (by omega) (hroom.next (Nat.le_add_right _ _) hdec₁) _ hsrc
      rw [List.length_append, Nat.add_assoc] at hrun₂
      refine ⟨d₂, ?_, hdec₁.trans hdec₂⟩
      rw [@List.length_append _ (write false _)]
      exact hrun₁.trans hrun₂

theorem Followed.length_chunks_le (h : Followed window data write) (chunks : List Bytes)
    (hne : ∀ c ∈ chunks, c ≠ []) : (write_chunks write chunks).length ≤ 4 *
      chunks.flatten.length := by
  induction chunks with
  | nil => exact Nat.zero_le _
  | cons c chunks ih =>
    have hpos := List.length_pos_of_ne_nil (hne c List.mem_cons_self)
    have hrest := ih fun c hc => hne c (List.mem_cons_of_mem _ hc)
    rw [List.flatten_cons, List.length_append]
    cases chunks with
    | nil =>
      have hlen := h.length true c
      rw [write_chunks]
      omega
    | cons c' chunks =>
      have hlen := h.length false c
      show (write false c ++ write_chunks write (c' :: chunks)).length ≤ _
      rw [List.length_append]
      omega

/-- A frame written chunk by chunk. -/
theorem Followed.decode (h : Followed (2 ^ STORE_WINDOW_LOG) data write) (checksum m : Bool)
    (hsum : 4 * data.length + rest.length < 2 ^ 62) (hmax : data.length ≤ max_output)
    {max_window : Option Nat} (hceil : Admitted HTTP_MAX_WINDOW_SIZE max_window) {frame : Bytes}
    (hframe : frame = magic_bytes m ++ write_frame_header data.length checksum STORE_WINDOW_LOG 0 ++
      (if data.isEmpty then write_raw_block true [] else write_chunks write
        (data.chunks BLOCK_SIZE_MAX)) ++
      checksum_bytes checksum data) :
    ∃ matches_, decode_frame (frame ++ rest) m max_output none max_window =
        .ok ⟨data, frame.length, matches_⟩ ∧ Conforms none (frame ++ rest) m matches_ := by
  have hblock : BLOCK_SIZE_MAX = 131072 := rfl
  have hwindow : min data.length BLOCK_SIZE_MAX ≤ 2 ^ STORE_WINDOW_LOG := min_le_right _ _
  have hceil := hceil.mono (@window_le_http STORE_WINDOW_LOG (by decide))
  obtain ⟨blocks, hblocks, hsize, hrun⟩ : ∃ blocks,
    blocks = (if data.isEmpty then write_raw_block true []
      else write_chunks write (data.chunks BLOCK_SIZE_MAX)) ∧ blocks.length ≤ 4 * data.length + 3 ∧
      ∀ before rest : Bytes, (before ++ (blocks ++ rest)).length < 2 ^ 63 →
        ∃ d, BlocksRun (before ++ (blocks ++ rest))
            ⟨BlockState.start data.length (min (2 ^ STORE_WINDOW_LOG) MAX_BLOCK_SIZE) none,
              before.length, false⟩ ⟨d, before.length + blocks.length, true⟩ ∧ d.out = [] ++ data ∧
          ∀ mt ∈ d.matches_, mt.distance ≤ 2 ^ STORE_WINDOW_LOG := by
    refine ⟨_, rfl, ?_⟩
    by_cases hempty : data = []
    · subst hempty
      have hready : Ready [] [] 0 0 0
          (BlockState.start 0 (min (2 ^ STORE_WINDOW_LOG) MAX_BLOCK_SIZE) none) :=
        ⟨rfl, le_refl _, le_refl _, le_refl _, le_refl _, Nat.zero_le _, Nat.zero_le _, le_refl _,
          by decide⟩
      exact ⟨le_refl 3, fun before rest hsrc => ⟨_,
        NextBlock.run (write_raw_block_run hready true before rest hsrc), rfl,
        fun mt hmt => absurd hmt List.not_mem_nil⟩⟩
    · have hpos := List.length_pos_of_ne_nil hempty
      have hroom := @RoomFor.at_start data STORE_WINDOW_LOG (by omega) hwindow
      have hsize := h.length_chunks_le (data.chunks BLOCK_SIZE_MAX)
        (List.ne_nil_of_mem_chunks (by decide) data)
      rw [List.flatten_chunks (by decide)] at hsize
      rw [List.isEmpty_eq_false_iff.mpr hempty, if_neg Bool.false_ne_true]
      refine ⟨hsize.trans (Nat.le_add_right _ _), fun before rest hsrc => ?_⟩
      obtain ⟨d, hrun, hdec⟩ := h.chunks_run rest data.length (Nat.le_refl _) hpos hroom before hsrc
      refine ⟨d, hrun, ?_, (hdec.near (.start (by decide) _ _)).matches_⟩
      rw [hdec.out, List.take_length]
  rw [← hblocks] at hframe
  obtain ⟨matches_, hdecode, hnear⟩ := @decode_sized_frame data [] rest _ blocks _ 0 none
    (by decide)
    (by decide) (by decide) rfl rfl hsize hrun checksum m hsum _ hmax _ hceil _ hframe
  exact ⟨matches_, hdecode, sized_frame_conforms (by decide) (by decide) (by decide) rfl (by omega)
    hframe
    hnear⟩

end Chunks

/-- The decoder follows stored blocks. -/
theorem write_store_block_followed (window : Nat) (data : Bytes) :
    Followed window data write_store_block := by
  refine ⟨?_, length_write_store_block_le⟩
  intro start stop limit s hready last before rest hsrc
  refine ⟨_, write_store_block_run hready last before rest hsrc, ?_, ⟨rfl, rfl, rfl⟩,
    fun hd => ⟨hd.rep, hd.matches_⟩⟩
  show s.out ++ range_of data start stop = _
  rw [hready.out, List.append_assoc, take_append_range data hready.range]

theorem decode_compress_store (checksum m : Bool) (hsum : 4 * data.length + rest.length < 2 ^ 62)
    (hmax : data.length ≤ max_output) {max_window : Option Nat}
    (hceil : Admitted HTTP_MAX_WINDOW_SIZE max_window) :
    ∃ matches_, decode_frame (compress_store data checksum m ++ rest) m max_output none max_window =
        .ok ⟨data, (compress_store data checksum m).length, matches_⟩ ∧
      Conforms none (compress_store data checksum m ++ rest) m matches_ := by
  refine (write_store_block_followed _ data).decode checksum m hsum hmax hceil ?_
  rw [compress_store, store_blocks]

/-- What `compress_store` writes is decoded to the data, and to its own end, for data of any size.
-/
theorem compress_store_round_trip (checksum m : Bool)
    (hsum : 4 * data.length + rest.length < 2 ^ 62) (hmax : data.length ≤ max_output) :
    ∃ f, decode_one (compress_store data checksum m ++ rest) m max_output = .ok f ∧ f.data = data ∧
      f.consumed = (compress_store data checksum m).length := by
  obtain ⟨matches_, hdecode, -⟩ := decode_compress_store checksum m hsum hmax (.unlimited _)
  exact ⟨_, hdecode, rfl, rfl⟩

theorem compress_store_round_trip_run :
    ∃ f, decode_one (compress_store (List.replicate 300000 7) true true ++ [1, 2]) true 300000 =
      .ok f ∧
      f.data = List.replicate 300000 7 ∧
      f.consumed = (compress_store (List.replicate 300000 7) true true).length :=
  compress_store_round_trip true true (by rw [List.length_replicate]; decide)
    (by rw [List.length_replicate])

end Store

end ZstdPure.Encode
