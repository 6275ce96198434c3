import ZstdPure.Proofs.FrameExtentProofs
import ZstdPure.Proofs.RoundTripProofs

/-!
# Proofs: caller-tuned compression

A window that the caller asks for may be below the blocks that the data is cut into. The decoder
takes no block beyond the window, so the round trip depends on it. -/

namespace ZstdPure.Encode

open Outcome Sequences BlockState

/-! ## Blocks as they are written -/

/-- A number of blocks one after the other, the last of them with this flag. -/
inductive BlocksWritten : Nat → Bool → Bytes → Prop
  | block (last : Bool) (ty : BlockType) {size : Nat} {body : Bytes} (hsize : size < 2 ^ 21)
    (hbody : body.length = if ty.bits = 1 then 1 else size) :
    BlocksWritten 1 last (write_block_header last ty size ++ body)
  | append {n m : Nat} {last : Bool} {a b : Bytes} (ha : BlocksWritten n false a)
      (hb : BlocksWritten m last b) :
    BlocksWritten (n + m) last (a ++ b)

section Blocks

variable {last : Bool}

theorem write_raw_block_written {chunk : Bytes} (h : chunk.length < 2 ^ 21) :
    BlocksWritten 1 last (write_raw_block last chunk) :=
  .block last .Raw h (if_neg (by decide)).symm

theorem write_store_block_written {chunk : Bytes} (h : chunk.length < 2 ^ 21) :
    BlocksWritten 1 last (write_store_block last chunk) := by
  cases chunk with
  | nil => exact write_raw_block_written h
  | cons b rest =>
    rw [write_store_block]
    split_ifs
    · exact .block last .Rle h (if_pos rfl).symm
    · exact write_raw_block_written h

theorem emit_one_written {p : Parse} {prev : EncTables}
    (h : (emit_one last p prev).1.length < 2 ^ 21) : BlocksWritten 1 last
      (emit_one last p prev).1 := by
  rw [emit_one] at h ⊢
  dsimp only at h ⊢
  refine .block last .Compressed ?_ (if_neg (by decide)).symm
  rw [List.length_append] at h
  omega

/-- A segment is written as at most as many blocks as its splits leave. -/
theorem emit_split_written (depth : Nat) : ∀ {last : Bool} {p : Parse} {prev : EncTables},
    (emit_split last p prev depth).1.length < 2 ^ 21 →
      ∃ n ≤ 2 ^ depth, BlocksWritten n last (emit_split last p prev depth).1 := by
  induction depth with
  | zero =>
    intro last p prev h
    exact ⟨1, le_refl _, emit_one_written h⟩
  | succ depth ih =>
    intro last p prev h
    by_cases hs : Splits p
    · rw [emit_split_succ last prev hs] at h ⊢
      dsimp only at h ⊢
      split_ifs at h ⊢ with hlt
      · rw [List.length_append] at h
        obtain ⟨n, hn, ha⟩ := @ih false (first_half p) prev (by omega)
        obtain ⟨m, hm, hb⟩ :=
          @ih last (second_half p) (emit_split false (first_half p) prev depth).2
          (by omega)
        exact ⟨n + m, by rw [Nat.pow_succ]; omega, .append ha hb⟩
      · exact ⟨1, Nat.one_le_two_pow, emit_one_written h⟩
    · rw [emit_split_of_not_splits last prev hs] at h ⊢
      exact ⟨1, Nat.one_le_two_pow, emit_one_written h⟩

/-- So is a block of the loop. -/
theorem encode_block_written (e : FrameEnv) (data : Bytes) {start stop : Nat} (s : Session)
    (hblock : stop - start ≤ BLOCK_SIZE_MAX) :
    ∃ n ≤ 2 ^ e.split_depth, BlocksWritten n last (encode_block e last data start stop s).1 := by
  have hmax : BLOCK_SIZE_MAX = 131072 := rfl
  have hstore := length_write_store_block_le last (range_of data start stop)
  have hchunk : (range_of data start stop).length ≤ stop - start := by
    rw [range_of, List.length_drop]
    have := List.length_take_le stop data
    omega
  have hchosen : ∀ (state : EncState) (parsed : Parsed),
      ∃ n ≤ 2 ^ e.split_depth, BlocksWritten n last
        (choose_block (write_store_block last (range_of data start stop)) state
          (emit_and_pick last parsed state.tables e.split_depth)).bytes := by
    intro state parsed
    unfold choose_block
    split_ifs with hlt
    · obtain ⟨c, -, hpick⟩ := emit_and_pick_mem last parsed state.tables e.split_depth
      rw [hpick] at hlt ⊢
      have hlen : (emit_split last c.parse state.tables e.split_depth).1.length < 2 ^ 21 :=
        hlt.trans_le (hstore.trans (by omega))
      exact emit_split_written _ hlen
    · exact ⟨1, Nat.one_le_two_pow, write_store_block_written (by omega)⟩
  unfold encode_block
  dsimp only
  cases s.ldm with
  | some ldm => exact hchosen s.state ⟨_, []⟩
  | none => exact hchosen s.state _

/-- A decoder that gets beyond some blocks stands behind them, and each of them has put out no more
than one block may. -/
theorem BlocksWritten.decode {n : Nat} {last : Bool} {bytes : Bytes}
    (h : BlocksWritten n last bytes) :
    ∀ {before rest : Bytes} {p q : BlockPos}, p.pos = before.length → p.last = false →
      p.state.dict_len ≤ p.state.out.length → BlocksIterate (before ++ (bytes ++ rest)) p q →
      ∃ p', BlocksIterate (before ++ (bytes ++ rest)) p' q ∧
        p'.pos = (before ++ bytes).length ∧ p'.last = last ∧
        p'.state.dict_len ≤ p'.state.out.length ∧ p'.state.block_max = p.state.block_max ∧
        p'.state.out.length ≤ p.state.out.length + n * p.state.block_max := by
  induction h with
  | @block last ty size body hsize hbody =>
    intro before rest p q hpos hlast hdict hrun
    cases hrun with
    | stop hc =>
      rw [hlast] at hc
      exact absurd hc (by decide)
    | @step _ p' _ _ hstep hrest =>
      obtain ⟨header, hheader, hpos', hlast'⟩ := decode_block_header hstep
      rw [hpos, List.append_assoc (write_block_header _ _ _),
        header_at_append last ty hsize] at hheader
      obtain rfl := Except.ok.inj hheader
      rw [decode_block] at hstep
      obtain ⟨r, hr, hstep⟩ := bind_eq_ok.mp hstep
      obtain rfl := Except.ok.inj hstep
      have happ := decode_block_at_ensures hdict r hr
      refine ⟨_, hrest, ?_, hlast', ?_, happ.same.block_max, ?_⟩
      · rw [hpos', hpos, BlockHeader.body_len, ← hbody, List.length_append, List.length_append,
          length_write_block_header]
        omega
      · show r.1.dict_len ≤ _
        rw [happ.same.dict_len]
        exact hdict.trans happ.out_extends.length_le
      · rw [Nat.one_mul]
        exact happ.length
  | @append n m last a b ha hb iha ihb =>
    intro before rest p q hpos hlast hdict hrun
    rw [List.append_assoc] at hrun
    obtain ⟨p₁, hrun₁, hpos₁, hlast₁, hdict₁, hmax₁, hlen₁⟩ := iha hpos hlast hdict hrun
    rw [← List.append_assoc] at hrun₁
    obtain ⟨p₂, hrun₂, hpos₂, hlast₂, hdict₂, hmax₂, hlen₂⟩ := ihb hpos₁ hlast₁ hdict₁ hrun₁
    simp only [List.append_assoc] at hrun₂ hpos₂ ⊢
    refine ⟨p₂, hrun₂, hpos₂, hlast₂, hdict₂, hmax₂.trans hmax₁, hlen₂.trans ?_⟩
    rw [hmax₁, Nat.add_mul]
    omega

/-- A decoder that gets to the end of the block loop has put out no more than its blocks may hold.
-/
theorem encode_blocks_decode (e : FrameEnv) {data rest : Bytes} (n : Nat) :
    ∀ {start : Nat} {s : Session} {before : Bytes} {p q : BlockPos}, data.length - start ≤ n →
      start < data.length → p.pos = before.length → p.last = false →
      p.state.dict_len ≤ p.state.out.length →
      BlocksIterate (before ++ (encode_blocks e true data start s ++ rest)) p q →
      q.state.out.length ≤ p.state.out.length +
        (data.length - start + BLOCK_SIZE_MAX - 1) / BLOCK_SIZE_MAX *
          (2 ^ e.split_depth * p.state.block_max) := by
  have hmax : BLOCK_SIZE_MAX = 131072 := rfl
  induction n with
  | zero =>
    intro start s before p q hn hstart
    omega
  | succ n ih =>
    intro start s before p q hn hstart hpos hlast hdict hrun
    obtain ⟨stop, hstop⟩ : ∃ stop, min (start + BLOCK_SIZE_MAX) data.length = stop := ⟨_, rfl⟩
    obtain ⟨bytes, s', henc⟩ : ∃ bytes s',
        encode_block e (true && stop == data.length) data start stop s = (bytes, s') := ⟨_, _, rfl⟩
    obtain ⟨k, hk, hwritten⟩ := @encode_block_written (true && stop == data.length) e data start
      stop s
      (by omega)
    rw [henc] at hwritten
    rw [encode_blocks_next e true s hstart hstop henc, List.append_assoc] at hrun
    obtain ⟨p', hrun', hpos', hlast', hdict', hmax', hlen'⟩ := hwritten.decode hpos hlast hdict hrun
    have hle := Nat.mul_le_mul_right p.state.block_max hk
    rw [← List.append_assoc] at hrun'
    by_cases hend : stop = data.length
    · -- the block was the last one
      rw [hend, beq_self_eq_true, Bool.and_true] at hlast'
      have hone : 1 ≤ (data.length - start + BLOCK_SIZE_MAX - 1) / BLOCK_SIZE_MAX :=
        (Nat.le_div_iff_mul_le (by decide)).mpr (by omega)
      have hmul := Nat.mul_le_mul_right (2 ^ e.split_depth * p.state.block_max) hone
      rw [Nat.one_mul] at hmul
      cases hrun' with
      | stop _ => omega
      | step hc =>
        rw [hlast'] at hc
        exact absurd hc (by decide)
    · rw [beq_eq_false_iff_ne.mpr hend, Bool.and_false] at hlast'
      have hrest := ih (by omega) (by omega) hpos' hlast' hdict' hrun'
      have hcount : (data.length - start + BLOCK_SIZE_MAX - 1) / BLOCK_SIZE_MAX =
          (data.length - stop + BLOCK_SIZE_MAX - 1) / BLOCK_SIZE_MAX + 1 := by
        rw [← Nat.add_div_right _ (by decide)]
        congr 1
        omega
      rw [hmax'] at hrest
      rw [hcount, Nat.succ_mul]
      omega

end Blocks

/-! ## The window of a frame that decodes -/

section Window

variable {data tail : Bytes} {params : CParams} {f : DecodedFrame} {m checksum : Bool}
  {max_output : Nat}

/-- A frame that decodes has a run of its blocks behind the header. -/
theorem decode_frame_run {head : Bytes} {size : Option Nat} {window id : Nat}
    (hhead : ∀ tail, parse_frame_header (head ++ tail) = .ok ⟨head.length, checksum, size, window,
      id⟩)
    (hdecode : decode_one (magic_bytes m ++ head ++ tail) m max_output = .ok f) :
    ∃ cap q, BlocksIterate (magic_bytes m ++ head ++ tail)
        ⟨BlockState.start cap (min window MAX_BLOCK_SIZE) none, (magic_bytes m ++ head).length,
          false⟩ q ∧
      f.data = q.state.out := by
  have hlen : (magic_bytes m).length ≤ (magic_bytes m ++ head ++ tail).length := by
    rw [List.append_assoc, List.length_append]
    exact Nat.le_add_right _ _
  have hdrop : (magic_bytes m ++ head ++ tail).drop (magic_bytes m).length = head ++ tail := by
    rw [List.append_assoc, List.drop_left]
  have hfront : decode_front (magic_bytes m ++ head ++ tail) m =
    .ok (.frame (magic_bytes m).length) := by
    rw [List.append_assoc]
    exact decode_front_magic m _
  rw [decode_one, decode_one_with_dict, decode_frame_eq] at hdecode
  obtain ⟨start, hstart, hrest⟩ := bind_eq_ok.mp hdecode
  rw [frame_start, hfront, bind_ok] at hstart
  dsimp only at hstart
  rw [sliceFrom_ok hlen, bind_ok, hdrop, hhead, bind_ok] at hstart
  obtain ⟨pos, hpos, hstart⟩ := bind_eq_ok.mp hstart
  obtain ⟨_, -, hstart⟩ := bind_eq_ok.mp hstart
  obtain ⟨cap, -, hstart⟩ := bind_eq_ok.mp hstart
  obtain ⟨_, -, hstart⟩ := bind_eq_ok.mp hstart
  obtain rfl := Except.ok.inj hstart
  obtain ⟨q, hq, hdata, -, -⟩ := frame_rest_ok hrest
  have hrun := decode_blocks_iterate hq
  rw [(add_eq_ok.mp hpos).2, ← List.length_append] at hrun
  exact ⟨cap, q, hrun, hdata.trans (List.drop_zero ..)⟩

/-- Blocks that a decoder puts out in full leave the window no smaller than the data is cut, up to
the splits. -/
theorem window_of_decoded {e : FrameEnv} {s : Session} {log : Nat} (hdata : data.length < 2 ^ 64)
    (h10 : 10 ≤ log) (h41 : log ≤ 41)
    (hdecode : decode_one (magic_bytes m ++ write_frame_header data.length checksum log 0 ++
      frame_blocks e data 0 s ++ checksum_bytes checksum data) m max_output = .ok f)
    (hf : f.data = data) : min data.length BLOCK_SIZE_MAX ≤ 2 ^ e.split_depth * 2 ^ log := by
  have hmax : BLOCK_SIZE_MAX = 131072 := rfl
  rcases Nat.eq_zero_or_pos data.length with hempty | hpos
  · rw [hempty, Nat.zero_min]
    exact Nat.zero_le _
  rw [List.append_assoc (_ ++ _)] at hdecode
  obtain ⟨cap, q, hrun, hout⟩ := decode_frame_run
    (fun tail => parse_write_frame_header checksum tail hdata h10 h41 (by decide)) hdecode
  rw [frame_blocks, if_neg (by omega)] at hrun
  have hlen := encode_blocks_decode e _ (le_refl _) hpos rfl rfl (Nat.zero_le _) hrun
  rw [← hout, hf] at hlen
  have hstart : (BlockState.start cap (min (2 ^ log) MAX_BLOCK_SIZE) none).out.length = 0 := rfl
  have hle : 2 ^ e.split_depth *
    (BlockState.start cap (min (2 ^ log) MAX_BLOCK_SIZE) none).block_max ≤
      2 ^ e.split_depth * 2 ^ log := Nat.mul_le_mul_left _ (min_le_left _ _)
  dsimp only at hlen
  rw [hstart, Nat.zero_add, Nat.sub_zero] at hlen
  rw [← Nat.pow_add] at hle ⊢
  by_contra hsmall
  -- each block then holds at most half of what the data is cut into
  have hhalf : 2 ^ (e.split_depth + log) ≤ 65536 ∧ 2 ^ (e.split_depth + log) < data.length := by
    have hlt : 2 ^ (e.split_depth + log) < 2 ^ 17 := by omega
    have := Nat.pow_le_pow_right Nat.two_pos
      (Nat.le_of_lt_succ ((Nat.pow_lt_pow_iff_right (by decide : 1 < 2)).mp hlt))
    omega
  have hbound := hlen.trans (Nat.mul_le_mul_left _ hle)
  obtain ⟨k, hk⟩ : ∃ k, (data.length + BLOCK_SIZE_MAX - 1) / BLOCK_SIZE_MAX = k := ⟨_, rfl⟩
  rw [hk] at hbound
  rw [hmax] at hk
  rcases Nat.lt_or_ge 1 k with hmany | hone
  · have := Nat.mul_le_mul_left k hhalf.1
    omega
  · have := Nat.mul_le_mul_right (2 ^ (e.split_depth + log)) hone
    omega

end Window

/-! ## Caller-tuned parameters -/

section Options

variable {data rest : Bytes} {max_output : Nat}

/-- The window of caller-tuned parameters admits the blocks, unless the caller asks for less. -/
theorem CompressOptions.resolve_window {opts : CompressOptions} {n : Nat} (hn : n < 2 ^ 31)
    (hwindow : ∀ v, opts.window_log = some v → min n BLOCK_SIZE_MAX ≤ 2 ^ max v MIN_WINDOW_LOG) :
    10 ≤ (opts.resolve n).window_log ∧ (opts.resolve n).window_log ≤ DEFAULT_WINDOW_LOG_MAX ∧
      min n BLOCK_SIZE_MAX ≤ 2 ^ (opts.resolve n).window_log := by
  obtain ⟨hregular, hlong⟩ := @params_window opts.level n hn
  have h10 : MIN_WINDOW_LOG = 10 := rfl
  have h23 : MAX_WINDOW_LOG = 23 := rfl
  have h27 : LDM_MAX_WINDOW_LOG = 27 := rfl
  have hmax : DEFAULT_WINDOW_LOG_MAX = 27 := rfl
  obtain ⟨win_max, hwin, hlow, hhigh⟩ : ∃ win_max, win_max =
      (if opts.long_distance then LDM_MAX_WINDOW_LOG else MAX_WINDOW_LOG) ∧ 17 ≤ win_max ∧
        win_max ≤ 27 := by
    refine ⟨_, rfl, ?_, ?_⟩ <;> split_ifs <;> decide
  unfold CompressOptions.resolve
  dsimp only
  rw [← hwin]
  cases hlog : opts.window_log with
  | none =>
    show 10 ≤ CParams.window_log _ ∧ CParams.window_log _ ≤ DEFAULT_WINDOW_LOG_MAX ∧
      _ ≤ 2 ^ CParams.window_log _
    have hle₁ := hregular.window_log_le
    have hle₂ := hlong.window_log_le
    split_ifs
    · exact ⟨hlong.window_log_ge, by omega, hlong.window⟩
    · exact ⟨hregular.window_log_ge, by omega, hregular.window⟩
  | some v =>
    show 10 ≤ clamp v MIN_WINDOW_LOG win_max ∧ clamp v MIN_WINDOW_LOG win_max ≤
      DEFAULT_WINDOW_LOG_MAX ∧
      _ ≤ 2 ^ clamp v MIN_WINDOW_LOG win_max
    have hclamp : clamp v MIN_WINDOW_LOG win_max = min (max v MIN_WINDOW_LOG) win_max := by
      unfold clamp
      omega
    rw [hclamp]
    refine ⟨by omega, by omega, ?_⟩
    rcases min_choice (max v MIN_WINDOW_LOG) win_max with hmin | hmin
    · rw [hmin]
      exact hwindow v hlog
    · have hpow : 2 ^ 17 ≤ 2 ^ win_max := Nat.pow_le_pow_right (by decide) hlow
      rw [hmin]
      exact (min_le_right n BLOCK_SIZE_MAX).trans hpow

theorem decode_compress_with_options (opts : CompressOptions) (hdata : data.length < 2 ^ 31)
    (hrest : rest.length < 2 ^ 61) (hmax : data.length ≤ max_output)
    (hwindow : ∀ v, opts.window_log = some v →
      min data.length BLOCK_SIZE_MAX ≤ 2 ^ max v MIN_WINDOW_LOG) :
    ∃ matches_, decode_frame (compress_with_options data opts ++ rest) opts.magic max_output none
      none =
        .ok ⟨data, (compress_with_options data opts).length, matches_⟩ ∧
      Conforms none (compress_with_options data opts ++ rest) opts.magic matches_ := by
  obtain ⟨h10, h27, hblocks⟩ := CompressOptions.resolve_window hdata hwindow
  unfold compress_with_options
  dsimp only
  split_ifs
  · exact decode_compress_long_with_params hdata h10 h27 hblocks (min_le_right _ _) opts.checksum
      opts.magic
      hrest hmax (.unlimited _)
  · exact decode_compress_with_params hdata h10 h27 hblocks opts.checksum opts.magic hrest hmax
      (.unlimited _)

/-- Whatever parameters the caller overrides, the frame is decoded to the data, unless the window
asked for is below the blocks. -/
theorem compress_with_options_round_trip (opts : CompressOptions) (hdata : data.length < 2 ^ 31)
    (hrest : rest.length < 2 ^ 61) (hmax : data.length ≤ max_output)
    (hwindow : ∀ v, opts.window_log = some v →
      min data.length BLOCK_SIZE_MAX ≤ 2 ^ max v MIN_WINDOW_LOG) :
    ∃ f, decode_one (compress_with_options data opts ++ rest) opts.magic max_output = .ok f ∧
      f.data = data ∧ f.consumed = (compress_with_options data opts).length := by
  obtain ⟨matches_, hdecode, -⟩ := decode_compress_with_options opts hdata hrest hmax hwindow
  exact ⟨_, hdecode, rfl, rfl⟩

/-- The window that the parameters resolve to is at most the one asked for. -/
theorem CompressOptions.resolve_window_le {opts : CompressOptions} {n v : Nat}
    (hv : opts.window_log = some v) : 10 ≤ (opts.resolve n).window_log ∧
      (opts.resolve n).window_log ≤ 41 ∧ (opts.resolve n).window_log ≤ max v MIN_WINDOW_LOG := by
  have h10 : MIN_WINDOW_LOG = 10 := rfl
  have hlog : (opts.resolve n).window_log =
      clamp v MIN_WINDOW_LOG
        (if opts.long_distance then LDM_MAX_WINDOW_LOG else MAX_WINDOW_LOG) := by
    rw [CompressOptions.resolve, hv]
    rfl
  have hwin : 10 ≤ (if opts.long_distance then LDM_MAX_WINDOW_LOG else MAX_WINDOW_LOG) ∧
      (if opts.long_distance then LDM_MAX_WINDOW_LOG else MAX_WINDOW_LOG) ≤ 41 := by
    split_ifs <;> decide
  rw [hlog, clamp]
  omega

/-- A frame that is decoded to the data has a window that admits its blocks, up to the splits. -/
theorem CompressOptions.admits_of_decoded {opts : CompressOptions} {f : DecodedFrame}
    (hdata : data.length < 2 ^ 31)
    (hdecode : decode_one (compress_with_options data opts) opts.magic max_output = .ok f)
    (hf : f.data = data) {v : Nat} (hv : opts.window_log = some v) :
      min data.length BLOCK_SIZE_MAX ≤
      2 ^ split_depth_for (opts.resolve data.length).strategy * 2 ^ max v MIN_WINDOW_LOG := by
  obtain ⟨h10, h41, hle⟩ := @CompressOptions.resolve_window_le opts data.length v hv
  have hpow := Nat.mul_le_mul_left (2 ^ split_depth_for (opts.resolve data.length).strategy)
    (Nat.pow_le_pow_right Nat.two_pos hle)
  refine le_trans ?_ hpow
  unfold compress_with_options at hdecode
  dsimp only at hdecode
  split_ifs at hdecode
  · rw [compress_long_with_params] at hdecode
    exact window_of_decoded (by omega) h10 h41 hdecode hf
  · rw [compress_with_params] at hdecode
    exact window_of_decoded (by omega) h10 h41 hdecode hf

/-- Caller-tuned compression round trips where the window asked for, if any, is no smaller than the
blocks that the data is cut into. For the strategies that do not split blocks it does only there;
for the others the window may be smaller by the splits, and no more. -/
theorem compress_with_options_decodes (opts : CompressOptions) (hdata : data.length < 2 ^ 31) :
    let frame := compress_with_options data opts
    let depth := split_depth_for (opts.resolve data.length).strategy
    let admits (scale : Nat) := ∀ v, opts.window_log = some v →
      min data.length BLOCK_SIZE_MAX ≤ scale * 2 ^ max v MIN_WINDOW_LOG
    (admits 1 → ∃ f, decode_one frame opts.magic data.length = .ok f ∧ f.data = data) ∧
    (depth = 0 → ((∃ f, decode_one frame opts.magic data.length = .ok f ∧ f.data = data) ↔
      admits 1)) ∧
    ((∃ f, decode_one frame opts.magic data.length = .ok f ∧ f.data = data) →
      admits (2 ^ depth)) := by
  intro frame depth admits
  have hsuff : admits 1 → ∃ f, decode_one frame opts.magic data.length = .ok f ∧ f.data = data := by
    intro hadmits
    obtain ⟨matches_, hdecode, -⟩ := @decode_compress_with_options data [] data.length opts hdata
      (by decide) (le_refl _) fun v hv => (hadmits v hv).trans_eq (Nat.one_mul _)
    rw [List.append_nil] at hdecode
    exact ⟨_, hdecode, rfl⟩
  have hnec : (∃ f, decode_one frame opts.magic data.length = .ok f ∧ f.data = data) →
      admits (2 ^ depth) := by
    rintro ⟨f, hdecode, hf⟩ v hv
    exact CompressOptions.admits_of_decoded hdata hdecode hf hv
  refine ⟨hsuff, fun hdepth => ⟨fun h => ?_, hsuff⟩, hnec⟩
  have hadmits := hnec h
  rw [hdepth] at hadmits
  exact hadmits

end Options

/-- A window below the smallest one, for a few bytes. -/
theorem compress_with_options_round_trip_small :
    let opts := { CompressOptions.new 19 with window_log := some 3, hash_log := some 99,
                                              min_match := some 0, strategy := some .Btultra2 }
    ∃ f, decode_one (compress_with_options [1, 2, 1, 2] opts ++ []) true 4 = .ok f ∧
      f.data = [1, 2, 1, 2] ∧ f.consumed = (compress_with_options [1, 2, 1, 2] opts).length := by
  intro opts
  refine compress_with_options_round_trip opts (by decide) (by decide) (by decide) ?_
  intro v hv
  rw [← Option.some.inj hv]
  decide

/-- 1500 bytes are one block, which a window of 1 KiB does not admit. -/
theorem compress_with_options_small_window : ¬ ∀ (data : Bytes) (opts : CompressOptions),
    data.length < 2 ^ 31 →
      ∃ f, decode_one (compress_with_options data opts) opts.magic data.length = .ok f ∧
      f.data = data := by
  intro h
  let opts : CompressOptions :=
    { CompressOptions.new 1 with window_log := some 10, strategy := some .Fast }
  obtain ⟨data, hlen⟩ : ∃ data : Bytes, data.length = 1500 :=
    ⟨List.replicate 1500 97, List.length_replicate⟩
  obtain ⟨f, hdecode, hf⟩ := h data opts (by omega)
  have hadmits := CompressOptions.admits_of_decoded (by omega) hdecode hf (rfl : opts.window_log =
    some 10)
  rw [hlen] at hadmits
  exact absurd hadmits (by decide)

/-- `compress_with_options_decodes` for four KiB of repetitions, a window that admits them and one
that does not. -/
theorem compress_with_options_decodes_two_windows :
    let data : Bytes := (List.replicate 1024 [97, 98, 99, 100]).flatten
    let opts (log : Nat) : CompressOptions :=
      { CompressOptions.new 1 with window_log := some log, strategy := some .Fast }
    (∃ f, decode_one (compress_with_options data (opts 12)) true data.length = .ok f ∧
      f.data = data) ∧
      ¬ ∃ f, decode_one (compress_with_options data (opts 11)) true data.length = .ok f ∧
        f.data = data := by
  intro data opts
  have hlen : data.length = 4096 := by
    rw [List.length_flatten, List.map_replicate, List.sum_replicate]
    rfl
  constructor
  · refine (compress_with_options_decodes (opts 12) (by omega)).1 fun v hv => ?_
    obtain rfl := Option.some.inj hv
    rw [hlen]
    decide
  · intro h
    have hadmits := ((compress_with_options_decodes (opts 11) (by omega)).2.1 rfl).mp h 11 rfl
    rw [hlen] at hadmits
    exact absurd hadmits (by decide)

end ZstdPure.Encode
