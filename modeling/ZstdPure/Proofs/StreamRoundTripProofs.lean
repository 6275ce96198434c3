import ZstdPure.Proofs.RoundTripProofs
import ZstdPure.Proofs.StreamMemoryProofs

/-!
# Proofs: what is streamed in is decompressed

The buffer of the streaming encoder is a window on the input that moves. The decoder follows its
blocks all the same, since what is before the window is still in its output. -/

namespace ZstdPure.Encode

open Outcome Sequences BlockState

/-- A slide moves the positions of a session with its buffer. -/
theorem Session.Sound.slide {data : Bytes} {next drop : Nat} {s : Session} (h : s.Sound data next)
    (hdrop : s.finder.slide_period ∣ drop) (hle : drop ≤ next) (hnext : next < 2 ^ 31) :
    (s.reduce_index asI32 drop).Sound (data.drop drop) (next - drop) := by
  refine ⟨h.finder.slide hdrop, ?_, h.fits⟩
  intro st hst
  obtain ⟨st₀, hst₀, rfl⟩ := Option.map_eq_some_iff.mp hst
  exact (h.ldm st₀ hst₀).reduce hnext hle

namespace StreamingEncoder

/-! ## The encoder and a decoder that follows it -/

/-- The decoder has put out what the encoder has emitted, within its window, and both keep states
that belong together. -/
structure Follows (data : Bytes) (t : StreamingEncoder) (d : BlockState) : Prop where
  input : t.input = data.drop t.dropped
  inside : t.emitted ≤ data.length
  cast : t.env.cast = asI32
  searches : t.env.SearchesIn t.window_size
  sound : t.session.Sound (t.input.take (t.emitted - t.dropped)) (t.emitted - t.dropped)
  related : t.session.state.RelatedTo d
  out : d.out = data.take t.emitted
  near : BlockNear t.window_size d

/-- A decoder that has room for all of the data. -/
structure Roomy (data : Bytes) (d : BlockState) : Prop where
  dict_len : d.dict_len = 0
  block_max : BLOCK_SIZE_MAX ≤ d.block_max
  max_output : data.length ≤ d.max_output

section Steps

variable {data : Bytes} {t : StreamingEncoder} {d : BlockState} {stop : Nat}

/-- The buffer up to a position, behind the bytes that were dropped. -/
theorem Follows.view (h : Follows data t d) {n : Nat} (hn : t.dropped ≤ n) :
    data.take t.dropped ++ t.input.take (n - t.dropped) = data.take n := by
  rw [h.input, ← List.drop_take]
  exact take_append_range data hn

/-- The decoder follows a block. -/
theorem Follows.block (h : Follows data t d) (hbounded : t.Bounded)
    (hwindow : t.window_size ≤ 2 ^ 28) (hdata : data.length < 2 ^ 63) (hroom : Roomy data d)
    (hstart : t.emitted ≤ stop) (hstop : stop ≤ data.length)
    (hblock : stop - t.emitted ≤ BLOCK_SIZE_MAX) (last : Bool) (before rest : Bytes)
    (hsrc : (before ++ ((t.next_block stop last).1 ++ rest)).length < 2 ^ 63) :
    ∃ d', BlocksRun (before ++ ((t.next_block stop last).1 ++ rest)) ⟨d, before.length, false⟩
        ⟨d', before.length + (t.next_block stop last).1.length, last⟩ ∧
      d'.out = data.take stop ∧ d.SameFrame d' ∧ BlockNear t.window_size d' ∧
      (t.next_block stop last).2.state.RelatedTo d' ∧
      (t.next_block stop last).2.Sound (t.input.take (stop - t.dropped)) (stop - t.dropped) := by
  have hmax : BLOCK_SIZE_MAX = 131072 := rfl
  have hdropped := hbounded.ordered.dropped
  have hhistory := hbounded.history_le
  have hdict := hroom.dict_len
  have hbm := hroom.block_max
  have hcap := hroom.max_output
  have hinput := congrArg List.length h.input
  rw [List.length_drop] at hinput
  have hlen : (t.input.take (stop - t.dropped)).length = stop - t.dropped := by
    rw [List.length_take]
    omega
  have hpre : (data.take t.dropped).length = t.dropped := by
    rw [List.length_take]
    omega
  have hsound : t.session.Sound (t.input.take (stop - t.dropped)) (t.emitted - t.dropped) := by
    have hgrown := h.sound.append ((t.input.drop (t.emitted - t.dropped)).take (stop - t.emitted))
    rw [← List.take_add, show t.emitted - t.dropped + (stop - t.emitted) = stop -
      t.dropped by omega]
      at hgrown
    exact hgrown
  have hready : Ready (t.input.take (stop - t.dropped)) (data.take t.dropped)
    (t.emitted - t.dropped)
      (stop - t.dropped) (stop - t.dropped - (t.emitted - t.dropped)) d := by
    refine ⟨?_, ?_, ?_, ?_, le_refl _, ?_, ?_, ?_, ?_⟩
    · rw [List.take_take, min_eq_left (by omega), h.view hdropped]
      exact h.out
    · omega
    · omega
    · omega
    · omega
    · omega
    · omega
    · omega
  obtain ⟨d', hrun, hdec, hrel, hs, -⟩ := encode_block_run h.cast hsound (by omega) h.searches
    h.related hready
    (Prod.mk.eta.symm : t.next_block stop last = _) before rest hsrc
  refine ⟨d', hrun, ?_, hdec.same, hdec.near h.near, hrel, hs⟩
  rw [hdec.out, List.take_take, min_self, h.view (by omega)]

/-- What a slide leaves still belongs to the decoder. -/
theorem Follows.slide (h : Follows data t d) (hsmall : t.emitted - t.dropped < 2 ^ 31) :
    Follows data t.maybe_slide d := by
  by_cases h0 : t.slide_drop = 0
  · have hsame : t.maybe_slide = t := by
      rw [maybe_slide]
      exact if_pos h0
    rw [hsame]
    exact h
  · have hle := slide_drop_le t
    have hperiod : t.session.finder.slide_period ∣ t.slide_drop := by
      rcases maybe_slide_cases t with hsame | ⟨m, -, hm, -⟩
      · have hd := (maybe_slide_fields t).2.2
        rw [hsame] at hd
        rw [show t.slide_drop = 0 by omega]
        exact dvd_zero _
      · rw [hm]
        exact Nat.dvd_mul_left _ _
    have hslid : t.maybe_slide = { t with
        session := t.session.reduce_index t.env.cast t.slide_drop
        input := t.input.drop t.slide_drop
        dropped := t.dropped + t.slide_drop } := by
      rw [maybe_slide]
      exact if_neg h0
    have hsound := h.sound.slide hperiod hle hsmall
    rw [List.drop_take, Nat.sub_sub, ← h.cast] at hsound
    rw [hslid]
    refine ⟨?_, h.inside, h.cast, h.searches, hsound, h.related, h.out, h.near⟩
    show t.input.drop t.slide_drop = data.drop (t.dropped + t.slide_drop)
    rw [h.input, List.drop_drop]

theorem length_next_block_le (t : StreamingEncoder) (stop : Nat) (last : Bool) :
    (t.next_block stop last).1.length ≤ stop - t.emitted + 3 := by
  have hblock := length_encode_block_le last t.env (t.input.take (stop - t.dropped))
    (t.emitted - t.dropped) (stop - t.dropped) t.session
  have hstore := length_write_store_block_le last
    (range_of (t.input.take (stop - t.dropped)) (t.emitted - t.dropped) (stop - t.dropped))
  have hchunk : (range_of (t.input.take (stop - t.dropped)) (t.emitted - t.dropped)
      (stop - t.dropped)).length ≤ stop - t.emitted := by
    rw [range_of, List.length_drop, List.length_take, List.length_take]
    omega
  show (encode_block t.env last (t.input.take (stop - t.dropped)) (t.emitted - t.dropped)
    (stop - t.dropped) t.session).1.length ≤ _
  omega

/-- The decoder follows a full block and the slide after it. -/
theorem Follows.step (h : Follows data t d) (hbounded : t.Bounded)
    (hwindow : t.window_size ≤ 2 ^ 28) (hdata : data.length < 2 ^ 63) (hroom : Roomy data d)
    (hfull : t.emitted + BLOCK_SIZE_MAX ≤ data.length) (rest : Bytes)
    (hsrc : ((drain_step maybe_slide t).out ++ rest).length < 2 ^ 63) :
    ∃ d', BlocksRun ((drain_step maybe_slide t).out ++ rest) ⟨d, t.out.length, false⟩
        ⟨d', (drain_step maybe_slide t).out.length, false⟩ ∧
      Follows data (drain_step maybe_slide t) d' ∧ d.SameFrame d' := by
  have hmax : BLOCK_SIZE_MAX = 131072 := rfl
  have hdropped := hbounded.ordered.dropped
  have hhistory := hbounded.history_le
  rw [drain_step_out maybe_slide_slides] at hsrc ⊢
  rw [List.append_assoc] at hsrc ⊢
  obtain ⟨d', hrun, hout, hsame, hnear, hrel, hs⟩ := h.block hbounded hwindow hdata hroom
    (Nat.le_add_right _ _) hfull (by omega) false t.out rest hsrc
  have hemitted : Follows data (t.emit_block (t.emitted + BLOCK_SIZE_MAX) false) d' :=
    ⟨h.input, hfull, h.cast, h.searches, hs, hrel, hout, hnear⟩
  rw [List.length_append]
  refine ⟨d', hrun, hemitted.slide ?_, hsame⟩
  show t.emitted + BLOCK_SIZE_MAX - t.dropped < 2 ^ 31
  omega

end Steps

/-! ## The blocks of a stream -/

section Stream

variable {s₀ : StreamingEncoder} {data : Bytes} {d₀ : BlockState}

/-- What a stream starts from. -/
structure Starts (s₀ : StreamingEncoder) (d₀ : BlockState) : Prop where
  fresh : Fresh s₀
  cast : s₀.env.cast = asI32
  period_le : s₀.session.finder.slide_period ≤ s₀.window_size
  window : s₀.window_size ≤ 2 ^ 28
  searches : s₀.env.SearchesIn s₀.window_size
  sound : s₀.session.Sound [] 0
  related : s₀.session.state.RelatedTo d₀
  out : d₀.out = []
  near : BlockNear s₀.window_size d₀

theorem Starts.follows (h : Starts s₀ d₀) (data : Bytes) : Follows data (s₀.feed data) d₀ := by
  obtain ⟨hinput, hdropped, hemitted⟩ := h.fresh
  have hz : (s₀.feed data).emitted - (s₀.feed data).dropped = 0 := by
    show s₀.emitted - s₀.dropped = 0
    rw [hemitted, Nat.zero_sub]
  refine ⟨?_, ?_, h.cast, h.searches, ?_, h.related, ?_, h.near⟩
  · show s₀.input ++ data = data.drop s₀.dropped
    rw [hinput, hdropped]
    rfl
  · show s₀.emitted ≤ data.length
    rw [hemitted]
    exact Nat.zero_le _
  · rw [hz]
    exact h.sound
  · show d₀.out = data.take s₀.emitted
    rw [h.out, hemitted]
    rfl

/-- The output only grows. -/
theorem after_out (data : Bytes) (k : Nat) : ∃ blocks,
    (after maybe_slide s₀ data k).out = s₀.out ++ blocks ∧ blocks.length ≤ k *
      (BLOCK_SIZE_MAX + 3) := by
  induction k with
  | zero => exact ⟨[], (List.append_nil _).symm, Nat.zero_le _⟩
  | succ k ih =>
    obtain ⟨blocks, hout, hlen⟩ := ih
    have hblock := length_next_block_le (after maybe_slide s₀ data k)
      ((after maybe_slide s₀ data k).emitted + BLOCK_SIZE_MAX) false
    rw [after_succ, drain_step_out maybe_slide_slides, hout, List.append_assoc]
    refine ⟨_, rfl, ?_⟩
    rw [List.length_append, Nat.succ_mul]
    omega

/-- The decoder follows the full blocks of a stream. -/
theorem after_follows (h : Starts s₀ d₀) (hdata : data.length < 2 ^ 63) (hroom : Roomy data d₀)
    (k : Nat) : k * BLOCK_SIZE_MAX ≤ data.length → ∀ rest : Bytes,
    ((after maybe_slide s₀ data k).out ++ rest).length < 2 ^ 63 →
    ∃ d, Relation.ReflTransGen (NextBlock ((after maybe_slide s₀ data k).out ++ rest))
        ⟨d₀, s₀.out.length, false⟩ ⟨d, (after maybe_slide s₀ data k).out.length, false⟩ ∧
      Follows data (after maybe_slide s₀ data k) d ∧ Roomy data d := by
  induction k with
  | zero => exact fun _ rest _ => ⟨d₀, Relation.ReflTransGen.refl, h.follows data, hroom⟩
  | succ k ih =>
    intro hk rest hsrc
    rw [Nat.succ_mul] at hk
    obtain ⟨hbounded, hwindow⟩ := after_bounded h.fresh h.period_le data k (by omega)
    obtain ⟨-, hemitted, -⟩ := after_spec maybe_slide_slides h.fresh data k (by omega)
    have hsplit : (after maybe_slide s₀ data (k + 1)).out ++ rest =
      (after maybe_slide s₀ data k).out ++
        (((after maybe_slide s₀ data k).next_block
          ((after maybe_slide s₀ data k).emitted + BLOCK_SIZE_MAX) false).1 ++ rest) := by
      rw [after_succ, drain_step_out maybe_slide_slides, List.append_assoc]
    obtain ⟨d, hrun, hfollows, hroom⟩ := ih (by omega) _ (by rw [← hsplit]; exact hsrc)
    rw [← hsplit] at hrun
    obtain ⟨d', hrun', hfollows', hsame⟩ := hfollows.step hbounded (by rw [hwindow]; exact h.window)
      hdata
      hroom (by rw [hemitted]; exact hk) rest (by rw [← after_succ]; exact hsrc)
    rw [← after_succ] at hrun' hfollows'
    refine ⟨d', hrun.trans hrun'.to_reflTransGen, hfollows', ?_, ?_, ?_⟩
    · rw [hsame.dict_len]
      exact hroom.dict_len
    · rw [hsame.block_max]
      exact hroom.block_max
    · rw [hsame.max_output]
      exact hroom.max_output

/-- The decoder follows all the blocks of a stream, to its end. -/
theorem stream_blocks_run (h : Starts s₀ d₀) (hdata : data.length < 2 ^ 63) (hroom : Roomy data d₀)
    (rest : Bytes) (hsrc : (stream_blocks maybe_slide s₀ data ++ rest).length < 2 ^ 63) :
    ∃ d, BlocksRun (stream_blocks maybe_slide s₀ data ++ rest) ⟨d₀, s₀.out.length, false⟩
        ⟨d, (stream_blocks maybe_slide s₀ data).length, true⟩ ∧ d.out = data ∧
      ∀ mt ∈ d.matches_, mt.distance ≤ s₀.window_size := by
  have hmax : BLOCK_SIZE_MAX = 131072 := rfl
  have hfull : full_blocks data * BLOCK_SIZE_MAX ≤ data.length - 1 := Nat.div_mul_le_self _ _
  have hlast : data.length - 1 < full_blocks data * BLOCK_SIZE_MAX + BLOCK_SIZE_MAX :=
    Nat.lt_div_mul_add (by decide)
  obtain ⟨hbounded, hwindow⟩ := after_bounded h.fresh h.period_le data (full_blocks data) (by omega)
  obtain ⟨-, hemitted, -⟩ := after_spec maybe_slide_slides h.fresh data (full_blocks data)
    (by omega)
  unfold stream_blocks at hsrc ⊢
  dsimp only at hsrc ⊢
  rw [List.append_assoc] at hsrc ⊢
  obtain ⟨d, hrun, hfollows, hroom'⟩ := after_follows h hdata hroom (full_blocks data) (by omega) _
    hsrc
  rw [List.length_append]
  split_ifs at hsrc hrun ⊢ with hempty
  · -- an empty stream is one empty block
    have hout := hfollows.out
    rw [hempty, List.take_nil] at hout
    have hready : Ready [] [] 0 0 0 d :=
      ⟨hout, Nat.le_of_eq hroom'.dict_len, le_refl _, le_refl _, le_refl _, Nat.zero_le _,
        Nat.zero_le _,
        Nat.zero_le _, by decide⟩
    have hblock := write_raw_block_run hready true
      (after maybe_slide s₀ data (full_blocks data)).out rest
      hsrc
    refine ⟨_, Relation.TransGen.trans_right hrun (NextBlock.run hblock), ?_, ?_⟩
    · rw [hempty]
      show d.out ++ [] = []
      rw [hout]
      rfl
    · rw [← hwindow]
      exact hfollows.near.matches_
  · obtain ⟨d', hrun', hout, -, hnear, -, -⟩ := hfollows.block hbounded
      (by rw [hwindow]; exact h.window) hdata hroom'
      (by omega) (le_refl _) (by omega) true _ rest hsrc
    refine ⟨d', Relation.TransGen.trans_right hrun hrun', ?_, ?_⟩
    · rw [hout, List.take_length]
    · rw [← hwindow]
      exact hnear.matches_

end Stream

/-! ## The frame -/

/-- The window of a mode. -/
theorem of_mode_window (level : Int) (checksum m : Bool) (mode : StreamMode) :
    ∃ log, 17 ≤ log ∧ log ≤ 27 ∧ (of_mode level checksum m mode).window_size = 2 ^ log ∧
      (mode = .plain → log ≤ MAX_WINDOW_LOG) ∧ (of_mode level checksum m mode).out =
        magic_bytes m ++ write_frame_header_streaming checksum log := by
  have hlog : ceil_log2 (max usizeMax 1) = 32 := by decide
  have hlevel := level_window_log (clamp level.toNat 1 22)
  have hge : 17 ≤ (params_for_level level usizeMax).window_log := by
    rw [params_for_level, hlog]
    dsimp only
    have h10 : MIN_WINDOW_LOG = 10 := rfl
    have h23 : MAX_WINDOW_LOG = 23 := rfl
    omega
  obtain ⟨-, hle, -, -⟩ := @params_for_level_range level usizeMax
  have h23 : MAX_WINDOW_LOG = 23 := rfl
  have h27 : LDM_MAX_WINDOW_LOG = 27 := rfl
  cases mode with
  | plain => exact ⟨_, hge, by omega, rfl, fun _ => hle, rfl⟩
  | long window_log =>
    refine ⟨clamp window_log (params_for_level level usizeMax).window_log LDM_MAX_WINDOW_LOG, ?_,
      ?_, rfl,
      fun h => StreamMode.noConfusion h, rfl⟩
    · rw [clamp]
      omega
    · rw [clamp]
      omega

/-- Neither search of a mode reaches beyond its window. -/
theorem of_mode_searches (level : Int) (checksum m : Bool) (mode : StreamMode) :
    (of_mode level checksum m mode).env.SearchesIn (of_mode level checksum m mode).window_size := by
  cases mode with
  | plain =>
    rw [of_mode, with_options, start]
    exact ⟨le_refl _, le_refl _⟩
  | long window_log =>
    rw [of_mode, with_options_long, start]
    exact ⟨Nat.pow_le_pow_right Nat.two_pos (le_max_left _ _), le_refl _⟩

theorem of_mode_starts (level : Int) (checksum m : Bool) (mode : StreamMode)
    (max_output block_max : Nat) :
    Starts (of_mode level checksum m mode) (BlockState.start max_output block_max none) := by
  obtain ⟨log, h17, h27, hwindow, -⟩ := of_mode_window level checksum m mode
  have hnear := @BlockNear.start log (by omega) max_output block_max
  rw [← hwindow] at hnear
  refine ⟨(of_mode_fresh level checksum m mode).1, ?_, of_mode_period level checksum m mode, ?_,
    of_mode_searches level checksum m mode, ?_, ?_, rfl, hnear⟩
  · cases mode with
    | plain => rw [of_mode, with_options, start]
    | long window_log => rw [of_mode, with_options_long, start]
  · rw [hwindow]
    exact Nat.pow_le_pow_right (by decide) (by omega)
  · cases mode with
    | plain => exact Session.Sound.regular _ _
    | long window_log => exact Session.Sound.long _ _ _
  · cases mode with
    | plain => exact EncState.start_related _ _
    | long window_log => exact EncState.start_related _ _

/-- The blocks of a stream behind its header. -/
theorem stream_blocks_eq (s₀ : StreamingEncoder) (h₀ : Fresh s₀) (data : Bytes) :
    ∃ blocks, stream_blocks maybe_slide s₀ data = s₀.out ++ blocks ∧
      blocks.length ≤ 2 * data.length + 3 := by
  have hmax : BLOCK_SIZE_MAX = 131072 := rfl
  have hfull : full_blocks data * BLOCK_SIZE_MAX ≤ data.length - 1 := Nat.div_mul_le_self _ _
  have hlast : data.length - 1 < full_blocks data * BLOCK_SIZE_MAX + BLOCK_SIZE_MAX :=
    Nat.lt_div_mul_add (by decide)
  obtain ⟨-, hemitted, -⟩ := after_spec maybe_slide_slides h₀ data (full_blocks data) (by omega)
  obtain ⟨blocks, hout, hlen⟩ := @after_out s₀ data (full_blocks data)
  have hblock := length_next_block_le (after maybe_slide s₀ data (full_blocks data)) data.length
    true
  unfold stream_blocks
  dsimp only
  rw [hout, List.append_assoc]
  refine ⟨_, rfl, ?_⟩
  rw [List.length_append]
  rw [hmax] at hfull hemitted hlast hlen
  split_ifs with hempty
  · rw [hempty] at hlen ⊢
    have hzero : full_blocks [] = 0 := rfl
    rw [hzero] at hlen
    show blocks.length + 3 ≤ 3
    omega
  · have hpos := List.length_pos_of_ne_nil hempty
    omega

/-- The output of a run: the blocks of its bytes, and their checksum. -/
theorem run_of_mode (level : Int) (checksum m : Bool) (mode : StreamMode) (calls : List Call)
    (hlen : (calls.map Call.pushed).flatten.length < 2 ^ 63) :
    run maybe_slide (of_mode level checksum m mode) calls =
      .ok (stream_blocks maybe_slide (of_mode level checksum m mode)
        (calls.map Call.pushed).flatten ++
        checksum_bytes checksum (calls.map Call.pushed).flatten) := by
  obtain ⟨h₀, hhash⟩ := of_mode_fresh level checksum m mode
  have hcalls : ∀ c ∈ calls, c.pushed.length < 2 ^ 63 := by
    intro c hc
    have hmem : c.pushed ∈ calls.map Call.pushed := List.mem_map_of_mem hc
    have hle := (List.sublist_flatten_of_mem hmem).length_le
    omega
  obtain ⟨hasher, hholds, hrun⟩ := run_eq maybe_slide_slides h₀ hhash calls hcalls
  have hcheck : (of_mode level checksum m mode).checksum = checksum := by
    cases mode <;> rfl
  rw [hrun, hcheck, XxHash.Xxh64.digest_spec hholds (by omega)]
  cases checksum with
  | false =>
    rw [if_neg Bool.false_ne_true, checksum_bytes, if_neg Bool.false_ne_true, List.append_nil]
    rfl
  | true =>
    rw [if_pos rfl, bind_ok, checksum_bytes, if_pos rfl]
    exact pure_eq_ok _

/-- The frame of a stream of less than `2 ^ 60` bytes leaves room for a rest. -/
theorem length_stream_frame (level : Int) (checksum m : Bool) (mode : StreamMode)
    {data rest : Bytes}
    (hdata : data.length < 2 ^ 60) (hrest : rest.length < 2 ^ 61) :
    (stream_blocks maybe_slide (of_mode level checksum m mode) data ++ checksum_bytes checksum
      data ++
      rest).length < 2 ^ 63 := by
  obtain ⟨log, -, -, -, -, hhead⟩ := of_mode_window level checksum m mode
  obtain ⟨blocks, hblocks, hlen⟩ := stream_blocks_eq (of_mode level checksum m mode)
    (of_mode_fresh level checksum m mode).1 data
  have h₁ := length_magic_bytes_le m
  have h₂ : (write_frame_header_streaming checksum log).length = 2 := rfl
  have h₃ := length_checksum_bytes_le checksum data
  rw [hblocks, hhead]
  simp only [List.length_append]
  omega

/-- The frame of a stream. -/
theorem decode_stream_blocks (level : Int) (checksum m : Bool) (mode : StreamMode)
    {data rest : Bytes}
    {max_output : Nat} (hdata : data.length < 2 ^ 63) (hmax : data.length ≤ max_output)
    {max_window : Option Nat} (hceil : Admitted HTTP_MAX_WINDOW_SIZE max_window)
    (hmode : mode = .plain ∨ max_window = none) {frame : Bytes} (hframe : frame =
      stream_blocks maybe_slide (of_mode level checksum m mode) data ++ checksum_bytes checksum
        data)
    (hsize : (frame ++ rest).length < 2 ^ 63) :
    ∃ matches_, decode_frame (frame ++ rest) m max_output none max_window =
        .ok ⟨data, frame.length, matches_⟩ ∧ Conforms none (frame ++ rest) m matches_ := by
  obtain ⟨log, h17, h27, hlog, hplain, hhead⟩ := of_mode_window level checksum m mode
  have hceil : Admitted (2 ^ log) max_window := by
    rcases hmode with hmode | rfl
    · exact hceil.mono (window_le_http (hplain hmode))
    · exact .unlimited _
  obtain ⟨blocks, hblocks, -⟩ := stream_blocks_eq (of_mode level checksum m mode)
    (of_mode_fresh level checksum m mode).1 data
  have hparse : ∀ tail, parse_frame_header (write_frame_header_streaming checksum log ++ tail) =
      .ok ⟨(write_frame_header_streaming checksum log).length, checksum, none, 2 ^ log, 0⟩ :=
    fun tail => parse_write_frame_header_streaming checksum tail (by omega) (by omega)
  rw [hframe] at hsize
  have hwindow : 2 ^ 17 ≤ 2 ^ log := Nat.pow_le_pow_right (by decide) h17
  have hroom : Roomy data (BlockState.start max_output (min (2 ^ log) MAX_BLOCK_SIZE) none) :=
    ⟨rfl, le_min hwindow (le_refl _), hmax⟩
  obtain ⟨d, hd, hout, hnear⟩ := stream_blocks_run (of_mode_starts level checksum m mode max_output
    (min (2 ^ log) MAX_BLOCK_SIZE)) hdata hroom (checksum_bytes checksum data ++ rest)
    (by rw [← List.append_assoc]; exact hsize)
  rw [← List.append_assoc] at hd
  rw [hblocks, hhead] at hd hsize hframe
  have hcap : frame_cap none max_output = .ok max_output := rfl
  have hdict : check_dictionary 0 none = .ok () := rfl
  have hdecode := @decode_frame_written _ _ _ _ _ _ _ _ _ _ _ _ _ _ _ hparse rfl hsize hceil.check
    hcap
    hdict
    (fun n hn => absurd hn (by simp)) hd [] rfl hout
  have htwo : (write_frame_header_streaming checksum log).length = 2 := rfl
  obtain ⟨len, hheader⟩ := header_at_front_written hparse (by omega) m
    (blocks ++ (checksum_bytes checksum data ++ rest))
  rw [hframe]
  refine ⟨_, hdecode, ⟨len, checksum, none, 2 ^ log, 0⟩, ?_, rfl, Nat.pow_le_pow_right Nat.two_pos
    h27, ?_⟩
  · rw [List.append_assoc, List.append_assoc, List.append_assoc]
    exact hheader
  · rw [← hlog]
    exact hnear

/-- Whatever is pushed, in whatever pieces and with whatever output drained in between, the output
is one frame of the bytes pushed, which is decoded to them, and to its own end, whatever follows. -/
theorem stream_round_trip (level : Int) (checksum m : Bool) (mode : StreamMode) (calls : List Call)
    {rest : Bytes} {max_output : Nat} (hdata : (calls.map Call.pushed).flatten.length < 2 ^ 60)
    (hrest : rest.length < 2 ^ 61) (hmax : (calls.map Call.pushed).flatten.length ≤ max_output) :
    ∃ frame f, run maybe_slide (of_mode level checksum m mode) calls = .ok frame ∧
      decode_one (frame ++ rest) m max_output = .ok f ∧ f.data = (calls.map Call.pushed).flatten ∧
      f.consumed = frame.length := by
  have hrun := run_of_mode level checksum m mode calls (by omega)
  obtain ⟨matches_, hdecode, -⟩ := decode_stream_blocks level checksum m mode (by omega) hmax
    (.unlimited _) (Or.inr rfl) rfl (length_stream_frame level checksum m mode hdata hrest)
  exact ⟨_, _, hrun, hdecode, rfl, rfl⟩

/-- Two pushes of phrases around a drain, with long-distance matches. -/
theorem stream_round_trip_two_pushes :
    let calls : List Call := [.push phrases, .take_output, .push phrases]
    ∃ frame f, run maybe_slide (of_mode 3 true true (.long 20)) calls = .ok frame ∧
      decode_one (frame ++ [9]) true 4096 = .ok f ∧ f.data = (calls.map Call.pushed).flatten ∧
      f.consumed = frame.length := by
  intro calls
  have hlen : (calls.map Call.pushed).flatten.length = 4096 := by
    show (phrases ++ ([] ++ (phrases ++ []))).length = 4096
    simp only [List.length_append, length_phrases, List.length_nil]
  exact stream_round_trip 3 true true (.long 20) calls (by rw [hlen]; norm_num) (by decide)
    (by rw [hlen])

end StreamingEncoder

end ZstdPure.Encode
