import ZstdPure.Proofs.ConcatenationProofs
import ZstdPure.Proofs.ParallelProofs
import ZstdPure.Proofs.StreamRoundTripProofs

/-!
# Proofs: frames in a row, from any entry point

The multi-frame decoders put out the data of all frames, whichever entry point wrote each of them.
-/

namespace ZstdPure.Encode

open Outcome StreamingEncoder

/-- A frame with a magic number that an entry point writes for some data, or that a caller puts in
between. Only with `long` may it come from long-distance matching, whose windows may be wider than
8 MiB. -/
inductive WrittenFrame (long : Bool) : Bytes → Bytes → Prop
  | compress {data : Bytes} (level : Int) (checksum : Bool) (hdata : data.length < 2 ^ 31) :
    WrittenFrame long (compress data level checksum true) data
  | compress_long {data : Bytes} (level : Int) (checksum : Bool) (hlong : long = true)
    (hdata : data.length < 2 ^ 31) : WrittenFrame long (compress_long data level checksum true) data
  | compress_parallel {data : Bytes} (level : Int) (n_jobs : Nat) (checksum : Bool)
    (hdata : data.length < 2 ^ 31) :
    WrittenFrame long (compress_parallel data level n_jobs checksum true) data
  | compress_store {data : Bytes} (checksum : Bool) (hdata : data.length < 2 ^ 59) :
    WrittenFrame long (compress_store data checksum true) data
  | stream {frame : Bytes} (level : Int) (checksum : Bool) (mode : StreamMode) (calls : List Call)
    (hmode : mode = .plain ∨ long = true) (hcalls : (calls.map Call.pushed).flatten.length < 2 ^ 60)
    (hrun : run maybe_slide (of_mode level checksum true mode) calls = .ok frame) :
    WrittenFrame long frame (calls.map Call.pushed).flatten
  | skippable {body : Bytes} (nibble : Fin 16) (hbody : body.length < 2 ^ 32) :
    WrittenFrame long (skippable_frame nibble body) []

section Frames

variable {long : Bool} {frame data : Bytes} {max_window : Option Nat}

/-- Each of these frames is decoded, whatever follows it. -/
theorem WrittenFrame.decode (h : WrittenFrame long frame data)
    (hceil : Admitted HTTP_MAX_WINDOW_SIZE max_window) (hlong : long = true → max_window = none)
    {rest : Bytes} (hrest : rest.length < 2 ^ 61) {m : Nat} (hmax : data.length ≤ m) :
    ∃ matches_, decode_frame (frame ++ rest) true m none max_window =
      .ok ⟨data, frame.length, matches_⟩ := by
  cases h with
  | compress level checksum hdata =>
    exact (decode_compress level checksum true hdata hrest hmax hceil).imp fun _ h => h.1
  | compress_long level checksum hl hdata =>
    rw [hlong hl]
    exact (decode_compress_long level checksum true hdata hrest hmax).imp fun _ h => h.1
  | compress_parallel level n_jobs checksum hdata =>
    exact (decode_compress_parallel level n_jobs checksum true hdata hrest hmax hceil).imp fun _
      h => h.1
  | compress_store checksum hdata =>
    exact (decode_compress_store checksum true (by omega) hmax hceil).imp fun _ h => h.1
  | stream level checksum mode calls hmode hcalls hrun =>
    rw [run_of_mode level checksum true mode calls (by omega)] at hrun
    obtain rfl := Except.ok.inj hrun
    exact (decode_stream_blocks level checksum true mode (by omega) hmax hceil
      (hmode.imp_right hlong) rfl
      (length_stream_frame level checksum true mode hcalls hrest)).imp fun _ h => h.1
  | @skippable body nibble hbody =>
    rw [length_skippable_frame]
    exact ⟨[], decode_frame_skippable nibble hbody rest m none max_window⟩

/-- The frame loop reads frames in a row, each of which is decoded whatever follows it. -/
theorem decode_stream_frames {decode : Bytes → Nat → Res DecodedFrame} (hdec : FrameDecoder decode)
    {frames : List (Bytes × Bytes)}
    (hframes : ∀ p ∈ frames, ∀ (rest : Bytes) (m : Nat), rest.length < 2 ^ 61 → p.2.length ≤ m →
      ∃ matches_, decode (p.1 ++ rest) m = .ok ⟨p.2, p.1.length, matches_⟩) {m : Nat}
    (hlen : (frames.map Prod.fst).flatten.length < 2 ^ 61)
    (hmax : (frames.map Prod.snd).flatten.length ≤ m) :
    decode_stream decode (frames.map Prod.fst).flatten m = .ok (frames.map Prod.snd).flatten := by
  refine StreamRun.decode_stream hdec ?_ (by omega)
  induction frames generalizing m with
  | nil => exact .nil _
  | cons p frames ih =>
    rw [List.map_cons, List.flatten_cons, List.length_append] at hlen hmax
    obtain ⟨matches_, hdecode⟩ := hframes p List.mem_cons_self (frames.map Prod.fst).flatten m
      (by omega) (by omega)
    have hrest := @ih (fun q hq => hframes q (List.mem_cons_of_mem _ hq)) (m - p.2.length)
      (by omega)
      (by omega)
    refine StreamRun.frame hdecode ?_
    rw [List.drop_left]
    exact hrest

end Frames

/-- Whatever entry points wrote the frames, and whatever skippable frames are put in between, the
multi-frame decoders put out the data in a row: `decompress_capped` that of all frames, and
`decompress_http` that of all frames written without long-distance matching. -/
theorem decompress_written_frames {long : Bool} {frames : List (Bytes × Bytes)}
    (hframes : ∀ p ∈ frames, WrittenFrame long p.1 p.2)
    (hlen : (frames.map Prod.fst).flatten.length < 2 ^ 61) {m : Nat}
    (hmax : (frames.map Prod.snd).flatten.length ≤ m) :
    decompress_capped (frames.map Prod.fst).flatten m = .ok (frames.map Prod.snd).flatten ∧
      (long = false →
        decompress_http (frames.map Prod.fst).flatten m = .ok (frames.map Prod.snd).flatten) := by
  constructor
  · refine decode_stream_frames (decode_frame_decoder true none none) ?_ hlen hmax
    intro p hp rest m hrest hm
    exact (hframes p hp).decode (.unlimited _) (fun _ => rfl) hrest hm
  · rintro rfl
    refine decode_stream_frames (decode_frame_decoder true none (some HTTP_MAX_WINDOW_SIZE)) ?_ hlen
      hmax
    intro p hp rest m hrest hm
    exact (hframes p hp).decode (fun w hw => (Option.some.inj hw).le) (fun h => by cases h) hrest hm

/-- A compressed frame, a comment and a stored frame. -/
theorem decompress_written_frames_three :
    let frames : List (Bytes × Bytes) :=
      [(compress [1, 2] 3 true true, [1, 2]), (skippable_frame 3 [7, 7], []),
        (compress_store [3] false true, [3])]
    decompress_capped (frames.map Prod.fst).flatten 3 = .ok [1, 2, 3] ∧
      (false = false → decompress_http (frames.map Prod.fst).flatten 3 = .ok [1, 2, 3]) := by
  intro frames
  refine decompress_written_frames ?_ ?_ (by decide)
  · intro p hp
    rcases List.mem_cons.mp hp with rfl | hp
    · exact .compress 3 true (by decide)
    rcases List.mem_cons.mp hp with rfl | hp
    · exact .skippable 3 (by decide)
    obtain rfl := List.mem_singleton.mp hp
    exact .compress_store false (by decide)
  · have hfirst := length_compress_le [1, 2] 3 true true
    have hlast := length_compress_store_le [3] false true
    have hmax : BLOCK_SIZE_MAX = 131072 := rfl
    show (compress [1, 2] 3 true true ++ (skippable_frame 3 [7, 7] ++
      (compress_store [3] false true ++ []))).length < 2 ^ 61
    rw [List.length_append, List.length_append, List.length_append, length_skippable_frame]
    rw [hmax] at hfirst hlast
    norm_num at hfirst hlast ⊢
    omega

end ZstdPure.Encode
