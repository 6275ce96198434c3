import ZstdPure.Proofs.DictRoundTripProofs
import ZstdPure.Proofs.HuffmanLiteralsProofs
import ZstdPure.Proofs.MultiFrameProofs
import ZstdPure.Proofs.OptionsProofs
import ZstdPure.Proofs.StreamOneShotProofs

/-!
# Proofs: frames that any decoder admits

No match of a written frame reaches beyond the window that its header asks for, so a decoder that
keeps only a window of its output decodes the frame as well. -/

namespace ZstdPure.Encode

open Outcome StreamingEncoder

/-- A frame that an entry point writes for some data, and that is to be decoded with `dict`. A
caller that asks for a window below the blocks, or that primes with more than 8 MiB, is left out. -/
inductive EncodedFrame (m : Bool) : Option Dictionary → Bytes → Bytes → Prop
  | compress {data : Bytes} (level : Int) (checksum : Bool) (hdata : data.length < 2 ^ 31) :
    EncodedFrame m none (compress data level checksum m) data
  | compress_long {data : Bytes} (level : Int) (checksum : Bool) (hdata : data.length < 2 ^ 31) :
    EncodedFrame m none (compress_long data level checksum m) data
  | compress_parallel {data : Bytes} (level : Int) (n_jobs : Nat) (checksum : Bool)
    (hdata : data.length < 2 ^ 31) :
    EncodedFrame m none (compress_parallel data level n_jobs checksum m) data
  | compress_store {data : Bytes} (checksum : Bool) (hdata : data.length < 2 ^ 59) :
    EncodedFrame m none (compress_store data checksum m) data
  | compress_huffman_literals {data : Bytes} (checksum : Bool) (hdata : data.length < 2 ^ 59) :
    EncodedFrame m none (compress_huffman_literals data checksum m) data
  | compress_with_options {data : Bytes} (opts : CompressOptions) (hmagic : opts.magic = m)
    (hdata : data.length < 2 ^ 31)
    (hwindow : ∀ v, opts.window_log = some v →
      min data.length BLOCK_SIZE_MAX ≤ 2 ^ max v MIN_WINDOW_LOG) :
    EncodedFrame m none (compress_with_options data opts) data
  | stream {frame : Bytes} (level : Int) (checksum : Bool) (mode : StreamMode) (calls : List Call)
    (hcalls : (calls.map Call.pushed).flatten.length < 2 ^ 60)
    (hrun : run maybe_slide (of_mode level checksum m mode) calls = .ok frame) :
    EncodedFrame m none frame (calls.map Call.pushed).flatten
  | compress_with_dict {data bytes : Bytes} {d : Dictionary} (hbytes : bytes.length < 2 ^ 55)
    (hdict : DictionaryFrom bytes (some d)) (hcontent : d.content.length ≤ HTTP_MAX_WINDOW_SIZE)
    (level : Int) (checksum : Bool) (hdata : d.content.length + data.length < 2 ^ 31) :
    EncodedFrame m (some d) (compress_with_dict data d level checksum m) data

/-! ## Matches and the history before them -/

section Frames

variable {m : Bool} {dict : Option Dictionary} {frame data rest : Bytes} {max_output : Nat}

/-- Each of these frames is decoded, whatever follows it, and none of its matches reaches too far.
-/
theorem EncodedFrame.decode (h : EncodedFrame m dict frame data) (hrest : rest.length < 2 ^ 61)
    (hmax : data.length ≤ max_output) :
    ∃ matches_, decode_frame (frame ++ rest) m max_output dict none =
        .ok ⟨data, frame.length, matches_⟩ ∧ Conforms dict (frame ++ rest) m matches_ := by
  cases h with
  | compress level checksum hdata =>
    exact decode_compress level checksum m hdata hrest hmax (.unlimited _)
  | compress_long level checksum hdata =>
    exact decode_compress_long level checksum m hdata hrest hmax
  | compress_parallel level n_jobs checksum hdata =>
    exact decode_compress_parallel level n_jobs checksum m hdata hrest hmax (.unlimited _)
  | compress_store checksum hdata =>
    exact decode_compress_store checksum m (by omega) hmax (.unlimited _)
  | compress_huffman_literals checksum hdata =>
    exact decode_compress_huffman_literals checksum m (by omega) hmax (.unlimited _)
  | compress_with_options opts hmagic hdata hwindow =>
    subst hmagic
    exact decode_compress_with_options opts hdata hrest hmax hwindow
  | stream level checksum mode calls hcalls hrun =>
    rw [run_of_mode level checksum m mode calls (by omega)] at hrun
    obtain rfl := Except.ok.inj hrun
    exact decode_stream_blocks level checksum m mode (by omega) hmax (.unlimited _) (Or.inr rfl) rfl
      (length_stream_frame level checksum m mode hcalls hrest)
  | @compress_with_dict _ bytes d hbytes hdict hcontent level checksum hdata =>
    obtain ⟨matches_, hdecode, hconforms⟩ := decode_compress_with_dict (hdict.loaded hbytes) level
      checksum m
      hdata hrest hmax (.unlimited _)
    exact ⟨matches_, hdecode, hconforms hcontent⟩

/-- Together with the dictionary, the data fits in memory. -/
theorem EncodedFrame.fits (h : EncodedFrame m dict frame data) :
    dictionary_len dict + data.length ≤ usizeMax := by
  have husize : usizeMax = 2 ^ 64 - 1 := rfl
  cases h with
  | @compress_with_dict _ _ d _ _ _ _ _ hdata =>
    show d.content.length + _ ≤ usizeMax
    omega
  | _ =>
    show 0 + _ ≤ usizeMax
    omega

/-- The constructor admits a header that admits the dictionary, and whose window is not too wide. -/
theorem with_options_admits {src : Bytes} {header : FrameHeader} {w : Nat}
    (h : header_at_front src m = .ok header)
    (hdict : check_dictionary header.dictionary_id dict = .ok ())
    (hwin : header.window_size ≤ 2 ^ min w 63) :
    ∃ d, StreamingDecoder.with_options src m dict w = .ok d := by
  have hmin : min w 63 < 64 := by omega
  have hpow : 1 * 2 ^ min w 63 < 2 ^ 64 := by
    rw [Nat.one_mul]
    exact Nat.pow_lt_pow_right (by omega) hmin
  have hsupplied : StreamingDecoder.supplied_dictionary_check header.dictionary_id dict =
    .ok () := by
    cases dict with
    | none => rfl
    | some d => exact hdict
  rw [header_at_front] at h
  rw [StreamingDecoder.with_options, h, bind_ok, shl_exact hmin hpow, bind_ok, Nat.one_mul,
    if_neg (by omega), hsupplied, bind_ok]
  exact ⟨_, rfl⟩

/-- Whatever entry point wrote the frame, its header asks for a window that decoders admit by
default, and no match that the decoder copies on its way to the data reaches beyond that window. -/
theorem encoded_frame_conforms (h : EncodedFrame m dict frame data) (hrest : rest.length < 2 ^ 61)
    (hmax : data.length ≤ max_output) :
    ∃ header f, header_at_front (frame ++ rest) m = .ok header ∧
      header.window_size ≤ 2 ^ DEFAULT_WINDOW_LOG_MAX ∧
      decode_one_with_dict (frame ++ rest) m max_output dict = .ok f ∧ f.data = data ∧
      f.consumed = frame.length ∧ ∀ mt ∈ f.matches_, mt.distance ≤ header.window_size := by
  obtain ⟨matches_, hdecode, header, hheader, -, hwindow, hnear⟩ := h.decode hrest hmax
  exact ⟨header, _, hheader, hwindow, hdecode, rfl, rfl, hnear⟩

/-- A streaming decoder, which keeps only a window of its output, admits whatever an entry point
wrote, and every schedule of reads yields the data. -/
theorem streaming_reads_encoded_frame (h : EncodedFrame m dict frame data)
    (hrest : rest.length < 2 ^ 61) :
    ∃ d, StreamingDecoder.with_options (frame ++ rest) m dict DEFAULT_WINDOW_LOG_MAX = .ok d ∧
      d.Yields data := by
  obtain ⟨matches_, hdecode, header, hheader, hdict, hwindow, hnear⟩ := h.decode hrest (le_refl _)
  obtain ⟨d, hd⟩ := @with_options_admits m dict _ header DEFAULT_WINDOW_LOG_MAX hheader hdict
    hwindow
  refine ⟨d, hd, yields_of_one_shot hheader hdict hd hdecode h.fits ?_⟩
  intro mt hmt _
  exact (hnear mt hmt).trans (Nat.le_add_right _ _)

/-- Whatever is pushed, in whatever pieces and with whatever output drained in between, both
decoders read the bytes pushed from the output, the streaming one under every schedule of reads. -/
theorem stream_decodes_both (level : Int) (checksum m : Bool) (mode : StreamMode)
    (calls : List Call)
    (hdata : (calls.map Call.pushed).flatten.length < 2 ^ 63) :
    ∃ frame, run maybe_slide (of_mode level checksum m mode) calls = .ok frame ∧
      (frame.length < 2 ^ 63 →
        (∀ max_output, (calls.map Call.pushed).flatten.length ≤ max_output →
          ∃ f, decode_one frame m max_output = .ok f ∧ f.data = (calls.map Call.pushed).flatten ∧
            f.consumed = frame.length) ∧
        ∃ d, StreamingDecoder.with_options frame m none DEFAULT_WINDOW_LOG_MAX = .ok d ∧
          d.Yields (calls.map Call.pushed).flatten) := by
  have hrun := run_of_mode level checksum m mode calls hdata
  refine ⟨_, hrun, fun hsize => ?_⟩
  have hdecode (max_output : Nat) (hmax : (calls.map Call.pushed).flatten.length ≤ max_output) :=
    @decode_stream_blocks level checksum m mode _ [] max_output hdata hmax _ (.unlimited _)
      (Or.inr rfl) _
      rfl (by rw [List.append_nil]; exact hsize)
  simp only [List.append_nil] at hdecode
  refine ⟨fun max_output hmax => ?_, ?_⟩
  · obtain ⟨matches_, hone, -⟩ := hdecode max_output hmax
    exact ⟨_, hone, rfl, rfl⟩
  · obtain ⟨matches_, hone, header, hheader, hdict, hwindow, hnear⟩ := hdecode _ (le_refl _)
    obtain ⟨d, hd⟩ := @with_options_admits m none _ header DEFAULT_WINDOW_LOG_MAX hheader hdict
      hwindow
    have husize : usizeMax = 2 ^ 64 - 1 := rfl
    have hfits : dictionary_len none + (calls.map Call.pushed).flatten.length ≤ usizeMax := by
      show 0 + _ ≤ usizeMax
      omega
    exact ⟨d, hd, yields_of_one_shot hheader hdict hd hone hfits fun mt hmt _ =>
      (hnear mt hmt).trans (Nat.le_add_right _ _)⟩

end Frames

theorem phrases_encoded (level : Int) (checksum m : Bool) :
    EncodedFrame m (some (Dictionary.raw (phrases.take 64)))
      (compress_with_dict phrases (Dictionary.raw (phrases.take 64)) level checksum m) phrases := by
  have hlen := length_phrases
  have hcontent : (Dictionary.raw (phrases.take 64)).content.length ≤ 64 := List.length_take_le _ _
  have hmax : HTTP_MAX_WINDOW_SIZE = 2 ^ 23 := rfl
  exact .compress_with_dict (by rw [List.length_take]; omega) DictionaryFrom.raw (by omega) level
    checksum
    (by omega)

/-- Phrases behind a raw dictionary of the same phrase. -/
theorem encoded_frame_conforms_dict :
    let d := Dictionary.raw (phrases.take 64)
    let src := compress_with_dict phrases d 19 true true ++ [1]
    ∃ header f, header_at_front src true = .ok header ∧
      header.window_size ≤ 2 ^ DEFAULT_WINDOW_LOG_MAX ∧
      decode_one_with_dict src true 2048 (some d) = .ok f ∧ f.data = phrases ∧
      f.consumed = (compress_with_dict phrases d 19 true true).length ∧
      ∀ mt ∈ f.matches_, mt.distance ≤ header.window_size :=
  encoded_frame_conforms (phrases_encoded 19 true true) (by decide) (by rw [length_phrases])

/-- Phrases without a magic number. -/
theorem streaming_reads_encoded_frame_run :
    ∃ d, StreamingDecoder.with_options (compress phrases 3 true false ++ [9]) false none
        DEFAULT_WINDOW_LOG_MAX = .ok d ∧ d.Yields phrases :=
  streaming_reads_encoded_frame (.compress 3 true (by rw [length_phrases]; norm_num)) (by decide)

/-- Phrases in two pushes with a drain between them. -/
theorem stream_decodes_both_two_pushes :
    let calls : List Call := [.push phrases, .take_output, .push phrases]
    ∃ frame, run maybe_slide (of_mode 19 true true (.long 24)) calls = .ok frame ∧
      (∃ f, decode_one frame true 4096 = .ok f ∧ f.data = (calls.map Call.pushed).flatten ∧
        f.consumed = frame.length) ∧
      ∃ d, StreamingDecoder.with_options frame true none DEFAULT_WINDOW_LOG_MAX = .ok d ∧
        d.Yields (calls.map Call.pushed).flatten := by
  intro calls
  have hlen : (calls.map Call.pushed).flatten.length = 4096 := by
    show (phrases ++ ([] ++ (phrases ++ []))).length = 4096
    simp only [List.length_append, length_phrases, List.length_nil]
  obtain ⟨frame, hrun, hboth⟩ := stream_decodes_both 19 true true (.long 24) calls (by omega)
  have hsize := @length_stream_frame 19 true true (.long 24) (calls.map Call.pushed).flatten []
    (by omega)
    (by decide)
  have hrun' := run_of_mode 19 true true (.long 24) calls (by omega)
  rw [List.append_nil, ← Except.ok.inj (hrun.symm.trans hrun')] at hsize
  obtain ⟨hone, hstream⟩ := hboth hsize
  exact ⟨frame, hrun, hone 4096 (by omega), hstream⟩

end ZstdPure.Encode
