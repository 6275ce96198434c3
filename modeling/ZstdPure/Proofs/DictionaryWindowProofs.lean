import ZstdPure.Proofs.StreamOneShotProofs

/-!
# Dictionaries in the streaming decoder

The format keeps a dictionary within reach until the output is longer than the window. The streaming
decoder counts the dictionary against the window as soon as a block has been decoded, so it follows
the one-shot decode exactly as far as no match of a later block reaches beyond the window that was
kept before that block.
-/

namespace ZstdPure

open Outcome StreamingDecoder

/-- The accesses that the format permits of a match, with a dictionary of `base` bytes: within the
window, or into the dictionary while the output before the match is no longer than the window. -/
def FrameMatch.Permitted (base window_size : Nat) (m : FrameMatch) : Prop :=
  m.distance ≤ window_size ∨ m.hist - base < m.distance ∧ m.hist - base ≤ window_size

/-- The streaming decoder yields the data of the one-shot decode exactly when every match from the
second block on reaches no further than the window before its block. -/
theorem dictionary_streaming_iff {src : Bytes} {expect_magic : Bool} {header : FrameHeader}
    {dict : Dictionary} {w m : Nat} {d₀ : StreamingDecoder} {f : DecodedFrame}
    (hheader : header_at_front src expect_magic = .ok header)
    (hd : with_options src expect_magic (some dict) w = .ok d₀)
    (hf : decode_one_with_dict src expect_magic m (some dict) = .ok f)
    (hlen : dict.content.length + f.data.length < 2 ^ 63) :
    d₀.Yields f.data ↔ ∀ mt ∈ f.matches_, 2 ≤ mt.block →
      mt.distance ≤ header.window_size + mt.in_block := by
  have husize : usizeMax = 2 ^ 64 - 1 := rfl
  have hmax : MAX_BLOCK_SIZE = 131072 := rfl
  have hbase : dictionary_len (some dict) = dict.content.length := rfl
  have hdict : check_dictionary header.dictionary_id (some dict) = .ok () := by
    rw [with_options] at hd
    obtain ⟨header', hh, hd⟩ := bind_eq_ok.mp hd
    obtain rfl := Except.ok.inj (hheader.symm.trans hh)
    obtain ⟨max_ws, -, hd⟩ := bind_eq_ok.mp hd
    obtain ⟨-, hd⟩ := guard_eq_ok.mp hd
    obtain ⟨_, hcheck, -⟩ := bind_eq_ok.mp hd
    exact hcheck
  refine ⟨fun hyields => ?_, fun hwin => yields_of_one_shot hheader hdict hd hf (by omega) hwin⟩
  obtain ⟨q, hrun, hdata, hms, hend⟩ := decode_frame_uncapped hheader hdict hf (by omega)
  have hqlen := congrArg List.length hdata
  rw [List.length_drop, hbase] at hqlen
  have hslack : Slack src header (some dict) := by
    refine Or.inr fun p hp => ?_
    have hreach := uncapped_at hp
    have hgrown := BlocksIterate.grown (hrun.from_point hp) (by omega)
    have hle := hgrown.out_extends.length_le
    omega
  -- a schedule that reaches the end of the file stands at the end of the block loop
  obtain ⟨rs, d, hreads, hok, -, hfull⟩ := hyields (List.replicate (f.data.length + 1) 1)
    fun n hn => by rw [List.eq_of_mem_replicate hn]; exact Nat.one_pos
  obtain ⟨heof, hall⟩ := hfull (by rw [List.length_replicate]; omega)
  obtain ⟨p', h | h⟩ := (with_options_follows hheader hd (by omega)).reads hslack _
    (fun n hn => by rw [List.eq_of_mem_replicate hn]; exact Nat.one_pos) hreads
  · have hlast := (h.eof heof).1
    have hq : q = p' := by
      cases hrun.from_point h.follows.reached with
      | stop _ => rfl
      | step hc _ _ => simp [hlast] at hc
    obtain ⟨evicted, ht, -, -⟩ := h.follows
    rw [hms, hq]
    exact ht.in_window
  · obtain ⟨oks, msg, k, hrs, -⟩ := h.same_error
    obtain ⟨bytes, hb⟩ := hok (.Err msg) (by rw [hrs, List.replicate_succ]; simp)
    exact ReadResult.noConfusion hb

/-- A dictionary of forty bytes. -/
def forty_bytes : Dictionary := Dictionary.raw (List.replicate 40 120)

/-- A single-segment frame with 20 bytes of content: a raw block of one byte, and a compressed
block with one match of 19 bytes, 30 bytes back into the dictionary. -/
def late_match_frame : Bytes :=
  [40, 181, 47, 253, 32, 20, 8, 0, 0, 97, 61, 0, 0, 0, 1, 84, 0, 5, 16, 33]

/-- A frame of three blocks: four raw bytes, a match of five bytes, 10 back into the dictionary,
between two literals, and a run. -/
def near_match_frame : Bytes :=
  [40, 181, 47, 253, 32, 14, 32, 0, 0, 97, 98, 99, 100, 76, 0, 0, 16, 121, 122, 1, 84, 1, 3, 2, 13,
    27, 0, 0, 119]

set_option maxRecDepth 20000 in
/-- A match that stays within the window is streamed as far as the dictionary. -/
theorem dictionary_streaming_near_match :
    ∃ d₀, with_dict near_match_frame forty_bytes = .ok d₀ ∧
      d₀.Yields [97, 98, 99, 100, 121, 120, 120, 120, 120, 120, 122, 119, 119, 119] := by
  obtain ⟨header, d₀, hheader, hd, hwin⟩ : ∃ header d₀,
      header_at_front near_match_frame true = .ok header ∧
        with_options near_match_frame true (some forty_bytes) 27 = .ok d₀ ∧ header.window_size =
          14 :=
    ⟨_, _, rfl, rfl, rfl⟩
  have hf : decode_one_with_dict near_match_frame true 14 (some forty_bytes)
      = .ok ⟨[97, 98, 99, 100, 121, 120, 120, 120, 120, 120, 122, 119, 119, 119], 29,
        [⟨2, 1, 45, 10⟩]⟩ := by
    decide +kernel
  refine ⟨d₀, hd, (dictionary_streaming_iff hheader hd hf (by decide)).mpr fun m hm _ => ?_⟩
  rw [hwin, List.mem_singleton.mp hm]
  decide

set_option maxRecDepth 20000 in
/-- The match of `late_match_frame` is permitted, but the dictionary is gone when it is streamed. -/
theorem late_match_frame_lost :
    ∃ d₀ f, decode_one_with_dict late_match_frame true 20 (some forty_bytes) = .ok f ∧
      (∀ m ∈ f.matches_, m.Permitted 40 20) ∧
      with_options late_match_frame true (some forty_bytes) 27 = .ok d₀ ∧ d₀.window_size = 20 ∧
      ¬ d₀.Yields f.data := by
  obtain ⟨d₀, f, hf, hms, hd, hwin⟩ : ∃ d₀ f,
      decode_one_with_dict late_match_frame true 20 (some forty_bytes) = .ok f ∧
        f.matches_ = [⟨2, 0, 41, 30⟩] ∧
        with_options late_match_frame true (some forty_bytes) 27 = .ok d₀ ∧ d₀.window_size = 20 :=
    ⟨_, _, rfl, rfl, rfl, rfl⟩
  refine ⟨d₀, f, hf, ?_, hd, hwin, fun hyields => ?_⟩
  · rw [hms]
    intro m hm
    obtain rfl := List.mem_singleton.mp hm
    exact Or.inr (by decide)
  · obtain ⟨rs, d, hreads, hok, -⟩ := hyields [1, 1] (by decide)
    have hread : ∃ msg d', d₀.reads [1, 1] = .ok ([.Ok [97], .Err msg], d') := by
      obtain rfl := Except.ok.inj hd
      exact ⟨_, _, rfl⟩
    obtain ⟨msg, d', h⟩ := hread
    rw [h] at hreads
    obtain ⟨rfl, -⟩ := Prod.mk.inj (Except.ok.inj hreads)
    obtain ⟨bytes, hb⟩ := hok (.Err msg) (by simp)
    exact ReadResult.noConfusion hb

end ZstdPure
