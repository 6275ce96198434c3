import ZstdPure.Encode.Frame

/-!
# The no-regression guards

A split block is kept only when it is smaller than the whole one, a candidate only when it is
smaller than the ones before it, and a compressed block only when it is smaller than the stored one:
so a frame is never longer than the stored frame of the same data. -/

namespace ZstdPure.Encode

/-! ## Splitting -/

/-- The two halves of a segment. -/
def first_half (p : Parse) : Parse :=
  ⟨p.seqs.take (split_point p.seqs),
    p.literals.take ((p.seqs.take (split_point p.seqs)).map Seq.lit_len).sum⟩

def second_half (p : Parse) : Parse :=
  ⟨p.seqs.drop (split_point p.seqs),
    p.literals.drop ((p.seqs.take (split_point p.seqs)).map Seq.lit_len).sum⟩

/-- A segment that `emit_split` tries to split. -/
def Splits (p : Parse) : Prop :=
  2 ≤ p.seqs.length ∧ 0 < split_point p.seqs ∧ split_point p.seqs < p.seqs.length

instance (p : Parse) : Decidable (Splits p) := inferInstanceAs (Decidable (_ ∧ _ ∧ _))

variable (last : Bool) (prev : EncTables)

/-- A segment that splits is written as its halves if they are shorter. -/
theorem emit_split_succ {p : Parse} (h : Splits p) (depth : Nat) :
    emit_split last p prev (depth + 1) =
      let a := emit_split false (first_half p) prev depth
      let b := emit_split last (second_half p) a.2 depth
      if a.1.length + b.1.length < (emit_one last p prev).1.length then (a.1 ++ b.1, b.2)
      else emit_one last p prev := by
  obtain ⟨h2, h0, hk⟩ := h
  rw [emit_split]
  dsimp only
  rw [if_neg (by omega)]
  rfl

/-- A segment is written as a whole or as its halves, whichever is shorter. -/
theorem length_emit_split_succ {p : Parse} (h : Splits p) (depth : Nat) :
    (emit_split last p prev (depth + 1)).1.length
      = min (emit_one last p prev).1.length
          ((emit_split false (first_half p) prev depth).1.length +
            (emit_split last (second_half p) (emit_split false (first_half p) prev depth).2
              depth).1.length) := by
  rw [emit_split_succ last prev h]
  dsimp only
  split_ifs with hlt
  · rw [List.length_append]
    exact (Nat.min_eq_right hlt.le).symm
  · exact (Nat.min_eq_left (by omega)).symm

theorem emit_split_of_not_splits {p : Parse} (h : ¬ Splits p) (depth : Nat) :
    emit_split last p prev depth = emit_one last p prev := by
  cases depth with
  | zero => rfl
  | succ depth =>
    rw [Splits] at h
    rw [emit_split]
    dsimp only
    rw [if_pos (by omega)]

/-- Splitting never makes a block longer. -/
theorem length_emit_split_le (p : Parse) (depth : Nat) :
    (emit_split last p prev depth).1.length ≤ (emit_one last p prev).1.length := by
  by_cases h : Splits p
  · cases depth with
    | zero => exact le_rfl
    | succ depth =>
      rw [length_emit_split_succ last prev h]
      exact Nat.min_le_left _ _
  · rw [emit_split_of_not_splits last prev h]

/-! ## Candidates -/

/-- The smaller of two encodings, the first one on ties. -/
def smaller (best e : Emitted) : Emitted := if e.bytes.length < best.bytes.length then e else best

theorem length_smaller (best e : Emitted) :
    (smaller best e).bytes.length = min best.bytes.length e.bytes.length := by
  rw [smaller]
  split_ifs <;> omega

/-- The best of some encodings is no longer than any of them. -/
theorem foldl_smaller_le : ∀ (es : List Emitted) (best : Emitted),
    (es.foldl smaller best).bytes.length ≤ best.bytes.length ∧
      ∀ e ∈ es, (es.foldl smaller best).bytes.length ≤ e.bytes.length := by
  intro es
  induction es with
  | nil => intro best; exact ⟨le_rfl, fun _ h => absurd h (by simp)⟩
  | cons e es ih =>
    intro best
    obtain ⟨hbest, hes⟩ := ih (smaller best e)
    rw [length_smaller] at hbest
    rw [List.foldl_cons]
    refine ⟨by omega, fun c hc => ?_⟩
    rcases List.mem_cons.mp hc with rfl | hc
    · omega
    · exact hes c hc

theorem emit_and_pick_eq (parsed : Parsed) (depth : Nat) :
    emit_and_pick last parsed prev depth
      = (parsed.alts.map (emit_candidate last prev depth)).foldl smaller
          (emit_candidate last prev depth parsed.primary) := by
  rw [List.foldl_map]
  rfl

theorem length_emit_and_pick_le (parsed : Parsed) (depth : Nat) {c : Candidate}
    (hc : c ∈ parsed.primary :: parsed.alts) :
    (emit_and_pick last parsed prev depth).bytes.length
      ≤ (emit_split last c.parse prev depth).1.length := by
  obtain ⟨hprimary, halts⟩ := foldl_smaller_le (parsed.alts.map (emit_candidate last prev depth))
    (emit_candidate last prev depth parsed.primary)
  rw [emit_and_pick_eq]
  rcases List.mem_cons.mp hc with rfl | hc
  · exact hprimary
  · exact halts _ (List.mem_map_of_mem hc)

/-! ## Blocks -/

theorem length_choose_block_le (store : Bytes) (state : EncState) (comp : Emitted) :
    (choose_block store state comp).bytes.length ≤ store.length := by
  rw [choose_block]
  split_ifs with h
  · exact h.le
  · exact le_rfl

/-- A block is never longer than the stored one. -/
theorem length_encode_block_le (e : FrameEnv) (data : Bytes) (start stop : Nat) (s : Session) :
    (encode_block e last data start stop s).1.length
      ≤ (write_store_block last (range_of data start stop)).length := by
  rw [encode_block]
  cases s.ldm with
  | some ldm => exact length_choose_block_le _ _ _
  | none => exact length_choose_block_le _ _ _

theorem length_write_block_header (block_type : BlockType) (size : Nat) :
    (write_block_header last block_type size).length = 3 := by
  rw [write_block_header, length_leBytes]

/-- The length of a stored block does not depend on its flag. -/
theorem length_write_store_block (chunk : Bytes) :
    (write_store_block last chunk).length = (write_store_block true chunk).length := by
  cases chunk with
  | nil => rw [write_store_block, write_store_block, write_raw_block, write_raw_block,
      List.length_append, List.length_append, length_write_block_header, length_write_block_header]
  | cons b rest =>
    rw [write_store_block, write_store_block]
    split_ifs
    · rw [write_rle_block, write_rle_block, List.length_append, List.length_append,
        length_write_block_header, length_write_block_header]
    · rw [write_raw_block, write_raw_block, List.length_append, List.length_append,
        length_write_block_header, length_write_block_header]

/-- The stored blocks, one after another. -/
theorem length_store_blocks (chunks : List Bytes) :
    (store_blocks chunks).length = (chunks.map fun c => (write_store_block true c).length).sum := by
  rw [store_blocks]
  induction chunks with
  | nil => rfl
  | cons chunk rest ih =>
    rw [List.map_cons, List.sum_cons, ← ih]
    cases rest with
    | nil => rfl
    | cons c rest => rw [write_chunks, List.length_append, length_write_store_block]; simp

/-- The blocks of `data[start..]` are no longer than the stored ones. -/
theorem length_encode_blocks_le (e : FrameEnv) (data : Bytes) (start : Nat) (s : Session) :
    (encode_blocks e true data start s).length
      ≤ (store_blocks ((data.drop start).chunks BLOCK_SIZE_MAX)).length := by
  rw [length_store_blocks]
  induction hn : data.length - start using Nat.strong_induction_on generalizing start s with
  | _ n ih =>
    rw [encode_blocks]
    split_ifs with hlt
    · have hpos : 0 < BLOCK_SIZE_MAX := by decide
      have hne : data.drop start ≠ [] := by
        rw [Ne, List.drop_eq_nil_iff]
        omega
      have htake : range_of data start (min (start + BLOCK_SIZE_MAX) data.length)
          = (data.drop start).take BLOCK_SIZE_MAX := by
        rw [range_of, List.take_drop, Nat.min_def]
        split_ifs with h
        · rfl
        · rw [List.take_length, List.take_of_length_le (by omega)]
      have hdrop : data.drop (min (start + BLOCK_SIZE_MAX) data.length)
          = (data.drop start).drop BLOCK_SIZE_MAX := by
        rw [List.drop_drop, Nat.min_def]
        split_ifs with h
        · rfl
        · rw [List.drop_length, List.drop_of_length_le (by omega)]
      have hblock := length_encode_block_le (true && min (start + BLOCK_SIZE_MAX) data.length ==
        data.length)
        e data start (min (start + BLOCK_SIZE_MAX) data.length) s
      have hrest := ih _ (by omega) (min (start + BLOCK_SIZE_MAX) data.length)
        (encode_block e (true && min (start + BLOCK_SIZE_MAX) data.length == data.length) data start
          (min (start + BLOCK_SIZE_MAX) data.length) s).2 rfl
      rw [length_write_store_block, htake] at hblock
      rw [hdrop] at hrest
      rw [List.chunks_of_ne_nil hpos hne, List.map_cons, List.sum_cons, List.length_append]
      exact Nat.add_le_add hblock hrest
    · exact Nat.zero_le _

/-! ## Frames -/

/-- The length of a frame header does not depend on the window. -/
theorem length_write_frame_header (content_size : Nat) (checksum : Bool)
    (window_log window_log' : Nat) :
    (write_frame_header content_size checksum window_log 0).length
      = (write_frame_header content_size checksum window_log' 0).length := by
  unfold write_frame_header
  simp only [List.length_append, List.length_cons]

theorem length_frame_blocks_le (e : FrameEnv) (before data : Bytes) (s : Session) :
    (frame_blocks e (before ++ data) before.length s).length
      ≤ (if data.isEmpty then write_raw_block true [] else store_blocks
        (data.chunks BLOCK_SIZE_MAX)).length := by
  rw [frame_blocks]
  cases data with
  | nil => rw [if_pos (by simp)]; exact le_rfl
  | cons b rest =>
    rw [if_neg (by simp)]
    have hle := length_encode_blocks_le e (before ++ b :: rest) before.length s
    rwa [List.drop_left] at hle

/-- The frames of both compressors have the magic number, the header and the checksum of the stored
frame, and blocks that are no longer. -/
theorem length_frame_le (e : FrameEnv) (before data : Bytes) (s : Session) (window_log : Nat)
    (checksum expect_magic : Bool) :
    (magic_bytes expect_magic ++ write_frame_header data.length checksum window_log 0 ++
        frame_blocks e (before ++ data) before.length s ++ checksum_bytes checksum data).length
      ≤ (compress_store data checksum expect_magic).length := by
  have hblocks := length_frame_blocks_le e before data s
  have hheader := length_write_frame_header data.length checksum window_log STORE_WINDOW_LOG
  rw [compress_store]
  simp only [List.length_append]
  omega

/-- The guards hold end to end. -/
theorem no_regression :
    (∀ last p prev depth, (emit_split last p prev depth).1.length ≤
      (emit_one last p prev).1.length) ∧
    (∀ last p prev depth, Splits p →
      (emit_split last p prev (depth + 1)).1.length
        ≤ (emit_split false (first_half p) prev depth).1.length +
          (emit_split last (second_half p) (emit_split false (first_half p) prev depth).2
            depth).1.length) ∧
    (∀ last parsed prev depth, ∀ c ∈ parsed.primary :: parsed.alts,
      (emit_and_pick last parsed prev depth).bytes.length
        ≤ (emit_split last c.parse prev depth).1.length) ∧
    ∀ (data : Bytes) (level : Int) (checksum expect_magic : Bool),
      (compress data level checksum expect_magic).length
        ≤ (compress_store data checksum expect_magic).length ∧
      (compress_long data level checksum expect_magic).length
        ≤ (compress_store data checksum expect_magic).length ∧
      ∀ dict : Dictionary, dict.id = 0 →
        (compress_with_dict data dict level checksum expect_magic).length
          ≤ (compress_store data checksum expect_magic).length := by
  refine ⟨fun last p prev depth => length_emit_split_le last prev p depth,
    fun last p prev depth h => ?_,
    fun last parsed prev depth c hc => length_emit_and_pick_le last prev parsed depth hc, ?_⟩
  · rw [length_emit_split_succ last prev h]
    exact Nat.min_le_right _ _
  · intro data level checksum expect_magic
    refine ⟨length_frame_le _ [] data _ _ checksum expect_magic,
      length_frame_le _ [] data _ _ checksum expect_magic, fun dict hid => ?_⟩
    rw [compress_with_dict, hid]
    exact length_frame_le _ dict.content data _ _ checksum expect_magic

/-- The theorem at a segment of two sequences, at one candidate and at an empty dictionary. -/
theorem no_regression_two_sequences :
    (emit_split true ⟨[⟨1, 4, 4⟩, ⟨0, 5, 4⟩], [7]⟩ EncTables.default 1).1.length
      ≤ (emit_split false (first_half ⟨[⟨1, 4, 4⟩, ⟨0, 5, 4⟩], [7]⟩) EncTables.default 0).1.length +
        (emit_split true (second_half ⟨[⟨1, 4, 4⟩, ⟨0, 5, 4⟩], [7]⟩)
          (emit_split false (first_half ⟨[⟨1, 4, 4⟩, ⟨0, 5, 4⟩], [7]⟩) EncTables.default 0).2
            0).1.length ∧
    (emit_and_pick true ⟨⟨⟨[], [7]⟩, ⟨1, 4, 8⟩⟩, []⟩ EncTables.default 2).bytes.length
      ≤ (emit_split true ⟨[], [7]⟩ EncTables.default 2).1.length ∧
    (compress_with_dict [1, 2] (Dictionary.raw []) 3 false true).length
      ≤ (compress_store [1, 2] false true).length := by
  obtain ⟨-, hhalves, hpick, hframes⟩ := no_regression
  refine ⟨?_, ?_, ?_⟩
  · exact hhalves true ⟨[⟨1, 4, 4⟩, ⟨0, 5, 4⟩], [7]⟩ EncTables.default 0 (by decide)
  · exact hpick true ⟨⟨⟨[], [7]⟩, ⟨1, 4, 8⟩⟩, []⟩ EncTables.default 2 ⟨⟨[], [7]⟩, ⟨1, 4, 8⟩⟩
      List.mem_cons_self
  · exact (hframes [1, 2] 3 false true).2.2 (Dictionary.raw []) rfl

end ZstdPure.Encode
