import ZstdPure.Proofs.DictionaryIdProofs
import ZstdPure.Proofs.FrameHeaderProofs
import ZstdPure.Proofs.SeekTableProofs
import ZstdPure.Proofs.SessionProofs

/-!
# Proofs: frames put together from their parts

A frame is its magic, its header, its blocks and its checksum. Whatever the blocks are, a decoder
that follows them to the data decodes the frame, and nothing behind it. -/

namespace ZstdPure.Encode

open Outcome BlockState

/-! ## The parts -/

/-- The magic written announces a frame right behind it. -/
theorem decode_front_magic (m : Bool) (tail : Bytes) :
    decode_front (magic_bytes m ++ tail) m = .ok (.frame (magic_bytes m).length) := by
  cases m with
  | false => rfl
  | true =>
    have hread : read_u32_le (magic_bytes true ++ tail) 0 = .ok ZSTD_MAGIC :=
      @read_u32_le_leBytes _ [] tail 0 ZSTD_MAGIC (by decide) rfl rfl
    have hlen : 4 ≤ (magic_bytes true ++ tail).length := by
      rw [List.length_append]
      exact Nat.le_add_right _ _
    rw [decode_front, if_pos rfl, if_neg (Nat.not_lt.mpr hlen), hread, bind_ok, if_neg (by decide),
      if_neg (fun h => h rfl)]
    rfl

/-- The checksum written is the one verified. -/
theorem verify_checksum_written {src before rest : Bytes} {v : Nat} (hv : v < 2 ^ 32)
    (h : src = before ++ (leBytes 4 v ++ rest)) (hlen : src.length < 2 ^ 63) :
    verify_checksum src before.length v = .ok (before.length + 4) := by
  have hread := @read_u32_le_leBytes src before rest before.length v hv h rfl
  have hin : before.length + 4 ≤ src.length := by
    rw [h, List.length_append, List.length_append, length_leBytes]
    omega
  rw [verify_checksum, add_ok (by omega), bind_ok, if_neg (by omega), hread, bind_ok,
    if_neg (fun h => h rfl)]
  rfl

/-- The header written behind the magic is the one at the front. -/
theorem header_at_front_written {head : Bytes} {checksum : Bool} {size : Option Nat}
    {window id : Nat}
    (hhead : ∀ tail,
      parse_frame_header (head ++ tail) = .ok ⟨head.length, checksum, size, window, id⟩)
    (hlen : head.length < 2 ^ 63) (m : Bool) (tail : Bytes) :
    ∃ len, header_at_front (magic_bytes m ++ (head ++ tail)) m =
      .ok ⟨len, checksum, size, window, id⟩ := by
  cases m with
  | false => exact ⟨_, hhead tail⟩
  | true =>
    have hread : read_u32_le (magic_bytes true ++ (head ++ tail)) 0 = .ok ZSTD_MAGIC :=
      @read_u32_le_leBytes _ [] (head ++ tail) 0 ZSTD_MAGIC (by decide) rfl rfl
    have hfour : (magic_bytes true).length = 4 := rfl
    have hle : 4 ≤ (magic_bytes true ++ (head ++ tail)).length := by
      rw [List.length_append]
      exact Nat.le_add_right _ _
    have hdrop : (magic_bytes true ++ (head ++ tail)).drop 4 = head ++ tail := List.drop_left' hfour
    refine ⟨head.length + 4, ?_⟩
    rw [header_at_front, if_pos rfl, frame_header, if_neg (Nat.not_lt.mpr hle), hread, bind_ok,
      if_neg (fun h => h rfl), sliceFrom_ok hle, bind_ok, hdrop, hhead, bind_ok]
    dsimp only
    rw [add_ok (by omega), bind_ok]
    rfl

theorem BlocksRun.iterate {src : Bytes} {p q : BlockPos} (h : BlocksRun src p q)
    (hq : q.last = true) :
    BlocksIterate src p q := by
  induction h using Relation.TransGen.head_induction_on with
  | single hstep =>
    exact Iterates.step (by rw [hstep.1]; rfl) hstep.2 (Iterates.stop (by rw [hq]; rfl))
  | head hstep _ ih => exact Iterates.step (by rw [hstep.1]; rfl) hstep.2 ih

/-- A run to the last block is the block loop. -/
theorem BlocksRun.decode_blocks {src : Bytes} {s s' : BlockState} {pos pos' : Nat}
    (h : BlocksRun src ⟨s, pos, false⟩ ⟨s', pos', true⟩) :
    decode_blocks src s pos = .ok ⟨s', pos', true⟩ :=
  (h.iterate rfl).decode_blocks

/-! ## Whole frames -/

/-- The header at the front admits the dictionary, and asks for a window that decoders admit by
default, beyond which no match reaches. -/
def Conforms (dict : Option Dictionary) (src : Bytes) (m : Bool) (matches_ : List FrameMatch) :
    Prop :=
  ∃ header, header_at_front src m = .ok header ∧ check_dictionary header.dictionary_id dict =
    .ok () ∧
    header.window_size ≤ 2 ^ DEFAULT_WINDOW_LOG_MAX ∧
    ∀ mt ∈ matches_, mt.distance ≤ header.window_size

section Frame

variable {src head blocks data rest : Bytes} {m checksum : Bool} {size max_window : Option Nat}
  {window id max_output cap : Nat} {dict : Option Dictionary} {d : BlockState}

/-- The frame around some blocks is decoded to the data, and to its own end, if the decoder follows
the blocks to the data. -/
theorem decode_frame_written
    (hhead : ∀ tail,
      parse_frame_header (head ++ tail) = .ok ⟨head.length, checksum, size, window, id⟩)
    (hsrc : magic_bytes m ++ head ++ blocks ++ checksum_bytes checksum data ++ rest = src)
    (hlen : src.length < 2 ^ 63) (hwindow : check_window window max_window = .ok ())
    (hcap : frame_cap size max_output = .ok cap) (hdict : check_dictionary id dict = .ok ())
    (hsize : ∀ n, size = some n → n = data.length)
    (hrun : BlocksRun src
      ⟨BlockState.start cap (min window MAX_BLOCK_SIZE) dict, (magic_bytes m ++ head).length, false⟩
      ⟨d, (magic_bytes m ++ head ++ blocks).length, true⟩)
    {pre : Bytes} (hpre : (BlockState.start cap (min window MAX_BLOCK_SIZE) dict).dict_len =
      pre.length)
    (hout : d.out = pre ++ data) :
    decode_frame src m max_output dict max_window =
      .ok ⟨data, (magic_bytes m ++ head ++ blocks ++ checksum_bytes checksum data).length,
        d.matches_⟩ := by
  have hfront : decode_front src m = .ok (.frame (magic_bytes m).length) := by
    rw [← hsrc, List.append_assoc, List.append_assoc, List.append_assoc]
    exact decode_front_magic m _
  have hdrop : src.drop (magic_bytes m).length =
      head ++ (blocks ++ (checksum_bytes checksum data ++ rest)) := by
    rw [← hsrc, List.append_assoc, List.append_assoc, List.append_assoc, List.drop_left]
  have hlens : src.length = (magic_bytes m ++ head ++ blocks).length +
      (checksum_bytes checksum data).length + rest.length := by
    rw [← hsrc, List.length_append, List.length_append]
  have hheads : (magic_bytes m ++ head ++ blocks).length =
      (magic_bytes m).length + head.length + blocks.length := by
    rw [List.length_append, List.length_append]
  have hsize' : check_content_size size data.length = .ok () := by
    cases size with
    | none => rfl
    | some n =>
      rw [check_content_size, if_neg (fun h => h (hsize n rfl).symm)]
      rfl
  rw [@List.length_append _ (magic_bytes m) head] at hrun
  rw [decode_frame, hfront, bind_ok]
  dsimp only
  rw [sliceFrom_ok (by omega), bind_ok, hdrop, hhead, bind_ok]
  dsimp only
  rw [add_ok (by omega), bind_ok, hwindow, bind_ok, hcap, bind_ok, hdict, bind_ok,
    hrun.decode_blocks, bind_ok]
  dsimp only
  rw [hpre, sliceFrom_ok (by rw [hout, List.length_append]; omega), bind_ok, hout, List.drop_left,
    hsize', bind_ok]
  have hend : (if checksum = true then
      verify_checksum src (magic_bytes m ++ head ++ blocks).length
        ((XxHash.xxh64 data 0).toNat % 2 ^ 32)
      else pure (magic_bytes m ++ head ++ blocks).length : Res Nat) =
      .ok (magic_bytes m ++ head ++ blocks ++ checksum_bytes checksum data).length := by
    rw [@List.length_append _ _ (checksum_bytes checksum data)]
    cases checksum with
    | false => rfl
    | true =>
      rw [if_pos rfl]
      refine @verify_checksum_written src _ rest _ (Nat.mod_lt _ (by norm_num)) ?_ hlen
      rw [← hsrc, List.append_assoc]
      rfl
  rw [hend, bind_ok]
  rfl

end Frame

end ZstdPure.Encode
