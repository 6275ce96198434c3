import ZstdPure.Proofs.CeilingProofs

/-!
# Frames in a row

A frame delimits itself, so decoding a concatenation is the concatenation of the decodings, and a
skippable frame between two frames leaves no trace.
-/

namespace ZstdPure

open Outcome

/-- A skippable frame: one of its sixteen magics, the length of the body, and the body. -/
def skippable_frame (nibble : Fin 16) (body : Bytes) : Bytes :=
  leBytes 4 (SKIPPABLE_MAGIC + nibble) ++ leBytes 4 body.length ++ body

theorem length_skippable_frame (nibble : Fin 16) (body : Bytes) :
    (skippable_frame nibble body).length = 8 + body.length := by
  rw [skippable_frame, List.length_append, List.length_append, length_leBytes, length_leBytes]

theorem decode_front_skippable_frame (nibble : Fin 16) {body : Bytes}
    (hbody : body.length < 2 ^ 32) :
    decode_front (skippable_frame nibble body) true = .ok (.skippable (8 + body.length)) := by
  have hlen := length_skippable_frame nibble body
  have husize : usizeMax = 2 ^ 64 - 1 := rfl
  obtain ⟨magic, h₁, hmagic, -⟩ := read_u32_le_ok (skippable_frame nibble body) 0 (by omega)
  obtain ⟨len, h₂, hlen', -⟩ := read_u32_le_ok (skippable_frame nibble body) 4 (by omega)
  have htake : ((skippable_frame nibble body).drop 0).take 4 =
    leBytes 4 (SKIPPABLE_MAGIC + nibble) := by
    rw [skippable_frame, List.append_assoc, List.drop_zero, List.take_left' (length_leBytes _ _)]
  have htake' : ((skippable_frame nibble body).drop 4).take 4 = leBytes 4 body.length := by
    rw [skippable_frame, List.append_assoc, List.drop_left' (length_leBytes _ _),
      List.take_left' (length_leBytes _ _)]
  rw [htake, leNat_leBytes] at hmagic
  rw [htake', leNat_leBytes, Nat.mod_eq_of_lt hbody] at hlen'
  have hmask : magic &&& SKIPPABLE_MAGIC_MASK = SKIPPABLE_MAGIC := by
    rw [hmagic]
    fin_cases nibble <;> rfl
  rw [decode_front, if_pos rfl, if_neg (by omega), h₁, bind_ok, if_pos hmask, if_neg (by omega), h₂,
    bind_ok, if_neg (by omega), if_neg (by omega), hlen']
  rfl

/-- A skippable frame decodes to nothing, whatever follows it and under every ceiling. -/
theorem decode_frame_skippable (nibble : Fin 16) {body : Bytes} (hbody : body.length < 2 ^ 32)
    (rest : Bytes) (m : Nat) (dict : Option Dictionary) (max_window : Option Nat) :
    decode_frame (skippable_frame nibble body ++ rest) true m dict max_window =
      .ok ⟨[], 8 + body.length, []⟩ := by
  have hfront := (decode_front_delimited true).extend _ _ _
    (List.prefix_append (skippable_frame nibble body) rest) (Nat.zero_le _)
    (decode_front_skippable_frame nibble hbody)
  rw [decode_frame, hfront, bind_ok]
  rfl

theorem decode_one_skippable (nibble : Fin 16) {body : Bytes} (hbody : body.length < 2 ^ 32)
    (m : Nat) : decode_one (skippable_frame nibble body) true m = .ok ⟨[], 8 + body.length,
      []⟩ := by
  have h := decode_frame_skippable nibble hbody [] m none none
  rwa [List.append_nil] at h

/-- Inserting a skippable frame at a boundary between frames. -/
theorem decompress_capped_insert {src v : Bytes} {m pos budget : Nat}
    (hpos : FrameAt (fun s m => decode_one s true m) src m pos budget) (nibble : Fin 16)
    {body : Bytes} (hbody : body.length < 2 ^ 32)
    (hlen : (src.take pos ++ skippable_frame nibble body ++ src.drop pos).length < 2 ^ 63)
    (h : decompress_capped src m = .ok v) :
    decompress_capped (src.take pos ++ skippable_frame nibble body ++ src.drop pos) m = .ok v := by
  have hdec := decode_frame_decoder true none none
  obtain ⟨x, y, rfl, -, hbudget, hx, hy⟩ := hpos.split hdec (decompress_capped_run h)
  have hskip : StreamRun (fun s m => decode_one s true m) (skippable_frame nibble body)
      (m - x.length) [] := by
    have hnil : (skippable_frame nibble body).drop (8 + body.length) = [] :=
      List.drop_eq_nil_of_le (length_skippable_frame nibble body).le
    exact .frame (f := ⟨[], 8 + body.length, []⟩) (decode_one_skippable nibble hbody _)
      (by rw [hnil]; exact .nil _)
  have hxs := hx.append hdec hskip
  rw [List.append_nil] at hxs
  exact (hxs.append hdec (hbudget ▸ hy)).decompress_capped hlen

/-- Frames are self-delimiting, and decoding is a homomorphism for concatenation. -/
theorem frames_self_delimiting :
    (∀ src expect_magic m dict frame,
      decode_one_with_dict src expect_magic m dict = .ok frame →
        0 < frame.consumed ∧ frame.consumed ≤ src.length ∧
        (∀ rest, decode_one_with_dict (src ++ rest) expect_magic m dict = .ok frame) ∧
        ∀ k < frame.consumed, ∃ e,
          decode_one_with_dict ((src.take frame.consumed).take k) expect_magic m dict = fail e) ∧
    (∀ a b x y i j m, (a ++ b).length < 2 ^ 63 → i ≤ usizeMax → j ≤ usizeMax →
      decompress_capped a i = .ok x → decompress_capped b j = .ok y → x.length + y.length ≤ m →
        decompress_capped (a ++ b) m = .ok (x ++ y)) ∧
    (∀ src v m pos budget (nibble : Fin 16) (body : Bytes), body.length < 2 ^ 32 →
      (src.take pos ++ skippable_frame nibble body ++ src.drop pos).length < 2 ^ 63 →
      FrameAt (fun s m => decode_one s true m) src m pos budget →
      decompress_capped src m = .ok v →
        decompress_capped (src.take pos ++ skippable_frame nibble body ++ src.drop pos) m = .ok v) ∧
    (∀ src m, src.length < 2 ^ 63 → m ≤ usizeMax → decompress_capped src m ≠ crash .diverge) := by
  refine ⟨fun src expect_magic m dict frame h => ?_, fun a b x y i j m hlen hi hj ha hb hle => ?_,
    fun src v m pos budget nibble body hbody hlen hpos h =>
      decompress_capped_insert hpos nibble hbody hlen h,
    fun src m hlen hm => decompress_capped_noFault hlen hm .diverge⟩
  · have hdel := decode_frame_delimited expect_magic m dict none
    have hcons := hdel.le src frame (Nat.zero_le _) h
    refine ⟨decode_frame_consumed_pos _ h, hcons, fun rest => ?_, fun k hk => ?_⟩
    · exact hdel.extend src (src ++ rest) frame (List.prefix_append _ _) (Nat.zero_le _) h
    · rw [List.take_take, Nat.min_eq_left hk.le]
      exact hdel.short _ _ frame (List.take_prefix k src) (Nat.zero_le _) h
        (by rw [List.length_take]; omega)
  · have hdec := decode_frame_decoder true none none
    have hx := (decompress_capped_run ha).decode_one_ceiling hi (show x.length ≤ m by omega)
    have hy := (decompress_capped_run hb).decode_one_ceiling hj
      (show y.length ≤ m - x.length by omega)
    exact (hx.append hdec hy).decompress_capped hlen

/-- `frames_self_delimiting` on the frame of three blocks, twice in a row. -/
theorem frames_self_delimiting_three_blocks :
    decompress_capped (three_blocks ++ three_blocks) 28
      = .ok (three_blocks_content ++ three_blocks_content) := by
  have h : decompress_capped three_blocks 14 = .ok three_blocks_content := by decide +kernel
  exact frames_self_delimiting.2.1 _ _ three_blocks_content three_blocks_content 14 14 28
    (by decide)
    (by decide) (by decide) h h (by decide)

end ZstdPure
