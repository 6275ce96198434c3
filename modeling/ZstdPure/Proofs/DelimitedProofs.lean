import ZstdPure.Lib.Delimited
import ZstdPure.Proofs.BlockProofs
import ZstdPure.Proofs.FrameProofs

/-!
# Frames delimit themselves

Decoding a frame reads exactly the bytes it consumes: headers, blocks and checksum are delimited
readers, and so is the frame.
-/

namespace ZstdPure

open Outcome

/-! ## Headers -/

theorem read_u32_le_delimited {p i : Nat} (hi : i + 4 ≤ p) :
    Delimited p (fun _ => p) fun src => read_u32_le src i := by
  refine .inside fun src src' hpre hp => ?_
  rw [read_u32_le, read_u32_le, get_of_prefix hpre (by omega), get_of_prefix hpre (by omega),
    get_of_prefix hpre (by omega), get_of_prefix hpre (by omega)]

theorem parse_window_delimited (single_segment : Bool) (p : Nat) :
    Delimited p Prod.snd fun src => parse_window src single_segment p := by
  unfold parse_window
  refine .ite (fun _ => .pure rfl) fun _ => ?_
  refine .guard _ (n := p + 1) (fun src => by omega) (by omega) ?_
  refine (Delimited.get (by omega)).bind fun wd _ => ?_
  refine (Delimited.const _ _).bind fun o ho => ?_
  obtain ⟨-, ho⟩ := ho
  refine (Delimited.const _ _).bind fun window_log _ => (Delimited.const _ _).bind fun base _ =>
    (Delimited.const _ _).bind fun extra _ => (Delimited.const _ _).bind fun window _ => .pure ?_
  exact (add_eq_ok.mp ho).2

theorem parse_field_delimited (what : String) (p size : Nat) :
    Delimited p Prod.snd fun src => parse_field src what p size := by
  unfold parse_field
  refine (Delimited.const _ _).bind fun stop hstop => ?_
  obtain ⟨-, hstop⟩ := hstop
  refine .guard _ (n := stop) (fun src => Iff.rfl) (by have := (add_eq_ok.mp hstop).2; omega) ?_
  exact (Delimited.slice le_rfl).bind fun b _ => .pure rfl

theorem parse_frame_header_delimited :
    Delimited 0 FrameHeader.header_len parse_frame_header := by
  unfold parse_frame_header
  refine .guard _ (n := 1) (fun src => by omega) (by omega) ?_
  refine (Delimited.get (by omega)).bind fun b _ => .ite (fun _ => .fail _) fun _ => ?_
  refine (parse_window_delimited _ 1).bind fun ⟨window, o⟩ _ => ?_
  refine (Delimited.const _ _).bind fun dict_id_size _ => ?_
  refine (parse_field_delimited _ _ _).bind fun ⟨dictionary_id, o⟩ _ => ?_
  refine (parse_field_delimited _ _ _).bind fun ⟨v, o⟩ _ => ?_
  exact (Delimited.const _ _).bind fun size _ => .pure rfl

/-- Where the magic ends, or the skippable frame. -/
def Front.stop : Front → Nat
  | .skippable n => n
  | .frame pos => pos

theorem decode_front_delimited (expect_magic : Bool) :
    Delimited 0 Front.stop fun src => decode_front src expect_magic := by
  unfold decode_front
  refine .ite (fun _ => ?_) fun _ => .pure rfl
  refine .guard _ (n := 4) (fun src => Iff.rfl) (by omega) ?_
  refine (read_u32_le_delimited (by omega)).bind fun magic _ => ?_
  refine .ite (fun _ => ?_) fun _ => .ite (fun _ => .fail _) fun _ => .pure rfl
  refine .guard _ (n := 8) (fun src => Iff.rfl) (by omega) ?_
  refine (read_u32_le_delimited (by omega)).bind fun len _ => ?_
  refine .ite (fun _ => .fail _) fun _ => ?_
  exact .guard _ (n := 8 + len) (fun src => Iff.rfl) (by omega) (.pure rfl)

/-! ## Blocks -/

theorem read_header_delimited : Delimited 0 (fun _ => 3) read_header := by
  unfold read_header
  refine .guard _ (n := 3) (fun src => Iff.rfl) (by omega) ?_
  refine (Delimited.get (by omega)).bind fun b0 _ => (Delimited.get (by omega)).bind fun b1 _ =>
    (Delimited.get (by omega)).bind fun b2 _ => .pure rfl

theorem decode_block_at_delimited (s : BlockState) (pos : Nat) :
    Delimited pos (fun r => r.2.1) fun src => s.decode_block_at src pos := by
  unfold BlockState.decode_block_at
  refine .drop_bind le_rfl (by rw [Nat.sub_self]; exact read_header_delimited) fun header => ?_
  refine .ite (fun _ => .fail _) fun _ => .ite (fun _ => .fail _) fun _ => ?_
  refine .ite (fun _ => ?_) fun _ => .ite (fun _ => ?_) fun _ => .ite (fun _ => ?_) fun _ => .fail _
  · refine .ite (fun _ => .fail _) fun _ => ?_
    refine .guard _ (n := pos + 3 + header.block_size) (fun src => Iff.rfl) (by omega) ?_
    refine (Delimited.slice le_rfl).bind fun data _ => ?_
    exact (Delimited.const _ _).bind fun s' _ => .pure rfl
  · refine .guard _ (n := pos + 4) (fun src => by omega) (by omega) ?_
    refine (Delimited.get (by omega)).bind fun b _ => ?_
    refine (Delimited.const _ _).bind fun s' _ => (Delimited.const _ _).bind fun pos' hpos =>
      .pure ?_
    obtain ⟨-, hpos⟩ := hpos
    exact (add_eq_ok.mp hpos).2
  · refine .ite (fun _ => .fail _) fun _ => ?_
    refine .guard _ (n := pos + 3 + header.block_size) (fun src => Iff.rfl) (by omega) ?_
    refine (Delimited.slice le_rfl).bind fun data _ => ?_
    exact (Delimited.const _ _).bind fun s' _ => .pure rfl

theorem decode_block_delimited (p : BlockPos) :
    Delimited p.pos BlockPos.pos fun src => decode_block src p := by
  unfold decode_block
  exact (decode_block_at_delimited p.state p.pos).bind fun r _ => .pure rfl

/-- A block is at least as long as its header. -/
theorem decode_block_pos_lt {src : Bytes} {p p' : BlockPos} (h : decode_block src p = .ok p') :
    p.pos + 3 ≤ p'.pos := by
  rw [decode_block] at h
  obtain ⟨r, hr, h⟩ := bind_eq_ok.mp h
  rw [← Except.ok.inj h]
  cases BlockState.decode_block_at_cases hr with
  | raw => simp only; omega
  | rle => simp only; omega
  | compressed => simp only; omega

theorem decode_blocks_delimited (s : BlockState) (pos : Nat) :
    Delimited pos BlockPos.pos fun src => decode_blocks src s pos :=
  .loop (s := ⟨s, pos, false⟩) (fun src => by omega) (fun p _ => decode_block_delimited p)
    fun src p p' _ h => by have := decode_block_pos_lt h; omega

/-! ## Frames -/

theorem verify_checksum_delimited (pos computed : Nat) :
    Delimited pos id fun src => verify_checksum src pos computed := by
  unfold verify_checksum
  refine (Delimited.const _ _).bind fun stop hstop => ?_
  obtain ⟨-, hstop⟩ := hstop
  have hstop := (add_eq_ok.mp hstop).2
  refine .guard _ (n := stop) (fun src => Iff.rfl) (by omega) ?_
  refine (read_u32_le_delimited (by omega)).bind fun stored _ => ?_
  exact .ite (fun _ => .fail _) fun _ => .pure rfl

/-- Decoding a frame reads the bytes it consumes and no others. -/
theorem decode_frame_delimited (expect_magic : Bool) (max_output : Nat)
    (dict : Option Dictionary) (max_window : Option Nat) :
    Delimited 0 DecodedFrame.consumed fun src =>
      decode_frame src expect_magic max_output dict max_window := by
  unfold decode_frame
  refine (decode_front_delimited expect_magic).bind fun front _ => ?_
  cases front with
  | skippable n => exact .pure rfl
  | frame pos =>
    refine .drop_bind le_rfl (by rw [Front.stop, Nat.sub_self]; exact parse_frame_header_delimited)
      fun header => ?_
    refine (Delimited.const _ _).bind fun pos' hpos => ?_
    obtain ⟨-, hpos⟩ := hpos
    have hpos := (add_eq_ok.mp hpos).2
    refine (Delimited.const _ _).bind fun _ _ => (Delimited.const _ _).bind fun cap _ =>
      (Delimited.const _ _).bind fun _ _ => ?_
    rw [← hpos]
    refine (decode_blocks_delimited _ _).bind fun p _ => ?_
    refine (Delimited.const _ _).bind fun data _ => (Delimited.const _ _).bind fun _ _ => ?_
    have hend : Delimited p.pos id fun src => if header.has_checksum then
        verify_checksum src p.pos ((XxHash.xxh64 data 0).toNat % 2 ^ 32) else pure p.pos :=
      .ite (fun _ => verify_checksum_delimited _ _) fun _ => .pure rfl
    exact hend.bind fun consumed _ => .pure rfl

end ZstdPure
