import ZstdPure.Block
import ZstdPure.Dict
import ZstdPure.XxHash

/-!
# `frame.rs`: frame headers, frame decoding and the one-shot entry points
-/

namespace ZstdPure

open Outcome Sequences XxHash

def ZSTD_MAGIC : Nat := 0xFD2FB528
def SKIPPABLE_MAGIC_MASK : Nat := 0xFFFFFFF0
def SKIPPABLE_MAGIC : Nat := 0x184D2A50
def DEFAULT_MAX_OUTPUT : Nat := 256 * 2 ^ 20
def HTTP_MAX_WINDOW_SIZE : Nat := 8 * 2 ^ 20

/-- `DecodedFrame`, with the matches executed for it. -/
structure DecodedFrame where
  data : Bytes
  consumed : Nat
  matches_ : List FrameMatch
deriving DecidableEq, Repr

/-- `FrameHeader`. -/
structure FrameHeader where
  header_len : Nat
  has_checksum : Bool
  content_size : Option Nat
  window_size : Nat
  dictionary_id : Nat
deriving DecidableEq, Repr

/-- The window descriptor, absent from a single-segment header, and the position after it. -/
def parse_window (src : Bytes) (single_segment : Bool) (o : Nat) : Res (Option Nat × Nat) := do
  if single_segment then pure (none, o)
  else if src.length ≤ o then fail (.Truncated "window descriptor" 1)
  else
    let wd ← get src o
    let o ← add 64 o 1
    let exponent := wd.toNat >>> 3
    let mantissa := wd.toNat &&& 7
    let window_log ← add 32 10 exponent
    let window_base ← shl 64 1 window_log
    let extra ← mul 64 (window_base / 8) mantissa
    let window ← add 64 window_base extra
    pure (some window, o)

/-- A little-endian field of `size` bytes at `o`, and the position after it. -/
def parse_field (src : Bytes) (what : String) (o size : Nat) : Res (Nat × Nat) := do
  let stop ← add 64 o size
  if src.length < stop then fail (.Truncated what (stop - src.length))
  else
    let b ← slice src o stop
    pure (leNat b, stop)

/-- `parse_frame_header`. -/
def parse_frame_header (src : Bytes) : Res FrameHeader := do
  if src.length = 0 then fail (.Truncated "frame header descriptor" 1)
  else
    let b ← get src 0
    let fhd := b.toNat
    let dict_id_flag := fhd &&& 3
    let content_checksum := (fhd >>> 2) &&& 1 != 0
    if (fhd >>> 3) &&& 1 ≠ 0 then fail (.ReservedBit "frame header descriptor")
    else
      let single_segment := (fhd >>> 5) &&& 1 != 0
      let fcs_flag := (fhd >>> 6) &&& 3
      let (window_size_from_desc, o) ← parse_window src single_segment 1
      let dict_id_size ← get [0, 1, 2, 4] dict_id_flag
      let (dictionary_id, o) ← parse_field src "dictionary id" o dict_id_size
      let fcs_size :=
        if fcs_flag = 0 then if single_segment then 1 else 0
        else if fcs_flag = 1 then 2
        else if fcs_flag = 2 then 4
        else 8
      let (v, o) ← parse_field src "frame content size" o fcs_size
      let frame_content_size ← (
        if fcs_size = 0 then pure none
        else if fcs_size = 2 then do
          let v ← add 64 v 256
          pure (some v)
        else pure (some v))
      let window_size :=
        if single_segment then frame_content_size.getD 0 else window_size_from_desc.getD 0
      pure ⟨o, content_checksum, frame_content_size, window_size, dictionary_id⟩

/-- `frame_header`. -/
def frame_header (src : Bytes) : Res FrameHeader := do
  if src.length < 4 then fail (.Truncated "frame magic" (4 - src.length))
  else
    let magic ← read_u32_le src 0
    if magic ≠ ZSTD_MAGIC then fail (.BadMagic magic)
    else
      let rest ← sliceFrom src 4
      let h ← parse_frame_header rest
      let header_len ← add 64 h.header_len 4
      pure { h with header_len }

/-- `frame_header_magicless`. -/
def frame_header_magicless (src : Bytes) : Res FrameHeader := parse_frame_header src

/-- What the magic at the front of a frame announces. -/
inductive Front where
  /-- A skippable frame of this total length. -/
  | skippable (consumed : Nat)
  /-- A frame whose header starts at this position. -/
  | frame (pos : Nat)
deriving DecidableEq, Repr

/-- The magic of `decode_frame`, and the skippable frames it recognizes. -/
def decode_front (src : Bytes) (expect_magic : Bool) : Res Front := do
  if expect_magic then
    if src.length < 4 then fail (.Truncated "frame magic" (4 - src.length))
    else
      let magic ← read_u32_le src 0
      if magic &&& SKIPPABLE_MAGIC_MASK = SKIPPABLE_MAGIC then
        if src.length < 8 then fail (.Truncated "skippable frame size" (8 - src.length))
        else
          let len ← read_u32_le src 4
          if usizeMax < 8 + len then
            fail (.Invalid "skippable frame size" "size overflows usize")
          else if src.length < 8 + len then
            fail (.Truncated "skippable frame body" (8 + len - src.length))
          else pure (.skippable (8 + len))
      else if magic ≠ ZSTD_MAGIC then fail (.BadMagic magic)
      else pure (.frame 4)
  else pure (.frame 0)

/-- The window ceiling of `decode_frame`. -/
def check_window (window_size : Nat) (max_window : Option Nat) : Res Unit :=
  match max_window with
  | some max_ws =>
    if max_ws < window_size then
      fail (.Invalid "window size"
        s!"frame window {window_size} exceeds the {max_ws}-byte ceiling")
    else pure ()
  | none => pure ()

/-- The output cap of a frame: its pledged content size, if within the caller's ceiling. -/
def frame_cap (content_size : Option Nat) (max_output : Nat) : Res Nat :=
  match content_size with
  | some n => if max_output < n then fail (.OutputTooLarge max_output) else pure n
  | none => pure max_output

/-- The dictionary checks of `decode_frame`. -/
def check_dictionary (dictionary_id : Nat) (dict : Option Dictionary) : Res Unit :=
  match dict with
  | some d =>
    if dictionary_id ≠ 0 ∧ dictionary_id ≠ d.id then
      fail (.Dictionary
        s!"frame references dictionary id {dictionary_id} but dictionary is id {d.id}")
    else pure ()
  | none =>
    if dictionary_id ≠ 0 then
      fail (.Dictionary
        s!"frame references dictionary id {dictionary_id} but no dictionary was supplied")
    else pure ()

/-- The decode state at the start of a frame, primed with the dictionary. -/
def BlockState.start (max_output block_max : Nat) (dict : Option Dictionary) : BlockState :=
  let s : BlockState :=
    { out := [], dict_len := 0, max_output, block_max, huff := none, seq := .default,
      rep := ⟨1, 4, 8⟩, blocks := 0, matches_ := [] }
  match dict with
  | none => s
  | some d =>
    let s := { s with out := d.content, dict_len := d.content.length }
    match d.entropy with
    | none => s
    | some e => { s with huff := some e.huff, seq := e.tables, rep := e.rep }

/-- The position of the block loop: the decode state, the input position, and whether the last
block was decoded. -/
structure BlockPos where
  state : BlockState
  pos : Nat
  last : Bool
deriving DecidableEq, Repr

/-- One iteration of the block loop. -/
def decode_block (src : Bytes) (p : BlockPos) : Res BlockPos := do
  let (state, pos, last) ← p.state.decode_block_at src p.pos
  pure ⟨state, pos, last⟩

/-- The block loop of `decode_frame`. -/
def decode_blocks (src : Bytes) (state : BlockState) (pos : Nat) : Res BlockPos :=
  loop (fun p : BlockPos => !p.last) (decode_block src) (src.length + 2) ⟨state, pos, false⟩

/-- The check of the decoded size against the declared one. -/
def check_content_size (declared : Option Nat) (decoded : Nat) : Res Unit :=
  match declared with
  | some n =>
    if decoded ≠ n then
      fail (.Invalid "frame content size" s!"declared {n}, decoded {decoded}")
    else pure ()
  | none => pure ()

/-- The content checksum at `pos`; the position after it. -/
def verify_checksum (src : Bytes) (pos : Nat) (computed : Nat) : Res Nat := do
  let stop ← add 64 pos 4
  if src.length < stop then fail (.Truncated "content checksum" (stop - src.length))
  else
    let stored ← read_u32_le src pos
    if stored ≠ computed then fail (.ChecksumMismatch stored computed)
    else pure stop

/-- `decode_frame`. -/
def decode_frame (src : Bytes) (expect_magic : Bool) (max_output : Nat)
    (dict : Option Dictionary) (max_window : Option Nat) : Res DecodedFrame := do
  let front ← decode_front src expect_magic
  match front with
  | .skippable consumed => pure ⟨[], consumed, []⟩
  | .frame pos =>
    let rest ← sliceFrom src pos
    let header ← parse_frame_header rest
    let pos ← add 64 pos header.header_len
    check_window header.window_size max_window
    let block_max := min header.window_size MAX_BLOCK_SIZE
    let cap ← frame_cap header.content_size max_output
    check_dictionary header.dictionary_id dict
    let start := BlockState.start cap block_max dict
    let p ← decode_blocks src start pos
    let data ← sliceFrom p.state.out start.dict_len
    check_content_size header.content_size data.length
    let consumed ← (
      if header.has_checksum then
        verify_checksum src p.pos ((xxh64 data 0).toNat % 2 ^ 32)
      else pure p.pos)
    pure ⟨data, consumed, p.state.matches_⟩

/-- `decode_one_with_dict`. -/
def decode_one_with_dict (src : Bytes) (expect_magic : Bool) (max_output : Nat)
    (dict : Option Dictionary) : Res DecodedFrame :=
  decode_frame src expect_magic max_output dict none

/-- `decode_one`. -/
def decode_one (src : Bytes) (expect_magic : Bool) (max_output : Nat) : Res DecodedFrame :=
  decode_one_with_dict src expect_magic max_output none

/-- The frame loop of the multi-frame entry points: `decode` decodes one frame from the front of
its argument within a remaining budget. -/
def decode_stream (decode : Bytes → Nat → Res DecodedFrame) (src : Bytes) (max_output : Nat) :
    Res Bytes := do
  let (_, out) ← loop (fun s : Nat × Bytes => decide (s.1 < src.length))
    (fun s => do
      if max_output < s.2.length then fail (.OutputTooLarge max_output)
      else
        let rest ← sliceFrom src s.1
        let frame ← decode rest (max_output - s.2.length)
        let pos ← add 64 s.1 frame.consumed
        pure (pos, s.2 ++ frame.data))
    (src.length + 1) (0, [])
  pure out

/-- `decompress_capped`. -/
def decompress_capped (src : Bytes) (max_output : Nat) : Res Bytes :=
  decode_stream (fun s m => decode_one s true m) src max_output

/-- `decompress`. -/
def decompress (src : Bytes) : Res Bytes := decompress_capped src DEFAULT_MAX_OUTPUT

/-- `decompress_http`. -/
def decompress_http (src : Bytes) (max_output : Nat) : Res Bytes :=
  decode_stream (fun s m => decode_frame s true m none (some HTTP_MAX_WINDOW_SIZE)) src max_output

/-- `decompress_magicless`. -/
def decompress_magicless (src : Bytes) (max_output : Nat) : Res DecodedFrame :=
  decode_one src false max_output

/-- `decompress_with_dict`. -/
def decompress_with_dict (src : Bytes) (dict : Dictionary) (max_output : Nat) : Res Bytes :=
  decode_stream (fun s m => decode_one_with_dict s true m (some dict)) src max_output

/-- `decompress_magicless_with_dict`. -/
def decompress_magicless_with_dict (src : Bytes) (dict : Dictionary) (max_output : Nat) :
    Res DecodedFrame :=
  decode_one_with_dict src false max_output (some dict)

end ZstdPure
