import ZstdPure.Encode.Frame
import ZstdPure.Lib.Chunks

/-!
# `encode/stream.rs`: the streaming encoder
-/

namespace ZstdPure.Encode

open Outcome Sequences XxHash

/-- The positions of a session move by `drop`. -/
def Session.reduce_index (cast : Nat → Int) (drop : Nat) (s : Session) :
    Session :=
  { s with
    finder := s.finder.reduce_index cast drop
    ldm := s.ldm.map (LdmState.reduce_index cast drop) }

/-- `StreamingEncoder`. -/
structure StreamingEncoder where
  checksum : Bool
  env : FrameEnv
  session : Session
  input : Bytes
  dropped : Nat
  emitted : Nat
  out : Bytes
  hasher : Xxh64

/-- Plain streaming, or streaming with long-distance matches and a requested window. -/
inductive StreamMode where
  | plain
  | long (window_log : Nat)
deriving DecidableEq, Repr

namespace StreamingEncoder

/-- The encoder of some parameters, with an advertised window. -/
def start (params : CParams) (ldm : Option LdmState) (window_log : Nat)
    (checksum expect_magic : Bool) : StreamingEncoder where
  checksum := checksum
  env := ⟨asI32, 2 ^ params.window_log, 2 ^ window_log, split_depth_for params.strategy⟩
  session := ⟨Finder.new params, ldm, EncState.start⟩
  input := []
  dropped := 0
  emitted := 0
  out := magic_bytes expect_magic ++ write_frame_header_streaming checksum window_log
  hasher := Xxh64.new 0

/-- `with_options`. -/
def with_options (level : Int) (checksum expect_magic : Bool) : StreamingEncoder :=
  let params := params_for_level level usizeMax
  start params none params.window_log checksum expect_magic

/-- `with_options_long`. -/
def with_options_long (level : Int) (checksum expect_magic : Bool) (window_log : Nat) :
    StreamingEncoder :=
  let params := params_for_level level usizeMax
  let window_log := clamp window_log params.window_log LDM_MAX_WINDOW_LOG
  start params (some (LdmState.new window_log)) window_log checksum expect_magic

/-- The constructor of a mode. -/
def of_mode (level : Int) (checksum expect_magic : Bool) : StreamMode → StreamingEncoder
  | .plain => with_options level checksum expect_magic
  | .long window_log => with_options_long level checksum expect_magic window_log

/-- `total`. -/
def total (s : StreamingEncoder) : Nat := s.dropped + s.input.length

/-- `buffered_input_len`. -/
def buffered_input_len (s : StreamingEncoder) : Nat := s.input.length

/-- `window_size`. -/
def window_size (s : StreamingEncoder) : Nat := s.env.max_offset

/-- `emit_block`: the block is parsed against the input up to its end only. -/
def emit_block (s : StreamingEncoder) (stop : Nat) (last : Bool) : StreamingEncoder :=
  let start_rel := s.emitted - s.dropped
  let end_rel := stop - s.dropped
  let (bytes, session) :=
    encode_block s.env last (s.input.take end_rel) start_rel end_rel s.session
  { s with session, out := s.out ++ bytes, emitted := stop }

/-- How many bytes `maybe_slide` drops. -/
def slide_drop (s : StreamingEncoder) : Nat :=
  let history := s.emitted - s.dropped
  if history ≤ 2 * s.env.max_offset then 0
  else
    let desired := history - s.env.max_offset
    desired - desired % s.session.finder.slide_period

/-- `maybe_slide`. -/
def maybe_slide (s : StreamingEncoder) : StreamingEncoder :=
  let drop := s.slide_drop
  if drop = 0 then s
  else
    { s with
      session := s.session.reduce_index s.env.cast drop
      input := s.input.drop drop
      dropped := s.dropped + drop }

/-- `drain_full_blocks`, after each block of which the encoder may `slide` its input. -/
def drain_full_blocks (slide : StreamingEncoder → StreamingEncoder) (s : StreamingEncoder) :
    StreamingEncoder :=
  While.iterate (fun s : StreamingEncoder => decide (BLOCK_SIZE_MAX < s.total - s.emitted))
    (fun s => slide (s.emit_block (s.emitted + BLOCK_SIZE_MAX) false)) (s.total - s.emitted) s

/-- One step of `push`. -/
def push_part (slide : StreamingEncoder → StreamingEncoder) (s : StreamingEncoder) (part : Bytes) :
    StreamingEncoder :=
  drain_full_blocks slide { s with input := s.input ++ part }

/-- `push`. -/
def push (slide : StreamingEncoder → StreamingEncoder) (s : StreamingEncoder) (data : Bytes) :
    Res StreamingEncoder := do
  let hasher ← s.hasher.update data
  pure ((data.chunks BLOCK_SIZE_MAX).foldl (push_part slide) { s with hasher })

/-- `take_output`. -/
def take_output (s : StreamingEncoder) : Bytes × StreamingEncoder := (s.out, { s with out := [] })

/-- The last block. -/
def emit_last (slide : StreamingEncoder → StreamingEncoder) (s : StreamingEncoder) :
    StreamingEncoder :=
  if s.total = 0 then { s with out := s.out ++ write_raw_block true [] }
  else
    let s := drain_full_blocks slide s
    s.emit_block s.total true

/-- `finish`. -/
def finish (slide : StreamingEncoder → StreamingEncoder) (s : StreamingEncoder) : Res Bytes := do
  let s := emit_last slide s
  if s.checksum then
    let digest ← s.hasher.digest
    pure (s.out ++ leBytes 4 (digest.toNat % 2 ^ 32))
  else pure s.out

/-! ## Runs -/

/-- A call on the encoder. -/
inductive Call where
  | push (data : Bytes)
  | take_output
deriving DecidableEq, Repr

/-- The bytes that a call pushes. -/
def Call.pushed : Call → Bytes
  | .push data => data
  | .take_output => []

/-- The encoder with the output that was drained from it. -/
structure Run where
  encoder : StreamingEncoder
  drained : Bytes

/-- One call. -/
def Run.call (slide : StreamingEncoder → StreamingEncoder) (r : Run) : Call → Res Run
  | .push data => do
    let encoder ← push slide r.encoder data
    pure { r with encoder }
  | .take_output =>
    let (out, encoder) := r.encoder.take_output
    pure ⟨encoder, r.drained ++ out⟩

/-- The output of some calls and `finish`, with what was drained in between. -/
def run (slide : StreamingEncoder → StreamingEncoder) (s : StreamingEncoder) (calls : List Call) :
    Res Bytes := do
  let r ← calls.foldlM (Run.call slide) ⟨s, []⟩
  let rest ← finish slide r.encoder
  pure (r.drained ++ rest)

end StreamingEncoder

end ZstdPure.Encode
