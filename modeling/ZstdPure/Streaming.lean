import ZstdPure.Frame

/-!
# `streaming.rs`: the bounded-memory frame decoder
-/

namespace ZstdPure

open Outcome XxHash

/-- `DEFAULT_WINDOW_LOG_MAX`. -/
def DEFAULT_WINDOW_LOG_MAX : Nat := 27

/-- `StreamingDecoder`. -/
structure StreamingDecoder where
  src : Bytes
  pos : Nat
  window_size : Nat
  state : BlockState
  read_off : Nat
  last_done : Bool
  has_checksum : Bool
  hasher : Xxh64
  total_out : Nat
  declared_size : Option Nat
  poisoned : Option String
deriving DecidableEq, Repr

/-- What `read` returns: the bytes copied into the buffer, or an `InvalidData` error. -/
inductive ReadResult where
  | Ok (bytes : Bytes)
  | Err (msg : String)
deriving DecidableEq, Repr

namespace StreamingDecoder

/-- The dictionary check of `with_options`, made only for a dictionary that was supplied. -/
def supplied_dictionary_check (dictionary_id : Nat) (dict : Option Dictionary) : Res Unit :=
  match dict with
  | some _ => check_dictionary dictionary_id dict
  | none => pure ()

/-- `with_options`. -/
def with_options (src : Bytes) (expect_magic : Bool) (dict : Option Dictionary)
    (window_log_max : Nat) : Res StreamingDecoder := do
  let header ← (if expect_magic then frame_header src else frame_header_magicless src)
  let max_ws ← shl 64 1 (min window_log_max 63)
  if max_ws < header.window_size then
    fail (.Invalid "window size"
      s!"frame window {header.window_size} exceeds window_log_max ({window_log_max} = {max_ws} bytes)")
  else
    let window_size := header.window_size
    supplied_dictionary_check header.dictionary_id dict
    let state := BlockState.start usizeMax (min window_size MAX_BLOCK_SIZE) dict
    pure
      { src, pos := header.header_len, window_size, state, read_off := state.dict_len,
        last_done := false, has_checksum := header.has_checksum, hasher := Xxh64.new 0,
        total_out := 0, declared_size := header.content_size, poisoned := none }

/-- `new`. -/
def new (src : Bytes) : Res StreamingDecoder :=
  with_options src true none DEFAULT_WINDOW_LOG_MAX

/-- `new_magicless`. -/
def new_magicless (src : Bytes) : Res StreamingDecoder :=
  with_options src false none DEFAULT_WINDOW_LOG_MAX

/-- `with_dict`. -/
def with_dict (src : Bytes) (dict : Dictionary) : Res StreamingDecoder :=
  with_options src true (some dict) DEFAULT_WINDOW_LOG_MAX

/-- `buffered_len`. -/
def buffered_len (d : StreamingDecoder) : Nat := d.state.out.length

/-- The end of the frame: the content size and the trailing checksum. -/
def finish_frame (d : StreamingDecoder) : Res StreamingDecoder := do
  check_content_size d.declared_size d.total_out
  if d.has_checksum then
    let h ← d.hasher.digest
    let pos ← verify_checksum d.src d.pos (h.toNat % 2 ^ 32)
    pure { d with pos }
  else pure d

/-- `decode_next_block`. -/
def decode_next_block (d : StreamingDecoder) : Res StreamingDecoder := do
  let before := d.state.out.length
  let (state, pos, last) ← d.state.decode_block_at d.src d.pos
  let produced ← sliceFrom state.out before
  let hasher ← d.hasher.update produced
  let total_out ← add 64 d.total_out produced.length
  let d := { d with state, pos, hasher, total_out }
  if last then finish_frame { d with last_done := true } else pure d

/-- `compact`: drop the bytes both delivered and older than the window. -/
def compact (d : StreamingDecoder) : Res StreamingDecoder := do
  let keep_from := d.state.out.length - d.window_size
  let drop := min d.read_off keep_from
  if 0 < drop then
    let out ← sliceFrom d.state.out drop
    let read_off ← sub d.read_off drop
    pure { d with state := { d.state with out, dict_len := d.state.dict_len - drop }, read_off }
  else pure d

/-- The condition of the decode loop of `read`: nothing to deliver and blocks left. -/
def starved (d : StreamingDecoder) : Bool :=
  decide (d.state.out.length ≤ d.read_off) && !d.last_done

/-- The decode loop of `read`. -/
def refill (d : StreamingDecoder) : Res StreamingDecoder :=
  loop starved (fun d => do
    let d ← d.decode_next_block
    d.compact) (d.src.length + 2) d

/-- The delivery of `read` into a buffer of `buf_len` bytes. -/
def deliver (d : StreamingDecoder) (buf_len : Nat) : Res (Bytes × StreamingDecoder) := do
  let avail ← sub d.state.out.length d.read_off
  if avail = 0 then pure ([], d)
  else
    let n := min avail buf_len
    let stop ← add 64 d.read_off n
    let bytes ← slice d.state.out d.read_off stop
    let d ← { d with read_off := stop }.compact
    pure (bytes, d)

/-- `read` into a buffer of `buf_len` bytes. After an error only `poisoned` is read again, so the
other fields keep their values from before the call. -/
def read (d : StreamingDecoder) (buf_len : Nat) :
    Outcome Empty (ReadResult × StreamingDecoder) :=
  match d.poisoned with
  | some msg => .ok (.Err msg, d)
  | none =>
    match d.refill >>= fun d => d.deliver buf_len with
    | .ok (bytes, d) => .ok (.Ok bytes, d)
    | .error (.err e) => .ok (.Err e.to_string, { d with poisoned := some e.to_string })
    | .error (.fault f) => crash f

/-- The results of a sequence of reads into buffers of the given lengths. -/
def reads (d : StreamingDecoder) : List Nat → Outcome Empty (List ReadResult × StreamingDecoder)
  | [] => .ok ([], d)
  | n :: ns => do
    let (r, d) ← d.read n
    let (rs, d) ← d.reads ns
    pure (r :: rs, d)

end StreamingDecoder

end ZstdPure
