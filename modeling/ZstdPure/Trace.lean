import ZstdPure.Streaming

/-!
# The buffer at every point of a decode

The decoding functions return their buffer only with their value. Here the buffer is followed
through a block: the contents after each growth, in order, also in a block that ends in an error.
-/

namespace ZstdPure

open Outcome Fse Sequences

namespace Sequences

/-- The buffer during `exec_triple`: after the literals and after the match. -/
def triple_trace (env : ExecEnv) (ll0 : Bool) (t : Triple) (s : ExecState) : List Bytes :=
  match resolve_offset s.rep t.offset_value ll0, headroom env.dict_len env.max_output s.out with
  | .ok (actual_offset, _), .ok room =>
    if actual_offset = 0 ∨ room < t.lit_len + t.match_len ∨
        env.literals.length < s.lit_pos + t.lit_len then []
    else
      let out := s.out ++ (env.literals.drop s.lit_pos).take t.lit_len
      if out.length < actual_offset then [out]
      else
        match copy_match out actual_offset t.match_len with
        | .ok copied => [out, copied]
        | .error _ => [out]
  | _, _ => []

/-- The triple that `exec_step` decodes. -/
def next_triple (env : ExecEnv) (s : ExecState) : Res (Bool × Triple) := do
  let e_ll ← entry s.s_ll env.ll_table
  let e_ml ← entry s.s_ml env.ml_table
  let e_of ← entry s.s_of env.of_table
  if LL_BASE.length ≤ e_ll.symbol ∨ ML_BASE.length ≤ e_ml.symbol ∨ 31 < e_of.symbol then
    fail (.Invalid "sequence code"
      s!"ll {e_ll.symbol} / ml {e_ml.symbol} / of {e_of.symbol} out of range")
  else
    let (t, _) ← read_triple e_ll.symbol e_ml.symbol e_of.symbol s.br
    pure (e_ll.symbol == 0, t)

/-- The buffer during `exec_step`. -/
def step_trace (env : ExecEnv) (s : ExecState) : List Bytes :=
  match next_triple env s with
  | .ok (ll0, t) => triple_trace env ll0 t s
  | .error _ => []

/-- The buffer during `exec_loop`. -/
def loop_trace (env : ExecEnv) : Nat → ExecState → List Bytes
  | 0, _ => []
  | n + 1, s =>
    step_trace env s ++
      match exec_step env (decide (0 < n)) s with
      | .ok s => loop_trace env n s
      | .error _ => []

/-- The buffer after a call that returns it. -/
def last_buffer (x : Res SeqOut) : List Bytes :=
  match x with
  | .ok r => [r.out]
  | .error _ => []

/-- The buffer during `decode_capped`. -/
def capped_trace (src literals out : Bytes) (tables : SeqTables) (rep : Reps)
    (dict_len max_output : Nat) : List Bytes :=
  match sequences_plan src tables with
  | .ok none => last_buffer (literals_only literals out tables rep dict_len max_output)
  | .ok (some p) =>
    let env := p.env literals dict_len max_output
    loop_trace env p.nb_seq (p.start out rep) ++
      last_buffer (exec_loop env p.nb_seq (p.start out rep) >>= trailing_literals env p.tables)
  | .error _ => []

end Sequences

namespace BlockState

/-- The buffer during `decode_compressed`. -/
def compressed_trace (s : BlockState) (data : Bytes) : List Bytes :=
  match Literals.decode data s.huff with
  | .ok lits =>
    let real_so_far := s.out.length - s.dict_len
    let block_cap := min s.max_output (min (real_so_far + s.block_max) usizeMax)
    capped_trace (data.drop lits.consumed) lits.literals s.out s.seq s.rep s.dict_len block_cap
  | .error _ => []

/-- The buffer during `decode_raw`: the ceiling is checked before it grows. -/
def raw_trace (s : BlockState) (data : Bytes) : List Bytes :=
  match s.check_ceiling data.length with
  | .ok _ => [s.out ++ data]
  | .error _ => []

/-- The buffer during `decode_rle`, checked likewise. -/
def rle_trace (s : BlockState) (byte : UInt8) (count : Nat) : List Bytes :=
  match s.check_ceiling count with
  | .ok _ => [s.out ++ List.replicate count byte]
  | .error _ => []

/-- The buffer during the body of a block with a checked header, which starts at `pos`. -/
def body_trace (s : BlockState) (src : Bytes) (header : BlockHeader) (pos : Nat) : List Bytes :=
  let stop := pos + header.block_size
  if header.block_type = 0 then
    if usizeMax < stop ∨ src.length < stop then [] else s.raw_trace ((src.take stop).drop pos)
  else if header.block_type = 1 then
    match (get src pos : Res UInt8) with
    | .ok b => s.rle_trace b header.block_size
    | .error _ => []
  else if header.block_type = 2 then
    if usizeMax < stop ∨ src.length < stop then [] else s.compressed_trace
      ((src.take stop).drop pos)
  else []

/-- The buffer during `decode_block_at`. -/
def block_trace (s : BlockState) (src : Bytes) (pos : Nat) : List Bytes :=
  match (sliceFrom src pos >>= read_header : Res BlockHeader) with
  | .ok header =>
    if s.block_max < header.block_size ∨ usizeMax < pos + 3 then []
    else body_trace { s with blocks := s.blocks + 1 } src header (pos + 3)
  | .error _ => []

/-- The buffer `decode_block_at` leaves, whether it returns a value or an error. -/
def buffer_after (s : BlockState) (src : Bytes) (pos : Nat) : Bytes :=
  (s.block_trace src pos).getLastD s.out

end BlockState

/-! ## The points of a decode -/

/-- A frame whose header has been checked: the state and the position of its first block. -/
structure FrameStart where
  header : FrameHeader
  state : BlockState
  pos : Nat
deriving DecidableEq, Repr

/-- `decode_frame` before its block loop: the length of a skippable frame, or the start of a
frame. -/
def frame_start (src : Bytes) (expect_magic : Bool) (max_output : Nat) (dict : Option Dictionary)
    (max_window : Option Nat) : Res (Nat ⊕ FrameStart) := do
  let front ← decode_front src expect_magic
  match front with
  | .skippable consumed => pure (.inl consumed)
  | .frame pos =>
    let rest ← sliceFrom src pos
    let header ← parse_frame_header rest
    let pos ← add 64 pos header.header_len
    check_window header.window_size max_window
    let cap ← frame_cap header.content_size max_output
    check_dictionary header.dictionary_id dict
    pure (.inr
      ⟨header, BlockState.start cap (min header.window_size MAX_BLOCK_SIZE) dict, pos⟩)

/-- The checks at the end of a frame with output `data`, and the position after them. -/
def frame_end (src : Bytes) (declared : Option Nat) (has_checksum : Bool) (data : Bytes)
    (pos : Nat) : Res Nat := do
  check_content_size declared data.length
  if has_checksum then verify_checksum src pos ((XxHash.xxh64 data 0).toNat % 2 ^ 32)
  else pure pos

/-- `decode_frame` from its block loop on. -/
def frame_rest (src : Bytes) (st : FrameStart) : Res DecodedFrame := do
  let p ← decode_blocks src st.state st.pos
  let data ← sliceFrom p.state.out st.state.dict_len
  let consumed ← frame_end src st.header.content_size st.header.has_checksum data p.pos
  pure ⟨data, consumed, p.state.matches_⟩

/-- The points that the block loop of a frame reaches. -/
inductive BlockAt (src : Bytes) (st : FrameStart) : BlockPos → Prop
  | start : BlockAt src st ⟨st.state, st.pos, false⟩
  | next {p p' : BlockPos} (h : BlockAt src st p) (hlast : p.last = false)
      (hdecode : decode_block src p = .ok p') : BlockAt src st p'

/-- The positions that the frame loop of a multi-frame entry point reaches, with the output budget
left there. -/
inductive FrameAt (decode : Bytes → Nat → Res DecodedFrame) (src : Bytes) (max_output : Nat) :
    Nat → Nat → Prop
  | start : FrameAt decode src max_output 0 max_output
  | next {pos budget : Nat} {frame : DecodedFrame} (h : FrameAt decode src max_output pos budget)
      (hdecode : decode (src.drop pos) budget = .ok frame) :
      FrameAt decode src max_output (pos + frame.consumed) (budget - frame.data.length)

namespace StreamingDecoder

/-- The decoder when the decode loop of `read` ends, with the buffer that an error leaves. -/
def refill_end : Nat → StreamingDecoder → StreamingDecoder
  | 0, d => d
  | n + 1, d =>
    if d.starved then
      match d.decode_next_block with
      | .ok d =>
        match d.compact with
        | .ok d => refill_end n d
        | .error _ => d
      | .error _ => { d with state := { d.state with out := d.state.buffer_after d.src d.pos } }
    else d

/-- The decoder after `read` into `n` bytes, with the buffer that an error leaves. A fault leaves
no decoder. -/
def read_end (d : StreamingDecoder) (n : Nat) : Option StreamingDecoder :=
  match d.read n with
  | .ok (.Ok _, d') => some d'
  | .ok (.Err _, d') =>
    if d.poisoned.isSome then some d'
    else some { refill_end (d.src.length + 2) d with poisoned := d'.poisoned }
  | .error _ => none

end StreamingDecoder

end ZstdPure
