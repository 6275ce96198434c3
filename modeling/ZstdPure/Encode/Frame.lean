import ZstdPure.Encode.Finder
import ZstdPure.Frame
import ZstdPure.Lib.Chunks

/-!
# `encode/frame.rs`, `encode/options.rs`: whole frames
-/

namespace ZstdPure.Encode

open Sequences

/-- `STORE_WINDOW_LOG`. -/
def STORE_WINDOW_LOG : Nat := 17

def BLOCK_SPLIT_DEPTH : Nat := 4

/-- `split_depth_for`. -/
def split_depth_for (strategy : Strategy) : Nat :=
  if Strategy.Btopt.rank ≤ strategy.rank then BLOCK_SPLIT_DEPTH
  else if Strategy.BtLazy2.rank ≤ strategy.rank then 2
  else 0

/-! ## Headers -/

/-- The flag and the width of the dictionary id field. -/
def dict_id_field (dict_id : Nat) : Nat × Nat :=
  if dict_id = 0 then (0, 0)
  else if dict_id ≤ 0xFF then (1, 1)
  else if dict_id ≤ 0xFFFF then (2, 2)
  else (3, 4)

/-- `write_frame_header`. -/
def write_frame_header (content_size : Nat) (checksum : Bool) (window_log dict_id : Nat) : Bytes :=
  let fcs_flag := if content_size ≤ 2 ^ 32 - 1 then 2 else 3
  let (dict_id_flag, dict_id_size) := dict_id_field dict_id
  let fhd := fcs_flag <<< 6 ||| checksum.toNat <<< 2 ||| dict_id_flag
  [UInt8.ofNat fhd, UInt8.ofNat ((window_log - 10) <<< 3)] ++ leBytes dict_id_size dict_id ++
    leBytes (if fcs_flag = 2 then 4 else 8) content_size

/-- `write_frame_header_streaming`. -/
def write_frame_header_streaming (checksum : Bool) (window_log : Nat) : Bytes :=
  [UInt8.ofNat (checksum.toNat <<< 2), UInt8.ofNat ((window_log - 10) <<< 3)]

/-- The magic number, unless the frame is magicless. -/
def magic_bytes (expect_magic : Bool) : Bytes := if expect_magic then leBytes 4 ZSTD_MAGIC else []

/-- The content checksum, if the frame has one. -/
def checksum_bytes (checksum : Bool) (data : Bytes) : Bytes :=
  if checksum then leBytes 4 ((XxHash.xxh64 data 0).toNat % 2 ^ 32) else []

/-! ## `compress_store` -/

/-- A block loop that writes the chunks one by one: the last chunk ends the frame. -/
def write_chunks (write : Bool → Bytes → Bytes) : List Bytes → Bytes
  | [] => []
  | [chunk] => write true chunk
  | chunk :: rest => write false chunk ++ write_chunks write rest

/-- The block loop of `compress_store`. -/
def store_blocks (chunks : List Bytes) : Bytes := write_chunks write_store_block chunks

/-- `compress_store`. -/
def compress_store (data : Bytes) (checksum expect_magic : Bool) : Bytes :=
  magic_bytes expect_magic ++ write_frame_header data.length checksum STORE_WINDOW_LOG 0 ++
    (if data.isEmpty then write_raw_block true [] else store_blocks (data.chunks BLOCK_SIZE_MAX)) ++
    checksum_bytes checksum data

/-! ## `compress_huffman_literals` -/

/-- The loop of `at_least_two_distinct`: `first` is the first byte, and `seen` marks it. -/
def two_distinct_from : Option UInt8 → List Bool → Bytes → Bool
  | _, _, [] => false
  | none, seen, b :: chunk => two_distinct_from (some b) (seen.set b.toNat true) chunk
  | some f, seen, b :: chunk =>
    if b != f && !seen.getD b.toNat false then true else two_distinct_from (some f) seen chunk

/-- `at_least_two_distinct`. -/
def at_least_two_distinct (chunk : Bytes) : Bool :=
  two_distinct_from none (List.replicate 256 false) chunk

/-- One block of `compress_huffman_literals`: the literals in Huffman codes where that is shorter.
-/
def huffman_or_store_block (last : Bool) (chunk : Bytes) : Bytes :=
  let store := write_store_block last chunk
  if at_least_two_distinct chunk then
    match write_huffman_literals_block last chunk with
    | .ok huff => if huff.length < store.length then huff else store
    | .error _ => store
  else store

/-- `compress_huffman_literals`. -/
def compress_huffman_literals (data : Bytes) (checksum expect_magic : Bool) : Bytes :=
  magic_bytes expect_magic ++ write_frame_header data.length checksum STORE_WINDOW_LOG 0 ++
    (if data.isEmpty then write_raw_block true []
      else write_chunks huffman_or_store_block (data.chunks BLOCK_SIZE_MAX)) ++
    checksum_bytes checksum data

/-! ## Blocks -/

/-- What the blocks of a frame are written with. -/
structure BlockEnv where
  cast : Nat → Int
  max_offset : Nat
  split_depth : Nat

/-- The state that is threaded through the blocks of a frame. -/
structure Session where
  finder : Finder
  ldm : Option LdmState
  state : EncState
deriving DecidableEq, Repr

/-- `write_compressed_block`. -/
def write_compressed_block (e : BlockEnv) (last : Bool) (data : Bytes) (start stop : Nat)
    (finder : Finder) (state : EncState) : Emitted × Finder :=
  let (parsed, finder) := finder.parse e.cast data start stop e.max_offset state.rep
  (emit_and_pick last parsed state.tables e.split_depth, finder)

/-- `write_compressed_block_ldm`. -/
def write_compressed_block_ldm (e : BlockEnv) (last : Bool) (data : Bytes) (start stop : Nat)
    (finder : Finder) (state : EncState) (ldm : List LdmSeq) : Emitted × Finder :=
  let (c, finder) := parse_with_ldm e.cast finder data start stop e.max_offset state.rep ldm
  (emit_candidate last state.tables e.split_depth c, finder)

/-- The finder's reach and the advertised window; they differ under long-distance matching. -/
structure FrameEnv where
  cast : Nat → Int
  regular_reach : Nat
  max_offset : Nat
  split_depth : Nat

/-- One block of `data[start..stop]`, with long-distance matches if the session has an index. -/
def encode_block (e : FrameEnv) (last : Bool) (data : Bytes) (start stop : Nat) (s : Session) :
    Bytes × Session :=
  let store := write_store_block last (range_of data start stop)
  match s.ldm with
  | some ldm =>
    let (found, ldm) := ldm.generate e.cast data start stop e.regular_reach e.max_offset
    let (comp, finder) := write_compressed_block_ldm ⟨e.cast, e.regular_reach, e.split_depth⟩ last
      data start stop s.finder s.state found
    let chosen := choose_block store s.state comp
    (chosen.bytes, ⟨finder, some ldm, chosen.state⟩)
  | none =>
    let (comp, finder) := write_compressed_block ⟨e.cast, e.max_offset, e.split_depth⟩ last
      data start stop s.finder s.state
    let chosen := choose_block store s.state comp
    (chosen.bytes, ⟨finder, none, chosen.state⟩)

/-- The block loop over `data[start..]`; `ends_frame` says whether its last block is the last one of
the frame. -/
def encode_blocks (e : FrameEnv) (ends_frame : Bool) (data : Bytes) (start : Nat) (s : Session) :
    Bytes :=
  if start < data.length then
    let stop := min (start + BLOCK_SIZE_MAX) data.length
    let (bytes, s) := encode_block e (ends_frame && stop == data.length) data start stop s
    bytes ++ encode_blocks e ends_frame data stop s
  else []
termination_by data.length - start
decreasing_by
  have : 0 < BLOCK_SIZE_MAX := by decide
  omega

/-- The blocks of a frame over `data[start..]`: at least one. -/
def frame_blocks (e : FrameEnv) (data : Bytes) (start : Nat) (s : Session) : Bytes :=
  if data.length ≤ start then write_raw_block true [] else encode_blocks e true data start s

/-! ## `compress` -/

/-- The environment of a frame without long-distance matching. -/
def regular_env (params : CParams) : FrameEnv :=
  ⟨asI32, 2 ^ params.window_log, 2 ^ params.window_log, split_depth_for params.strategy⟩

/-- `compress_with_params`. -/
def compress_with_params (data : Bytes) (params : CParams) (checksum expect_magic : Bool) : Bytes :=
  magic_bytes expect_magic ++ write_frame_header data.length checksum params.window_log 0 ++
    frame_blocks (regular_env params) data 0 ⟨Finder.new params, none, EncState.start⟩ ++
    checksum_bytes checksum data

/-- `compress`. -/
def compress (data : Bytes) (level : Int) (checksum expect_magic : Bool) : Bytes :=
  compress_with_params data (params_for_level level data.length) checksum expect_magic

/-! ## `compress_long` -/

/-- The environment of a frame with long-distance matching. -/
def long_env (params : CParams) (regular_reach : Nat) : FrameEnv :=
  ⟨asI32, regular_reach, 2 ^ params.window_log, split_depth_for params.strategy⟩

/-- `compress_long_with_params`. -/
def compress_long_with_params (data : Bytes) (params : CParams) (regular_reach : Nat)
    (checksum expect_magic : Bool) : Bytes :=
  magic_bytes expect_magic ++ write_frame_header data.length checksum params.window_log 0 ++
    frame_blocks (long_env params regular_reach) data 0
      ⟨Finder.new params, some (LdmState.new params.window_log), EncState.start⟩ ++
    checksum_bytes checksum data

/-- `compress_long`. -/
def compress_long (data : Bytes) (level : Int) (checksum expect_magic : Bool) : Bytes :=
  compress_long_with_params data (params_for_level_ldm level data.length)
    (2 ^ (params_for_level level data.length).window_log) checksum expect_magic

/-! ## `compress_with_dict` -/

/-- The encoding table of normalized counts of the dictionary. -/
def dict_ctable (nc : NormCounts) : FseCTable := build_ctable nc.counts nc.max_symbol nc.table_log

/-- `Result::ok`. -/
def result_ok {α : Type} : Res α → Option α
  | .ok a => some a
  | _ => none

/-- The state before the first block: seeded by the dictionary's entropy section, if it has one. -/
def dict_state (dict : Dictionary) : EncState :=
  match dict.entropy with
  | some e =>
    ⟨e.rep, ⟨⟨some (dict_ctable e.ll_nc), some (dict_ctable e.of_nc), some (dict_ctable e.ml_nc)⟩,
      result_ok (code_table_from_huff e.huff)⟩⟩
  | none => EncState.start

/-- `compress_with_dict`. -/
def compress_with_dict (data : Bytes) (dict : Dictionary) (level : Int)
    (checksum expect_magic : Bool) : Bytes :=
  let dict_len := dict.content.length
  let params := params_for_level_with_dict level data.length dict_len
  let combined := dict.content ++ data
  let finder := (Finder.new params).prime asI32 combined dict_len (2 ^ params.window_log)
  magic_bytes expect_magic ++ write_frame_header data.length checksum params.window_log dict.id ++
    frame_blocks (regular_env params) combined dict_len ⟨finder, none, dict_state dict⟩ ++
    checksum_bytes checksum data

/-! ## `encode/options.rs` -/

/-- `CompressOptions`. -/
structure CompressOptions where
  level : Int
  window_log : Option Nat
  hash_log : Option Nat
  chain_log : Option Nat
  search_log : Option Nat
  min_match : Option Nat
  target_length : Option Nat
  strategy : Option Strategy
  checksum : Bool
  magic : Bool
  long_distance : Bool
deriving DecidableEq, Repr

/-- `CompressOptions::new`. -/
def CompressOptions.new (level : Int) : CompressOptions :=
  ⟨level, none, none, none, none, none, none, none, false, true, false⟩

/-- `CompressOptions::resolve`. -/
def CompressOptions.resolve (opts : CompressOptions) (src_size : Nat) : CParams :=
  let p :=
    if opts.long_distance then params_for_level_ldm opts.level src_size
    else params_for_level opts.level src_size
  let win_max := if opts.long_distance then LDM_MAX_WINDOW_LOG else MAX_WINDOW_LOG
  { window_log := (opts.window_log.map fun v => clamp v MIN_WINDOW_LOG win_max).getD p.window_log
    hash_log := opts.hash_log.getD p.hash_log
    chain_log := opts.chain_log.getD p.chain_log
    search_log := opts.search_log.getD p.search_log
    min_match := (opts.min_match.map fun v => clamp v 3 6).getD p.min_match
    target_length := opts.target_length.getD p.target_length
    strategy := opts.strategy.getD p.strategy }

/-- `compress_with_options`. -/
def compress_with_options (data : Bytes) (opts : CompressOptions) : Bytes :=
  let params := opts.resolve data.length
  if opts.long_distance then
    -- an override may have shrunk the window below the one of the level
    let level_reach := 2 ^ (params_for_level opts.level data.length).window_log
    compress_long_with_params data params (min level_reach (2 ^ params.window_log)) opts.checksum
      opts.magic
  else compress_with_params data params opts.checksum opts.magic

end ZstdPure.Encode
