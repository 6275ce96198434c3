import ZstdPure.Literals
import ZstdPure.Sequences

/-!
# `block.rs`: decoding blocks
-/

namespace ZstdPure

open Outcome Huff Sequences

/-- `MAX_BLOCK_SIZE`. -/
def MAX_BLOCK_SIZE : Nat := 128 * 1024

/-- A match executed in a frame: the index of its block, the bytes of its block before it, the
length of the buffer before it, and its distance. Like `Match`, a record the code does not keep. -/
structure FrameMatch where
  block : Nat
  in_block : Nat
  hist : Nat
  distance : Nat
deriving DecidableEq, Repr

/-- `BlockState`; the last two fields count the decoded blocks and record their matches. -/
structure BlockState where
  out : Bytes
  dict_len : Nat
  max_output : Nat
  block_max : Nat
  huff : Option HuffTable
  seq : SeqTables
  rep : Reps
  blocks : Nat
  matches_ : List FrameMatch
deriving DecidableEq, Repr

/-- `BlockHeader`. -/
structure BlockHeader where
  last : Bool
  block_type : Nat
  block_size : Nat
deriving DecidableEq, Repr

/-- `read_header`. -/
def read_header (src : Bytes) : Res BlockHeader := do
  if src.length < 3 then fail (.Truncated "block header" (3 - src.length))
  else
    let b0 ← get src 0
    let b1 ← get src 1
    let b2 ← get src 2
    let v := b0.toNat ||| b1.toNat <<< 8 ||| b2.toNat <<< 16
    pure ⟨v &&& 1 != 0, (v >>> 1) &&& 3, v >>> 3⟩

namespace BlockState

/-- `output_len`. -/
def output_len (s : BlockState) : Res Nat := sub s.out.length s.dict_len

/-- `check_ceiling`. -/
def check_ceiling (s : BlockState) (extra : Nat) : Res Unit := do
  let n ← s.output_len
  if usizeMax < n + extra ∨ s.max_output < n + extra then fail (.OutputTooLarge s.max_output)
  else pure ()

/-- `decode_raw`. -/
def decode_raw (s : BlockState) (data : Bytes) : Res BlockState := do
  s.check_ceiling data.length
  pure { s with out := s.out ++ data }

/-- `decode_compressed`. -/
def decode_compressed (s : BlockState) (data : Bytes) : Res BlockState := do
  let lits ← Literals.decode data s.huff
  let real_so_far ← s.output_len
  let block_cap := min s.max_output (min (real_so_far + s.block_max) usizeMax)
  let body ← sliceFrom data lits.consumed
  let r ← decode_capped body lits.literals s.out s.seq s.rep s.dict_len block_cap
  pure { s with
    out := r.out, huff := lits.cache, seq := r.tables, rep := r.rep,
    matches_ := s.matches_ ++
      r.matches_.map fun m => ⟨s.blocks, m.hist - s.out.length, m.hist, m.distance⟩ }

/-- `decode_rle`. -/
def decode_rle (s : BlockState) (byte : UInt8) (count : Nat) : Res BlockState := do
  s.check_ceiling count
  pure { s with out := s.out ++ List.replicate count byte }

/-- `decode_block_at`: the state after the block, the position after it, and whether it was the
last one. -/
def decode_block_at (s : BlockState) (src : Bytes) (pos : Nat) :
    Res (BlockState × Nat × Bool) := do
  let rest ← sliceFrom src pos
  let header ← read_header rest
  if s.block_max < header.block_size then
    fail (.Invalid "block size" s!"block {header.block_size} exceeds max {s.block_max}")
  else if usizeMax < pos + 3 then
    fail (.Invalid "block header" "block position overflows usize")
  else
    let pos := pos + 3
    let s := { s with blocks := s.blocks + 1 }
    if header.block_type = 0 then
      let stop := pos + header.block_size
      if usizeMax < stop then
        fail (.Invalid "block size" "block extends past addressable input")
      else if src.length < stop then fail (.Truncated "raw block body" (stop - src.length))
      else
        let data ← slice src pos stop
        let s ← s.decode_raw data
        pure (s, stop, header.last)
    else if header.block_type = 1 then
      if src.length ≤ pos then fail (.Truncated "RLE block byte" 1)
      else
        let b ← get src pos
        let s ← s.decode_rle b header.block_size
        let pos ← add 64 pos 1
        pure (s, pos, header.last)
    else if header.block_type = 2 then
      let stop := pos + header.block_size
      if usizeMax < stop then
        fail (.Invalid "block size" "block extends past addressable input")
      else if src.length < stop then
        fail (.Truncated "compressed block body" (stop - src.length))
      else
        let data ← slice src pos stop
        let s ← s.decode_compressed data
        pure (s, stop, header.last)
    else fail (.Invalid "block type" "reserved block type 3")

end BlockState

end ZstdPure
