import ZstdPure.Fse

/-!
# `huff.rs`: Huffman tables and literal streams
-/

namespace ZstdPure.Huff

open Outcome

/-- `HUF_TABLELOG_MAX`. -/
def HUF_TABLELOG_MAX : Nat := 12

/-- `HUF_DTABLE_SIZE`. -/
def HUF_DTABLE_SIZE : Nat := 4096

/-- `HuffEntry`. -/
structure HuffEntry where
  symbol : UInt8
  num_bits : Nat
deriving DecidableEq, Repr

/-- `HuffEntry::default`. -/
def HuffEntry.zero : HuffEntry := ⟨0, 0⟩

/-- `HuffTable`, indexed by the next `max_bits` bits of a stream. -/
structure HuffTable where
  max_bits : Nat
  entries : List HuffEntry
deriving DecidableEq, Repr

/-- `HuffTable::entry`. -/
def HuffTable.entry (t : HuffTable) (code : Nat) : Res HuffEntry :=
  get t.entries (code % HUF_DTABLE_SIZE)

/-! ## Tables -/

/-- `total_weight` of the listed weights. -/
def sum_weights (weights : List Nat) : Res Nat :=
  weights.foldlM (fun total w => do
    if HUF_TABLELOG_MAX < w then fail (.CorruptTable s!"huffman weight {w} too large")
    else if 0 < w then
      let e ← sub w 1
      let one ← shl 32 1 e
      add 32 total one
    else pure total) 0

/-- The number of symbols of each weight. -/
def count_ranks (all_weights : List Nat) : Res (List Nat) :=
  all_weights.foldlM (fun stats w => do
    let n ← get stats w
    let n ← add 32 n 1
    set stats w n) (List.replicate (HUF_TABLELOG_MAX + 1) 0)

/-- The first table index of each weight, lower weights first. -/
def rank_starts (rank_stats : List Nat) (max_bits : Nat) : Res (List Nat) := do
  let (start, _) ← (List.range' 1 max_bits).foldlM (fun s w => do
    let n ← get rank_stats w
    let e ← sub w 1
    let width ← shl 32 n e
    let next ← add 32 s.2 width
    let start ← set s.1 w s.2
    pure (start, next)) (List.replicate (HUF_TABLELOG_MAX + 1) 0, 0)
  pure start

/-- The table entries of one symbol `s` of weight `w`. -/
def fill_symbol (max_bits size : Nat) (st : List HuffEntry × List Nat) (c : Nat × Nat) :
    Res (List HuffEntry × List Nat) := do
  if c.1 = 0 then pure st
  else
    let e ← sub c.1 1
    let length ← shl 64 1 e
    let top ← add 32 max_bits 1
    let nb ← sub top c.1
    let start ← get st.2 c.1
    let stop ← add 64 start length
    if size < stop then fail (.CorruptTable "huffman table overflow")
    else
      let entries ← (List.range' start length).foldlM
        (fun es u => set es u ⟨UInt8.ofNat c.2, nb % 256⟩) st.1
      let next ← add 32 start length
      let rank_start ← set st.2 c.1 next
      pure (entries, rank_start)

/-- `build_table`: the decode table of a weight list, the last symbol's weight being implied. -/
def build_table (weights : List Nat) : Res HuffTable := do
  let total_weight ← sum_weights weights
  if total_weight = 0 then fail (.CorruptTable "huffman weights all zero")
  else
    let hb ← highbit32 total_weight
    let max_bits ← add 32 hb 1
    if HUF_TABLELOG_MAX < max_bits then
      fail (.CorruptTable s!"huffman max code length {max_bits} too large")
    else
      let full ← shl 32 1 max_bits
      let left ← sub full total_weight
      let residual ← (
        if left = 0 then pure 1
        else do
          let below ← sub left 1
          pure (left &&& below))
      if residual ≠ 0 then
        fail (.CorruptTable "huffman residual weight is not a power of two")
      else
        let hb ← highbit32 left
        let last_weight ← add 32 hb 1
        let all_weights := weights ++ [last_weight % 256]
        if 256 < all_weights.length then fail (.CorruptTable "huffman alphabet exceeds 256")
        else
          let rank_stats ← count_ranks all_weights
          let rank_start ← rank_starts rank_stats max_bits
          let size ← shl 64 1 max_bits
          let (entries, _) ← all_weights.zipIdx.foldlM (fill_symbol max_bits size)
            (List.replicate HUF_DTABLE_SIZE HuffEntry.zero, rank_start)
          pure ⟨max_bits, entries⟩

/-- The weights of the direct header form, packed two per byte, high nibble first. -/
def direct_weights (src : Bytes) (num_weights : Nat) : Res (List Nat) :=
  (List.range num_weights).mapM fun i => do
    let byte ← get src (1 + i / 2)
    pure (if i % 2 = 0 then byte.toNat / 16 else byte.toNat % 16)

/-- `read_table`: the table and the header bytes consumed. -/
def read_table (src : Bytes) : Res (HuffTable × Nat) := do
  if src.length = 0 then fail (.Truncated "huffman weight header" 1)
  else
    let b ← get src 0
    let h := b.toNat
    let (weights, hdr_bytes) ← (
      if h < 128 then
        if src.length < 1 + h then
          fail (.Truncated "fse-compressed huffman weights" (1 + h - src.length))
        else do
          let desc ← slice src 1 (1 + h)
          let nc ← Fse.read_ncount desc 6
          let table ← Fse.build_dtable nc.counts nc.max_symbol nc.table_log
          let p ← add 64 1 nc.bytes_consumed
          let bitstream ← slice src p (1 + h)
          let weights ← Fse.decompress bitstream table 256
          pure (weights, 1 + h)
      else do
        let num_weights ← sub h 127
        let bytes := (num_weights + 1) / 2
        if src.length < 1 + bytes then
          fail (.Truncated "direct huffman weights" (1 + bytes - src.length))
        else
          let weights ← direct_weights src num_weights
          pure (weights, 1 + bytes))
    let table ← build_table weights
    pure (table, hdr_bytes)

/-! ## Streams -/

/-- One symbol: peek, look up, consume. -/
def next_symbol (table : HuffTable) (br : ReverseBitReader) : Res (UInt8 × ReverseBitReader) := do
  let code ← br.peek table.max_bits
  let e ← table.entry code
  let br ← br.consume e.num_bits
  pure (e.symbol, br)

/-- The state of the loops of `decode_into`; `go` is the condition of the fast loop. -/
structure StreamState where
  br : ReverseBitReader
  i : Nat
  out : Bytes
  go : Bool
deriving DecidableEq, Repr

/-- The condition of the fast loop: `i + 4 <= count && br.reload() == Unfinished`. -/
def four_ready (count : Nat) (s : StreamState) : Res StreamState := do
  let n ← add 64 s.i 4
  if n ≤ count then
    let (status, br) ← s.br.reload
    pure { s with br, go := decide (status = .Unfinished) }
  else pure { s with go := false }

/-- Decode one symbol into the output, without a reload. -/
def push_symbol (table : HuffTable) (s : ReverseBitReader × Bytes) :
    Res (ReverseBitReader × Bytes) := do
  let (sym, br) ← next_symbol table s.1
  pure (br, s.2 ++ [sym])

/-- The body of the fast loop: four symbols. -/
def decode_four (table : HuffTable) (s : StreamState) : Res StreamState := do
  let (br, out) ← times (push_symbol table) 4 (s.br, s.out)
  let i ← add 64 s.i 4
  pure { s with br, out, i }

/-- The body of the tail loop: one symbol after a reload. -/
def decode_one_symbol (table : HuffTable) (s : ReverseBitReader × Bytes) :
    Res (ReverseBitReader × Bytes) := do
  let (_, br) ← s.1.reload
  push_symbol table (br, s.2)

/-- `decode_into` with its reader. -/
def decode_into_end (table : HuffTable) (src : Bytes) (count : Nat) (out : Bytes) :
    Res (ReverseBitReader × Bytes) := do
  let br ← ReverseBitReader.new src
  let s : StreamState := ⟨br, 0, out, false⟩
  let s ← (
    if table.max_bits ≤ 14 then do
      let s ← four_ready count s
      loop StreamState.go (fun s => do
        let s ← decode_four table s
        four_ready count s) (count + 1) s
    else pure s)
  let rest ← sub count s.i
  times (decode_one_symbol table) rest (s.br, s.out)

/-- `decode_into`. -/
def decode_into (table : HuffTable) (src : Bytes) (count : Nat) (out : Bytes) : Res Bytes := do
  let (_, out) ← decode_into_end table src count out
  pure out

/-- `decode_1stream`. -/
def decode_1stream (table : HuffTable) (src : Bytes) (regen_size : Nat) : Res Bytes :=
  decode_into table src regen_size []

/-- One of the interleaved streams: its reader and its output segment. -/
structure Lane where
  br : ReverseBitReader
  dst : Bytes
deriving DecidableEq, Repr

/-- `step!`: one symbol into `dst[idx]`, without a reload. -/
def lane_step (table : HuffTable) (idx : Nat) (l : Lane) : Res Lane := do
  let (sym, br) ← next_symbol table l.br
  let dst ← set l.dst idx sym
  pure ⟨br, dst⟩

/-- `dst[idx] = huf_one(..)`: one symbol, refilling only if needed. -/
def lane_one (table : HuffTable) (idx : Nat) (l : Lane) : Res Lane := do
  let br ← l.br.ensure table.max_bits
  lane_step table idx ⟨br, l.dst⟩

/-- Reload one lane. -/
def lane_reload (l : Lane) : Res (ReloadStatus × Lane) := do
  let (status, br) ← l.br.reload
  pure (status, { l with br })

/-- The state of a phase of the interleaved loops; `go` is the condition of the fast loop. -/
structure PhaseState where
  lanes : List Lane
  i : Nat
  go : Bool
deriving DecidableEq, Repr

/-- The condition of a fast loop: there is room for four and every reader was refilled. -/
def lanes_ready (limit : Nat) (s : PhaseState) : Res PhaseState := do
  let n ← add 64 s.i 4
  if n ≤ limit then
    let r ← s.lanes.mapM lane_reload
    pure { s with lanes := r.map Prod.snd, go := r.all fun p => p.1 = .Unfinished }
  else pure { s with go := false }

/-- The body of a fast loop: four symbols of every lane. -/
def lanes_four (table : HuffTable) (s : PhaseState) : Res PhaseState := do
  let lanes ← (List.range 4).foldlM (fun ls k => do
    let idx ← add 64 s.i k
    ls.mapM (lane_step table idx)) s.lanes
  let i ← add 64 s.i 4
  pure { s with lanes, i }

/-- Both loops of a phase: the lanes decode the indices from `i` up to `limit`. -/
def lanes_phase (table : HuffTable) (limit : Nat) (lanes : List Lane) (i : Nat) :
    Res (List Lane) := do
  let s ← lanes_ready limit ⟨lanes, i, false⟩
  let s ← loop PhaseState.go (fun s => do
    let s ← lanes_four table s
    lanes_ready limit s) (limit + 1) s
  let rest ← sub limit s.i
  (List.range' s.i rest).foldlM (fun ls idx => ls.mapM (lane_one table idx)) s.lanes

/-- `bounds`, and the segment it guards. -/
def segment (src : Bytes) (p len : Nat) : Res (Bytes × Nat) := do
  let e ← add 64 p len
  if src.length < e then fail (.Truncated "huffman 4-stream segment" (e - src.length))
  else
    let s ← slice src p e
    pure (s, e)

/-- A little-endian `u16` at `i`. -/
def read_u16 (src : Bytes) (i : Nat) : Res Nat := do
  let lo ← get src i
  let hi ← get src (i + 1)
  pure (leNat [lo, hi])

/-- `decode_4stream` with its four lanes. -/
def decode_4stream_end (table : HuffTable) (src : Bytes) (regen_size : Nat) : Res (List Lane) := do
  if src.length < 6 then fail (.Truncated "huffman 4-stream jump table" (6 - src.length))
  else
    let len1 ← read_u16 src 0
    let len2 ← read_u16 src 2
    let len3 ← read_u16 src 4
    let (s1, p) ← segment src 6 len1
    let (s2, p) ← segment src p len2
    let (s3, p) ← segment src p len3
    let s4 ← sliceFrom src p
    let seg := (regen_size + 3) / 4
    if regen_size < seg * 3 then
      fail (.Invalid "huffman 4-stream size" s!"regen {regen_size} too small for 4 streams")
    else
      let last ← sub regen_size (seg * 3)
      assert (last ≤ seg)
      let r0 ← ReverseBitReader.new s1
      let r1 ← ReverseBitReader.new s2
      let r2 ← ReverseBitReader.new s3
      let r3 ← ReverseBitReader.new s4
      let full : Bytes := List.replicate seg 0
      let lanes ← lanes_phase table last
        [⟨r0, full⟩, ⟨r1, full⟩, ⟨r2, full⟩, ⟨r3, List.replicate last 0⟩] 0
      let firsts ← lanes_phase table seg (lanes.take 3) last
      pure (firsts ++ lanes.drop 3)

/-- `decode_4stream`. -/
def decode_4stream (table : HuffTable) (src : Bytes) (regen_size : Nat) : Res Bytes := do
  let lanes ← decode_4stream_end table src regen_size
  pure (lanes.flatMap Lane.dst)

end ZstdPure.Huff
