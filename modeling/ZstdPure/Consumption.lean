import ZstdPure.Block

/-!
# Where the bit readers stop

The decoders of a block drop their readers when they are done. Here they return them, and the
streams the readers were made for. -/

namespace ZstdPure

open Outcome

/-- `finished`. -/
def ReverseBitReader.finished (r : ReverseBitReader) : Bool := r.ptr == 0 && r.bits_consumed == 64

namespace Literals

open Huff

/-- `decode` up to the Huffman streams; `none` for a raw or an RLE section. -/
def literal_streams (src : Bytes) (cache : Option HuffTable) : Res (Option Streams) := do
  if src.length = 0 then fail (.Truncated "literals header" 1)
  else
    let b0 ← byte src 0
    let block_type := b0 &&& 3
    if block_type = 0 ∨ block_type = 1 then pure none
    else
      let (streams, _, _) ← compressed_streams src cache b0
      pure (some streams)

/-- The literals of the streams, with the readers at their end. -/
def Streams.decode_end (s : Streams) : Res (Bytes × List ReverseBitReader) :=
  if s.four then do
    let lanes ← decode_4stream_end s.table s.stream s.regen
    pure (lanes.flatMap Lane.dst, lanes.map Lane.br)
  else do
    let (br, out) ← decode_into_end s.table s.stream s.regen []
    pure (out, [br])

/-- The readers at the end of the streams, if there are any. -/
def stream_ends : Option Streams → Res (List ReverseBitReader)
  | none => pure []
  | some s => do
    let (_, ends) ← s.decode_end
    pure ends

end Literals

namespace Sequences

open Fse

/-- The reader at the end of the sequences, if there are any. -/
def sequences_end (literals out : Bytes) (rep : Reps) (dict_len max_output : Nat) :
    Option SeqSource → Res (Option ReverseBitReader)
  | none => pure none
  | some q => do
    let plan ← q.plan
    let s ← exec_loop (plan.env literals dict_len max_output) plan.nb_seq (plan.start out rep)
    pure (some s.br)

end Sequences

namespace BlockState

open Literals Sequences

/-- The readers of a compressed block at their end: those of its Huffman streams, and that of its
sequences if there are any. -/
def decode_compressed_end (s : BlockState) (data : Bytes) :
    Res (List ReverseBitReader × Option ReverseBitReader) := do
  let lits ← Literals.decode data s.huff
  let huff ← literal_streams data s.huff
  let ends ← stream_ends huff
  let real_so_far ← s.output_len
  let block_cap := min s.max_output (min (real_so_far + s.block_max) usizeMax)
  let body ← sliceFrom data lits.consumed
  let source ← sequences_source body s.seq
  let seq_end ← sequences_end lits.literals s.out s.rep s.dict_len block_cap source
  pure (ends, seq_end)

end BlockState

end ZstdPure
