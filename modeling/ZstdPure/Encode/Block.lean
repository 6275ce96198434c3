import ZstdPure.Encode.Huff
import ZstdPure.Encode.Sequences

/-!
# `encode/block.rs`: writing blocks
-/

namespace ZstdPure.Encode

open Sequences

/-- `BLOCK_SIZE_MAX`. -/
def BLOCK_SIZE_MAX : Nat := 128 * 1024

/-- `BlockType`. -/
inductive BlockType where
  | Raw
  | Rle
  | Compressed
deriving DecidableEq, Repr

/-- The two bits of a block type. -/
def BlockType.bits : BlockType → Nat
  | .Raw => 0
  | .Rle => 1
  | .Compressed => 2

/-- `write_block_header`. -/
def write_block_header (last : Bool) (block_type : BlockType) (block_size : Nat) : Bytes :=
  leBytes 3 (last.toNat ||| block_type.bits <<< 1 ||| block_size <<< 3)

/-- `write_raw_block`. -/
def write_raw_block (last : Bool) (chunk : Bytes) : Bytes :=
  write_block_header last .Raw chunk.length ++ chunk

/-- `write_rle_block`. -/
def write_rle_block (last : Bool) (byte : UInt8) (count : Nat) : Bytes :=
  write_block_header last .Rle count ++ [byte]

/-- `write_store_block`. -/
def write_store_block (last : Bool) (chunk : Bytes) : Bytes :=
  match chunk with
  | b :: rest =>
    if rest.all (· == b) then write_rle_block last b chunk.length else write_raw_block last chunk
  | [] => write_raw_block last chunk

/-- `write_huffman_literals_block`: the literals of the whole block, and no sequence. -/
def write_huffman_literals_block (last : Bool) (literals : Bytes) : Res Bytes := do
  let body ← write_literals_section literals
  let body := body ++ [0]
  pure (write_block_header last .Compressed body.length ++ body)

/-- The entropy tables of the previous compressed block. -/
structure EncTables where
  seq : SeqCTables
  lit : Option CodeTable
deriving DecidableEq, Repr

/-- No tables yet. -/
def EncTables.default : EncTables := ⟨SeqCTables.default, none⟩

/-- `EncState`. -/
structure EncState where
  rep : Reps
  tables : EncTables
deriving DecidableEq, Repr

/-- The state at the start of a frame. -/
def EncState.start : EncState := ⟨⟨1, 4, 8⟩, EncTables.default⟩

/-- The sequences and the literals of a block. -/
structure Parse where
  seqs : List Seq
  literals : Bytes
deriving DecidableEq, Repr

/-- A parse with the repeat offsets after it. -/
structure Candidate where
  parse : Parse
  rep : Reps
deriving DecidableEq, Repr

/-- `Parsed`: the alternatives have none of their own. -/
structure Parsed where
  primary : Candidate
  alts : List Candidate
deriving DecidableEq, Repr

/-- `emit_one`: one compressed block, and the tables it used. -/
def emit_one (last : Bool) (p : Parse) (prev : EncTables) : Bytes × EncTables :=
  let (lits, lit) := write_literals_auto p.literals prev.lit
  let (body, seq) := write_sequences p.seqs prev.seq
  (write_block_header last .Compressed (lits ++ body).length ++ (lits ++ body), ⟨seq, lit⟩)

/-- The bytes that a sequence regenerates. -/
def Seq.span (s : Seq) : Nat := s.lit_len + s.match_len

/-- The loop that looks for the split point: the first index where half of `total` is reached, `0`
when there is none. -/
def split_from (total : Nat) : Nat → Nat → List Seq → Nat
  | _, _, [] => 0
  | acc, i, s :: seqs =>
    if total ≤ acc * 2 then i else split_from total (acc + s.span) (i + 1) seqs

/-- The split point of some sequences. -/
def split_point (seqs : List Seq) : Nat := split_from (seqs.map Seq.span).sum 0 0 seqs

/-- `emit_split`. -/
def emit_split (last : Bool) (p : Parse) (prev : EncTables) : Nat → Bytes × EncTables
  | 0 => emit_one last p prev
  | depth + 1 =>
    let whole := emit_one last p prev
    let k := split_point p.seqs
    if p.seqs.length < 2 ∨ k = 0 ∨ p.seqs.length ≤ k then whole
    else
      let la := ((p.seqs.take k).map Seq.lit_len).sum
      let a := emit_split false ⟨p.seqs.take k, p.literals.take la⟩ prev depth
      let b := emit_split last ⟨p.seqs.drop k, p.literals.drop la⟩ a.2 depth
      if a.1.length + b.1.length < whole.1.length then (a.1 ++ b.1, b.2) else whole

/-- A candidate with its encoding. -/
structure Emitted where
  bytes : Bytes
  state : EncState
deriving DecidableEq, Repr

/-- The encoding of one candidate. -/
def emit_candidate (last : Bool) (prev : EncTables) (depth : Nat) (c : Candidate) : Emitted :=
  let (bytes, tables) := emit_split last c.parse prev depth
  ⟨bytes, ⟨c.rep, tables⟩⟩

/-- `emit_and_pick`: the smallest encoding of the candidates, the first one on ties. -/
def emit_and_pick (last : Bool) (parsed : Parsed) (prev : EncTables) (depth : Nat) : Emitted :=
  parsed.alts.foldl (fun best alt =>
    let e := emit_candidate last prev depth alt
    if e.bytes.length < best.bytes.length then e else best)
    (emit_candidate last prev depth parsed.primary)

/-- The choice of the block loops: the compressed encoding if it is strictly smaller than the
stored one, else the stored one with the state untouched. -/
def choose_block (store : Bytes) (state : EncState) (comp : Emitted) : Emitted :=
  if comp.bytes.length < store.length then comp else ⟨store, state⟩

end ZstdPure.Encode
