import ZstdPure.Encode.Fse
import ZstdPure.Huff

/-!
# `encode/huff.rs`: Huffman codes and the literals section
-/

namespace ZstdPure.Encode

open Outcome Huff

def HUF_WEIGHT_MAX_LOG : Nat := 6
def MAX_CODE_LEN : Nat := 11

/-- `CodeTable`: the code of each byte, its length, and the weights of the header. -/
structure CodeTable where
  code : List Nat
  nbits : List Nat
  max_symbol : Nat
  weights : List Nat
deriving DecidableEq, Repr

/-- The histogram of some bytes. -/
def histogram (lits : Bytes) : List Nat :=
  lits.foldl (fun freq b => freq.modify b.toNat (· + 1)) (List.replicate 256 0)

/-- `can_encode_hist`. -/
def CodeTable.can_encode_hist (t : CodeTable) (freq : List Nat) : Bool :=
  (List.range 256).all fun b => freq.getD b 0 == 0 || decide (0 < t.nbits.getD b 0)

/-! ## Code lengths -/

/-- The order of the heap: `(weight, node)` pairs, the least first. -/
def heap_le (a b : Nat × Nat) : Prop := a.1 < b.1 ∨ a.1 = b.1 ∧ a.2 ≤ b.2

instance : DecidableRel heap_le := fun a b => by unfold heap_le; infer_instance

/-- The loop that merges the two least nodes until one is left: the parents, `usize::MAX` where
there is none. -/
def merge_nodes (heap : List (Nat × Nat)) (parent : List Nat) (next : Nat) : List Nat :=
  match heap with
  | (w1, a) :: (w2, b) :: rest =>
    merge_nodes (rest.orderedInsert heap_le (w1 + w2, next)) ((parent.set a next).set b next)
      (next + 1)
  | _ => parent
termination_by heap.length
decreasing_by
  rw [List.orderedInsert_length]
  simp

/-- The number of steps from node `p` up to the root; `n` bounds the walk. -/
def depth_of (parent : List Nat) : Nat → Nat → Nat
  | 0, _ => 0
  | n + 1, p => if p = usizeMax then 0 else depth_of parent n (parent.getD p usizeMax) + 1

/-- The donor search: the greatest length at most `j` that has a symbol. -/
def donor (counts : List Nat) : Nat → Nat
  | 0 => 0
  | j + 1 => if counts.getD (j + 1) 0 = 0 then donor counts j else j + 1

/-- One repair step: two codes of length `i` move up, under a shorter code that gets longer. -/
def repair_step (i : Nat) (counts : List Nat) : List Nat :=
  let j := donor counts (i - 2)
  (((counts.modify i (· - 2)).modify (i - 1) (· + 1)).modify (j + 1) (· + 2)).modify j (· - 1)

/-- `while counts[i] > 0`; `n` bounds the iterations. -/
def repair_length (i : Nat) : Nat → List Nat → List Nat
  | 0, counts => counts
  | n + 1, counts =>
    if 0 < counts.getD i 0 then repair_length i n (repair_step i counts) else counts

/-- The repair of all lengths above the limit, the longest first. -/
def limit_lengths (maxlen : Nat) (counts : List Nat) : List Nat :=
  ((List.range' (MAX_CODE_LEN + 1) (maxlen - MAX_CODE_LEN)).reverse).foldl
    (fun counts i => repair_length i (counts.getD i 0) counts) counts

/-- The depths of the leaves of the Huffman tree of these weights. -/
def leaf_depths (weights : List Nat) : List Nat :=
  let m := weights.length
  let heap := (weights.zipIdx).insertionSort heap_le
  let parent := merge_nodes heap (List.replicate (2 * m) usizeMax) m
  (List.range m).map fun i => depth_of parent (2 * m) (parent.getD i usizeMax)

/-- The symbols in the order they are given code lengths: the most frequent first. -/
def by_frequency (freq present : List Nat) : List Nat :=
  present.mergeSort fun x y =>
    decide (freq.getD y 0 < freq.getD x 0 ∨ freq.getD x 0 = freq.getD y 0 ∧ x ≤ y)

/-- `code_lengths`. -/
def code_lengths (freq : List Nat) : List Nat :=
  let present := (List.range 256).filter fun s => 0 < freq.getD s 0
  let depth := leaf_depths (present.map fun s => freq.getD s 0)
  let counts := depth.foldl (fun counts d => counts.modify d (· + 1)) (List.replicate 64 0)
  let maxlen := depth.foldl max 0
  let counts := if MAX_CODE_LEN < maxlen then limit_lengths maxlen counts else counts
  let lens := ((counts.take (MAX_CODE_LEN + 1)).zipIdx.drop 1).flatMap fun c =>
    List.replicate c.1 c.2
  ((by_frequency freq present).zip lens).foldl (fun lengths c => lengths.set c.1 c.2)
    (List.replicate 256 0)

/-! ## Codes -/

/-- The highest symbol with a nonzero length. -/
def last_symbol (lengths : List Nat) : Nat :=
  ((List.range 256).filter fun s => 0 < lengths.getD s 0).getLastD 0

/-- The codes read back from the live entries of a decode table: the first index that carries a
symbol gives its code. -/
def invert_entry (max_bits : Nat) (st : List Nat × List Nat) (c : HuffEntry × Nat) :
    List Nat × List Nat :=
  let s := c.1.symbol.toNat
  if c.1.num_bits ≠ 0 ∧ st.2.getD s 0 = 0 then
    (st.1.set s (c.2 >>> (max_bits - c.1.num_bits)), st.2.set s c.1.num_bits)
  else st

/-- `HuffTable::entries`. -/
def live_entries (t : HuffTable) : List HuffEntry := t.entries.take (2 ^ t.max_bits)

/-- `build_code_table`. -/
def build_code_table (lengths : List Nat) : Res CodeTable := do
  let max_bits := lengths.foldl max 0
  let max_symbol := last_symbol lengths
  let weights := (lengths.take max_symbol).map fun l => if 0 < l then max_bits + 1 - l else 0
  let table ← build_table weights
  let (code, nbits) := (live_entries table).zipIdx.foldl (invert_entry table.max_bits)
    (List.replicate 256 0, List.replicate 256 0)
  pure ⟨code, nbits, max_symbol, weights⟩

/-- A table there can be: its fields are private, and only `build_code_table` fills them. -/
def CodeTable.Built (t : CodeTable) : Prop :=
  ∃ lengths, lengths.length = 256 ∧ build_code_table lengths = .ok t

/-- `code_table_from_huff`. -/
def code_table_from_huff (ht : HuffTable) : Res CodeTable :=
  build_code_table ((live_entries ht).foldl
    (fun lengths e => lengths.set e.symbol.toNat e.num_bits) (List.replicate 256 0))

/-! ## Streams -/

/-- `encode_stream`: the symbols in reverse order. -/
def encode_stream (table : CodeTable) (lits : Bytes) : Bytes :=
  (lits.reverse.foldl (fun (bw : BitWriter) b =>
    bw.add (table.code.getD b.toNat 0) (table.nbits.getD b.toNat 0)) BitWriter.new).finish

/-- `encode_4stream`. -/
def encode_4stream (table : CodeTable) (lits : Bytes) : Res Bytes :=
  let n := lits.length
  let seg := (n + 3) / 4
  if n < seg * 3 then
    fail (.Invalid "huffman 4-stream" s!"regen {n} too small for 4 streams")
  else
    let s1 := encode_stream table (lits.take seg)
    let s2 := encode_stream table ((lits.drop seg).take seg)
    let s3 := encode_stream table ((lits.drop (2 * seg)).take seg)
    let s4 := encode_stream table (lits.drop (3 * seg))
    if 0xFFFF < s1.length ∨ 0xFFFF < s2.length ∨ 0xFFFF < s3.length then
      fail (.Invalid "huffman 4-stream" "sub-stream exceeds 64 KiB jump-table field")
    else
      pure (leBytes 2 s1.length ++ leBytes 2 s2.length ++ leBytes 2 s3.length ++ s1 ++ s2 ++ s3 ++
        s4)

/-- The weights of the direct header, packed two per byte, high nibble first. -/
def pack_weights : List Nat → Bytes
  | [] => []
  | [hi] => [UInt8.ofNat (hi <<< 4)]
  | hi :: lo :: rest => UInt8.ofNat (hi <<< 4 ||| lo) :: pack_weights rest

/-- `write_weight_header_direct`. -/
def write_weight_header_direct (table : CodeTable) : Bytes :=
  UInt8.ofNat (127 + table.max_symbol) :: pack_weights table.weights

/-- `write_weight_header_fse`. -/
def write_weight_header_fse (table : CodeTable) : Res Bytes :=
  let weights := table.weights
  let freq := weights.foldl (fun freq w => freq.modify w (· + 1)) (List.replicate 256 0)
  let max_w := last_symbol freq
  let num_present := freq.countP (0 < ·)
  if num_present < 2 then
    fail (.Invalid "huffman fse weights" "uniform weights have no FSE distribution")
  else
    let table_log := choose_table_log HUF_WEIGHT_MAX_LOG num_present
    let norm := normalize_counts freq weights.length max_w table_log
    let ncount := write_ncount norm max_w table_log
    let ctable := build_ctable norm max_w table_log
    let bitstream := encode ctable weights
    let comp := ncount.length + bitstream.length
    if 128 ≤ comp then
      fail (.Invalid "huffman fse weights" s!"compressed weights {comp} >= 128-byte header limit")
    else pure (UInt8.ofNat comp :: (ncount ++ bitstream))

/-- `write_weight_header`. -/
def write_weight_header (table : CodeTable) : Res Bytes :=
  if table.max_symbol ≤ 128 then pure (write_weight_header_direct table)
  else write_weight_header_fse table

/-! ## The literals section -/

/-- `size_format`: the format and the header length. -/
def size_format (four : Bool) (regen comp : Nat) : Option (Nat × Nat) :=
  if !four then if regen ≤ 0x3FF ∧ comp ≤ 0x3FF then some (0, 3) else none
  else if regen ≤ 0x3FF ∧ comp ≤ 0x3FF then some (1, 3)
  else if regen ≤ 0x3FFF ∧ comp ≤ 0x3FFF then some (2, 4)
  else if regen ≤ 0x3FFFF ∧ comp ≤ 0x3FFFF then some (3, 5)
  else none

/-- `write_compressed_lit_header`. -/
def write_compressed_lit_header (block_type : Nat) (four : Bool) (regen comp : Nat) : Res Bytes :=
  match size_format four regen comp with
  | none =>
    fail (.Invalid "compressed literals header"
      s!"regen {regen} / comp {comp} exceed 18-bit fields")
  | some (0, _) => pure (leBytes 3 (block_type ||| regen <<< 4 ||| comp <<< 14))
  | some (1, _) => pure (leBytes 3 (block_type ||| 1 <<< 2 ||| regen <<< 4 ||| comp <<< 14))
  | some (2, _) => pure (leBytes 4 (block_type ||| 2 <<< 2 ||| regen <<< 4 ||| comp <<< 18))
  | some _ => pure (leBytes 5 (block_type ||| 3 <<< 2 ||| regen <<< 4 ||| comp <<< 22))

/-- Whether the four-stream form is used for `n` literals. -/
def four_streams (n : Nat) : Bool := decide (256 ≤ n ∧ (n + 3) / 4 * 3 ≤ n)

/-- `encode_lit_streams`. -/
def encode_lit_streams (table : CodeTable) (literals : Bytes) : Res (Bool × Bytes) := do
  let four := four_streams literals.length
  let streams ← (
    if four then encode_4stream table literals else pure (encode_stream table literals))
  pure (four, streams)

/-- `build_fresh_table`: the table and its weight header, if there is one. -/
def build_fresh_table (freq : List Nat) : Option (CodeTable × Bytes) :=
  if freq.countP (0 < ·) < 2 then none
  else
    match build_code_table (code_lengths freq) with
    | .ok table =>
      match write_weight_header table with
      | .ok weight_header => some (table, weight_header)
      | .error _ => none
    | .error _ => none

/-- `assemble_compressed_section`. -/
def assemble_compressed_section (table : CodeTable) (weight_header lits : Bytes) : Res Bytes := do
  let (four, streams) ← encode_lit_streams table lits
  let payload := weight_header ++ streams
  let header ← write_compressed_lit_header 2 four lits.length payload.length
  pure (header ++ payload)

/-- `build_compressed_section`: the section, and the table it built. -/
def build_compressed_section (literals : Bytes) : Res (Bytes × CodeTable) :=
  match build_fresh_table (histogram literals) with
  | none => fail (.Invalid "huffman literals" "need >= 2 distinct symbols / unbuildable table")
  | some (table, weight_header) => do
    let section_ ← assemble_compressed_section table weight_header literals
    pure (section_, table)

/-- `write_literals_section`. -/
def write_literals_section (literals : Bytes) : Res Bytes := do
  let (section_, _) ← build_compressed_section literals
  pure section_

/-- `build_treeless_section`. -/
def build_treeless_section (literals : Bytes) (table : CodeTable) : Res Bytes := do
  let (four, streams) ← encode_lit_streams table literals
  let header ← write_compressed_lit_header 3 four literals.length streams.length
  pure (header ++ streams)

/-- The length of one stream in `streams_byte_len`. -/
def stream_byte_len (table : CodeTable) (lits : Bytes) : Nat :=
  ((lits.map fun b => table.nbits.getD b.toNat 0).sum + 1 + 7) / 8

/-- `streams_byte_len`. -/
def streams_byte_len (table : CodeTable) (lits : Bytes) : Option (Bool × Nat) :=
  let n := lits.length
  let four := four_streams n
  if four then
    let seg := (n + 3) / 4
    let s1 := stream_byte_len table (lits.take seg)
    let s2 := stream_byte_len table ((lits.drop seg).take seg)
    let s3 := stream_byte_len table ((lits.drop (2 * seg)).take seg)
    let s4 := stream_byte_len table (lits.drop (3 * seg))
    if 0xFFFF < s1 ∨ 0xFFFF < s2 ∨ 0xFFFF < s3 then none else some (true, 6 + s1 + s2 + s3 + s4)
  else some (false, stream_byte_len table lits)

/-- `compressed_header_len`. -/
def compressed_header_len (four : Bool) (regen comp : Nat) : Option Nat :=
  (size_format four regen comp).map Prod.snd

/-- `write_raw_literals`. -/
def write_raw_literals (lits : Bytes) : Bytes :=
  let regen := lits.length
  let header : Bytes :=
    if regen < 32 then [UInt8.ofNat (regen <<< 3)]
    else if regen < 4096 then
      [UInt8.ofNat (1 <<< 2 ||| (regen &&& 0xF) <<< 4), UInt8.ofNat (regen >>> 4)]
    else
      [UInt8.ofNat (3 <<< 2 ||| (regen &&& 0xF) <<< 4), UInt8.ofNat (regen >>> 4),
        UInt8.ofNat (regen >>> 12)]
  header ++ lits

/-- `raw_header_len`. -/
def raw_header_len (regen : Nat) : Nat := if regen < 32 then 1 else if regen < 4096 then 2 else 3

/-- The size of a compressed section with this table and weight header. -/
def compressed_size (lits : Bytes) (fresh : CodeTable × Bytes) : Option Nat := do
  let (four, slen) ← streams_byte_len fresh.1 lits
  let payload := fresh.2.length + slen
  let header ← compressed_header_len four lits.length payload
  pure (header + payload)

/-- The size of a treeless section with this table, if it has a code for every byte. -/
def treeless_size (lits : Bytes) (freq : List Nat) (t : CodeTable) : Option Nat :=
  if !t.can_encode_hist freq then none
  else do
    let (four, slen) ← streams_byte_len t lits
    let header ← compressed_header_len four lits.length slen
    pure (header + slen)

/-- `write_literals_auto`: the section, and the table that is current after it. -/
def write_literals_auto (lits : Bytes) (prev : Option CodeTable) : Bytes × Option CodeTable :=
  let freq := histogram lits
  let fresh := build_fresh_table freq
  let raw_size := lits.length + raw_header_len lits.length
  let compressed := fresh.filter fun f => (compressed_size lits f).any (· < raw_size)
  let best := (compressed.bind (compressed_size lits)).getD raw_size
  let treeless := prev.filter fun t => (treeless_size lits freq t).any (· < best)
  match treeless, compressed with
  | some t, _ =>
    match build_treeless_section lits t with
    | .ok bytes => (bytes, prev)
    | .error _ => (write_raw_literals lits, prev)
  | none, some (table, weight_header) =>
    match assemble_compressed_section table weight_header lits with
    | .ok bytes => (bytes, some table)
    | .error _ => (write_raw_literals lits, prev)
  | none, none => (write_raw_literals lits, prev)

end ZstdPure.Encode
