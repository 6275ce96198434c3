import ZstdPure.Huff

/-!
# `literals.rs`: the literals section
-/

namespace ZstdPure.Literals

open Outcome Huff

/-- `need`. -/
def need (src : Bytes) (n : Nat) : Res Unit :=
  if src.length < n then fail (.Truncated "literals section" (n - src.length)) else pure ()

/-- The bytes `src[i]` of a header as numbers. -/
def byte (src : Bytes) (i : Nat) : Res Nat := do
  let b ← get src i
  pure b.toNat

/-- The header of a compressed literals section: regenerated and compressed size, header length,
and whether there are four streams. -/
structure CompressedHeader where
  regen : Nat
  comp : Nat
  hdr : Nat
  four : Bool
deriving DecidableEq, Repr

/-- `parse_compressed_header`. -/
def parse_compressed_header (src : Bytes) (b0 size_format : Nat) : Res CompressedHeader := do
  if size_format = 0 ∨ size_format = 1 then
    need src 3
    let b1 ← byte src 1
    let b2 ← byte src 2
    let v := b0 ||| b1 <<< 8 ||| b2 <<< 16
    pure ⟨(v >>> 4) &&& 0x3FF, (v >>> 14) &&& 0x3FF, 3, size_format == 1⟩
  else if size_format = 2 then
    need src 4
    let b1 ← byte src 1
    let b2 ← byte src 2
    let b3 ← byte src 3
    let v := b0 ||| b1 <<< 8 ||| b2 <<< 16 ||| b3 <<< 24
    pure ⟨(v >>> 4) &&& 0x3FFF, (v >>> 18) &&& 0x3FFF, 4, true⟩
  else
    need src 5
    let b1 ← byte src 1
    let b2 ← byte src 2
    let b3 ← byte src 3
    let b4 ← byte src 4
    let v := b0 ||| b1 <<< 8 ||| b2 <<< 16 ||| b3 <<< 24 ||| b4 <<< 32
    pure ⟨(v >>> 4) &&& 0x3FFFF, (v >>> 22) &&& 0x3FFFF, 5, true⟩

/-- The size and header length of a raw or RLE section. -/
def parse_raw_header (src : Bytes) (b0 size_format : Nat) : Res (Nat × Nat) := do
  if size_format = 0 ∨ size_format = 2 then pure (b0 >>> 3, 1)
  else if size_format = 1 then
    need src 2
    let b1 ← byte src 1
    pure ((b0 >>> 4) ||| b1 <<< 4, 2)
  else
    need src 3
    let b1 ← byte src 1
    let b2 ← byte src 2
    pure ((b0 >>> 4) ||| b1 <<< 4 ||| b2 <<< 12, 3)

/-- A decoded literals section: the literals, the bytes consumed and the table cache after it. -/
structure Decoded where
  literals : Bytes
  consumed : Nat
  cache : Option HuffTable
deriving DecidableEq, Repr

/-- The Huffman streams of a literals section: the table, the bytes, the number of literals, and
whether there are four streams. -/
structure Streams where
  table : HuffTable
  stream : Bytes
  regen : Nat
  four : Bool
deriving DecidableEq, Repr

/-- The streams of a compressed section, where they end, and the table cache after it: the cache is
updated as soon as the table is read. -/
def compressed_streams (src : Bytes) (cache : Option HuffTable) (b0 : Nat) :
    Res (Streams × Nat × Option HuffTable) := do
  let block_type := b0 &&& 3
  let size_format := (b0 >>> 2) &&& 3
  let h ← parse_compressed_header src b0 size_format
  let stop ← add 64 h.hdr h.comp
  need src stop
  let region ← slice src h.hdr stop
  let (stream, cache) ← (
    if block_type = 2 then do
      let (table, tbytes) ← read_table region
      let stream ← sliceFrom region tbytes
      pure (stream, some table)
    else if cache.isNone then
      fail (.Invalid "treeless literals" "no cached Huffman table to reuse")
    else pure (region, cache))
  let table ← unwrap cache
  pure (⟨table, stream, h.regen, h.four⟩, stop, cache)

/-- The literals of the streams. -/
def Streams.decode (s : Streams) : Res Bytes :=
  if s.four then decode_4stream s.table s.stream s.regen
  else decode_1stream s.table s.stream s.regen

/-- `decode`. -/
def decode (src : Bytes) (cache : Option HuffTable) : Res Decoded := do
  if src.length = 0 then fail (.Truncated "literals header" 1)
  else
    let b0 ← byte src 0
    let block_type := b0 &&& 3
    let size_format := (b0 >>> 2) &&& 3
    if block_type = 0 ∨ block_type = 1 then
      let (regen, hdr) ← parse_raw_header src b0 size_format
      if block_type = 0 then
        let stop ← add 64 hdr regen
        need src stop
        let literals ← slice src hdr stop
        pure ⟨literals, stop, cache⟩
      else
        need src (hdr + 1)
        let b ← get src hdr
        pure ⟨List.replicate regen b, hdr + 1, cache⟩
    else
      let (streams, stop, cache) ← compressed_streams src cache b0
      let literals ← streams.decode
      pure ⟨literals, stop, cache⟩

end ZstdPure.Literals
