import ZstdPure.Huff
import ZstdPure.Sequences

/-!
# `dict.rs`: dictionaries
-/

namespace ZstdPure

open Outcome Huff Sequences

/-- A little-endian `u32` at `i`. -/
def read_u32_le (src : Bytes) (i : Nat) : Res Nat := do
  let b0 ← get src i
  let b1 ← get src (i + 1)
  let b2 ← get src (i + 2)
  let b3 ← get src (i + 3)
  pure (leNat [b0, b1, b2, b3])

/-- `DICT_MAGIC`. -/
def DICT_MAGIC : Nat := 0xEC30A437

/-- Normalized counts with their maximal symbol and table log. -/
structure NormCounts where
  counts : List Int
  max_symbol : Nat
  table_log : Nat
deriving DecidableEq, Repr

/-- `DictEntropy`. -/
structure DictEntropy where
  huff : HuffTable
  tables : SeqTables
  rep : Reps
  ll_nc : NormCounts
  of_nc : NormCounts
  ml_nc : NormCounts
deriving DecidableEq, Repr

/-- `Dictionary`. -/
structure Dictionary where
  id : Nat
  content : Bytes
  entropy : Option DictEntropy
deriving DecidableEq, Repr

namespace Dictionary

/-- `Dictionary::raw`. -/
def raw (bytes : Bytes) : Dictionary := ⟨0, bytes, none⟩

/-- One FSE table of the entropy section: its counts, its decoding table and the position after
it. -/
def parse_table (bytes : Bytes) (p max_log : Nat) :
    Res (NormCounts × Fse.FseDecodeTable × Nat) := do
  let desc ← sliceFrom bytes p
  let nc ← Fse.read_ncount desc max_log
  let table ← Fse.build_dtable nc.counts nc.max_symbol nc.table_log
  let p ← add 64 p nc.bytes_consumed
  pure (⟨nc.counts, nc.max_symbol, nc.table_log⟩, table, p)

/-- The check on one repeat offset. -/
def check_rep (content : Bytes) (r : Nat) : Res Unit :=
  if r = 0 ∨ content.length < r then
    fail (.Dictionary s!"invalid repeat offset {r} for {content.length}-byte content")
  else pure ()

/-- `Dictionary::parse`. -/
def parse (bytes : Bytes) : Res Dictionary := do
  if bytes.length < 8 then pure (raw bytes)
  else
    let magic ← read_u32_le bytes 0
    if magic ≠ DICT_MAGIC then pure (raw bytes)
    else
      let id ← read_u32_le bytes 4
      let desc ← sliceFrom bytes 8
      let (huff, used) ← read_table desc
      let p ← add 64 8 used
      let (of_nc, of, p) ← parse_table bytes p 8
      let (ml_nc, ml, p) ← parse_table bytes p 9
      let (ll_nc, ll, p) ← parse_table bytes p 9
      let reps_end ← add 64 p 12
      if bytes.length < reps_end then
        fail (.Truncated "dictionary repeat offsets" (reps_end - bytes.length))
      else
        let r0 ← read_u32_le bytes p
        let r1 ← read_u32_le bytes (p + 4)
        let r2 ← read_u32_le bytes (p + 8)
        let content ← sliceFrom bytes reps_end
        check_rep content r0
        check_rep content r1
        check_rep content r2
        pure ⟨id, content,
          some ⟨huff, ⟨some ll, some of, some ml⟩, ⟨r0, r1, r2⟩, ll_nc, of_nc, ml_nc⟩⟩

end Dictionary

end ZstdPure
