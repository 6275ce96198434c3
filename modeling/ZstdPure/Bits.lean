import ZstdPure.Error
import ZstdPure.Lib.BitStack

/-!
# `bits.rs`: the two bit readers

`ReverseBitReader` reads FSE and Huffman streams backwards from the sentinel bit of the last byte,
`ForwardBitReader` reads FSE table descriptions from the front.
-/

namespace ZstdPure

open Outcome

/-- `x.leading_zeros()` of a 32-bit `x`. -/
def leading_zeros (x : Nat) : Nat := if x = 0 then 32 else 31 - Nat.log2 x

/-- `highbit32`: the position of the highest set bit. -/
def highbit32 (x : Nat) : Res Nat := sub 31 (leading_zeros x)

/-- `ReloadStatus`. -/
inductive ReloadStatus where
  | Unfinished
  | EndOfBuffer
  | Completed
  | Overflow
deriving DecidableEq, Repr

/-- `read_u64_le`: eight bytes at `i`, zero-padded if the slice is short. -/
def read_u64_le (src : Bytes) (i : Nat) : Res Nat := do
  let e ← add 64 i 8
  if e ≤ src.length then
    let b ← slice src i e
    pure (leNat b)
  else
    let b ← sliceFrom src i
    pure (leNat b)

/-- `ReverseBitReader`. -/
structure ReverseBitReader where
  src : Bytes
  /-- Byte index the low byte of `container` was loaded from. -/
  ptr : Nat
  /-- 64-bit window over the stream. -/
  container : Nat
  /-- Number of bits taken from the high side of `container`. -/
  bits_consumed : Nat
deriving DecidableEq, Repr

namespace ReverseBitReader

/-- `ReverseBitReader::new`. -/
def new (src : Bytes) : Res ReverseBitReader := do
  let n := src.length
  if n = 0 then fail (.CorruptTable "empty bitstream")
  else
    let last ← get src (n - 1)
    if last.toNat = 0 then fail (.CorruptTable "final bitstream byte is zero (missing sentinel)")
    else
      let hb ← highbit32 last.toNat
      let free ← sub 8 hb
      if 8 ≤ n then
        let ptr := n - 8
        let container ← read_u64_le src ptr
        pure ⟨src, ptr, container, free⟩
      else
        let missing ← sub 8 n
        let bits_consumed ← add 32 free (missing * 8)
        pure ⟨src, 0, leNat src, bits_consumed⟩

/-- `peek`: the next `n` bits. The left shift drops the bits already consumed. -/
def peek (r : ReverseBitReader) (n : Nat) : Res Nat := do
  if n = 0 then pure 0
  else
    let hi ← shl 64 r.container (r.bits_consumed % 64)
    let k ← sub 64 n
    let v ← shr 64 hi k
    pure (v % 2 ^ 32)

/-- `consume`. -/
def consume (r : ReverseBitReader) (n : Nat) : Res ReverseBitReader := do
  let bits_consumed ← add 32 r.bits_consumed n
  pure { r with bits_consumed }

/-- `read`. -/
def read (r : ReverseBitReader) (n : Nat) : Res (Nat × ReverseBitReader) := do
  let v ← r.peek n
  let r ← r.consume n
  pure (v, r)

/-- `reload`: refill the window by stepping backwards through the stream. -/
def reload (r : ReverseBitReader) : Res (ReloadStatus × ReverseBitReader) := do
  if 64 < r.bits_consumed then pure (.Overflow, r)
  else if 8 ≤ r.ptr then
    let ptr ← sub r.ptr (r.bits_consumed / 8)
    let container ← read_u64_le r.src ptr
    pure (.Unfinished, { r with ptr, container, bits_consumed := r.bits_consumed % 8 })
  else if r.ptr = 0 then
    pure (if r.bits_consumed < 64 then .EndOfBuffer else .Completed, r)
  else
    let nb_bytes := min (r.bits_consumed / 8) r.ptr
    let result := if r.ptr < r.bits_consumed / 8 then ReloadStatus.EndOfBuffer else .Unfinished
    let ptr ← sub r.ptr nb_bytes
    let bits_consumed ← sub r.bits_consumed (nb_bytes * 8)
    let container ← read_u64_le r.src ptr
    pure (result, { r with ptr, container, bits_consumed })

/-- `ensure`: refill only if the next `n` bits would not fit the window. -/
def ensure (r : ReverseBitReader) (n : Nat) : Res ReverseBitReader := do
  let need ← add 32 r.bits_consumed n
  if 64 < need then
    let p ← r.reload
    pure p.2
  else pure r

/-- `read_lazy`. -/
def read_lazy (r : ReverseBitReader) (n : Nat) : Res (Nat × ReverseBitReader) := do
  let r ← r.ensure n
  r.read n

end ReverseBitReader

/-- `ForwardBitReader`. -/
structure ForwardBitReader where
  src : Bytes
  /-- Byte index of the next byte to buffer. -/
  idx : Nat
  acc : Nat
  live : Nat
deriving DecidableEq, Repr

namespace ForwardBitReader

/-- The condition of the refill loop. -/
def refilling (r : ForwardBitReader) : Bool := decide (r.live ≤ 56 ∧ r.idx < r.src.length)

/-- One iteration of `refill`: buffer the next byte. -/
def refill_byte (r : ForwardBitReader) : Res ForwardBitReader := do
  let b ← get r.src r.idx
  let hi ← shl 64 b.toNat r.live
  let live ← add 32 r.live 8
  let idx ← add 64 r.idx 1
  pure { r with acc := r.acc ||| hi, live, idx }

/-- `refill`. -/
def refill (r : ForwardBitReader) : Res ForwardBitReader := loop refilling refill_byte 9 r

/-- `ForwardBitReader::new`. -/
def new (src : Bytes) : Res ForwardBitReader := refill ⟨src, 0, 0, 0⟩

/-- `peek`: the next `n` bits, buffered into the reader first. -/
def peek (r : ForwardBitReader) (n : Nat) : Res (Nat × ForwardBitReader) := do
  if n = 0 then pure (0, r)
  else
    let r ← (if r.live < n then r.refill else pure r)
    if 32 ≤ n then pure (r.acc % 2 ^ 32, r)
    else
      let one ← shl 32 1 n
      let mask ← sub one 1
      pure (r.acc % 2 ^ 32 &&& mask, r)

/-- `consume`. -/
def consume (r : ForwardBitReader) (n : Nat) : Res ForwardBitReader := do
  let acc ← shr 64 r.acc n
  pure { r with acc, live := r.live - n }

/-- `read`. -/
def read (r : ForwardBitReader) (n : Nat) : Res (Nat × ForwardBitReader) := do
  let (v, r) ← r.peek n
  let r ← r.consume n
  pure (v, r)

/-- `bytes_consumed`: rounded up to include a partially consumed byte. -/
def bytes_consumed (r : ForwardBitReader) : Res Nat := do
  let bits ← mul 64 8 r.idx
  let consumed_bits ← sub bits r.live
  pure ((consumed_bits + 7) / 8)

end ForwardBitReader

end ZstdPure
