import ZstdPure.Error

/-!
# `xxhash.rs`: XXH64, one-shot and streaming
-/

namespace ZstdPure.XxHash

open Outcome

def PRIME64_1 : UInt64 := 0x9E3779B185EBCA87
def PRIME64_2 : UInt64 := 0xC2B2AE3D27D4EB4F
def PRIME64_3 : UInt64 := 0x165667B19E3779F9
def PRIME64_4 : UInt64 := 0x85EBCA77C2B2AE63
def PRIME64_5 : UInt64 := 0x27D4EB2F165667C5

/-- `x.rotate_left(n)`. -/
def rotate_left (x n : UInt64) : UInt64 := (x <<< n) ||| (x >>> (64 - n))

/-- `round`. -/
def round (acc input : UInt64) : UInt64 := rotate_left (acc + input * PRIME64_2) 31 * PRIME64_1

/-- `merge_round`. -/
def merge_round (acc val : UInt64) : UInt64 :=
  (acc ^^^ round 0 val) * PRIME64_1 + PRIME64_4

/-- `read_u64`. -/
def read_u64 (d : Bytes) (i : Nat) : UInt64 := UInt64.ofNat (leNat ((d.drop i).take 8))

/-- `read_u32`, widened. -/
def read_u32 (d : Bytes) (i : Nat) : UInt64 := UInt64.ofNat (leNat ((d.drop i).take 4))

/-- `avalanche`. -/
def avalanche (h64 : UInt64) : UInt64 :=
  let h64 := h64 ^^^ (h64 >>> 33)
  let h64 := h64 * PRIME64_2
  let h64 := h64 ^^^ (h64 >>> 29)
  let h64 := h64 * PRIME64_3
  h64 ^^^ (h64 >>> 32)

/-- The four accumulators. -/
structure Lanes where
  v1 : UInt64
  v2 : UInt64
  v3 : UInt64
  v4 : UInt64
deriving DecidableEq, Repr

/-- The accumulators at the start. -/
def Lanes.new (seed : UInt64) : Lanes :=
  ⟨seed + PRIME64_1 + PRIME64_2, seed + PRIME64_2, seed, seed - PRIME64_1⟩

/-- One 32-byte stripe, the first of `d`. -/
def stripe (v : Lanes) (d : Bytes) : Lanes :=
  ⟨round v.v1 (read_u64 d 0), round v.v2 (read_u64 d 8), round v.v3 (read_u64 d 16),
    round v.v4 (read_u64 d 24)⟩

/-- The loop over the first `n` stripes of `d`. -/
def stripes : Nat → Lanes → Bytes → Lanes
  | 0, v, _ => v
  | n + 1, v, d => stripes n (stripe v d) (d.drop 32)

/-- The accumulators merged. -/
def Lanes.merge (v : Lanes) : UInt64 :=
  let h64 := rotate_left v.v1 1 + rotate_left v.v2 7 + rotate_left v.v3 12 + rotate_left v.v4 18
  let h64 := merge_round h64 v.v1
  let h64 := merge_round h64 v.v2
  let h64 := merge_round h64 v.v3
  merge_round h64 v.v4

/-- The loop over the first `n` words of the tail `d`. -/
def tail_words : Nat → UInt64 → Bytes → UInt64
  | 0, h64, _ => h64
  | n + 1, h64, d =>
    tail_words n (rotate_left (h64 ^^^ round 0 (read_u64 d 0)) 27 * PRIME64_1 + PRIME64_4)
      (d.drop 8)

/-- The tail of fewer than 32 bytes: words, then a half word, then bytes; then `avalanche`. -/
def finish (h64 : UInt64) (d : Bytes) : UInt64 :=
  let words := d.length / 8
  let h64 := tail_words words h64 d
  let d := d.drop (8 * words)
  let (h64, d) :=
    if 4 ≤ d.length then
      (rotate_left (h64 ^^^ read_u32 d 0 * PRIME64_1) 23 * PRIME64_2 + PRIME64_3, d.drop 4)
    else (h64, d)
  let h64 := d.foldl (fun h b =>
    rotate_left (h ^^^ UInt64.ofNat b.toNat * PRIME64_5) 11 * PRIME64_1) h64
  avalanche h64

/-- `xxh64`. -/
def xxh64 (data : Bytes) (seed : UInt64) : UInt64 :=
  let h64 :=
    if 32 ≤ data.length then (stripes (data.length / 32) (Lanes.new seed) data).merge
    else seed + PRIME64_5
  finish (h64 + UInt64.ofNat data.length) (data.drop (32 * (data.length / 32)))

/-- `Xxh64`, the streaming state. -/
structure Xxh64 where
  total_len : UInt64
  v : Lanes
  mem : Bytes
  memsize : Nat
  seed : UInt64
deriving DecidableEq, Repr

namespace Xxh64

/-- `Xxh64::new`. -/
def new (seed : UInt64) : Xxh64 := ⟨0, Lanes.new seed, List.replicate 32 0, 0, seed⟩

/-- Finish the partial buffer to a full stripe; returns the input left. -/
def fill_stripe (s : Xxh64) (input : Bytes) : Res (Xxh64 × Bytes) := do
  if 0 < s.memsize then
    let need ← sub 32 s.memsize
    let head ← slice input 0 need
    let mem ← copyAt s.mem s.memsize head
    let input ← sliceFrom input need
    pure ({ s with mem, v := stripe s.v mem, memsize := 0 }, input)
  else pure (s, input)

/-- `update`. -/
def update (s : Xxh64) (input : Bytes) : Res Xxh64 := do
  let s := { s with total_len := s.total_len + UInt64.ofNat input.length }
  let n ← add 64 s.memsize input.length
  if n < 32 then
    let mem ← copyAt s.mem s.memsize input
    pure { s with mem, memsize := n }
  else
    let (s, input) ← s.fill_stripe input
    let k := input.length / 32
    let s := { s with v := stripes k s.v input }
    let input := input.drop (32 * k)
    if input.length = 0 then pure s
    else
      let mem ← copyAt s.mem 0 input
      pure { s with mem, memsize := input.length }

/-- `digest`. -/
def digest (s : Xxh64) : Res UInt64 := do
  let h64 := if 32 ≤ s.total_len then s.v.merge else s.seed + PRIME64_5
  let mem ← slice s.mem 0 s.memsize
  pure (finish (h64 + s.total_len) mem)

/-- A call on a streaming hash. -/
inductive Call where
  | update (input : Bytes)
  | digest
deriving DecidableEq, Repr

/-- Some calls one after the other: the state at the end and the digests taken on the way. -/
def run : Xxh64 → List Call → Res (Xxh64 × List UInt64)
  | s, [] => pure (s, [])
  | s, .update input :: calls => do
    let s ← s.update input
    run s calls
  | s, .digest :: calls => do
    let h64 ← s.digest
    let (s, digests) ← run s calls
    pure (s, h64 :: digests)

end Xxh64

end ZstdPure.XxHash
