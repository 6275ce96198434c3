import ZstdPure.Bits

/-!
# `fse.rs`: FSE table descriptions, decoding tables and the two-state decoder
-/

namespace ZstdPure

open Outcome

/-- `x as u32` of a signed value. -/
def asU32 (x : Int) : Nat := (x % 2 ^ 32).toNat

/-- `x as i32` of an unsigned value. -/
def asI32 (x : Nat) : Int := Int.bmod x (2 ^ 32)

namespace Fse

/-- `FSE_MAX_TABLELOG`. -/
def FSE_MAX_TABLELOG : Nat := 15

/-- `FSE_DTABLE_SIZE`. -/
def FSE_DTABLE_SIZE : Nat := 512

/-- `FseEntry`. -/
structure FseEntry where
  symbol : Nat
  num_bits : Nat
  new_state_base : Nat
deriving DecidableEq, Repr

/-- `FseEntry::default`. -/
def FseEntry.zero : FseEntry := ⟨0, 0, 0⟩

/-- `FseDecodeTable`: the first `2 ^ table_log` entries are live. -/
structure FseDecodeTable where
  table_log : Nat
  entries : List FseEntry
deriving DecidableEq, Repr

/-- `NCount`. -/
structure NCount where
  counts : List Int
  max_symbol : Nat
  table_log : Nat
  bytes_consumed : Nat
deriving DecidableEq, Repr

/-! ## `read_ncount` -/

/-- The state of the main loop of `read_ncount`. -/
structure NCountState where
  br : ForwardBitReader
  remaining : Int
  threshold : Int
  nb_bits : Nat
  counts : List Int
  symbol : Nat
  previous0 : Bool
deriving DecidableEq, Repr

/-- `while br.peek(n) == v { repeat += by; br.consume(n) }`; the state carries the last peek. -/
def skip_runs (n v by_ : Nat) (br : ForwardBitReader) (rep : Nat) : Res (ForwardBitReader × Nat) :=
    do
  let (first, br) ← br.peek n
  let (_, br, rep) ← loop (fun s : Nat × ForwardBitReader × Nat => s.1 == v)
    (fun s => do
      let rep ← add 64 s.2.2 by_
      let br ← s.2.1.consume n
      let (next, br) ← br.peek n
      pure (next, br, rep))
    (8 * br.src.length + 1) (first, br, rep)
  pure (br, rep)

/-- The branch of the main loop after a zero count: a run of further zero counts. -/
def read_zero_run (s : NCountState) : Res NCountState := do
  let (br, rep) ← skip_runs 16 0xFFFF 24 s.br s.symbol
  let (br, rep) ← skip_runs 2 3 3 br rep
  let (low, br) ← br.read 2
  let rep ← add 64 rep low
  pure { s with br, symbol := min rep 256, previous0 := false }

/-- `while remaining < threshold { nb_bits -= 1; threshold >>= 1 }`. -/
def shrink (remaining : Int) (nb_bits : Nat) (threshold : Int) : Res (Nat × Int) :=
  loop (fun s : Nat × Int => decide (remaining < s.2))
    (fun s => do
      let nb_bits ← sub s.1 1
      pure (nb_bits, s.2 / 2))
    32 (nb_bits, threshold)

/-- The branch of the main loop that reads one count. -/
def read_count (s : NCountState) : Res NCountState := do
  let twice ← int32 (2 * s.threshold)
  let top ← int32 (twice - 1)
  let max ← int32 (top - s.remaining)
  let below ← int32 (s.threshold - 1)
  let mask := asU32 below
  let (low, br) ← s.br.peek s.nb_bits
  let (count, br) ← (
    if low &&& mask < asU32 max then do
      let short ← sub s.nb_bits 1
      let br ← br.consume short
      pure (asI32 (low &&& mask), br)
    else do
      let br ← br.consume s.nb_bits
      let c := asI32 (low &&& asU32 top)
      let c ← (if s.threshold ≤ c then int32 (c - max) else pure c)
      pure (c, br))
  let count ← int32 (count - 1)
  let remaining ← int32 (s.remaining - |count|)
  if 256 ≤ s.symbol then fail (.CorruptTable "FSE symbol overflow")
  else
    let counts ← set s.counts s.symbol (Int.bmod count (2 ^ 16))
    let symbol ← add 64 s.symbol 1
    let (nb_bits, threshold) ← shrink remaining s.nb_bits s.threshold
    pure ⟨br, remaining, threshold, nb_bits, counts, symbol, count == 0⟩

/-- `read_ncount`. -/
def read_ncount (src : Bytes) (max_log : Nat) : Res NCount := do
  let br ← ForwardBitReader.new src
  let (low, br) ← br.read 4
  let table_log ← add 32 low 5
  if min max_log FSE_MAX_TABLELOG < table_log then
    fail (.CorruptTable s!"FSE accuracy log {table_log} exceeds max {max_log}")
  else
    let size ← shl 32 1 table_log
    let remaining ← int32 (asI32 size + 1)
    let nb_bits ← add 32 table_log 1
    let s ← loop (fun s : NCountState => decide (1 < s.remaining) && decide (s.symbol < 256))
      (fun s => if s.previous0 then read_zero_run s else read_count s)
      1024 ⟨br, remaining, asI32 size, nb_bits, List.replicate 256 0, 0, false⟩
    if s.remaining ≠ 1 then
      fail (.CorruptTable
        s!"FSE counts did not sum to table size (remaining {s.remaining})")
    else
      let bytes_consumed ← s.br.bytes_consumed
      pure ⟨s.counts, s.symbol - 1, table_log, bytes_consumed⟩

/-! ## `build_dtable` -/

/-- The state of the first loop of `build_dtable`. -/
structure LowState where
  symbols : List Nat
  symbol_next : List Nat
  high_threshold : Nat
deriving DecidableEq, Repr

/-- One symbol of the first loop: `-1` counts are placed from the high end. -/
def place_low (st : LowState) (c : Int × Nat) : Res LowState := do
  if c.1 = -1 then
    let symbols ← set st.symbols st.high_threshold (c.2 % 256)
    let symbol_next ← set st.symbol_next c.2 1
    -- `wrapping_sub`
    pure ⟨symbols, symbol_next, (st.high_threshold + (2 ^ 64 - 1)) % 2 ^ 64⟩
  else
    let symbol_next ← set st.symbol_next c.2 ((max c.1 0).toNat % 2 ^ 16)
    pure { st with symbol_next }

/-- `pos = (pos + step) & mask`. -/
def step_pos (step mask pos : Nat) : Res Nat := do
  let p ← add 64 pos step
  pure (p &&& mask)

/-- Place one occurrence of `s` at `pos` and step to the next position at most `high`. -/
def place_one (step mask high s : Nat) (st : List Nat × Nat) : Res (List Nat × Nat) := do
  let symbols ← set st.1 st.2 (s % 256)
  let pos ← step_pos step mask st.2
  let pos ← loop (fun p => decide (high < p)) (step_pos step mask) (mask + 2) pos
  pure (symbols, pos)

/-- All occurrences of one symbol. -/
def place_symbol (step mask high : Nat) (st : List Nat × Nat) (c : Int × Nat) :
    Res (List Nat × Nat) :=
  if c.1 ≤ 0 then pure st else times (place_one step mask high c.2) c.1.toNat st

/-- The entries of the positions `symbols`, in order. -/
def fill_entries (table_log size : Nat) : List Nat → List Nat → Res (List FseEntry)
  | [], _ => pure []
  | s :: symbols, symbol_next => do
    let next ← get symbol_next s
    let next1 ← add 16 next 1
    let symbol_next ← set symbol_next s next1
    let hb ← highbit32 next
    let num_bits ← sub table_log hb
    let shifted ← shl 32 next num_bits
    let new_state_base ← sub shifted size
    let rest ← fill_entries table_log size symbols symbol_next
    pure (⟨s, num_bits % 256, new_state_base % 2 ^ 16⟩ :: rest)

/-- `build_dtable`. -/
def build_dtable (norm : List Int) (max_symbol table_log : Nat) : Res FseDecodeTable := do
  let size ← shl 64 1 table_log
  let mask ← sub size 1
  let n ← add 64 max_symbol 1
  let counts ← slice norm 0 n
  let low ← counts.zipIdx.foldlM place_low
    ⟨List.replicate size 0, List.replicate n 0, mask⟩
  let step := size / 2 + size / 8 + 3
  let (symbols, pos) ←
    counts.zipIdx.foldlM (place_symbol step mask low.high_threshold) (low.symbols, 0)
  if pos ≠ 0 then fail (.CorruptTable "FSE symbol spread did not cover the table")
  else
    let unused ← sliceFrom (List.replicate FSE_DTABLE_SIZE FseEntry.zero) size
    let live ← fill_entries table_log size symbols low.symbol_next
    pure ⟨table_log, live ++ unused⟩

/-! ## Decoding -/

/-- `FseDecoder::init`. -/
def init (table : FseDecodeTable) (br : ReverseBitReader) : Res (Nat × ReverseBitReader) :=
  br.read table.table_log

/-- `FseDecoder::entry`. -/
def entry (state : Nat) (table : FseDecodeTable) : Res FseEntry :=
  get table.entries (state % FSE_DTABLE_SIZE)

/-- `FseDecoder::update_with_entry`. -/
def update_with_entry (e : FseEntry) (br : ReverseBitReader) : Res (Nat × ReverseBitReader) := do
  let (low, br) ← br.read e.num_bits
  let state ← add 32 e.new_state_base low
  pure (state, br)

/-- The symbol of a state, and the state after it. -/
def symbol_update (state : Nat) (table : FseDecodeTable) (br : ReverseBitReader) :
    Res (Nat × Nat × ReverseBitReader) := do
  let e ← entry state table
  let (state, br) ← update_with_entry e br
  pure (e.symbol, state, br)

/-- The state of the loops of `decompress`; `go` is the loop condition last evaluated. -/
structure TwoState where
  br : ReverseBitReader
  s1 : Nat
  s2 : Nat
  out : List Nat
  go : Bool
deriving DecidableEq, Repr

/-- `emit`. -/
def emit (max_out : Nat) (out : List Nat) (sym : Nat) : Res (List Nat) :=
  if max_out ≤ out.length then fail (.OutputTooLarge max_out) else pure (out ++ [sym])

/-- The condition of the main loop: `br.reload() == Unfinished && out.len() + 2 <= max_out`. -/
def pair_ready (max_out : Nat) (s : TwoState) : Res TwoState := do
  let (status, br) ← s.br.reload
  let room ← (
    if status = .Unfinished then do
      let n ← add 64 s.out.length 2
      pure (decide (n ≤ max_out))
    else pure false)
  pure { s with br, go := room }

/-- The body of the main loop: one symbol of each state. -/
def decode_pair (table : FseDecodeTable) (s : TwoState) : Res TwoState := do
  let (sym1, s1, br) ← symbol_update s.s1 table s.br
  let (sym2, s2, br) ← symbol_update s.s2 table br
  pure { s with br, s1, s2, out := s.out ++ [sym1] ++ [sym2] }

/-- One half of the tail: a symbol of state `a`; when the reload then overflows, the last symbol,
of state `b`. -/
def decode_tail_half (table : FseDecodeTable) (max_out : Nat) (br : ReverseBitReader) (a b : Nat)
    (out : List Nat) : Res (Bool × ReverseBitReader × Nat × List Nat) := do
  let (sym, a, br) ← symbol_update a table br
  let out ← emit max_out out sym
  let (status, br) ← br.reload
  if status = .Overflow then
    let e ← entry b table
    let out ← emit max_out out e.symbol
    pure (false, br, a, out)
  else pure (true, br, a, out)

/-- The body of the tail loop; `go` is cleared by `break`. -/
def decode_tail (table : FseDecodeTable) (max_out : Nat) (s : TwoState) : Res TwoState := do
  let (go, br, s1, out) ← decode_tail_half table max_out s.br s.s1 s.s2 s.out
  if go then
    let (go, br, s2, out) ← decode_tail_half table max_out br s.s2 s1 out
    pure ⟨br, s1, s2, out, go⟩
  else pure ⟨br, s1, s.s2, out, false⟩

/-- `decompress`: the symbols of a standalone FSE stream. -/
def decompress (bitstream : Bytes) (table : FseDecodeTable) (max_out : Nat) : Res (List Nat) := do
  let br ← ReverseBitReader.new bitstream
  let (s1, br) ← init table br
  let (s2, br) ← init table br
  let s ← pair_ready max_out ⟨br, s1, s2, [], false⟩
  let s ← loop TwoState.go (fun s => do
    let s ← decode_pair table s
    pair_ready max_out s) (max_out + 1) s
  let s ← loop TwoState.go (decode_tail table max_out) (max_out + 2) { s with go := true }
  pure s.out

end Fse

end ZstdPure
