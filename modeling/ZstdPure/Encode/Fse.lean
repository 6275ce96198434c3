import ZstdPure.Encode.Bitstream
import ZstdPure.Fse

/-!
# `encode/fse.rs`: FSE table descriptions, encoding tables and the two-state encoder
-/

namespace ZstdPure.Encode

open Fse

/-- `highbit32` of a nonzero value; the encoder calls it on no other. -/
def highbit (x : Nat) : Nat := Nat.log2 x

/-! ## Accuracy logs and normalization -/

/-- The number of bits `x` takes: `32 - x.leading_zeros()`. -/
def bit_length (x : Nat) : Nat := if x = 0 then 0 else Nat.log2 x + 1

/-- `min_table_log`. -/
def min_table_log (num_present : Nat) : Nat := max (bit_length (num_present - 1)) 5

/-- `choose_table_log`. -/
def choose_table_log (max_log : Nat) (_num_present : Nat) : Nat := min max_log FSE_MAX_TABLELOG

/-- `optimal_table_log`. -/
def optimal_table_log (max_log src_size max_symbol : Nat) : Nat :=
  let max_log := min max_log FSE_MAX_TABLELOG
  let src := max src_size 2 % 2 ^ 32
  let max_bits_src := highbit (src - 1) - 2
  let min_bits_src := highbit src + 1
  let min_bits_symbols := highbit (max max_symbol 1) + 2
  let min_bits := min min_bits_src min_bits_symbols
  let log := if max_bits_src < max_log then max_bits_src else max_log
  let log := if log < min_bits then min_bits else log
  min (max log 5) max_log

/-- The state of the first loop of `normalize_counts`. -/
structure NormState where
  norm : List Nat
  assigned : Nat
  largest : Nat
  largest_freq : Nat
deriving DecidableEq, Repr

/-- One symbol of the first loop: its share, at least one when it is present. -/
def norm_share (total size : Nat) (st : NormState) (f : Nat × Nat) : NormState :=
  if f.1 = 0 then { st with norm := st.norm ++ [0] }
  else
    let p := f.1 * size / total
    let p := if p = 0 then 1 else p
    let st := { st with norm := st.norm ++ [p], assigned := st.assigned + p }
    if st.largest_freq < f.1 then { st with largest_freq := f.1, largest := f.2 } else st

/-- `while assigned > size`: take units back; `n` bounds the iterations by `assigned - size`. -/
def norm_shrink (largest : Nat) : Nat → List Nat → List Nat
  | 0, norm => norm
  | n + 1, norm =>
    if 1 < norm.getD largest 0 then
      norm_shrink largest n (norm.modify largest (· - 1))
    else
      match norm.findIdx? (fun c => decide (1 < c)) with
      | some d => norm_shrink largest n (norm.modify d (· - 1))
      | none => norm

/-- `normalize_counts`: counts that sum to `2 ^ table_log`, of the symbols `0 ..= max_symbol`. -/
def normalize_counts (freq : List Nat) (total max_symbol table_log : Nat) : List Int :=
  let size := 2 ^ table_log
  let st := ((freq.take (max_symbol + 1)).zipIdx).foldl (norm_share total size) ⟨[], 0, 0, 0⟩
  let norm := norm_shrink st.largest (st.assigned - size) st.norm
  -- the loop `while assigned < size` adds the missing units one by one
  let norm := norm.modify st.largest (· + (size - st.assigned))
  norm.map Int.ofNat

/-! ## `write_ncount` -/

/-- The bit accumulator of `write_ncount`. -/
structure NCountWriter where
  out : Bytes
  bit_stream : Nat
  bit_count : Nat
deriving DecidableEq, Repr

namespace NCountWriter

/-- `bit_stream |= v << bit_count; bit_count += n`. -/
def put (w : NCountWriter) (v n : Nat) : NCountWriter :=
  { w with bit_stream := w.bit_stream ||| (v <<< w.bit_count) % 2 ^ 32, bit_count :=
    w.bit_count + n }

/-- Push the two low bytes. -/
def push16 (w : NCountWriter) : NCountWriter :=
  { w with
    out := w.out ++ [UInt8.ofNat w.bit_stream, UInt8.ofNat (w.bit_stream >>> 8)],
    bit_stream := w.bit_stream >>> 16 }

/-- `if bit_count > 16`: push the two low bytes. -/
def flush (w : NCountWriter) : NCountWriter :=
  if 16 < w.bit_count then { w.push16 with bit_count := w.bit_count - 16 } else w

/-- The code of a run of `n` further zero counts. -/
def put_run (w : NCountWriter) (n : Nat) : NCountWriter :=
  let w := (fun w : NCountWriter => { (w.put 0xFFFF 0).push16 with bit_count := w.bit_count })^[n /
    24] w
  let w := (fun w : NCountWriter => w.put 3 2)^[n % 24 / 3] w
  (w.put (n % 24 % 3) 2).flush

/-- The trailing bits. -/
def finish (w : NCountWriter) : Bytes := w.out ++ leBytes ((w.bit_count + 7) / 8) w.bit_stream

end NCountWriter

/-- `while remaining < threshold { nb_bits -= 1; threshold >>= 1 }`. -/
def shrink_bits (remaining : Nat) : Nat → Nat → Nat × Nat
  | 0, threshold => (0, threshold)
  | nb_bits + 1, threshold =>
    if remaining < threshold then shrink_bits remaining nb_bits (threshold / 2)
    else (nb_bits + 1, threshold)

/-- The main loop of `write_ncount` over the counts not yet written. -/
def write_counts (w : NCountWriter) (remaining threshold nb_bits : Nat) (previous_is0 : Bool)
    (norm : List Int) : NCountWriter :=
  if remaining ≤ 1 then w
  else
    let run := if previous_is0 then (norm.takeWhile (· == 0)).length else 0
    match _h : norm.drop run with
    | [] => w
    | count :: rest =>
      let w := if previous_is0 then w.put_run run else w
      let max := 2 * threshold - 1 - remaining
      let remaining := remaining - count.natAbs
      let c := (count + 1).toNat
      let c := if threshold ≤ c then c + max else c
      let w := w.put c (if c < max then nb_bits - 1 else nb_bits)
      let (nb_bits, threshold) := shrink_bits remaining nb_bits threshold
      write_counts w.flush remaining threshold nb_bits (c == 1) rest
termination_by norm.length
decreasing_by
  have := congrArg List.length _h
  simp only [List.length_drop, List.length_cons] at this
  omega

/-- `write_ncount`. -/
def write_ncount (norm : List Int) (max_symbol table_log : Nat) : Bytes :=
  let w := NCountWriter.put ⟨[], 0, 0⟩ (table_log - 5) 4
  (write_counts w (2 ^ table_log + 1) (2 ^ table_log) (table_log + 1) false
    (norm.take (max_symbol + 1))).finish

/-! ## Encoding tables -/

/-- `FseCTable`. -/
structure FseCTable where
  table_log : Nat
  state_table : List Nat
  delta_nb_bits : List Int
  delta_find_state : List Int
  present : List Bool
deriving DecidableEq, Repr

/-- The first loop of `build_ctable`: `-1` counts are placed from the high end. The threshold wraps
below zero when they fill the table. -/
def spread_low (st : List Nat × Nat) (c : Int × Nat) : List Nat × Nat :=
  if c.1 = -1 then (st.1.set st.2 (c.2 % 256), (st.2 + (2 ^ 64 - 1)) % 2 ^ 64) else st

/-- `pos = (pos + step) & mask`, repeated while it is above `high`; `n` bounds the iterations. -/
def next_pos (step mask high : Nat) : Nat → Nat → Nat
  | 0, pos => (pos + step) &&& mask
  | n + 1, pos =>
    let pos := (pos + step) &&& mask
    if high < pos then next_pos step mask high n pos else pos

/-- The occurrences of one symbol with a positive count. -/
def spread_symbol (step mask high : Nat) (st : List Nat × Nat) (c : Int × Nat) : List Nat × Nat :=
  (fun st : List Nat × Nat => (st.1.set st.2 (c.2 % 256),
    next_pos step mask high mask st.2))^[c.1.toNat]
    st

/-- The table of symbols of `build_ctable`, and the position after the last one placed. -/
def table_symbol (counts : List Int) (table_log : Nat) : List Nat × Nat :=
  let size := 2 ^ table_log
  let low := counts.zipIdx.foldl spread_low (List.replicate size 0, size - 1)
  let step := size / 2 + size / 8 + 3
  counts.zipIdx.foldl (spread_symbol step (size - 1) low.2) (low.1, 0)

/-- The number of states of a symbol with this count. -/
def states (c : Int) : Nat := c.natAbs

/-- `cumul`: the number of states of the symbols before each one. -/
def cumul (counts : List Int) : List Nat := counts.scanl (fun n c => n + states c) 0

/-- The loop that fills `state_table`: position `u` goes to the next free slot of its symbol. -/
def fill_states (size : Nat) (symbols cumul : List Nat) : List Nat :=
  (symbols.zipIdx.foldl (fun (st : List Nat × List Nat) c =>
    (st.1.set (st.2.getD c.1 0) (size + c.2), st.2.modify c.1 (· + 1)))
    (List.replicate size 0, cumul)).1

/-- `deltaNbBits` and `deltaFindState` of a symbol with count `c` and `total` states before it. -/
def symbol_transform (table_log : Nat) (c : Int) (total : Nat) : Int × Int :=
  let size : Int := 2 ^ table_log
  if c = 0 then (((table_log + 1) * 2 ^ 16 : Nat) - size, 0)
  else if c = -1 ∨ c = 1 then ((table_log * 2 ^ 16 : Nat) - size, total - 1)
  else
    let cc := c.toNat
    let max_bits_out := table_log - highbit (cc - 1)
    (((max_bits_out * 2 ^ 16 : Nat) : Int) - (cc <<< max_bits_out : Nat), total - c)

/-- `build_ctable`. -/
def build_ctable (norm : List Int) (max_symbol table_log : Nat) : FseCTable :=
  let counts := norm.take (max_symbol + 1)
  let starts := cumul counts
  let symbols := (table_symbol counts table_log).1
  let transform := (counts.zip starts).map fun c => symbol_transform table_log c.1 c.2
  ⟨table_log, fill_states (2 ^ table_log) symbols starts, transform.map Prod.fst,
    transform.map Prod.snd, counts.map fun c => c != 0⟩

/-- `build_rle_ctable`. -/
def build_rle_ctable (symbol : Nat) : FseCTable :=
  build_ctable (List.replicate symbol 0 ++ [1]) symbol 0

namespace FseCTable

/-- `can_encode`. -/
def can_encode (t : FseCTable) (codes : List Nat) : Bool :=
  codes.all fun c => t.present.getD c false

/-- `init_state2`. -/
def init_state2 (t : FseCTable) (symbol : Nat) : Nat :=
  let dnb := t.delta_nb_bits.getD symbol 0
  let nb_bits_out := asU32 ((dnb + 2 ^ 15) / 2 ^ 16)
  let value := asU32 ((nb_bits_out * 2 ^ 16 : Nat) - dnb)
  let idx := (value >>> nb_bits_out : Nat) + t.delta_find_state.getD symbol 0
  t.state_table.getD idx.toNat 0

/-- The number of bits `encode_symbol` writes. -/
def nb_bits_out (t : FseCTable) (st symbol : Nat) : Nat :=
  asU32 ((st + t.delta_nb_bits.getD symbol 0) / 2 ^ 16)

/-- The state after `encode_symbol`. -/
def next_state (t : FseCTable) (st symbol : Nat) : Nat :=
  let idx := (st >>> t.nb_bits_out st symbol : Nat) + t.delta_find_state.getD symbol 0
  t.state_table.getD idx.toNat 0

/-- `encode_symbol`. -/
def encode_symbol (t : FseCTable) (bw : BitWriter) (st symbol : Nat) : BitWriter × Nat :=
  (bw.add st (t.nb_bits_out st symbol), t.next_state st symbol)

/-- `flush_state`. -/
def flush_state (t : FseCTable) (bw : BitWriter) (st : Nat) : BitWriter := bw.add st t.table_log

/-- `stream_cost_bits`. -/
def stream_cost_bits (t : FseCTable) (codes : List Nat) : Nat :=
  let value := t.init_state2 (codes.getLastD 0)
  let (_, bits) := codes.dropLast.reverse.foldl (fun (s : Nat × Nat) c =>
    (t.next_state s.1 c, s.2 + t.nb_bits_out s.1 c)) (value, t.table_log)
  bits

end FseCTable

/-! ## Two-state encoding -/

/-- The loop of `encode` over the symbols left, last first: the states alternate. -/
def encode_pairs (ct : FseCTable) (bw : BitWriter) (s1 s2 : Nat) : List Nat → BitWriter × Nat × Nat
  | a :: b :: rest =>
    let (bw, s2) := ct.encode_symbol bw s2 a
    let (bw, s1) := ct.encode_symbol bw s1 b
    encode_pairs ct bw s1 s2 rest
  | _ => (bw, s1, s2)

/-- `encode`: two-state compression of more than two symbols, consumed back to front. -/
def encode (ct : FseCTable) (src : List Nat) : Bytes :=
  let bw := BitWriter.new
  let (bw, s1, s2) :=
    match src.length % 2, src.reverse with
    | 1, a :: b :: c :: rest =>
      let s1 := ct.init_state2 a
      let s2 := ct.init_state2 b
      let (bw, s1) := ct.encode_symbol bw s1 c
      encode_pairs ct bw s1 s2 rest
    | _, a :: b :: rest =>
      let s2 := ct.init_state2 a
      let s1 := ct.init_state2 b
      encode_pairs ct bw s1 s2 rest
    | _, _ => (bw, 0, 0)
  (ct.flush_state (ct.flush_state bw s2) s1).finish

end ZstdPure.Encode
