import ZstdPure.Encode.Fse
import ZstdPure.Sequences

/-!
# `encode/sequences.rs`: the sequences section
-/

namespace ZstdPure.Encode

open Sequences

def LL_PRED_MAX : Nat := 35
def LL_PRED_LOG : Nat := 6
def OF_PRED_MAX : Nat := 28
def OF_PRED_LOG : Nat := 5
def ML_PRED_MAX : Nat := 52
def ML_PRED_LOG : Nat := 6
def LL_MAX_LOG : Nat := 9
def OF_MAX_LOG : Nat := 8
def ML_MAX_LOG : Nat := 9

/-- `Seq`. -/
structure Seq where
  lit_len : Nat
  match_len : Nat
  offset_value : Nat
deriving DecidableEq, Repr

/-- `base.partition_point(|&b| b <= x) - 1`. -/
def code_of (base : List Nat) (x : Nat) : Nat := (base.takeWhile fun b => decide (b ≤ x)).length - 1

/-- `ll_code`. -/
def ll_code (lit_len : Nat) : Nat := code_of LL_BASE lit_len

/-- `ml_code`. -/
def ml_code (match_len : Nat) : Nat := code_of ML_BASE match_len

/-- `of_code`. -/
def of_code (offset_value : Nat) : Nat := highbit offset_value

/-- `write_seq_count`. -/
def write_seq_count (n : Nat) : Bytes :=
  if n < 128 then [UInt8.ofNat n]
  else if n < 0x7F00 then [UInt8.ofNat (128 + n / 256), UInt8.ofNat n]
  else [255, UInt8.ofNat (n - 0x7F00), UInt8.ofNat ((n - 0x7F00) / 256)]

/-- The encoding tables of the three channels of a section. -/
structure ChannelTables where
  ll : FseCTable
  of : FseCTable
  ml : FseCTable
deriving DecidableEq, Repr

/-- The writer and the three states. -/
structure SeqWriter where
  bw : BitWriter
  st_ll : Nat
  st_of : Nat
  st_ml : Nat
deriving DecidableEq, Repr

/-- The extra bits of one sequence. -/
def add_extra (bw : BitWriter) (s : Seq) : BitWriter :=
  let ll := ll_code s.lit_len
  let ml := ml_code s.match_len
  let bw := bw.add (s.lit_len - LL_BASE.getD ll 0) (LL_BITS.getD ll 0)
  let bw := bw.add (s.match_len - ML_BASE.getD ml 0) (ML_BITS.getD ml 0)
  bw.add s.offset_value (of_code s.offset_value)

/-- The states start from the last sequence. -/
def init_writer (t : ChannelTables) (s : Seq) : SeqWriter :=
  ⟨add_extra BitWriter.new s, t.ll.init_state2 (ll_code s.lit_len),
    t.of.init_state2 (of_code s.offset_value), t.ml.init_state2 (ml_code s.match_len)⟩

/-- One iteration of the backward loop: the state transitions, then the extra bits. -/
def write_seq (t : ChannelTables) (w : SeqWriter) (s : Seq) : SeqWriter :=
  let (bw, st_of) := t.of.encode_symbol w.bw w.st_of (of_code s.offset_value)
  let (bw, st_ml) := t.ml.encode_symbol bw w.st_ml (ml_code s.match_len)
  let (bw, st_ll) := t.ll.encode_symbol bw w.st_ll (ll_code s.lit_len)
  ⟨add_extra bw s, st_ll, st_of, st_ml⟩

/-- The final states, read first by the decoder. -/
def flush_writer (t : ChannelTables) (w : SeqWriter) : Bytes :=
  (t.ll.flush_state (t.of.flush_state (t.ml.flush_state w.bw w.st_ml) w.st_of) w.st_ll).finish

/-- `encode_seq_bitstream` of a nonempty list of sequences, from the last to the first. -/
def encode_seq_bitstream (seqs : List Seq) (t : ChannelTables) : Bytes :=
  match seqs.reverse with
  | [] => BitWriter.new.finish
  | last :: rest => flush_writer t (rest.foldl (write_seq t) (init_writer t last))

/-- `write_sequences_predefined`: the section with the predefined tables, as the tests write it. -/
def write_sequences_predefined (seqs : List Seq) : Bytes :=
  if seqs.isEmpty then write_seq_count seqs.length
  else
    write_seq_count seqs.length ++ [0] ++ encode_seq_bitstream seqs
      ⟨build_ctable LL_DEFAULT LL_PRED_MAX LL_PRED_LOG, build_ctable OF_DEFAULT OF_PRED_MAX
        OF_PRED_LOG,
        build_ctable ML_DEFAULT ML_PRED_MAX ML_PRED_LOG⟩

/-- `ChannelPlan`. -/
structure ChannelPlan where
  mode : Nat
  ct : FseCTable
  header : Bytes
deriving DecidableEq, Repr

/-- The candidate with the least cost, the first one on ties. -/
def min_by_cost (c : Nat × ChannelPlan) : List (Nat × ChannelPlan) → Nat × ChannelPlan
  | [] => c
  | d :: rest => min_by_cost (if d.1 < c.1 then d else c) rest

/-- The histogram of some codes. -/
def code_histogram (codes : List Nat) (max_sym : Nat) : List Nat :=
  codes.foldl (fun freq c => freq.modify c (· + 1)) (List.replicate (max_sym + 1) 0)

/-- The candidate of the predefined table. -/
def plan_predefined (codes : List Nat) (pred_dist : List Int) (pred_max pred_log : Nat) :
    Nat × ChannelPlan :=
  let ct := build_ctable pred_dist pred_max pred_log
  (ct.stream_cost_bits codes, ⟨0, ct, []⟩)

/-- The candidate of a single symbol. -/
def plan_rle (codes : List Nat) : Nat × ChannelPlan :=
  let sym := codes.headD 0 % 256
  (8, ⟨1, build_rle_ctable sym, [UInt8.ofNat sym]⟩)

/-- The candidate of a table of its own. -/
def plan_fse (codes : List Nat) (max_sym max_log : Nat) (freq : List Nat) : Nat × ChannelPlan :=
  let n := codes.length
  let num_present := freq.countP (0 < ·)
  let table_log := min (max (optimal_table_log max_log n max_sym) (min_table_log num_present))
    max_log
  let norm := normalize_counts freq n max_sym table_log
  let header := write_ncount norm max_sym table_log
  let ct := build_ctable norm max_sym table_log
  (ct.stream_cost_bits codes + header.length * 8, ⟨2, ct, header⟩)

/-- The candidate of the previous table. -/
def plan_repeat (codes : List Nat) (t : FseCTable) : Nat × ChannelPlan :=
  (t.stream_cost_bits codes, ⟨3, t, []⟩)

/-- The candidates of a channel in the order they are tried. -/
def candidates (codes : List Nat) (pred_dist : List Int) (pred_max pred_log max_log : Nat)
    (prev : Option FseCTable) : List (Nat × ChannelPlan) :=
  let max_sym := codes.foldl max 0
  let freq := code_histogram codes max_sym
  let num_present := freq.countP (0 < ·)
  (if max_sym ≤ pred_max then [plan_predefined codes pred_dist pred_max pred_log] else []) ++
  (if num_present = 1 then [plan_rle codes] else []) ++
  (if 2 ≤ num_present then [plan_fse codes max_sym max_log freq] else []) ++
  (match prev with
    | some t => if t.can_encode codes then [plan_repeat codes t] else []
    | none => [])

/-- `plan_channel`. There is always a candidate: a nonempty list has one or more distinct codes. -/
def plan_channel (codes : List Nat) (pred_dist : List Int) (pred_max pred_log max_log : Nat)
    (prev : Option FseCTable) : ChannelPlan :=
  match candidates codes pred_dist pred_max pred_log max_log prev with
  | c :: rest => (min_by_cost c rest).2
  | [] => (plan_predefined codes pred_dist pred_max pred_log).2

/-- `SeqCTables`. -/
structure SeqCTables where
  ll : Option FseCTable
  of : Option FseCTable
  ml : Option FseCTable
deriving DecidableEq, Repr

/-- `SeqCTables::default`. -/
def SeqCTables.default : SeqCTables := ⟨none, none, none⟩

/-- `write_sequences`: the section, and the tables to thread to the next block. It never fails. -/
def write_sequences (seqs : List Seq) (prev : SeqCTables) : Bytes × SeqCTables :=
  if seqs.isEmpty then (write_seq_count seqs.length, prev)
  else
    let ll_codes := seqs.map fun s => ll_code s.lit_len
    let of_codes := seqs.map fun s => of_code s.offset_value
    let ml_codes := seqs.map fun s => ml_code s.match_len
    let ll := plan_channel ll_codes LL_DEFAULT LL_PRED_MAX LL_PRED_LOG LL_MAX_LOG prev.ll
    let of := plan_channel of_codes OF_DEFAULT OF_PRED_MAX OF_PRED_LOG OF_MAX_LOG prev.of
    let ml := plan_channel ml_codes ML_DEFAULT ML_PRED_MAX ML_PRED_LOG ML_MAX_LOG prev.ml
    let modes := ll.mode <<< 6 ||| of.mode <<< 4 ||| ml.mode <<< 2
    (write_seq_count seqs.length ++ [UInt8.ofNat modes] ++ ll.header ++ of.header ++ ml.header ++
      encode_seq_bitstream seqs ⟨ll.ct, of.ct, ml.ct⟩, ⟨some ll.ct, some of.ct, some ml.ct⟩)

end ZstdPure.Encode
