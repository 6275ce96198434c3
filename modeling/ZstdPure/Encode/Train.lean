import ZstdPure.Encode.Frame
import ZstdPure.Dict
import ZstdPure.XxHash

/-!
# `encode/train.rs`: training dictionaries

The search for segments keeps its checks: every index, every lookup and every counter is checked,
and `while` is a loop that must end. -/

namespace ZstdPure.Encode

open Outcome Sequences

namespace Train

def STATS_LEVEL : Int := 9
def DEFAULT_D : Nat := 8
def DEFAULT_SEGMENT : Nat := 1024

/-- `BTreeMap<u64, u32>`. -/
abbrev Counts := Std.TreeMap Nat Nat

/-- `map[&key]`. -/
def lookup (map : Counts) (key : Nat) : Res Nat :=
  match map[key]? with
  | some c => pure c
  | none => crash .index

/-- `*map.entry(key).or_insert(0) += 1`. -/
def bump (map : Counts) (key : Nat) : Res Counts := do
  let c ← add 32 (map.getD key 0) 1
  pure (map.insert key c)

/-- `dmer_at`. -/
def dmer_at (buf : Bytes) (i d : Nat) : Res Nat :=
  (List.range d).foldlM (fun v k => do
    let b ← get buf (i + k)
    let x ← shl 64 b.toNat (8 * k)
    pure (v ||| x)) 0

/-! ## The corpus -/

/-- `(bounds[w], bounds[w + 1])` of each sample, the first one at `n`. -/
def sample_bounds (n : Nat) : List Bytes → List (Nat × Nat)
  | [] => []
  | s :: rest => (n, n + s.length) :: sample_bounds (n + s.length) rest

/-- The starts of one sample from which `len` bytes lie inside it. -/
def starts (len : Nat) (b : Nat × Nat) : List Nat :=
  if b.1 + len ≤ b.2 then List.range' b.1 (b.2 - len + 1 - b.1) else []

/-- `valid` and `valid_seg`: which of the first `n` positions have `len` bytes inside one sample. -/
def mark_starts (bounds : List (Nat × Nat)) (len n : Nat) : List Bool :=
  bounds.foldl (fun marks b => (starts len b).foldl (fun marks i => marks.set i true) marks)
    (List.replicate n false)

/-- One dmer of a sample: counted if it is the first of its kind in the sample. -/
def count_dmer (buf : Bytes) (d : Nat) (s : Counts × Std.TreeSet Nat) (i : Nat) :
    Res (Counts × Std.TreeSet Nat) := do
  let dm ← dmer_at buf i d
  if s.2.contains dm then pure s
  else
    let freq ← bump s.1 dm
    pure (freq, s.2.insert dm)

/-- `freq`: in how many samples each dmer occurs. -/
def count_dmers (buf : Bytes) (d : Nat) (bounds : List (Nat × Nat)) : Res Counts :=
  bounds.foldlM (fun freq b => do
    let (freq, _) ← (starts d b).foldlM (count_dmer buf d) (freq, ∅)
    pure freq) ∅

/-- What `train_cover` sets up before it selects. -/
structure Corpus where
  buf : Bytes
  d : Nat
  k : Nat
  seg_dmers : Nat
  valid : List Bool
  valid_seg : List Bool
deriving DecidableEq, Repr

/-- The length of a segment: no more than the longest sample, no less than a dmer. -/
def segment_len (samples : List Bytes) (k_req d : Nat) : Nat :=
  max (min k_req ((samples.map List.length).max?.getD 0)) d

/-- The corpus of some samples that hold `d` and `k` bytes. -/
def corpus (samples : List Bytes) (k d : Nat) : Corpus :=
  let buf := samples.flatten
  let total := buf.length
  let bounds := sample_bounds 0 samples
  ⟨buf, d, k, k - d + 1, mark_starts bounds d (total - d + 1),
    mark_starts bounds k (total - k + 1)⟩

/-! ## One scan -/

/-- `wcount` and `score`. -/
structure Window where
  wcount : Counts
  score : Nat

/-- The dmer of position `i` enters the window, if there is one. -/
def enter (c : Corpus) (freq : Counts) (w : Window) (i : Nat) : Res Window := do
  let ok ← get c.valid i
  if ok then
    let dm ← dmer_at c.buf i c.d
    let n := w.wcount.getD dm 0
    let score ← (do
      if n = 0 then
        let f ← lookup freq dm
        add 64 w.score f
      else pure w.score)
    let wcount ← bump w.wcount dm
    pure ⟨wcount, score⟩
  else pure w

/-- The dmer of position `i` leaves the window, if there is one. -/
def leave (c : Corpus) (freq : Counts) (w : Window) (i : Nat) : Res Window := do
  let ok ← get c.valid i
  if ok then
    let dm ← dmer_at c.buf i c.d
    match w.wcount[dm]? with
    | none => pure w
    | some n =>
      let n ← sub n 1
      if n = 0 then
        let f ← lookup freq dm
        let score ← sub w.score f
        pure ⟨w.wcount.erase dm, score⟩
      else pure { w with wcount := w.wcount.insert dm n }
  else pure w

/-- The state of the loop over the segment starts. -/
structure Scan where
  window : Window
  best_score : Nat
  best_start : Nat

/-- The window at start 0. -/
def first_window (c : Corpus) (freq : Counts) : Res Window :=
  (List.range (min c.seg_dmers c.valid.length)).foldlM (enter c freq) ⟨∅, 0⟩

/-- The window slides to `start`. -/
def slide (c : Corpus) (freq : Counts) (s : Scan) (start : Nat) : Res Scan := do
  let seg_ok ← get c.valid_seg start
  let lo ← sub start 1
  let w ← leave c freq s.window lo
  let hi ← add 64 start c.seg_dmers
  let hi ← sub hi 1
  let w ← enter c freq w hi
  if seg_ok && decide (s.best_score < w.score) then pure ⟨w, w.score, start⟩
  else pure { s with window := w }

/-- The scan of the starts up to `last`. -/
def scan (c : Corpus) (freq : Counts) (last : Nat) : Res Scan := do
  let w ← first_window c freq
  let ok ← get c.valid_seg 0
  (List.range' 1 last).foldlM (slide c freq) ⟨w, if ok then w.score else 0, 0⟩

/-! ## The selection -/

/-- The state of `while accumulated < max_size`; `done` after a `break`. -/
structure Greedy where
  freq : Counts
  selected : List Nat
  accumulated : Nat
  done : Bool

/-- The dmer of position `i` is covered. -/
def cover (c : Corpus) (freq : Counts) (i : Nat) : Res Counts := do
  let ok ← get c.valid i
  if ok then
    let dm ← dmer_at c.buf i c.d
    pure (freq.insert dm 0)
  else pure freq

/-- One round: the best segment is selected and its dmers are covered. -/
def pick (c : Corpus) (g : Greedy) : Res Greedy := do
  let s ← scan c g.freq (c.valid_seg.length - 1)
  if s.best_score = 0 then pure { g with done := true }
  else
    let accumulated ← add 64 g.accumulated c.k
    let freq ← (List.range' s.best_start c.seg_dmers).foldlM (cover c) g.freq
    pure ⟨freq, g.selected ++ [s.best_start], accumulated, false⟩

/-- The state before the first round. -/
def unselected (freq : Counts) : Greedy := ⟨freq, [], 0, false⟩

/-- The selected segments, the first one last; the front is trimmed. -/
def concatenate (buf : Bytes) (max_size k : Nat) (selected : List Nat) : Res Bytes := do
  let _ ← mul 64 selected.length k
  let parts ← selected.reverse.mapM fun start => slice buf start (start + k)
  let content := parts.flatten
  if max_size < content.length then pure (content.drop (content.length - max_size))
  else pure content

/-- `train_cover`. Every round but the last one adds to `accumulated`, which bounds the rounds. -/
def train_cover (samples : List Bytes) (max_size k_req d : Nat) : Res Bytes := do
  if max_size = 0 then pure []
  else if samples.flatten.length < d then pure []
  else
    let freq ← count_dmers samples.flatten d (sample_bounds 0 samples)
    let k := segment_len samples k_req d
    if samples.flatten.length < k then pure []
    else
      let c := corpus samples k d
      let g ← loop (fun g => !g.done && decide (g.accumulated < max_size)) (pick c) (max_size + 2)
        (unselected freq)
      concatenate c.buf max_size k g.selected

/-- `train_dictionary`. -/
def train_dictionary (samples : List Bytes) (max_size : Nat) : Res Bytes :=
  train_cover samples max_size DEFAULT_SEGMENT DEFAULT_D

/-! ## The search for parameters -/

def OPTIMIZE_SCORE_LEVEL : Int := 9
def SEGMENTS : List Nat := [64, 256, DEFAULT_SEGMENT, 4096, 8192]
def DMERS : List Nat := [6, DEFAULT_D]

/-- The segment and dmer lengths tried, in the order of the two loops. -/
def grid : List (Nat × Nat) := DMERS.flatMap fun d => SEGMENTS.map fun k => (k, d)

/-- `score`: the size of all samples when each is compressed with `content`. -/
def corpus_score (samples : List Bytes) (content : Bytes) : Nat :=
  let dict := Dictionary.raw content
  ((samples.filter fun s => !s.isEmpty).map fun s =>
    (compress_with_dict s dict OPTIMIZE_SCORE_LEVEL false true).length).sum

/-- One round of the loops: `best` and `best_score`. -/
def consider (samples : List Bytes) (max_size : Nat) (best : Option Bytes × Nat) (kd : Nat × Nat) :
    Res (Option Bytes × Nat) := do
  let content ← train_cover samples max_size kd.1 kd.2
  if content.isEmpty then pure best
  else
    let score := corpus_score samples content
    if score < best.2 then pure (some content, score) else pure best

/-- `train_dictionary_optimized`. -/
def train_dictionary_optimized (samples : List Bytes) (max_size : Nat) : Res Bytes := do
  if max_size = 0 then pure []
  else
    let (best, _) ← grid.foldlM (consider samples max_size) (none, 2 ^ 64 - 1)
    match best with
    | some content => pure content
    | none => train_dictionary samples max_size

end Train

/-! ## The entropy section -/

/-- `write_dict_huffman_table`. -/
def write_dict_huffman_table (freq : List Nat) : Res Bytes := do
  if freq.countP (0 < ·) < 2 then
    fail (.Invalid "dictionary huffman table" "fewer than two distinct literal symbols")
  else
    let table ← build_code_table (code_lengths freq)
    write_weight_header table

/-- The counts of `write_dict_fse_table`: of the codes, when they form an alphabet, else the
predefined ones. -/
def dict_fse_counts (codes : List Nat) (pred_dist : List Int) (pred_max pred_log max_log : Nat) :
    NormCounts :=
  let max_sym := codes.foldl max 0
  let freq := code_histogram codes max_sym
  let num_present := freq.countP (0 < ·)
  if 2 ≤ num_present then
    let n := codes.length
    let table_log := min (max (optimal_table_log max_log n max_sym) (min_table_log num_present))
      max_log
    ⟨normalize_counts freq (n % 2 ^ 32) max_sym table_log, max_sym, table_log⟩
  else ⟨pred_dist, pred_max, pred_log⟩

/-- `write_dict_fse_table`. -/
def write_dict_fse_table (codes : List Nat) (pred_dist : List Int)
    (pred_max pred_log max_log : Nat) : Bytes :=
  let nc := dict_fse_counts codes pred_dist pred_max pred_log max_log
  write_ncount nc.counts nc.max_symbol nc.table_log

/-- `write_dict_seq_tables`. -/
def write_dict_seq_tables (seqs : List Seq) : Bytes :=
  let ll_codes := seqs.map fun s => ll_code s.lit_len
  let of_codes := seqs.map fun s => of_code s.offset_value
  let ml_codes := seqs.map fun s => ml_code s.match_len
  write_dict_fse_table of_codes OF_DEFAULT OF_PRED_MAX OF_PRED_LOG OF_MAX_LOG ++
    write_dict_fse_table ml_codes ML_DEFAULT ML_PRED_MAX ML_PRED_LOG ML_MAX_LOG ++
    write_dict_fse_table ll_codes LL_DEFAULT LL_PRED_MAX LL_PRED_LOG LL_MAX_LOG

namespace Train

/-- `lit_freq` and `seqs`. -/
structure Stats where
  lit_freq : List Nat
  seqs : List Seq
deriving DecidableEq, Repr

/-- The statistics of one more sample, compressed with the content primed. -/
def sample_stats (content : Bytes) (st : Stats) (s : Bytes) : Stats :=
  if s.isEmpty then st
  else
    let params := params_for_level_with_dict STATS_LEVEL s.length content.length
    let max_offset := 2 ^ params.window_log
    let combined := content ++ s
    let finder := (Finder.new params).prime asI32 combined content.length max_offset
    let parsed := (finder.parse asI32 combined content.length combined.length max_offset
      ⟨1, 4, 8⟩).1
    let p := parsed.primary.parse
    ⟨p.literals.foldl (fun freq b => freq.modify b.toNat (· + 1)) st.lit_freq, st.seqs ++ p.seqs⟩

/-- The statistics of the samples. -/
def gather_stats (samples : List Bytes) (content : Bytes) : Stats :=
  samples.foldl (sample_stats content) ⟨List.replicate 256 0, []⟩

/-- The Huffman table of the literals left, else of the content's bytes. -/
def huffman_section (lit_freq : List Nat) (content : Bytes) : Option Bytes :=
  match write_dict_huffman_table lit_freq with
  | .ok huff => some huff
  | .error _ =>
    match write_dict_huffman_table (histogram content) with
    | .ok huff => some huff
    | .error _ => none

/-- The dictionary id: a hash of the content, not zero. -/
def content_id (content : Bytes) : Nat := (XxHash.xxh64 content 0).toNat % 2 ^ 32 ||| 1

/-- All that stands before the content. -/
def header (content huff : Bytes) (seqs : List Seq) : Bytes :=
  leBytes 4 DICT_MAGIC ++ leBytes 4 (content_id content) ++ huff ++ write_dict_seq_tables seqs ++
    [1, 4, 8].flatMap (leBytes 4)

/-- `train_dictionary_structured`. -/
def train_dictionary_structured (samples : List Bytes) (max_size : Nat) : Res Bytes := do
  let content ← train_dictionary samples max_size
  if content.length < 8 then pure content
  else
    let st := gather_stats samples content
    match huffman_section st.lit_freq content with
    | none => pure content
    | some huff =>
      let out := header content huff st.seqs
      if max_size < out.length + 8 then pure content
      else
        let kept := min content.length (max_size - out.length)
        pure (out ++ content.take kept)

end Train

end ZstdPure.Encode
