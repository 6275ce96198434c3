import ZstdPure.Encode.Tree

/-!
# `encode/lz.rs`: the optimal parse
-/

namespace ZstdPure.Encode

open Sequences

/-- `log2_fp`: `log2 x` in 1/256 bits. -/
def log2_fp (x : Nat) : Nat :=
  let hb := highbit x
  hb <<< 8 ||| (x <<< 8 >>> hb) % 2 ^ 32 &&& 0xFF

def MAX_SUBLEN : Nat := 64

/-! ## Prices -/

/-- `Prices`. -/
structure Prices where
  lit : List Nat
  ll : List Nat
  ml : List Nat
  off : List Nat
deriving DecidableEq, Repr

/-- The price of a code with this count in a predefined table. -/
def code_price (count : Int) (log : Nat) : Nat :=
  log * 256 - log2_fp (if count ≤ 0 then 1 else count.toNat)

/-- `entropy_prices`. -/
def entropy_prices (freq : List Nat) (extra : Nat → Nat) : List Nat :=
  let log_sum := log2_fp (freq.map (· + 1)).sum
  freq.zipIdx.map fun c => log_sum - log2_fp (c.1 + 1) + extra c.2 * 256

/-- `Prices::predef`. -/
def Prices.predef (block : Bytes) : Prices :=
  let l_total := log2_fp (block.length % 2 ^ 32)
  ⟨(histogram block).map fun f => max (l_total - log2_fp (max f 1)) 16,
    (List.range 36).map fun c => code_price (LL_DEFAULT.getD c 0) 6 + LL_BITS.getD c 0 * 256,
    (List.range 53).map fun c => code_price (ML_DEFAULT.getD c 0) 6 + ML_BITS.getD c 0 * 256,
    (List.range 32).map fun c => code_price (OF_DEFAULT.getD c (-1)) 5 + c * 256⟩

/-- The statistics of some sequences and literals. -/
structure Freqs where
  lit : List Nat
  ll : List Nat
  ml : List Nat
  of : List Nat
deriving DecidableEq, Repr

/-- No statistics. -/
def Freqs.zero : Freqs :=
  ⟨List.replicate 256 0, List.replicate 36 0, List.replicate 53 0, List.replicate 32 0⟩

/-- Count some literals. -/
def Freqs.literals (f : Freqs) (lits : Bytes) : Freqs :=
  { f with lit := lits.foldl (fun freq b => freq.modify b.toNat (· + 1)) f.lit }

/-- Count one sequence at `p` of `data`, and go past it. -/
def Freqs.sequence (data : Bytes) (s : Freqs × Nat) (q : Seq) : Freqs × Nat :=
  let f := s.1.literals (range_of data s.2 (s.2 + q.lit_len))
  (⟨f.lit, f.ll.modify (ll_code q.lit_len) (· + 1), f.ml.modify (ml_code q.match_len) (· + 1),
    f.of.modify (min (of_code q.offset_value) 31) (· + 1)⟩, s.2 + q.span)

/-- Count a parse of `data[start..stop]`. -/
def Freqs.count (f : Freqs) (data : Bytes) (start stop : Nat) (seqs : List Seq) : Freqs :=
  let (f, p) := seqs.foldl (Freqs.sequence data) (f, start)
  f.literals (range_of data p stop)

/-- `Prices::from_freqs`. -/
def Prices.from_freqs (f : Freqs) : Prices :=
  let log_lit := log2_fp (f.lit.map (· + 1)).sum
  ⟨f.lit.map fun n => max (log_lit - log2_fp (n + 1)) 16,
    entropy_prices f.ll fun c => LL_BITS.getD c 0,
    entropy_prices f.ml fun c => ML_BITS.getD c 0,
    entropy_prices f.of fun c => c⟩

/-- `Prices::from_stats`. -/
def Prices.from_stats (block : Bytes) (seqs : List Seq) : Prices :=
  Prices.from_freqs (Freqs.zero.count block 0 block.length seqs)

/-- `OptStats`. -/
structure OptStats where
  freqs : Freqs
  seeded : Bool
deriving DecidableEq, Repr

/-- `OptStats::new`. -/
def OptStats.new : OptStats := ⟨Freqs.zero, false⟩

/-- Halve a channel that grew past the cap. -/
def downscale (a : List Nat) : List Nat := if 2 ^ 16 < a.sum then a.map (· / 2) else a

/-- `record`. -/
def OptStats.record (st : OptStats) (data : Bytes) (start stop : Nat) (seqs : List Seq) :
    OptStats :=
  let f := st.freqs.count data start stop seqs
  ⟨⟨downscale f.lit, downscale f.ll, downscale f.ml, downscale f.of⟩, true⟩

/-! ## The dynamic program -/

/-- `Opt`: the cheapest way found to a position. -/
structure Opt where
  price : Nat
  mlen : Nat
  litlen : Nat
  offval : Nat
  rep : Reps
deriving DecidableEq, Repr

/-- A cell not reached yet. -/
def Opt.unreached : Opt := ⟨(2 ^ 64 - 1) / 4, 0, 0, 0, ⟨0, 0, 0⟩⟩

/-- `if price < opt[j].price { opt[j] = cell }`. -/
def improve (opt : List Opt) (j : Nat) (cell : Opt) : List Opt :=
  if cell.price < (opt.getD j Opt.unreached).price then opt.set j cell else opt

/-- What one iteration of the program reads: the inputs and the cell it extends. -/
structure Here where
  prices : Prices
  i : Nat
  cell : Opt
deriving DecidableEq, Repr

namespace Here

/-- The literals pending at the cell. -/
def pend (h : Here) : Nat := if 0 < h.cell.mlen then 0 else h.cell.litlen

/-- Whether a match here has no literals. -/
def ll0 (h : Here) : Bool := h.pend == 0

/-- What the first literal or a match without literals owes for the literals-length code. -/
def ll_owed (h : Here) : Nat := if h.pend = 0 then h.prices.ll.getD (ll_code 0) 0 else 0

/-- The extension by the literal `b`. -/
def literal (h : Here) (b : UInt8) : Opt :=
  let ll_add :=
    if h.pend = 0 then h.prices.ll.getD (ll_code 1) 0
    else h.prices.ll.getD (ll_code (h.pend + 1)) 0 - h.prices.ll.getD (ll_code h.pend) 0
  ⟨h.cell.price + h.prices.lit.getD b.toNat 0 + ll_add, 0, h.pend + 1, 0, h.cell.rep⟩

/-- The extension by a match of `len` bytes at distance `off`. -/
def extend (h : Here) (len off : Nat) : Opt :=
  let offval := encode_offset h.cell.rep off h.ll0
  let ocost := h.prices.off.getD (min (of_code offval) 31) 0
  ⟨h.cell.price + h.ll_owed + ocost + h.prices.ml.getD (ml_code len) 0, len % 2 ^ 32, h.pend,
    offval, (resolve h.cell.rep offval h.ll0).2⟩

/-- Offer a match of `len` bytes at distance `off`, cut to each length from `low` up to the cap, and
whole when it is longer than that. -/
def offer (h : Here) (low len off : Nat) (opt : List Opt) : List Opt :=
  let opt := (List.range' low (min len MAX_SUBLEN + 1 - low)).foldl
    (fun opt l => improve opt (h.i + l) (h.extend l off)) opt
  if MAX_SUBLEN < len then improve opt (h.i + len) (h.extend len off) else opt

/-- Offer the match at the repeat offset of code `ov`, if there is one. -/
def offer_rep (h : Here) (data : Bytes) (start n : Nat) (opt : List Opt) (ov : Nat) : List Opt :=
  let off := rep_resolved_offset h.cell.rep ov h.ll0
  if off = 0 ∨ start + h.i < off then opt
  else
    let ml := common_tail data (start + h.i - off) (start + h.i) (n - h.i) 0
    if ml < MIN_MATCH then opt else h.offer MIN_MATCH ml off opt

/-- Offer the candidates of the position, each from the length after the one before it. -/
def offer_matches (h : Here) (cands : List (Nat × Nat)) (opt : List Opt) : List Opt :=
  (cands.foldl (fun (s : List Opt × Nat) c =>
    (h.offer (max (s.2 + 1) MIN_MATCH) c.1 c.2 s.1, c.1)) (opt, MIN_MATCH - 1)).1

end Here

/-- The candidates of the positions of a block, and the long matches committed. -/
structure Matches where
  starts : List Nat
  flat : List (Nat × Nat)
deriving DecidableEq, Repr

/-- The candidates of position `i`. -/
def Matches.at_ (m : Matches) (i : Nat) : List (Nat × Nat) :=
  (m.flat.take (m.starts.getD (i + 1) 0)).drop (m.starts.getD i 0)

/-- One iteration of the program. -/
def dp_step (data : Bytes) (start n : Nat) (prices : Prices) (m : Matches)
    (pos_long : List (Option (Nat × Nat))) (offer_reps : Bool) (opt : List Opt) (i : Nat) :
    List Opt :=
  let h : Here := ⟨prices, i, opt.getD i Opt.unreached⟩
  let opt := improve opt (i + 1) (h.literal (byte_at data (start + i)))
  match pos_long.getD i none with
  | some (long_len, best_off) => improve opt (i + long_len) (h.extend long_len best_off)
  | none =>
    let opt := if offer_reps then [1, 2, 3].foldl (h.offer_rep data start n) opt else opt
    h.offer_matches (m.at_ i) opt

/-- The cells after the whole program. -/
def dp_cells (data : Bytes) (start n : Nat) (prices : Prices) (m : Matches)
    (pos_long : List (Option (Nat × Nat))) (init_rep : Reps) (offer_reps : Bool) : List Opt :=
  (List.range n).foldl (dp_step data start n prices m pos_long offer_reps)
    ((List.replicate (n + 1) Opt.unreached).set 0 ⟨0, 0, 0, 0, init_rep⟩)

/-- The backtracking from the match that ends at `pos`: its sequences in order, before those in
`acc`. A cell that is no match end would not move back; `fuel` bounds the walk. -/
def backtrack (opt : List Opt) : Nat → Nat → List Seq → List Seq
  | 0, _, acc => acc
  | fuel + 1, pos, acc =>
    if 0 < pos then
      let c := opt.getD pos Opt.unreached
      backtrack opt fuel (pos - (c.mlen + c.litlen)) (⟨c.litlen, c.mlen, c.offval⟩ :: acc)
    else acc

/-- `run_dp`. -/
def run_dp (data : Bytes) (start n : Nat) (prices : Prices) (m : Matches)
    (pos_long : List (Option (Nat × Nat))) (init_rep : Reps) (offer_reps : Bool) :
    List Seq × Reps :=
  let opt := dp_cells data start n prices m pos_long init_rep offer_reps
  let c := opt.getD n Opt.unreached
  -- a trailing literal run is no sequence
  let pos := if c.mlen = 0 then n - c.litlen else n
  (backtrack opt n pos [], c.rep)

/-! ## Collecting the matches -/

/-- `materialize_literals`. -/
def materialize_literals (data : Bytes) (start stop : Nat) (seqs : List Seq) : Bytes :=
  let (lits, p) := seqs.foldl (fun (s : Bytes × Nat) q =>
    (s.1 ++ range_of data s.2 (s.2 + q.lit_len), s.2 + q.span)) ([], start)
  lits ++ range_of data p stop

/-- The compacting pass of `reduce_to_frontier`: only strict improvements of the offset. -/
def strict_offsets : Nat → List (Nat × Nat) → List (Nat × Nat)
  | _, [] => []
  | min_off, c :: cands =>
    if c.2 < min_off then c :: strict_offsets c.2 cands else strict_offsets min_off cands

/-- `reduce_to_frontier`. -/
def reduce_to_frontier (cands : List (Nat × Nat)) : List (Nat × Nat) :=
  if cands.length < 2 then cands
  else
    (strict_offsets (2 ^ 32 - 1)
      (cands.mergeSort fun a b => decide (b.1 < a.1 ∨ a.1 = b.1 ∧ a.2 ≤ b.2))).reverse

/-- The state of the match collection: the finders, the positions indexed and skipped so far, the
two candidate streams, and the committed long matches. -/
structure Collect where
  finder : Hybrid
  inserted : Nat
  skip_until : Nat
  hybrid : Matches
  full : Matches
  pos_long : List (Option (Nat × Nat))
deriving DecidableEq, Repr

/-- What the collection reads. -/
structure CollectEnv where
  cast : Nat → Int
  data : Bytes
  start : Nat
  stop : Nat
  max_offset : Nat
  depth : Nat
  suff : Nat

namespace Collect

/-- Index the positions below `ap`. -/
def index_upto (e : CollectEnv) (s : Collect) (ap : Nat) : Collect :=
  { s with
    finder := (List.range' s.inserted (ap - s.inserted)).foldl
      (Hybrid.insert e.cast e.data e.stop e.max_offset e.depth) s.finder,
    inserted := max s.inserted ap }

/-- The search at `ap`, which also indexes it: the candidates of the chain and of the tree. -/
def search (e : CollectEnv) (s : Collect) (ap : Nat) :
    List (Nat × Nat) × List (Nat × Nat) × Collect :=
  let chain := s.finder.chain.find_matches e.data ap e.stop e.max_offset e.depth (max e.suff 512)
  let (tree, t) := s.finder.tree.insert_and_get_all_matches e.cast e.data e.stop e.max_offset
    e.depth ap
  (chain, tree, { s with
    finder := ⟨s.finder.chain.insert e.cast e.data ap, t⟩, inserted := ap + 1 })

/-- The length and offset of the last candidate of a list, its longest. -/
def longest (cands : List (Nat × Nat)) : Nat × Nat := cands.getLastD (0, 0)

/-- Record the candidates of a searched position, or the long match it commits. -/
def record (e : CollectEnv) (ap : Nat) (chain tree : List (Nat × Nat)) (s : Collect) : Collect :=
  let best := if (longest chain).1 < (longest tree).1 then longest tree else longest chain
  if best.1 = 0 then { s with pos_long := s.pos_long ++ [none] }
  else
    let long_len :=
      if e.suff ≤ best.1 then ChainState.extend_full e.data ap (ap - best.2) e.stop else best.1
    if e.suff ≤ long_len then
      { s with
        pos_long := s.pos_long ++ [some (long_len % 2 ^ 32, best.2)], skip_until := ap + long_len }
    else
      { s with
        pos_long := s.pos_long ++ [none],
        hybrid := { s.hybrid with flat := s.hybrid.flat ++ chain },
        full := { s.full with flat := s.full.flat ++ reduce_to_frontier (chain ++ tree) } }

/-- One position of the collection. -/
def step (e : CollectEnv) (s : Collect) (i : Nat) : Collect :=
  let s := { s with
    hybrid := { s.hybrid with starts := s.hybrid.starts ++ [s.hybrid.flat.length % 2 ^ 32] },
    full := { s.full with starts := s.full.starts ++ [s.full.flat.length % 2 ^ 32] } }
  let ap := e.start + i
  if e.stop < ap + MIN_MATCH then { s with pos_long := s.pos_long ++ [none] }
  else
    let s := s.index_upto e ap
    if ap < s.skip_until then
      -- inside a committed long match
      let s := if s.inserted = ap then s.index_upto e (ap + 1) else s
      { s with pos_long := s.pos_long ++ [none] }
    else
      let (chain, tree, s) := s.search e ap
      s.record e ap chain tree

/-- The whole collection. -/
def run (e : CollectEnv) (finder : Hybrid) : Collect :=
  let s := (List.range (e.stop - e.start)).foldl (step e)
    ⟨finder, e.start, e.start, ⟨[], []⟩, ⟨[], []⟩, []⟩
  { s with
    hybrid := { s.hybrid with starts := s.hybrid.starts ++ [s.hybrid.flat.length % 2 ^ 32] },
    full := { s.full with starts := s.full.starts ++ [s.full.flat.length % 2 ^ 32] } }

end Collect

/-! ## The optimal parse -/

/-- What the parses of the two streams share. -/
structure OptEnv where
  data : Bytes
  start : Nat
  stop : Nat
  pos_long : List (Option (Nat × Nat))
  rep_in : Reps
  two_pass : Bool
deriving DecidableEq, Repr

namespace OptEnv

/-- One run of the program over a stream. -/
def run (e : OptEnv) (prices : Prices) (m : Matches) (offer_reps : Bool) : List Seq × Reps :=
  run_dp e.data e.start (e.stop - e.start) prices m e.pos_long e.rep_in offer_reps

/-- `two_pass_dp`. -/
def two_pass_dp (e : OptEnv) (m : Matches) (offer_reps : Bool) : List Seq × Reps :=
  let block := range_of e.data e.start e.stop
  let first := e.run (Prices.predef block) m offer_reps
  if e.two_pass then e.run (Prices.from_stats block first.1) m offer_reps else first

/-- `rep_dp`. -/
def rep_dp (e : OptEnv) (stats : OptStats) (m : Matches) : List Seq × Reps :=
  if stats.seeded then e.run (Prices.from_freqs stats.freqs) m true else e.two_pass_dp m true

/-- `mk`. -/
def candidate (e : OptEnv) (p : List Seq × Reps) : Candidate :=
  ⟨⟨p.1, materialize_literals e.data e.start e.stop p.1⟩, p.2⟩

end OptEnv

/-- Add an alternative unless its sequences are there already. -/
def add_alt (base : List Seq) (alts : List Candidate) (c : Candidate) : List Candidate :=
  if c.parse.seqs ≠ base ∧ alts.all (fun a => decide (a.parse.seqs ≠ c.parse.seqs)) then alts ++ [c]
  else alts

/-- `opt_parse_block`. -/
def opt_parse_block (cast : Nat → Int) (data : Bytes) (start stop max_offset : Nat) (rep_in : Reps)
    (depth sufficient_len : Nat) (two_pass : Bool) (st : Hybrid) (stats : OptStats) :
    Parsed × Hybrid × OptStats :=
  if stop - start < MIN_MATCH + 1 then (⟨literal_parse data start stop rep_in, []⟩, st, stats)
  else
    let c := Collect.run ⟨cast, data, start, stop, max_offset, depth, max sufficient_len MIN_MATCH⟩
      st
    let e : OptEnv := ⟨data, start, stop, c.pos_long, rep_in, two_pass⟩
    let base := e.two_pass_dp c.hybrid false
    let rep := e.rep_dp stats c.hybrid
    let fb := e.two_pass_dp c.full false
    let fr := e.rep_dp stats c.full
    let alts := [rep, fb, fr].foldl (fun alts p => add_alt base.1 alts (e.candidate p)) []
    (⟨e.candidate base, alts⟩, c.finder, stats.record data start stop fr.1)

end ZstdPure.Encode
