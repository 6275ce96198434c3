import ZstdPure.Encode.Opt

/-!
# `encode/lz.rs`, `encode/ldm.rs`: the finder of a frame and long-distance matches
-/

namespace ZstdPure.Encode

open Sequences

/-- `Finder`. -/
inductive Finder where
  | Fast (state : MatchState)
  | DFast (state : DFastState)
  | Chain (state : ChainState) (lazy_steps depth : Nat)
  | BtLazy (state : Hybrid) (depth : Nat)
  | Opt (state : Hybrid) (depth sufficient_len : Nat) (two_pass : Bool) (stats : OptStats)
deriving DecidableEq, Repr

namespace Finder

/-- The chain and the tree of the parameters. -/
def new_hybrid (params : CParams) : Hybrid :=
  ⟨ChainState.new params.hash_log params.chain_log params.min_match,
    BtState.new params.hash_log params.window_log⟩

/-- The chain finder of the parameters. -/
def new_chain (params : CParams) (lazy_steps : Nat) : Finder :=
  .Chain (ChainState.new params.hash_log params.chain_log params.min_match) lazy_steps
    (2 ^ min params.search_log 10)

/-- The optimal-parse finder of the parameters. -/
def new_opt (params : CParams) (two_pass : Bool) : Finder :=
  .Opt (new_hybrid params) (min (2 ^ min params.search_log 7) 128)
    (clamp params.target_length 32 256) two_pass OptStats.new

/-- `Finder::new`. -/
def new (params : CParams) : Finder :=
  match params.strategy with
  | .Fast => .Fast (MatchState.new params.hash_log)
  | .Dfast => .DFast (DFastState.new params.hash_log params.chain_log)
  | .Greedy => new_chain params 0
  | .Lazy => new_chain params 1
  | .Lazy2 => new_chain params 2
  | .BtLazy2 => .BtLazy (new_hybrid params) (2 ^ min params.search_log 10)
  | .Btopt => new_opt params false
  | .Btultra => new_opt params false
  | .Btultra2 => new_opt params true

/-- The larger ring of chain and tree. -/
def hybrid_period (st : Hybrid) : Nat := max st.chain.slide_period st.tree.slide_period

/-- `slide_period`. -/
def slide_period : Finder → Nat
  | .Fast _ => 1
  | .DFast _ => 1
  | .Chain st _ _ => st.slide_period
  | .BtLazy st _ => hybrid_period st
  | .Opt st _ _ _ _ => hybrid_period st

/-- Both indices slide. -/
def reduce_hybrid (cast : Nat → Int) (drop : Nat) (st : Hybrid) : Hybrid :=
  ⟨st.chain.reduce_index cast drop, st.tree.reduce_index cast drop⟩

/-- `reduce_index`. -/
def reduce_index (cast : Nat → Int) (drop : Nat) : Finder → Finder
  | .Fast st => .Fast (st.reduce_index cast drop)
  | .DFast st => .DFast (st.reduce_index cast drop)
  | .Chain st lazy_steps depth => .Chain (st.reduce_index cast drop) lazy_steps depth
  | .BtLazy st depth => .BtLazy (reduce_hybrid cast drop st) depth
  | .Opt st depth sufficient_len two_pass stats =>
    .Opt (reduce_hybrid cast drop st) depth sufficient_len two_pass stats

/-- `Finder::parse`. -/
def parse (cast : Nat → Int) (f : Finder) (data : Bytes) (start stop max_offset : Nat)
    (rep_in : Reps) : Parsed × Finder :=
  match f with
  | .Fast st =>
    let (c, st) := st.parse_block cast data start stop max_offset rep_in
    (⟨c, []⟩, .Fast st)
  | .DFast st =>
    let (c, st) := st.dfast_parse_block cast data start stop max_offset rep_in
    (⟨c, []⟩, .DFast st)
  | .Chain st lazy_steps depth =>
    let (c, st) := lazy_parse_block cast data start stop max_offset rep_in lazy_steps depth st
    (⟨c, []⟩, .Chain st lazy_steps depth)
  | .BtLazy st depth =>
    let (c, st) := bt_lazy_parse_block cast data start stop max_offset rep_in depth st
    (⟨c, []⟩, .BtLazy st depth)
  | .Opt st depth sufficient_len two_pass stats =>
    let (p, st, stats) := opt_parse_block cast data start stop max_offset rep_in depth
      sufficient_len two_pass st stats
    (p, .Opt st depth sufficient_len two_pass stats)

/-- The positions that priming indexes. -/
def primed (dict_len : Nat) : List Nat := List.range (dict_len + 1 - MIN_MATCH)

/-- The chain is primed before the tree. -/
def prime_hybrid (cast : Nat → Int) (data : Bytes) (dict_len max_offset depth : Nat) (st : Hybrid) :
    Hybrid :=
  ⟨(primed dict_len).foldl (ChainState.insert cast data) st.chain,
    st.tree.prime cast data dict_len max_offset depth⟩

/-- `prime`. -/
def prime (cast : Nat → Int) (f : Finder) (data : Bytes) (dict_len max_offset : Nat) : Finder :=
  match f with
  | .Fast st => .Fast ((primed dict_len).foldl (MatchState.insert cast data) st)
  | .DFast st => .DFast ((primed dict_len).foldl (DFastState.insert cast data dict_len) st)
  | .Chain st lazy_steps depth =>
    .Chain ((primed dict_len).foldl (ChainState.insert cast data) st) lazy_steps depth
  | .BtLazy st depth => .BtLazy (prime_hybrid cast data dict_len max_offset depth st) depth
  | .Opt st depth sufficient_len two_pass stats =>
    .Opt (prime_hybrid cast data dict_len max_offset depth st) depth sufficient_len two_pass stats

end Finder

/-! ## `encode/ldm.rs` -/

def LDM_MIN_MATCH : Nat := 64
def LDM_HASH_RATE_LOG : Nat := 5

/-- `ldm_hash`. -/
def ldm_hash (data : Bytes) (p : Nat) : Nat := read_u64 data p * 0x9E3779B185EBCA87 % 2 ^ 64

/-- `LdmSeq`. -/
structure LdmSeq where
  pos : Nat
  len : Nat
  offset : Nat
deriving DecidableEq, Repr

/-- `LdmState`. -/
structure LdmState where
  table : List Int
  hash_log : Nat
deriving DecidableEq, Repr

namespace LdmState

/-- `LdmState::new`. -/
def new (window_log : Nat) : LdmState :=
  let hash_log := clamp (window_log - 4) 10 24
  ⟨empty_table hash_log, hash_log⟩

/-- `reduce_index`. -/
def reduce_index (cast : Nat → Int) (drop : Nat) (st : LdmState) : LdmState :=
  { st with table := reduce_index_table cast drop st.table }

/-- The state of the loop of `generate`. -/
structure Loop where
  state : LdmState
  p : Nat
  out : List LdmSeq
deriving DecidableEq, Repr

/-- One iteration of the loop of `generate`. -/
def generate_step (cast : Nat → Int) (data : Bytes) (stop min_offset window : Nat) (s : Loop) :
    Loop :=
  let h := ldm_hash data s.p
  -- only about one position in `2 ^ LDM_HASH_RATE_LOG` is an index point
  if (h >>> (64 - s.state.hash_log - LDM_HASH_RATE_LOG)) &&& (2 ^ LDM_HASH_RATE_LOG - 1) ≠ 0 then
    { s with p := s.p + 1 }
  else
    let i := h >>> (64 - s.state.hash_log)
    let cand := slot s.state.table i
    let state := { s.state with table := s.state.table.set i (cast s.p) }
    let c := cand.toNat
    let offset := s.p - c
    let ml := common_tail data c s.p (stop - s.p) 0
    if 0 ≤ cand ∧ min_offset < offset ∧ offset ≤ window ∧ LDM_MIN_MATCH ≤ ml then
      ⟨state, s.p + ml, s.out ++ [⟨s.p, ml, offset % 2 ^ 32⟩]⟩
    else { s with state, p := s.p + 1 }

/-- `generate`. -/
def generate (cast : Nat → Int) (st : LdmState) (data : Bytes)
    (start stop min_offset window : Nat) : List LdmSeq × LdmState :=
  if stop < 8 ∨ stop - start < LDM_MIN_MATCH then ([], st)
  else
    let s := While.iterate (fun s : Loop => decide (s.p ≤ stop - 8))
      (generate_step cast data stop min_offset window) (stop - start) ⟨st, start, []⟩
    (s.out, s.state)

end LdmState

/-! ## `parse_with_ldm` -/

/-- The state of the loop of `parse_with_ldm`. -/
structure LdmLoop where
  finder : Finder
  cursor : Nat
  out : ParseOut
deriving DecidableEq, Repr

/-- The gap before position `pos`, parsed by the finder: the number of literals left at its end. -/
def parse_gap (cast : Nat → Int) (data : Bytes) (max_offset : Nat) (s : LdmLoop) (pos : Nat) :
    Nat × LdmLoop :=
  if s.cursor < pos then
    let (gap, finder) := s.finder.parse cast data s.cursor pos max_offset s.out.rep
    let g := gap.primary
    let consumed := (g.parse.seqs.map Seq.lit_len).sum
    (g.parse.literals.length - consumed,
      ⟨finder, pos, ⟨s.out.seqs ++ g.parse.seqs, s.out.literals ++ g.parse.literals, g.rep⟩⟩)
  else (0, s)

/-- One long match, after its gap. -/
def ldm_step (cast : Nat → Int) (data : Bytes) (max_offset : Nat) (s : LdmLoop) (m : LdmSeq) :
    LdmLoop :=
  let (ll, s) := parse_gap cast data max_offset s m.pos
  let ll0 := ll == 0
  let offset_value := encode_offset s.out.rep m.offset ll0
  ⟨s.finder, m.pos + m.len,
    ⟨s.out.seqs ++ [⟨ll % 2 ^ 32, m.len % 2 ^ 32, offset_value⟩], s.out.literals,
      (resolve s.out.rep offset_value ll0).2⟩⟩

/-- `parse_with_ldm`. -/
def parse_with_ldm (cast : Nat → Int) (finder : Finder) (data : Bytes) (start stop max_offset : Nat)
    (rep : Reps) (ldm : List LdmSeq) : Candidate × Finder :=
  let s := ldm.foldl (ldm_step cast data max_offset) ⟨finder, start, ⟨[], [], rep⟩⟩
  -- the tail is one more gap
  let (_, s) := parse_gap cast data max_offset s stop
  (⟨⟨s.out.seqs, s.out.literals⟩, s.out.rep⟩, s.finder)

end ZstdPure.Encode
