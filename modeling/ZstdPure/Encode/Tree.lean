import ZstdPure.Encode.Chain

/-!
# `encode/lz.rs`: the binary tree and the lazy parse over chain and tree
-/

namespace ZstdPure.Encode

open Sequences

def BT_INSERT_CAP : Nat := 1024

/-- `BtState`. -/
structure BtState where
  hash : List Int
  bt : List Int
  hash_log : Nat
  bt_log : Nat
deriving DecidableEq, Repr

namespace BtState

/-- `BtState::new`. The mask of the ring is kept as its log. -/
def new (hash_log window_log : Nat) : BtState :=
  let hash_log := clamp hash_log MIN_HASH_LOG MAX_HASH_LOG
  let bt_log := clamp window_log MIN_HASH_LOG MAX_BT_LOG
  ⟨empty_table hash_log, empty_table (bt_log + 1), hash_log, bt_log⟩

/-- `slide_period`. -/
def slide_period (st : BtState) : Nat := 2 ^ st.bt_log

/-- `window_low`. -/
def window_low (st : BtState) (pos max_offset : Nat) : Nat := pos - min max_offset (2 ^ st.bt_log)

/-- `2 * (pos & bt_mask)`: the slot of the smaller child; the next one is that of the larger. -/
def node (st : BtState) (pos : Nat) : Nat := 2 * (pos % 2 ^ st.bt_log)

/-- `reduce_index`. -/
def reduce_index (cast : Nat → Int) (drop : Nat) (st : BtState) : BtState :=
  { st with
    hash := reduce_index_table cast drop st.hash,
    bt := reduce_index_table cast drop st.bt }

/-- The bucket of position `pos`. -/
def bucket (st : BtState) (data : Bytes) (pos : Nat) : Nat := hash4 (read_u32 data pos) st.hash_log

/-- The state of an inserting descent. -/
structure Descent where
  bt : List Int
  match_index : Int
  smaller_ptr : Nat
  larger_ptr : Nat
  common_smaller : Nat
  common_larger : Nat
  /-- The matches that set a new longest length, and that length. -/
  out : List (Nat × Nat)
  best_len : Nat
deriving DecidableEq, Repr

/-- Where an inserting descent starts: the slots of `curr` are open. -/
def start_descent (st : BtState) (data : Bytes) (curr : Nat) : Descent :=
  ⟨st.bt, slot st.hash (st.bucket data curr), st.node curr, st.node curr + 1, 0, 0, [], 0⟩

/-- The open slots are closed. -/
def close (d : Descent) : List Int := (d.bt.set d.smaller_ptr (-1)).set d.larger_ptr (-1)

/-- Go below the node `mi` whose match with `curr` has length `ml`. -/
def descend (st : BtState) (data : Bytes) (curr mi ml : Nat) (d : Descent) : Descent :=
  let match_slot := st.node mi
  if byte_at data (mi + ml) < byte_at data (curr + ml) then
    let bt := d.bt.set d.smaller_ptr d.match_index
    { d with
      bt, common_smaller := ml, smaller_ptr := match_slot + 1,
      match_index := slot bt (match_slot + 1) }
  else
    let bt := d.bt.set d.larger_ptr d.match_index
    { d with
      bt, common_larger := ml, larger_ptr := match_slot,
      match_index := slot bt match_slot }

/-- The descent of `insert_and_get_all_matches` with `nb` comparisons left. -/
def descend_all (st : BtState) (data : Bytes) (curr stop window_low : Nat) : Nat → Descent → Descent
  | 0, d => d
  | nb + 1, d =>
    if 0 ≤ d.match_index ∧ window_low < d.match_index.toNat then
      let mi := d.match_index.toNat
      let from_ := min d.common_smaller d.common_larger
      let ml := from_ + common_len data (mi + from_) (curr + from_) stop
      let d :=
        if d.best_len < ml then
          { d with best_len := ml, out := d.out ++ [(ml % 2 ^ 32, (curr - mi) % 2 ^ 32)] }
        else d
      if curr + ml = stop then d
      else descend_all st data curr stop window_low nb (descend st data curr mi ml d)
    else d

/-- `insert_and_get_all_matches`. -/
def insert_and_get_all_matches (cast : Nat → Int) (data : Bytes) (stop max_offset nb_compares : Nat)
    (st : BtState) (curr : Nat) : List (Nat × Nat) × BtState :=
  let d := descend_all st data curr stop (st.window_low curr max_offset) nb_compares
    (st.start_descent data curr)
  (d.out, { st with hash := st.hash.set (st.bucket data curr) (cast curr), bt := close d })

/-- The descent of `find_longest` with `nb` comparisons left: the best length and position. -/
def find_longest_from (st : BtState) (data : Bytes) (ip stop window_low : Nat) :
    Nat → Int → Nat → Nat → Nat × Nat → Nat × Nat
  | 0, _, _, _, best => best
  | nb + 1, match_index, common_smaller, common_larger, best =>
    if 0 ≤ match_index ∧ window_low < match_index.toNat then
      let mi := match_index.toNat
      let from_ := min common_smaller common_larger
      let ml := from_ + common_len data (mi + from_) (ip + from_) stop
      let best := if best.1 < ml then (ml, mi) else best
      if ip + ml = stop then best
      else if byte_at data (mi + ml) < byte_at data (ip + ml) then
        find_longest_from st data ip stop window_low nb (slot st.bt (st.node mi + 1)) ml
          common_larger best
      else
        find_longest_from st data ip stop window_low nb (slot st.bt (st.node mi)) common_smaller ml
          best
    else best

/-- `find_longest`. -/
def find_longest (st : BtState) (data : Bytes) (ip stop max_offset nb_compares : Nat) : Nat × Nat :=
  find_longest_from st data ip stop (st.window_low ip max_offset) nb_compares
    (slot st.hash (st.bucket data ip)) 0 0 (0, 0)

/-- The descent of `insert_bt1`: as that of `insert_and_get_all_matches`, with the match lengths
cut at `ext_end` and no matches collected. -/
def descend_bt1 (st : BtState) (data : Bytes) (curr stop ext_end window_low : Nat) :
    Nat → Descent → Descent
  | 0, d => d
  | nb + 1, d =>
    if 0 ≤ d.match_index ∧ window_low < d.match_index.toNat then
      let mi := d.match_index.toNat
      let from_ := min d.common_smaller d.common_larger
      let ml := common_tail data mi curr (ext_end - curr) from_
      if curr + ml = stop ∨ curr + ml = ext_end then d
      else descend_bt1 st data curr stop ext_end window_low nb (descend st data curr mi ml d)
    else d

/-- `insert_bt1`. -/
def insert_bt1 (cast : Nat → Int) (data : Bytes) (stop max_offset nb_compares : Nat)
    (st : BtState) (curr : Nat) : BtState :=
  let d := descend_bt1 st data curr stop (min (curr + BT_INSERT_CAP) stop)
    (st.window_low curr max_offset) nb_compares (st.start_descent data curr)
  { st with hash := st.hash.set (st.bucket data curr) (cast curr), bt := close d }

/-- `prime`. -/
def prime (cast : Nat → Int) (data : Bytes) (dict_len max_offset nb_compares : Nat) (st : BtState) :
    BtState :=
  (List.range (dict_len + 1 - MIN_MATCH)).foldl
    (insert_bt1 cast data dict_len max_offset nb_compares) st

end BtState

/-- `bt_lazy_best`: the match of the chain or of the tree, as length and position. -/
def bt_lazy_best (chain : ChainState) (tree : BtState) (data : Bytes)
    (ip stop max_offset depth : Nat) (rep : Reps) (ll0 : Bool) : Nat × Nat :=
  let c := chain.find data ip stop max_offset depth
  let t := tree.find_longest data ip stop max_offset depth
  let gain (m : Nat × Nat) : Int := LazyState.gain m.1 (offset_bits rep (ip - m.2) ll0)
  if MIN_MATCH ≤ t.1 ∧ (c.1 < MIN_MATCH ∨ gain c < gain t) then t else c

/-- `bt_best_match`. -/
def bt_best_match (chain : ChainState) (tree : BtState) (data : Bytes)
    (ip stop max_offset depth : Nat) (rep : Reps) (ll0 : Bool) : Nat × Nat :=
  let f := bt_lazy_best chain tree data ip stop max_offset depth rep ll0
  let r := rep_match_at data ip stop rep ll0
  if MIN_MATCH ≤ r.1 ∧ f.1 ≤ r.1 then r
  else if MIN_MATCH ≤ f.1 then (f.1, ip - f.2)
  else (0, 0)

/-- The chain and the tree. -/
structure Hybrid where
  chain : ChainState
  tree : BtState
deriving DecidableEq, Repr

/-- A position is indexed in both. -/
def Hybrid.insert (cast : Nat → Int) (data : Bytes) (stop max_offset depth : Nat) (st : Hybrid)
    (pos : Nat) : Hybrid :=
  ⟨st.chain.insert cast data pos, st.tree.insert_bt1 cast data stop max_offset depth pos⟩

/-- `bt_lazy_parse_block`. -/
def bt_lazy_parse_block (cast : Nat → Int) (data : Bytes) (start stop max_offset : Nat) (rep : Reps)
    (depth : Nat) (st : Hybrid) : Candidate × Hybrid :=
  LazyState.parse_block
    ⟨Hybrid.insert cast data stop max_offset depth,
      fun st p => bt_best_match st.chain st.tree data p stop max_offset depth⟩
    data start stop 2 rep st

end ZstdPure.Encode
