import ZstdPure.Encode.Match

/-!
# `encode/lz.rs`: the hash chain and the greedy and lazy parses
-/

namespace ZstdPure.Encode

open Sequences

/-- `ChainState`. -/
structure ChainState where
  head : List Int
  chain : List Int
  hash_log : Nat
  chain_log : Nat
  mls : Nat
deriving DecidableEq, Repr

namespace ChainState

/-- `ChainState::new`. The mask of the ring is kept as its log. -/
def new (hash_log chain_log mls : Nat) : ChainState :=
  let hash_log := clamp hash_log MIN_HASH_LOG MAX_HASH_LOG
  let chain_log := clamp chain_log MIN_HASH_LOG MAX_HASH_LOG
  ⟨empty_table hash_log, empty_table chain_log, hash_log, chain_log, clamp mls 4 6⟩

/-- `slide_period`. -/
def slide_period (st : ChainState) : Nat := 2 ^ st.chain_log

/-- `pos & chain_mask`. -/
def ring (st : ChainState) (pos : Nat) : Nat := pos % 2 ^ st.chain_log

/-- The bucket of position `pos`. -/
def hash (st : ChainState) (data : Bytes) (pos : Nat) : Nat :=
  hash_pos data pos st.hash_log st.mls

/-- `insert`. -/
def insert (cast : Nat → Int) (data : Bytes) (st : ChainState) (pos : Nat) : ChainState :=
  let h := st.hash data pos
  { st with
    chain := st.chain.set (st.ring pos) (slot st.head h),
    head := st.head.set h (cast pos) }

/-- `reduce_index`. -/
def reduce_index (cast : Nat → Int) (drop : Nat) (st : ChainState) : ChainState :=
  { st with
    head := reduce_index_table cast drop st.head,
    chain := reduce_index_table cast drop st.chain }

/-- Whether the walk goes on from candidate `c` to `next`: chains strictly recede. -/
def recedes (c : Nat) (next : Int) : Bool := decide (0 ≤ next ∧ next.toNat < c)

/-- The walk of `find` from candidate `cand` with `n` steps left: the best length and position. -/
def find_from (st : ChainState) (data : Bytes) (ip stop max_offset : Nat) :
    Nat → Int → Nat × Nat → Nat × Nat
  | 0, _, best => best
  | n + 1, cand, best =>
    let c := cand.toNat
    if cand < 0 ∨ max_offset < ip - c then best
    else
      let ml := common_len data c ip stop
      let best :=
        if ip + best.1 < stop ∧ byte_at data (c + best.1) = byte_at data (ip + best.1) ∧ best.1 < ml
        then (ml, c) else best
      let next := slot st.chain (st.ring c)
      if recedes c next then find_from st data ip stop max_offset n next best else best

/-- `find`. -/
def find (st : ChainState) (data : Bytes) (ip stop max_offset depth : Nat) : Nat × Nat :=
  let best := find_from st data ip stop max_offset depth (slot st.head (st.hash data ip))
    (MIN_MATCH - 1, 0)
  if MIN_MATCH ≤ best.1 then best else (0, 0)

/-- The walk of `find_matches`: `best` is the longest length so far, `out` the matches. -/
def find_matches_from (st : ChainState) (data : Bytes) (ip stop max_offset cap : Nat) :
    Nat → Int → Nat → List (Nat × Nat) → List (Nat × Nat)
  | 0, _, _, out => out
  | n + 1, cand, best, out =>
    let c := cand.toNat
    let offset := ip - c
    if cand < 0 ∨ max_offset < offset then out
    else
      let ml := common_len data c ip (min stop (ip + cap))
      let better := ip + best < stop ∧ byte_at data (c + best) = byte_at data (ip + best) ∧
        best < ml
      let out := if better then out ++ [(ml % 2 ^ 32, offset % 2 ^ 32)] else out
      let best := if better then ml else best
      -- long enough: the parser extends this one fully
      if better ∧ cap ≤ best then out
      else
        let next := slot st.chain (st.ring c)
        if recedes c next then find_matches_from st data ip stop max_offset cap n next best out
        else out

/-- `find_matches`. -/
def find_matches (st : ChainState) (data : Bytes) (ip stop max_offset depth cap : Nat) :
    List (Nat × Nat) :=
  find_matches_from st data ip stop max_offset cap depth (slot st.head (st.hash data ip))
    (MIN_MATCH - 1) []

/-- `extend_full`. -/
def extend_full (data : Bytes) (ip c stop : Nat) : Nat := common_len data c ip stop

/-- `best_match_at`. -/
def best_match_at (st : ChainState) (data : Bytes) (p stop max_offset depth : Nat) (rep : Reps)
    (ll0 : Bool) : Nat × Nat :=
  let c := st.find data p stop max_offset depth
  let r := rep_match_at data p stop rep ll0
  if MIN_MATCH ≤ r.1 ∧ c.1 ≤ r.1 then r
  else if MIN_MATCH ≤ c.1 then (c.1, p - c.2)
  else (0, 0)

end ChainState

/-! ## The lazy parse

The lazy parses over the chain alone and over the chain and the tree are the same code but for how
a position is indexed and how the best match at a position is found. -/

/-- What a lazy parse needs of its finder. -/
structure LazyFinder (σ : Type) where
  /-- Index one position. -/
  insert : σ → Nat → σ
  /-- The best match at a position: length and distance. -/
  best : σ → Nat → Reps → Bool → Nat × Nat

/-- The state of a lazy parse; the positions below `inserted` are indexed. -/
structure LazyState (σ : Type) where
  finder : σ
  anchor : Nat
  ip : Nat
  inserted : Nat
  out : ParseOut

namespace LazyState

variable {σ : Type}

/-- `while inserted < upto { insert(inserted) }`. -/
def index_upto (f : LazyFinder σ) (s : LazyState σ) (upto : Nat) : LazyState σ :=
  { s with
    finder := (List.range' s.inserted (upto - s.inserted)).foldl f.insert s.finder,
    inserted := max s.inserted upto }

/-- The gain of a match of `ml` bytes whose offset costs `obits`. -/
def gain (ml obits : Nat) : Int := (ml : Int) * 4 - obits

/-- The look-ahead loop with `steps` left, at the match of `ml` bytes at distance `moff`: the state
and the match chosen. -/
def look_ahead (f : LazyFinder σ) (ilimit : Nat) :
    Nat → LazyState σ → Nat → Nat → Nat → LazyState σ × Nat × Nat
  | 0, s, ml, moff, _ => (s, ml, moff)
  | steps + 1, s, ml, moff, cur_obits =>
    if s.ip < ilimit then
      let s := s.index_upto f (s.ip + 1)
      let (ml1, moff1) := f.best s.finder (s.ip + 1) s.out.rep false
      let la_obits := offset_bits s.out.rep moff1 false
      if MIN_MATCH ≤ ml1 ∧ gain ml cur_obits + 4 < gain ml1 la_obits then
        look_ahead f ilimit steps { s with ip := s.ip + 1 } ml1 moff1 la_obits
      else (s, ml, moff)
    else (s, ml, moff)

/-- One iteration of the loop of `lazy_parse_block`. -/
def parse_step (f : LazyFinder σ) (data : Bytes) (stop lazy_steps : Nat) (s : LazyState σ) :
    LazyState σ :=
  let ilimit := stop - MIN_MATCH
  let s := s.index_upto f s.ip
  let (ml, moff) := f.best s.finder s.ip s.out.rep (s.ip == s.anchor)
  if ml < MIN_MATCH then { s with ip := s.ip + 1 }
  else
    let (s, ml, moff) := look_ahead f ilimit lazy_steps s ml moff
      (offset_bits s.out.rep moff (s.ip == s.anchor))
    let out := s.out.push data s.anchor s.ip ml moff
    let match_end := s.ip + ml
    -- the interior of the match
    let s := s.index_upto f (min match_end (ilimit + 1))
    { s with ip := match_end, anchor := match_end, out }

/-- `lazy_parse_block` and `bt_lazy_parse_block`. -/
def parse_block (f : LazyFinder σ) (data : Bytes) (start stop lazy_steps : Nat) (rep : Reps)
    (finder : σ) : Candidate × σ :=
  if stop < start + MIN_MATCH + 1 then (literal_parse data start stop rep, finder)
  else
    let s := While.iterate (fun s : LazyState σ => decide (s.ip ≤ stop - MIN_MATCH))
      (parse_step f data stop lazy_steps) (stop - start) ⟨finder, start, start, start,
        ⟨[], [], rep⟩⟩
    (s.out.finish data s.anchor stop, s.finder)

end LazyState

/-- `lazy_parse_block`. -/
def lazy_parse_block (cast : Nat → Int) (data : Bytes) (start stop max_offset : Nat) (rep : Reps)
    (lazy_steps depth : Nat) (st : ChainState) : Candidate × ChainState :=
  LazyState.parse_block
    ⟨ChainState.insert cast data, fun st p => st.best_match_at data p stop max_offset depth⟩
    data start stop lazy_steps rep st

end ZstdPure.Encode
