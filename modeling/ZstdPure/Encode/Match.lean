import ZstdPure.Encode.Block
import ZstdPure.Encode.Params
import ZstdPure.Lib.While

/-!
# `encode/lz.rs`: match lengths, offsets, and the two single-slot finders

Tables hold positions, `-1` where a slot is empty. How a position is stored is a parameter `cast`
of every function that stores one; in the code it is `asI32`.
-/

namespace ZstdPure.Encode

open Sequences

def MIN_MATCH : Nat := 4
def MIN_HASH_LOG : Nat := 6
def MAX_HASH_LOG : Nat := 22
def MAX_BT_LOG : Nat := 23

/-- `data[p]`. -/
def byte_at (data : Bytes) (p : Nat) : UInt8 := data.getD p 0

/-- `read_u32`. -/
def read_u32 (data : Bytes) (p : Nat) : Nat := leNat ((data.drop p).take 4)

/-- `read_u64`. -/
def read_u64 (data : Bytes) (p : Nat) : Nat := leNat ((data.drop p).take 8)

/-- `data[a..b]`. -/
def range_of (data : Bytes) (a b : Nat) : Bytes := (data.take b).drop a

/-- `hash4`. -/
def hash4 (v hash_log : Nat) : Nat := (v * 2654435761 % 2 ^ 32) >>> (32 - hash_log)

/-- `hash8`. -/
def hash8 (v hash_log : Nat) : Nat := (v * 0x9E3779B185EBCA87 % 2 ^ 64) >>> (64 - hash_log)

/-- `hash_pos`. -/
def hash_pos (data : Bytes) (pos hash_log mls : Nat) : Nat :=
  if 5 ≤ mls ∧ pos + 8 ≤ data.length then
    let u := read_u64 data pos
    let (shift, prime) := if mls = 5 then (24, 889523592379) else (16, 227718039650203)
    ((u <<< shift) % 2 ^ 64 * prime % 2 ^ 64) >>> (64 - hash_log)
  else hash4 (read_u32 data pos) hash_log

/-! ## Match lengths -/

/-- `x.trailing_zeros()` of a 64-bit `x`. -/
def trailing_zeros (x : Nat) : Nat :=
  if x = 0 then 64 else if x % 2 = 1 then 0 else trailing_zeros (x / 2) + 1

/-- The byte loop of `common_len`. -/
def common_tail (data : Bytes) (a b max i : Nat) : Nat :=
  if i < max ∧ byte_at data (a + i) = byte_at data (b + i) then common_tail data a b max (i + 1)
  else i
termination_by max - i

/-- The word loop of `common_len`. -/
def common_words (data : Bytes) (a b max i : Nat) : Nat :=
  if i + 8 ≤ max then
    let x := read_u64 data (a + i) ^^^ read_u64 data (b + i)
    if x ≠ 0 then i + trailing_zeros x / 8 else common_words data a b max (i + 8)
  else common_tail data a b max i
termination_by max - i

/-- `common_len`. -/
def common_len (data : Bytes) (a b stop : Nat) : Nat := common_words data a b (stop - b) 0

/-! ## Offsets -/

/-- `resolve_offset` of the decoder, which faults on no offset value the encoder gives it. -/
def resolve (rep : Reps) (offset_value : Nat) (ll0 : Bool) : Nat × Reps :=
  match resolve_offset rep offset_value ll0 with
  | .ok r => r
  | .error _ => (0, rep)

/-- `encode_offset`: the least repeat code that resolves to `offset`, else the literal form. -/
def encode_offset (rep : Reps) (offset : Nat) (ll0 : Bool) : Nat :=
  if (resolve rep 1 ll0).1 = offset then 1
  else if (resolve rep 2 ll0).1 = offset then 2
  else if (resolve rep 3 ll0).1 = offset then 3
  else offset + 3

/-- `rep_resolved_offset`. -/
def rep_resolved_offset (rep : Reps) (offset_value : Nat) (ll0 : Bool) : Nat :=
  match offset_value - 1 + ll0.toNat with
  | 0 => rep.r0
  | 1 => rep.r1
  | 2 => rep.r2
  | _ => rep.r0 - 1

/-- `rep_match_at`: length and distance, zeros if there is no match. -/
def rep_match_at (data : Bytes) (p stop : Nat) (rep : Reps) (ll0 : Bool) : Nat × Nat :=
  let off := rep_resolved_offset rep 1 ll0
  if off = 0 ∨ p < off then (0, 0)
  else
    let len := common_len data (p - off) p stop
    if MIN_MATCH ≤ len then (len, off) else (0, 0)

/-- `offset_bits`. -/
def offset_bits (rep : Reps) (moff : Nat) (ll0 : Bool) : Nat :=
  of_code (encode_offset rep (moff % 2 ^ 32) ll0)

/-! ## Tables of positions -/

/-- `reduce_index_entry`. -/
def reduce_index_entry (cast : Nat → Int) (drop : Nat) (entry : Int) : Int :=
  if entry < 0 then entry
  else if drop ≤ entry.toNat then cast (entry.toNat - drop) else -1

/-- `reduce_index_table`. -/
def reduce_index_table (cast : Nat → Int) (drop : Nat) (table : List Int) : List Int :=
  table.map (reduce_index_entry cast drop)

/-- `vec![-1; 1 << log]`. -/
def empty_table (log : Nat) : List Int := List.replicate (2 ^ log) (-1)

/-- `table[h]`. -/
def slot (table : List Int) (h : Nat) : Int := table.getD h (-1)

/-! ## The parse in progress -/

/-- What all the greedy parses build: the sequences, the literals, and the repeat offsets. -/
structure ParseOut where
  seqs : List Seq
  literals : Bytes
  rep : Reps
deriving DecidableEq, Repr

/-- Append the literals `data[anchor..p]` and a match of `match_len` bytes at distance `offset`. -/
def ParseOut.push (out : ParseOut) (data : Bytes) (anchor p match_len offset : Nat) : ParseOut :=
  let lit_len := p - anchor
  let ll0 := lit_len == 0
  let offset_value := encode_offset out.rep (offset % 2 ^ 32) ll0
  ⟨out.seqs ++ [⟨lit_len % 2 ^ 32, match_len % 2 ^ 32, offset_value⟩],
    out.literals ++ range_of data anchor p, (resolve out.rep offset_value ll0).2⟩

/-- The result of a parse that ends with the literals `data[anchor..stop]`. -/
def ParseOut.finish (out : ParseOut) (data : Bytes) (anchor stop : Nat) : Candidate :=
  ⟨⟨out.seqs, out.literals ++ range_of data anchor stop⟩, out.rep⟩

/-- The parse of a range too short for a match. -/
def literal_parse (data : Bytes) (start stop : Nat) (rep : Reps) : Candidate :=
  ⟨⟨[], range_of data start stop⟩, rep⟩

/-! ## `MatchState` -/

/-- `MatchState`. -/
structure MatchState where
  table : List Int
  hash_log : Nat
deriving DecidableEq, Repr

namespace MatchState

/-- `MatchState::new`. -/
def new (hash_log : Nat) : MatchState :=
  let hash_log := clamp hash_log MIN_HASH_LOG MAX_HASH_LOG
  ⟨empty_table hash_log, hash_log⟩

/-- `reduce_index`. -/
def reduce_index (cast : Nat → Int) (drop : Nat) (st : MatchState) : MatchState :=
  { st with table := reduce_index_table cast drop st.table }

/-- The slot of position `p`. -/
def hash (st : MatchState) (data : Bytes) (p : Nat) : Nat := hash4 (read_u32 data p) st.hash_log

/-- `state.table[hash4(..)] = p`. -/
def insert (cast : Nat → Int) (data : Bytes) (st : MatchState) (p : Nat) : MatchState :=
  { st with table := st.table.set (st.hash data p) (cast p) }

/-- The state of the loop of `parse_block`. -/
structure Loop where
  state : MatchState
  anchor : Nat
  p : Nat
  out : ParseOut
deriving DecidableEq, Repr

/-- One iteration of the loop of `parse_block`. -/
def parse_step (cast : Nat → Int) (data : Bytes) (stop max_offset : Nat) (s : Loop) : Loop :=
  let cand := slot s.state.table (s.state.hash data s.p)
  let state := s.state.insert cast data s.p
  let c := cand.toNat
  let offset := s.p - c
  if 0 ≤ cand ∧ offset ≤ max_offset ∧ 1 ≤ offset ∧ read_u32 data c = read_u32 data s.p then
    let ml := common_len data c s.p stop
    -- the interior positions of the match
    let last := min (s.p + ml) (stop - MIN_MATCH + 1)
    let state := (List.range' (s.p + 1) (last - (s.p + 1))).foldl (insert cast data) state
    ⟨state, s.p + ml, s.p + ml, s.out.push data s.anchor s.p ml offset⟩
  else { s with state, p := s.p + 1 }

/-- `parse_block`. -/
def parse_block (cast : Nat → Int) (data : Bytes) (start stop max_offset : Nat) (rep : Reps)
    (st : MatchState) : Candidate × MatchState :=
  if stop < start + MIN_MATCH + 1 then (literal_parse data start stop rep, st)
  else
    let s := While.iterate (fun s : Loop => decide (s.p ≤ stop - MIN_MATCH))
      (parse_step cast data stop max_offset) (stop - start) ⟨st, start, start, ⟨[], [], rep⟩⟩
    (s.out.finish data s.anchor stop, s.state)

end MatchState

/-! ## `DFastState` -/

/-- `DFastState`. -/
structure DFastState where
  long : List Int
  short : List Int
  long_log : Nat
  short_log : Nat
deriving DecidableEq, Repr

namespace DFastState

/-- `DFastState::new`. -/
def new (long_log short_log : Nat) : DFastState :=
  let long_log := clamp long_log MIN_HASH_LOG MAX_HASH_LOG
  let short_log := clamp short_log MIN_HASH_LOG MAX_HASH_LOG
  ⟨empty_table long_log, empty_table short_log, long_log, short_log⟩

/-- `reduce_index`. -/
def reduce_index (cast : Nat → Int) (drop : Nat) (st : DFastState) : DFastState :=
  { st with
    long := reduce_index_table cast drop st.long,
    short := reduce_index_table cast drop st.short }

/-- The 4-byte value at `p`, which is the low half of the 8-byte value where there is one. -/
def short_value (data : Bytes) (p stop : Nat) : Nat :=
  if p + 8 ≤ stop then read_u64 data p % 2 ^ 32 else read_u32 data p

/-- `insert`. -/
def insert (cast : Nat → Int) (data : Bytes) (stop : Nat) (st : DFastState) (pos : Nat) :
    DFastState :=
  let short := st.short.set (hash4 (short_value data pos stop) st.short_log) (cast pos)
  if pos + 8 ≤ stop then
    { st with short, long := st.long.set (hash8 (read_u64 data pos) st.long_log) (cast pos) }
  else { st with short }

/-- The candidate of the long table at `p`. -/
def cand_long (st : DFastState) (data : Bytes) (p stop : Nat) : Int :=
  if p + 8 ≤ stop then slot st.long (hash8 (read_u64 data p) st.long_log) else -1

/-- The candidate of the short table at `p`. -/
def cand_short (st : DFastState) (data : Bytes) (p stop : Nat) : Int :=
  slot st.short (hash4 (short_value data p stop) st.short_log)

/-- The better of the match found so far and the one at `cand`, as length and distance. -/
def better (data : Bytes) (p stop max_offset : Nat) (best : Nat × Nat) (cand : Int) : Nat × Nat :=
  let c := cand.toNat
  let offset := p - c
  if 0 ≤ cand ∧ offset ≤ max_offset ∧ read_u32 data c = short_value data p stop then
    let ml := common_len data c p stop
    if best.1 < ml then (ml, offset) else best
  else best

/-- The best match at `p`: of the two tables, then of the first repeat offset. -/
def best_match (st : DFastState) (data : Bytes) (p stop max_offset : Nat) (rep : Reps)
    (ll0 : Bool) : Nat × Nat :=
  let best := better data p stop max_offset (MIN_MATCH - 1, 0) (st.cand_long data p stop)
  let best := better data p stop max_offset best (st.cand_short data p stop)
  let r := rep_match_at data p stop rep ll0
  if MIN_MATCH ≤ r.1 ∧ best.1 ≤ r.1 then r else best

/-- The state of the loop of `dfast_parse_block`. -/
structure Loop where
  state : DFastState
  anchor : Nat
  p : Nat
  out : ParseOut
deriving DecidableEq, Repr

/-- One iteration of the loop of `dfast_parse_block`. -/
def parse_step (cast : Nat → Int) (data : Bytes) (stop max_offset : Nat) (s : Loop) : Loop :=
  let best := s.state.best_match data s.p stop max_offset s.out.rep (s.p == s.anchor)
  let state := s.state.insert cast data stop s.p
  if MIN_MATCH ≤ best.1 then
    let last := min (s.p + best.1) (stop - MIN_MATCH + 1)
    let state := (List.range' (s.p + 1) (last - (s.p + 1))).foldl (insert cast data stop) state
    ⟨state, s.p + best.1, s.p + best.1, s.out.push data s.anchor s.p best.1 best.2⟩
  else { s with state, p := s.p + 1 }

/-- `dfast_parse_block`. -/
def dfast_parse_block (cast : Nat → Int) (data : Bytes) (start stop max_offset : Nat) (rep : Reps)
    (st : DFastState) : Candidate × DFastState :=
  if stop < start + MIN_MATCH + 1 then (literal_parse data start stop rep, st)
  else
    let s := While.iterate (fun s : Loop => decide (s.p ≤ stop - MIN_MATCH))
      (parse_step cast data stop max_offset) (stop - start) ⟨st, start, start, ⟨[], [], rep⟩⟩
    (s.out.finish data s.anchor stop, s.state)

end DFastState

end ZstdPure.Encode
