import ZstdPure.Fse

/-!
# `sequences.rs`: the sequences section and its execution
-/

namespace ZstdPure.Sequences

open Outcome Fse

/-- `SeqTables`: the cached tables of the three channels. -/
structure SeqTables where
  ll : Option FseDecodeTable
  of : Option FseDecodeTable
  ml : Option FseDecodeTable
deriving DecidableEq, Repr

/-- `SeqTables::default`. -/
def SeqTables.default : SeqTables := ⟨none, none, none⟩

def LL_BASE : List Nat :=
  [0, 1, 2, 3, 4, 5, 6, 7, 8, 9, 10, 11, 12, 13, 14, 15, 16, 18, 20, 22, 24, 28, 32, 40, 48, 64,
    128, 256, 512, 1024, 2048, 4096, 8192, 16384, 32768, 65536]

def LL_BITS : List Nat :=
  [0, 0, 0, 0, 0, 0, 0, 0, 0, 0, 0, 0, 0, 0, 0, 0, 1, 1, 1, 1, 2, 2, 3, 3, 4, 6, 7, 8, 9, 10, 11,
    12, 13, 14, 15, 16]

def ML_BASE : List Nat :=
  [3, 4, 5, 6, 7, 8, 9, 10, 11, 12, 13, 14, 15, 16, 17, 18, 19, 20, 21, 22, 23, 24, 25, 26, 27,
    28, 29, 30, 31, 32, 33, 34, 35, 37, 39, 41, 43, 47, 51, 59, 67, 83, 99, 131, 259, 515, 1027,
    2051, 4099, 8195, 16387, 32771, 65539]

def ML_BITS : List Nat :=
  [0, 0, 0, 0, 0, 0, 0, 0, 0, 0, 0, 0, 0, 0, 0, 0, 0, 0, 0, 0, 0, 0, 0, 0, 0, 0, 0, 0, 0, 0, 0, 0,
    1, 1, 1, 1, 2, 2, 3, 3, 4, 4, 5, 7, 8, 9, 10, 11, 12, 13, 14, 15, 16]

def LL_DEFAULT : List Int :=
  [4, 3, 2, 2, 2, 2, 2, 2, 2, 2, 2, 2, 2, 1, 1, 1, 2, 2, 2, 2, 2, 2, 2, 2, 2, 3, 2, 1, 1, 1, 1, 1,
    -1, -1, -1, -1]

def OF_DEFAULT : List Int :=
  [1, 1, 1, 1, 1, 1, 2, 2, 2, 1, 1, 1, 1, 1, 1, 1, 1, 1, 1, 1, 1, 1, 1, 1, -1, -1, -1, -1, -1]

def ML_DEFAULT : List Int :=
  [1, 4, 3, 2, 2, 2, 2, 2, 2, 1, 1, 1, 1, 1, 1, 1, 1, 1, 1, 1, 1, 1, 1, 1, 1, 1, 1, 1, 1, 1, 1, 1,
    1, 1, 1, 1, 1, 1, 1, 1, 1, 1, 1, 1, 1, 1, -1, -1, -1, -1, -1, -1, -1]

/-! ## Table modes -/

/-- `Mode`. -/
inductive Mode where
  | Predefined
  | Rle (symbol : Nat)
  | Fse (table : FseDecodeTable)
  | Repeat
deriving DecidableEq, Repr

/-- `parse_mode`: the mode and the position after its description. -/
def parse_mode (raw : Nat) (src : Bytes) (p max_log : Nat) : Res (Mode × Nat) := do
  if raw = 0 then pure (.Predefined, p)
  else if raw = 1 then
    if src.length ≤ p then fail (.Truncated "RLE sequence symbol" 1)
    else
      let s ← get src p
      let p ← add 64 p 1
      pure (.Rle s.toNat, p)
  else if raw = 2 then
    let desc ← sliceFrom src p
    let nc ← read_ncount desc max_log
    let p ← add 64 p nc.bytes_consumed
    let table ← build_dtable nc.counts nc.max_symbol nc.table_log
    pure (.Fse table, p)
  else pure (.Repeat, p)

/-- `rle_table`. -/
def rle_table (symbol : Nat) : FseDecodeTable :=
  ⟨0, ⟨symbol, 0, 0⟩ :: List.replicate (FSE_DTABLE_SIZE - 1) FseEntry.zero⟩

/-- `resolve_table`: the table of a channel, which is also the cache afterwards. -/
def resolve_table (mode : Mode) (default_dist : List Int) (default_max_symbol default_log : Nat)
    (cache : Option FseDecodeTable) (name : String) : Res FseDecodeTable :=
  match mode with
  | .Repeat =>
    match cache with
    | some t => pure t
    | none => fail (.Invalid "repeat sequence table" s!"no cached {name} table to repeat")
  | .Predefined => build_dtable default_dist default_max_symbol default_log
  | .Rle s => pure (rle_table s)
  | .Fse t => pure t

/-! ## Repeat offsets -/

/-- The three repeat offsets `rep`. -/
structure Reps where
  r0 : Nat
  r1 : Nat
  r2 : Nat
deriving DecidableEq, Repr

/-- `rep[k]`. -/
def Reps.at_ (rep : Reps) : Nat → Res Nat
  | 0 => pure rep.r0
  | 1 => pure rep.r1
  | 2 => pure rep.r2
  | _ => crash .index

/-- `resolve_offset`: the copy offset and the repeat offsets after it. -/
def resolve_offset (rep : Reps) (offset_value : Nat) (ll0 : Bool) : Res (Nat × Reps) := do
  if 3 < offset_value then
    let off ← sub offset_value 3
    pure (off, ⟨off, rep.r0, rep.r1⟩)
  else
    let code ← sub offset_value 1
    let rep_code ← add 32 code ll0.toNat
    if rep_code = 0 then pure (rep.r0, rep)
    else
      -- `saturating_sub`
      let off ← (if rep_code = 3 then pure (rep.r0 - 1) else rep.at_ rep_code)
      pure (off, ⟨off, rep.r0, if 2 ≤ rep_code then rep.r1 else rep.r2⟩)

/-! ## Copying -/

/-- `copy_power_of_two_pattern`. -/
def copy_power_of_two_pattern (out : Bytes) (start offset match_len : Nat) : Res Bytes := do
  let stop ← add 64 start offset
  let pattern ← slice out start stop
  let chunk ← copyAt (List.replicate 64 0) 0 pattern
  let (chunk, _) ← loop (fun s : Bytes × Nat => decide (s.2 < 64))
    (fun s => do
      let free ← sub 64 s.2
      let n := min s.2 free
      let head ← slice s.1 0 n
      let chunk ← copyAt s.1 s.2 head
      let filled ← add 64 s.2 n
      pure (chunk, filled))
    65 (chunk, offset)
  let (out, remaining) ← loop (fun s : Bytes × Nat => decide (64 ≤ s.2))
    (fun s => do
      let remaining ← sub s.2 64
      pure (s.1 ++ chunk, remaining))
    (match_len + 1) (out, match_len)
  if 0 < remaining then
    let part ← slice chunk 0 remaining
    pure (out ++ part)
  else pure out

/-- `out.extend_from_within(start..start + n)`. -/
def extend_from_within (out : Bytes) (start n : Nat) : Res Bytes := do
  let stop ← add 64 start n
  let part ← slice out start stop
  pure (out ++ part)

/-- Copy `match_len` bytes from `actual_offset` back. -/
def copy_match (out : Bytes) (actual_offset match_len : Nat) : Res Bytes := do
  let start ← sub out.length actual_offset
  if match_len ≤ actual_offset then extend_from_within out start match_len
  else if actual_offset = 1 then
    let b ← get out start
    pure (out ++ List.replicate match_len b)
  else if actual_offset = 2 ∨ actual_offset = 4 ∨ actual_offset = 8 then
    copy_power_of_two_pattern out start actual_offset match_len
  else
    let (out, _) ← loop (fun s : Bytes × Nat => decide (0 < s.2))
      (fun s => do
        let avail ← sub s.1.length start
        let n := min s.2 avail
        let out ← extend_from_within s.1 start n
        let remaining ← sub s.2 n
        pure (out, remaining))
      (match_len + 1) (out, match_len)
    pure out

/-! ## The sequence loop -/

/-- A match executed by the decoder: the length of the buffer before it, and its distance. The
code keeps no such record; it is carried along for the statements about match distances. -/
structure Match where
  hist : Nat
  distance : Nat
deriving DecidableEq, Repr

/-- The state of the sequence loop. -/
structure ExecState where
  br : ReverseBitReader
  s_ll : Nat
  s_of : Nat
  s_ml : Nat
  out : Bytes
  rep : Reps
  lit_pos : Nat
  matches_ : List Match
deriving DecidableEq, Repr

/-- The inputs of the sequence loop that do not change. -/
structure ExecEnv where
  ll_table : FseDecodeTable
  of_table : FseDecodeTable
  ml_table : FseDecodeTable
  literals : Bytes
  dict_len : Nat
  max_output : Nat
deriving DecidableEq, Repr

/-- `headroom`: the bytes still allowed before the ceiling (`saturating_sub`). -/
def headroom (dict_len max_output : Nat) (out : Bytes) : Res Nat := do
  let real ← sub out.length dict_len
  pure (max_output - real)

/-- One decoded triple. -/
structure Triple where
  lit_len : Nat
  match_len : Nat
  offset_value : Nat
deriving DecidableEq, Repr

/-- The extra bits of one sequence: offset, then match length, then literals length. -/
def read_triple (ll_code ml_code of_code : Nat) (br : ReverseBitReader) :
    Res (Triple × ReverseBitReader) := do
  let one ← shl 32 1 of_code
  let (of_bits, br) ← br.read_lazy of_code
  let offset_value ← add 32 one of_bits
  let ml_base ← get ML_BASE ml_code
  let ml_n ← get ML_BITS ml_code
  let (ml_bits, br) ← br.read_lazy ml_n
  let match_len ← add 32 ml_base ml_bits
  let ll_base ← get LL_BASE ll_code
  let ll_n ← get LL_BITS ll_code
  let (ll_bits, br) ← br.read_lazy ll_n
  let lit_len ← add 32 ll_base ll_bits
  pure (⟨lit_len, match_len, offset_value⟩, br)

/-- Execute one triple: the literals, then the match. -/
def exec_triple (env : ExecEnv) (ll0 : Bool) (t : Triple) (s : ExecState) : Res ExecState := do
  let (actual_offset, rep) ← resolve_offset s.rep t.offset_value ll0
  if actual_offset = 0 then fail (.Invalid "sequence offset" "zero offset")
  else
    let total ← add 64 t.lit_len t.match_len
    let room ← headroom env.dict_len env.max_output s.out
    if room < total then fail (.OutputTooLarge env.max_output)
    else
      let lit_end ← add 64 s.lit_pos t.lit_len
      if env.literals.length < lit_end then
        fail (.Invalid "sequence literals length"
          s!"want {t.lit_len} literals at {s.lit_pos} of {env.literals.length}")
      else
        let lits ← slice env.literals s.lit_pos lit_end
        let out := s.out ++ lits
        if out.length < actual_offset then fail (.OffsetTooLarge actual_offset out.length)
        else
          let copied ← copy_match out actual_offset t.match_len
          pure { s with
            rep, out := copied, lit_pos := lit_end,
            matches_ := s.matches_ ++ [⟨out.length, actual_offset⟩] }

/-- One iteration of the sequence loop; `more` is `i + 1 < nb_seq`. -/
def exec_step (env : ExecEnv) (more : Bool) (s : ExecState) : Res ExecState := do
  let e_ll ← entry s.s_ll env.ll_table
  let e_ml ← entry s.s_ml env.ml_table
  let e_of ← entry s.s_of env.of_table
  if LL_BASE.length ≤ e_ll.symbol ∨ ML_BASE.length ≤ e_ml.symbol ∨ 31 < e_of.symbol then
    fail (.Invalid "sequence code"
      s!"ll {e_ll.symbol} / ml {e_ml.symbol} / of {e_of.symbol} out of range")
  else
    let (t, br) ← read_triple e_ll.symbol e_ml.symbol e_of.symbol s.br
    let s ← exec_triple env (e_ll.symbol == 0) t { s with br }
    if more then
      let n ← add 32 e_ll.num_bits e_ml.num_bits
      let n ← add 32 n e_of.num_bits
      let br ← s.br.ensure n
      let (s_ll, br) ← update_with_entry e_ll br
      let (s_ml, br) ← update_with_entry e_ml br
      let (s_of, br) ← update_with_entry e_of br
      pure { s with br, s_ll, s_ml, s_of }
    else pure s

/-- The sequence loop with `n` sequences left. -/
def exec_loop (env : ExecEnv) : Nat → ExecState → Res ExecState
  | 0, s => pure s
  | n + 1, s => do
    let s ← exec_step env (decide (0 < n)) s
    exec_loop env n s

/-- The `Number_of_Sequences` field and the position after it. -/
def read_nb_seq (src : Bytes) : Res (Nat × Nat) := do
  let b ← get src 0
  let b0 := b.toNat
  if b0 < 128 then pure (b0, 1)
  else if b0 < 255 then
    if src.length < 2 then fail (.Truncated "sequence count" (2 - src.length))
    else
      let b1 ← get src 1
      let hi ← sub b0 128
      pure (hi * 256 + b1.toNat, 2)
  else if src.length < 3 then fail (.Truncated "sequence count" (3 - src.length))
  else
    let b1 ← get src 1
    let b2 ← get src 2
    pure (b1.toNat + b2.toNat * 256 + 0x7F00, 3)

/-- What `decode_capped` updates: the output, the table caches and the repeat offsets; and the
matches it executed. -/
structure SeqOut where
  out : Bytes
  tables : SeqTables
  rep : Reps
  matches_ : List Match
deriving DecidableEq, Repr

/-- What `decode_capped` reads before the bitstream. -/
structure SeqSource where
  ll_table : FseDecodeTable
  of_table : FseDecodeTable
  ml_table : FseDecodeTable
  nb_seq : Nat
  bitstream : Bytes
deriving DecidableEq, Repr

/-- `decode_capped` up to its bitstream; `none` for a block without sequences. -/
def sequences_source (src : Bytes) (tables : SeqTables) : Res (Option SeqSource) := do
  if src.length = 0 then fail (.Truncated "sequences header" 1)
  else
    let (nb_seq, p) ← read_nb_seq src
    if nb_seq = 0 then pure none
    else if src.length ≤ p then fail (.Truncated "sequence compression modes" 1)
    else
      let b ← get src p
      let modes := b.toNat
      let p ← add 64 p 1
      let (ll, p) ← parse_mode ((modes >>> 6) &&& 3) src p 9
      let (of, p) ← parse_mode ((modes >>> 4) &&& 3) src p 8
      let (ml, p) ← parse_mode ((modes >>> 2) &&& 3) src p 9
      let ll_table ← resolve_table ll LL_DEFAULT 35 6 tables.ll "LL"
      let of_table ← resolve_table of OF_DEFAULT 28 5 tables.of "OF"
      let ml_table ← resolve_table ml ML_DEFAULT 52 6 tables.ml "ML"
      let bitstream ← sliceFrom src p
      pure (some ⟨ll_table, of_table, ml_table, nb_seq, bitstream⟩)

/-- What the loop of `decode_capped` starts from: the tables, the number of sequences, the reader
and the first states. -/
structure Plan where
  ll_table : FseDecodeTable
  of_table : FseDecodeTable
  ml_table : FseDecodeTable
  nb_seq : Nat
  br : ReverseBitReader
  s_ll : Nat
  s_of : Nat
  s_ml : Nat
deriving DecidableEq, Repr

/-- The reader and the first states. -/
def SeqSource.plan (s : SeqSource) : Res Plan := do
  let br ← ReverseBitReader.new s.bitstream
  let (s_ll, br) ← init s.ll_table br
  let (s_of, br) ← init s.of_table br
  let (s_ml, br) ← init s.ml_table br
  pure ⟨s.ll_table, s.of_table, s.ml_table, s.nb_seq, br, s_ll, s_of, s_ml⟩

/-- `decode_capped` before its loop; `none` for a block without sequences. -/
def sequences_plan (src : Bytes) (tables : SeqTables) : Res (Option Plan) := do
  match ← sequences_source src tables with
  | none => pure none
  | some q =>
    let plan ← q.plan
    pure (some plan)

/-- The inputs of the loop. -/
def Plan.env (p : Plan) (literals : Bytes) (dict_len max_output : Nat) : ExecEnv :=
  ⟨p.ll_table, p.of_table, p.ml_table, literals, dict_len, max_output⟩

/-- The state at the start of the loop. -/
def Plan.start (p : Plan) (out : Bytes) (rep : Reps) : ExecState :=
  ⟨p.br, p.s_ll, p.s_of, p.s_ml, out, rep, 0, []⟩

/-- The tables a block leaves in the cache. -/
def Plan.tables (p : Plan) : SeqTables := ⟨some p.ll_table, some p.of_table, some p.ml_table⟩

/-- `decode_capped` after its loop: the trailing literals. -/
def trailing_literals (env : ExecEnv) (tables : SeqTables) (s : ExecState) : Res SeqOut := do
  let left ← sub env.literals.length s.lit_pos
  let room ← headroom env.dict_len env.max_output s.out
  if room < left then fail (.OutputTooLarge env.max_output)
  else
    let trailing ← sliceFrom env.literals s.lit_pos
    pure ⟨s.out ++ trailing, tables, s.rep, s.matches_⟩

/-- `decode_capped` on a block without sequences. -/
def literals_only (literals out : Bytes) (tables : SeqTables) (rep : Reps)
    (dict_len max_output : Nat) : Res SeqOut := do
  let room ← headroom dict_len max_output out
  if room < literals.length then fail (.OutputTooLarge max_output)
  else pure ⟨out ++ literals, tables, rep, []⟩

/-- `decode_capped`. -/
def decode_capped (src literals out : Bytes) (tables : SeqTables) (rep : Reps)
    (dict_len max_output : Nat) : Res SeqOut := do
  match ← sequences_plan src tables with
  | none => literals_only literals out tables rep dict_len max_output
  | some plan =>
    let env := plan.env literals dict_len max_output
    let s ← exec_loop env plan.nb_seq (plan.start out rep)
    trailing_literals env plan.tables s

end ZstdPure.Sequences
