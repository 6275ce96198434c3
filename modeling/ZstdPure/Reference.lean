import ZstdPure.Sequences
import ZstdPure.Lib.Lz77

/-!
# What a sequences section means

The reads of `decode_capped` without the execution: the triples that a section encodes. Over them
the reference execution, which handles one byte at a time and takes the repeat offsets from the
table of the format.
-/

namespace ZstdPure.Sequences

open Outcome Fse

/-! ## The triples of a section -/

/-- The state of the reads of the sequence loop. -/
structure SeqReader where
  br : ReverseBitReader
  s_ll : Nat
  s_of : Nat
  s_ml : Nat
deriving DecidableEq, Repr

/-- The reader before the first sequence. -/
def Plan.reader (p : Plan) : SeqReader := ⟨p.br, p.s_ll, p.s_of, p.s_ml⟩

/-- One iteration of the sequence loop without the execution of its triple. -/
def Plan.read_step (p : Plan) (more : Bool) (r : SeqReader) : Res (Triple × SeqReader) := do
  let e_ll ← entry r.s_ll p.ll_table
  let e_ml ← entry r.s_ml p.ml_table
  let e_of ← entry r.s_of p.of_table
  if LL_BASE.length ≤ e_ll.symbol ∨ ML_BASE.length ≤ e_ml.symbol ∨ 31 < e_of.symbol then
    fail (.Invalid "sequence code"
      s!"ll {e_ll.symbol} / ml {e_ml.symbol} / of {e_of.symbol} out of range")
  else
    let (t, br) ← read_triple e_ll.symbol e_ml.symbol e_of.symbol r.br
    if more then
      let n ← add 32 e_ll.num_bits e_ml.num_bits
      let n ← add 32 n e_of.num_bits
      let br ← br.ensure n
      let (s_ll, br) ← update_with_entry e_ll br
      let (s_ml, br) ← update_with_entry e_ml br
      let (s_of, br) ← update_with_entry e_of br
      pure (t, ⟨br, s_ll, s_of, s_ml⟩)
    else pure (t, { r with br })

/-- The triples of the sequence loop with `n` sequences left, and the reader after them. -/
def Plan.read_loop (p : Plan) : Nat → SeqReader → Res (List Triple × SeqReader)
  | 0, r => pure ([], r)
  | n + 1, r => do
    let (t, r) ← p.read_step (decide (0 < n)) r
    let (ts, r) ← p.read_loop n r
    pure (t :: ts, r)

/-- The execution of some triples. -/
def exec_triples (env : ExecEnv) (ts : List Triple) (s : ExecState) : Res ExecState :=
  ts.foldlM (fun s t => exec_triple env (t.lit_len == 0) t s) s

/-- The triples of a section. -/
def triples (src : Bytes) (tables : SeqTables) : Res (List Triple) := do
  let plan ← sequences_plan src tables
  match plan with
  | none => pure []
  | some p =>
    let (ts, _) ← p.read_loop p.nb_seq p.reader
    pure ts

/-! ## The reference -/

/-- The repeat offsets of the format: the values 1 to 3 name the last three offsets, or the last
but one, the last but two and the last minus one in a sequence without literals. -/
def Reps.repeat_code (rep : Reps) : Nat → Bool → Nat × Reps
  | 1, false => (rep.r0, rep)
  | 2, false => (rep.r1, ⟨rep.r1, rep.r0, rep.r2⟩)
  | 3, false => (rep.r2, ⟨rep.r2, rep.r0, rep.r1⟩)
  | 1, true => (rep.r1, ⟨rep.r1, rep.r0, rep.r2⟩)
  | 2, true => (rep.r2, ⟨rep.r2, rep.r0, rep.r1⟩)
  | 3, true => (rep.r0 - 1, ⟨rep.r0 - 1, rep.r0, rep.r1⟩)
  | value, _ => (value - 3, ⟨value - 3, rep.r0, rep.r1⟩)

/-- The state of the reference: the output, the repeat offsets and the literals not yet used. -/
structure Naive where
  out : Bytes
  rep : Reps
  literals : Bytes
deriving DecidableEq, Repr

/-- One sequence, byte by byte, with at most `limit` bytes of output. -/
def Naive.step (limit : Nat) (s : Naive) (t : Triple) : Option Naive := do
  let (out, literals) ← Lz77.literals limit t.lit_len s.literals s.out
  let (off, rep) := s.rep.repeat_code t.offset_value (t.lit_len == 0)
  if off = 0 then none
  else
    let out ← Lz77.copy limit off t.match_len out
    pure ⟨out, rep, literals⟩

/-- All sequences, and the literals after the last one. -/
def Naive.run (limit : Nat) (s : Naive) (ts : List Triple) : Option Naive := do
  let s ← ts.foldlM (Naive.step limit) s
  let (out, literals) ← Lz77.literals limit s.literals.length s.literals s.out
  pure ⟨out, s.rep, literals⟩

end ZstdPure.Sequences
