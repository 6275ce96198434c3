import ZstdPure.Encode.Frame

/-!
# `encode/parallel.rs`: one frame from several workers
-/

namespace ZstdPure.Encode

open Sequences

def MIN_JOB_SIZE : Nat := 128 * 1024
def MAX_JOBS : Nat := 256

/-- `overlap_bytes`. -/
def overlap_bytes (strategy : Strategy) (max_offset : Nat) : Nat :=
  max_offset >>> match strategy with
    | .Btultra2 => 0
    | .Btopt | .Btultra => 1
    | .Lazy2 | .BtLazy2 => 2
    | .Fast | .Dfast | .Greedy | .Lazy => 3

/-- `Job`: the worker sees `data[lo..hi]`, and its first `overlap` bytes are only history. -/
structure Job where
  lo : Nat
  overlap : Nat
  hi : Nat
  init_rep : Reps
  is_last : Bool
deriving DecidableEq, Repr

/-- `effective_jobs`. -/
def effective_jobs (data_len n_jobs : Nat) : Nat :=
  clamp n_jobs 1 (min (max (data_len / MIN_JOB_SIZE) 1) MAX_JOBS)

/-- The `i`-th of `jobs` segments of an input of length `len`. -/
def plan_job (len jobs seam_overlap i : Nat) : Job :=
  let a := i * len / jobs
  let overlap := if i = 0 then 0 else min a seam_overlap
  ⟨a - overlap, overlap, (i + 1) * len / jobs, if i = 0 then ⟨1, 4, 8⟩ else ⟨0, 0, 0⟩,
    i == jobs - 1⟩

/-- The segments of an input. -/
def plan (len jobs seam_overlap : Nat) : List Job :=
  (List.range jobs).map (plan_job len jobs seam_overlap)

/-- `compress_segment`. -/
def compress_segment (view : Bytes) (overlap : Nat) (params : CParams) (init_rep : Reps)
    (is_last : Bool) : Bytes :=
  let finder := Finder.new params
  let finder :=
    if 0 < overlap then finder.prime asI32 view overlap (2 ^ params.window_log) else finder
  encode_blocks (regular_env params) is_last view overlap
    ⟨finder, none, ⟨init_rep, EncTables.default⟩⟩

/-- The worker of a job. -/
def run_job (data : Bytes) (params : CParams) (job : Job) : Bytes :=
  compress_segment (range_of data job.lo job.hi) job.overlap params job.init_rep job.is_last

/-- `compress_parallel`: the results of the workers are collected in the order of the segments. -/
def compress_parallel (data : Bytes) (level : Int) (n_jobs : Nat) (checksum expect_magic : Bool) :
    Bytes :=
  let jobs := effective_jobs data.length n_jobs
  if jobs ≤ 1 then compress data level checksum expect_magic
  else
    let params := params_for_level level data.length
    let jobs := plan data.length jobs (overlap_bytes params.strategy (2 ^ params.window_log))
    magic_bytes expect_magic ++ write_frame_header data.length checksum params.window_log 0 ++
      (jobs.map (run_job data params)).flatten ++ checksum_bytes checksum data

end ZstdPure.Encode
