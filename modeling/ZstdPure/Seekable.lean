import ZstdPure.Frame
import ZstdPure.Lib.BinarySearch

/-!
# `seekable.rs`: seekable archives
-/

namespace ZstdPure

open Outcome XxHash

def SEEK_TABLE_SKIPPABLE_MAGIC : Nat := 0x184D2A5E
def SEEKABLE_MAGIC : Nat := 0x8F92EAB1
def FOOTER_SIZE : Nat := 9
def SKIPPABLE_HEADER : Nat := 8
def MAX_DECODE_JOBS : Nat := 256

/-- `SeekFrame`. -/
structure SeekFrame where
  compressed_offset : Nat
  compressed_size : Nat
  decompressed_offset : Nat
  decompressed_size : Nat
  checksum : Option Nat
deriving DecidableEq, Repr

/-- `SeekTable`. -/
structure SeekTable where
  frames : List SeekFrame
deriving DecidableEq, Repr

namespace SeekTable

/-- The state of the entry loop of `parse`. -/
structure Entries where
  p : Nat
  comp_off : Nat
  decomp_off : Nat
  frames : List SeekFrame
deriving DecidableEq, Repr

/-- One iteration of the entry loop. -/
def parse_entry (archive : Bytes) (has_checksum : Bool) (entry_size : Nat) (s : Entries) :
    Res Entries := do
  let cs ← read_u32_le archive s.p
  let ds ← read_u32_le archive (s.p + 4)
  let ck ← (
    if has_checksum then do
      let ck ← read_u32_le archive (s.p + 8)
      pure (some ck)
    else pure none)
  let p ← add 64 s.p entry_size
  let comp_off ← add 64 s.comp_off cs
  let decomp_off ← add 64 s.decomp_off ds
  pure ⟨p, comp_off, decomp_off, s.frames ++ [⟨s.comp_off, cs, s.decomp_off, ds, ck⟩]⟩

/-- `SeekTable::parse`. The allocation of the entries is taken to succeed. -/
def parse (archive : Bytes) : Res SeekTable := do
  let stop := archive.length
  if stop < SKIPPABLE_HEADER + FOOTER_SIZE then
    fail (.Truncated "seekable footer" (SKIPPABLE_HEADER + FOOTER_SIZE - stop))
  else
    let magic ← read_u32_le archive (stop - 4)
    if magic ≠ SEEKABLE_MAGIC then fail (.Invalid "seekable magic" "footer magic mismatch")
    else
      let descriptor ← get archive (stop - 5)
      let has_checksum := descriptor.toNat &&& 0x80 != 0
      let num_frames ← read_u32_le archive (stop - 9)
      let entry_size := if has_checksum then 12 else 8
      let content := num_frames * entry_size + FOOTER_SIZE
      if usizeMax < content then fail (.Invalid "seek table" "frame count overflow")
      else
        let frame_total := SKIPPABLE_HEADER + content
        if usizeMax < frame_total then fail (.Invalid "seek table" "table size overflow")
        else if stop < frame_total then
          fail (.Invalid "seek table" "table larger than archive")
        else
          let skip_start := stop - frame_total
          let skippable ← read_u32_le archive skip_start
          if skippable ≠ SEEK_TABLE_SKIPPABLE_MAGIC then
            fail (.Invalid "seek table" "skippable magic mismatch")
          else
            let size ← read_u32_le archive (skip_start + 4)
            if size ≠ content then fail (.Invalid "seek table" "skippable size mismatch")
            else
              let s ← times (parse_entry archive has_checksum entry_size) num_frames
                ⟨skip_start + SKIPPABLE_HEADER, 0, 0, []⟩
              if s.comp_off ≠ skip_start then
                fail (.Invalid "seek table" "frame sizes don't sum to the data region")
              else pure ⟨s.frames⟩

/-- `num_frames`. -/
def num_frames (t : SeekTable) : Nat := t.frames.length

/-- `decompressed_size`. -/
def decompressed_size (t : SeekTable) : Res Nat :=
  match t.frames.getLast? with
  | none => pure 0
  | some f => add 64 f.decompressed_offset f.decompressed_size

/-- Whether a frame ends at or before an offset. -/
def ends_by (offset : Nat) (f : SeekFrame) : Res Bool := do
  let stop ← add 64 f.decompressed_offset f.decompressed_size
  pure (decide (stop ≤ offset))

/-- `frame_for_offset`. -/
def frame_for_offset (t : SeekTable) (offset : Nat) : Res (Option Nat) := do
  let size ← t.decompressed_size
  if size ≤ offset then pure none
  else
    let i ← partition_point (ends_by offset) t.frames
    pure (if i < t.frames.length then some i else none)

end SeekTable

/-! ## Writing -/

/-- `seek_size_err`. -/
def seek_size_err (what : String) (size : Nat) : ZstdError :=
  .Invalid "seekable size" s!"{what} size {size} bytes does not fit the u32 seek-table field"

/-- An entry: compressed size, decompressed size, checksum. -/
abbrev SeekEntry := Nat × Nat × Nat

/-- The bytes of an entry. -/
def seek_entry_bytes (checksum : Bool) (e : SeekEntry) : Bytes :=
  leBytes 4 e.1 ++ leBytes 4 e.2.1 ++ if checksum then leBytes 4 e.2.2 else []

/-- `write_seek_table`. -/
def write_seek_table (out : Bytes) (entries : List SeekEntry) (checksum : Bool) : Res Bytes := do
  let entry_size := if checksum then 12 else 8
  let size ← mul 64 entries.length entry_size
  let content ← add 64 size FOOTER_SIZE
  if 2 ^ 32 ≤ content then fail (seek_size_err "seek table" content)
  else if 2 ^ 32 ≤ entries.length then
    fail (seek_size_err "seek table frame count" entries.length)
  else
    pure (out ++ leBytes 4 SEEK_TABLE_SKIPPABLE_MAGIC ++ leBytes 4 content ++
      entries.flatMap (seek_entry_bytes checksum) ++ leBytes 4 entries.length ++
      [if checksum then 0x80 else 0] ++ leBytes 4 SEEKABLE_MAGIC)

/-! ## Random access -/

/-- The decode of one frame of the table, which `decompress_seekable_frame` and
`decode_frame_group` share up to the texts of two errors. -/
def decode_seek_frame (archive : Bytes) (f : SeekFrame) (overflow : ZstdError)
    (mismatch : Nat → ZstdError) : Res Bytes := do
  if usizeMax < f.compressed_offset then fail overflow
  else
    let start := f.compressed_offset
    let stop := start + f.compressed_size
    if usizeMax < stop then fail overflow
    else if archive.length < stop then
      fail (.Truncated "seekable frame" (stop - archive.length))
    else
      let want := f.decompressed_size
      let bytes ← slice archive start stop
      let decoded ← decode_one bytes true want
      if decoded.data.length ≠ want then fail (mismatch decoded.data.length)
      else
        match f.checksum with
        | some expected =>
          let computed := (xxh64 decoded.data 0).toNat % 2 ^ 32
          if computed ≠ expected then fail (.ChecksumMismatch expected computed)
          else pure decoded.data
        | none => pure decoded.data

/-- `decompress_seekable_frame`. -/
def decompress_seekable_frame (archive : Bytes) (table : SeekTable) (index : Nat) : Res Bytes :=
  match table.frames[index]? with
  | none => fail (.Invalid "seek frame index" "out of range")
  | some f =>
    decode_seek_frame archive f
      (.Invalid "seekable frame range" "frame offset/size outside the archive")
      fun n => .Invalid "seekable frame size"
        s!"frame {index} decoded {n} bytes, seek table declares {f.decompressed_size}"

/-- `bad_offset`. -/
def bad_offset : ZstdError :=
  .Invalid "seekable frame offset" "compressed offset/size overflows or exceeds the archive"

/-- `decode_frame_group`: the region, filled. -/
def decode_frame_group (archive : Bytes) (grp : List SeekFrame) (region : Bytes) : Res Bytes := do
  let (_, region) ← grp.foldlM
    (fun (s : Nat × Bytes) f => do
      let data ← decode_seek_frame archive f bad_offset
        fun _ => .Invalid "seekable frame size" "decoded length does not match the seek table"
      let dst_end := s.1 + f.decompressed_size
      if usizeMax < dst_end then fail bad_offset
      else
        let region ← copyAt s.2 s.1 data
        pure (dst_end, region))
    (0, region)
  pure region

/-! ## Parallel decode -/

/-- One iteration of the partition loop: the bounds and the bytes so far, after frame `i`. -/
def close_group (jobs total frames_len : Nat) (s : List Nat × Nat) (f : SeekFrame × Nat) :
    Res (List Nat × Nat) := do
  let (bounds, acc) := s
  let acc ← add 128 acc f.1.decompressed_size
  let remaining ← sub jobs bounds.length
  let remaining_groups ← add 64 remaining 1
  let frames_left ← sub frames_len (f.2 + 1)
  let close ← (
    if bounds.length < jobs then do
      let groups_after ← sub remaining_groups 1
      if groups_after ≤ frames_left then do
        let share ← mul 128 acc jobs
        let due ← mul 128 total bounds.length
        pure (decide (due ≤ share))
      else pure false
    else pure false)
  pure (if close then bounds ++ [f.2 + 1] else bounds, acc)

/-- The bounds of the groups. -/
def group_bounds (frames : List SeekFrame) (jobs total : Nat) : Res (List Nat) := do
  let (bounds, _) ← frames.zipIdx.foldlM (close_group jobs total frames.length) ([0], 0)
  loop (fun bounds : List Nat => decide (bounds.length ≤ jobs))
    (fun bounds => pure (bounds ++ [frames.length])) (jobs + 2) bounds

/-- The decompressed size of a group. -/
def group_bytes (grp : List SeekFrame) : Res Nat :=
  grp.foldlM (fun n f => add 64 n f.decompressed_size) 0

/-- The loop that hands each group its region of the output, `rest` at the start: the groups with
their regions, and what is left. -/
def split_regions (frames : List SeekFrame) (bounds : List Nat) :
    List Nat → Bytes → Res (List (List SeekFrame × Bytes) × Bytes)
  | [], rest => pure ([], rest)
  | g :: gs, rest => do
    let start ← get bounds g
    let stop ← get bounds (g + 1)
    let grp ← slice frames start stop
    let n ← group_bytes grp
    -- `split_at_mut`
    let region ← slice rest 0 n
    let tail ← sliceFrom rest n
    let (groups, left) ← split_regions frames bounds gs tail
    pure ((grp, region) :: groups, left)

/-- `h.join()` of a worker: a worker that panicked is an error. -/
def join_worker (x : Res Bytes) : Res Bytes :=
  match x with
  | .error (.fault .diverge) => crash .diverge
  | .error (.fault _) => fail (.Invalid "seekable decode worker" "decode worker panicked")
  | x => x

/-- A worker that panicked. -/
def panicked : Res Bytes → Bool
  | .error (.fault _) => true
  | _ => false

/-- The join loop. Leaving it early joins the remaining threads, and a panic of one of them is
raised again by the scope. -/
def join_workers : List (Res Bytes) → Res (List Bytes)
  | [] => pure []
  | x :: xs =>
    match join_worker x with
    | .ok region => do
      let regions ← join_workers xs
      pure (region :: regions)
    | .error h =>
      if xs.any panicked then crash .assertion
      else .error h

/-- The number of worker threads. -/
def decode_jobs (n_jobs frames_len : Nat) : Nat :=
  max 1 (min n_jobs (min frames_len MAX_DECODE_JOBS))

/-- `decompress_seekable_parallel_capped`. A worker's result depends on nothing the other workers
write, so the threads are run one by one and joined in the order of their groups. -/
def decompress_seekable_parallel_capped (archive : Bytes) (table : SeekTable)
    (n_jobs max_output : Nat) : Res Bytes := do
  let frames := table.frames
  let total ← table.decompressed_size
  if max_output < total then fail (.OutputTooLarge max_output)
  else if frames.length = 0 then pure (List.replicate total 0)
  else
    let jobs := decode_jobs n_jobs frames.length
    let bounds ← group_bounds frames jobs total
    let (groups, left) ← split_regions frames bounds (List.range jobs) (List.replicate total 0)
    let regions ← join_workers (groups.map fun g => decode_frame_group archive g.1 g.2)
    pure (regions.flatten ++ left)

/-- `decompress_seekable_parallel`. -/
def decompress_seekable_parallel (archive : Bytes) (table : SeekTable) (n_jobs : Nat) :
    Res Bytes := do
  let total ← table.decompressed_size
  if usizeMax < total then fail (.OutputTooLarge usizeMax)
  else decompress_seekable_parallel_capped archive table n_jobs total

end ZstdPure
