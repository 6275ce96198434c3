import ZstdPure.Encode.Frame
import ZstdPure.Seekable

/-!
# `seekable.rs`: writing seekable archives
-/

namespace ZstdPure.Encode

open Outcome

/-- One chunk of the archive: the bytes and the entries so far. -/
def add_frame (level : Int) (checksum : Bool) (s : Bytes × List SeekEntry) (chunk : Bytes) :
    Res (Bytes × List SeekEntry) := do
  let frame := compress chunk level false true
  let ck := if checksum then (XxHash.xxh64 chunk 0).toNat % 2 ^ 32 else 0
  if 2 ^ 32 ≤ frame.length then fail (seek_size_err "frame" frame.length)
  else if 2 ^ 32 ≤ chunk.length then fail (seek_size_err "chunk" chunk.length)
  else pure (s.1 ++ frame, s.2 ++ [(frame.length, chunk.length, ck)])

/-- `compress_seekable`. -/
def compress_seekable (data : Bytes) (frame_size : Nat) (level : Int) (checksum : Bool) :
    Res Bytes := do
  let frame_size := max frame_size 1
  let (out, entries) ← (data.chunks frame_size).foldlM (add_frame level checksum) ([], [])
  write_seek_table out entries checksum

end ZstdPure.Encode
