import ZstdPure.Error

/-!
# `encode/bitstream.rs`: the bit writer of the encoders

The encoder's functions are total, so from here on they are plain functions on `Nat` and `Int`;
an index out of range would read a default value.
-/

namespace ZstdPure.Encode

/-- `BitWriter`. -/
structure BitWriter where
  acc : Nat
  nbits : Nat
  out : Bytes
deriving DecidableEq, Repr

namespace BitWriter

/-- `BitWriter::with_capacity`. -/
def new : BitWriter := ⟨0, 0, []⟩

/-- `flush_full_bytes`. -/
def flush_full_bytes (w : BitWriter) : BitWriter :=
  let nbytes := w.nbits / 8
  ⟨w.acc >>> (nbytes * 8), w.nbits - nbytes * 8, w.out ++ leBytes nbytes w.acc⟩

/-- `add`: append the low `nb` bits of `value`. -/
def add (w : BitWriter) (value nb : Nat) : BitWriter :=
  let w := if 64 ≤ w.nbits + nb then w.flush_full_bytes else w
  let masked := if 32 ≤ nb then value else value &&& (2 ^ nb - 1)
  ⟨w.acc ||| (masked <<< w.nbits) % 2 ^ 64, w.nbits + nb, w.out⟩

/-- `finish`: the sentinel bit, and the bytes. -/
def finish (w : BitWriter) : Bytes :=
  let w := (w.add 1 1).flush_full_bytes
  if 0 < w.nbits then w.out ++ [UInt8.ofNat w.acc] else w.out

end BitWriter

end ZstdPure.Encode
