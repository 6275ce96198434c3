import ZstdPure.Lib.Checked
import ZstdPure.Lib.LittleEndian

/-!
# `error.rs`: the error type

The errors of the codec with the texts they carry, and the outcome type of its fallible functions.
-/

namespace ZstdPure

/-- A byte string. -/
abbrev Bytes := List UInt8

/-- `ZstdError`. -/
inductive ZstdError where
  | Truncated (what : String) (needed : Nat)
  | BadMagic (magic : Nat)
  | ReservedBit (what : String)
  | Invalid (what : String) (detail : String)
  | OutputTooLarge (limit : Nat)
  | CorruptTable (detail : String)
  | OffsetTooLarge (offset history : Nat)
  | ChecksumMismatch (stored computed : Nat)
  | Dictionary (detail : String)
deriving DecidableEq, Repr

/-- The format `{:08x}`. -/
def hex8 (n : Nat) : String :=
  let digits := Nat.toDigits 16 n
  String.ofList (List.replicate (8 - digits.length) '0' ++ digits)

/-- `Display for ZstdError`. -/
def ZstdError.to_string : ZstdError → String
  | .Truncated what needed =>
    s!"zstd: unexpected end of input (need {needed} more byte(s) for {what})"
  | .BadMagic magic => s!"zstd: bad frame magic 0x{hex8 magic} (expected 0xfd2fb528)"
  | .ReservedBit what => s!"zstd: reserved bit set in {what}"
  | .Invalid what detail => s!"zstd: invalid {what}: {detail}"
  | .OutputTooLarge limit => s!"zstd: output exceeds the {limit}-byte ceiling"
  | .CorruptTable detail => s!"zstd: corrupt entropy table: {detail}"
  | .OffsetTooLarge offset history =>
    s!"zstd: offset {offset} exceeds history {history} (corrupt sequence)"
  | .ChecksumMismatch stored computed =>
    s!"zstd: content checksum mismatch (frame 0x{hex8 stored} != computed 0x{hex8 computed})"
  | .Dictionary detail => s!"zstd: dictionary error: {detail}"

/-- `Result<T>`, with the faults of the run-time checks. -/
abbrev Res (α : Type) := Outcome ZstdError α

/-- `usize::MAX` on a 64-bit host. -/
def usizeMax : Nat := 2 ^ 64 - 1

end ZstdPure
