import ZstdPure.Encode.Bitstream
import ZstdPure.Lib.BitStack

/-!
# The bit writer writes a bit stack

`BitWriter` keeps the bits that were added; `finish` puts a sentinel bit above them, which is what
the backward reader starts from. -/

namespace ZstdPure.Encode.BitWriter

/-- The bytes and the accumulator of `w` hold the bits `s`. -/
structure Holds (w : BitWriter) (s : BitStack) : Prop where
  nbits : w.nbits ≤ 63
  acc : w.acc < 2 ^ w.nbits
  len : s.len = 8 * w.out.length + w.nbits
  val : s.val = leNat w.out + w.acc * 2 ^ (8 * w.out.length)

variable {w : BitWriter} {s : BitStack}

theorem new_holds : new.Holds BitStack.empty :=
  ⟨by decide, by decide, rfl, rfl⟩

/-- Whole bytes move to the output. -/
theorem Holds.flush_full_bytes (h : w.Holds s) :
    w.flush_full_bytes.Holds s ∧ w.flush_full_bytes.nbits ≤ 7 := by
  have hn := h.nbits
  have hlt := h.acc
  unfold BitWriter.flush_full_bytes
  dsimp only
  have hsplit : w.nbits = w.nbits / 8 * 8 + (w.nbits - w.nbits / 8 * 8) := by omega
  refine ⟨⟨by simp only; omega, ?_, ?_, ?_⟩, by omega⟩
  · simp only [Nat.shiftRight_eq_div_pow]
    rw [Nat.div_lt_iff_lt_mul (by positivity), ← pow_add, Nat.add_comm, ← hsplit]
    exact hlt
  · simp only [List.length_append, length_leBytes]
    rw [h.len]
    omega
  · have hdiv := Nat.mod_add_div w.acc (2 ^ (8 * (w.nbits / 8)))
    simp only [Nat.shiftRight_eq_div_pow, List.length_append, length_leBytes, leNat_append,
      leNat_leBytes]
    rw [h.val, Nat.mul_comm (w.nbits / 8) 8, Nat.mul_add, pow_add]
    conv_lhs => rw [← hdiv]
    ring

/-- What `add` keeps of a value. -/
def masked (v nb : Nat) : Nat := if 32 ≤ nb then v else v &&& (2 ^ nb - 1)

theorem masked_of_lt (v : Nat) {nb : Nat} (hnb : nb < 32) : masked v nb = v % 2 ^ nb := by
  rw [masked, if_neg (by omega), Nat.and_two_pow_sub_one_eq_mod]

theorem masked_eq {v nb : Nat} (hv : v < 2 ^ 32) (hnb : nb ≤ 32) : masked v nb = v % 2 ^ nb := by
  rcases Nat.lt_or_eq_of_le hnb with hlt | rfl
  · exact masked_of_lt v hlt
  · rw [masked, if_pos le_rfl, Nat.mod_eq_of_lt hv]

/-- The writer that `add` appends a field of `nb` bits to. -/
def make_room (w : BitWriter) (nb : Nat) : BitWriter :=
  if 64 ≤ w.nbits + nb then w.flush_full_bytes else w

theorem add_eq (w : BitWriter) (v nb : Nat) :
    w.add v nb = ⟨(w.make_room nb).acc ||| (masked v nb <<< (w.make_room nb).nbits) % 2 ^ 64,
      (w.make_room nb).nbits + nb, (w.make_room nb).out⟩ := rfl

/-- After flushing, the field fits the accumulator. -/
theorem Holds.make_room (h : w.Holds s) {nb : Nat} (hnb : nb ≤ 32) :
    (w.make_room nb).Holds s ∧ (w.make_room nb).nbits + nb < 64 := by
  have hn := h.nbits
  unfold BitWriter.make_room
  split_ifs with hfull
  · obtain ⟨hflush, hle⟩ := h.flush_full_bytes
    exact ⟨hflush, by omega⟩
  · exact ⟨h, by omega⟩

/-- No bit of the field is shifted out of the accumulator. -/
theorem shift_lt {v nb n : Nat} (hv : v < 2 ^ nb) (hfit : n + nb < 64) : v <<< n < 2 ^ 64 := by
  rw [Nat.shiftLeft_eq]
  calc v * 2 ^ n < 2 ^ nb * 2 ^ n := Nat.mul_lt_mul_of_pos_right hv (by positivity)
    _ = 2 ^ (nb + n) := (pow_add ..).symm
    _ ≤ 2 ^ 64 := Nat.pow_le_pow_right (by decide) (by omega)

/-- `add` pushes a field. -/
theorem Holds.add_masked (h : w.Holds s) {v nb : Nat} (hnb : nb ≤ 32)
    (hmask : masked v nb = v % 2 ^ nb) :
    (w.add v nb).Holds (s.push v nb) := by
  obtain ⟨hroom, hfit⟩ := h.make_room hnb
  have hv : v % 2 ^ nb < 2 ^ nb := Nat.mod_lt _ (by positivity)
  have hacc : (w.make_room nb).acc ||| (masked v nb <<< (w.make_room nb).nbits) % 2 ^ 64
      = (w.make_room nb).acc + v % 2 ^ nb * 2 ^ (w.make_room nb).nbits := by
    rw [hmask, Nat.mod_eq_of_lt (shift_lt hv hfit), lor_shl_eq_add _ _ hroom.acc]
  rw [add_eq, hacc]
  refine ⟨by simp only; omega, BitStack.push_lt hroom.acc hv, ?_, ?_⟩
  · rw [BitStack.push_len, hroom.len]
    simp only
    omega
  · rw [BitStack.push_val, hroom.len, hroom.val]
    simp only
    rw [pow_add]
    ring

theorem Holds.add (h : w.Holds s) (v : Nat) {nb : Nat} (hnb : nb < 32) :
    (w.add v nb).Holds (s.push v nb) :=
  h.add_masked hnb.le (masked_of_lt v hnb)

/-- A value of 32 bits is pushed whole. -/
theorem Holds.add_value (h : w.Holds s) {v nb : Nat} (hv : v < 2 ^ 32) (hnb : nb ≤ 32) :
    (w.add v nb).Holds (s.push v nb) :=
  h.add_masked hnb (masked_eq hv hnb)

/-- `finish` writes the bits and a sentinel bit above them. -/
theorem Holds.finish (h : w.Holds s) :
    w.finish.length = s.len / 8 + 1 ∧ leNat w.finish = s.val + 2 ^ s.len := by
  have hone : (w.add 1 1).Holds (s.push 1 1) := h.add 1 (by decide)
  obtain ⟨hflush, hle⟩ := hone.flush_full_bytes
  have hacc := hflush.acc
  have hlen := hflush.len
  have hval := hflush.val
  rw [BitStack.push_len] at hlen
  rw [BitStack.push_val, pow_one, Nat.one_mod, Nat.one_mul] at hval
  unfold BitWriter.finish
  dsimp only
  split_ifs with h0
  · have h256 : ((w.add 1 1).flush_full_bytes).acc < 256 :=
      lt_of_lt_of_le hacc (Nat.pow_le_pow_right (by decide) (by omega) : _ ≤ 2 ^ 8)
    rw [List.length_append, List.length_singleton, leNat_append, leNat_cons, leNat_nil]
    refine ⟨by omega, ?_⟩
    rw [hval, UInt8.toNat_ofNat', Nat.mod_eq_of_lt (by omega)]
    ring
  · have hz : ((w.add 1 1).flush_full_bytes).nbits = 0 := by omega
    rw [hz, pow_zero] at hacc
    have hacc0 : ((w.add 1 1).flush_full_bytes).acc = 0 := by omega
    refine ⟨by omega, ?_⟩
    rw [hval, hacc0, Nat.zero_mul, Nat.add_zero]

end ZstdPure.Encode.BitWriter
