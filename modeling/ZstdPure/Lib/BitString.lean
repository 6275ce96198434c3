import ZstdPure.Lib.BitStack
import ZstdPure.Lib.LittleEndian

/-!
# Bit strings

Strings of bits as lists, the first bit most significant, and the fields they are cut into. The bits
of a bit stack are read from its top.
-/

namespace BitString

/-- The `n` low bits of `v`. -/
def bits : Nat → Nat → List Bool
  | 0, _ => []
  | n + 1, v => v.testBit n :: bits n v

/-- The number that some bits denote. -/
def value (bs : List Bool) : Nat := bs.foldl (fun v b => 2 * v + b.toNat) 0

/-- The values of consecutive fields of the widths `ns`. -/
def fields : List Bool → List Nat → List Nat
  | _, [] => []
  | bs, n :: ns => value (bs.take n) :: fields (bs.drop n) ns

/-- The bits of a byte string below its highest bit that is set, the last byte first. -/
def below_sentinel (src : List UInt8) : List Bool :=
  ((src.reverse.flatMap fun b => bits 8 b.toNat).dropWhile (!·)).tail

@[simp] theorem length_bits (n v : Nat) : (bits n v).length = n := by
  induction n with
  | zero => rfl
  | succ n ih => rw [bits, List.length_cons, ih]

/-- The high bits, then the low ones. -/
theorem bits_add (m n v : Nat) : bits (m + n) v = bits m (v / 2 ^ n) ++ bits n v := by
  induction m with
  | zero => rw [Nat.zero_add, bits, List.nil_append]
  | succ m ih =>
    rw [show m + 1 + n = m + n + 1 by omega, bits, bits, ih, Nat.testBit_div_two_pow,
      List.cons_append]

theorem bits_congr {n v w : Nat} (h : v % 2 ^ n = w % 2 ^ n) : bits n v = bits n w := by
  induction n with
  | zero => rfl
  | succ n ih =>
    have hbit := congrArg (Nat.testBit · n) h
    simp only [Nat.testBit_mod_two_pow, Nat.lt_succ_self, decide_true, Bool.true_and] at hbit
    have hlow := congrArg (· % 2 ^ n) h
    simp only [Nat.mod_mod_of_dvd _ (pow_dvd_pow 2 (Nat.le_succ n))] at hlow
    rw [bits, bits, hbit, ih hlow]

theorem value_cons (b : Bool) (bs : List Bool) : value (b :: bs) = b.toNat * 2 ^ bs.length +
    value bs := by
  have hfold : ∀ (bs : List Bool) (v : Nat), bs.foldl (fun v b => 2 * v + b.toNat) v
      = v * 2 ^ bs.length + value bs := by
    intro bs
    induction bs with
    | nil => intro v; simp [value]
    | cons b bs ih =>
      intro v
      rw [value, List.foldl_cons, List.foldl_cons, ih, ih, List.length_cons, pow_succ]
      ring
  rw [value, List.foldl_cons, hfold, Nat.mul_zero, Nat.zero_add]

/-- Bits are read as the number they were made from. -/
theorem value_bits (n v : Nat) : value (bits n v) = v % 2 ^ n := by
  induction n with
  | zero => rw [pow_zero, Nat.mod_one]; rfl
  | succ n ih =>
    rw [bits, value_cons, ih, length_bits, Nat.mod_pow_succ, Nat.toNat_testBit]
    ring

/-- Above a highest bit there are only zeros. -/
theorem dropWhile_bits {k m v : Nat} (hk : k < m) (hv : v < 2 ^ k) :
    ((bits m (v + 2 ^ k)).dropWhile (!·)).tail = bits k v := by
  obtain ⟨j, rfl⟩ := Nat.exists_eq_add_of_lt hk
  have hdiv : (v + 2 ^ k) / 2 ^ k = 1 := by
    rw [Nat.add_div_right _ (by positivity), Nat.div_eq_of_lt hv]
  have hhigh : ∀ j, bits (j + 1) 1 = List.replicate j false ++ [true] := by
    intro j
    induction j with
    | zero => rfl
    | succ j ih =>
      have hzero : Nat.testBit 1 (j + 1) = false :=
        Nat.testBit_lt_two_pow (Nat.one_lt_two_pow (by omega))
      rw [bits, ih, List.replicate_succ, List.cons_append, hzero]
  have hlow : bits k (v + 2 ^ k) = bits k v := bits_congr (Nat.add_mod_right ..)
  rw [show k + j + 1 = j + 1 + k by omega, bits_add, hdiv, hhigh, hlow, List.append_assoc,
    List.dropWhile_append_of_pos (by simp)]
  rfl

/-- The bits of the number that a byte string denotes. -/
theorem bits_leNat (src : List UInt8) :
    bits (8 * src.length) (leNat src) = src.reverse.flatMap fun b => bits 8 b.toNat := by
  induction src with
  | nil => rfl
  | cons b src ih =>
    have hb := b.toNat_lt_256
    have hhigh : (b.toNat + 256 * leNat src) / 2 ^ 8 = leNat src := by omega
    have hlow : bits 8 (b.toNat + 256 * leNat src) = bits 8 b.toNat := bits_congr (by omega)
    rw [List.length_cons, Nat.mul_add, leNat_cons, bits_add, hhigh, hlow, ih, List.reverse_cons,
      List.flatMap_append, List.flatMap_singleton]

end BitString

namespace BitStack

open BitString

/-- The bits of a stack, from its top. -/
def bits (s : BitStack) : List Bool := BitString.bits s.len s.val

@[simp] theorem length_bits (s : BitStack) : s.bits.length = s.len := BitString.length_bits _ _

/-- The bits of a stack are those of its top field, then the bits below it. -/
theorem bits_split (s : BitStack) {n : Nat} (h : n ≤ s.len) :
    s.bits = BitString.bits n (s.top n) ++ (s.pop n).bits := by
  have hlow : BitString.bits (s.len - n) (s.val % 2 ^ (s.len - n)) = BitString.bits (s.len - n)
    s.val :=
    bits_congr (Nat.mod_mod _ _)
  rw [bits, bits, pop_val, pop_len, hlow, top, ← bits_add, Nat.add_sub_cancel' h]

/-- The top field, and the bits below it. -/
theorem bits_eq (s : BitStack) {n : Nat} (h : n ≤ s.len) :
    value (s.bits.take n) = s.top n ∧ s.bits.drop n = (s.pop n).bits := by
  rw [s.bits_split h]
  refine ⟨?_, List.drop_left' (BitString.length_bits _ _)⟩
  rw [List.take_left' (BitString.length_bits _ _), value_bits]
  exact Nat.mod_eq_of_lt (s.top_lt h)

/-- The bits below the sentinel of a byte string, as a stack. -/
theorem bits_of_sentinel {s : BitStack} {src : List UInt8} (hlen : s.len < 8 * src.length)
    (hval : leNat src = s.val + 2 ^ s.len) : below_sentinel src = s.bits := by
  rw [below_sentinel, ← bits_leNat, hval, dropWhile_bits hlen s.lt, bits]

end BitStack
