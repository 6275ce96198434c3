import Mathlib

/-!
# Little-endian byte strings

`leNat bs` is the number a byte string denotes, least significant byte first, and `leBytes k n`
the `k` low bytes of `n`.
-/

/-- The number the little-endian bytes `bs` denote. -/
def leNat : List UInt8 → Nat
  | [] => 0
  | b :: bs => b.toNat + 256 * leNat bs

/-- The `k` least significant bytes of `n`, least significant first. -/
def leBytes : Nat → Nat → List UInt8
  | 0, _ => []
  | k + 1, n => UInt8.ofNat n :: leBytes k (n / 256)

@[simp] theorem leNat_nil : leNat [] = 0 := rfl

@[simp] theorem leNat_cons (b : UInt8) (bs : List UInt8) :
    leNat (b :: bs) = b.toNat + 256 * leNat bs := rfl

@[simp] theorem length_leBytes (k n : Nat) : (leBytes k n).length = k := by
  induction k generalizing n with
  | zero => rfl
  | succ k ih => simp [leBytes, ih]

theorem UInt8.toNat_lt_256 (b : UInt8) : b.toNat < 256 := b.toNat_lt

theorem leNat_lt (bs : List UInt8) : leNat bs < 2 ^ (8 * bs.length) := by
  induction bs with
  | nil => simp
  | cons b bs ih =>
    have hb := b.toNat_lt_256
    have hp : 2 ^ (8 * (b :: bs).length) = 256 * 2 ^ (8 * bs.length) := by
      rw [List.length_cons, Nat.mul_add, pow_add]; omega
    rw [leNat_cons, hp]
    omega

theorem leNat_append (as bs : List UInt8) :
    leNat (as ++ bs) = leNat as + 2 ^ (8 * as.length) * leNat bs := by
  induction as with
  | nil => simp
  | cons a as ih =>
    rw [List.cons_append, leNat_cons, ih, leNat_cons, List.length_cons]
    ring

/-- Dropping leading bytes divides. -/
theorem leNat_drop (bs : List UInt8) (i : Nat) : leNat (bs.drop i) = leNat bs / 2 ^ (8 * i) := by
  induction i generalizing bs with
  | zero => simp
  | succ i ih =>
    cases bs with
    | nil => simp
    | cons b bs =>
      have hb := b.toNat_lt_256
      have hd : (b.toNat + 256 * leNat bs) / 256 = leNat bs := by omega
      rw [List.drop_succ_cons, ih, leNat_cons, Nat.mul_add, pow_add, Nat.mul_comm (2 ^ (8 * i)),
        ← Nat.div_div_eq_div_mul]
      norm_num [hd]

/-- Keeping leading bytes reduces modulo. -/
theorem leNat_take (bs : List UInt8) (i : Nat) : leNat (bs.take i) = leNat bs % 2 ^ (8 * i) := by
  by_cases hi : i ≤ bs.length
  · have hlen : (bs.take i).length = i := by simp [hi]
    have h := leNat_append (bs.take i) (bs.drop i)
    have hlt := leNat_lt (bs.take i)
    rw [hlen] at h hlt
    rw [List.take_append_drop] at h
    rw [h, Nat.add_mul_mod_self_left, Nat.mod_eq_of_lt hlt]
  · have hlt := leNat_lt bs
    rw [List.take_of_length_le (by omega), Nat.mod_eq_of_lt]
    exact lt_of_lt_of_le hlt (Nat.pow_le_pow_right (by omega) (by omega))

theorem leNat_leBytes (k n : Nat) : leNat (leBytes k n) = n % 2 ^ (8 * k) := by
  induction k generalizing n with
  | zero => simp [leBytes, Nat.mod_one]
  | succ k ih =>
    have hb : (UInt8.ofNat n).toNat = n % 256 := by simp
    rw [leBytes, leNat_cons, ih, hb, Nat.mul_add, pow_add, Nat.mul_comm (2 ^ (8 * k))]
    norm_num
    rw [Nat.mod_mul]

theorem leNat_injective : ∀ {as bs : List UInt8}, as.length = bs.length → leNat as = leNat bs →
    as = bs
  | [], [], _, _ => rfl
  | a :: as, b :: bs, hl, h => by
    have ha := a.toNat_lt_256
    have hb := b.toNat_lt_256
    simp only [leNat_cons] at h
    have h₁ : a.toNat = b.toNat := by omega
    have h₂ : leNat as = leNat bs := by omega
    rw [UInt8.toNat_inj.mp h₁, leNat_injective (by simpa using hl) h₂]

/-- A number whose low bits are free, with bits below them set by `|||`. -/
theorem lor_shl_eq_add {a : Nat} (b n : Nat) (h : a < 2 ^ n) : a ||| (b <<< n) = a + b * 2 ^ n := by
  rw [Nat.shiftLeft_eq, Nat.lor_comm, Nat.mul_comm, ← Nat.two_pow_add_eq_or_of_lt h b]
  omega
