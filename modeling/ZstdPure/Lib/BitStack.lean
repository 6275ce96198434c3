import Mathlib

/-!
# Bit stacks

A string of `len` bits as the number `val < 2 ^ len`. Fields are pushed above the bits already
there. Reading from the top returns the fields in the reverse of the order they were pushed in,
reading from the bottom in that order.
-/

/-- The bits `a ..< t` of `c`. -/
theorem Nat.mod_two_pow_div {a b t : Nat} (c : Nat) (h : a + b = t) :
    c % 2 ^ t / 2 ^ a = c / 2 ^ a % 2 ^ b := by
  rw [← h, pow_add, Nat.mod_mul_right_div_self]

/-- A string of `len` bits. -/
@[ext] structure BitStack where
  /-- The bits as a number, the first one pushed least significant. -/
  val : Nat
  /-- The number of bits. -/
  len : Nat
  lt : val < 2 ^ len

namespace BitStack

/-- The empty bit string. -/
def empty : BitStack := ⟨0, 0, by simp⟩

theorem push_lt {a b m n : Nat} (ha : a < 2 ^ m) (hb : b < 2 ^ n) : a + b * 2 ^ m <
    2 ^ (m + n) := by
  have h : (b + 1) * 2 ^ m ≤ 2 ^ n * 2 ^ m := Nat.mul_le_mul_right _ hb
  rw [pow_add, Nat.mul_comm (2 ^ m)]
  rw [Nat.add_mul] at h
  omega

/-- Push the `nb` low bits of `v`. -/
def push (s : BitStack) (v nb : Nat) : BitStack where
  val := s.val + v % 2 ^ nb * 2 ^ s.len
  len := s.len + nb
  lt := push_lt s.lt (Nat.mod_lt _ (by positivity))

/-- The `nb` bits pushed last. -/
def top (s : BitStack) (nb : Nat) : Nat := s.val / 2 ^ (s.len - nb)

/-- The bits below the `nb` pushed last. -/
def pop (s : BitStack) (nb : Nat) : BitStack where
  val := s.val % 2 ^ (s.len - nb)
  len := s.len - nb
  lt := Nat.mod_lt _ (by positivity)

@[simp] theorem empty_len : empty.len = 0 := rfl

@[simp] theorem push_val (s : BitStack) (v nb : Nat) :
    (s.push v nb).val = s.val + v % 2 ^ nb * 2 ^ s.len := rfl

@[simp] theorem push_len (s : BitStack) (v nb : Nat) : (s.push v nb).len = s.len + nb := rfl

@[simp] theorem pop_val (s : BitStack) (nb : Nat) :
    (s.pop nb).val = s.val % 2 ^ (s.len - nb) := rfl

@[simp] theorem pop_len (s : BitStack) (nb : Nat) : (s.pop nb).len = s.len - nb := rfl

/-- The last field pushed is the first one read. -/
@[simp] theorem top_push (s : BitStack) (v nb : Nat) : (s.push v nb).top nb = v % 2 ^ nb := by
  have hp : 0 < 2 ^ s.len := by positivity
  simp only [top, push_val, push_len, Nat.add_sub_cancel]
  rw [Nat.add_mul_div_right _ _ hp, Nat.div_eq_of_lt s.lt, Nat.zero_add]

@[simp] theorem pop_push (s : BitStack) (v nb : Nat) : (s.push v nb).pop nb = s := by
  ext
  · simp [Nat.mod_eq_of_lt s.lt]
  · simp

theorem top_lt (s : BitStack) {nb : Nat} (h : nb ≤ s.len) : s.top nb < 2 ^ nb := by
  rw [top, Nat.div_lt_iff_lt_mul (by positivity), ← pow_add, Nat.add_sub_cancel' h]
  exact s.lt

theorem pop_pop (s : BitStack) (a b : Nat) : (s.pop a).pop b = s.pop (a + b) := by
  ext
  · simp only [pop_val, pop_len]
    rw [Nat.mod_mod_of_dvd _ (pow_dvd_pow 2 (by omega)), Nat.sub_sub]
  · simp only [pop_len]
    omega

/-- A stack is its top field above the rest. -/
theorem push_top_pop (s : BitStack) {nb : Nat} (h : nb ≤ s.len) : (s.pop nb).push (s.top nb) nb =
    s := by
  ext
  · rw [push_val, Nat.mod_eq_of_lt (s.top_lt h), pop_val, pop_len, top, Nat.mul_comm]
    exact Nat.mod_add_div _ _
  · simp [Nat.sub_add_cancel h]

/-- The bits of `s` are the lowest ones of `v`. -/
def Below (s : BitStack) (v : Nat) : Prop := v % 2 ^ s.len = s.val

/-- Above the bits of a stack lies the field that was pushed next. -/
theorem Below.of_push {s : BitStack} {v nb x : Nat} (h : (s.push v nb).Below x) :
    s.Below x ∧ x / 2 ^ s.len % 2 ^ nb = v % 2 ^ nb := by
  have hp : 0 < 2 ^ s.len := by positivity
  rw [Below, push_val, push_len, pow_add, Nat.mod_mul] at h
  have hlow : x % 2 ^ s.len = s.val := by
    have hmod := congrArg (· % 2 ^ s.len) h
    simp only [Nat.add_mul_mod_self_left, Nat.add_mul_mod_self_right, Nat.mod_mod,
      Nat.mod_eq_of_lt s.lt] at hmod
    exact hmod
  refine ⟨hlow, ?_⟩
  rw [hlow, Nat.mul_comm] at h
  exact Nat.eq_of_mul_eq_mul_right hp (Nat.add_left_cancel h)

end BitStack
