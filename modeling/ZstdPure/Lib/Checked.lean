import ZstdPure.Lib.Outcome

/-!
# Checked operations

Machine arithmetic on `Nat`, and indexing into lists, with the checks the language makes at run
time. Each operation has one lemma: under its side condition it returns the expected value.
-/

namespace Outcome

variable {ε α : Type}

/-- `a + b` in a type of `w` bits. -/
def add (w a b : Nat) : Outcome ε Nat := if a + b < 2 ^ w then .ok (a + b) else crash .overflow

/-- `a - b` in an unsigned type. -/
def sub (a b : Nat) : Outcome ε Nat := if b ≤ a then .ok (a - b) else crash .overflow

/-- `a * b` in a type of `w` bits. -/
def mul (w a b : Nat) : Outcome ε Nat := if a * b < 2 ^ w then .ok (a * b) else crash .overflow

/-- `a << n` in a type of `w` bits: the bits shifted out are dropped. -/
def shl (w a n : Nat) : Outcome ε Nat :=
  if n < w then .ok ((a <<< n) % 2 ^ w) else crash .shift

/-- `a >> n` in a type of `w` bits. -/
def shr (w a n : Nat) : Outcome ε Nat := if n < w then .ok (a >>> n) else crash .shift

/-- A result in a signed type of 32 bits. -/
def int32 (x : Int) : Outcome ε Int :=
  if -2 ^ 31 ≤ x ∧ x < 2 ^ 31 then .ok x else crash .overflow

/-- `xs[i]`. -/
def get (xs : List α) (i : Nat) : Outcome ε α :=
  if h : i < xs.length then .ok xs[i] else crash .index

/-- `xs[i] = a`. -/
def set (xs : List α) (i : Nat) (a : α) : Outcome ε (List α) :=
  if i < xs.length then .ok (xs.set i a) else crash .index

/-- `xs[a..b]`. -/
def slice (xs : List α) (a b : Nat) : Outcome ε (List α) :=
  if a ≤ b ∧ b ≤ xs.length then .ok ((xs.take b).drop a) else crash .index

/-- `xs[a..]`. -/
def sliceFrom (xs : List α) (a : Nat) : Outcome ε (List α) :=
  if a ≤ xs.length then .ok (xs.drop a) else crash .index

/-- `xs[i..i + ys.len()].copy_from_slice(ys)`. -/
def copyAt (xs : List α) (i : Nat) (ys : List α) : Outcome ε (List α) :=
  if i + ys.length ≤ xs.length then .ok (xs.take i ++ ys ++ xs.drop (i + ys.length))
  else crash .index

/-- `x.unwrap()`. -/
def unwrap : Option α → Outcome ε α
  | some a => .ok a
  | none => crash .assertion

/-- `assert!(c)`. -/
def assert (c : Bool) : Outcome ε Unit := if c then .ok () else crash .assertion

section Rules

variable {w a b n i : Nat} {xs : List α}

theorem add_ok (h : a + b < 2 ^ w) : (add w a b : Outcome ε Nat) = .ok (a + b) := if_pos h

theorem sub_ok (h : b ≤ a) : (sub a b : Outcome ε Nat) = .ok (a - b) := if_pos h

theorem mul_ok (h : a * b < 2 ^ w) : (mul w a b : Outcome ε Nat) = .ok (a * b) := if_pos h

theorem shl_ok (h : n < w) : (shl w a n : Outcome ε Nat) = .ok ((a <<< n) % 2 ^ w) := if_pos h

/-- A shift that loses no bit. -/
theorem shl_exact (h : n < w) (ha : a * 2 ^ n < 2 ^ w) :
    (shl w a n : Outcome ε Nat) = .ok (a * 2 ^ n) := by
  rw [shl_ok h, Nat.shiftLeft_eq, Nat.mod_eq_of_lt ha]

theorem shr_ok (h : n < w) : (shr w a n : Outcome ε Nat) = .ok (a / 2 ^ n) := by
  rw [shr, if_pos h, Nat.shiftRight_eq_div_pow]

theorem int32_ok {x : Int} (h₁ : -2 ^ 31 ≤ x) (h₂ : x < 2 ^ 31) :
    (int32 x : Outcome ε Int) = .ok x := if_pos ⟨h₁, h₂⟩

theorem get_ok (h : i < xs.length) : (get xs i : Outcome ε α) = .ok xs[i] := dif_pos h

theorem set_ok {x : α} (h : i < xs.length) : (set xs i x : Outcome ε (List α)) = .ok (xs.set i x) :=
  if_pos h

theorem slice_ok (h₁ : a ≤ b) (h₂ : b ≤ xs.length) :
    (slice xs a b : Outcome ε (List α)) = .ok ((xs.take b).drop a) := if_pos ⟨h₁, h₂⟩

theorem sliceFrom_ok (h : a ≤ xs.length) :
    (sliceFrom xs a : Outcome ε (List α)) = .ok (xs.drop a) := if_pos h

theorem copyAt_ok {ys : List α} (h : i + ys.length ≤ xs.length) :
    (copyAt xs i ys : Outcome ε (List α)) = .ok (xs.take i ++ ys ++ xs.drop (i + ys.length)) :=
  if_pos h

@[simp] theorem unwrap_some {x : α} : (unwrap (some x) : Outcome ε α) = .ok x := rfl

theorem assert_ok {c : Bool} (h : c = true) : (assert c : Outcome ε Unit) = .ok () := if_pos h

end Rules

section Inversion

variable {w a b c n i : Nat} {xs ys : List α} {x : α}

theorem add_eq_ok : (add w a b : Outcome ε Nat) = .ok c ↔ a + b < 2 ^ w ∧ c = a + b := by
  unfold add; split_ifs with h <;> simp [h, eq_comm]

theorem sub_eq_ok : (sub a b : Outcome ε Nat) = .ok c ↔ b ≤ a ∧ c = a - b := by
  unfold sub; split_ifs with h <;> simp [h, eq_comm]

theorem mul_eq_ok : (mul w a b : Outcome ε Nat) = .ok c ↔ a * b < 2 ^ w ∧ c = a * b := by
  unfold mul; split_ifs with h <;> simp [h, eq_comm]

theorem get_eq_ok : (get xs i : Outcome ε α) = .ok x ↔ ∃ h : i < xs.length, xs[i] = x := by
  unfold get; split_ifs with h <;> simp [h]

theorem slice_eq_ok : (slice xs a b : Outcome ε (List α)) = .ok ys ↔
    (a ≤ b ∧ b ≤ xs.length) ∧ ys = (xs.take b).drop a := by
  unfold slice; split_ifs with h <;> simp [h, eq_comm]

theorem sliceFrom_eq_ok : (sliceFrom xs a : Outcome ε (List α)) = .ok ys ↔
    a ≤ xs.length ∧ ys = xs.drop a := by
  unfold sliceFrom; split_ifs with h <;> simp [h, eq_comm]

end Inversion

end Outcome
