import ZstdPure.Encode.Match

/-!
# Proofs: the length of a match

`common_len` compares eight bytes at a time and finds the first difference by the zeros at the end
of their exclusive or. It is the scalar count, and none of its reads leaves the data. -/

namespace ZstdPure.Encode

open Outcome

/-! ## Zeros at the end -/

theorem trailing_zeros_two_mul {x : Nat} (h : x ≠ 0) :
    trailing_zeros (2 * x) = trailing_zeros x + 1 := by
  rw [trailing_zeros, if_neg (by omega), if_neg (by omega), Nat.mul_div_cancel_left x (by decide)]

theorem trailing_zeros_two_pow_mul {x : Nat} (h : x ≠ 0) (k : Nat) :
    trailing_zeros (2 ^ k * x) = trailing_zeros x + k := by
  induction k with
  | zero => rw [pow_zero, Nat.one_mul, Nat.add_zero]
  | succ k ih =>
    have hne : 2 ^ k * x ≠ 0 := Nat.mul_ne_zero (by positivity) h
    rw [pow_succ', Nat.mul_assoc, trailing_zeros_two_mul hne, ih, Nat.add_assoc]

/-- A bit set among the low `k` comes before all later zeros. -/
theorem trailing_zeros_lt {x k : Nat} (h : x % 2 ^ k ≠ 0) : trailing_zeros x < k := by
  induction k generalizing x with
  | zero => exact absurd (Nat.mod_one x) h
  | succ k ih =>
    have hx : x ≠ 0 := by
      rintro rfl
      exact h (Nat.zero_mod _)
    rw [trailing_zeros, if_neg hx]
    split_ifs with hodd
    · exact Nat.succ_pos k
    · have hhalf : x / 2 % 2 ^ k ≠ 0 := by
        intro hz
        apply h
        rw [pow_succ', Nat.mod_mul, hz]
        omega
      have hlt := ih hhalf
      omega

/-! ## The first difference of two words -/

/-- The exclusive or of two words by their first bytes and the rest. -/
theorem xor_leNat_cons (a b : UInt8) (as bs : List UInt8) :
    (leNat (a :: as) ^^^ leNat (b :: bs)) % 2 ^ 8 = a.toNat ^^^ b.toNat ∧
    (leNat (a :: as) ^^^ leNat (b :: bs)) / 2 ^ 8 = leNat as ^^^ leNat bs := by
  have ha := a.toNat_lt_256
  have hb := b.toNat_lt_256
  rw [Nat.xor_mod_two_pow, Nat.xor_div_two_pow, leNat_cons, leNat_cons]
  have hmod : ∀ {c n : Nat}, c < 256 → (c + 256 * n) % 2 ^ 8 = c := by
    intro c n hc
    omega
  have hdiv : ∀ {c n : Nat}, c < 256 → (c + 256 * n) / 2 ^ 8 = n := by
    intro c n hc
    omega
  rw [hmod ha, hmod hb, hdiv ha, hdiv hb]
  exact ⟨rfl, rfl⟩

/-- The zeros at the end of the exclusive or of two words end in their first different byte. -/
theorem first_difference : ∀ (as bs : List UInt8), as.length = bs.length →
    leNat as ^^^ leNat bs ≠ 0 →
    trailing_zeros (leNat as ^^^ leNat bs) / 8 < as.length ∧
    (∀ k, k < trailing_zeros (leNat as ^^^ leNat bs) / 8 → as.getD k 0 = bs.getD k 0) ∧
    as.getD (trailing_zeros (leNat as ^^^ leNat bs) / 8) 0 ≠
      bs.getD (trailing_zeros (leNat as ^^^ leNat bs) / 8) 0
  | [], [], _, hne => absurd (Nat.xor_self 0) hne
  | a :: as, b :: bs, hlen, hne => by
    obtain ⟨hmod, hdiv⟩ := xor_leNat_cons a b as bs
    by_cases hab : a = b
    · -- the first bytes are equal: eight zeros, then those of the rest
      subst hab
      rw [Nat.xor_self] at hmod
      have hx : leNat (a :: as) ^^^ leNat (a :: bs) = 2 ^ 8 * (leNat as ^^^ leNat bs) := by
        rw [← hdiv, Nat.mul_div_cancel' (Nat.dvd_of_mod_eq_zero hmod)]
      have hrest : leNat as ^^^ leNat bs ≠ 0 := by
        intro hz
        rw [hx, hz] at hne
        exact hne rfl
      obtain ⟨h1, h2, h3⟩ := first_difference as bs (Nat.succ.inj hlen) hrest
      rw [hx, trailing_zeros_two_pow_mul hrest, Nat.add_div_right _ (by decide : 0 < 8)]
      refine ⟨Nat.succ_lt_succ h1, ?_, h3⟩
      intro k hk
      cases k with
      | zero => rfl
      | succ k => exact h2 k (Nat.lt_of_succ_lt_succ hk)
    · have hz : trailing_zeros (leNat (a :: as) ^^^ leNat (b :: bs)) / 8 = 0 := by
        have hlow : (leNat (a :: as) ^^^ leNat (b :: bs)) % 2 ^ 8 ≠ 0 := by
          rw [hmod]
          intro heq
          exact hab (UInt8.toNat_inj.mp (Nat.xor_eq_zero_iff.mp heq))
        exact Nat.div_eq_of_lt (trailing_zeros_lt hlow)
      rw [hz]
      exact ⟨Nat.succ_pos _, fun k hk => absurd hk (Nat.not_lt_zero k), hab⟩

/-! ## The two loops -/

/-- `n` is how far the bytes at `a` and at `b` agree, `max` at most. -/
structure Agrees (data : Bytes) (a b max n : Nat) : Prop where
  le : n ≤ max
  equal : ∀ k, k < n → byte_at data (a + k) = byte_at data (b + k)
  differ : n < max → byte_at data (a + n) ≠ byte_at data (b + n)

section Loops

variable {data : Bytes} {a b max i : Nat}

/-- The loop of `common_tail` stops at the first difference, or at the cap. -/
theorem common_tail_agrees (hi : i ≤ max)
    (h : ∀ k, k < i → byte_at data (a + k) = byte_at data (b + k)) :
    Agrees data a b max (common_tail data a b max i) ∧ i ≤ common_tail data a b max i := by
  induction i using common_tail.induct data a b max with
  | case1 i hc ih =>
    rw [common_tail, if_pos hc]
    have hnext : ∀ k, k < i + 1 → byte_at data (a + k) = byte_at data (b + k) := by
      intro k hk
      rcases Nat.lt_succ_iff_lt_or_eq.mp hk with hk | rfl
      · exact h k hk
      · exact hc.2
    obtain ⟨h1, h2⟩ := ih hc.1 hnext
    exact ⟨h1, by omega⟩
  | case2 i hc =>
    rw [common_tail, if_neg hc]
    exact ⟨⟨hi, h, fun hlt heq => hc ⟨hlt, heq⟩⟩, le_refl i⟩

/-- The bytes of a word. -/
theorem getD_word (data : Bytes) (p : Nat) {k : Nat} (hk : k < 8) :
    ((data.drop p).take 8).getD k 0 = byte_at data (p + k) := by
  unfold byte_at
  rw [List.getD, List.getElem?_take_of_lt hk, List.getElem?_drop]
  rfl

theorem length_word {p : Nat} (h : p + 8 ≤ data.length) : ((data.drop p).take 8).length = 8 := by
  rw [List.length_take, List.length_drop]
  omega

/-- The loop of `common_words` stops where the scalar one does. -/
theorem common_words_agrees (hab : a ≤ b) (hmax : b + max ≤ data.length) (hi : i ≤ max)
    (h : ∀ k, k < i → byte_at data (a + k) = byte_at data (b + k)) :
    Agrees data a b max (common_words data a b max i) := by
  induction i using common_words.induct data a b max with
  | case1 i hroom x hx =>
    rw [common_words, if_pos hroom]
    have hlen : ((data.drop (a + i)).take 8).length = ((data.drop (b + i)).take 8).length := by
      rw [length_word (by omega), length_word (by omega)]
    obtain ⟨h1, h2, h3⟩ := first_difference _ _ hlen hx
    rw [length_word (by omega)] at h1
    rw [getD_word data _ h1, getD_word data _ h1, Nat.add_assoc, Nat.add_assoc] at h3
    dsimp only
    rw [if_pos hx]
    refine ⟨?_, ?_, fun _ => h3⟩
    · unfold read_u64
      omega
    · intro k hk
      rcases Nat.lt_or_ge k i with hki | hki
      · exact h k hki
      · have hword := h2 (k - i) (by unfold read_u64 at hk; omega)
        rw [getD_word data _ (by unfold read_u64 at hk; omega),
          getD_word data _ (by unfold read_u64 at hk; omega)] at hword
        rw [show a + i + (k - i) = a + k by omega, show b + i + (k - i) = b + k by omega] at hword
        exact hword
  | case2 i hroom x hx ih =>
    rw [common_words, if_pos hroom]
    dsimp only
    rw [if_neg hx]
    refine ih hroom ?_
    intro k hk
    rcases Nat.lt_or_ge k i with hki | hki
    · exact h k hki
    · have hx0 : x = 0 := not_not.mp hx
      have hword : (data.drop (a + i)).take 8 = (data.drop (b + i)).take 8 :=
        leNat_injective (by rw [length_word (by omega), length_word (by omega)])
          (Nat.xor_eq_zero_iff.mp hx0)
      have hbyte : ((data.drop (a + i)).take 8).getD (k - i) 0 =
          ((data.drop (b + i)).take 8).getD (k - i) 0 := by rw [hword]
      rw [getD_word data _ (by omega), getD_word data _ (by omega),
        show a + i + (k - i) = a + k by omega, show b + i + (k - i) = b + k by omega] at hbyte
      exact hbyte
  | case3 i hroom =>
    rw [common_words, if_neg hroom]
    exact (common_tail_agrees hi h).1

end Loops

theorem common_len_agrees {data : Bytes} {a b stop : Nat} (hab : a ≤ b) (hb : b ≤ stop)
    (hstop : stop ≤ data.length) : Agrees data a b (stop - b) (common_len data a b stop) :=
  common_words_agrees hab (by omega) (Nat.zero_le _) fun k hk => absurd hk (Nat.not_lt_zero k)

/-! ## The reads -/

/-- `read_u64` with the bounds check of its slice. -/
def read_u64_checked (data : Bytes) (p : Nat) : Res Nat := do
  let w ← slice data p (p + 8)
  pure (leNat w)

/-- `common_tail` with the bounds checks of its reads. -/
def common_tail_checked (data : Bytes) (a b max i : Nat) : Res Nat :=
  if i < max then do
    let x ← get data (a + i)
    let y ← get data (b + i)
    if x = y then common_tail_checked data a b max (i + 1) else pure i
  else pure i
termination_by max - i

/-- `common_words` with the bounds checks of its reads. -/
def common_words_checked (data : Bytes) (a b max i : Nat) : Res Nat :=
  if i + 8 ≤ max then do
    let u ← read_u64_checked data (a + i)
    let v ← read_u64_checked data (b + i)
    let x := u ^^^ v
    if x ≠ 0 then pure (i + trailing_zeros x / 8) else common_words_checked data a b max (i + 8)
  else common_tail_checked data a b max i
termination_by max - i

/-- `common_len` with the bounds checks of its reads and its subtraction. -/
def common_len_checked (data : Bytes) (a b stop : Nat) : Res Nat := do
  let max ← sub stop b
  common_words_checked data a b max 0

section Reads

variable {data : Bytes} {a b max i : Nat}

theorem read_u64_checked_ok {p : Nat} (h : p + 8 ≤ data.length) :
    read_u64_checked data p = .ok (read_u64 data p) := by
  rw [read_u64_checked, slice_ok (by omega) h, bind_ok, List.drop_take, Nat.add_sub_cancel_left]
  rfl

theorem get_byte_ok {p : Nat} (h : p < data.length) :
    (get data p : Res UInt8) = .ok (byte_at data p) := by
  unfold byte_at
  rw [get_ok h, List.getD_eq_getElem _ _ h]

theorem common_tail_checked_ok (hab : a ≤ b) (hmax : b + max ≤ data.length) :
    common_tail_checked data a b max i = .ok (common_tail data a b max i) := by
  induction i using common_tail.induct data a b max with
  | case1 i hc ih =>
    rw [common_tail_checked, if_pos hc.1, common_tail, if_pos hc, get_byte_ok (by omega), bind_ok,
      get_byte_ok (by omega), bind_ok, if_pos hc.2]
    exact ih
  | case2 i hc =>
    rw [common_tail_checked, common_tail, if_neg hc]
    split_ifs with hi
    · rw [get_byte_ok (by omega), bind_ok, get_byte_ok (by omega), bind_ok,
        if_neg fun heq => hc ⟨hi, heq⟩]
      rfl
    · rfl

theorem common_words_checked_ok (hab : a ≤ b) (hmax : b + max ≤ data.length) :
    common_words_checked data a b max i = .ok (common_words data a b max i) := by
  induction i using common_words.induct data a b max with
  | case1 i hroom x hx =>
    rw [common_words_checked, if_pos hroom, common_words, if_pos hroom,
      read_u64_checked_ok (by omega), bind_ok, read_u64_checked_ok (by omega), bind_ok]
    dsimp only
    rw [if_pos hx, if_pos hx]
    rfl
  | case2 i hroom x hx ih =>
    rw [common_words_checked, if_pos hroom, common_words, if_pos hroom,
      read_u64_checked_ok (by omega), bind_ok, read_u64_checked_ok (by omega), bind_ok]
    dsimp only
    rw [if_neg hx, if_neg hx]
    exact ih
  | case3 i hroom =>
    rw [common_words_checked, if_neg hroom, common_words, if_neg hroom]
    exact common_tail_checked_ok hab hmax

end Reads

/-! ## The length -/

/-- Two ranges are equal where their bytes are. -/
theorem range_eq_iff {data : Bytes} {a b n : Nat} (ha : a + n ≤ data.length)
    (hb : b + n ≤ data.length) : range_of data a (a + n) = range_of data b (b + n) ↔
      ∀ k, k < n → byte_at data (a + k) = byte_at data (b + k) := by
  have hget : ∀ {p k : Nat}, k < n → (range_of data p (p + n))[k]? = data[p + k]? := by
    intro p k hk
    unfold range_of
    rw [List.getElem?_drop, List.getElem?_take_of_lt (by omega)]
  have hnone : ∀ {p k : Nat}, ¬ k < n → (range_of data p (p + n))[k]? = none := by
    intro p k hk
    unfold range_of
    rw [List.getElem?_drop, List.getElem?_eq_none (by rw [List.length_take]; omega)]
  constructor
  · intro h k hk
    have hk' : (range_of data a (a + n))[k]? = (range_of data b (b + n))[k]? := by rw [h]
    rw [hget hk, hget hk] at hk'
    unfold byte_at
    rw [List.getD, List.getD, hk']
  · intro h
    apply List.ext_getElem?
    intro k
    by_cases hk : k < n
    · have hbyte := h k hk
      unfold byte_at at hbyte
      rw [List.getD_eq_getElem _ _ (by omega), List.getD_eq_getElem _ _ (by omega)] at hbyte
      rw [hget hk, hget hk, List.getElem?_eq_getElem (by omega),
        List.getElem?_eq_getElem (by omega),
        hbyte]
    · rw [hnone hk, hnone hk]

/-- `common_len` is the greatest length at which the two ranges are equal and the second ends by
`stop`, and all its reads are within the data. -/
theorem common_len_greatest (data : Bytes) (a b stop : Nat) (hab : a < b) (hb : b ≤ stop)
    (hstop : stop ≤ data.length) :
    IsGreatest {n | b + n ≤ stop ∧ range_of data a (a + n) = range_of data b (b + n)}
      (common_len data a b stop) ∧
    common_len_checked data a b stop = .ok (common_len data a b stop) := by
  obtain ⟨hle, hequal, hdiffer⟩ := common_len_agrees (le_of_lt hab) hb hstop
  refine ⟨⟨⟨by omega, (range_eq_iff (by omega) (by omega)).mpr hequal⟩, ?_⟩, ?_⟩
  · rintro n ⟨hn, heq⟩
    by_contra hlt
    rw [range_eq_iff (by omega) (by omega)] at heq
    exact hdiffer (by omega) (heq _ (by omega))
  · rw [common_len_checked, sub_ok hb, bind_ok]
    exact common_words_checked_ok (le_of_lt hab) (by omega)

/-- A match that overlaps its source, and ends at a different byte. -/
theorem common_len_greatest_overlap :
    let data : Bytes := [7, 7, 7, 7, 7, 7, 7, 7, 7, 7, 7, 9, 7]
    IsGreatest {n | 1 + n ≤ 13 ∧ range_of data 0 (0 + n) = range_of data 1 (1 + n)}
      (common_len data 0 1 13) ∧ common_len_checked data 0 1 13 = .ok (common_len data 0 1 13) :=
  common_len_greatest _ 0 1 13 (by decide) (by decide) (by decide)

end ZstdPure.Encode
