import ZstdPure.Proofs.FseTableProofs

/-!
# FSE table descriptions and the two-state decoder

What `read_ncount` returns are valid counts, from which `build_dtable` builds a valid table; no
operation of the decoder faults on a valid table.
-/

namespace ZstdPure.Fse

open Outcome Encode

/-! ## Runs -/

/-- `k` fields of `n` ones below `rest`. -/
def ones_below (n k rest : Nat) : Nat := 2 ^ (n * k) - 1 + 2 ^ (n * k) * rest

theorem ones_below_zero (n rest : Nat) : ones_below n 0 rest = rest := by simp [ones_below]

theorem ones_below_succ (n k rest : Nat) :
    ones_below n (k + 1) rest = 2 ^ n * ones_below n k rest + (2 ^ n - 1) := by
  have h1 := Nat.one_le_two_pow (n := n)
  have h2 := Nat.one_le_two_pow (n := n * k)
  obtain ⟨a, ha⟩ : ∃ a, 2 ^ n = a + 1 := ⟨2 ^ n - 1, by omega⟩
  obtain ⟨b, hb⟩ : ∃ b, 2 ^ (n * k) = b + 1 := ⟨2 ^ (n * k) - 1, by omega⟩
  have h3 : 2 ^ (n * (k + 1)) = (a + 1) * b + a + 1 := by
    rw [Nat.mul_add, pow_add, Nat.mul_one, ha, hb]; ring
  simp only [ones_below]
  rw [h3, ha, hb]
  simp only [Nat.add_sub_cancel]
  ring

theorem ones_below_succ_mod (n k rest : Nat) : ones_below n (k + 1) rest % 2 ^ n = 2 ^ n - 1 := by
  have h1 := Nat.one_le_two_pow (n := n)
  rw [ones_below_succ, Nat.mul_add_mod, Nat.mod_eq_of_lt (by omega)]

theorem ones_below_succ_div (n k rest : Nat) :
    ones_below n (k + 1) rest / 2 ^ n = ones_below n k rest := by
  have h1 := Nat.one_le_two_pow (n := n)
  rw [ones_below_succ, Nat.mul_add_div (by omega), Nat.div_eq_of_lt (by omega), Nat.add_zero]

theorem exists_ones_below {n : Nat} (hn : 0 < n) (v : Nat) :
    ∃ k rest, v = ones_below n k rest ∧ rest % 2 ^ n ≠ 2 ^ n - 1 := by
  induction v using Nat.strong_induction_on with
  | _ v ih =>
    by_cases h : v % 2 ^ n = 2 ^ n - 1
    · have h2 : 2 ≤ 2 ^ n := Nat.le_self_pow (by omega) 2
      have hv := Nat.div_add_mod v (2 ^ n)
      have hlt : v / 2 ^ n < v := Nat.div_lt_self (by
        rcases Nat.eq_zero_or_pos v with rfl | h0
        · rw [Nat.zero_mod] at h; omega
        · exact h0) (by omega)
      obtain ⟨k, rest, hk, hr⟩ := ih _ hlt
      exact ⟨k + 1, rest, by rw [ones_below_succ, ← hk, ← h, hv], hr⟩
    · exact ⟨0, v, (ones_below_zero n v).symm, h⟩

theorem ones_below_le_avail {n k rest : Nat} {br : ForwardBitReader} (h : br.Valid)
    (hv : br.value = ones_below n k rest) : n * k ≤ br.avail := by
  have hlt := h.value_lt
  rw [hv, ones_below] at hlt
  by_contra hc
  have : 2 ^ br.avail < 2 ^ (n * k) := Nat.pow_lt_pow_right (by omega) (by omega)
  omega

/-- One pass of the loop of `skip_runs`. -/
def skip_step (n by_ : Nat) (s : Nat × ForwardBitReader × Nat) :
    Res (Nat × ForwardBitReader × Nat) := do
  let rep ← add 64 s.2.2 by_
  let br ← s.2.1.consume n
  let (next, br) ← br.peek n
  pure (next, br, rep)

theorem skip_runs_of_peek {n v by_ rep first : Nat} {br br₁ : ForwardBitReader}
    (h : br.peek n = .ok (first, br₁)) :
    skip_runs n v by_ br rep = loop (fun s => s.1 == v) (skip_step n by_) (8 * br₁.src.length + 1)
      (first, br₁, rep) >>= fun s => pure s.2 := by
  rw [skip_runs, h]
  rfl

/-- A pass over a field of ones moves to the next field and counts it. -/
theorem skip_step_spec {n by_ k rest rep x : Nat} {br : ForwardBitReader} (hn : n < 32)
    (hb : br.Valid)
    (hready : br.Ready n) (hv : br.value = ones_below n (k + 1) rest) (hfit : rep + by_ < 2 ^ 64) :
    ∃ br', skip_step n by_ (x, br, rep) = .ok (br'.value % 2 ^ n, br', rep + by_) ∧
    br'.src = br.src ∧
      br'.Valid ∧ br'.Ready n ∧ br'.value = ones_below n k rest ∧ br'.avail = br.avail - n := by
  obtain ⟨b₁, h₁, hs₁, hv₁, hval₁, hav₁⟩ := ForwardBitReader.consume_spec hb (by omega) hready
  obtain ⟨b₂, h₂, hs₂, hr₂⟩ := ForwardBitReader.peek_spec hv₁ hn
  refine ⟨b₂, ?_, hs₂.src.trans hs₁, hs₂.valid, hr₂, ?_, hs₂.avail.trans hav₁⟩
  · rw [skip_step, add_ok hfit, bind_ok, h₁, bind_ok, h₂, bind_ok, ← hs₂.value]
    rfl
  · rw [hs₂.value, hval₁, hv, ones_below_succ_div]

/-- `skip_runs` counts the fields of ones. -/
theorem skip_runs_spec (n by_ rep : Nat) {k rest : Nat} {br : ForwardBitReader} (hn : n < 32)
    (h : br.Valid) (hv : br.value = ones_below n k rest) (hr : rest % 2 ^ n ≠ 2 ^ n - 1)
    (hk : k ≤ 8 * br.src.length) (hrep : rep + k * by_ < 2 ^ 64) :
    ∃ br', skip_runs n (2 ^ n - 1) by_ br rep = .ok (br', rep + k * by_) ∧ br'.src = br.src ∧
      br'.Valid ∧ br'.value = rest ∧ br'.avail = br.avail - n * k := by
  have hloop : ∀ (k m : Nat) (br : ForwardBitReader) (rep : Nat), k < m → br.Valid → br.Ready n →
      br.value = ones_below n k rest → rep + k * by_ < 2 ^ 64 →
      ∃ br' x, loop (fun s => s.1 == 2 ^ n - 1) (skip_step n by_) m (br.value % 2 ^ n, br, rep)
          = .ok (x, br', rep + k * by_) ∧ br'.src = br.src ∧
        br'.Valid ∧ br'.value = rest ∧ br'.avail = br.avail - n * k := by
    intro k
    induction k with
    | zero =>
      intro m br rep _ hb _ hv _
      rw [ones_below_zero] at hv
      refine ⟨br, rest % 2 ^ n, ?_, rfl, hb, hv, by simp⟩
      rw [hv, loop_of_not (by simpa using hr)]; simp
    | succ k ih =>
      intro m br rep hm hb hrd hv hrep
      obtain ⟨m, rfl⟩ : ∃ j, m = j + 1 := ⟨m - 1, by omega⟩
      rw [Nat.add_mul, Nat.one_mul] at hrep
      obtain ⟨b₁, h₁, hs₁, hv₁, hr₁, hval₁, hav₁⟩ :=
        @skip_step_spec n by_ k rest rep _ br hn hb hrd hv (by omega)
      obtain ⟨br', x, h₂, hsrc, hvalid, hvalue, havail⟩ :=
        ih m b₁ (rep + by_) (by omega) hv₁ hr₁ hval₁ (by omega)
      refine ⟨br', x, ?_, hsrc.trans hs₁, hvalid, hvalue, ?_⟩
      · have hmod : br.value % 2 ^ n = 2 ^ n - 1 := by rw [hv, ones_below_succ_mod]
        rw [loop_succ_of (by simpa using hmod), h₁, bind_ok, h₂]
        congr 3
        ring
      · rw [havail, hav₁, Nat.mul_add]
        omega
  obtain ⟨b₁, h₁, hs₁, hr₁⟩ := ForwardBitReader.peek_spec h hn
  obtain ⟨br', x, h₂, hsrc, hvalid, hvalue, havail⟩ :=
    hloop k (8 * b₁.src.length + 1) b₁ rep (by rw [hs₁.src]; omega) hs₁.valid hr₁
      (hs₁.value.trans hv) hrep
  refine ⟨br', ?_, hsrc.trans hs₁.src, hvalid, hvalue, by rw [havail, hs₁.avail]⟩
  rw [skip_runs_of_peek h₁, ← hs₁.value, h₂]
  rfl

/-- `read_zero_run` reads runs of 24, runs of 3 and a remainder. -/
theorem read_zero_run_spec {s : NCountState} {a b v w : Nat} (h : s.br.Valid)
    (hrep : s.symbol + a * 24 + b * 3 + 3 < 2 ^ 64)
    (hv : s.br.value = ones_below 16 a v) (hv16 : v % 2 ^ 16 ≠ 2 ^ 16 - 1)
    (hw : v = ones_below 2 b w) (hw2 : w % 2 ^ 2 ≠ 2 ^ 2 - 1) :
    ∃ br', read_zero_run s = .ok { s with
        br := br', symbol := min (s.symbol + a * 24 + b * 3 + w % 2 ^ 2) 256, previous0 := false } ∧
      br'.src = s.br.src ∧ br'.Valid ∧ br'.value = w / 2 ^ 2 ∧
      br'.avail = s.br.avail - 16 * a - 2 * b - 2 := by
  have ha := ones_below_le_avail h hv
  have hav := h.avail_le
  obtain ⟨b₁, h₁, hs₁, hv₁, hval₁, hav₁⟩ :=
    skip_runs_spec 16 24 s.symbol (by omega) h hv hv16 (by omega)
      (by omega)
  have hb := ones_below_le_avail hv₁ (hval₁.trans hw)
  obtain ⟨b₂, h₂, hs₂, hv₂, hval₂, hav₂⟩ :=
    skip_runs_spec 2 3 (s.symbol + a * 24) (by omega) hv₁
      (hval₁.trans hw) hw2 (by rw [hs₁]; omega) (by omega)
  obtain ⟨b₃, h₃, hs₃, hv₃, hval₃, hav₃⟩ := ForwardBitReader.read_spec hv₂ (n := 2) (by omega)
  refine ⟨b₃, ?_, by rw [hs₃, hs₂, hs₁], hv₃, by rw [hval₃, hval₂], by omega⟩
  have h4 : w % 2 ^ 2 < 2 ^ 2 := Nat.mod_lt _ (by positivity)
  rw [read_zero_run]
  change (skip_runs 16 (2 ^ 16 - 1) 24 s.br s.symbol >>= _) = _
  rw [h₁, bind_ok]
  change (skip_runs 2 (2 ^ 2 - 1) 3 b₁ (s.symbol + a * 24) >>= _) = _
  rw [h₂, bind_ok]
  simp only []
  rw [h₃, bind_ok, hval₂]
  simp only []
  rw [add_ok (by omega)]
  rfl

/-- The runs of a string of up to about `2 ^ 60` bytes do not overflow the symbol counter. -/
theorem runs_fit {br : ForwardBitReader} {a b v w symbol : Nat} (h : br.Valid)
    (hlen : 12 * br.src.length + 260 ≤ 2 ^ 64) (hsym : symbol ≤ 256)
      (hv : br.value = ones_below 16 a v)
    (hw : v = ones_below 2 b w) : symbol + a * 24 + b * 3 + 3 < 2 ^ 64 := by
  have hav := h.avail_le
  have hlt := h.value_lt
  have hone : 2 ^ (16 * a + 2 * b) - 1 ≤ br.value := by
    have hp : 1 ≤ 2 ^ (16 * a) := Nat.one_le_two_pow
    rw [hv, hw, ones_below, ones_below, pow_add]
    calc 2 ^ (16 * a) * 2 ^ (2 * b) - 1
        = 2 ^ (16 * a) - 1 + 2 ^ (16 * a) * (2 ^ (2 * b) - 1) := by
          rw [Nat.mul_sub, Nat.mul_one]
          have hle : 2 ^ (16 * a) ≤ 2 ^ (16 * a) * 2 ^ (2 * b) :=
            Nat.le_mul_of_pos_right _ (by positivity)
          omega
      _ ≤ _ := Nat.add_le_add_left (Nat.mul_le_mul_left _ (Nat.le_add_right _ _)) _
  have hbits : 16 * a + 2 * b ≤ br.avail := by
    rw [← Nat.pow_le_pow_iff_right (by decide : 1 < 2)]
    omega
  omega

/-! ## Counts -/

/-- `shrink` halves the threshold down to the highest power of two at most `remaining`. -/
theorem shrink_spec (rem d : Nat) (h1 : 1 ≤ rem) (hd : d < 32) :
    shrink rem (Nat.log2 rem + 1 + d) ((2 ^ (Nat.log2 rem + d) : Nat) : Int)
      = .ok (Nat.log2 rem + 1, ((2 ^ Nat.log2 rem : Nat) : Int)) := by
  have hle : 2 ^ Nat.log2 rem ≤ rem := Nat.log2_self_le (by omega)
  have hlt : rem < 2 ^ (Nat.log2 rem + 1) := Nat.lt_log2_self
  suffices h : ∀ d m, d ≤ m →
      loop (fun s : Nat × Int => decide ((rem : Int) < s.2))
        (fun s => do
          let nb_bits ← sub s.1 1
          pure (nb_bits, s.2 / 2)) m
        (Nat.log2 rem + 1 + d, ((2 ^ (Nat.log2 rem + d) : Nat) : Int))
      = (.ok (Nat.log2 rem + 1, ((2 ^ Nat.log2 rem : Nat) : Int)) : Res _) from
    h d 32 (by omega)
  intro d
  induction d with
  | zero =>
    intro m _
    rw [loop_of_not (by simp only [Nat.add_zero, decide_eq_false_iff_not]; omega)]
    rfl
  | succ d ih =>
    intro m hm
    obtain ⟨m, rfl⟩ : ∃ j, m = j + 1 := ⟨m - 1, by omega⟩
    have hpow : 2 ^ (Nat.log2 rem + 1) ≤ 2 ^ (Nat.log2 rem + (d + 1)) :=
      Nat.pow_le_pow_right (by omega) (by omega)
    have hhalf : ((2 ^ (Nat.log2 rem + (d + 1)) : Nat) : Int) / 2
        = ((2 ^ (Nat.log2 rem + d) : Nat) : Int) := by
      rw [← Nat.add_assoc, pow_succ]; omega
    rw [loop_succ_of (by simp only [decide_eq_true_eq]; omega)]
    simp only []
    rw [sub_ok (by omega), bind_ok, pure_eq_ok, bind_ok, hhalf,
      show Nat.log2 rem + 1 + (d + 1) - 1 = Nat.log2 rem + 1 + d by omega]
    exact ih m (by omega)

/-- The value of a count field and the bits it takes, of a reader with `rem` left to sum to. -/
def count_field (rem value : Nat) : Nat × Nat :=
  let t := 2 ^ Nat.log2 rem
  let max := 2 * t - 1 - rem
  let low := value % (2 * t)
  if low % t < max then (low % t, Nat.log2 rem)
  else (if t ≤ low then low - max else low, Nat.log2 rem + 1)

theorem count_field_le {rem : Nat} (h1 : 1 ≤ rem) (value : Nat) :
    (count_field rem value).1 ≤ rem := by
  have hle : 2 ^ Nat.log2 rem ≤ rem := Nat.log2_self_le (by omega)
  have hlt : rem < 2 ^ (Nat.log2 rem + 1) := Nat.lt_log2_self
  rw [pow_succ] at hlt
  have hlow : value % (2 * 2 ^ Nat.log2 rem) < 2 * 2 ^ Nat.log2 rem :=
    Nat.mod_lt _ (by positivity)
  simp only [count_field]
  split_ifs <;> simp only <;> omega

/-- What the main loop of `read_ncount` keeps, with `rem` the value of `remaining`. -/
structure NCountInv (src : Bytes) (table_log : Nat) (s : NCountState) (rem : Nat) : Prop where
  br : s.br.Valid
  src : s.br.src = src
  remaining : s.remaining = rem
  rem_pos : 1 ≤ rem
  threshold : s.threshold = ((2 ^ Nat.log2 rem : Nat) : Int)
  nb_bits : s.nb_bits = Nat.log2 rem + 1
  length : s.counts.length = 256
  symbol : s.symbol ≤ 256
  zeros : ∀ i, s.symbol ≤ i → s.counts.getD i 0 = 0
  ge : ∀ c ∈ s.counts, -1 ≤ c
  sum : (s.counts.map Int.natAbs).sum + rem = 2 ^ table_log + 1
  /-- The count that completes the table is not zero. -/
  last : rem = 1 → s.symbol ≠ 0 ∧ s.counts.getD (s.symbol - 1) 0 ≠ 0

theorem sum_set_of_zero {l : List Int} {i : Nat} (x : Int) (hi : i < l.length)
    (h0 : l.getD i 0 = 0) :
    ((l.set i x).map Int.natAbs).sum = (l.map Int.natAbs).sum + x.natAbs := by
  induction l generalizing i with
  | nil => simp at hi
  | cons a l ih =>
    cases i with
    | zero =>
      rw [List.getD_cons_zero] at h0
      simp [h0, Nat.add_comm]
    | succ i =>
      rw [List.getD_cons_succ] at h0
      rw [List.set_cons_succ, List.map_cons, List.sum_cons, List.map_cons, List.sum_cons,
        ih (by simpa using hi) h0]
      omega

theorem asU32_natCast {n : Nat} (h : n < 2 ^ 32) : asU32 (n : Int) = n := by
  rw [asU32, Int.emod_eq_of_lt (by omega) (by omega), Int.toNat_natCast]

theorem bmod32_of_lt {x : Int} (h₁ : -2 ^ 31 ≤ x) (h₂ : x < 2 ^ 31) :
    Int.bmod x (2 ^ 32) = x := by
  have e : (2 : Nat) ^ 32 = 4294967296 := by norm_num
  rw [e]
  apply Int.bmod_eq_of_le <;> omega

theorem asI32_of_lt {n : Nat} (h : n < 2 ^ 31) : asI32 n = (n : Int) :=
  bmod32_of_lt (by omega) (by omega)

theorem bmod16_of_lt {x : Int} (h₁ : -2 ^ 15 ≤ x) (h₂ : x < 2 ^ 15) :
    Int.bmod x (2 ^ 16) = x := by
  have e : (2 : Nat) ^ 16 = 65536 := by norm_num
  rw [e]
  apply Int.bmod_eq_of_le <;> omega

theorem log2_mono {m n : Nat} (h : m ≤ n) : Nat.log2 m ≤ Nat.log2 n := by
  rw [Nat.log2_eq_log_two, Nat.log2_eq_log_two]; exact Nat.log_mono_right h

/-- The field of `read_count`: its value as a signed number, and the reader after it. -/
theorem read_field_spec {br : ForwardBitReader} {rem value : Nat} (h : br.Valid)
    (hr : br.Ready (Nat.log2 rem + 1)) (h1 : 1 ≤ rem) (hlog : Nat.log2 rem < 15)
    (hlow : br.value = value) :
    ∃ br',
      (if value % (2 * 2 ^ Nat.log2 rem) % 2 ^ Nat.log2 rem < 2 * 2 ^ Nat.log2 rem - 1 - rem then do
          let short ← sub (Nat.log2 rem + 1) 1
          let br ← br.consume short
          pure (asI32 (value % (2 * 2 ^ Nat.log2 rem) % 2 ^ Nat.log2 rem), br)
        else do
          let br ← br.consume (Nat.log2 rem + 1)
          let c := asI32 (value % (2 * 2 ^ Nat.log2 rem))
          let c ← (if ((2 ^ Nat.log2 rem : Nat) : Int) ≤ c then
            int32 (c - ((2 * 2 ^ Nat.log2 rem - 1 - rem : Nat) : Int)) else pure c)
          pure (c, br))
        = (.ok (((count_field rem value).1 : Int), br') : Res (Int × ForwardBitReader)) ∧
      br'.src = br.src ∧ br'.Valid ∧ br'.value = value / 2 ^ (count_field rem value).2 ∧
      br'.avail = br.avail - (count_field rem value).2 := by
  have hle : 2 ^ Nat.log2 rem ≤ rem := Nat.log2_self_le (by omega)
  have hlt : rem < 2 ^ (Nat.log2 rem + 1) := Nat.lt_log2_self
  have hpow : 2 ^ Nat.log2 rem ≤ 2 ^ 14 := Nat.pow_le_pow_right (by omega) (by omega)
  rw [pow_succ] at hlt
  have hlow' : value % (2 * 2 ^ Nat.log2 rem) < 2 * 2 ^ Nat.log2 rem := Nat.mod_lt _ (by positivity)
  have hmod : value % (2 * 2 ^ Nat.log2 rem) % 2 ^ Nat.log2 rem < 2 ^ Nat.log2 rem :=
    Nat.mod_lt _ (by positivity)
  by_cases hc : value % (2 * 2 ^ Nat.log2 rem) % 2 ^ Nat.log2 rem
      < 2 * 2 ^ Nat.log2 rem - 1 - rem
  · have hf : count_field rem value
        = (value % (2 * 2 ^ Nat.log2 rem) % 2 ^ Nat.log2 rem, Nat.log2 rem) := by
      simp only [count_field]; rw [if_pos hc]
    obtain ⟨b₂, h₂, hs₂, hv₂, hval₂, hav₂⟩ :=
      ForwardBitReader.consume_spec h (n := Nat.log2 rem) (by omega) (hr.mono (by omega))
    refine ⟨b₂, ?_, hs₂, hv₂, by rw [hf, hval₂, hlow], by rw [hf, hav₂]⟩
    rw [if_pos hc, sub_ok (by omega), bind_ok, Nat.add_sub_cancel, h₂, bind_ok,
      asI32_of_lt (by omega), hf]
    rfl
  · have hf : count_field rem value = (if 2 ^ Nat.log2 rem ≤ value % (2 * 2 ^ Nat.log2 rem) then
        value % (2 * 2 ^ Nat.log2 rem) - (2 * 2 ^ Nat.log2 rem - 1 - rem)
        else value % (2 * 2 ^ Nat.log2 rem), Nat.log2 rem + 1) := by
      simp only [count_field]; rw [if_neg hc]
    obtain ⟨b₂, h₂, hs₂, hv₂, hval₂, hav₂⟩ := ForwardBitReader.consume_spec h (by omega) hr
    refine ⟨b₂, ?_, hs₂, hv₂, by rw [hf, hval₂, hlow], by rw [hf, hav₂]⟩
    rw [if_neg hc, h₂, bind_ok, asI32_of_lt (by omega), hf]
    simp only []
    by_cases hcl : 2 ^ Nat.log2 rem ≤ value % (2 * 2 ^ Nat.log2 rem)
    · rw [if_pos (by omega), int32_ok (by omega) (by omega), bind_ok, if_pos hcl, pure_eq_ok]
      congr 2
      omega
    · rw [if_neg (by omega), if_neg hcl]; rfl

/-- The state after `read_count` read the value `v`. -/
def counted (s : NCountState) (br : ForwardBitReader) (rem v : Nat) : NCountState :=
  let rem' := rem - ((v : Int) - 1).natAbs
  ⟨br, (rem' : Int), ((2 ^ Nat.log2 rem' : Nat) : Int), Nat.log2 rem' + 1,
    s.counts.set s.symbol ((v : Int) - 1), s.symbol + 1, v == 1⟩

/-- `read_count` reads one field. -/
theorem read_count_spec {src : Bytes} {table_log rem : Nat} {s : NCountState} (htl : table_log ≤ 14)
    (h : NCountInv src table_log s rem) (hrem : 1 < rem) (hsym : s.symbol < 256) :
    ∃ br', read_count s = .ok (counted s br' rem (count_field rem s.br.value).1) ∧
      br'.src = s.br.src ∧ br'.Valid ∧ br'.value = s.br.value / 2 ^ (count_field rem s.br.value).2 ∧
      br'.avail = s.br.avail - (count_field rem s.br.value).2 := by
  have hsum := h.sum
  have hpow14 : 2 ^ table_log ≤ 2 ^ 14 := Nat.pow_le_pow_right (by omega) htl
  have hle : 2 ^ Nat.log2 rem ≤ rem := Nat.log2_self_le (by omega)
  have hlt : rem < 2 ^ (Nat.log2 rem + 1) := Nat.lt_log2_self
  have hlog : Nat.log2 rem < 15 := (Nat.log2_lt (by omega)).mpr (by omega)
  obtain ⟨b₁, h₁, hs₁, hr₁⟩ := ForwardBitReader.peek_spec h.br (n := Nat.log2 rem + 1) (by omega)
  obtain ⟨b₂, hfield, hs₂, hv₂, hval₂, hav₂⟩ :=
    read_field_spec hs₁.valid hr₁ (by omega) hlog hs₁.value
  rw [pow_succ] at hlt
  rw [pow_succ, Nat.mul_comm] at h₁
  have hv := count_field_le (by omega : 1 ≤ rem) s.br.value
  have hone : 1 ≤ 2 ^ Nat.log2 rem := Nat.one_le_two_pow
  have hlow : s.br.value % (2 * 2 ^ Nat.log2 rem) < 2 * 2 ^ Nat.log2 rem :=
    Nat.mod_lt _ (by positivity)
  have hand : s.br.value % (2 * 2 ^ Nat.log2 rem) &&& (2 ^ Nat.log2 rem - 1)
      = s.br.value % (2 * 2 ^ Nat.log2 rem) % 2 ^ Nat.log2 rem := Nat.and_two_pow_sub_one_eq_mod _ _
  have hand2 : s.br.value % (2 * 2 ^ Nat.log2 rem) &&& (2 * 2 ^ Nat.log2 rem - 1)
      = s.br.value % (2 * 2 ^ Nat.log2 rem) := by
    have := Nat.and_two_pow_sub_one_eq_mod (s.br.value % (2 * 2 ^ Nat.log2 rem)) (Nat.log2 rem + 1)
    rw [pow_succ, Nat.mul_comm (2 ^ Nat.log2 rem)] at this
    rw [this, Nat.mod_eq_of_lt hlow]
  refine ⟨b₂, ?_, hs₂.trans hs₁.src, hv₂, hval₂, by rw [hav₂, hs₁.avail]⟩
  generalize (count_field rem s.br.value).1 = v at hv hfield
  have habs : ((v : Int) - 1).natAbs ≤ rem - 1 := by omega
  obtain ⟨d, hd⟩ : ∃ d, Nat.log2 rem = Nat.log2 (rem - ((v : Int) - 1).natAbs) + d :=
    Nat.exists_eq_add_of_le (log2_mono (by omega))
  have hshrink := shrink_spec (rem - ((v : Int) - 1).natAbs) d (by omega) (by omega)
  rw [show Nat.log2 (rem - ((v : Int) - 1).natAbs) + 1 + d = Nat.log2 rem + 1 by omega, ← hd]
    at hshrink
  have hbelow : ((2 ^ Nat.log2 rem : Nat) : Int) - 1 = ((2 ^ Nat.log2 rem - 1 : Nat) : Int) := by
    omega
  have htop : 2 * ((2 ^ Nat.log2 rem : Nat) : Int) - 1 =
    ((2 * 2 ^ Nat.log2 rem - 1 : Nat) : Int) := by
    omega
  have hmax : ((2 * 2 ^ Nat.log2 rem - 1 : Nat) : Int) - rem
      = ((2 * 2 ^ Nat.log2 rem - 1 - rem : Nat) : Int) := by omega
  have hrem' : (rem : Int) - |(v : Int) - 1| = ((rem - ((v : Int) - 1).natAbs : Nat) : Int) := by
    rw [← Int.natCast_natAbs]; omega
  rw [read_count, h.threshold, h.remaining, h.nb_bits, int32_ok (by omega) (by omega), bind_ok,
    htop,
    int32_ok (by omega) (by omega), bind_ok, hmax, int32_ok (by omega) (by omega), bind_ok, hbelow,
    int32_ok (by omega) (by omega), bind_ok, h₁, bind_ok]
  simp only []
  rw [asU32_natCast (by omega), asU32_natCast (by omega), asU32_natCast (by omega), hand, hand2,
    hfield, bind_ok]
  simp only []
  rw [int32_ok (by omega) (by omega), bind_ok, hrem', int32_ok (by omega) (by omega), bind_ok,
    if_neg (by omega), set_ok (by rw [h.length]; omega), bind_ok, add_ok (by omega), bind_ok,
    hshrink, bind_ok, bmod16_of_lt (by omega) (by omega)]
  simp only [counted, pure_eq_ok]
  congr 2
  rw [Bool.eq_iff_iff]
  simp
  omega

/-- `read_count` keeps the invariant. -/
theorem NCountInv.counted {src : Bytes} {table_log rem v : Nat} {s : NCountState}
    {br : ForwardBitReader} (h : NCountInv src table_log s rem) (hrem : 1 < rem) (hv : v ≤ rem)
    (hsym : s.symbol < 256) (hbr : br.Valid) (hsrc : br.src = src) :
    NCountInv src table_log (counted s br rem v) (rem - ((v : Int) - 1).natAbs) where
  br := hbr
  src := hsrc
  remaining := rfl
  rem_pos := by omega
  threshold := rfl
  nb_bits := rfl
  length := by simp [Fse.counted, h.length]
  symbol := hsym
  zeros := by
    intro i hi
    have hi : s.symbol + 1 ≤ i := hi
    simp only [Fse.counted, List.getD_eq_getElem?_getD]
    rw [List.getElem?_set_ne (by omega), ← List.getD_eq_getElem?_getD]
    exact h.zeros i (by omega)
  ge := by
    intro c hc
    rcases List.mem_or_eq_of_mem_set hc with hc | rfl
    · exact h.ge c hc
    · omega
  sum := by
    have hsum := h.sum
    simp only [Fse.counted]
    rw [sum_set_of_zero _ (by rw [h.length]; exact hsym) (h.zeros _ le_rfl)]
    omega
  last := by
    intro h1
    refine ⟨Nat.succ_ne_zero _, ?_⟩
    simp only [Fse.counted, Nat.add_sub_cancel]
    rw [List.getD_eq_getElem?_getD, List.getElem?_set_self (by rw [h.length]; exact hsym),
      Option.getD_some]
    omega

/-- A run of zero counts keeps the invariant. -/
theorem NCountInv.skipped {src : Bytes} {table_log rem n : Nat} {s : NCountState}
    {br : ForwardBitReader} (h : NCountInv src table_log s rem) (hrem : 1 < rem) (hn : s.symbol ≤ n)
    (hbr : br.Valid) (hsrc : br.src = src) :
    NCountInv src table_log { s with br := br, symbol := min n 256, previous0 := false } rem where
  br := hbr
  src := hsrc
  remaining := h.remaining
  rem_pos := h.rem_pos
  threshold := h.threshold
  nb_bits := h.nb_bits
  length := h.length
  symbol := Nat.min_le_right _ _
  zeros := by
    intro i hi
    have hi : min n 256 ≤ i := hi
    have hsym := h.symbol
    exact h.zeros i (by omega)
  ge := h.ge
  sum := h.sum
  last := fun h1 => absurd h1 (by omega)

/-- One iteration of the main loop of `read_ncount` returns, keeps the invariant and makes
progress. -/
theorem read_ncount_step {src : Bytes} {table_log : Nat} {s : NCountState} (htl : table_log ≤ 14)
    (hlen : 12 * src.length + 260 ≤ 2 ^ 64) (h : ∃ rem, NCountInv src table_log s rem)
    (hrem : 1 < s.remaining) (hsym : s.symbol < 256) :
    Returns (if s.previous0 then read_zero_run s else read_count s) fun s' =>
      (∃ rem, NCountInv src table_log s' rem) ∧
      2 * (256 - s'.symbol) + s'.previous0.toNat < 2 * (256 - s.symbol) + s.previous0.toNat := by
  obtain ⟨rem, h⟩ := h
  have hrem : 1 < rem := by have := h.remaining; omega
  by_cases hp : s.previous0
  · rw [if_pos hp, hp]
    obtain ⟨a, v, hv, hv16⟩ := exists_ones_below (n := 16) (by omega) s.br.value
    obtain ⟨b, w, hw, hw2⟩ := exists_ones_below (n := 2) (by omega) v
    obtain ⟨br', hr, hsrc, hvalid, -, -⟩ := read_zero_run_spec h.br
      (runs_fit h.br (by rw [h.src]; exact hlen) h.symbol hv hw) hv hv16 hw hw2
    refine ⟨_, hr, ⟨rem, h.skipped hrem (by omega) hvalid (hsrc.trans h.src)⟩, ?_⟩
    simp only [Bool.toNat_true, Bool.toNat_false]
    omega
  · rw [Bool.not_eq_true] at hp
    rw [hp]
    obtain ⟨br', hr, hsrc, hvalid, -, -⟩ := read_count_spec htl h hrem hsym
    refine ⟨_, hr, ⟨_, h.counted hrem (count_field_le (by omega) _) hsym hvalid
      (hsrc.trans h.src)⟩, ?_⟩
    have hb : (counted s br' rem (count_field rem s.br.value).1).previous0.toNat ≤ 1 :=
      Bool.toNat_le _
    have hs : (counted s br' rem (count_field rem s.br.value).1).symbol = s.symbol + 1 := rfl
    simp only [Bool.toNat_false]
    omega

/-- What `read_ncount` returns. -/
structure NCount.Valid (nc : NCount) (max_log : Nat) (src : Bytes) : Prop where
  length : nc.counts.length = 256
  symbol : nc.max_symbol < 256
  ge_log : 5 ≤ nc.table_log
  log_le : nc.table_log ≤ max_log
  counts : ValidCounts (nc.counts.take (nc.max_symbol + 1)) nc.table_log
  zeros : ∀ i, nc.max_symbol < i → nc.counts.getD i 0 = 0
  last : nc.counts.getD nc.max_symbol 0 ≠ 0
  consumed : nc.bytes_consumed ≤ src.length

theorem sum_take_of_zeros {l : List Int} {n : Nat} (h : ∀ i, n ≤ i → l.getD i 0 = 0) :
    ((l.take n).map Int.natAbs).sum = (l.map Int.natAbs).sum := by
  induction l generalizing n with
  | nil => simp
  | cons a l ih =>
    cases n with
    | zero =>
      have h0 : a = 0 := by simpa using h 0 le_rfl
      have := ih (n := 0) fun i _ => by simpa using h (i + 1) (Nat.zero_le _)
      simp only [List.take_zero, List.map_nil, List.sum_nil] at this
      simp [h0, ← this]
    | succ n =>
      have := ih (n := n) fun i hi => by simpa using h (i + 1) (by omega)
      rw [List.take_succ_cons, List.map_cons, List.sum_cons, this, List.map_cons, List.sum_cons]

theorem log2_size_succ {table_log : Nat} (h : 1 ≤ table_log) :
    Nat.log2 (2 ^ table_log + 1) = table_log := by
  have h1 : 2 ^ 1 ≤ 2 ^ table_log := Nat.pow_le_pow_right (by omega) h
  rw [Nat.log2_eq_iff (by omega), pow_succ]
  omega

/-- The loop of `read_ncount` starts with the whole table left. -/
theorem ncount_start {src : Bytes} {br : ForwardBitReader} {table_log : Nat} (hbr : br.Valid)
    (hsrc : br.src = src) (h : 1 ≤ table_log) :
    NCountInv src table_log
      ⟨br, ((2 ^ table_log : Nat) : Int) + 1, ((2 ^ table_log : Nat) : Int), table_log + 1,
        List.replicate 256 0, 0, false⟩ (2 ^ table_log + 1) :=
  { br := hbr, src := hsrc, remaining := by push_cast; rfl, rem_pos := Nat.le_add_left _ _
    threshold := by rw [log2_size_succ h], nb_bits := by rw [log2_size_succ h]
    length := List.length_replicate
    symbol := Nat.zero_le _
    zeros := fun i _ => by
      rw [List.getD_eq_getElem?_getD, List.getElem?_replicate]; split <;> rfl
    ge := fun c hc => by rw [List.eq_of_mem_replicate hc]; omega
    sum := by rw [List.map_replicate, List.sum_replicate]; simp
    last := fun h1 => absurd h1 (by have := Nat.one_le_two_pow (n := table_log); omega) }

/-- `read_ncount` never faults, and returns valid counts. -/
theorem read_ncount_safe {src : Bytes} (max_log : Nat) (hlen : 12 * src.length + 260 ≤ 2 ^ 64)
    (hmax : max_log ≤ 14) : Safe (read_ncount src max_log) fun nc => nc.Valid max_log src := by
  obtain ⟨b₀, h₀, hs₀, hv₀, -, -⟩ := ForwardBitReader.new_spec src (by omega)
  obtain ⟨b₁, h₁, hs₁, hv₁, -, -⟩ := ForwardBitReader.read_spec hv₀ (n := 4) (by omega)
  have hlow : b₀.value % 2 ^ 4 < 16 := Nat.mod_lt _ (by positivity)
  rw [read_ncount, h₀, bind_ok, h₁, bind_ok]
  simp only []
  rw [add_ok (by omega), bind_ok]
  obtain ⟨table_log, htl⟩ : ∃ t, b₀.value % 2 ^ 4 + 5 = t := ⟨_, rfl⟩
  rw [htl]
  refine safe_ite (fun _ => safe_fail) fun hmaxlog => ?_
  have hpow : 2 ^ table_log ≤ 2 ^ 14 := Nat.pow_le_pow_right (by omega) (by omega)
  have hone : 1 ≤ 2 ^ table_log := Nat.one_le_two_pow
  have hsmall : (2 : Nat) ^ 14 = 16384 := by norm_num
  rw [shl_exact (by omega) (by omega), bind_ok, Nat.one_mul, asI32_of_lt (by omega),
    int32_ok (by omega) (by omega), bind_ok, add_ok (by omega), bind_ok]
  have hstart := @ncount_start src b₁ table_log hv₁ (hs₁.trans hs₀) (by omega)
  have hloop := @Safe.loop ZstdError _ (fun s : NCountState => decide (1 < s.remaining) && decide
    (s.symbol < 256))
    (fun s => if s.previous0 then read_zero_run s else read_count s)
    (fun s => ∃ rem, NCountInv src table_log s rem)
    (fun s => 2 * (256 - s.symbol) + s.previous0.toNat)
    (fun s hs hc => by
      simp only [Bool.and_eq_true, decide_eq_true_eq] at hc
      exact (read_ncount_step (by omega) hlen hs hc.1 hc.2).safe) 1024 _ ⟨_, hstart⟩ (by simp)
  refine hloop.bind ?_
  rintro s ⟨⟨rem, hs⟩, -⟩
  refine safe_ite (fun _ => safe_fail) fun hrem => ?_
  have hrem1 : rem = 1 := by have := hs.remaining; omega
  subst hrem1
  rw [ForwardBitReader.bytes_consumed_spec hs.br (by rw [hs.src]; omega), bind_ok, hs.src]
  have hsum := hs.sum
  have hsym := hs.symbol
  obtain ⟨hlast0, hlast⟩ := hs.last rfl
  refine Safe.ok ⟨hs.length, by simp only; omega, by simp only; omega, by simp only; omega,
    ⟨?_, fun c hc => hs.ge c (List.mem_of_mem_take hc), ?_⟩,
    fun i hi => hs.zeros i (by simp only at hi; omega), hlast, by simp only; omega⟩
  · rw [List.length_take, hs.length]; exact Nat.min_le_right _ _
  · rw [sum_take_of_zeros fun i hi => hs.zeros i (by simp only at hi; omega)]
    simp only
    omega

/-! ## Decoding -/

section Decode

variable {table : FseDecodeTable} {br : ReverseBitReader}

/-- The entry of a state exists, whatever the state. -/
theorem entry_spec (h : table.Valid) (state : Nat) :
    ∃ e ∈ table.entries, entry state table = .ok e := by
  have hlt : state % FSE_DTABLE_SIZE < table.entries.length := by
    rw [h.length]; exact Nat.mod_lt _ (by decide)
  exact ⟨_, List.getElem_mem hlt, by rw [entry, get_ok hlt]⟩

theorem FseDecodeTable.Valid.num_bits_le (h : table.Valid) {e : FseEntry} (he : e ∈ table.entries) :
    e.num_bits ≤ 9 := (h.entry e he).1.trans h.log

theorem init_spec (h : table.Valid) (hb : br.Valid) (hc : br.bits_consumed ≤ 2 ^ 31) :
    ∃ s br', init table br = .ok (s, br') ∧ br'.src = br.src ∧ br'.Valid ∧
      br'.bits_consumed ≤ br.bits_consumed + 9 := by
  have hlog := h.log
  obtain ⟨v, hv, -⟩ := br.read_valid (n := table.table_log) (by omega) (by omega)
  exact ⟨v, { br with bits_consumed := br.bits_consumed + table.table_log }, hv, rfl, hb.consume _,
    by simp only; omega⟩

theorem update_with_entry_spec (h : table.Valid) {e : FseEntry} (he : e ∈ table.entries)
    (hb : br.Valid) (hc : br.bits_consumed ≤ 2 ^ 31) :
    ∃ s br', update_with_entry e br = .ok (s, br') ∧ br'.src = br.src ∧ br'.Valid ∧
      br'.bits_consumed ≤ br.bits_consumed + 9 := by
  have hn := h.num_bits_le he
  have hbase := (h.entry e he).2
  have hlog : 2 ^ table.table_log ≤ 2 ^ 9 := Nat.pow_le_pow_right (by omega) h.log
  obtain ⟨v, hv, hlt⟩ := br.read_valid (n := e.num_bits) (by omega) (by omega)
  refine ⟨e.new_state_base + v, { br with bits_consumed := br.bits_consumed + e.num_bits }, ?_, rfl,
    hb.consume e.num_bits, by simp only; omega⟩
  rw [update_with_entry, hv, bind_ok]
  simp only []
  rw [add_ok (by omega)]
  rfl

theorem symbol_update_spec (h : table.Valid) (state : Nat) (hb : br.Valid)
    (hc : br.bits_consumed ≤ 2 ^ 31) :
    ∃ sym s br', symbol_update state table br = .ok (sym, s, br') ∧ br'.src = br.src ∧ br'.Valid ∧
      br'.bits_consumed ≤ br.bits_consumed + 9 := by
  obtain ⟨e, he, h₁⟩ := entry_spec h state
  obtain ⟨s, br', h₂, hs, hv, hb'⟩ := update_with_entry_spec h he hb hc
  refine ⟨e.symbol, s, br', ?_, hs, hv, hb'⟩
  rw [symbol_update, h₁, bind_ok, h₂]; rfl

/-- What the loops of `decompress` keep. -/
structure TwoState.Inv (s : TwoState) (max_out : Nat) : Prop where
  br : s.br.Valid
  consumed : s.br.bits_consumed ≤ 128
  out : s.out.length ≤ max_out

theorem pair_ready_spec {s : TwoState} {max_out : Nat} (hmax : max_out < 2 ^ 32)
    (h : s.Inv max_out) :
    ∃ s', pair_ready max_out s = .ok s' ∧ s'.Inv max_out ∧ s'.out = s.out ∧
      (s'.go = true → s.out.length + 2 ≤ max_out ∧ s'.br.bits_consumed ≤ 7) := by
  obtain ⟨st, br', hr, hs⟩ := ReverseBitReader.reload_spec h.br
  have hle := hs.consumed_le
  have hc := h.consumed
  have ho := h.out
  by_cases hst : st = .Unfinished
  · refine ⟨{ s with br := br', go := decide (s.out.length + 2 ≤ max_out) }, ?_,
      ⟨hs.valid, by simp only; omega, ho⟩, rfl, fun hgo => ⟨by simpa using hgo, hs.full hst⟩⟩
    rw [pair_ready, hr, bind_ok]
    simp only []
    rw [if_pos hst, add_ok (by omega)]; rfl
  · refine ⟨{ s with br := br', go := false }, ?_, ⟨hs.valid, by simp only; omega, ho⟩, rfl,
      fun hgo => by simp at hgo⟩
    rw [pair_ready, hr, bind_ok]
    simp only []
    rw [if_neg hst]; rfl

theorem decode_pair_spec (h : table.Valid) {s : TwoState} (hb : s.br.Valid)
    (hc : s.br.bits_consumed ≤ 7) :
    ∃ s', decode_pair table s = .ok s' ∧ s'.br.Valid ∧ s'.br.bits_consumed ≤ 128 ∧
      s'.out.length = s.out.length + 2 := by
  obtain ⟨y₁, s₁, b₁, h₁, -, hv₁, hc₁⟩ := symbol_update_spec h s.s1 hb (by omega)
  obtain ⟨y₂, s₂, b₂, h₂, -, hv₂, hc₂⟩ := symbol_update_spec h s.s2 hv₁ (by omega)
  refine ⟨{ s with br := b₂, s1 := s₁, s2 := s₂, out := s.out ++ [y₁] ++ [y₂] }, ?_, hv₂,
    by simp only; omega, by simp⟩
  rw [decode_pair, h₁, bind_ok]
  simp only []
  rw [h₂]; rfl

theorem emit_safe {max_out sym : Nat} {out : List Nat} :
    Safe (emit max_out out sym) fun out' => out.length < max_out ∧ out' = out ++ [sym] := by
  rw [emit]
  split_ifs with hm
  · exact safe_fail
  · exact Safe.ok ⟨by omega, rfl⟩

theorem decode_tail_half_safe (h : table.Valid) {max_out a b : Nat} {out : List Nat}
    (hb : br.Valid) (hc : br.bits_consumed ≤ 128) :
    Safe (decode_tail_half table max_out br a b out) fun p =>
      p.2.1.Valid ∧ p.2.1.bits_consumed ≤ 256 ∧ p.2.2.2.length ≤ max_out ∧
      (p.1 = true → p.2.1.bits_consumed ≤ 64 ∧ out.length < p.2.2.2.length) := by
  obtain ⟨y, s, b₁, h₁, -, hv₁, hc₁⟩ := symbol_update_spec h a hb (by omega)
  rw [decode_tail_half, h₁, bind_ok]
  refine emit_safe.bind ?_
  rintro out' ⟨hlt, rfl⟩
  obtain ⟨st, b₂, h₂, hs⟩ := ReverseBitReader.reload_spec hv₁
  have hle := hs.consumed_le
  rw [h₂, bind_ok]
  refine safe_ite (fun hst => ?_) fun hst => ?_
  · obtain ⟨e, -, he⟩ := entry_spec h b
    rw [he, bind_ok]
    refine emit_safe.bind ?_
    rintro out' ⟨hlt', rfl⟩
    simp only [List.length_append, List.length_singleton] at hlt'
    exact Safe.ok ⟨hs.valid, by simp only; omega, by simp; omega, fun hf => by simp at hf⟩
  · have h64 : b₁.bits_consumed ≤ 64 := by
      by_contra hgt
      exact hst (hs.overflow.mpr (by omega))
    exact Safe.ok ⟨hs.valid, by simp only; omega, by simp; omega,
      fun _ => ⟨by simp only; omega, by simp⟩⟩

theorem decode_tail_safe (h : table.Valid) {max_out : Nat} {s : TwoState} (hs : s.Inv max_out) :
    Safe (decode_tail table max_out s) fun s' =>
      (s'.go = true → s'.Inv max_out) ∧ s'.out.length ≤ max_out ∧
      (s'.go = true → s.out.length < s'.out.length) := by
  rw [decode_tail]
  refine (decode_tail_half_safe h hs.br hs.consumed).bind ?_
  rintro ⟨go, b₁, s₁, out₁⟩ ⟨hv₁, hc₁, ho₁, hgo₁⟩
  refine safe_ite (fun hgo => ?_) fun hgo => ?_
  · obtain ⟨h64, hlt₁⟩ := hgo₁ hgo
    refine (decode_tail_half_safe h hv₁ (by omega)).bind ?_
    rintro ⟨go₂, b₂, s₂, out₂⟩ ⟨hv₂, hc₂, ho₂, hgo₂⟩
    exact Safe.ok ⟨fun hg => ⟨hv₂, (hgo₂ hg).1.trans (by omega), ho₂⟩, ho₂,
      fun hg => hlt₁.trans (hgo₂ hg).2⟩
  · exact Safe.ok ⟨fun hg => by simp at hg, ho₁, fun hg => by simp at hg⟩

/-- `decompress` never faults, and returns at most `max_out` symbols. -/
theorem decompress_safe (h : table.Valid) {bitstream : Bytes} {max_out : Nat}
    (hlen : bitstream.length < 2 ^ 63) (hmax : max_out < 2 ^ 32) :
    Safe (decompress bitstream table max_out) fun out => out.length ≤ max_out := by
  rw [decompress]
  refine (ReverseBitReader.new_safe hlen).bind ?_
  rintro b₀ ⟨-, hv₀, hc₀⟩
  obtain ⟨s₁, b₁, h₁, -, hv₁, hc₁⟩ := init_spec h hv₀ (by omega)
  obtain ⟨s₂, b₂, h₂, -, hv₂, hc₂⟩ := init_spec h hv₁ (by omega)
  rw [h₁, bind_ok]
  simp only []
  rw [h₂, bind_ok]
  simp only []
  have hstart : TwoState.Inv ⟨b₂, s₁, s₂, [], false⟩ max_out :=
    ⟨hv₂, by simp only; omega, Nat.zero_le _⟩
  obtain ⟨t₀, h₃, hi₀, ho₀, hgo₀⟩ := pair_ready_spec hmax hstart
  rw [h₃, bind_ok]
  have hmain := @Safe.loop ZstdError _ TwoState.go (fun s => do
      let s ← decode_pair table s
      pair_ready max_out s)
    (fun s => s.Inv max_out ∧ (s.go = true → s.out.length + 2 ≤ max_out ∧ s.br.bits_consumed ≤ 7))
    (fun s => max_out - s.out.length) (by
      rintro s ⟨hs, hgo⟩ hg
      obtain ⟨hroom, h7⟩ := hgo hg
      obtain ⟨t, ht, htv, htc, hto⟩ := decode_pair_spec h hs.br h7
      obtain ⟨t', ht', hi', ho', hgo'⟩ := pair_ready_spec hmax (s := t) ⟨htv, htc, by omega⟩
      simp only [ht, bind_ok, ht']
      exact Safe.ok ⟨⟨hi', fun hg' => by rw [ho']; exact hgo' hg'⟩, by rw [ho']; omega⟩)
    (max_out + 1) t₀ ⟨hi₀, fun hg => by rw [ho₀]; exact hgo₀ hg⟩ (by omega)
  refine hmain.bind ?_
  rintro s ⟨⟨hs, -⟩, -⟩
  have htail := @Safe.loop ZstdError _ TwoState.go (decode_tail table max_out)
    (fun s => s.out.length ≤ max_out ∧ (s.go = true → s.Inv max_out))
    (fun s => if s.go then max_out - s.out.length + 1 else 0) (by
      rintro s ⟨-, hi⟩ hg
      refine (decode_tail_safe h (hi hg)).mono ?_
      rintro s' ⟨hi', ho', hlt⟩
      refine ⟨⟨ho', hi'⟩, ?_⟩
      rw [if_pos hg]
      split_ifs with hg'
      · have := hlt hg'; omega
      · omega)
    (max_out + 2) { s with go := true } ⟨hs.out, fun _ => ⟨hs.br, hs.consumed, hs.out⟩⟩ (by
      simp only [if_true]; omega)
  exact htail.bind fun s hs => Safe.ok hs.1.1

end Decode

end ZstdPure.Fse
