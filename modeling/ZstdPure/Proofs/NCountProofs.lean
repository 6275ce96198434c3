import ZstdPure.Proofs.CTableProofs

/-!
# FSE table descriptions

`read_ncount` reads back what `write_ncount` wrote. Both walk the counts with the same `remaining`;
the fields of the writer are pushed on a bit stack that the reader takes from below.
-/

namespace ZstdPure.Encode

open Fse Outcome

/-! ## The writer -/

namespace NCountWriter

/-- The bytes and the bit stream of `w` hold the bits `s`. -/
structure Holds (w : NCountWriter) (s : BitStack) : Prop where
  lt : w.bit_stream < 2 ^ w.bit_count
  len : s.len = 8 * w.out.length + w.bit_count
  val : s.val = leNat w.out + w.bit_stream * 2 ^ (8 * w.out.length)

variable {w : NCountWriter} {s : BitStack}

/-- A field pushed above the bits. -/
theorem Holds.put (h : w.Holds s) {v n : Nat} (hv : v < 2 ^ n) (hn : w.bit_count + n ≤ 32) :
    (w.put v n).Holds (s.push v n) := by
  have hsmall : v * 2 ^ w.bit_count < 2 ^ 32 := by
    calc v * 2 ^ w.bit_count < 2 ^ n * 2 ^ w.bit_count :=
          Nat.mul_lt_mul_of_pos_right hv (by positivity)
      _ = 2 ^ (n + w.bit_count) := (pow_add ..).symm
      _ ≤ 2 ^ 32 := Nat.pow_le_pow_right (by decide) (by omega)
  have hbits : w.bit_stream ||| (v <<< w.bit_count) % 2 ^ 32 = w.bit_stream + v *
    2 ^ w.bit_count := by
    rw [Nat.mod_eq_of_lt (by rw [Nat.shiftLeft_eq]; exact hsmall), lor_shl_eq_add _ _ h.lt]
  unfold NCountWriter.put
  rw [hbits]
  refine ⟨BitStack.push_lt h.lt hv, ?_, ?_⟩
  · rw [BitStack.push_len, h.len]
    simp only
    omega
  · rw [BitStack.push_val, h.len, h.val, Nat.mod_eq_of_lt hv, pow_add]
    ring

theorem push16_out (w : NCountWriter) : w.push16.out = w.out ++ leBytes 2 w.bit_stream := by
  simp [push16, leBytes, Nat.shiftRight_eq_div_pow]

/-- Two bytes move to the output. -/
theorem Holds.flush (h : w.Holds s) (hn : w.bit_count ≤ 32) :
    w.flush.Holds s ∧ w.flush.bit_count ≤ 16 := by
  unfold NCountWriter.flush
  split_ifs with h16
  · have hdiv := Nat.mod_add_div w.bit_stream (2 ^ 16)
    have hlen : (w.out ++ leBytes 2 w.bit_stream).length = w.out.length + 2 := by
      rw [List.length_append, length_leBytes]
    refine ⟨⟨?_, ?_, ?_⟩, by simp only; omega⟩
    · simp only [push16, Nat.shiftRight_eq_div_pow]
      rw [Nat.div_lt_iff_lt_mul (by positivity), ← pow_add, Nat.sub_add_cancel (by omega)]
      exact h.lt
    · simp only [push16_out, hlen]
      rw [h.len]
      omega
    · simp only [push16_out, hlen, leNat_append, leNat_leBytes]
      simp only [push16, Nat.shiftRight_eq_div_pow]
      rw [h.val, Nat.mul_add, pow_add]
      conv_lhs => rw [← hdiv]
      ring
  · exact ⟨h, by omega⟩

theorem put_out (w : NCountWriter) (v n : Nat) : (w.put v n).out = w.out := rfl

/-- The code of 24 zero counts. -/
theorem Holds.put_run24 (h : w.Holds s) (hn : w.bit_count ≤ 16) :
    Holds { (w.put 0xFFFF 0).push16 with bit_count := w.bit_count } (s.push (2 ^ 16 - 1) 16) := by
  have hput := h.put (by decide : 0xFFFF < 2 ^ 16) (by omega)
  have hflush := (hput.flush (by unfold NCountWriter.put; simp only; omega)).1
  by_cases h0 : w.bit_count = 0
  · have hzero : w.bit_stream = 0 := by
      have hlt := h.lt
      rw [h0, pow_zero] at hlt
      exact Nat.lt_one_iff.mp hlt
    have hlen := h.len
    have hval := h.val
    rw [h0] at hlen
    rw [hzero] at hval
    refine ⟨?_, ?_, ?_⟩
    · simp [push16, NCountWriter.put, h0, hzero]
    · simp only [push16_out, put_out, List.length_append, length_leBytes]
      rw [BitStack.push_len, hlen, h0]
      omega
    · simp only [push16_out, put_out, List.length_append, length_leBytes, leNat_append,
        leNat_leBytes]
      rw [BitStack.push_val, hlen, hval]
      simp [push16, NCountWriter.put, h0, hzero]
      ring
  · have hlong : 16 < (w.put 0xFFFF 16).bit_count := by
      unfold NCountWriter.put
      simp only
      omega
    have hsame : (w.put 0xFFFF 16).flush
        = { (w.put 0xFFFF 0).push16 with bit_count := w.bit_count } := by
      unfold NCountWriter.flush
      rw [if_pos hlong]
      simp [NCountWriter.put, push16]
    rw [← hsame]
    exact hflush

/-- The bits after `k` fields of `n` ones. -/
def push_ones (n k : Nat) (s : BitStack) : BitStack := (fun s => s.push (2 ^ n - 1) n)^[k] s

theorem push_ones_succ (n k : Nat) (s : BitStack) :
    push_ones n (k + 1) s = (push_ones n k s).push (2 ^ n - 1) n :=
  Function.iterate_succ_apply' ..

/-- The bits of a run of `n` further zero counts. -/
def push_run (n : Nat) (s : BitStack) : BitStack :=
  (push_ones 2 (n % 24 / 3) (push_ones 16 (n / 24) s)).push (n % 24 % 3) 2

theorem put_bit_count (w : NCountWriter) (v n : Nat) :
    (w.put v n).bit_count = w.bit_count + n := rfl

theorem Holds.put_runs24 (h : w.Holds s) (hn : w.bit_count ≤ 16) (k : Nat) :
    ((fun w : NCountWriter =>
        { (w.put 0xFFFF 0).push16 with bit_count := w.bit_count })^[k] w).Holds (push_ones 16 k s) ∧
      ((fun w : NCountWriter =>
        { (w.put 0xFFFF 0).push16 with bit_count := w.bit_count })^[k] w).bit_count =
          w.bit_count := by
  induction k with
  | zero => exact ⟨h, rfl⟩
  | succ k ih =>
    obtain ⟨hk, hc⟩ := ih
    rw [Function.iterate_succ_apply', push_ones_succ]
    exact ⟨hk.put_run24 (by rw [hc]; exact hn), hc⟩

theorem Holds.put_runs3 (h : w.Holds s) (hn : w.bit_count ≤ 16) (k : Nat) (hk : k ≤ 7) :
    ((fun w : NCountWriter => w.put 3 2)^[k] w).Holds (push_ones 2 k s) ∧
      ((fun w : NCountWriter => w.put 3 2)^[k] w).bit_count = w.bit_count + 2 * k := by
  induction k with
  | zero => exact ⟨h, rfl⟩
  | succ k ih =>
    obtain ⟨hh, hc⟩ := ih (by omega)
    rw [Function.iterate_succ_apply', push_ones_succ]
    refine ⟨hh.put (by decide) (by rw [hc]; omega), ?_⟩
    rw [put_bit_count, hc]
    omega

theorem Holds.put_run (h : w.Holds s) (hn : w.bit_count ≤ 16) (n : Nat) :
    (w.put_run n).Holds (push_run n s) ∧ (w.put_run n).bit_count ≤ 16 := by
  obtain ⟨ha, hca⟩ := h.put_runs24 hn (n / 24)
  obtain ⟨hb, hcb⟩ := ha.put_runs3 (by rw [hca]; exact hn) (n % 24 / 3) (by omega)
  have hc := hb.put (show n % 24 % 3 < 2 ^ 2 by omega) (by rw [hcb, hca]; omega)
  unfold NCountWriter.put_run push_run
  refine hc.flush ?_
  rw [put_bit_count, hcb, hca]
  omega

/-- `finish` writes the bits, padded to whole bytes. -/
theorem Holds.finish (h : w.Holds s) :
    w.finish.length = (s.len + 7) / 8 ∧ leNat w.finish = s.val := by
  unfold NCountWriter.finish
  rw [List.length_append, length_leBytes, leNat_append, leNat_leBytes, h.len, h.val]
  refine ⟨by omega, ?_⟩
  have hle : 2 ^ w.bit_count ≤ 2 ^ (8 * ((w.bit_count + 7) / 8)) :=
    Nat.pow_le_pow_right (by decide) (by omega)
  rw [Nat.mod_eq_of_lt (lt_of_lt_of_le h.lt hle), Nat.mul_comm w.bit_stream]

end NCountWriter

/-! ## Reading the fields back -/

section Read

open NCountWriter

variable {s : BitStack} {x : Nat}

theorem div_push (s : BitStack) (v nb x : Nat) :
    x / 2 ^ (s.push v nb).len = x / 2 ^ s.len / 2 ^ nb := by
  rw [BitStack.push_len, pow_add, Nat.div_div_eq_div_mul]

theorem push_ones_len (n k : Nat) (s : BitStack) : (push_ones n k s).len = s.len + n * k := by
  induction k with
  | zero => rfl
  | succ k ih =>
    rw [push_ones_succ, BitStack.push_len, ih, Nat.mul_succ]
    omega

/-- The bits of a run are those of a number that starts with ones. -/
theorem below_push_ones {n : Nat} (k : Nat) (h : (push_ones n k s).Below x) :
    s.Below x ∧ x / 2 ^ s.len = ones_below n k (x / 2 ^ (push_ones n k s).len) := by
  induction k with
  | zero => exact ⟨h, by rw [ones_below_zero]; rfl⟩
  | succ k ih =>
    rw [push_ones_succ] at h ⊢
    obtain ⟨hk, hfield⟩ := h.of_push
    obtain ⟨hs, hx⟩ := ih hk
    refine ⟨hs, ?_⟩
    rw [div_push, hx]
    generalize x / 2 ^ (push_ones n k s).len = y at *
    have hp : 1 ≤ 2 ^ n := Nat.one_le_two_pow
    have hq : 1 ≤ 2 ^ (n * k) := Nat.one_le_two_pow
    have hdiv := Nat.div_add_mod y (2 ^ n)
    rw [hfield, Nat.mod_eq_of_lt (by omega)] at hdiv
    unfold ones_below
    rw [Nat.mul_succ, pow_add]
    conv_lhs => rw [← hdiv]
    rw [Nat.mul_add, ← Nat.mul_assoc, Nat.mul_sub, Nat.mul_one]
    have hle : 2 ^ (n * k) ≤ 2 ^ (n * k) * 2 ^ n := Nat.le_mul_of_pos_right _ hp
    omega

theorem push_run_len (n : Nat) (s : BitStack) :
    (push_run n s).len = s.len + 16 * (n / 24) + 2 * (n % 24 / 3) + 2 := by
  rw [push_run, BitStack.push_len, push_ones_len, push_ones_len]

theorem below_push_run {n : Nat} (h : (push_run n s).Below x) :
    s.Below x ∧ ∃ w, x / 2 ^ s.len = ones_below 16 (n / 24) (ones_below 2 (n % 24 / 3) w) ∧
      w % 2 ^ 2 = n % 24 % 3 ∧ w / 2 ^ 2 = x / 2 ^ (push_run n s).len := by
  rw [push_run] at h ⊢
  obtain ⟨h2, hlow⟩ := h.of_push
  obtain ⟨h1, hx2⟩ := below_push_ones _ h2
  obtain ⟨h0, hx1⟩ := below_push_ones _ h1
  refine ⟨h0, _, ?_, ?_, (div_push ..).symm⟩
  · rw [hx1, hx2]
  · rw [hlow]
    omega

/-- Fewer than eight fields of ones do not fill sixteen bits. -/
theorem ones_below_two_ne {b w : Nat} (hb : b ≤ 7) (hw : w % 2 ^ 2 ≠ 2 ^ 2 - 1) :
    ones_below 2 b w % 2 ^ 16 ≠ 2 ^ 16 - 1 := by
  intro h
  interval_cases b <;> simp only [ones_below] at h <;> omega

/-- `count_field` reads what `write_counts` writes for the value `v`. -/
theorem count_field_written {rem v rest : Nat} (hv : v ≤ rem) (hrem : 1 < rem) :
    let t := 2 ^ Nat.log2 rem
    let max := 2 * t - 1 - rem
    let c := if t ≤ v then v + max else v
    let nb := if c < max then Nat.log2 rem else Nat.log2 rem + 1
    c < 2 ^ nb ∧ count_field rem (c + 2 ^ nb * rest) = (v, nb) := by
  have hle : 2 ^ Nat.log2 rem ≤ rem := Nat.log2_self_le (by omega)
  have hlt : rem < 2 * 2 ^ Nat.log2 rem := by
    rw [← Nat.pow_succ']
    exact Nat.lt_log2_self
  unfold count_field
  dsimp only
  rw [pow_ite, pow_succ, Nat.mul_comm (2 ^ Nat.log2 rem) 2]
  generalize 2 ^ Nat.log2 rem = t at *
  have hmod : ∀ y, y % (2 * t) % t = y % t := fun y => Nat.mod_mul_left_mod y 2 t
  rw [hmod]
  by_cases hv' : t ≤ v
  · have hmax : ¬ v + (2 * t - 1 - rem) < 2 * t - 1 - rem := by omega
    have hlow : (v + (2 * t - 1 - rem)) % t = v + (2 * t - 1 - rem) - t := by
      rw [Nat.mod_eq_sub_mod (by omega), Nat.mod_eq_of_lt (by omega)]
    have hfull : (v + (2 * t - 1 - rem) + 2 * t * rest) % (2 * t) = v + (2 * t - 1 - rem) := by
      rw [Nat.add_mul_mod_self_left, Nat.mod_eq_of_lt (by omega)]
    have hpart : (v + (2 * t - 1 - rem) + 2 * t * rest) % t = v + (2 * t - 1 - rem) - t := by
      rw [← hmod, hfull, hlow]
    rw [if_pos hv', if_neg hmax, if_neg hmax, hpart, hfull, if_neg (by omega), if_pos (by omega)]
    exact ⟨by omega, Prod.ext (by simp only; omega) rfl⟩
  · rw [if_neg hv']
    by_cases hmax : v < 2 * t - 1 - rem
    · have hpart : (v + t * rest) % t = v := by
        rw [Nat.add_mul_mod_self_left, Nat.mod_eq_of_lt (by omega)]
      rw [if_pos hmax, if_pos hmax, hpart, if_pos hmax]
      exact ⟨by omega, rfl⟩
    · have hfull : (v + 2 * t * rest) % (2 * t) = v := by
        rw [Nat.add_mul_mod_self_left, Nat.mod_eq_of_lt (by omega)]
      have hpart : (v + 2 * t * rest) % t = v := by
        rw [← hmod, hfull, Nat.mod_eq_of_lt (by omega)]
      rw [if_neg hmax, if_neg hmax, hpart, hfull, if_neg hmax, if_neg hv']
      exact ⟨by omega, rfl⟩

/-- The reader has read the bits `s`, which hold the counts `written`. -/
structure ReadsAt (src : Bytes) (table_log : Nat) (s : BitStack) (rem : Nat) (zero : Bool)
    (written : List Int) (st : NCountState) : Prop where
  inv : NCountInv src table_log st rem
  value : st.br.value = leNat src / 2 ^ s.len
  avail : st.br.avail = 8 * src.length - s.len
  previous0 : st.previous0 = zero
  symbol : st.symbol = written.length
  counts : st.counts = written ++ List.replicate (256 - written.length) 0

variable {src : Bytes} {table_log rem : Nat} {written : List Int} {st : NCountState}

/-- A run of zero counts. -/
theorem ReadsAt.zero_run (h : ReadsAt src table_log s rem true written st) {n : Nat}
    (hrem : 1 < rem) (hb : (push_run n s).Below (leNat src)) (hn : written.length + n ≤ 256) :
    ∃ st', read_zero_run st = .ok st' ∧
      ReadsAt src table_log (push_run n s) rem false (written ++ List.replicate n 0) st' := by
  obtain ⟨-, w, hx, hlow, hhigh⟩ := below_push_run hb
  have hsym := h.symbol
  have hw3 : w % 2 ^ 2 ≠ 2 ^ 2 - 1 := by
    rw [hlow]
    omega
  obtain ⟨br', hr, hsrc, hvalid, hvalue, havail⟩ := read_zero_run_spec h.inv.br
    (by rw [hsym]; omega) (h.value.trans hx)
    (ones_below_two_ne (by omega) hw3) rfl hw3
  rw [hlow] at hr
  refine ⟨_, hr, h.inv.skipped hrem (by omega) hvalid (hsrc.trans h.inv.src), ?_, ?_, rfl, ?_, ?_⟩
  · rw [← hhigh]
    exact hvalue
  · show br'.avail = _
    rw [havail, h.avail, push_run_len]
    omega
  · simp only [List.length_append, List.length_replicate]
    omega
  · simp only [List.length_append, List.length_replicate]
    rw [h.counts, List.append_assoc, List.replicate_append_replicate]
    congr 2
    omega

/-- One count. -/
theorem ReadsAt.count (h : ReadsAt src table_log s rem false written st) {v c nb : Nat}
    (htl : table_log ≤ 14) (hrem : 1 < rem) (hv : v ≤ rem) (hsym : written.length < 256)
    (hc : c = if 2 ^ Nat.log2 rem ≤ v then v + (2 * 2 ^ Nat.log2 rem - 1 - rem) else v)
    (hnb : nb = if c < 2 * 2 ^ Nat.log2 rem - 1 - rem then Nat.log2 rem else Nat.log2 rem + 1)
    (hb : (s.push c nb).Below (leNat src)) :
    ∃ st', read_count st = .ok st' ∧
      ReadsAt src table_log (s.push c nb) (rem - ((v : Int) - 1).natAbs) (v == 1)
        (written ++ [(v : Int) - 1]) st' := by
  have hst := h.symbol
  obtain ⟨-, hlow⟩ := hb.of_push
  have hfield := @count_field_written rem v (leNat src / 2 ^ (s.push c nb).len) hv hrem
  dsimp only at hfield
  rw [← hc, ← hnb, div_push] at hfield
  obtain ⟨hlt, hfield⟩ := hfield
  rw [Nat.mod_eq_of_lt hlt] at hlow
  have hvalue : st.br.value = c + 2 ^ nb * (leNat src / 2 ^ s.len / 2 ^ nb) := by
    rw [h.value, ← hlow]
    exact (Nat.mod_add_div _ _).symm
  rw [← hvalue] at hfield
  obtain ⟨br', hr, hsrc, hvalid, hval, havail⟩ := read_count_spec htl h.inv hrem (by omega)
  rw [hfield] at hr hval havail
  refine ⟨_, hr, h.inv.counted hrem hv (by omega) hvalid (hsrc.trans h.inv.src), ?_, ?_, rfl, ?_,
    ?_⟩
  · rw [div_push, ← h.value]
    exact hval
  · rw [BitStack.push_len]
    rw [h.avail] at havail
    simp only [Fse.counted]
    omega
  · simp only [Fse.counted, List.length_append, List.length_singleton]
    omega
  · simp only [Fse.counted, List.length_append, List.length_singleton]
    rw [h.counts, hst, List.set_append_right _ _ le_rfl, Nat.sub_self]
    obtain ⟨k, hk⟩ : ∃ k, 256 - written.length = k + 1 := ⟨255 - written.length, by omega⟩
    rw [hk, List.replicate_succ, List.set_cons_zero, List.append_assoc, List.singleton_append]
    congr 3
    omega

end Read

/-! ## `write_ncount` and `read_ncount` -/

/-- The body of the loop of `read_ncount`. -/
def read_step (st : NCountState) : Res NCountState :=
  if st.previous0 then read_zero_run st else read_count st

/-- The condition of the loop of `read_ncount`. -/
def reading (st : NCountState) : Bool := decide (1 < st.remaining) && decide (st.symbol < 256)

theorem shrink_bits_spec {rem : Nat} (h1 : 1 ≤ rem) (d : Nat) :
    shrink_bits rem (Nat.log2 rem + 1 + d) (2 ^ (Nat.log2 rem + d))
      = (Nat.log2 rem + 1, 2 ^ Nat.log2 rem) := by
  induction d with
  | zero =>
    have hle : 2 ^ Nat.log2 rem ≤ rem := Nat.log2_self_le (by omega)
    show shrink_bits rem (Nat.log2 rem + 1) (2 ^ Nat.log2 rem) = _
    rw [shrink_bits, if_neg (by omega)]
  | succ d ih =>
    have hlt : rem < 2 ^ (Nat.log2 rem + 1) := Nat.lt_log2_self
    have hle : 2 ^ (Nat.log2 rem + 1) ≤ 2 ^ (Nat.log2 rem + (d + 1)) :=
      Nat.pow_le_pow_right (by decide) (by omega)
    rw [← Nat.add_assoc (Nat.log2 rem + 1), shrink_bits, if_pos (by omega), ← Nat.add_assoc,
      pow_succ, Nat.mul_div_cancel _ (by decide), ih]

theorem shrink_bits_le {rem rem' : Nat} (h1 : 1 ≤ rem') (hle : rem' ≤ rem) :
    shrink_bits rem' (Nat.log2 rem + 1) (2 ^ Nat.log2 rem) =
      (Nat.log2 rem' + 1, 2 ^ Nat.log2 rem') := by
  obtain ⟨d, hd⟩ := Nat.exists_eq_add_of_le (log2_mono hle)
  rw [hd, Nat.add_right_comm]
  exact shrink_bits_spec h1 d

/-- The counts from the first one that is not zero on. -/
theorem drop_zeros {norm : List Int} (h : ∃ c ∈ norm, c ≠ 0) :
    ∃ run c rest, run = (norm.takeWhile (· == 0)).length ∧ norm.drop run = c :: rest ∧
      norm = List.replicate run 0 ++ c :: rest := by
  obtain ⟨x, hx, hx0⟩ := h
  have htake : norm.takeWhile (· == 0) = List.replicate (norm.takeWhile (· == 0)).length 0 := by
    apply List.eq_replicate_of_mem
    intro y hy
    have := List.mem_takeWhile_imp hy
    simpa using this
  have hsplit := List.takeWhile_append_dropWhile (p := (· == 0)) (l := norm)
  have hdrop : norm.drop (norm.takeWhile (· == 0)).length = norm.dropWhile (· == 0) := by
    have hcut := congrArg (List.drop (norm.takeWhile (· == 0)).length) hsplit
    rw [List.drop_left] at hcut
    exact hcut.symm
  cases hw : norm.dropWhile (· == 0) with
  | nil =>
    rw [hw, List.append_nil] at hsplit
    rw [← hsplit, htake] at hx
    exact absurd (List.eq_of_mem_replicate hx) hx0
  | cons c rest =>
    refine ⟨_, c, rest, rfl, by rw [hdrop, hw], ?_⟩
    rw [← htake, ← hw, hsplit]

/-- The code of a count, and the bits it takes. -/
def count_code (rem : Nat) (count : Int) : Nat × Nat :=
  let max := 2 * 2 ^ Nat.log2 rem - 1 - rem
  let v := (count + 1).toNat
  let c := if 2 ^ Nat.log2 rem ≤ v then v + max else v
  (c, if c < max then Nat.log2 rem else Nat.log2 rem + 1)

/-- The code of a count fits its bits. -/
theorem count_code_lt {rem : Nat} {count : Int} (hrem : 1 < rem) (h15 : rem < 2 ^ 15)
    (hle : (count + 1).toNat ≤ rem) :
    (count_code rem count).1 < 2 ^ (count_code rem count).2 ∧ (count_code rem count).2 ≤ 15 := by
  obtain ⟨hcode, -⟩ := @count_field_written rem (count + 1).toNat 0 hle hrem
  have hlog : Nat.log2 rem < 15 := (Nat.log2_lt (by omega)).mpr h15
  unfold count_code
  refine ⟨hcode, ?_⟩
  dsimp only
  split_ifs <;> omega

/-- The counts up to the next one that has a code: a run of zero counts, if one is due, and the
count. -/
theorem next_count {norm : List Int} (zero : Bool) (h : ∃ c ∈ norm, c ≠ 0) :
    ∃ run c rest, run = (if zero then (norm.takeWhile (· == 0)).length else 0) ∧
      norm.drop run = c :: rest ∧ norm = List.replicate run 0 ++ c :: rest := by
  cases zero with
  | true =>
    obtain ⟨run, c, rest, hrun, hdrop, hnorm⟩ := drop_zeros h
    exact ⟨run, c, rest, by rw [if_pos rfl, hrun], hdrop, hnorm⟩
  | false =>
    obtain ⟨x, hx, -⟩ := h
    obtain ⟨c, rest, rfl⟩ := List.exists_cons_of_ne_nil (List.ne_nil_of_mem hx)
    exact ⟨0, c, rest, rfl, rfl, rfl⟩

/-- One iteration of `write_counts`: the run of zero counts, if one is due, and the next count. -/
theorem write_counts_step {w : NCountWriter} {rem run : Nat} {zero : Bool} {norm rest : List Int}
    {count : Int} (hrem : 1 < rem)
      (hrun : run = if zero then (norm.takeWhile (· == 0)).length else 0)
    (hdrop : norm.drop run = count :: rest) (hcount : -1 ≤ count) (hle : count.natAbs < rem) :
    write_counts w rem (2 ^ Nat.log2 rem) (Nat.log2 rem + 1) zero norm
      = write_counts (((if zero then w.put_run run else w).put (count_code rem count).1
          (count_code rem count).2).flush) (rem - count.natAbs)
          (2 ^ Nat.log2 (rem - count.natAbs)) (Nat.log2 (rem - count.natAbs) + 1) (count == 0)
            rest := by
  have hshrink := @shrink_bits_le rem (rem - count.natAbs) (by omega) (by omega)
  have h2 : 2 ≤ 2 ^ Nat.log2 rem := by
    have hlog : 1 ≤ Nat.log2 rem := (Nat.le_log2 (by omega)).mpr (by omega)
    calc 2 = 2 ^ 1 := rfl
      _ ≤ 2 ^ Nat.log2 rem := Nat.pow_le_pow_right (by decide) hlog
  have hzero : ((count_code rem count).1 == 1) = (count == 0) := by
    unfold count_code
    dsimp only
    rw [Bool.eq_iff_iff, beq_iff_eq, beq_iff_eq]
    split_ifs <;> omega
  rw [write_counts, if_neg (by omega)]
  dsimp only
  rw [← hrun]
  generalize norm.drop run = left at hdrop
  subst hdrop
  rw [← hzero]
  simp only [hshrink, count_code, Nat.add_sub_cancel]

section Written

variable {src : Bytes} {table_log rem : Nat} {written : List Int} {st : NCountState} {s : BitStack}

/-- The state `st` becomes `st'` in at most `n` iterations of the loop of `read_ncount`. -/
def Reaches (n : Nat) (st st' : NCountState) : Prop :=
  ∃ k ≤ n, ∀ m, loop reading read_step (k + m) st = loop reading read_step m st'

theorem Reaches.trans {n n' : Nat} {st st' st'' : NCountState} (h : Reaches n st st')
    (h' : Reaches n' st' st'') : Reaches (n + n') st st'' := by
  obtain ⟨k, hk, hloop⟩ := h
  obtain ⟨k', hk', hloop'⟩ := h'
  refine ⟨k + k', by omega, fun m => ?_⟩
  rw [Nat.add_assoc, hloop, hloop']

theorem ReadsAt.reading {zero : Bool} (h : ReadsAt src table_log s rem zero written st)
    (hrem : 1 < rem) (hsym : written.length < 256) : reading st = true := by
  have hr := h.inv.remaining
  have hs := h.symbol
  rw [Encode.reading, Bool.and_eq_true, decide_eq_true_eq, decide_eq_true_eq]
  omega

theorem reaches_step {st st' : NCountState} (hc : reading st = true) (h : read_step st = .ok st') :
    Reaches 1 st st' := by
  refine ⟨1, le_rfl, fun m => ?_⟩
  rw [Nat.add_comm, loop_succ_of hc, h, bind_ok]

/-- The reader in front of a run of zero counts and the count `v - 1`. -/
theorem ReadsAt.step {zero : Bool} {run v c nb : Nat} (htl : table_log ≤ 14)
    (h : ReadsAt src table_log s rem zero written st)
    (hrem : 1 < rem) (hv : v ≤ rem) (hrun : zero = false → run = 0)
    (hsym : written.length + run < 256)
    (hc : c = if 2 ^ Nat.log2 rem ≤ v then v + (2 * 2 ^ Nat.log2 rem - 1 - rem) else v)
    (hnb : nb = if c < 2 * 2 ^ Nat.log2 rem - 1 - rem then Nat.log2 rem else Nat.log2 rem + 1)
    (hb : ((if zero then NCountWriter.push_run run s else s).push c nb).Below (leNat src)) :
    ∃ st', Reaches 2 st st' ∧
      ReadsAt src table_log ((if zero then NCountWriter.push_run run s else s).push c nb)
        (rem - ((v : Int) - 1).natAbs) (v == 1)
        (written ++ (List.replicate run 0 ++ [(v : Int) - 1])) st' := by
  obtain ⟨hb1, -⟩ := hb.of_push
  cases zero with
  | true =>
    rw [if_pos rfl] at hb hb1 ⊢
    obtain ⟨st₁, hr₁, h₁⟩ := h.zero_run hrem hb1 (by omega)
    have hlen₁ : (written ++ List.replicate run 0).length < 256 := by
      rw [List.length_append, List.length_replicate]
      exact hsym
    obtain ⟨st₂, hr₂, h₂⟩ := h₁.count htl hrem hv hlen₁ hc hnb hb
    have hstep₁ : read_step st = .ok st₁ := by
      rw [read_step, h.previous0, if_pos rfl]
      exact hr₁
    have hstep₂ : read_step st₁ = .ok st₂ := by
      rw [read_step, h₁.previous0, if_neg (by decide)]
      exact hr₂
    rw [List.append_assoc] at h₂
    exact ⟨st₂, (reaches_step (h.reading hrem (by omega)) hstep₁).trans
      (reaches_step (h₁.reading hrem hlen₁) hstep₂), h₂⟩
  | false =>
    rw [if_neg (by decide)] at hb ⊢
    obtain ⟨st₂, hr₂, h₂⟩ := h.count htl hrem hv (by omega) hc hnb hb
    have hstep₂ : read_step st = .ok st₂ := by
      rw [read_step, h.previous0, if_neg (by decide)]
      exact hr₂
    obtain ⟨k, hk, hloop⟩ := reaches_step (h.reading hrem (by omega)) hstep₂
    rw [hrun rfl, List.replicate_zero, List.nil_append]
    exact ⟨st₂, ⟨k, by omega, hloop⟩, h₂⟩

/-- `write_counts` writes what the loop of `read_ncount` reads. -/
theorem write_counts_spec (src : Bytes) (htl : table_log ≤ 14) (norm : List Int)
    (w : NCountWriter) (s : BitStack) (rem : Nat) (zero : Bool) (hw : w.Holds s)
    (hbits : w.bit_count ≤ 16) (hrem : rem < 2 ^ 15) (hge : ∀ c ∈ norm, -1 ≤ c)
    (hsum : (norm.map Int.natAbs).sum + 1 = rem) (hlast : ∀ c, norm.getLast? = some c → c ≠ 0) :
    ∃ s', (write_counts w rem (2 ^ Nat.log2 rem) (Nat.log2 rem + 1) zero norm).Holds s' ∧
      s'.len ≤ s.len + 31 * norm.length ∧
      (s'.Below (leNat src) → s.Below (leNat src) ∧
        ∀ written st, ReadsAt src table_log s rem zero written st →
          written.length + norm.length ≤ 256 →
          ∃ st' zero', Reaches (2 * norm.length) st st' ∧
            ReadsAt src table_log s' 1 zero' (written ++ norm) st') := by
  induction hn : norm.length using Nat.strong_induction_on generalizing norm w s rem zero with
  | _ k ih =>
  by_cases hnil : norm = []
  · subst hnil
    obtain rfl : rem = 1 := hsum.symm
    rw [write_counts, if_pos le_rfl]
    refine ⟨s, hw, Nat.le_add_right _ _, fun hb => ⟨hb, fun written st hst _ => ⟨st, zero, ?_, ?_⟩⟩⟩
    · exact ⟨0, Nat.zero_le _, fun m => by rw [Nat.zero_add]⟩
    · rw [List.append_nil]
      exact hst
  · have hex : ∃ c ∈ norm, c ≠ 0 :=
      ⟨_, List.getLast_mem hnil, hlast _ (List.getLast?_eq_some_getLast hnil)⟩
    obtain ⟨run, c, rest, hrun, hdrop, hnorm⟩ := next_count zero hex
    have hlen' : norm.length = run + (rest.length + 1) := by
      rw [hnorm, List.length_append, List.length_replicate, List.length_cons]
    have hc0 : -1 ≤ c := hge c (by rw [hnorm]; simp)
    have hsum' : c.natAbs + (rest.map Int.natAbs).sum + 1 = rem := by
      rw [← hsum, hnorm]
      simp
    have hrest1 : 1 < rem := by
      obtain ⟨x, hx, hx0⟩ := hex
      have hle := List.single_le_sum (by simp) _ (List.mem_map_of_mem (f := Int.natAbs) hx)
      omega
    obtain ⟨v, hv⟩ : ∃ v : Nat, c = (v : Int) - 1 := ⟨(c + 1).toNat, by omega⟩
    have hvc : (c + 1).toNat = v := by omega
    have habs : ((v : Int) - 1).natAbs = c.natAbs := by rw [← hv]
    obtain ⟨hcode, hnb⟩ := @count_code_lt rem c hrest1 hrem (by omega)
    have hw₁ : (if zero then w.put_run run else w).Holds
          (if zero then NCountWriter.push_run run s else s) ∧
        (if zero then w.put_run run else w).bit_count ≤ 16 := by
      cases zero with
      | true => exact hw.put_run hbits run
      | false => exact ⟨hw, hbits⟩
    have hw₂ := (hw₁.1.put hcode (by omega)).flush (by
      rw [NCountWriter.put_bit_count]
      omega)
    obtain ⟨s', hs', hlen'', hread⟩ := ih rest.length (by omega) rest _ _ (rem - c.natAbs) (c == 0)
      hw₂.1 hw₂.2 (by omega) (fun x hx => hge x (by rw [hnorm]; simp [hx])) (by omega)
      (fun x hx => hlast x (by
        rw [hnorm, List.getLast?_append, List.getLast?_cons, hx]
        rfl)) rfl
    have hgrow : (if zero then NCountWriter.push_run run s else s).len ≤ s.len + (2 * run + 2) := by
      split_ifs
      · rw [push_run_len]
        omega
      · omega
    rw [write_counts_step hrest1 hrun hdrop hc0 (by omega)]
    refine ⟨s', hs', ?_, fun hb => ?_⟩
    · rw [BitStack.push_len] at hlen''
      omega
    obtain ⟨hb₂, hread⟩ := hread hb
    have hb₁ := hb₂.of_push.1
    refine ⟨?_, ?_⟩
    · cases zero with
      | true => exact (below_push_run hb₁).1
      | false => exact hb₁
    · intro written st hst hfit
      obtain ⟨st₁, hreach₁, hst₁⟩ := hst.step htl hrest1 (by omega : v ≤ rem)
        (fun h0 => by rw [hrun, h0]; rfl) (by omega)
        (by unfold count_code; rw [hvc]) (by unfold count_code; rw [hvc]) hb₂
      rw [habs, ← hv] at hst₁
      have hflag : (v == 1) = (c == 0) := by
        rw [Bool.eq_iff_iff, beq_iff_eq, beq_iff_eq]
        omega
      rw [hflag] at hst₁
      obtain ⟨st', zero', hreach, hst'⟩ := hread _ st₁ hst₁ (by
        simp only [List.length_append, List.length_replicate, List.length_singleton]
        omega)
      refine ⟨st', zero', ?_, ?_⟩
      · obtain ⟨n, hn', hloop⟩ := hreach₁.trans hreach
        exact ⟨n, by omega, hloop⟩
      · rw [hnorm]
        simp only [List.append_assoc, List.singleton_append] at hst'
        exact hst'

end Written

/-- A byte string is the lowest part of a longer one. -/
theorem below_append {s : BitStack} {bs rest : Bytes} (hval : leNat bs = s.val)
    (hlen : s.len ≤ 8 * bs.length) : s.Below (leNat (bs ++ rest)) := by
  obtain ⟨d, hd⟩ := Nat.exists_eq_add_of_le hlen
  rw [BitStack.Below, leNat_append, hd, pow_add, Nat.mul_assoc, Nat.add_mul_mod_self_left, hval,
    Nat.mod_eq_of_lt s.lt]

/-- The bits of a description, and what the loop of `read_ncount` makes of them. -/
theorem write_ncount_spec (src : Bytes) {norm counts : List Int} {max_symbol table_log : Nat}
    (hcounts : norm.take (max_symbol + 1) = counts) (hlen : counts.length = max_symbol + 1)
    (h : ValidCounts counts table_log) (hlast : counts.getD max_symbol 0 ≠ 0) (h5 : 5 ≤ table_log)
    (h14 : table_log ≤ 14) :
    ∃ s' : BitStack, leNat (write_ncount norm max_symbol table_log) = s'.val ∧
      (write_ncount norm max_symbol table_log).length = (s'.len + 7) / 8 ∧
      s'.len ≤ 4 + 31 * counts.length ∧
      (s'.Below (leNat src) →
        (BitStack.empty.push (table_log - 5) 4).Below (leNat src) ∧
        ∀ written st, ReadsAt src table_log (BitStack.empty.push (table_log - 5) 4)
          (2 ^ table_log + 1) false written st → written.length + counts.length ≤ 256 →
          ∃ st' zero', Reaches (2 * counts.length) st st' ∧
            ReadsAt src table_log s' 1 zero' (written ++ counts) st') := by
  have hlast' : ∀ c, counts.getLast? = some c → c ≠ 0 := by
    intro c hc
    rw [List.getLast?_eq_getElem?, hlen, Nat.add_sub_cancel] at hc
    rw [List.getD_eq_getElem?_getD, hc] at hlast
    exact hlast
  have h14' : 2 ^ table_log ≤ 2 ^ 14 := Nat.pow_le_pow_right (by decide) h14
  have hput : NCountWriter.Holds (NCountWriter.put ⟨[], 0, 0⟩ (table_log - 5) 4)
      (BitStack.empty.push (table_log - 5) 4) := by
    have hempty : NCountWriter.Holds ⟨[], 0, 0⟩ BitStack.empty := ⟨by decide, rfl, rfl⟩
    exact hempty.put (by omega) (by decide)
  obtain ⟨s', hs', hgrow, hread⟩ := write_counts_spec src h14 counts _ _ (2 ^ table_log + 1) false
    hput (by rw [NCountWriter.put_bit_count]; decide) (by omega) h.ge (by rw [h.sum]) hlast'
  rw [log2_size_succ (by omega)] at hs'
  rw [BitStack.push_len, BitStack.empty_len] at hgrow
  have hwrite : write_ncount norm max_symbol table_log
      = (write_counts (NCountWriter.put ⟨[], 0, 0⟩ (table_log - 5) 4) (2 ^ table_log + 1)
          (2 ^ table_log) (table_log + 1) false counts).finish := by
    rw [write_ncount, hcounts]
  obtain ⟨hflen, hfval⟩ := hs'.finish
  rw [← hwrite] at hflen hfval
  exact ⟨s', hfval, hflen, by omega, hread⟩

/-- A description takes at most four bytes a symbol, and a byte. -/
theorem length_write_ncount_le {norm counts : List Int} {max_symbol table_log : Nat}
    (hcounts : norm.take (max_symbol + 1) = counts) (hlen : counts.length = max_symbol + 1)
    (h : ValidCounts counts table_log) (hlast : counts.getD max_symbol 0 ≠ 0) (h5 : 5 ≤ table_log)
    (h14 : table_log ≤ 14) :
    (write_ncount norm max_symbol table_log).length ≤ 4 * (max_symbol + 1) + 1 := by
  obtain ⟨s', -, hflen, hgrow, -⟩ := write_ncount_spec [] hcounts hlen h hlast h5 h14
  rw [hlen] at hgrow
  omega

/-- `read_ncount` reads the description that `write_ncount` wrote, whatever follows it. -/
theorem read_write_ncount {norm counts : List Int} {max_symbol table_log max_log : Nat}
    (rest : Bytes) (hcounts : norm.take (max_symbol + 1) = counts)
    (hlen : counts.length = max_symbol + 1) (h : ValidCounts counts table_log)
    (hlast : counts.getD max_symbol 0 ≠ 0) (h5 : 5 ≤ table_log) (h14 : table_log ≤ 14)
    (hmax : table_log ≤ max_log)
    (hsrc : (write_ncount norm max_symbol table_log ++ rest).length < 2 ^ 63) :
    read_ncount (write_ncount norm max_symbol table_log ++ rest) max_log
      = .ok ⟨counts ++ List.replicate (256 - counts.length) 0, max_symbol, table_log,
          (write_ncount norm max_symbol table_log).length⟩ := by
  have hlen256 := h.length
  have hone : 1 ≤ 2 ^ table_log := Nat.one_le_two_pow
  have h14' : 2 ^ table_log ≤ 2 ^ 14 := Nat.pow_le_pow_right (by decide) h14
  obtain ⟨s', hfval, hflen, hgrow, hread⟩ := write_ncount_spec
    (write_ncount norm max_symbol table_log ++ rest) hcounts hlen h hlast h5 h14
  obtain ⟨hb, hread⟩ := hread (below_append hfval (by omega))
  obtain ⟨-, hlow⟩ := hb.of_push
  generalize hsrcdef : write_ncount norm max_symbol table_log ++ rest = src at *
  have hsrclen : (write_ncount norm max_symbol table_log).length ≤ src.length := by
    rw [← hsrcdef, List.length_append]
    omega
  -- the accuracy log
  obtain ⟨b₀, h₀, hs₀, hv₀, hval₀, hav₀⟩ := ForwardBitReader.new_spec src (by omega)
  obtain ⟨b₁, h₁, hs₁, hv₁, hval₁, hav₁⟩ := ForwardBitReader.read_spec hv₀ (by decide : 4 < 32)
  have hlog : b₀.value % 2 ^ 4 + 5 = table_log := by
    rw [BitStack.empty_len, pow_zero, Nat.div_one] at hlow
    rw [hval₀, hlow]
    omega
  have hstart : ReadsAt src table_log (BitStack.empty.push (table_log - 5) 4) (2 ^ table_log + 1)
      false [] ⟨b₁, ((2 ^ table_log : Nat) : Int) + 1, ((2 ^ table_log : Nat) : Int),
        table_log + 1, List.replicate 256 0, 0, false⟩ := by
    refine ⟨ncount_start hv₁ (hs₁.trans hs₀) (by omega), ?_, ?_, rfl, rfl, rfl⟩
    · show b₁.value = _
      rw [hval₁, hval₀]
      rfl
    · show b₁.avail = _
      rw [hav₁, hav₀]
      rfl
  obtain ⟨st', zero', ⟨k, hk, hloop⟩, hst'⟩ := hread [] _ hstart (by
    rw [List.length_nil]
    omega)
  rw [List.nil_append] at hst'
  have hstop : reading st' = false := by
    have hr := hst'.inv.remaining
    rw [reading, Bool.and_eq_false_iff, decide_eq_false_iff_not]
    left
    omega
  have hrun := hloop (1024 - k)
  rw [Nat.add_sub_cancel' (by omega), loop_of_not hstop] at hrun
  rw [read_ncount, h₀, bind_ok, h₁, bind_ok]
  dsimp only
  rw [add_ok (by omega), bind_ok, hlog, if_neg (by unfold FSE_MAX_TABLELOG; omega),
    shl_exact (by omega) (by omega), bind_ok, Nat.one_mul, asI32_of_lt (by omega),
    int32_ok (by omega) (by omega), bind_ok, add_ok (by omega), bind_ok]
  refine (congrArg (· >>= _) hrun).trans ?_
  rw [bind_ok, if_neg (by rw [hst'.inv.remaining]; decide),
    ForwardBitReader.bytes_consumed_spec hst'.inv.br (by rw [hst'.inv.src, hst'.avail]; omega),
    bind_ok, hst'.inv.src, hst'.avail]
  have hbytes : (8 * src.length - (8 * src.length - s'.len) + 7) / 8
      = (write_ncount norm max_symbol table_log).length := by omega
  rw [hbytes, hst'.counts, hst'.symbol, hlen, Nat.add_sub_cancel]
  rfl

theorem getD_append_zeros {counts : List Int} {n k : Nat} (hn : counts.length = n) (i : Nat) :
    (counts ++ List.replicate k 0).getD i 0 = if i < n then counts.getD i 0 else 0 := by
  split_ifs with hi
  · rw [List.getD_append _ _ _ _ (by omega)]
  · rw [List.getD_append_right _ _ _ _ (by omega), List.getD_eq_getElem?_getD,
      List.getElem?_replicate]
    split_ifs <;> rfl

/-- The description of every normalized distribution is read back, whatever follows it. -/
theorem ncount_round_trip (norm : List Int) (max_symbol table_log max_log : Nat) (rest : Bytes)
    (hlen : max_symbol < norm.length) (hsym : max_symbol ≤ 255)
    (hlast : norm.getD max_symbol 0 ≠ 0) (hge : ∀ c ∈ norm.take (max_symbol + 1), -1 ≤ c)
    (hsum : ((norm.take (max_symbol + 1)).map Int.natAbs).sum = 2 ^ table_log) (h5 : 5 ≤ table_log)
    (h9 : table_log ≤ 9) (hmax : table_log ≤ max_log)
    (hsrc : (write_ncount norm max_symbol table_log ++ rest).length < 2 ^ 63) :
    ∃ nc, read_ncount (write_ncount norm max_symbol table_log ++ rest) max_log = .ok nc ∧
      nc.max_symbol = max_symbol ∧ nc.table_log = table_log ∧
      nc.bytes_consumed = (write_ncount norm max_symbol table_log).length ∧
      nc.counts.length = 256 ∧
      ∀ i, nc.counts.getD i 0 = if i ≤ max_symbol then norm.getD i 0 else 0 := by
  have htake : (norm.take (max_symbol + 1)).length = max_symbol + 1 := by
    rw [List.length_take]
    omega
  have hget : ∀ i ≤ max_symbol, (norm.take (max_symbol + 1)).getD i 0 = norm.getD i 0 := by
    intro i hi
    rw [List.getD_eq_getElem?_getD, List.getElem?_take_of_lt (by omega), List.getD_eq_getElem?_getD]
  have hread := read_write_ncount rest rfl htake ⟨by omega, hge, hsum⟩
    (by rw [hget _ le_rfl]; exact hlast) h5 (by omega) hmax hsrc
  refine ⟨_, hread, rfl, rfl, rfl, ?_, ?_⟩
  · simp only [List.length_append, List.length_replicate]
    omega
  · intro i
    dsimp only
    rw [getD_append_zeros htake]
    by_cases hi : i ≤ max_symbol
    · rw [if_pos (by omega), if_pos hi, hget i hi]
    · rw [if_neg (by omega), if_neg hi]

theorem ncount_round_trip_three_symbols :
    ∃ nc, read_ncount (write_ncount [20, -1, 0, 11] 3 5 ++ [0xAB]) 9 = .ok nc ∧
      nc.max_symbol = 3 ∧ nc.table_log = 5 ∧
      nc.bytes_consumed = (write_ncount [20, -1, 0, 11] 3 5).length ∧ nc.counts.length = 256 ∧
      ∀ i, nc.counts.getD i 0 = if i ≤ 3 then [20, -1, 0, 11].getD i 0 else 0 :=
  ncount_round_trip [20, -1, 0, 11] 3 5 9 [0xAB] (by decide) (by decide) (by decide) (by decide)
    (by decide) (by decide) (by decide) (by decide) (by
      have hlen := @length_write_ncount_le [20, -1, 0, 11] [20, -1, 0, 11] 3 5 rfl rfl
        ⟨by decide, by decide, by decide⟩ (by decide) (by decide) (by decide)
      rw [List.length_append, List.length_singleton]
      omega)

end ZstdPure.Encode
