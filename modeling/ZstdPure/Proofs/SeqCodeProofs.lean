import ZstdPure.Encode.Sequences
import ZstdPure.Proofs.SequencesProofs

/-!
# Codes of the sequence fields

Every field of a sequence is a code and some low bits; the decoder adds the bits to the base of the
code. The number of sequences has its own form.
-/

namespace ZstdPure.Encode

open Outcome Sequences

/-! ## Codes -/

theorem takeWhile_le_spec (x : Nat) (base : List Nat) :
    (∀ i < (base.takeWhile fun b => decide (b ≤ x)).length, base.getD i 0 ≤ x) ∧
      (base.takeWhile fun b => decide (b ≤ x)).length ≤ base.length ∧
      ((base.takeWhile fun b => decide (b ≤ x)).length < base.length →
        x < base.getD (base.takeWhile fun b => decide (b ≤ x)).length 0) := by
  induction base with
  | nil => simp
  | cons b base ih =>
    obtain ⟨hle, hlen, hlt⟩ := ih
    by_cases hb : b ≤ x
    · rw [List.takeWhile_cons_of_pos (by simpa using hb)]
      refine ⟨fun i hi => ?_, by simpa using hlen, fun h => ?_⟩
      · cases i with
        | zero => exact hb
        | succ i => exact hle i (by simpa using hi)
      · exact hlt (by simpa using h)
    · rw [List.takeWhile_cons_of_neg (by simpa using hb)]
      exact ⟨by simp, by simp, fun _ => by simpa using hb⟩

/-- The code of a value is the last one with a base not above it. -/
theorem code_of_spec {base : List Nat} {x : Nat} (hlen : 0 < base.length) (h0 : base.getD 0 0 ≤ x) :
    code_of base x < base.length ∧ base.getD (code_of base x) 0 ≤ x ∧
      (code_of base x + 1 < base.length → x < base.getD (code_of base x + 1) 0) := by
  obtain ⟨hle, hk, hlt⟩ := takeWhile_le_spec x base
  rw [code_of]
  generalize (base.takeWhile fun b => decide (b ≤ x)).length = k at *
  have hpos : 0 < k := by
    by_contra hc
    have hk0 : k = 0 := by omega
    rw [hk0] at hlt
    have := hlt hlen
    omega
  refine ⟨by omega, hle _ (by omega), fun h => ?_⟩
  rw [Nat.sub_add_cancel hpos] at h ⊢
  exact hlt h

/-- The low bits of a value reach up to the base of the next code. -/
theorem next_base : (∀ c < 36, LL_BASE.getD c 0 + 2 ^ LL_BITS.getD c 0 = (LL_BASE ++ [131072]).getD
    (c + 1) 0) ∧
    ∀ c < 53, ML_BASE.getD c 0 + 2 ^ ML_BITS.getD c 0 = (ML_BASE ++ [131075]).getD (c + 1) 0 := by
  decide

/-- A base and low bits that make up a value. -/
theorem base_add_bits {base bits : List Nat} {x limit : Nat} (hlen : 0 < base.length)
    (hnext : ∀ c < base.length, base.getD c 0 + 2 ^ bits.getD c 0 = (base ++ [limit]).getD (c + 1)
      0)
    (h0 : base.getD 0 0 ≤ x) (hx : x < limit) :
    code_of base x < base.length ∧
      base.getD (code_of base x) 0
        + (x - base.getD (code_of base x) 0) % 2 ^ bits.getD (code_of base x) 0 = x := by
  obtain ⟨hc, hle, hlt⟩ := code_of_spec hlen h0
  have hb := hnext _ hc
  have hup : x < base.getD (code_of base x) 0 + 2 ^ bits.getD (code_of base x) 0 := by
    rw [hb]
    by_cases hlast : code_of base x + 1 < base.length
    · rw [List.getD_append _ _ _ _ hlast]
      exact hlt hlast
    · rw [List.getD_append_right _ _ _ _ (by omega),
        show code_of base x + 1 - base.length = 0 by omega]
      exact hx
  refine ⟨hc, ?_⟩
  rw [Nat.mod_eq_of_lt (by omega)]
  omega

theorem ll_code_spec {x : Nat} (hx : x ≤ 131071) : ll_code x < LL_BASE.length ∧
    LL_BASE.getD (ll_code x) 0 + (x - LL_BASE.getD (ll_code x) 0) % 2 ^ LL_BITS.getD (ll_code x) 0
      = x :=
  base_add_bits (by decide) next_base.1 (Nat.zero_le x) (Nat.lt_succ_of_le hx)

theorem ml_code_spec {x : Nat} (h3 : 3 ≤ x) (hx : x ≤ 131074) : ml_code x < ML_BASE.length ∧
    ML_BASE.getD (ml_code x) 0 + (x - ML_BASE.getD (ml_code x) 0) % 2 ^ ML_BITS.getD (ml_code x) 0
      = x :=
  base_add_bits (by decide) next_base.2 h3 (Nat.lt_succ_of_le hx)

theorem of_code_spec {v : Nat} (h1 : 1 ≤ v) (hv : v < 2 ^ 32) :
    of_code v ≤ 31 ∧ 2 ^ of_code v + v % 2 ^ of_code v = v := by
  have hlow : 2 ^ of_code v ≤ v := Nat.log2_self_le (by omega)
  have hhigh : v < 2 ^ (of_code v + 1) := Nat.lt_log2_self
  have hlog : of_code v < 32 := (Nat.log2_lt (by omega)).mpr hv
  refine ⟨by omega, ?_⟩
  rw [pow_succ] at hhigh
  rw [Nat.mod_eq_sub_mod hlow, Nat.mod_eq_of_lt (by omega)]
  omega

/-! ## The number of sequences -/

theorem read_write_seq_count {n : Nat} (hn : n ≤ 0x7F00 + 0xFFFF) (rest : Bytes) :
    read_nb_seq (write_seq_count n ++ rest) = .ok (n, (write_seq_count n).length) := by
  rw [write_seq_count]
  split_ifs with h1 h2
  · have hb : (UInt8.ofNat n).toNat = n := by rw [UInt8.toNat_ofNat']; omega
    rw [read_nb_seq, get_ok (by simp), bind_ok]
    simp only [List.singleton_append, List.getElem_cons_zero, hb]
    rw [if_pos h1]
    rfl
  · have hb : (UInt8.ofNat (128 + n / 256)).toNat = 128 + n / 256 := by
      rw [UInt8.toNat_ofNat']; omega
    have hb' : (UInt8.ofNat n).toNat = n % 256 := by rw [UInt8.toNat_ofNat']
    rw [read_nb_seq, get_ok (by simp), bind_ok]
    simp only [List.cons_append, List.nil_append, List.getElem_cons_zero, hb]
    rw [if_neg (by omega), if_pos (by omega), if_neg (by simp), get_ok (by simp), bind_ok,
      sub_ok (by omega), bind_ok]
    simp only [List.getElem_cons_succ, List.getElem_cons_zero, hb', pure_eq_ok]
    congr 2
    omega
  · have hb : (UInt8.ofNat (n - 0x7F00)).toNat = (n - 0x7F00) % 256 := by rw [UInt8.toNat_ofNat']
    have hb' : (UInt8.ofNat ((n - 0x7F00) / 256)).toNat = (n - 0x7F00) / 256 := by
      rw [UInt8.toNat_ofNat']; omega
    rw [read_nb_seq, get_ok (by simp), bind_ok]
    simp only [List.cons_append, List.nil_append, List.getElem_cons_zero]
    rw [if_neg (by decide), if_neg (by decide), if_neg (by simp), get_ok (by simp), bind_ok,
      get_ok (by simp), bind_ok]
    simp only [List.getElem_cons_succ, List.getElem_cons_zero, hb, hb', pure_eq_ok]
    have hsum : (n - 0x7F00) % 256 + (n - 0x7F00) / 256 * 256 + 0x7F00 = n := by omega
    rw [hsum]
    rfl

end ZstdPure.Encode
