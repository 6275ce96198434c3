import ZstdPure.Proofs.HuffTableProofs

/-!
# Huffman tables are complete prefix codes

`build_table` accepts exactly the lists that one more weight completes, and then its entries are
tiled by one aligned run for each symbol.
-/

namespace ZstdPure.Huff

open Outcome

variable {ws : List Nat} {max_bits : Nat}

/-! ## The tiling -/

/-- Below a weight, the positions fill whole runs of that weight. -/
theorem Complete.dvd_below (hc : Complete ws max_bits) {w : Nat} (h1 : 1 ≤ w) (hw : w ≤ max_bits) :
    2 ^ (w - 1) ∣ below ws w := by
  have hmod : ∀ v, w ≤ v → below ws v ≡ below ws w [MOD 2 ^ (w - 1)] := by
    intro v hv
    induction v, hv using Nat.le_induction with
    | base => exact Nat.ModEq.refl _
    | succ v hv ih =>
      have hshare : 2 ^ (w - 1) ∣ ws.count v * share v := by
        rw [share, if_neg (by omega)]
        exact (pow_dvd_pow 2 (by omega)).mul_left _
      rw [below]
      have hadd := ih.add ((Nat.modEq_zero_iff_dvd).mpr hshare)
      rwa [Nat.add_zero] at hadd
  have hall : below ws (max_bits + 1) = 2 ^ max_bits := by
    rw [below_eq_total fun v hv => Nat.lt_succ_of_le (hc.le v hv), hc.total]
  have hend := hmod (max_bits + 1) (by omega)
  rw [hall] at hend
  exact (hend.dvd_iff (dvd_refl _)).mp (pow_dvd_pow 2 (by omega))

theorem Complete.dvd_start (hc : Complete ws max_bits) {i w : Nat} (hi : ws[i]? = some w)
    (hw : w ≠ 0) : 2 ^ (w - 1) ∣ start ws i := by
  obtain ⟨hlt, hget⟩ := List.getElem?_eq_some_iff.mp hi
  have hle := hc.le w (hget ▸ List.getElem_mem hlt)
  rw [start, List.getD_eq_getElem?_getD, hi, Option.getD_some, share, if_neg hw]
  exact (hc.dvd_below (by omega) hle).add (dvd_mul_left _ _)

/-- The weight a position belongs to. -/
theorem exists_weight {u k : Nat} (h : u < below ws k) :
    ∃ w < k, below ws w ≤ u ∧ u < below ws (w + 1) := by
  induction k with
  | zero => exact absurd h (Nat.not_lt_zero _)
  | succ k ih =>
    by_cases hk : u < below ws k
    · obtain ⟨w, hw, hrange⟩ := ih hk
      exact ⟨w, by omega, hrange⟩
    · exact ⟨k, by omega, by omega, h⟩

/-- Every position belongs to the run of a symbol. -/
theorem Complete.exists_symbol (hc : Complete ws max_bits) {u : Nat} (hu : u < 2 ^ max_bits) :
    ∃ i w, ws[i]? = some w ∧ w ≠ 0 ∧ start ws i ≤ u ∧ u < start ws i + share w := by
  have hall : below ws (max_bits + 1) = 2 ^ max_bits := by
    rw [below_eq_total fun v hv => Nat.lt_succ_of_le (hc.le v hv), hc.total]
  rw [← hall] at hu
  obtain ⟨w, -, hlo, hhi⟩ := exists_weight hu
  rw [below] at hhi
  have hshare : 0 < share w := by
    by_contra h0
    rw [Nat.eq_zero_of_not_pos h0] at hhi
    omega
  have hcount : (u - below ws w) / share w < ws.count w := by
    rw [Nat.div_lt_iff_lt_mul hshare]
    omega
  obtain ⟨i, hi, hw, hbefore⟩ := List.exists_occurrence 0 hcount
  have hdiv := Nat.div_add_mod (u - below ws w) (share w)
  have hmod := Nat.mod_lt (u - below ws w) hshare
  rw [Nat.mul_comm] at hdiv
  refine ⟨i, w, ?_, ?_, ?_⟩
  · rw [← hw, List.getD_eq_getElem _ _ hi, List.getElem?_eq_getElem hi]
  · rintro rfl
    exact absurd hshare (by simp [share])
  · rw [start, hw, hbefore]
    omega

/-- The entries `0 ..< 2 ^ t.max_bits` are one run for each symbol of nonzero weight, which starts
at `first`. -/
structure Tiled (ws : List Nat) (first : Nat → Nat) (t : HuffTable) : Prop where
  num_bits_pos : ∀ i w : Nat, ws[i]? = some w → w ≠ 0 → 1 ≤ t.max_bits + 1 - w
  inside : ∀ i w : Nat, ws[i]? = some w → w ≠ 0 → first i + 2 ^ (w - 1) ≤ 2 ^ t.max_bits
  entry : ∀ i w : Nat, ws[i]? = some w → w ≠ 0 → ∀ u : Nat, first i ≤ u →
  u < first i + 2 ^ (w - 1) →
    t.entries[u]? = some ⟨UInt8.ofNat i, t.max_bits + 1 - w⟩
  aligned : ∀ i w : Nat, ws[i]? = some w → w ≠ 0 → 2 ^ (w - 1) ∣ first i
  cover : ∀ u : Nat, u < 2 ^ t.max_bits → ∃! i : Nat, ∃ w : Nat, ws[i]? = some w ∧ w ≠ 0 ∧
  first i ≤ u ∧
    u < first i + 2 ^ (w - 1)
  ordered : ∀ i j v w : Nat, ws[i]? = some v → ws[j]? = some w → v ≠ 0 → v < w ∨ v = w ∧ i < j →
    first i + 2 ^ (v - 1) ≤ first j

theorem share_of_ne {w : Nat} (h : w ≠ 0) : share w = 2 ^ (w - 1) := if_neg h

theorem Layout.tiled {t : HuffTable} (h : Layout ws max_bits t) : Tiled ws (start ws) t := by
  have hc := h.complete
  refine ⟨?_, ?_, ?_, ?_, ?_, ?_⟩
  · intro i w hi _
    obtain ⟨hlt, rfl⟩ := List.getElem?_eq_some_iff.mp hi
    have hle := hc.le _ (List.getElem_mem hlt)
    rw [h.table_bits]
    omega
  · intro i w hi hw
    obtain ⟨hlt, rfl⟩ := List.getElem?_eq_some_iff.mp hi
    rw [h.table_bits, ← share_of_ne hw]
    exact hc.start_le hlt
  · intro i w hi hw u hlo hhi
    obtain ⟨hlt, rfl⟩ := List.getElem?_eq_some_iff.mp hi
    rw [h.table_bits]
    exact h.entries i hlt hw u hlo (by rw [share_of_ne hw]; exact hhi)
  · intro i w hi hw
    exact hc.dvd_start hi hw
  · intro u hu
    rw [h.table_bits] at hu
    obtain ⟨i, w, hi, hw, hlo, hhi⟩ := hc.exists_symbol hu
    refine ⟨i, ⟨w, hi, hw, hlo, by rw [← share_of_ne hw]; exact hhi⟩, ?_⟩
    rintro j ⟨v, hj, hv, hlo', hhi'⟩
    rw [← share_of_ne hv] at hhi'
    obtain ⟨hilt, rfl⟩ := List.getElem?_eq_some_iff.mp hi
    obtain ⟨hjlt, rfl⟩ := List.getElem?_eq_some_iff.mp hj
    rcases Nat.lt_trichotomy j i with hlt | heq | hgt
    · exact (start_disjoint hlt hilt ⟨hlo, hhi⟩ ⟨hlo', hhi'⟩).elim
    · exact heq
    · exact (start_disjoint hgt hjlt ⟨hlo', hhi'⟩ ⟨hlo, hhi⟩).elim
  · intro i j v w hi hj hv hlt
    obtain ⟨hilt, rfl⟩ := List.getElem?_eq_some_iff.mp hi
    obtain ⟨hjlt, rfl⟩ := List.getElem?_eq_some_iff.mp hj
    rw [← share_of_ne hv]
    exact start_ordered hjlt hilt hlt

/-! ## What is accepted -/

/-- One more weight makes the list complete. -/
structure Completable (ws : List Nat) : Prop where
  weights : ∀ w ∈ ws, w ≤ 12
  nonzero : ∃ w ∈ ws, w ≠ 0
  length : ws.length ≤ 255
  max_bits : Nat.log2 (total ws) + 1 ≤ 12
  residual : ∃ k, 2 ^ (Nat.log2 (total ws) + 1) - total ws = 2 ^ k

theorem total_ne_zero : total ws ≠ 0 ↔ ∃ w ∈ ws, w ≠ 0 := by
  constructor
  · intro h
    by_contra hall
    apply h
    rw [total, List.sum_eq_zero]
    intro x hx
    obtain ⟨w, hw, rfl⟩ := List.mem_map.mp hx
    rw [share, if_pos]
    by_contra h0
    exact hall ⟨w, hw, h0⟩
  · rintro ⟨w, hw, h0⟩ hzero
    have hle := share_le_total hw
    have hp : 0 < 2 ^ (w - 1) := by positivity
    rw [share_of_ne h0] at hle
    omega

theorem completable_iff : Completable ws ↔ ∃ last max_bits, Completes ws last max_bits := by
  constructor
  · intro h
    obtain ⟨k, hk⟩ := h.residual
    have hlt : total ws < 2 ^ (Nat.log2 (total ws) + 1) := Nat.lt_log2_self
    have hlen := h.length
    exact ⟨k + 1, _, by omega, h.max_bits, total_ne_zero.mpr h.nonzero, rfl, Nat.le_add_left 1 k,
      by rw [Nat.add_sub_cancel]; omega⟩
  · rintro ⟨last, max_bits, h⟩
    have hlen := h.length
    have hsum := h.sum
    have hmax := h.max_bits_eq
    refine ⟨fun w hw => (h.le hw).trans h.log, total_ne_zero.mp h.nonzero, by omega, ?_, last - 1,
      ?_⟩
    · rw [← hmax]
      exact h.log
    · rw [← hmax, ← hsum, Nat.add_sub_cancel_left]

/-- `build_table` accepts exactly the completable weight lists, and builds a complete prefix code.
-/
theorem build_table_exact (ws : List Nat) (hlen : ws.length ≤ 256) :
    ((∃ t, build_table ws = .ok t) ↔ Completable ws) ∧
    (∀ t, build_table ws = .ok t → t.max_bits = Nat.log2 (total ws) + 1 ∧
      ∃ last first, 1 ≤ last ∧ total ws + 2 ^ (last - 1) = 2 ^ t.max_bits ∧
        Tiled (ws ++ [last]) first t) ∧
    build_table ws ≠ fail (.CorruptTable "huffman table overflow") := by
  by_cases hok : ∃ last max_bits, Completes ws last max_bits
  · have hacc := completable_iff.mpr hok
    obtain ⟨last, max_bits, h⟩ := hok
    obtain ⟨t, ht, hl⟩ := build_table_ok h
    refine ⟨⟨fun _ => hacc, fun _ => ⟨t, ht⟩⟩, ?_, ?_⟩
    · intro t' ht'
      rw [ht] at ht'
      obtain rfl := Except.ok.inj ht'
      rw [hl.table_bits]
      exact ⟨h.max_bits_eq, last, _, h.last_pos, h.sum, hl.tiled⟩
    · rw [ht]
      exact ok_ne_fail _ _
  · obtain ⟨msg, hmsg, hne⟩ := build_table_rejects hlen hok
    refine ⟨⟨?_, fun h => absurd (completable_iff.mp h) hok⟩, ?_, ?_⟩
    · rintro ⟨t, ht⟩
      rw [hmsg] at ht
      exact absurd ht (fail_ne_ok _ _)
    · intro t ht
      rw [hmsg] at ht
      exact absurd ht (fail_ne_ok _ _)
    · rw [hmsg]
      intro heq
      simp only [fail, Except.error.injEq, Halt.err.injEq, ZstdError.CorruptTable.injEq] at heq
      exact hne heq

theorem build_table_exact_two_weights :
    ((∃ t, build_table [1, 1] = .ok t) ↔ Completable [1, 1]) ∧
    (∀ t, build_table [1, 1] = .ok t → t.max_bits = Nat.log2 (total [1, 1]) + 1 ∧
      ∃ last first, 1 ≤ last ∧ total [1, 1] + 2 ^ (last - 1) = 2 ^ t.max_bits ∧
        Tiled ([1, 1] ++ [last]) first t) ∧
    build_table [1, 1] ≠ fail (.CorruptTable "huffman table overflow") :=
  build_table_exact [1, 1] (by decide)

end ZstdPure.Huff
