import ZstdPure.Dict
import ZstdPure.Proofs.LiteralsProofs
import ZstdPure.Proofs.SequencesProofs

/-!
# Dictionaries

`Dictionary::parse` never faults, and the dictionary it returns is valid: its tables are those of
its counts and its repeat offsets reach into its content.
-/

namespace ZstdPure

open Outcome Huff Sequences
open Encode (ValidCounts)
open Fse (dtable)

theorem read_u32_le_ok (src : Bytes) (i : Nat) (h : i + 4 ≤ src.length) :
    ∃ v, read_u32_le src i = .ok v ∧ v = leNat ((src.drop i).take 4) ∧ v < 2 ^ 32 := by
  have hd : (src.drop i).take 4 = [src[i], src[i + 1], src[i + 2], src[i + 3]] := by
    rw [List.drop_eq_getElem_cons (by omega), List.drop_eq_getElem_cons (by omega),
      List.drop_eq_getElem_cons (by omega), List.drop_eq_getElem_cons (by omega)]
    rfl
  refine ⟨leNat [src[i], src[i + 1], src[i + 2], src[i + 3]], ?_, by rw [hd], leNat_lt _⟩
  rw [read_u32_le, get_ok (by omega), bind_ok, get_ok (by omega), bind_ok, get_ok (by omega),
    bind_ok, get_ok (by omega), bind_ok]
  rfl

/-- A decoding table and the counts it was built from. -/
structure TableOf (nc : NormCounts) (max_log : Nat) (table : Option Fse.FseDecodeTable) : Prop where
  length : nc.counts.length = 256
  symbol : nc.max_symbol < 256
  ge_log : 5 ≤ nc.table_log
  log_le : nc.table_log ≤ max_log
  counts : ValidCounts (nc.counts.take (nc.max_symbol + 1)) nc.table_log
  table : table = some (dtable (nc.counts.take (nc.max_symbol + 1)) nc.table_log)

/-- What `Dictionary::parse` checked of an entropy section. -/
structure DictEntropy.Valid (e : DictEntropy) (content : Bytes) : Prop where
  huff : ∃ ws max_bits, Layout ws max_bits e.huff
  of : TableOf e.of_nc 8 e.tables.of
  ml : TableOf e.ml_nc 9 e.tables.ml
  ll : TableOf e.ll_nc 9 e.tables.ll
  rep : ∀ r ∈ [e.rep.r0, e.rep.r1, e.rep.r2], r ≠ 0 ∧ r ≤ content.length

/-- A dictionary that `raw` or `parse` can return. -/
def Dictionary.Valid (d : Dictionary) : Prop := ∀ e ∈ d.entropy, e.Valid d.content

theorem TableOf.valid {nc : NormCounts} {max_log : Nat} {table : Option Fse.FseDecodeTable}
    (h : TableOf nc max_log table) (h9 : max_log ≤ 9) : CacheValid table := by
  rw [h.table]
  exact cacheValid_some (Fse.dtable_valid h.counts (by have := h.ge_log; omega)
    (by have := h.log_le; omega))

namespace Dictionary

theorem raw_valid (bytes : Bytes) : (raw bytes).Valid := fun e he => by simp [raw] at he

theorem parse_table_safe {bytes : Bytes} {p max_log : Nat} (hlen : bytes.length < 2 ^ 55)
    (hp : p ≤ bytes.length) (h9 : max_log ≤ 9) :
    Safe (parse_table bytes p max_log) fun r =>
      TableOf r.1 max_log (some r.2.1) ∧ r.2.2 ≤ bytes.length := by
  rw [parse_table, sliceFrom_ok hp, bind_ok]
  refine (Fse.read_ncount_safe _ (by rw [List.length_drop]; omega) (by omega)).bind fun nc hnc => ?_
  have hc := hnc.consumed
  have hge := hnc.ge_log
  have hle := hnc.log_le
  rw [List.length_drop] at hc
  rw [Fse.build_dtable_ok (by rw [hnc.length]; exact hnc.symbol) rfl hnc.counts (by omega)
    (by omega), bind_ok, add_ok (by omega), bind_ok]
  exact Safe.ok ⟨⟨hnc.length, hnc.symbol, hge, hle, hnc.counts, rfl⟩, by simp only; omega⟩

theorem check_rep_safe {content : Bytes} {r : Nat} :
    Safe (check_rep content r) fun _ => r ≠ 0 ∧ r ≤ content.length := by
  rw [check_rep]
  exact safe_ite (fun _ => safe_fail) fun h => Safe.ok (by omega)

/-- `parse` never faults, and what it returns is valid. -/
theorem parse_safe {bytes : Bytes} (hlen : bytes.length < 2 ^ 55) :
    Safe (parse bytes) fun d => d.Valid ∧ d.content.length ≤ bytes.length := by
  have hraw : Safe (.ok (raw bytes) : Res Dictionary) fun d =>
      d.Valid ∧ d.content.length ≤ bytes.length := Safe.ok ⟨raw_valid bytes, le_rfl⟩
  rw [parse]
  refine safe_ite (fun _ => hraw) fun h8 => ?_
  obtain ⟨magic, h₁, -, -⟩ := read_u32_le_ok bytes 0 (by omega)
  obtain ⟨id, h₂, -, -⟩ := read_u32_le_ok bytes 4 (by omega)
  rw [h₁, bind_ok]
  refine safe_ite (fun _ => hraw) fun _ => ?_
  rw [h₂, bind_ok, sliceFrom_ok (by omega), bind_ok]
  refine (read_table_safe (by rw [List.length_drop]; omega)).bind ?_
  rintro ⟨huff, used⟩ ⟨hused, hl⟩
  rw [List.length_drop] at hused
  dsimp only at hused hl ⊢
  rw [add_ok (by omega), bind_ok]
  refine (parse_table_safe hlen (by omega) (by omega)).bind ?_
  rintro ⟨of_nc, of, p₁⟩ ⟨hof, hp₁⟩
  refine (parse_table_safe hlen hp₁ (by omega)).bind ?_
  rintro ⟨ml_nc, ml, p₂⟩ ⟨hml, hp₂⟩
  refine (parse_table_safe hlen hp₂ (by omega)).bind ?_
  rintro ⟨ll_nc, ll, p₃⟩ ⟨hll, hp₃⟩
  dsimp only at hof hml hll hp₃ ⊢
  rw [add_ok (by omega), bind_ok]
  refine safe_ite (fun _ => safe_fail) fun hend => ?_
  obtain ⟨r0, h₃, -, -⟩ := read_u32_le_ok bytes p₃ (by omega)
  obtain ⟨r1, h₄, -, -⟩ := read_u32_le_ok bytes (p₃ + 4) (by omega)
  obtain ⟨r2, h₅, -, -⟩ := read_u32_le_ok bytes (p₃ + 8) (by omega)
  rw [h₃, bind_ok, h₄, bind_ok, h₅, bind_ok, sliceFrom_ok (by omega), bind_ok]
  refine check_rep_safe.bind fun _ hr0 => check_rep_safe.bind fun _ hr1 =>
    check_rep_safe.bind fun _ hr2 => Safe.ok ⟨fun e he => ?_, ?_⟩
  · obtain rfl := Option.mem_some_iff.mp he
    refine ⟨hl, hof, hml, hll, fun r hr => ?_⟩
    simp only [List.mem_cons, List.not_mem_nil, or_false] at hr
    rcases hr with rfl | rfl | rfl
    · exact hr0
    · exact hr1
    · exact hr2
  · simp only [List.length_drop]; omega

end Dictionary

end ZstdPure
