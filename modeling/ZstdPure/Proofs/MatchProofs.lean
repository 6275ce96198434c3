import ZstdPure.Proofs.CommonLenProofs
import ZstdPure.Proofs.SequencesProofs

/-!
# Proofs: matches and offsets

What a match of the encoder stands for in the bytes, and that the offset value picked for a distance
resolves to it.
-/

namespace ZstdPure.Encode

open Sequences

/-- A match of `len` bytes at distance `off`, at `p`: the bytes are the ones `off` before. -/
def RealMatch (data : Bytes) (p len off : Nat) : Prop :=
  1 ≤ off ∧ off ≤ p ∧ ∀ k, k < len → byte_at data (p + k) = byte_at data (p - off + k)

instance (data : Bytes) (p len off : Nat) : Decidable (RealMatch data p len off) :=
  inferInstanceAs (Decidable (_ ∧ _ ∧ _))

theorem RealMatch.shorter {data : Bytes} {p len l off : Nat} (h : RealMatch data p len off)
    (hl : l ≤ len) : RealMatch data p l off :=
  ⟨h.1, h.2.1, fun k hk => h.2.2 k (by omega)⟩

/-! ## Tables of positions -/

theorem slot_set (table : List Int) (i k : Nat) (v : Int) :
    slot (table.set i v) k = if i = k ∧ i < table.length then v else slot table k := by
  unfold slot
  rw [List.getD, List.getD, List.getElem?_set]
  by_cases hik : i = k
  · subst hik
    by_cases hlt : i < table.length
    · rw [if_pos rfl, if_pos hlt, if_pos ⟨rfl, hlt⟩]
      rfl
    · rw [if_pos rfl, if_neg hlt, if_neg fun h => hlt h.2,
        List.getElem?_eq_none (Nat.le_of_not_lt hlt)]
  · rw [if_neg hik, if_neg fun h => hik h.1]

theorem slot_of_le {table : List Int} {k : Nat} (h : table.length ≤ k) : slot table k = -1 :=
  List.getD_eq_default _ _ h

theorem slot_empty (log k : Nat) : slot (empty_table log) k = -1 := by
  unfold slot empty_table
  rcases Nat.lt_or_ge k (2 ^ log) with h | h
  · rw [List.getD, List.getElem?_replicate_of_lt h]
    rfl
  · rw [List.getD_eq_default _ _ (by rw [List.length_replicate]; exact h)]

theorem slot_reduce (cast : Nat → Int) (drop : Nat) (table : List Int) (k : Nat) :
    slot (reduce_index_table cast drop table) k = reduce_index_entry cast drop (slot table k) := by
  unfold slot reduce_index_table
  rw [List.getD, List.getD, List.getElem?_map]
  cases table[k]? with
  | none => rfl
  | some v => rfl

/-- A position stored as `i32` is itself, or a number so low that it is out of every window. -/
theorem asI32_cases (n : Nat) : asI32 n = n ∨ asI32 n + 2 ^ 32 ≤ n := by
  unfold asI32 Int.bmod
  dsimp only
  split_ifs <;> omega

theorem asI32_le (n : Nat) : asI32 n ≤ n := by
  rcases asI32_cases n with h | h <;> omega

/-! ## Offset values -/

theorem resolve_eq (rep : Reps) {offset_value : Nat} (h : 1 ≤ offset_value) (ll0 : Bool) :
    resolve rep offset_value ll0 = rep.resolve offset_value ll0 := by
  rw [resolve, resolve_offset_ok rep h]

/-- The offset value picked for a distance is one that the decoder resolves to it, and it is no
larger than the literal form. -/
theorem encode_offset_resolves (rep : Reps) {off : Nat} (h : 1 ≤ off) (ll0 : Bool) :
    1 ≤ encode_offset rep off ll0 ∧ encode_offset rep off ll0 ≤ off + 3 ∧
    resolve_offset rep (encode_offset rep off ll0) ll0 =
      .ok (off, (resolve rep (encode_offset rep off ll0) ll0).2) := by
  have key : ∀ ov, 1 ≤ ov → (resolve rep ov ll0).1 = off →
      resolve_offset rep ov ll0 = .ok (off, (resolve rep ov ll0).2) := by
    intro ov hov hres
    rw [resolve_eq rep hov] at hres ⊢
    rw [resolve_offset_ok rep hov, ← hres]
  unfold encode_offset
  split_ifs with h1 h2 h3
  · exact ⟨by omega, by omega, key 1 (by omega) h1⟩
  · exact ⟨by omega, by omega, key 2 (by omega) h2⟩
  · exact ⟨by omega, by omega, key 3 (by omega) h3⟩
  · refine ⟨by omega, le_refl _, key (off + 3) (by omega) ?_⟩
    rw [resolve_eq rep (by omega), Reps.resolve, if_pos (by omega)]
    exact Nat.add_sub_cancel off 3

end ZstdPure.Encode
