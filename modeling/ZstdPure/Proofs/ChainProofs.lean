import ZstdPure.Proofs.ParseProofs

/-!
# Proofs: the hash chain and the lazy parses

The head of a chain is an earlier position and the walk recedes, so each of its matches is real. The
lazy parse is proved once, for any finder whose best match is good.
-/

namespace ZstdPure.Encode

open Sequences

/-! ## The chain -/

namespace ChainState

/-- The heads are positions below `p`; the chain itself may hold anything, as the walk recedes. -/
def Before (st : ChainState) (p : Nat) : Prop := TableBefore st.head p

section Chain

variable {data : Bytes} {ip stop p max_offset : Nat} {st : ChainState}

theorem Before.mono (h : st.Before p) {q : Nat} (hpq : p ≤ q) : st.Before q :=
    TableBefore.mono h hpq

theorem Before.new (hash_log chain_log mls p : Nat) : (new hash_log chain_log mls).Before p :=
  TableBefore.empty _ p

theorem Before.reduce (h : st.Before p) (drop : Nat) : (st.reduce_index asI32 drop).Before
    (p - drop) :=
  TableBefore.reduce h drop

theorem Before.insert (h : st.Before p) (data : Bytes) : (st.insert asI32 data p).Before (p + 1) :=
  TableBefore.store h _

theorem lt_of_recedes {c : Nat} {next : Int} (h : recedes c next = true) : next < c := by
  obtain ⟨hnext, hlt⟩ := of_decide_eq_true h
  omega

/-- The walk of `find` keeps a good match. -/
theorem find_from_good (hip : ip ≤ stop) (hstop : stop ≤ data.length)
    (hreach : min max_offset data.length < 2 ^ 32) (n : Nat) {cand : Int}
    {best : Nat × Nat} (hcand : cand < ip) (hbest : GoodMatch data ip stop (best.1, ip - best.2)) :
    GoodMatch data ip stop ((st.find_from data ip stop max_offset n cand best).1,
      ip - (st.find_from data ip stop max_offset n cand best).2) := by
  induction n generalizing cand best with
  | zero => exact hbest
  | succ n ih =>
    unfold find_from
    dsimp only
    by_cases hend : cand < 0 ∨ max_offset < ip - cand.toNat
    · rw [if_pos hend]
      exact hbest
    · rw [if_neg hend]
      obtain ⟨hneg, hnear⟩ := not_or.mp hend
      have hc : cand.toNat < ip := by omega
      have hgood := @common_len_good data ip stop _ hc hip hstop (by omega)
      have hnext : recedes cand.toNat (slot st.chain (st.ring cand.toNat)) = true →
          slot st.chain (st.ring cand.toNat) < ip := by
        intro hrec
        have := lt_of_recedes hrec
        omega
      split_ifs with hrec hbetter hbetter
      · exact ih (hnext hrec) hgood
      · exact ih (hnext hrec) hbest
      · exact hgood
      · exact hbest

theorem find_good (h : st.Before ip) (hip : ip ≤ stop) (hstop : stop ≤ data.length)
    (hreach : min max_offset data.length < 2 ^ 32) (depth : Nat) :
    GoodMatch data ip stop ((st.find data ip stop max_offset depth).1,
      ip - (st.find data ip stop max_offset depth).2) := by
  have hshort : GoodMatch data ip stop (MIN_MATCH - 1, ip - 0) :=
    goodMatch_short (show MIN_MATCH - 1 < MIN_MATCH by decide)
  have hfound := @find_from_good data ip stop max_offset st hip hstop hreach depth _ (MIN_MATCH - 1,
    0)
    (h (st.hash data ip)) hshort
  unfold find
  dsimp only
  split_ifs
  · exact hfound
  · exact goodMatch_short (show 0 < MIN_MATCH by decide)

theorem best_match_at_good (h : st.Before p) (hp : p ≤ stop) (hstop : stop ≤ data.length)
    (hreach : min max_offset data.length < 2 ^ 32) (depth : Nat) {rep : Reps} (hfits : Fits32 rep)
    (ll0 : Bool) :
    GoodMatch data p stop (st.best_match_at data p stop max_offset depth rep ll0) := by
  have hfind := find_good h hp hstop hreach depth
  have hrep := rep_match_at_good hfits hp hstop ll0
  unfold best_match_at
  dsimp only
  split_ifs
  · exact hrep
  · exact hfind
  · exact goodMatch_short (by decide)

/-- The walk of `find_matches` collects one real match a step, at most. -/
theorem find_matches_from_real (hip : ip ≤ stop) (hstop : stop ≤ data.length)
    (hfield : stop - ip < 2 ^ 32) (hreach : min max_offset data.length < 2 ^ 32) (cap n : Nat)
    {cand : Int} {best : Nat} {out : List (Nat × Nat)}
    (hcand : cand < ip) (hout : ∀ m ∈ out, ip + m.1 ≤ stop ∧ RealMatch data ip m.1 m.2) :
    (∀ m ∈ st.find_matches_from data ip stop max_offset cap n cand best out,
      ip + m.1 ≤ stop ∧ RealMatch data ip m.1 m.2) ∧
    (st.find_matches_from data ip stop max_offset cap n cand best out).length ≤ out.length + n := by
  induction n generalizing cand best out with
  | zero => exact ⟨hout, le_refl _⟩
  | succ n ih =>
    unfold find_matches_from
    dsimp only
    by_cases hend : cand < 0 ∨ max_offset < ip - cand.toNat
    · rw [if_pos hend]
      exact ⟨hout, by omega⟩
    · rw [if_neg hend]
      obtain ⟨hneg, hnear⟩ := not_or.mp hend
      have hc : cand.toNat < ip := by omega
      obtain ⟨hreal, hin⟩ := @common_len_real data ip (min stop (ip + cap)) cand.toNat hc (by omega)
        (by omega)
      generalize common_len data cand.toNat ip (min stop (ip + cap)) = ml at hreal hin ⊢
      rw [Nat.mod_eq_of_lt (by omega : ml < 2 ^ 32),
        Nat.mod_eq_of_lt (by omega : ip - cand.toNat < 2 ^ 32)]
      have hpush : ∀ m ∈ out ++ [(ml, ip - cand.toNat)], ip + m.1 ≤ stop ∧
        RealMatch data ip m.1 m.2 := by
        intro m hm
        rcases List.mem_append.mp hm with hm | hm
        · exact hout m hm
        · rw [List.mem_singleton.mp hm]
          exact ⟨by show ip + ml ≤ stop; omega, hreal⟩
      have hnext : recedes cand.toNat (slot st.chain (st.ring cand.toNat)) = true →
          slot st.chain (st.ring cand.toNat) < ip := by
        intro hrec
        have := lt_of_recedes hrec
        omega
      split_ifs with hbetter hcap hrec hcap hrec
      · exact ⟨hpush, by rw [List.length_append, List.length_singleton]; omega⟩
      · obtain ⟨h1, h2⟩ := @ih _ ml _ (hnext hrec) hpush
        rw [List.length_append, List.length_singleton] at h2
        exact ⟨h1, by omega⟩
      · exact ⟨hpush, by rw [List.length_append, List.length_singleton]; omega⟩
      · exact absurd hcap.1 hbetter
      · obtain ⟨h1, h2⟩ := @ih _ best _ (hnext hrec) hout
        exact ⟨h1, by omega⟩
      · exact ⟨hout, by omega⟩

theorem find_matches_real (h : st.Before ip) (hip : ip ≤ stop) (hstop : stop ≤ data.length)
    (hfield : stop - ip < 2 ^ 32) (hreach : min max_offset data.length < 2 ^ 32) (depth cap : Nat) :
    (∀ m ∈ st.find_matches data ip stop max_offset depth cap,
      ip + m.1 ≤ stop ∧ RealMatch data ip m.1 m.2) ∧
    (st.find_matches data ip stop max_offset depth cap).length ≤ depth := by
  obtain ⟨h1, h2⟩ := @find_matches_from_real data ip stop max_offset st hip hstop hfield hreach cap
    depth _ (MIN_MATCH - 1) [] (h (st.hash data ip)) (fun m hm => absurd hm List.not_mem_nil)
  rw [List.length_nil, Nat.zero_add] at h2
  exact ⟨h1, h2⟩

end Chain

end ChainState

end ZstdPure.Encode
