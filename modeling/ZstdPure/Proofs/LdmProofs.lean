import ZstdPure.Encode.Finder
import ZstdPure.Proofs.FseProofs
import ZstdPure.Proofs.MatchProofs

/-!
# Proofs: long-distance matches

The index outlives the calls of `generate` and the slides of the buffer. What every one of them
keeps is that its positions are before the range to come. -/

namespace ZstdPure.Encode

open Sequences

namespace LdmState

/-! ## One call -/

/-- The table holds positions below `p` only. -/
def Before (st : LdmState) (p : Nat) : Prop := ∀ k, slot st.table k < p

/-- A valid match of the range from `start` to `stop`. -/
structure ValidMatch (data : Bytes) (start stop min_offset window : Nat) (m : LdmSeq) : Prop where
  inside : start ≤ m.pos ∧ m.pos + m.len ≤ stop
  long : LDM_MIN_MATCH ≤ m.len
  far : min_offset < m.offset
  reach : m.offset ≤ window
  real : RealMatch data m.pos m.len m.offset

/-- The loop of `generate` at `p`: every position of the table and every match found is before it.
-/
structure LoopInv (data : Bytes) (start stop min_offset window : Nat) (s : Loop) : Prop where
  low : start ≤ s.p
  high : s.p ≤ stop
  before : s.state.Before s.p
  valid : ∀ m ∈ s.out, ValidMatch data start stop min_offset window m
  done : ∀ m ∈ s.out, m.pos + m.len ≤ s.p
  ordered : s.out.Pairwise fun a b => a.pos + a.len ≤ b.pos

section Generate

variable {data : Bytes} {start stop min_offset window : Nat}

theorem Before.mono {st : LdmState} {p q : Nat} (h : st.Before p) (hpq : p ≤ q) : st.Before q :=
  fun k => lt_of_lt_of_le (h k) (by exact_mod_cast hpq)

/-- Storing the position `p` keeps the table before the next one. -/
theorem Before.store {st : LdmState} {p : Nat} (h : st.Before p) (hp : p < 2 ^ 31) (i : Nat) :
    Before { st with table := st.table.set i (asI32 p) } (p + 1) := by
  intro k
  have hk := h k
  show slot (st.table.set i (asI32 p)) k < _
  rw [slot_set, Fse.asI32_of_lt hp]
  split_ifs <;> omega

theorem generate_step_inv (hdata : data.length < 2 ^ 31) (hstop : stop ≤ data.length) {s : Loop}
    (h : LoopInv data start stop min_offset window s) (hp : s.p ≤ stop - 8) (h8 : 8 ≤ stop) :
    LoopInv data start stop min_offset window
      (generate_step asI32 data stop min_offset window s) ∧
    s.p < (generate_step asI32 data stop min_offset window s).p := by
  obtain ⟨hlow, hhigh, hbefore, hvalid, hdone, hordered⟩ := h
  have hdone' : ∀ m ∈ s.out, m.pos + m.len ≤ s.p + 1 := fun m hm => (hdone m hm).trans (by omega)
  unfold generate_step
  dsimp only
  split_ifs with hgate hmatch
  · exact ⟨⟨by show start ≤ s.p + 1; omega, by show s.p + 1 ≤ stop; omega,
      hbefore.mono (Nat.le_succ _), hvalid, hdone', hordered⟩, Nat.lt_succ_self _⟩
  · -- the candidate is before `p`, and the bytes were compared
    obtain ⟨hcand, hfar, hreach, hlong⟩ := hmatch
    have hc := hbefore (ldm_hash data s.p >>> (64 - s.state.hash_log))
    generalize hcand_eq : slot s.state.table (ldm_hash data s.p >>> (64 - s.state.hash_log)) = cand
      at hcand hc hfar hreach hlong ⊢
    obtain ⟨c, rfl⟩ := Int.eq_ofNat_of_zero_le hcand
    rw [Int.toNat_natCast] at hfar hreach hlong ⊢
    have hc : c < s.p := by exact_mod_cast hc
    obtain ⟨⟨hcap, hequal, _⟩, _⟩ := @common_tail_agrees data c s.p (stop - s.p) 0
      (Nat.zero_le _) (fun k hk => absurd hk (Nat.not_lt_zero k))
    generalize common_tail data c s.p (stop - s.p) 0 = ml at hlong hcap hequal ⊢
    have hmin : LDM_MIN_MATCH = 64 := rfl
    have hoff : (s.p - c) % 2 ^ 32 = s.p - c := Nat.mod_eq_of_lt (by omega)
    have hnew : ValidMatch data start stop min_offset window ⟨s.p, ml, (s.p - c) % 2 ^ 32⟩ := by
      rw [hoff]
      refine ⟨⟨hlow, by show s.p + ml ≤ stop; omega⟩, hlong, hfar, hreach, ?_, ?_, ?_⟩
      · show 1 ≤ s.p - c
        omega
      · show s.p - c ≤ s.p
        omega
      · intro k hk
        show byte_at data (s.p + k) = byte_at data (s.p - (s.p - c) + k)
        rw [Nat.sub_sub_self (le_of_lt hc)]
        exact (hequal k hk).symm
    refine ⟨⟨?_, ?_, ?_, ?_, ?_, ?_⟩, ?_⟩
    · show start ≤ s.p + ml
      omega
    · show s.p + ml ≤ stop
      omega
    · exact (hbefore.store (by omega) _).mono (by show s.p + 1 ≤ s.p + ml; omega)
    · intro m hm
      rcases List.mem_append.mp hm with hm | hm
      · exact hvalid m hm
      · rw [List.mem_singleton.mp hm]
        exact hnew
    · intro m hm
      rcases List.mem_append.mp hm with hm | hm
      · exact (hdone m hm).trans (Nat.le_add_right _ _)
      · rw [List.mem_singleton.mp hm]
    · refine List.pairwise_append.mpr ⟨hordered, List.pairwise_singleton _ _, ?_⟩
      intro a ha b hb
      rw [List.mem_singleton.mp hb]
      exact hdone a ha
    · show s.p < s.p + ml
      omega
  · exact ⟨⟨by show start ≤ s.p + 1; omega, by show s.p + 1 ≤ stop; omega,
      hbefore.store (by omega) _, hvalid, hdone', hordered⟩, Nat.lt_succ_self _⟩

/-- The loop of `generate` after at most `n` iterations. -/
def generate_loop (data : Bytes) (start stop min_offset window n : Nat) (st : LdmState) : Loop :=
  While.iterate (fun s : Loop => decide (s.p ≤ stop - 8))
    (generate_step asI32 data stop min_offset window) n ⟨st, start, []⟩

theorem loop_start {st : LdmState} (hbefore : st.Before start) (hrange : start ≤ stop) :
    LoopInv data start stop min_offset window ⟨st, start, []⟩ :=
  ⟨le_refl _, hrange, hbefore, fun _ hm => absurd hm List.not_mem_nil,
    fun _ hm => absurd hm List.not_mem_nil, List.Pairwise.nil⟩

/-- Every iteration keeps the invariant. -/
theorem generate_loop_inv (hdata : data.length < 2 ^ 31) (hstop : stop ≤ data.length)
    (h8 : 8 ≤ stop)
    {s : Loop} (h : LoopInv data start stop min_offset window s) (n : Nat) :
    LoopInv data start stop min_offset window
      (While.iterate (fun s : Loop => decide (s.p ≤ stop - 8))
        (generate_step asI32 data stop min_offset window) n s) := by
  induction n generalizing s with
  | zero => exact h
  | succ n ih =>
    unfold While.iterate
    split_ifs with hc
    · exact ih (generate_step_inv hdata hstop h (of_decide_eq_true hc) h8).1
    · exact h

/-- The loop is over after as many iterations as the range has positions. -/
theorem generate_loop_over (hdata : data.length < 2 ^ 31) (hstop : stop ≤ data.length)
    (h8 : 8 ≤ stop)
    {st : LdmState} (hbefore : st.Before start) (hrange : start ≤ stop) :
    stop - 8 < (generate_loop data start stop min_offset window (stop - start) st).p := by
  have hspec := @While.iterate_spec _ (fun s : Loop => decide (s.p ≤ stop - 8))
    (generate_step asI32 data stop min_offset window)
    (LoopInv data start stop min_offset window) (fun s => stop - s.p) (by
      intro s hs hc
      obtain ⟨hinv, hlt⟩ := generate_step_inv hdata hstop hs (of_decide_eq_true hc) h8
      have hhigh := hinv.high
      exact ⟨hinv, by omega⟩) (stop - start) ⟨st, start, []⟩ (loop_start hbefore hrange) (le_refl _)
  exact Nat.lt_of_not_le (of_decide_eq_false hspec.2)

/-- The matches of a call are valid, and what it indexes is before the end of its range. -/
theorem generate_spec (hdata : data.length < 2 ^ 31) (hstop : stop ≤ data.length) {st : LdmState}
    (hbefore : st.Before start) (hrange : start ≤ stop) :
    let r := generate asI32 st data start stop min_offset window
    r.1.Pairwise (fun a b => a.pos + a.len ≤ b.pos) ∧
    (∀ m ∈ r.1, ValidMatch data start stop min_offset window m) ∧ r.2.Before stop := by
  intro r
  have hr : r = generate asI32 st data start stop min_offset window := rfl
  unfold generate at hr
  split_ifs at hr with hshort
  · rw [hr]
    exact ⟨List.Pairwise.nil, fun m hm => absurd hm List.not_mem_nil, hbefore.mono hrange⟩
  · obtain ⟨h8, _⟩ := not_or.mp hshort
    have hinv := generate_loop_inv hdata hstop (Nat.le_of_not_lt h8)
      (@loop_start data start stop min_offset window st hbefore hrange) (stop - start)
    rw [hr]
    exact ⟨hinv.ordered, hinv.valid, hinv.before.mono hinv.high⟩

end Generate

/-! ## Runs -/

theorem Before.new (window_log p : Nat) : (new window_log).Before p := by
  intro k
  show slot (empty_table _) k < _
  rw [slot_empty]
  omega

/-- A slide moves the positions of the table with the range to come. -/
theorem Before.reduce {st : LdmState} {p drop : Nat} (h : st.Before p) (hp : p < 2 ^ 31)
    (hdrop : drop ≤ p) : (st.reduce_index asI32 drop).Before (p - drop) := by
  intro k
  show slot (reduce_index_table asI32 drop st.table) k < _
  rw [slot_reduce]
  have hk := h k
  unfold reduce_index_entry
  split_ifs with hneg hle
  · omega
  · rw [Fse.asI32_of_lt (by omega)]
    omega
  · omega

/-- The calls so far: the buffer, the start of the range to come, and the index. -/
inductive Run : Bytes → Nat → LdmState → Prop
  | new (window_log : Nat) {data : Bytes} {start : Nat} (hdata : data.length < 2 ^ 31)
    (hstart : start ≤ data.length) : Run data start (LdmState.new window_log)
  | grow {data : Bytes} {next : Nat} {st : LdmState} (h : Run data next st) (more : Bytes)
    (hdata : (data ++ more).length < 2 ^ 31) : Run (data ++ more) next st
  | generate {data : Bytes} {start : Nat} {st : LdmState} (h : Run data start st) {stop : Nat}
    (hrange : start ≤ stop) (hstop : stop ≤ data.length) (min_offset window : Nat) :
    Run data stop (st.generate asI32 data start stop min_offset window).2
  | slide {data : Bytes} {next : Nat} {st : LdmState} (h : Run data next st) {drop : Nat}
    (hdrop : drop ≤ next) : Run (data.drop drop) (next - drop) (st.reduce_index asI32 drop)

theorem Run.before {data : Bytes} {next : Nat} {st : LdmState} (h : Run data next st) :
    data.length < 2 ^ 31 ∧ next ≤ data.length ∧ st.Before next := by
  induction h with
  | new window_log hdata hstart => exact ⟨hdata, hstart, Before.new window_log _⟩
  | grow _ more hdata ih =>
    refine ⟨hdata, ?_, ih.2.2⟩
    rw [List.length_append]
    omega
  | generate _ hrange hstop _ _ ih =>
    exact ⟨ih.1, hstop, (generate_spec ih.1 hstop ih.2.2 hrange).2.2⟩
  | slide _ hdrop ih =>
    obtain ⟨hdata, hnext, hbefore⟩ := ih
    refine ⟨?_, ?_, hbefore.reduce (by omega) hdrop⟩
    · rw [List.length_drop]
      omega
    · rw [List.length_drop]
      omega

/-- After any calls and slides, the matches of the next call are valid, in order and apart; the
table only holds positions before the range, and at each iteration of the loop before its position,
so no distance is negative; and the loop is over when the bound on its iterations is. -/
theorem generate_valid {data : Bytes} {start : Nat} {st : LdmState} (h : Run data start st) :
    (∀ k, slot st.table k < start) ∧
    ∀ stop min_offset window, start ≤ stop → stop ≤ data.length →
      let ms := (st.generate asI32 data start stop min_offset window).1
      ms.Pairwise (fun a b => a.pos + a.len ≤ b.pos) ∧
      (∀ m ∈ ms, start ≤ m.pos ∧ m.pos + m.len ≤ stop ∧ 64 ≤ m.len ∧ min_offset < m.offset ∧
        m.offset ≤ window ∧ m.offset ≤ m.pos ∧
        range_of data m.pos (m.pos + m.len) =
          range_of data (m.pos - m.offset) (m.pos - m.offset + m.len)) ∧
      (8 ≤ stop →
        (∀ n k, slot (generate_loop data start stop min_offset window n st).state.table k <
          (generate_loop data start stop min_offset window n st).p) ∧
        stop - 8 < (generate_loop data start stop min_offset window (stop - start) st).p) := by
  obtain ⟨hdata, _, hbefore⟩ := h.before
  refine ⟨hbefore, ?_⟩
  intro stop min_offset window hrange hstop ms
  obtain ⟨hordered, hvalid, _⟩ :=
    @generate_spec data start stop min_offset window hdata hstop st hbefore hrange
  refine ⟨hordered, ?_, ?_⟩
  · intro m hm
    obtain ⟨⟨hlow, hhigh⟩, hlong, hfar, hreach, h1, hle, hequal⟩ := hvalid m hm
    refine ⟨hlow, hhigh, hlong, hfar, hreach, hle, ?_⟩
    exact (range_eq_iff (by omega) (by omega)).mpr hequal
  · intro h8
    exact ⟨fun n => (generate_loop_inv hdata hstop h8 (loop_start hbefore hrange) n).before,
      generate_loop_over hdata hstop h8 hbefore hrange⟩

/-- A run of zeros indexed in one call, slid, and matched in the next. -/
theorem generate_valid_zeros :
    let data : Bytes := List.replicate 200 0
    let st := ((new 20).generate asI32 data 0 100 5 64).2.reduce_index asI32 8
    let ms := (st.generate asI32 (data.drop 8) 92 192 5 64).1
    ms.Pairwise (fun a b => a.pos + a.len ≤ b.pos) ∧
    ∀ m ∈ ms, 92 ≤ m.pos ∧ m.pos + m.len ≤ 192 ∧ 64 ≤ m.len ∧ 5 < m.offset ∧
      m.offset ≤ 64 ∧ m.offset ≤ m.pos ∧
      range_of (data.drop 8) m.pos (m.pos + m.len) =
        range_of (data.drop 8) (m.pos - m.offset) (m.pos - m.offset + m.len) := by
  intro data st ms
  have hlen : data.length = 200 := List.length_replicate
  have hfirst : Run data 0 (new 20) := Run.new 20 (by omega) (by omega)
  have hindexed := @Run.generate _ _ _ hfirst 100 (by decide) (by omega) 5 64
  have hslid := @Run.slide _ _ _ hindexed 8 (by decide)
  have hvalid := (generate_valid hslid).2 192 5 64 (by decide) (by rw [List.length_drop]; omega)
  exact ⟨hvalid.1, hvalid.2.1⟩

end LdmState

end ZstdPure.Encode
