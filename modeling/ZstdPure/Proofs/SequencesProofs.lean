import ZstdPure.Sequences
import ZstdPure.Lib.Cycle
import ZstdPure.Proofs.FseProofs

/-!
# The sequences section

`copy_match` is a periodic extension of the output. `decode_capped` never faults, keeps the cached
tables valid and appends no more than its ceiling allows.
-/

namespace ZstdPure.Sequences

open Outcome Fse List
open Encode (ValidCounts)

/-! ## Copying -/

section Copy

variable {out : Bytes} {off n : Nat}

theorem extend_from_within_ok {start : Nat} (h : start + n ≤ out.length)
    (hlen : out.length < 2 ^ 64) :
    extend_from_within out start n = .ok (out ++ (out.drop start).take n) := by
  rw [extend_from_within, add_ok (by omega), bind_ok, slice_ok (by omega) h, bind_ok,
    List.take_drop]
  rfl

/-- The doubling loop of `copy_power_of_two_pattern` fills the chunk with the pattern. -/
theorem chunk_loop_ok (pattern : Bytes) (h0 : 0 < pattern.length) (hdvd : pattern.length ∣ 64) :
    ∀ (m : Nat) (chunk : Bytes) (filled : Nat), chunk.length = 64 → filled ≤ 64 →
      0 < filled → 64 < filled + m → pattern.length ∣ filled →
      chunk.take filled = cycle pattern filled →
      ∃ k, loop (fun s : Bytes × Nat => decide (s.2 < 64))
        (fun s => do
          let free ← sub 64 s.2
          let n := min s.2 free
          let head ← slice s.1 0 n
          let chunk ← copyAt s.1 s.2 head
          let filled ← add 64 s.2 n
          pure (chunk, filled)) m (chunk, filled) = (.ok (cycle pattern 64, k) : Res _) := by
  intro m
  induction m with
  | zero => intro _ filled _ h _ h'; omega
  | succ m ih =>
    intro chunk filled hlen hle hpos hfuel hd htake
    rcases Nat.lt_or_ge filled 64 with hlt | hge
    · have hn : min filled (64 - filled) ≤ filled := Nat.min_le_left _ _
      have hhead : (chunk.take (min filled (64 - filled))).length = min filled (64 - filled) := by
        rw [List.length_take]; omega
      rw [loop_succ_of (by simpa using hlt)]
      dsimp only
      rw [sub_ok (by omega), bind_ok, slice_ok (Nat.zero_le _) (by omega), bind_ok, List.drop_zero,
        copyAt_ok (by omega), bind_ok, add_ok (by omega), bind_ok, hhead]
      refine ih _ _ ?_ (by omega) (by omega) (by omega) ?_ ?_
      · simp only [List.length_append, List.length_take, List.length_drop]; omega
      · rcases Nat.le_total filled (64 - filled) with h | h
        · rw [Nat.min_eq_left h]; exact Dvd.dvd.add hd hd
        · rw [Nat.min_eq_right h, Nat.add_sub_cancel' (by omega)]; exact hdvd
      · -- the next part of the cycle is a prefix of what is filled
        have hsub : chunk.take (min filled (64 - filled))
            = cycle pattern (min filled (64 - filled)) := by
          rw [← take_cycle h0 hn, ← htake, List.take_take, Nat.min_eq_left hn]
        rw [List.take_append_of_le_length
          (by simp only [List.length_append, List.length_take]; omega),
          List.take_of_length_le (by simp only [List.length_append, List.length_take]; omega),
          htake, hsub, ← cycle_add hd]
    · obtain rfl : filled = 64 := by omega
      refine ⟨64, ?_⟩
      rw [loop_of_not (by simp)]
      congr 2
      rw [← htake, List.take_of_length_le (by omega)]

/-- The chunk loop of `copy_power_of_two_pattern` appends whole chunks. -/
theorem chunks_loop_ok {chunk : Bytes} :
    ∀ (m : Nat) (out : Bytes) (remaining : Nat), remaining < m →
      loop (fun s : Bytes × Nat => decide (64 ≤ s.2))
        (fun s => do
          let remaining ← sub s.2 64
          pure (s.1 ++ chunk, remaining)) m (out, remaining)
        = (.ok (out ++ (List.replicate (remaining / 64) chunk).flatten, remaining % 64) :
          Res _) := by
  intro m
  induction m with
  | zero => intro _ _ h; omega
  | succ m ih =>
    intro out remaining h
    rcases Nat.lt_or_ge remaining 64 with hlt | hge
    · rw [loop_of_not (by simpa using hlt), Nat.div_eq_of_lt hlt, Nat.mod_eq_of_lt hlt]
      simp
    · rw [loop_succ_of (by simpa using hge)]
      dsimp only
      rw [sub_ok hge, bind_ok, pure_eq_ok, bind_ok, ih _ _ (by omega),
        show remaining / 64 = (remaining - 64) / 64 + 1 by omega,
        show (remaining - 64) % 64 = remaining % 64 by omega, List.replicate_succ,
        List.flatten_cons, List.append_assoc]

theorem flatten_replicate_cycle {pattern : Bytes} {m : Nat} (h : pattern.length ∣ m) (k : Nat) :
    (List.replicate k (cycle pattern m)).flatten = cycle pattern (m * k) := by
  induction k with
  | zero => simp
  | succ k ih =>
    rw [List.replicate_succ, List.flatten_cons, ih, Nat.mul_succ, Nat.add_comm, cycle_add h]

theorem copy_power_of_two_pattern_ok (h : off = 2 ∨ off = 4 ∨ off = 8) (hle : off ≤ out.length)
    (hlen : out.length < 2 ^ 64) (n : Nat) :
    copy_power_of_two_pattern out (out.length - off) off n = .ok (extendBack out off n) := by
  have hbase := length_base hle
  have hdvd : off ∣ 64 := by rcases h with rfl | rfl | rfl <;> decide
  have h8 : off ≤ 8 := by omega
  have hpat : (out.take (out.length - off + off)).drop (out.length - off)
      = out.drop (out.length - off) := by rw [List.take_of_length_le (by omega)]
  obtain ⟨k, hchunk⟩ := chunk_loop_ok (out.drop (out.length - off)) (by omega)
    (by rw [hbase]; exact hdvd) 65
    (out.drop (out.length - off) ++ (List.replicate 64 0).drop off) off
    (by simp only [List.length_append, List.length_drop, List.length_replicate]; omega)
    (by omega) (by omega) (by omega) (by rw [hbase]) (by
      rw [List.take_append_of_le_length (by omega), List.take_of_length_le (by omega),
        cycle_of_length_eq hbase])
  rw [copy_power_of_two_pattern, add_ok (by omega), bind_ok, slice_ok (by omega) (by omega),
    bind_ok, hpat, copyAt_ok (by rw [hbase, List.length_replicate]; omega), bind_ok, hbase,
    List.take_zero, List.nil_append, Nat.zero_add, hchunk, bind_ok]
  dsimp only
  rw [chunks_loop_ok _ _ _ (by omega), bind_ok, flatten_replicate_cycle (by rw [hbase]; exact hdvd)]
  have hn : n = 64 * (n / 64) + n % 64 := (Nat.div_add_mod n 64).symm
  have hsplit : extendBack out off n = out ++ cycle (out.drop (out.length - off)) (64 * (n / 64))
      ++ cycle (out.drop (out.length - off)) (n % 64) := by
    rw [extendBack, List.append_assoc, ← cycle_add
      (by rw [hbase]; exact hdvd.trans (Dvd.intro _ rfl)), ← hn]
  dsimp only
  rw [hsplit]
  by_cases h0 : 0 < n % 64
  · rw [if_pos h0, slice_ok (Nat.zero_le _) (by rw [length_cycle (by omega)]; omega), bind_ok,
      List.drop_zero, take_cycle (by omega) (by omega)]
    rfl
  · rw [if_neg h0, show n % 64 = 0 by omega, cycle_zero, List.append_nil]
    rfl

/-- The general loop of `copy_match`: each round copies everything from the match's start. -/
theorem copy_loop_ok (h0 : 0 < off) (hle : off ≤ out.length) :
    ∀ (m a remaining : Nat), remaining < m → off ∣ a →
      out.length + a + remaining < 2 ^ 64 →
      ∃ r, loop (fun s : Bytes × Nat => decide (0 < s.2))
        (fun s => do
          let avail ← sub s.1.length (out.length - off)
          let n := min s.2 avail
          let out ← extend_from_within s.1 (out.length - off) n
          let remaining ← sub s.2 n
          pure (out, remaining)) m (extendBack out off a, remaining)
        = (.ok (extendBack out off (a + remaining), r) : Res _) := by
  intro m
  induction m with
  | zero => intro _ _ h; omega
  | succ m ih =>
    intro a remaining hm hd hlen
    have hbase := length_base hle
    have hl := length_extendBack h0 hle a
    by_cases hr : 0 < remaining
    · rw [loop_succ_of (by simpa using hr)]
      dsimp only
      rw [sub_ok (by omega), bind_ok, hl, show out.length + a - (out.length - off) = off +
        a by omega,
        extend_from_within_ok (by omega) (by omega), bind_ok, sub_ok (Nat.min_le_left _ _), bind_ok]
      have hdrop : (extendBack out off a).drop (out.length - off)
          = cycle (out.drop (out.length - off)) (off + a) := by
        rw [extendBack, List.drop_append_of_le_length (by omega), base_append_cycle, hbase]
      have hext : ∀ k, k ≤ off + a → extendBack out off a ++
          ((extendBack out off a).drop (out.length - off)).take k = extendBack out off (a + k) := by
        intro k hk
        rw [hdrop, take_cycle (by omega) hk, extendBack, extendBack, List.append_assoc,
          ← cycle_add (by rw [hbase]; exact hd)]
      rw [hext _ (Nat.min_le_right _ _)]
      rcases Nat.le_total remaining (off + a) with h | h
      · refine ⟨0, ?_⟩
        rw [Nat.min_eq_left h, Nat.sub_self, pure_eq_ok, bind_ok, loop_of_not (by simp)]
      · obtain ⟨r, ih⟩ := ih (a + (off + a)) (remaining - (off + a)) (by omega)
          (Dvd.dvd.add hd (Dvd.dvd.add dvd_rfl hd)) (by omega)
        refine ⟨r, ?_⟩
        rw [Nat.min_eq_right h, pure_eq_ok, bind_ok, ih]
        congr 3
        omega
    · obtain rfl : remaining = 0 := by omega
      exact ⟨0, by rw [loop_of_not (by simp)]; rfl⟩

/-- `copy_match` extends the output by a copy of what lies `off` bytes back. -/
theorem copy_match_ok (h0 : 0 < off) (hle : off ≤ out.length) (hlen : out.length + n < 2 ^ 64) :
    copy_match out off n = .ok (extendBack out off n) := by
  have hbase := length_base hle
  rw [copy_match, sub_ok hle, bind_ok]
  dsimp only
  split_ifs with h1 h2 h3
  · rw [extend_from_within_ok (by omega) (by omega), extendBack]
    congr 2
    rw [← take_cycle (by omega) h1, cycle_of_length_eq hbase]
  · subst h2
    rw [get_ok (by omega), bind_ok, extendBack]
    have hdrop : out.drop (out.length - 1) = [out[out.length - 1]] := by
      rw [List.drop_eq_getElem_cons (by omega), List.drop_of_length_le (by omega)]
    rw [hdrop, cycle_singleton]
    rfl
  · exact copy_power_of_two_pattern_ok h3 hle (by omega) n
  · obtain ⟨r, hr⟩ := copy_loop_ok h0 hle (n + 1) 0 n (by omega) (dvd_zero _) (by omega)
    have h0' : extendBack out off 0 = out := by simp [extendBack]
    rw [h0', Nat.zero_add] at hr
    rw [hr]
    rfl

end Copy

/-! ## Tables -/

theorem ll_default_valid : ValidCounts LL_DEFAULT 6 := ⟨by decide, by decide, by decide⟩

theorem of_default_valid : ValidCounts OF_DEFAULT 5 := ⟨by decide, by decide, by decide⟩

theorem ml_default_valid : ValidCounts ML_DEFAULT 6 := ⟨by decide, by decide, by decide⟩

theorem rle_table_valid (symbol : Nat) : (rle_table symbol).Valid where
  log := by simp [rle_table]
  length := by rw [rle_table, List.length_cons, List.length_replicate]; rfl
  entry := by
    intro e he
    rcases List.mem_cons.mp he with rfl | he
    · simp [rle_table]
    · rw [List.eq_of_mem_replicate he]; simp [FseEntry.zero, rle_table]

/-- A mode that carries a valid table, if it carries one. -/
def Mode.Valid : Mode → Prop
  | .Fse t => t.Valid
  | _ => True

theorem parse_mode_safe {raw p max_log : Nat} {src : Bytes} (hlen : src.length < 2 ^ 60)
    (hp : p ≤ src.length) (h9 : max_log ≤ 9) :
    Safe (parse_mode raw src p max_log) fun r => r.1.Valid ∧ r.2 ≤ src.length := by
  rw [parse_mode]
  refine safe_ite (fun _ => Safe.ok ⟨trivial, hp⟩) fun _ => ?_
  refine safe_ite (fun _ => ?_) fun _ => ?_
  · refine safe_ite (fun _ => safe_fail) fun hlt => ?_
    rw [get_ok (by omega), bind_ok, add_ok (by omega), bind_ok]
    exact Safe.ok ⟨trivial, by simp only; omega⟩
  refine safe_ite (fun _ => ?_) fun _ => Safe.ok ⟨trivial, hp⟩
  rw [sliceFrom_ok hp, bind_ok]
  refine (read_ncount_safe _ (by rw [List.length_drop]; omega) (by omega)).bind fun nc hnc => ?_
  have hc := hnc.consumed
  have hge := hnc.ge_log
  have hle := hnc.log_le
  rw [List.length_drop] at hc
  rw [add_ok (by omega), bind_ok, build_dtable_ok (by rw [hnc.length]; exact hnc.symbol) rfl
    hnc.counts (by omega) (by omega), bind_ok]
  exact Safe.ok ⟨dtable_valid hnc.counts (by omega) (by omega), by simp only; omega⟩

/-- A channel's cached table, if there is one, is valid. -/
def CacheValid (cache : Option FseDecodeTable) : Prop := ∀ t ∈ cache, t.Valid

theorem resolve_table_safe {mode : Mode} {dist : List Int} {max_symbol log : Nat}
    {cache : Option FseDecodeTable} {name : String} (hm : mode.Valid) (hc : CacheValid cache)
    (hd : ValidCounts dist log) (hlen : dist.length = max_symbol + 1) (h4 : 4 ≤ log)
    (h9 : log ≤ 9) : Safe (resolve_table mode dist max_symbol log cache name)
      FseDecodeTable.Valid := by
  unfold resolve_table
  split
  · cases cache with
    | none => exact safe_fail
    | some t => exact Safe.ok (hc t rfl)
  · have htake : dist.take (max_symbol + 1) = dist := List.take_of_length_le (by omega)
    rw [build_dtable_ok (by omega) htake hd h4 h9]
    exact Safe.ok (dtable_valid hd h4 h9)
  · exact Safe.ok (rle_table_valid _)
  · exact Safe.ok hm

/-- The cached tables of the three channels are valid. -/
structure SeqTables.Valid (t : SeqTables) : Prop where
  ll : CacheValid t.ll
  of : CacheValid t.of
  ml : CacheValid t.ml

theorem SeqTables.default_valid : SeqTables.default.Valid :=
  ⟨fun _ h => by simp [SeqTables.default] at h, fun _ h => by simp [SeqTables.default] at h,
    fun _ h => by simp [SeqTables.default] at h⟩

theorem cacheValid_some {t : FseDecodeTable} (h : t.Valid) : CacheValid (some t) := fun t' ht' => by
  obtain rfl : t = t' := by simpa using ht'
  exact h

/-! ## Repeat offsets -/

/-- The copy offset of an offset value, and the repeat offsets after it. -/
def Reps.resolve (rep : Reps) (offset_value : Nat) (ll0 : Bool) : Nat × Reps :=
  if 3 < offset_value then (offset_value - 3, ⟨offset_value - 3, rep.r0, rep.r1⟩)
  else
    match offset_value - 1 + ll0.toNat with
    | 0 => (rep.r0, rep)
    | 1 => (rep.r1, ⟨rep.r1, rep.r0, rep.r2⟩)
    | 2 => (rep.r2, ⟨rep.r2, rep.r0, rep.r1⟩)
    | _ => (rep.r0 - 1, ⟨rep.r0 - 1, rep.r0, rep.r1⟩)

theorem resolve_offset_ok (rep : Reps) {offset_value : Nat} (h : 1 ≤ offset_value) (ll0 : Bool) :
    resolve_offset rep offset_value ll0 = .ok (rep.resolve offset_value ll0) := by
  have hb := Bool.toNat_le ll0
  rw [resolve_offset, Reps.resolve]
  split_ifs with h3
  · rw [sub_ok (by omega)]; rfl
  · rw [sub_ok h, bind_ok, add_ok (by omega), bind_ok]
    obtain h0 | h1 | h2 | h3 : offset_value - 1 + ll0.toNat = 0 ∨ offset_value - 1 + ll0.toNat = 1 ∨
        offset_value - 1 + ll0.toNat = 2 ∨ offset_value - 1 + ll0.toNat = 3 := by omega
    · rw [h0]; rfl
    · rw [h1]; rfl
    · rw [h2]; rfl
    · rw [h3]; rfl

/-! ## One sequence -/

theorem base_bits_le : (∀ c, c < 36 → LL_BASE.getD c 0 ≤ 2 ^ 16 ∧ LL_BITS.getD c 0 ≤ 16) ∧
    ∀ c, c < 53 → ML_BASE.getD c 0 ≤ 2 ^ 17 ∧ ML_BITS.getD c 0 ≤ 16 := by decide

theorem base_ge : (∀ c, c < 36 → (c = 0 ↔ LL_BASE.getD c 0 = 0)) ∧ LL_BITS.getD 0 0 = 0 ∧
    ∀ c, c < 53 → 3 ≤ ML_BASE.getD c 0 := by decide

/-- What every decoded triple satisfies. -/
structure Triple.Bounded (t : Triple) : Prop where
  offset : 1 ≤ t.offset_value
  lit_len : t.lit_len < 2 ^ 18
  match_len_ge : 3 ≤ t.match_len
  match_len : t.match_len < 2 ^ 18

/-- What `read_triple` needs of the codes of a sequence: the range check of the loop. -/
structure CodesInRange (ll_code ml_code of_code : Nat) : Prop where
  ll : ll_code < LL_BASE.length
  ml : ml_code < ML_BASE.length
  of : of_code ≤ 31

theorem get_eq_getD {l : List Nat} {i : Nat} (h : i < l.length) :
    (get l i : Res Nat) = .ok (l.getD i 0) := by
  rw [get_ok h, List.getD_eq_getElem _ _ h]

/-- The reader after a sequence's extra bits. -/
theorem read_triple_spec {ll_code ml_code of_code : Nat} {br : ReverseBitReader}
    (h : CodesInRange ll_code ml_code of_code) (hb : br.Valid) (hc : br.bits_consumed ≤ 2 ^ 30) :
    ∃ t br', read_triple ll_code ml_code of_code br = .ok (t, br') ∧ br'.src = br.src ∧
      br'.Valid ∧ br'.bits_consumed ≤ br.bits_consumed + 63 ∧ t.Bounded ∧
      (ll_code == 0) = (t.lit_len == 0) := by
  have hof := h.of
  have hll : ll_code < 36 := h.ll
  have hml : ml_code < 53 := h.ml
  obtain ⟨hlb, hln⟩ := base_bits_le.1 ll_code hll
  obtain ⟨hmb, hmn⟩ := base_bits_le.2 ml_code hml
  have hpow : 2 ^ of_code ≤ 2 ^ 31 := Nat.pow_le_pow_right (by omega) hof
  have hone : 1 ≤ 2 ^ of_code := Nat.one_le_two_pow
  obtain ⟨v₁, b₁, h₁, hlt₁, hs₁, hv₁, hc₁⟩ :=
    ReverseBitReader.read_lazy_valid hb (n := of_code) (by omega) (by omega)
  obtain ⟨v₂, b₂, h₂, hlt₂, hs₂, hv₂, hc₂⟩ :=
    ReverseBitReader.read_lazy_valid hv₁ (n := ML_BITS.getD ml_code 0) (by omega) (by omega)
  obtain ⟨v₃, b₃, h₃, hlt₃, hs₃, hv₃, hc₃⟩ :=
    ReverseBitReader.read_lazy_valid hv₂ (n := LL_BITS.getD ll_code 0) (by omega) (by omega)
  have hm16 : v₂ < 2 ^ 16 := lt_of_lt_of_le hlt₂ (Nat.pow_le_pow_right (by omega) hmn)
  have hl16 : v₃ < 2 ^ 16 := lt_of_lt_of_le hlt₃ (Nat.pow_le_pow_right (by omega) hln)
  have hm3 := base_ge.2.2 ml_code hml
  have hzero : (ll_code == 0) = (LL_BASE.getD ll_code 0 + v₃ == 0) := by
    have hbase := base_ge.1 ll_code hll
    by_cases hl0 : LL_BASE.getD ll_code 0 = 0
    · -- the only code with base zero is zero, which has no extra bits
      obtain rfl : ll_code = 0 := hbase.mpr hl0
      have hv0 : v₃ = 0 := by rw [base_ge.2.1] at hlt₃; omega
      rw [hv0]
      rfl
    · rw [beq_eq_false_iff_ne.mpr fun h => hl0 (hbase.mp h), beq_eq_false_iff_ne.mpr (by omega)]
  refine ⟨⟨LL_BASE.getD ll_code 0 + v₃, ML_BASE.getD ml_code 0 + v₂, 2 ^ of_code + v₁⟩, b₃, ?_,
    hs₃.trans (hs₂.trans hs₁), hv₃, by omega, ⟨?_, ?_, ?_, ?_⟩, hzero⟩
  rotate_left
  · show 1 ≤ 2 ^ of_code + v₁
    omega
  · show LL_BASE.getD ll_code 0 + v₃ < 2 ^ 18
    omega
  · show 3 ≤ ML_BASE.getD ml_code 0 + v₂
    omega
  · show ML_BASE.getD ml_code 0 + v₂ < 2 ^ 18
    omega
  rw [read_triple, shl_exact (by omega) (by omega), bind_ok, Nat.one_mul, h₁, bind_ok]
  dsimp only
  rw [add_ok (by omega), bind_ok, get_eq_getD h.ml, bind_ok,
    get_eq_getD (show ml_code < ML_BITS.length from h.ml), bind_ok, h₂, bind_ok]
  dsimp only
  rw [add_ok (by omega), bind_ok, get_eq_getD h.ll, bind_ok,
    get_eq_getD (show ll_code < LL_BITS.length from h.ll), bind_ok, h₃, bind_ok]
  dsimp only
  rw [add_ok (by omega)]
  rfl

/-- What the sequence loop keeps about its buffers. -/
structure ExecState.Inv (env : ExecEnv) (s : ExecState) : Prop where
  dict : env.dict_len ≤ s.out.length
  cap : env.dict_len + env.max_output < 2 ^ 64
  lits : s.lit_pos ≤ env.literals.length
  lits_len : env.literals.length < 2 ^ 63
  out : s.out.length < 2 ^ 64

/-- The room left under the ceiling. -/
def ExecState.room (env : ExecEnv) (s : ExecState) : Nat :=
  env.max_output - (s.out.length - env.dict_len)

theorem headroom_ok {dict_len max_output : Nat} {out : Bytes} (h : dict_len ≤ out.length) :
    headroom dict_len max_output out = .ok (max_output - (out.length - dict_len)) := by
  rw [headroom, sub_ok h]; rfl

/-- The state after a triple with copy offset `off`. -/
def ExecState.executed (env : ExecEnv) (s : ExecState) (t : Triple) (off : Nat) (rep : Reps) :
    ExecState :=
  let out := s.out ++ (env.literals.drop s.lit_pos).take t.lit_len
  { s with
    rep
    out := extendBack out off t.match_len
    lit_pos := s.lit_pos + t.lit_len
    matches_ := s.matches_ ++ [⟨out.length, off⟩] }

theorem length_literals {env : ExecEnv} {s : ExecState} (n : Nat)
    (h : s.lit_pos + n ≤ env.literals.length) :
    ((env.literals.drop s.lit_pos).take n).length = n := by
  rw [List.length_take, List.length_drop]; omega

/-- What keeps the arithmetic of a triple in range. -/
structure ExecState.Fits (env : ExecEnv) (s : ExecState) (t : Triple) : Prop where
  dict : env.dict_len ≤ s.out.length
  lits : s.lit_pos ≤ env.literals.length
  lits_len : env.literals.length < 2 ^ 63
  triple : t.Bounded
  out : t.lit_len + t.match_len ≤ s.room env → s.out.length + t.lit_len + t.match_len < 2 ^ 64

theorem ExecState.Inv.fits {env : ExecEnv} {s : ExecState} {t : Triple} (h : s.Inv env)
    (ht : t.Bounded) : s.Fits env t where
  dict := h.dict
  lits := h.lits
  lits_len := h.lits_len
  triple := ht
  out := by
    intro hroom
    have hcap := h.cap
    have hdict := h.dict
    have hout := h.out
    unfold ExecState.room at hroom
    omega

/-- `exec_triple` without its run-time checks. -/
theorem exec_triple_eq {env : ExecEnv} {s : ExecState} {t : Triple} (ll0 : Bool)
    (h : s.Fits env t) :
    exec_triple env ll0 t s =
      if (s.rep.resolve t.offset_value ll0).1 = 0 then
        fail (.Invalid "sequence offset" "zero offset")
      else if s.room env < t.lit_len + t.match_len then fail (.OutputTooLarge env.max_output)
      else if env.literals.length < s.lit_pos + t.lit_len then
        fail (.Invalid "sequence literals length"
          s!"want {t.lit_len} literals at {s.lit_pos} of {env.literals.length}")
      else if s.out.length + t.lit_len < (s.rep.resolve t.offset_value ll0).1 then
        fail (.OffsetTooLarge (s.rep.resolve t.offset_value ll0).1 (s.out.length + t.lit_len))
      else .ok (s.executed env t (s.rep.resolve t.offset_value ll0).1
        (s.rep.resolve t.offset_value ll0).2) := by
  have hdict := h.dict
  have hlits := h.lits
  have hlen := h.lits_len
  have hll := h.triple.lit_len
  have hml := h.triple.match_len
  have hhead : headroom env.dict_len env.max_output s.out = .ok (s.room env) := headroom_ok hdict
  rw [exec_triple, resolve_offset_ok _ h.triple.offset, bind_ok]
  dsimp only
  generalize s.rep.resolve t.offset_value ll0 = p
  split_ifs with h0 hroom hlit hoff
  · rfl
  · rw [add_ok (by omega), bind_ok, hhead, bind_ok, if_pos hroom]
  · rw [add_ok (by omega), bind_ok, hhead, bind_ok, if_neg hroom, add_ok (by omega),
      bind_ok, if_pos hlit]
  · have hl := length_literals (s := s) t.lit_len (show _ ≤ env.literals.length by omega)
    rw [add_ok (by omega), bind_ok, hhead, bind_ok, if_neg hroom, add_ok (by omega),
      bind_ok, if_neg hlit, slice_ok (by omega) (by omega), bind_ok, ← List.take_drop,
      List.length_append, hl, if_pos hoff]
  · have hl := length_literals (s := s) t.lit_len (show _ ≤ env.literals.length by omega)
    have hfit := h.out (Nat.le_of_not_lt hroom)
    rw [add_ok (by omega), bind_ok, hhead, bind_ok, if_neg hroom, add_ok (by omega),
      bind_ok, if_neg hlit, slice_ok (by omega) (by omega), bind_ok, ← List.take_drop,
      List.length_append, hl, if_neg hoff,
      copy_match_ok (by omega) (by rw [List.length_append, hl]; omega)
        (by rw [List.length_append, hl]; omega), bind_ok, pure_eq_ok, ExecState.executed]
    simp only [List.length_append, hl]

theorem length_executed {env : ExecEnv} {s : ExecState} (t : Triple) {off : Nat} (rep : Reps)
    (h0 : 0 < off) (hoff : off ≤ s.out.length + t.lit_len)
    (hlit : s.lit_pos + t.lit_len ≤ env.literals.length) :
    (s.executed env t off rep).out.length = s.out.length + t.lit_len + t.match_len := by
  have hl := length_literals _ hlit
  simp only [ExecState.executed]
  rw [length_extendBack h0 (by rw [List.length_append, hl]; exact hoff), List.length_append, hl]

theorem exec_triple_safe {env : ExecEnv} {s : ExecState} {t : Triple} (ll0 : Bool)
    (h : s.Inv env) (ht : t.Bounded) :
    Safe (exec_triple env ll0 t s) fun s' => s'.Inv env ∧ s'.br = s.br ∧ s.out <+: s'.out ∧
      s'.out.length ≤ max s.out.length (env.dict_len + env.max_output) := by
  have hdict := h.dict
  have hcap := h.cap
  have hout := h.out
  rw [exec_triple_eq ll0 (h.fits ht)]
  refine safe_ite (fun _ => safe_fail) fun h0 => safe_ite (fun _ => safe_fail) fun hroom =>
    safe_ite (fun _ => safe_fail) fun hlit => safe_ite (fun _ => safe_fail) fun hoff => ?_
  rw [ExecState.room] at hroom
  have hl := length_executed (s := s) t
    (s.rep.resolve t.offset_value ll0).2 (Nat.pos_of_ne_zero h0) (by omega)
    (show s.lit_pos + t.lit_len ≤ env.literals.length by omega)
  refine Safe.ok ⟨⟨by omega, hcap, Nat.le_of_not_lt hlit, h.lits_len, by omega⟩, rfl, ?_, by omega⟩
  exact (List.prefix_append _ _).trans (List.prefix_append _ _)

/-! ## The loop -/

/-- The tables of the loop are valid. -/
structure ExecEnv.Valid (env : ExecEnv) : Prop where
  ll : env.ll_table.Valid
  of : env.of_table.Valid
  ml : env.ml_table.Valid

/-- What a run of the loop from `s` to `s'` does to the output. -/
structure Extends (env : ExecEnv) (s s' : ExecState) : Prop where
  inv : s'.Inv env
  out : s.out <+: s'.out
  length : s'.out.length ≤ max s.out.length (env.dict_len + env.max_output)

theorem Extends.refl {env : ExecEnv} {s : ExecState} (h : s.Inv env) : Extends env s s :=
  ⟨h, List.prefix_rfl, le_max_left _ _⟩

theorem Extends.trans {env : ExecEnv} {s s' s'' : ExecState} (h : Extends env s s')
    (h' : Extends env s' s'') : Extends env s s'' :=
  ⟨h'.inv, h.out.trans h'.out, h'.length.trans (max_le h.length (le_max_right _ _))⟩

theorem exec_step_safe {env : ExecEnv} {s : ExecState} (more : Bool) (henv : env.Valid)
    (h : s.Inv env) (hb : s.br.Valid) (hc : s.br.bits_consumed ≤ 2 ^ 29) :
    Safe (exec_step env more s) fun s' => Extends env s s' ∧ s'.br.Valid ∧
      s'.br.bits_consumed ≤ s.br.bits_consumed + 90 := by
  obtain ⟨e_ll, hll, h₁⟩ := entry_spec henv.ll s.s_ll
  obtain ⟨e_ml, hml, h₂⟩ := entry_spec henv.ml s.s_ml
  obtain ⟨e_of, hof, h₃⟩ := entry_spec henv.of s.s_of
  rw [exec_step, h₁, bind_ok, h₂, bind_ok, h₃, bind_ok]
  refine safe_ite (fun _ => safe_fail) fun hrange => ?_
  have hcodes : CodesInRange e_ll.symbol e_ml.symbol e_of.symbol := by
    constructor <;> omega
  obtain ⟨t, b₁, h₄, hs₁, hv₁, hc₁, ht, -⟩ := read_triple_spec hcodes hb (by omega)
  rw [h₄, bind_ok]
  dsimp only
  have hinv : ExecState.Inv env { s with br := b₁ } := ⟨h.dict, h.cap, h.lits, h.lits_len, h.out⟩
  refine (exec_triple_safe (e_ll.symbol == 0) hinv ht).bind ?_
  rintro s₁ ⟨hi₁, hbr, hout, hlen⟩
  dsimp only at hbr hout hlen
  have hext : Extends env s s₁ := ⟨hi₁, hout, hlen⟩
  refine safe_ite (fun _ => ?_) fun _ => Safe.ok ⟨hext, by rw [hbr]; exact hv₁, by rw [hbr]; omega⟩
  have hnll := henv.ll.num_bits_le hll
  have hnml := henv.ml.num_bits_le hml
  have hnof := henv.of.num_bits_le hof
  rw [add_ok (by omega), bind_ok, add_ok (by omega), bind_ok, hbr]
  obtain ⟨b₂, h₅, hs₂, hv₂, hc₂⟩ := ReverseBitReader.ensure_spec
    (n := e_ll.num_bits + e_ml.num_bits + e_of.num_bits) hv₁ (by omega)
  obtain ⟨s_ll, b₃, h₆, hs₃, hv₃, hc₃⟩ := update_with_entry_spec henv.ll hll hv₂ (by omega)
  obtain ⟨s_ml, b₄, h₇, hs₄, hv₄, hc₄⟩ := update_with_entry_spec henv.ml hml hv₃ (by omega)
  obtain ⟨s_of, b₅, h₈, hs₅, hv₅, hc₅⟩ := update_with_entry_spec henv.of hof hv₄ (by omega)
  rw [h₅, bind_ok, h₆, bind_ok]
  dsimp only
  rw [h₇, bind_ok]
  dsimp only
  rw [h₈, bind_ok]
  have hi₂ : ExecState.Inv env { s₁ with br := b₅, s_ll, s_ml, s_of } :=
    ⟨hi₁.dict, hi₁.cap, hi₁.lits, hi₁.lits_len, hi₁.out⟩
  exact Safe.ok ⟨⟨hi₂, hout, hlen⟩, hv₅, by simp only; omega⟩

/-- The sequence loop never faults. -/
theorem exec_loop_safe {env : ExecEnv} (henv : env.Valid) :
    ∀ (n : Nat) (s : ExecState), s.Inv env → s.br.Valid → s.br.bits_consumed + 90 * n ≤ 2 ^ 29 →
      Safe (exec_loop env n s) fun s' => Extends env s s' := by
  intro n
  induction n with
  | zero => intro s h _ _; exact Safe.ok (Extends.refl h)
  | succ n ih =>
    intro s h hb hc
    rw [exec_loop]
    refine (exec_step_safe _ henv h hb (by omega)).bind ?_
    rintro s₁ ⟨hext, hb₁, hc₁⟩
    exact (ih s₁ hext.inv hb₁ (by omega)).mono fun s₂ h₂ => hext.trans h₂

theorem read_nb_seq_safe {src : Bytes} (h : src.length ≠ 0) :
    Safe (read_nb_seq src) fun p => p.1 < 2 ^ 17 ∧ p.2 ≤ src.length := by
  have hb0 := (src[0]).toNat_lt_256
  rw [read_nb_seq, get_ok (by omega), bind_ok]
  dsimp only
  refine safe_ite (fun _ => Safe.ok ⟨by simp only; omega, by simp only; omega⟩) fun _ => ?_
  refine safe_ite (fun _ => safe_ite (fun _ => safe_fail) fun h2 => ?_) fun _ =>
    safe_ite (fun _ => safe_fail) fun h3 => ?_
  · have hb1 := (src[1]).toNat_lt_256
    rw [get_ok (by omega), bind_ok, sub_ok (by omega), bind_ok]
    exact Safe.ok ⟨by simp only; omega, by simp only; omega⟩
  · have hb1 := (src[1]).toNat_lt_256
    have hb2 := (src[2]).toNat_lt_256
    rw [get_ok (by omega), bind_ok, get_ok (by omega), bind_ok]
    exact Safe.ok ⟨by simp only; omega, by simp only; omega⟩

/-- `decode_capped` in its three parts. -/
theorem decode_capped_eq (src literals out : Bytes) (tables : SeqTables) (rep : Reps)
    (dict_len max_output : Nat) :
    decode_capped src literals out tables rep dict_len max_output =
      sequences_plan src tables >>= fun plan =>
        match plan with
        | none => literals_only literals out tables rep dict_len max_output
        | some p => exec_loop (p.env literals dict_len max_output) p.nb_seq (p.start out rep) >>=
            trailing_literals (p.env literals dict_len max_output) p.tables := by
  rfl

/-- A plan whose loop can run. -/
structure Plan.Valid (p : Plan) : Prop where
  ll : p.ll_table.Valid
  of : p.of_table.Valid
  ml : p.ml_table.Valid
  nb_seq : p.nb_seq < 2 ^ 17
  br : p.br.Valid
  bits : p.br.bits_consumed ≤ 2 ^ 10

/-- A source whose first states can be read. -/
structure SeqSource.Valid (q : SeqSource) : Prop where
  ll : q.ll_table.Valid
  of : q.of_table.Valid
  ml : q.ml_table.Valid
  nb_seq : q.nb_seq < 2 ^ 17
  nonzero : q.nb_seq ≠ 0

theorem sequences_source_safe {src : Bytes} {tables : SeqTables} (ht : tables.Valid)
    (hsrc : src.length < 2 ^ 60) :
    Safe (sequences_source src tables) fun source => ∀ q ∈ source,
      q.Valid ∧ q.bitstream.length ≤ src.length := by
  rw [sequences_source]
  refine safe_ite (fun _ => safe_fail) fun h0 => ?_
  refine (read_nb_seq_safe h0).bind ?_
  rintro ⟨nb_seq, p⟩ ⟨hnb, hp⟩
  dsimp only at hnb hp ⊢
  refine safe_ite (fun _ => Safe.ok (by simp)) fun hnz => ?_
  refine safe_ite (fun _ => safe_fail) fun hp' => ?_
  rw [get_ok (by omega), bind_ok, add_ok (by omega), bind_ok]
  refine (parse_mode_safe hsrc (by omega) (by omega)).bind ?_
  rintro ⟨ll, p₁⟩ ⟨hll, hp₁⟩
  refine (parse_mode_safe hsrc hp₁ (by omega)).bind ?_
  rintro ⟨of, p₂⟩ ⟨hof, hp₂⟩
  refine (parse_mode_safe hsrc hp₂ (by omega)).bind ?_
  rintro ⟨ml, p₃⟩ ⟨hml, hp₃⟩
  refine (resolve_table_safe hll ht.ll ll_default_valid rfl (by omega) (by omega)).bind
    fun ll_table hllt => ?_
  refine (resolve_table_safe hof ht.of of_default_valid rfl (by omega) (by omega)).bind
    fun of_table hoft => ?_
  refine (resolve_table_safe hml ht.ml ml_default_valid rfl (by omega) (by omega)).bind
    fun ml_table hmlt => ?_
  rw [sliceFrom_ok hp₃, bind_ok]
  refine Safe.ok fun q hq => ?_
  obtain rfl := Option.mem_some.mp hq
  exact ⟨⟨hllt, hoft, hmlt, hnb, hnz⟩, by rw [List.length_drop]; omega⟩

theorem SeqSource.plan_safe {q : SeqSource} (h : q.Valid) (hlen : q.bitstream.length < 2 ^ 63) :
    Safe q.plan Plan.Valid := by
  rw [SeqSource.plan]
  refine (ReverseBitReader.new_safe hlen).bind ?_
  rintro b₀ ⟨-, hv₀, hc₀⟩
  obtain ⟨s_ll, b₁, h₁, -, hv₁, hc₁⟩ := init_spec h.ll hv₀ (by omega)
  obtain ⟨s_of, b₂, h₂, -, hv₂, hc₂⟩ := init_spec h.of hv₁ (by omega)
  obtain ⟨s_ml, b₃, h₃, -, hv₃, hc₃⟩ := init_spec h.ml hv₂ (by omega)
  rw [h₁, bind_ok]
  dsimp only
  rw [h₂, bind_ok]
  dsimp only
  rw [h₃, bind_ok]
  exact Safe.ok ⟨h.ll, h.of, h.ml, h.nb_seq, hv₃, by simp only; omega⟩

theorem sequences_plan_safe {src : Bytes} {tables : SeqTables} (ht : tables.Valid)
    (hsrc : src.length < 2 ^ 60) :
    Safe (sequences_plan src tables) fun plan => ∀ p ∈ plan, p.Valid := by
  rw [sequences_plan]
  refine (sequences_source_safe ht hsrc).bind fun source hsource => ?_
  cases source with
  | none => exact Safe.ok (by simp)
  | some q =>
    obtain ⟨hq, hlen⟩ := hsource q rfl
    refine (q.plan_safe hq (by omega)).bind fun p hp => Safe.ok fun p' hp' => ?_
    rw [← Option.mem_some.mp hp']
    exact hp

/-- `decode_capped` never faults. It appends to the output within its ceiling and keeps the cached
tables valid. -/
theorem decode_capped_safe {src literals out : Bytes} {tables : SeqTables} {rep : Reps}
    {dict_len max_output : Nat} (ht : tables.Valid) (hsrc : src.length < 2 ^ 60)
    (hlits : literals.length < 2 ^ 63) (hdict : dict_len ≤ out.length) (hout : out.length < 2 ^ 64)
    (hcap : dict_len + max_output < 2 ^ 64) :
    Safe (decode_capped src literals out tables rep dict_len max_output) fun r =>
      out <+: r.out ∧ r.out.length ≤ max out.length (dict_len + max_output) ∧ r.tables.Valid := by
  rw [decode_capped_eq]
  refine (sequences_plan_safe ht hsrc).bind fun plan hplan => ?_
  cases plan with
  | none =>
    dsimp only
    rw [literals_only, headroom_ok hdict, bind_ok]
    refine safe_ite (fun _ => safe_fail) fun hroom => ?_
    exact Safe.ok ⟨List.prefix_append _ _, by simp only [List.length_append]; omega, ht⟩
  | some p =>
    have hp := hplan p rfl
    have hnb := hp.nb_seq
    have hbits := hp.bits
    refine (exec_loop_safe ⟨hp.ll, hp.of, hp.ml⟩ p.nb_seq _
      ⟨hdict, hcap, Nat.zero_le _, hlits, hout⟩ hp.br (by simp only [Plan.start]; omega)).bind ?_
    rintro s ⟨hinv, hpre, hlen⟩
    have hl := hinv.lits
    have hd := hinv.dict
    rw [trailing_literals, sub_ok hl, bind_ok, headroom_ok hd, bind_ok]
    simp only [Plan.env, Plan.start] at hl hd hpre hlen ⊢
    refine safe_ite (fun _ => safe_fail) fun hroom => ?_
    rw [sliceFrom_ok hl, bind_ok]
    refine Safe.ok ⟨hpre.trans (List.prefix_append _ _), ?_, cacheValid_some hp.ll,
      cacheValid_some hp.of, cacheValid_some hp.ml⟩
    simp only [List.length_append, List.length_drop]
    omega

end ZstdPure.Sequences
