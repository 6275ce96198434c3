import ZstdPure.Proofs.ParseProofs

/-!
# Proofs: the single-slot finders

Their tables hold earlier positions, and each match is measured before it is emitted.
-/

namespace ZstdPure.Encode

open Sequences

/-! ## `MatchState` -/

namespace MatchState

section

variable {data : Bytes} {start stop p max_offset : Nat} {rep : Reps} {st : MatchState}

/-- The table holds positions below `p` only. -/
def Before (st : MatchState) (p : Nat) : Prop := TableBefore st.table p

theorem Before.mono (h : st.Before p) {q : Nat} (hpq : p ≤ q) : st.Before q :=
    TableBefore.mono h hpq

theorem Before.new (hash_log p : Nat) : (new hash_log).Before p := TableBefore.empty _ p

theorem Before.reduce (h : st.Before p) (drop : Nat) :
    (st.reduce_index asI32 drop).Before (p - drop) := TableBefore.reduce h drop

theorem Before.insert (h : st.Before p) (data : Bytes) : (st.insert asI32 data p).Before (p + 1) :=
  TableBefore.store h _

/-- Indexing consecutive positions. -/
theorem Before.inserts (h : st.Before p) (data : Bytes) (n : Nat) :
    ((List.range' p n).foldl (MatchState.insert asI32 data) st).Before (p + n) :=
  inserts_upto (fun _ _ _ _ h => h.insert data) h

/-- The loop of `parse_block`. -/
structure LoopInv (data : Bytes) (start stop : Nat) (rep : Reps) (s : Loop) : Prop where
  parses : s.out.Parses data start rep s.anchor
  anchor : s.anchor ≤ s.p
  inside : s.p ≤ stop
  before : s.state.Before s.p

theorem parse_step_inv (hstop : stop ≤ data.length) (hfield : stop - start < 2 ^ 32)
    (hreach : min max_offset data.length < 2 ^ 32) {s : Loop}
    (h : LoopInv data start stop rep s) (hp : s.p + MIN_MATCH ≤ stop) :
    LoopInv data start stop rep (parse_step asI32 data stop max_offset s) ∧
      s.p < (parse_step asI32 data stop max_offset s).p := by
  obtain ⟨hparses, hanchor, hinside, hbefore⟩ := h
  have hmin : MIN_MATCH = 4 := rfl
  have hstart := hparses.replays.le
  have hnext := hbefore.insert data
  unfold parse_step
  dsimp only
  generalize slot s.state.table (s.state.hash data s.p) = cand
  split_ifs with hmatch
  · obtain ⟨_, hnear, hback, hword⟩ := hmatch
    have hc : cand.toNat < s.p := by omega
    have hlong := common_len_long hc (by omega) hstop hword
    obtain ⟨hreal, hin⟩ := common_len_real hc hinside hstop
    have hpush := hparses.push hanchor hlong (by omega) (by omega) (by omega) hreal
    refine ⟨⟨hpush, le_refl _, hin, ?_⟩, by show s.p < s.p + _; omega⟩
    exact (hnext.inserts data _).mono (by show _ ≤ s.p + common_len data cand.toNat s.p stop; omega)
  · exact ⟨⟨hparses, Nat.le_succ_of_le hanchor, by show s.p + 1 ≤ stop; omega, hnext⟩,
      Nat.lt_succ_self _⟩

/-- A parse over a table of earlier positions is valid, and leaves such a table. -/
theorem parse_block_valid (h : st.Before start) (hrange : start ≤ stop) (hstop : stop ≤ data.length)
    (hfield : stop - start < 2 ^ 32) (hreach : min max_offset data.length < 2 ^ 32)
    (hrep : Fits32 rep) :
    ValidParse data start stop rep (parse_block asI32 data start stop max_offset rep st).1 ∧
      (parse_block asI32 data start stop max_offset rep st).2.Before stop := by
  have hmin : MIN_MATCH = 4 := rfl
  unfold parse_block
  split_ifs with hshort
  · exact ⟨literal_parse_valid hrange rep, h.mono hrange⟩
  · have hinit : LoopInv data start stop rep ⟨st, start, start, ⟨[], [], rep⟩⟩ :=
      ⟨ParseOut.parses_start data start hrep, le_refl _, hrange, h⟩
    obtain ⟨hinv, _⟩ := @While.iterate_upto _ _ (LoopInv data start stop rep) Loop.p
      (stop - MIN_MATCH) _
      (fun s hs => hs.inside)
      (fun s hs hp => @parse_step_inv data start stop max_offset rep hstop hfield hreach s hs
        (by omega)) _ _
      hinit (show stop ≤ start + (stop - start) by omega)
    exact ⟨hinv.parses.finish (hinv.anchor.trans hinv.inside), hinv.before.mono hinv.inside⟩

end

end MatchState

/-! ## `DFastState` -/

namespace DFastState

section

variable {data : Bytes} {start stop p max_offset : Nat} {rep : Reps} {st : DFastState}

/-- Both tables hold positions below `p` only. -/
structure Before (st : DFastState) (p : Nat) : Prop where
  long : TableBefore st.long p
  short : TableBefore st.short p

theorem Before.mono (h : st.Before p) {q : Nat} (hpq : p ≤ q) : st.Before q :=
  ⟨h.long.mono hpq, h.short.mono hpq⟩

theorem Before.new (long_log short_log p : Nat) : (new long_log short_log).Before p :=
  ⟨TableBefore.empty _ p, TableBefore.empty _ p⟩

theorem Before.reduce (h : st.Before p) (drop : Nat) : (st.reduce_index asI32 drop).Before
    (p - drop) :=
  ⟨h.long.reduce drop, h.short.reduce drop⟩

theorem Before.insert (h : st.Before p) (data : Bytes) (stop : Nat) :
    (st.insert asI32 data stop p).Before (p + 1) := by
  unfold DFastState.insert
  dsimp only
  split_ifs
  · exact ⟨h.long.store _, h.short.store _⟩
  · exact ⟨h.long.mono (Nat.le_succ p), h.short.store _⟩

/-- Indexing consecutive positions. -/
theorem Before.inserts (h : st.Before p) (data : Bytes) (stop n : Nat) :
    ((List.range' p n).foldl (DFastState.insert asI32 data stop) st).Before (p + n) :=
  inserts_upto (fun _ _ _ _ h => h.insert data stop) h

/-- A candidate that is better than a good match is one. -/
theorem better_good (hp : p ≤ stop) (hstop : stop ≤ data.length)
    (hreach : min max_offset data.length < 2 ^ 32) {best : Nat × Nat} {cand : Int}
    (hbest : GoodMatch data p stop best) (hcand : cand < p) :
    GoodMatch data p stop (better data p stop max_offset best cand) := by
  unfold better
  dsimp only
  split_ifs with hmatch
  · exact common_len_good (by omega) hp hstop (by omega)
  · exact hbest
  · exact hbest

theorem best_match_good (h : st.Before p) (hp : p ≤ stop) (hstop : stop ≤ data.length)
    (hreach : min max_offset data.length < 2 ^ 32) (hrep : Fits32 rep) (ll0 : Bool) :
    GoodMatch data p stop (st.best_match data p stop max_offset rep ll0) := by
  have hlong : st.cand_long data p stop < p := by
    unfold cand_long
    split_ifs
    · exact h.long _
    · omega
  have hfound := @better_good data stop p max_offset hp hstop hreach _ _
    (@better_good data stop p max_offset hp hstop hreach (MIN_MATCH - 1, 0) _
      (goodMatch_short (by decide)) hlong)
    (h.short (hash4 (short_value data p stop) st.short_log))
  unfold best_match
  dsimp only
  split_ifs
  · exact rep_match_at_good hrep hp hstop ll0
  · exact hfound

/-- The loop of `dfast_parse_block`. -/
structure LoopInv (data : Bytes) (start stop : Nat) (rep : Reps) (s : Loop) : Prop where
  parses : s.out.Parses data start rep s.anchor
  anchor : s.anchor ≤ s.p
  inside : s.p ≤ stop
  before : s.state.Before s.p

theorem parse_step_inv (hstop : stop ≤ data.length) (hfield : stop - start < 2 ^ 32)
    (hreach : min max_offset data.length < 2 ^ 32) {s : Loop}
    (h : LoopInv data start stop rep s) (hp : s.p + MIN_MATCH ≤ stop) :
    LoopInv data start stop rep (parse_step asI32 data stop max_offset s) ∧
      s.p < (parse_step asI32 data stop max_offset s).p := by
  obtain ⟨hparses, hanchor, hinside, hbefore⟩ := h
  have hmin : MIN_MATCH = 4 := rfl
  have hstart := hparses.replays.le
  have hgood := best_match_good hbefore hinside hstop hreach hparses.fits (s.p == s.anchor)
  have hnext := hbefore.insert data stop
  unfold parse_step
  dsimp only
  generalize s.state.best_match data s.p stop max_offset s.out.rep (s.p == s.anchor) =
    best at hgood ⊢
  split_ifs with hlong
  · obtain ⟨hreal, hin, hoff⟩ := hgood hlong
    have hpush := hparses.push hanchor hlong (by omega) (by omega) hoff hreal
    refine ⟨⟨hpush, le_refl _, hin, ?_⟩, by show s.p < s.p + _; omega⟩
    exact (hnext.inserts data stop _).mono (by show _ ≤ s.p + best.1; omega)
  · exact ⟨⟨hparses, Nat.le_succ_of_le hanchor, by show s.p + 1 ≤ stop; omega, hnext⟩,
      Nat.lt_succ_self _⟩

/-- A parse over tables of earlier positions is valid, and leaves such tables. -/
theorem dfast_parse_block_valid (h : st.Before start) (hrange : start ≤ stop)
    (hstop : stop ≤ data.length) (hfield : stop - start < 2 ^ 32)
    (hreach : min max_offset data.length < 2 ^ 32) (hrep : Fits32 rep) :
    ValidParse data start stop rep (dfast_parse_block asI32 data start stop max_offset rep st).1 ∧
      (dfast_parse_block asI32 data start stop max_offset rep st).2.Before stop := by
  have hmin : MIN_MATCH = 4 := rfl
  unfold dfast_parse_block
  split_ifs with hshort
  · exact ⟨literal_parse_valid hrange rep, h.mono hrange⟩
  · have hinit : LoopInv data start stop rep ⟨st, start, start, ⟨[], [], rep⟩⟩ :=
      ⟨ParseOut.parses_start data start hrep, le_refl _, hrange, h⟩
    obtain ⟨hinv, _⟩ := @While.iterate_upto _ _ (LoopInv data start stop rep) Loop.p
      (stop - MIN_MATCH) _
      (fun s hs => hs.inside)
      (fun s hs hp => @parse_step_inv data start stop max_offset rep hstop hfield hreach s hs
        (by omega)) _ _
      hinit (show stop ≤ start + (stop - start) by omega)
    exact ⟨hinv.parses.finish (hinv.anchor.trans hinv.inside), hinv.before.mono hinv.inside⟩

end

end DFastState

end ZstdPure.Encode
