import ZstdPure.Proofs.TreeRunProofs
import ZstdPure.Proofs.WindowProofs

/-!
# Proofs: the single-slot finders on a window that slid

A slide drops the bytes before some position and moves what the tables hold. What a parse reads is
the same bytes at the same distances, and the positions that are erased are beyond its reach.
-/

namespace ZstdPure.Encode

open Sequences

/-- Positions stored as they are, whatever their size. -/
def unbounded (p : Nat) : Int := p

/-- The first `drop` bytes are gone: they are further back than the window from `start` on, and the
positions up to `stop`, which are counted from the end of the dropped bytes, are stored in full. -/
structure Slid (cast : Nat → Int) (drop window start stop : Nat) : Prop where
  le : drop ≤ start
  far : drop = 0 ∨ drop + window ≤ start
  cast : ∀ p, p < stop - drop → cast p = p

/-! ## Bytes -/

section Bytes

variable {data : Bytes} {drop a b p stop : Nat}

theorem byte_at_slid (h : drop ≤ p) (k : Nat) :
    byte_at (data.drop drop) (p - drop + k) = byte_at data (p + k) := by
  rw [byte_at_drop, show drop + (p - drop + k) = p + k by omega]

theorem read_u64_slid (h : drop ≤ p) : read_u64 (data.drop drop) (p - drop) = read_u64 data p := by
  unfold read_u64
  rw [List.drop_drop, Nat.add_sub_cancel' h]

theorem range_of_slid (ha : drop ≤ a) :
    range_of (data.drop drop) (a - drop) (b - drop) = range_of data a b := by
  unfold range_of
  rw [← List.drop_take, List.drop_drop, Nat.add_sub_cancel' ha]

theorem common_tail_slid (ha : drop ≤ a) (hb : drop ≤ b) (max i : Nat) :
    common_tail (data.drop drop) (a - drop) (b - drop) max i = common_tail data a b max i := by
  induction i using common_tail.induct data a b max with
  | case1 i hc ih => rw [common_tail, byte_at_slid ha, byte_at_slid hb, if_pos hc, ih, eq_comm,
      common_tail, if_pos hc]
  | case2 i hc => rw [common_tail, byte_at_slid ha, byte_at_slid hb, if_neg hc, eq_comm,
      common_tail, if_neg hc]

theorem common_words_slid (ha : drop ≤ a) (hb : drop ≤ b) (max i : Nat) :
    common_words (data.drop drop) (a - drop) (b - drop) max i = common_words data a b max i := by
  have hword : ∀ {q : Nat}, drop ≤ q → ∀ j, read_u64 (data.drop drop) (q - drop + j) =
      read_u64 data (q + j) := by
    intro q hq j
    rw [← Nat.sub_add_comm hq, read_u64_slid (by omega)]
  induction i using common_words.induct data a b max with
  | case1 i hin x hx =>
    rw [common_words, if_pos hin, eq_comm, common_words, if_pos hin]
    dsimp only
    rw [hword ha, hword hb]
    rw [if_pos hx, if_pos hx]
  | case2 i hin x hx ih =>
    rw [common_words, if_pos hin, eq_comm, common_words, if_pos hin]
    dsimp only
    rw [hword ha, hword hb, if_neg hx, if_neg hx, ih]
  | case3 i hin =>
    rw [common_words, if_neg hin, common_tail_slid ha hb, eq_comm, common_words, if_neg hin]

theorem common_len_slid (ha : drop ≤ a) (hb : drop ≤ b) :
    common_len (data.drop drop) (a - drop) (b - drop) (stop - drop) = common_len data a b stop := by
  unfold common_len
  rw [show stop - drop - (b - drop) = stop - b by omega, common_words_slid ha hb]

theorem common_len_slid_add (ha : drop ≤ a) (hb : drop ≤ b) (k : Nat) :
    common_len (data.drop drop) (a - drop + k) (b - drop + k) (stop - drop) =
      common_len data (a + k) (b + k) stop := by
  rw [← Nat.sub_add_comm ha, ← Nat.sub_add_comm hb, common_len_slid (by omega) (by omega)]

end Bytes

/-! ## Tables -/

section Tables

variable {drop : Nat}

/-- A position that is kept follows the slide, and nothing else counts as a position after it. -/
theorem slid_entry_cases (drop : Nat) (e : Int) :
    (0 ≤ e ∧ drop ≤ e.toNat ∧ reduce_index_entry unbounded drop e = (e.toNat - drop : Nat)) ∨
      reduce_index_entry unbounded drop e < 0 ∧ (0 ≤ e → e.toNat < drop) := by
  unfold reduce_index_entry
  split_ifs with hneg hle
  · exact Or.inr ⟨hneg, fun h => absurd h (not_le_of_gt hneg)⟩
  · exact Or.inl ⟨Int.not_lt.mp hneg, hle, rfl⟩
  · exact Or.inr ⟨by decide, fun _ => Nat.lt_of_not_le hle⟩

/-- A position is stored after the slide where it would have been before. -/
theorem set_slid {cast : Nat → Int} {p : Nat} (hp : drop ≤ p)
    (hcast : cast (p - drop) = (p - drop : Nat)) (table : List Int) (h : Nat) :
    (reduce_index_table unbounded drop table).set h (cast (p - drop)) =
      reduce_index_table unbounded drop (table.set h (unbounded p)) := by
  have hentry : reduce_index_entry unbounded drop (unbounded p) = cast (p - drop) := by
    have hpos : ¬ unbounded p < 0 := not_lt_of_ge (Int.natCast_nonneg p)
    rw [hcast, reduce_index_entry, if_neg hpos]
    exact if_pos hp
  unfold reduce_index_table
  rw [List.map_set, hentry]

/-- What a search within the window sees of a candidate: the same position, or nothing. -/
theorem Slid.candidate {cast : Nat → Int} {window start stop max_offset p : Nat}
    (h : Slid cast drop window start stop) (hmax : max_offset ≤ window) (hp : start ≤ p)
    (cand : Int) :
    (0 ≤ cand ∧ p - cand.toNat ≤ max_offset ∧ drop ≤ cand.toNat ∧
        reduce_index_entry unbounded drop cand = (cand.toNat - drop : Nat)) ∨
      ¬(0 ≤ cand ∧ p - cand.toNat ≤ max_offset) ∧
        ¬(0 ≤ reduce_index_entry unbounded drop cand ∧
          p - drop - (reduce_index_entry unbounded drop cand).toNat ≤ max_offset) := by
  have hfar := h.far
  have hle := h.le
  rcases slid_entry_cases drop cand with ⟨hpos, hdrop, hentry⟩ | ⟨hneg, hold⟩
  · by_cases hoff : p - cand.toNat ≤ max_offset
    · exact Or.inl ⟨hpos, hoff, hdrop, hentry⟩
    · refine Or.inr ⟨fun hm => hoff hm.2, ?_⟩
      rw [hentry, Int.toNat_natCast]
      omega
  · refine Or.inr ⟨?_, fun hm => absurd hm.1 (not_le_of_gt hneg)⟩
    rintro ⟨hpos, hoff⟩
    have hlt := hold hpos
    rcases hfar with rfl | hfar <;> omega

/-- Positions that are indexed one after the other. -/
theorem foldl_range'_slid {σ τ : Type} {f : σ → Nat → σ} {g : τ → Nat → τ} {slide : σ → τ}
    {start stop : Nat} (hdrop : drop ≤ start) (Ok : σ → Prop) (hkeep : ∀ s p, Ok s → Ok (f s p))
    (hstep : ∀ s p, Ok s → start ≤ p → p < stop → g (slide s) (p - drop) = slide (f s p)) :
    ∀ (n p : Nat) (s : σ), Ok s → start ≤ p → p + n ≤ stop →
      (List.range' (p - drop) n).foldl g (slide s) = slide ((List.range' p n).foldl f s) := by
  intro n
  induction n with
  | zero => exact fun _ _ _ _ _ => rfl
  | succ n ih =>
    intro p s hs hstart hstop
    rw [List.range'_succ, List.range'_succ, List.foldl_cons, List.foldl_cons,
      hstep s p hs hstart (by omega), ← Nat.sub_add_comm (hdrop.trans hstart)]
    exact ih (p + 1) (f s p) (hkeep s p hs) (by omega) (by omega)

end Tables

/-! ## The parse in progress -/

section Parsing

variable {data : Bytes} {drop anchor p stop : Nat}

theorem ParseOut.push_slid (out : ParseOut) (ha : drop ≤ anchor) (ml off : Nat) :
    out.push (data.drop drop) (anchor - drop) (p - drop) ml off =
      out.push data anchor p ml off := by
  unfold ParseOut.push
  rw [range_of_slid ha, show p - drop - (anchor - drop) = p - anchor by omega]

theorem ParseOut.finish_slid (out : ParseOut) (ha : drop ≤ anchor) :
    out.finish (data.drop drop) (anchor - drop) (stop - drop) = out.finish data anchor stop := by
  unfold ParseOut.finish
  rw [range_of_slid ha]

theorem literal_parse_slid (ha : drop ≤ anchor) (rep : Reps) :
    literal_parse (data.drop drop) (anchor - drop) (stop - drop) rep =
      literal_parse data anchor stop rep := by
  unfold literal_parse
  rw [range_of_slid ha]

/-- A distance within the window does not lead before the bytes that are left. -/
theorem rep_match_at_slid {cast : Nat → Int} {window start : Nat}
    (h : Slid cast drop window start stop) (hp : start ≤ p) {rep : Reps} (hrep : Within window rep)
    (ll0 : Bool) :
    rep_match_at (data.drop drop) (p - drop) (stop - drop) rep ll0 =
      rep_match_at data p stop rep ll0 := by
  have hoff := hrep.repeat_offset 1 ll0
  have hle := h.le
  unfold rep_match_at
  dsimp only
  generalize rep_resolved_offset rep 1 ll0 = off at hoff ⊢
  have hback : (off = 0 ∨ p - drop < off) ↔ (off = 0 ∨ p < off) := by
    rcases h.far with rfl | hfar <;> omega
  by_cases hnone : off = 0 ∨ p < off
  · rw [if_pos (hback.mpr hnone), if_pos hnone]
  · have hreach : drop ≤ p - off := by
      rcases h.far with rfl | hfar <;> omega
    rw [if_neg fun hs => hnone (hback.mp hs), if_neg hnone, show p - drop - off = p - off -
      drop by omega,
      common_len_slid hreach (by omega)]

end Parsing

/-! ## `MatchState` -/

namespace MatchState

section Slide

variable {cast : Nat → Int} {data : Bytes} {drop window start stop max_offset : Nat}

/-- The loop of `parse_block` after a slide. -/
def Loop.slide (drop : Nat) (s : Loop) : Loop :=
  ⟨s.state.reduce_index unbounded drop, s.anchor - drop, s.p - drop, s.out⟩

theorem hash_slid (st : MatchState) {p : Nat} (hp : drop ≤ p) :
    (st.reduce_index unbounded drop).hash (data.drop drop) (p - drop) = st.hash data p := by
  unfold hash
  rw [BtState.read_u32_drop hp]
  rfl

theorem insert_slid (h : Slid cast drop window start stop) (st : MatchState) {p : Nat}
    (hp : start ≤ p) (hstop : p < stop) :
    insert cast (data.drop drop) (st.reduce_index unbounded drop) (p - drop) =
      (insert unbounded data st p).reduce_index unbounded drop := by
  have hdrop := h.le.trans hp
  have hset := set_slid hdrop (h.cast (p - drop) (by omega)) st.table (st.hash data p)
  unfold insert
  rw [hash_slid st hdrop]
  exact congrArg (fun t => (⟨t, st.hash_log⟩ : MatchState)) hset

theorem parse_step_slid (h : Slid cast drop window start stop) (hmax : max_offset ≤ window)
    {s : Loop} (ha : start ≤ s.anchor) (hp : start ≤ s.p) (hlim : s.p + MIN_MATCH ≤ stop) :
    parse_step cast (data.drop drop) (stop - drop) max_offset (s.slide drop) =
      (parse_step unbounded data stop max_offset s).slide drop := by
  obtain ⟨st, anchor, p, out⟩ := s
  dsimp only at ha hp hlim
  have hmin : MIN_MATCH = 4 := rfl
  have hle := h.le
  have hhash := @hash_slid data drop st p (by omega)
  have hins := @insert_slid cast data drop window start stop h st p hp (by omega)
  have hslot := slot_reduce unbounded drop st.table (st.hash data p)
  have hcand := h.candidate hmax hp (slot st.table (st.hash data p))
  show parse_step cast (data.drop drop) (stop - drop) max_offset
    ⟨st.reduce_index unbounded drop, anchor - drop, p - drop, out⟩ = _
  unfold parse_step
  dsimp only
  rw [hhash, hins, show slot (st.reduce_index unbounded drop).table (st.hash data p) = _ from hslot]
  generalize slot st.table (st.hash data p) = cand at hcand ⊢
  rcases hcand with ⟨hpos, hoff, hdrop, hentry⟩ | ⟨hbig, hsmall⟩
  · -- the candidate is still there, at the same distance
    rw [hentry, Int.toNat_natCast, BtState.read_u32_drop hdrop, BtState.read_u32_drop (by omega),
      common_len_slid hdrop (by omega),
      show p - drop - (cand.toNat - drop) = p - cand.toNat by omega]
    by_cases hmatch : 1 ≤ p - cand.toNat ∧ read_u32 data cand.toNat = read_u32 data p
    · rw [if_pos ⟨Int.natCast_nonneg _, hoff, hmatch⟩, if_pos ⟨hpos, hoff, hmatch⟩]
      generalize common_len data cand.toNat p stop = ml
      have hinner := @foldl_range'_slid drop _ _ (insert unbounded data)
        (insert cast (data.drop drop)) (reduce_index unbounded drop) start stop hle (fun _ => True)
        (fun _ _ _ => trivial) (fun s q _ hq hq' => insert_slid h s hq hq')
        (min (p + ml) (stop - MIN_MATCH + 1) - (p + 1)) (p + 1) (insert unbounded data st p) trivial
        (by omega) (by omega)
      rw [out.push_slid (by omega), show p - drop + 1 = p + 1 - drop by omega,
        show min (p - drop + ml) (stop - drop - MIN_MATCH + 1) - (p + 1 - drop) =
          min (p + ml) (stop - MIN_MATCH + 1) - (p + 1) by omega, hinner, Loop.slide,
        Nat.sub_add_comm (by omega : drop ≤ p)]
    · rw [if_neg fun hm => hmatch hm.2.2, if_neg fun hm => hmatch hm.2.2, Loop.slide,
        Nat.sub_add_comm (by omega : drop ≤ p)]
  · rw [if_neg fun hm => hsmall ⟨hm.1, hm.2.1⟩, if_neg fun hm => hbig ⟨hm.1, hm.2.1⟩, Loop.slide,
      Nat.sub_add_comm (by omega : drop ≤ p)]

/-- The positions of the loop of `parse_block` stay past the start. -/
theorem parse_step_ge {cast : Nat → Int} {s : Loop} (ha : start ≤ s.anchor) (hp : start ≤ s.p) :
    start ≤ (parse_step cast data stop max_offset s).anchor ∧
      start ≤ (parse_step cast data stop max_offset s).p := by
  unfold parse_step
  dsimp only
  split_ifs
  · exact ⟨Nat.le_add_right_of_le hp, Nat.le_add_right_of_le hp⟩
  · exact ⟨ha, Nat.le_succ_of_le hp⟩

theorem parse_block_slid (h : Slid cast drop window start stop) (hmax : max_offset ≤ window)
    (rep : Reps) (st : MatchState) :
    parse_block cast (data.drop drop) (start - drop) (stop - drop) max_offset rep
        (st.reduce_index unbounded drop) =
      ((parse_block unbounded data start stop max_offset rep st).1,
        (parse_block unbounded data start stop max_offset rep st).2.reduce_index unbounded
          drop) := by
  have hmin : MIN_MATCH = 4 := rfl
  have hle := h.le
  unfold parse_block
  by_cases hshort : stop < start + MIN_MATCH + 1
  · rw [if_pos hshort, if_pos (by omega), literal_parse_slid hle]
  · rw [if_neg hshort, if_neg (by omega)]
    have hloop := @While.iterate_map Loop Loop
      (fun s => decide (s.p ≤ stop - MIN_MATCH)) (parse_step unbounded data stop max_offset)
      (fun s => decide (s.p ≤ stop - drop - MIN_MATCH))
      (parse_step cast (data.drop drop) (stop - drop) max_offset) (Loop.slide drop)
      (fun s => start ≤ s.anchor ∧ start ≤ s.p)
      (fun s hs => decide_eq_decide.mpr (by
        show s.p - drop ≤ _ ↔ _
        omega))
      (fun s hs hc => by
        have hlim := of_decide_eq_true hc
        exact ⟨parse_step_ge hs.1 hs.2, parse_step_slid h hmax hs.1 hs.2 (by omega)⟩)
      (stop - start) ⟨st, start, start, ⟨[], [], rep⟩⟩ ⟨le_refl _, le_refl _⟩
    have hn : stop - drop - (start - drop) = stop - start := by omega
    obtain ⟨⟨ha, -⟩, heq⟩ := hloop
    rw [Loop.slide] at heq
    dsimp only
    rw [hn, heq]
    exact congrArg (Prod.mk · _) (ParseOut.finish_slid _ (by omega))

end Slide

end MatchState

/-! ## `DFastState` -/

namespace DFastState

section Slide

variable {cast : Nat → Int} {data : Bytes} {drop window start stop max_offset p : Nat}

/-- The loop of `dfast_parse_block` after a slide. -/
def Loop.slide (drop : Nat) (s : Loop) : Loop :=
  ⟨s.state.reduce_index unbounded drop, s.anchor - drop, s.p - drop, s.out⟩

theorem eight_left_slid (hp : drop ≤ p) : p - drop + 8 ≤ stop - drop ↔ p + 8 ≤ stop := by omega

theorem short_value_slid (hp : drop ≤ p) :
    short_value (data.drop drop) (p - drop) (stop - drop) = short_value data p stop := by
  unfold short_value
  by_cases h8 : p + 8 ≤ stop
  · rw [if_pos h8, if_pos ((eight_left_slid hp).mpr h8), read_u64_slid hp]
  · rw [if_neg h8, if_neg fun h => h8 ((eight_left_slid hp).mp h), BtState.read_u32_drop hp]

theorem insert_slid (h : Slid cast drop window start stop) (st : DFastState) (hp : start ≤ p)
    (hstop : p < stop) :
    insert cast (data.drop drop) (stop - drop) (st.reduce_index unbounded drop) (p - drop) =
      (insert unbounded data stop st p).reduce_index unbounded drop := by
  have hdrop := h.le.trans hp
  have hset := @set_slid drop cast p hdrop (h.cast (p - drop) (by omega))
  unfold insert
  rw [short_value_slid hdrop, read_u64_slid hdrop]
  by_cases h8 : p + 8 ≤ stop
  · rw [if_pos h8, if_pos ((eight_left_slid hdrop).mpr h8)]
    exact congrArg₂ (DFastState.mk · · st.long_log st.short_log) (hset st.long _)
      (hset st.short _)
  · rw [if_neg h8, if_neg fun h => h8 ((eight_left_slid hdrop).mp h)]
    exact congrArg (DFastState.mk _ · st.long_log st.short_log) (hset st.short _)

theorem cand_long_slid (st : DFastState) (hp : drop ≤ p) :
    (st.reduce_index unbounded drop).cand_long (data.drop drop) (p - drop) (stop - drop) =
      reduce_index_entry unbounded drop (st.cand_long data p stop) := by
  unfold cand_long
  by_cases h8 : p + 8 ≤ stop
  · rw [if_pos h8, if_pos ((eight_left_slid hp).mpr h8), read_u64_slid hp]
    exact slot_reduce unbounded drop st.long _
  · rw [if_neg h8, if_neg fun h => h8 ((eight_left_slid hp).mp h)]
    rfl

theorem cand_short_slid (st : DFastState) (hp : drop ≤ p) :
    (st.reduce_index unbounded drop).cand_short (data.drop drop) (p - drop) (stop - drop) =
      reduce_index_entry unbounded drop (st.cand_short data p stop) := by
  unfold cand_short
  rw [short_value_slid hp]
  exact slot_reduce unbounded drop st.short _

theorem better_slid (h : Slid cast drop window start stop) (hmax : max_offset ≤ window)
    (hp : start ≤ p) (best : Nat × Nat) (cand : Int) :
    better (data.drop drop) (p - drop) (stop - drop) max_offset best
        (reduce_index_entry unbounded drop cand) =
      better data p stop max_offset best cand := by
  have hle := h.le
  unfold better
  dsimp only
  rcases h.candidate hmax hp cand with ⟨hpos, hoff, hdrop, hentry⟩ | ⟨hbig, hsmall⟩
  · rw [hentry, Int.toNat_natCast, BtState.read_u32_drop hdrop, short_value_slid (by omega),
      common_len_slid hdrop (by omega),
      show p - drop - (cand.toNat - drop) = p - cand.toNat by omega]
    generalize (if best.1 < common_len data cand.toNat p stop then
      (common_len data cand.toNat p stop, p - cand.toNat) else best) = found
    by_cases hmatch : read_u32 data cand.toNat = short_value data p stop
    · rw [if_pos ⟨Int.natCast_nonneg _, hoff, hmatch⟩, if_pos ⟨hpos, hoff, hmatch⟩]
    · rw [if_neg fun hm => hmatch hm.2.2, if_neg fun hm => hmatch hm.2.2]
  · rw [if_neg fun hm => hsmall ⟨hm.1, hm.2.1⟩, if_neg fun hm => hbig ⟨hm.1, hm.2.1⟩]

theorem best_match_slid (h : Slid cast drop window start stop) (hmax : max_offset ≤ window)
    (hp : start ≤ p) (st : DFastState) {rep : Reps} (hrep : Within window rep) (ll0 : Bool) :
    (st.reduce_index unbounded drop).best_match (data.drop drop) (p - drop) (stop - drop) max_offset
        rep ll0 =
      st.best_match data p stop max_offset rep ll0 := by
  have hdrop := h.le.trans hp
  unfold best_match
  dsimp only
  rw [cand_long_slid st hdrop, cand_short_slid st hdrop, better_slid h hmax hp,
    better_slid h hmax hp, rep_match_at_slid h hp hrep]

theorem parse_step_slid (h : Slid cast drop window start stop) (hmax : max_offset ≤ window)
    {s : Loop} (ha : start ≤ s.anchor) (hp : start ≤ s.p) (hrep : Within window s.out.rep)
    (hlim : s.p + MIN_MATCH ≤ stop) :
    parse_step cast (data.drop drop) (stop - drop) max_offset (s.slide drop) =
      (parse_step unbounded data stop max_offset s).slide drop := by
  obtain ⟨st, anchor, p, out⟩ := s
  dsimp only at ha hp hlim hrep
  have hmin : MIN_MATCH = 4 := rfl
  have hle := h.le
  have hll0 : (p - drop == anchor - drop) = (p == anchor) := by
    rw [Bool.eq_iff_iff, beq_iff_eq, beq_iff_eq]
    omega
  have hbest := @best_match_slid cast data drop window start stop max_offset p h hmax hp st out.rep
    hrep (p == anchor)
  have hins := @insert_slid cast data drop window start stop p h st hp (by omega)
  show parse_step cast (data.drop drop) (stop - drop) max_offset
    ⟨st.reduce_index unbounded drop, anchor - drop, p - drop, out⟩ = _
  unfold parse_step
  dsimp only
  rw [hll0, hbest, hins]
  generalize st.best_match data p stop max_offset out.rep (p == anchor) = best
  by_cases hlong : MIN_MATCH ≤ best.1
  · rw [if_pos hlong, if_pos hlong]
    have hinner := @foldl_range'_slid drop _ _ (insert unbounded data stop)
      (insert cast (data.drop drop) (stop - drop)) (reduce_index unbounded drop) start stop hle
      (fun _ => True) (fun _ _ _ => trivial) (fun s q _ hq hq' => insert_slid h s hq hq')
      (min (p + best.1) (stop - MIN_MATCH + 1) - (p + 1)) (p + 1) (insert unbounded data stop st p)
      trivial (by omega) (by omega)
    rw [out.push_slid (by omega), show p - drop + 1 = p + 1 - drop by omega,
      show min (p - drop + best.1) (stop - drop - MIN_MATCH + 1) - (p + 1 - drop) =
        min (p + best.1) (stop - MIN_MATCH + 1) - (p + 1) by omega, hinner, Loop.slide,
      Nat.sub_add_comm (by omega : drop ≤ p)]
  · rw [if_neg hlong, if_neg hlong, Loop.slide, Nat.sub_add_comm (by omega : drop ≤ p)]

/-- The loop of `dfast_parse_block` stays past the start, and within the window. -/
theorem parse_step_keeps {cast : Nat → Int} {s : Loop} (hmax : max_offset ≤ window)
    (hs : start ≤ s.anchor ∧ start ≤ s.p ∧ s.out.Near window) :
    start ≤ (parse_step cast data stop max_offset s).anchor ∧
      start ≤ (parse_step cast data stop max_offset s).p ∧
      (parse_step cast data stop max_offset s).out.Near window := by
  obtain ⟨ha, hp, hnear⟩ := hs
  have hbest := best_match_near hmax hnear.rep s.state data s.p stop (s.p == s.anchor)
  unfold parse_step
  dsimp only
  split_ifs with hlong
  · exact ⟨Nat.le_add_right_of_le hp, Nat.le_add_right_of_le hp,
      hnear.push data _ _ _ (hbest hlong)⟩
  · exact ⟨ha, Nat.le_succ_of_le hp, hnear⟩

theorem dfast_parse_block_slid (h : Slid cast drop window start stop) (hmax : max_offset ≤ window)
    {rep : Reps} (hrep : Within window rep) (st : DFastState) :
    dfast_parse_block cast (data.drop drop) (start - drop) (stop - drop) max_offset rep
        (st.reduce_index unbounded drop) =
      ((dfast_parse_block unbounded data start stop max_offset rep st).1,
        (dfast_parse_block unbounded data start stop max_offset rep st).2.reduce_index unbounded
          drop) := by
  have hmin : MIN_MATCH = 4 := rfl
  have hle := h.le
  unfold dfast_parse_block
  by_cases hshort : stop < start + MIN_MATCH + 1
  · rw [if_pos hshort, if_pos (by omega), literal_parse_slid hle]
  · rw [if_neg hshort, if_neg (by omega)]
    obtain ⟨⟨ha, -, -⟩, heq⟩ := @While.iterate_map Loop Loop
      (fun s => decide (s.p ≤ stop - MIN_MATCH)) (parse_step unbounded data stop max_offset)
      (fun s => decide (s.p ≤ stop - drop - MIN_MATCH))
      (parse_step cast (data.drop drop) (stop - drop) max_offset) (Loop.slide drop)
      (fun s => start ≤ s.anchor ∧ start ≤ s.p ∧ s.out.Near window)
      (fun s hs => decide_eq_decide.mpr (by
        show s.p - drop ≤ _ ↔ _
        omega))
      (fun s hs hc => by
        have hlim := of_decide_eq_true hc
        exact ⟨parse_step_keeps hmax hs,
          parse_step_slid h hmax hs.1 hs.2.1 hs.2.2.rep (by omega)⟩)
      (stop - start) ⟨st, start, start, ⟨[], [], rep⟩⟩
      ⟨le_refl _, le_refl _, ParseOut.near_start hrep⟩
    rw [Loop.slide] at heq
    dsimp only
    rw [show stop - drop - (start - drop) = stop - start by omega, heq]
    exact congrArg (Prod.mk · _) (ParseOut.finish_slid _ (by omega))

end Slide

end DFastState

end ZstdPure.Encode
