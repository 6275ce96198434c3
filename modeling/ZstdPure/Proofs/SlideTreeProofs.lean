import ZstdPure.Proofs.SlideSearchProofs

/-!
# Proofs: the binary tree on a window that slid

A descent goes on above the low end of its window only, and all that is erased is below it.
-/

namespace ZstdPure.Encode

open Sequences

namespace BtState

section Slide

variable {cast : Nat → Int} {data : Bytes} {drop window start stop max_offset curr : Nat}
  {st : BtState}

theorem node_slid (hring : st.slide_period ∣ drop) {p : Nat} (hp : drop ≤ p) :
    (st.reduce_index unbounded drop).node (p - drop) = st.node p :=
  congrArg (2 * ·) (ring_slid hring hp)

theorem bucket_slid (st : BtState) {p : Nat} (hp : drop ≤ p) :
    (st.reduce_index unbounded drop).bucket (data.drop drop) (p - drop) = st.bucket data p := by
  unfold bucket
  rw [read_u32_drop hp]
  rfl

/-- What is dropped is below the low end of the window. -/
theorem window_low_slid (h : Slid cast drop window start stop) (hmax : max_offset ≤ window)
    (hcurr : start ≤ curr) :
    (st.reduce_index unbounded drop).window_low (curr - drop) max_offset =
        st.window_low curr max_offset - drop ∧
      drop ≤ st.window_low curr max_offset := by
  have hsame : (st.reduce_index unbounded drop).window_low (curr - drop) max_offset =
      curr - drop - min max_offset (2 ^ st.bt_log) := rfl
  rw [hsame, window_low]
  rcases h.far with rfl | hfar
  · exact ⟨by omega, Nat.zero_le _⟩
  · exact ⟨by omega, by omega⟩

/-- A node above the low end of the window is still there, and no other one is. -/
theorem live_slid {window_low : Nat} (hlow : drop ≤ window_low) (v : Int) :
    (0 ≤ v ∧ window_low < v.toNat ∧ drop ≤ v.toNat ∧
        reduce_index_entry unbounded drop v = (v.toNat - drop : Nat)) ∨
      ¬(0 ≤ v ∧ window_low < v.toNat) ∧
        ¬(0 ≤ reduce_index_entry unbounded drop v ∧
          window_low - drop < (reduce_index_entry unbounded drop v).toNat) := by
  rcases slid_entry_cases drop v with ⟨hpos, hdrop, hentry⟩ | ⟨hneg, hold⟩
  · by_cases hlive : window_low < v.toNat
    · exact Or.inl ⟨hpos, hlive, hdrop, hentry⟩
    · refine Or.inr ⟨fun hv => hlive hv.2, ?_⟩
      rw [hentry, Int.toNat_natCast]
      omega
  · refine Or.inr ⟨?_, fun hv => absurd hv.1 (not_le_of_gt hneg)⟩
    rintro ⟨hpos, hlive⟩
    have hlt := hold hpos
    omega

/-! ### Descents -/

/-- A descent after a slide. -/
def Descent.slide (drop : Nat) (d : Descent) : Descent :=
  { d with
    bt := reduce_index_table unbounded drop d.bt,
    match_index := reduce_index_entry unbounded drop d.match_index }

theorem close_slid (d : Descent) : close (d.slide drop) =
    reduce_index_table unbounded drop (close d) := by
  unfold close reduce_index_table
  rw [List.map_set, List.map_set]
  rfl

theorem start_descent_slid (hring : st.slide_period ∣ drop) (hcurr : drop ≤ curr) :
    (st.reduce_index unbounded drop).start_descent (data.drop drop) (curr - drop) =
      (st.start_descent data curr).slide drop := by
  unfold start_descent
  rw [node_slid hring hcurr, bucket_slid st hcurr,
    show slot (st.reduce_index unbounded drop).hash _ = _ from slot_reduce unbounded drop st.hash _]
  rfl

theorem descend_slid (hring : st.slide_period ∣ drop) (hcurr : drop ≤ curr) {mi : Nat}
    (hmi : drop ≤ mi) (ml : Nat) (d : Descent) :
    descend (st.reduce_index unbounded drop) (data.drop drop) (curr - drop) (mi - drop) ml
        (d.slide drop) =
      (descend st data curr mi ml d).slide drop := by
  have hset : ∀ i, (reduce_index_table unbounded drop d.bt).set i
      (reduce_index_entry unbounded drop d.match_index) =
      reduce_index_table unbounded drop (d.bt.set i d.match_index) := fun i => List.map_set.symm
  unfold descend
  dsimp only [Descent.slide]
  rw [node_slid hring hmi, byte_at_slid hmi, byte_at_slid hcurr, hset, hset, slot_reduce,
    slot_reduce]
  split_ifs <;> rfl

theorem record_slid (d : Descent) {mi : Nat} (hmi : drop ≤ mi) (ml : Nat) :
    (d.slide drop).record (curr - drop) (mi - drop) ml = (d.record curr mi ml).slide drop := by
  unfold Descent.record
  rw [show curr - drop - (mi - drop) = curr - mi by omega]
  by_cases hbest : d.best_len < ml
  · rw [if_pos hbest]
    exact if_pos hbest
  · rw [if_neg hbest]
    exact if_neg hbest

theorem search_len_slid (hcurr : drop ≤ curr) {mi : Nat} (hmi : drop ≤ mi) (c : Bool → Nat) :
    search_len (data.drop drop) (curr - drop) (stop - drop) (mi - drop) c =
      search_len data curr stop mi c := by
  unfold search_len
  dsimp only
  rw [common_len_slid_add hmi hcurr]

theorem descend_all_slid (hring : st.slide_period ∣ drop) (hcurr : drop ≤ curr)
    (hstop : drop ≤ stop)
    {low : Nat} (hlow : drop ≤ low) (nb : Nat) {d : Descent} :
    descend_all (st.reduce_index unbounded drop) (data.drop drop) (curr - drop) (stop - drop)
        (low - drop) nb (d.slide drop) =
      (descend_all st data curr stop low nb d).slide drop := by
  induction nb generalizing d with
  | zero => rfl
  | succ nb ih =>
    rcases live_slid hlow d.match_index with ⟨hpos, hlive, hmi, hentry⟩ | ⟨hbig, hsmall⟩
    · rw [descend_all_live (Int.toNat_of_nonneg hpos).symm hlive,
        @descend_all_live (st.reduce_index unbounded drop) (data.drop drop) (curr - drop)
          (stop - drop) (low - drop) nb _ (d.slide drop) hentry (by omega),
        show (d.slide drop).common = d.common from rfl, search_len_slid hcurr hmi]
      generalize search_len data curr stop d.match_index.toNat d.common = ml
      rw [record_slid d hmi, descend_slid hring hcurr hmi, ih]
      have hend : curr - drop + ml = stop - drop ↔ curr + ml = stop := by omega
      rw [if_congr hend rfl rfl]
      split_ifs <;> rfl
    · rw [descend_all_dead hbig]
      exact descend_all_dead hsmall

theorem descend_bt1_slid (hring : st.slide_period ∣ drop) (hcurr : drop ≤ curr)
    (hstop : drop ≤ stop)
    {ext_end : Nat} (hext : drop ≤ ext_end) {low : Nat} (hlow : drop ≤ low) (nb : Nat)
    {d : Descent} :
    descend_bt1 (st.reduce_index unbounded drop) (data.drop drop) (curr - drop) (stop - drop)
        (ext_end - drop) (low - drop) nb (d.slide drop) =
      (descend_bt1 st data curr stop ext_end low nb d).slide drop := by
  induction nb generalizing d with
  | zero => rfl
  | succ nb ih =>
    rcases live_slid hlow d.match_index with ⟨hpos, hlive, hmi, hentry⟩ | ⟨hbig, hsmall⟩
    · have hsame : (d.slide drop).match_index.toNat = d.match_index.toNat - drop := by
        show (reduce_index_entry unbounded drop d.match_index).toNat = _
        rw [hentry, Int.toNat_natCast]
      have hlive' : 0 ≤ (d.slide drop).match_index ∧
          low - drop < (d.slide drop).match_index.toNat := by
        rw [hsame]
        exact ⟨by rw [show (d.slide drop).match_index = _ from hentry]; omega, by omega⟩
      have hlive : 0 ≤ d.match_index ∧ low < d.match_index.toNat := ⟨hpos, hlive⟩
      rw [descend_bt1, if_pos hlive', hsame, descend_bt1, if_pos hlive]
      dsimp only
      rw [common_tail_slid hmi hcurr, show ext_end - drop - (curr - drop) = ext_end - curr by omega,
        show min (d.slide drop).common_smaller (d.slide drop).common_larger =
          min d.common_smaller d.common_larger from rfl]
      generalize common_tail data d.match_index.toNat curr (ext_end - curr)
        (min d.common_smaller d.common_larger) = ml
      have hend : (curr - drop + ml = stop - drop ∨ curr - drop + ml = ext_end - drop) ↔
          (curr + ml = stop ∨ curr + ml = ext_end) := by omega
      rw [descend_slid hring hcurr hmi, ih, if_congr hend rfl rfl]
      split_ifs <;> rfl
    · rw [descend_bt1, descend_bt1, if_neg hbig]
      exact if_neg hsmall

/-! ### Searches -/

/-- The bucket of a position is set. -/
theorem set_bucket_slid (h : Slid cast drop window start stop) (hcurr : start ≤ curr)
    (hstop : curr < stop) (bt : List Int) :
    ({ st.reduce_index unbounded drop with
        hash := (st.reduce_index unbounded drop).hash.set
          ((st.reduce_index unbounded drop).bucket (data.drop drop) (curr - drop))
          (cast (curr - drop)),
        bt := reduce_index_table unbounded drop bt } : BtState) =
      ({ st with hash := st.hash.set (st.bucket data curr) (unbounded curr), bt } :
        BtState).reduce_index unbounded drop := by
  have hdrop := h.le.trans hcurr
  have hset := set_slid hdrop (h.cast (curr - drop) (by omega)) st.hash (st.bucket data curr)
  rw [bucket_slid st hdrop]
  exact congrArg (BtState.mk · (reduce_index_table unbounded drop bt) st.hash_log st.bt_log) hset

theorem insert_and_get_all_matches_slid (h : Slid cast drop window start stop)
    (hmax : max_offset ≤ window) (hring : st.slide_period ∣ drop) (hcurr : start ≤ curr)
    (hstop : curr < stop) (nb_compares : Nat) :
    (st.reduce_index unbounded drop).insert_and_get_all_matches cast (data.drop drop) (stop - drop)
        max_offset nb_compares (curr - drop) =
      ((st.insert_and_get_all_matches unbounded data stop max_offset nb_compares curr).1,
        (st.insert_and_get_all_matches unbounded data stop max_offset nb_compares
          curr).2.reduce_index unbounded drop) := by
  have hdrop := h.le.trans hcurr
  obtain ⟨hlow, hle⟩ := @window_low_slid cast drop window start stop max_offset curr st h hmax hcurr
  unfold insert_and_get_all_matches
  dsimp only
  rw [hlow, start_descent_slid hring hdrop,
    descend_all_slid hring hdrop (hdrop.trans hstop.le) hle nb_compares, close_slid]
  exact congrArg (Prod.mk _) (set_bucket_slid h hcurr hstop _)

theorem insert_bt1_slid (h : Slid cast drop window start stop) (hmax : max_offset ≤ window)
    (hring : st.slide_period ∣ drop) (hcurr : start ≤ curr) (hstop : curr < stop)
    (nb_compares : Nat) :
    (st.reduce_index unbounded drop).insert_bt1 cast (data.drop drop) (stop - drop) max_offset
        nb_compares (curr - drop) =
      (st.insert_bt1 unbounded data stop max_offset nb_compares curr).reduce_index unbounded
        drop := by
  have hdrop := h.le.trans hcurr
  obtain ⟨hlow, hle⟩ := @window_low_slid cast drop window start stop max_offset curr st h hmax hcurr
  unfold insert_bt1
  dsimp only
  rw [hlow, start_descent_slid hring hdrop,
    show min (curr - drop + BT_INSERT_CAP) (stop - drop) = min (curr + BT_INSERT_CAP) stop - drop by
      omega,
    descend_bt1_slid hring hdrop (hdrop.trans hstop.le) (by omega) hle nb_compares, close_slid]
  exact set_bucket_slid h hcurr hstop _

theorem find_longest_from_slid (hring : st.slide_period ∣ drop) {ip : Nat} (hip : drop ≤ ip)
    (hstop : drop ≤ stop) {low : Nat} (hlow : drop ≤ low) (nb : Nat) {v : Int} {a b : Nat}
    {best : Nat × Nat} :
    find_longest_from (st.reduce_index unbounded drop) (data.drop drop) (ip - drop) (stop - drop)
        (low - drop) nb (reduce_index_entry unbounded drop v) a b (best.1, best.2 - drop) =
      ((find_longest_from st data ip stop low nb v a b best).1,
        (find_longest_from st data ip stop low nb v a b best).2 - drop) := by
  induction nb generalizing v a b best with
  | zero => rfl
  | succ nb ih =>
    rcases live_slid hlow v with ⟨hpos, hlive, hmi, hentry⟩ | ⟨hbig, hsmall⟩
    · have hlive' : 0 ≤ ((v.toNat - drop : Nat) : Int) ∧
          low - drop < ((v.toNat - drop : Nat) : Int).toNat :=
        ⟨Int.natCast_nonneg _, by rw [Int.toNat_natCast]; omega⟩
      have hchild : ∀ i, slot (st.reduce_index unbounded drop).bt i =
          reduce_index_entry unbounded drop (slot st.bt i) := slot_reduce unbounded drop st.bt
      have hlive : 0 ≤ v ∧ low < v.toNat := ⟨hpos, hlive⟩
      rw [hentry, find_longest_from, if_pos hlive', Int.toNat_natCast, find_longest_from,
        if_pos hlive]
      dsimp only
      rw [common_len_slid_add hmi hip]
      generalize min a b + common_len data (v.toNat + min a b) (ip + min a b) stop = ml
      have hbest : (if best.1 < ml then (ml, v.toNat - drop) else (best.1, best.2 - drop)) =
          ((if best.1 < ml then (ml, v.toNat) else best).1,
            (if best.1 < ml then (ml, v.toNat) else best).2 - drop) := by
        split_ifs <;> rfl
      have hend : ip - drop + ml = stop - drop ↔ ip + ml = stop := by omega
      rw [hbest, node_slid hring hmi, byte_at_slid hmi, byte_at_slid hip, hchild, hchild, ih, ih,
        if_congr hend rfl rfl]
      split_ifs <;> rfl
    · rw [find_longest_from_dead hbig, find_longest_from_dead hsmall]

theorem find_longest_slid (h : Slid cast drop window start stop) (hmax : max_offset ≤ window)
    (hring : st.slide_period ∣ drop) {ip : Nat} (hip : start ≤ ip) (hstop : ip < stop)
    (depth : Nat) :
    (st.reduce_index unbounded drop).find_longest (data.drop drop) (ip - drop) (stop - drop)
        max_offset depth =
      ((st.find_longest data ip stop max_offset depth).1,
        (st.find_longest data ip stop max_offset depth).2 - drop) := by
  have hdrop := h.le.trans hip
  obtain ⟨hlow, hle⟩ := @window_low_slid cast drop window start stop max_offset ip st h hmax hip
  have hwalk := @find_longest_from_slid data drop stop st hring ip hdrop (hdrop.trans hstop.le)
    (st.window_low ip max_offset) hle depth (slot st.hash (st.bucket data ip)) 0 0 (0, 0)
  rw [Nat.zero_sub] at hwalk
  unfold find_longest
  rw [hlow, bucket_slid st hdrop,
    show slot (st.reduce_index unbounded drop).hash _ = _ from slot_reduce unbounded drop st.hash _]
  exact hwalk

end Slide

end BtState

/-! ## The lazy parse over chain and tree -/

namespace Hybrid

/-- The rings of chain and tree turn as a whole in a slide. -/
structure Turns (drop : Nat) (st : Hybrid) : Prop where
  chain : st.chain.slide_period ∣ drop
  tree : st.tree.slide_period ∣ drop

section Slide

variable {cast : Nat → Int} {data : Bytes} {drop window start stop max_offset p : Nat} {st : Hybrid}

theorem insert_slid (h : Slid cast drop window start stop) (hmax : max_offset ≤ window)
    (hring : st.Turns drop) (hp : start ≤ p) (hstop : p < stop) (depth : Nat) :
    insert cast (data.drop drop) (stop - drop) max_offset depth
        (Finder.reduce_hybrid unbounded drop st) (p - drop) =
      Finder.reduce_hybrid unbounded drop (insert unbounded data stop max_offset depth st p) :=
  congrArg₂ Hybrid.mk (ChainState.insert_slid h hring.chain hp hstop)
    (BtState.insert_bt1_slid h hmax hring.tree hp hstop depth)

theorem bt_lazy_best_slid (h : Slid cast drop window start stop) (hmax : max_offset ≤ window)
    (hring : st.Turns drop) (hp : start ≤ p) (hstop : p < stop) (depth : Nat) (rep : Reps)
    (ll0 : Bool) :
    bt_lazy_best (st.chain.reduce_index unbounded drop) (st.tree.reduce_index unbounded drop)
        (data.drop drop) (p - drop) (stop - drop) max_offset depth rep ll0 =
      ((bt_lazy_best st.chain st.tree data p stop max_offset depth rep ll0).1,
        (bt_lazy_best st.chain st.tree data p stop max_offset depth rep ll0).2 - drop) := by
  have hkept : ∀ {m : Nat × Nat}, NearMatch window (m.1, p - m.2) → MIN_MATCH ≤ m.1 →
      p - drop - (m.2 - drop) = p - m.2 := by
    intro m hnear hlen
    have hdrop := h.kept hp hnear hlen
    omega
  have hchain := ChainState.find_near hmax st.chain data p stop depth
  have htree := BtState.find_longest_near hmax st.tree data p stop depth
  unfold bt_lazy_best
  rw [ChainState.find_slid h hmax hring.chain hp,
    BtState.find_longest_slid h hmax hring.tree hp hstop]
  generalize st.chain.find data p stop max_offset depth = c at hchain ⊢
  generalize st.tree.find_longest data p stop max_offset depth = t at htree ⊢
  dsimp only
  have hgain : (MIN_MATCH ≤ t.1 ∧ (c.1 < MIN_MATCH ∨
      LazyState.gain c.1 (offset_bits rep (p - drop - (c.2 - drop)) ll0) <
        LazyState.gain t.1 (offset_bits rep (p - drop - (t.2 - drop)) ll0))) ↔
      (MIN_MATCH ≤ t.1 ∧ (c.1 < MIN_MATCH ∨
        LazyState.gain c.1 (offset_bits rep (p - c.2) ll0) <
          LazyState.gain t.1 (offset_bits rep (p - t.2) ll0))) := by
    refine and_congr_right fun ht => ?_
    rw [hkept htree ht]
    by_cases hc : c.1 < MIN_MATCH
    · exact iff_of_true (Or.inl hc) (Or.inl hc)
    · rw [hkept hchain (Nat.le_of_not_lt hc)]
  rw [if_congr hgain rfl rfl]
  split_ifs <;> rfl

theorem bt_best_match_slid (h : Slid cast drop window start stop) (hmax : max_offset ≤ window)
    (hring : st.Turns drop) (hp : start ≤ p) (hstop : p < stop) (depth : Nat) {rep : Reps}
    (hrep : Within window rep) (ll0 : Bool) :
    bt_best_match (st.chain.reduce_index unbounded drop) (st.tree.reduce_index unbounded drop)
        (data.drop drop) (p - drop) (stop - drop) max_offset depth rep ll0 =
      bt_best_match st.chain st.tree data p stop max_offset depth rep ll0 := by
  have hnear := bt_lazy_best_near hmax st.chain st.tree data p stop depth rep ll0
  unfold bt_best_match
  rw [bt_lazy_best_slid h hmax hring hp hstop, rep_match_at_slid h hp hrep]
  generalize bt_lazy_best st.chain st.tree data p stop max_offset depth rep ll0 = m at hnear ⊢
  dsimp only
  split_ifs with hshort hlong
  · rfl
  · have hdrop := h.kept hp hnear hlong
    rw [show p - drop - (m.2 - drop) = p - m.2 by omega]
  · rfl

end Slide

end Hybrid

theorem bt_lazy_parse_block_slid {cast : Nat → Int} {drop window start stop max_offset : Nat}
    (h : Slid cast drop window start stop) (hmax : max_offset ≤ window) (data : Bytes) {rep : Reps}
    (hrep : Within window rep) (depth : Nat) {st : Hybrid} (hring : st.Turns drop) :
    bt_lazy_parse_block cast (data.drop drop) (start - drop) (stop - drop) max_offset rep depth
        (Finder.reduce_hybrid unbounded drop st) =
      ((bt_lazy_parse_block unbounded data start stop max_offset rep depth st).1,
        Finder.reduce_hybrid unbounded drop
          (bt_lazy_parse_block unbounded data start stop max_offset rep depth st).2) := by
  refine @LazyState.parse_block_slid _ data drop window start stop _ (Hybrid.Turns drop) _ _
    ⟨?_, ?_, ?_⟩ ?_ h.le 2 rep hrep st hring
  · exact fun _ _ hst => ⟨hst.chain, hst.tree⟩
  · exact fun st p hst hp hstop => Hybrid.insert_slid h hmax hst hp hstop depth
  · exact fun st p rep ll0 hst hp hstop hrep =>
      Hybrid.bt_best_match_slid h hmax hst hp hstop depth hrep ll0
  · exact fun st p rep ll0 hrep =>
      bt_best_match_near hmax hrep st.chain st.tree data p stop depth ll0

end ZstdPure.Encode
