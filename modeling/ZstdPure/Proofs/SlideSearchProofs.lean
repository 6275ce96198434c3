import ZstdPure.Proofs.SlideMatchProofs
import ZstdPure.Proofs.SlidePeriodProofs

/-!
# Proofs: the chain and the tree on a window that slid

The slots of a ring are those of the positions modulo its size, so a slide by whole turns keeps
every position in its slot. An erased link ends a walk where a link beyond the window would have
ended it. -/

namespace ZstdPure.Encode

open Sequences

/-- A slide by whole turns of a ring keeps the slots. -/
theorem ring_slid {log drop p : Nat} (hring : 2 ^ log ∣ drop) (hp : drop ≤ p) :
    (p - drop) % 2 ^ log = p % 2 ^ log := by
  obtain ⟨turns, rfl⟩ := hring
  exact Nat.sub_mul_mod hp

/-- A match within the window is not among the bytes that were dropped. -/
theorem Slid.kept {cast : Nat → Int} {drop window start stop p : Nat}
    (h : Slid cast drop window start stop) (hp : start ≤ p) {m : Nat × Nat}
    (hnear : NearMatch window (m.1, p - m.2)) (hlen : MIN_MATCH ≤ m.1) : drop ≤ m.2 := by
  have hoff : p - m.2 ≤ window := hnear hlen
  rcases h.far with rfl | hfar
  · exact Nat.zero_le _
  · omega

/-! ## The chain -/

namespace ChainState

section Slide

variable {cast : Nat → Int} {data : Bytes} {drop window start stop max_offset p : Nat}
  {st : ChainState}

theorem hash_slid (st : ChainState) (hp : drop ≤ p) :
    (st.reduce_index unbounded drop).hash (data.drop drop) (p - drop) = st.hash data p := by
  show hash_pos (data.drop drop) (p - drop) st.hash_log st.mls = hash_pos data p st.hash_log st.mls
  unfold hash_pos
  rw [read_u64_slid hp, BtState.read_u32_drop hp, List.length_drop]
  by_cases hwide : 5 ≤ st.mls ∧ p + 8 ≤ data.length
  · rw [if_pos hwide, if_pos ⟨hwide.1, by omega⟩]
  · rw [if_neg hwide, if_neg fun hs => hwide ⟨hs.1, by omega⟩]

theorem insert_slid (h : Slid cast drop window start stop) (hring : st.slide_period ∣ drop)
    (hp : start ≤ p) (hstop : p < stop) :
    insert cast (data.drop drop) (st.reduce_index unbounded drop) (p - drop) =
      (insert unbounded data st p).reduce_index unbounded drop := by
  have hdrop := h.le.trans hp
  have hhead := set_slid hdrop (h.cast (p - drop) (by omega)) st.head (st.hash data p)
  have hlink : (reduce_index_table unbounded drop st.chain).set (st.ring p)
      (reduce_index_entry unbounded drop (slot st.head (st.hash data p))) =
      reduce_index_table unbounded drop (st.chain.set (st.ring p)
        (slot st.head (st.hash data p))) := List.map_set.symm
  have hslot : (st.reduce_index unbounded drop).ring (p - drop) = st.ring p :=
    ring_slid hring hdrop
  have hold : slot (st.reduce_index unbounded drop).head (st.hash data p) = _ :=
    slot_reduce unbounded drop st.head (st.hash data p)
  unfold insert
  dsimp only
  rw [hash_slid st hdrop, hslot, hold]
  exact congrArg₂ (ChainState.mk · · st.hash_log st.chain_log st.mls) hhead hlink

/-- The walk ends at a position beyond the window. -/
theorem find_from_far (ip : Nat) {cand : Int} (hfar : ¬(0 ≤ cand ∧ ip - cand.toNat ≤ max_offset))
    (n : Nat) (best : Nat × Nat) : st.find_from data ip stop max_offset n cand best = best := by
  cases n with
  | zero => rfl
  | succ n => exact if_pos (by omega)

/-- The best match after the candidate at `c`. -/
def improved (data : Bytes) (ip stop c : Nat) (best : Nat × Nat) : Nat × Nat :=
  if ip + best.1 < stop ∧ byte_at data (c + best.1) = byte_at data (ip + best.1) ∧
      best.1 < common_len data c ip stop then (common_len data c ip stop, c) else best

theorem find_from_near_step {ip : Nat} {cand : Int} (hpos : 0 ≤ cand)
    (hoff : ip - cand.toNat ≤ max_offset) (n : Nat) (best : Nat × Nat) :
    st.find_from data ip stop max_offset (n + 1) cand best =
      if recedes cand.toNat (slot st.chain (st.ring cand.toNat)) then
        st.find_from data ip stop max_offset n (slot st.chain (st.ring cand.toNat))
          (improved data ip stop cand.toNat best)
      else improved data ip stop cand.toNat best := if_neg (by omega)

theorem improved_slid {ip c : Nat} (hip : drop ≤ ip) (hc : drop ≤ c) (best : Nat × Nat) :
    improved (data.drop drop) (ip - drop) (stop - drop) (c - drop) (best.1, best.2 - drop) =
      ((improved data ip stop c best).1, (improved data ip stop c best).2 - drop) := by
  unfold improved
  dsimp only
  rw [common_len_slid hc hip, byte_at_slid hc, byte_at_slid hip]
  by_cases hbetter : ip + best.1 < stop ∧ byte_at data (c + best.1) = byte_at data (ip + best.1) ∧
      best.1 < common_len data c ip stop
  · rw [if_pos hbetter, if_pos ⟨by omega, hbetter.2⟩]
  · rw [if_neg hbetter, if_neg fun hs => hbetter ⟨by omega, hs.2⟩]

theorem link_slid (hring : st.slide_period ∣ drop) {c : Nat} (hc : drop ≤ c) :
    slot (st.reduce_index unbounded drop).chain ((st.reduce_index unbounded drop).ring (c - drop)) =
      reduce_index_entry unbounded drop (slot st.chain (st.ring c)) := by
  have hsame : (st.reduce_index unbounded drop).ring (c - drop) = st.ring c := ring_slid hring hc
  rw [hsame]
  exact slot_reduce unbounded drop st.chain _

/-- After a position that is kept, the chain goes on to the same position, or to one that is erased,
or it ends. -/
theorem recedes_slid {c : Nat} (hc : drop ≤ c) (next : Int) :
    recedes (c - drop) (reduce_index_entry unbounded drop next) = recedes c next ∨
      recedes (c - drop) (reduce_index_entry unbounded drop next) = false ∧ 0 ≤ next ∧
        next.toNat < drop := by
  unfold recedes
  rcases slid_entry_cases drop next with ⟨hpos, hdrop, hentry⟩ | ⟨hneg, hold⟩
  · left
    rw [hentry, Int.toNat_natCast]
    exact decide_eq_decide.mpr (by omega)
  · by_cases hpos : 0 ≤ next
    · exact Or.inr ⟨decide_eq_false (by omega), hpos, hold hpos⟩
    · exact Or.inl (decide_eq_decide.mpr (by omega))

theorem find_from_slid (h : Slid cast drop window start stop) (hmax : max_offset ≤ window)
    (hring : st.slide_period ∣ drop) {ip : Nat} (hip : start ≤ ip) (n : Nat) {cand : Int}
    {best : Nat × Nat} :
    (st.reduce_index unbounded drop).find_from (data.drop drop) (ip - drop) (stop - drop) max_offset
        n (reduce_index_entry unbounded drop cand) (best.1, best.2 - drop) =
      ((st.find_from data ip stop max_offset n cand best).1,
        (st.find_from data ip stop max_offset n cand best).2 - drop) := by
  have hdrop := h.le.trans hip
  induction n generalizing cand best with
  | zero => rfl
  | succ n ih =>
    rcases h.candidate hmax hip cand with ⟨hpos, hoff, hc, hentry⟩ | ⟨hbig, hsmall⟩
    · rw [find_from_near_step hpos hoff, hentry,
        find_from_near_step (Int.natCast_nonneg _) (by rw [Int.toNat_natCast]; omega),
        Int.toNat_natCast, link_slid hring hc, improved_slid hdrop hc]
      generalize slot st.chain (st.ring cand.toNat) = next
      generalize improved data ip stop cand.toNat best = found
      rcases recedes_slid hc next with hsame | ⟨hend, hpos, hlt⟩
      · rw [hsame]
        split_ifs
        · exact ih
        · rfl
      · have hfar : ¬(0 ≤ next ∧ ip - next.toNat ≤ max_offset) := by
          rcases h.far with rfl | hfar <;> omega
        rw [hend, if_neg Bool.false_ne_true, find_from_far ip hfar, ite_self]
    · rw [find_from_far ip hbig, find_from_far _ hsmall]

theorem find_slid (h : Slid cast drop window start stop) (hmax : max_offset ≤ window)
    (hring : st.slide_period ∣ drop) {ip : Nat} (hip : start ≤ ip) (depth : Nat) :
    (st.reduce_index unbounded drop).find (data.drop drop) (ip - drop) (stop - drop) max_offset
        depth =
      ((st.find data ip stop max_offset depth).1,
        (st.find data ip stop max_offset depth).2 - drop) := by
  have hwalk := @find_from_slid cast data drop window start stop max_offset st h hmax hring ip hip
    depth (slot st.head (st.hash data ip)) (MIN_MATCH - 1, 0)
  rw [Nat.zero_sub] at hwalk
  unfold find
  dsimp only
  rw [hash_slid st (h.le.trans hip), show slot (st.reduce_index unbounded drop).head _ = _ from
    slot_reduce unbounded drop st.head _, hwalk]
  split_ifs
  · rfl
  · rw [Nat.zero_sub]

theorem best_match_at_slid (h : Slid cast drop window start stop) (hmax : max_offset ≤ window)
    (hring : st.slide_period ∣ drop) (hp : start ≤ p) (depth : Nat) {rep : Reps}
    (hrep : Within window rep) (ll0 : Bool) :
    (st.reduce_index unbounded drop).best_match_at (data.drop drop) (p - drop) (stop - drop)
        max_offset depth rep ll0 =
      st.best_match_at data p stop max_offset depth rep ll0 := by
  have hnear := find_near hmax st data p stop depth
  have hdrop := h.le.trans hp
  unfold best_match_at
  rw [find_slid h hmax hring hp, rep_match_at_slid h hp hrep]
  generalize st.find data p stop max_offset depth = c at hnear ⊢
  dsimp only
  split_ifs with hshort hlong
  · rfl
  · have hkept := h.kept hp hnear hlong
    rw [show p - drop - (c.2 - drop) = p - c.2 by omega]
  · rfl

theorem find_matches_from_far (ip cap : Nat) {cand : Int}
    (hfar : ¬(0 ≤ cand ∧ ip - cand.toNat ≤ max_offset)) (n best : Nat) (out : List (Nat × Nat)) :
    st.find_matches_from data ip stop max_offset cap n cand best out = out := by
  cases n with
  | zero => rfl
  | succ n => exact if_pos (by omega)

/-- A candidate within the window is a match if it is longer than the best one so far, and the walk
goes on unless it is long enough. -/
theorem find_matches_from_near_step {ip cap : Nat} {cand : Int} (hpos : 0 ≤ cand)
    (hoff : ip - cand.toNat ≤ max_offset) {ml : Nat}
    (hml : common_len data cand.toNat ip (min stop (ip + cap)) = ml) (n best : Nat)
    (out : List (Nat × Nat)) :
    st.find_matches_from data ip stop max_offset cap (n + 1) cand best out =
      if ip + best < stop ∧ byte_at data (cand.toNat + best) = byte_at data (ip + best) ∧
          best < ml then
        if cap ≤ ml then out ++ [(ml % 2 ^ 32, (ip - cand.toNat) % 2 ^ 32)]
        else if recedes cand.toNat (slot st.chain (st.ring cand.toNat)) then
          st.find_matches_from data ip stop max_offset cap n (slot st.chain (st.ring cand.toNat)) ml
            (out ++ [(ml % 2 ^ 32, (ip - cand.toNat) % 2 ^ 32)])
        else out ++ [(ml % 2 ^ 32, (ip - cand.toNat) % 2 ^ 32)]
      else if recedes cand.toNat (slot st.chain (st.ring cand.toNat)) then
        st.find_matches_from data ip stop max_offset cap n (slot st.chain (st.ring cand.toNat)) best
          out
      else out := by
  subst hml
  rw [find_matches_from]
  dsimp only
  rw [if_neg (by omega)]
  by_cases hbetter : ip + best < stop ∧
      byte_at data (cand.toNat + best) = byte_at data (ip + best) ∧
        best < common_len data cand.toNat ip (min stop (ip + cap))
  · simp only [hbetter, true_and, and_self, if_true]
  · simp only [hbetter, false_and, if_false]

theorem find_matches_from_slid (h : Slid cast drop window start stop) (hmax : max_offset ≤ window)
    (hring : st.slide_period ∣ drop) {ip : Nat} (hip : start ≤ ip) (cap n : Nat) {cand : Int}
    {best : Nat} {out : List (Nat × Nat)} :
    (st.reduce_index unbounded drop).find_matches_from (data.drop drop) (ip - drop) (stop - drop)
        max_offset cap n (reduce_index_entry unbounded drop cand) best out =
      st.find_matches_from data ip stop max_offset cap n cand best out := by
  have hdrop := h.le.trans hip
  induction n generalizing cand best out with
  | zero => rfl
  | succ n ih =>
    rcases h.candidate hmax hip cand with ⟨hpos, hoff, hc, hentry⟩ | ⟨hbig, hsmall⟩
    · have hml : common_len (data.drop drop) ((cand.toNat - drop : Nat) : Int).toNat (ip - drop)
          (min (stop - drop) (ip - drop + cap)) =
          common_len data cand.toNat ip (min stop (ip + cap)) := by
        have hend : min (stop - drop) (ip - drop + cap) = min stop (ip + cap) - drop := by omega
        rw [Int.toNat_natCast, hend, common_len_slid hc hdrop]
      rw [find_matches_from_near_step hpos hoff rfl, hentry,
        find_matches_from_near_step (Int.natCast_nonneg _) (by rw [Int.toNat_natCast]; omega) hml,
        Int.toNat_natCast, link_slid hring hc, byte_at_slid hc, byte_at_slid hdrop,
        show ip - drop - (cand.toNat - drop) = ip - cand.toNat by omega]
      generalize common_len data cand.toNat ip (min stop (ip + cap)) = ml
      generalize slot st.chain (st.ring cand.toNat) = next
      have hin : ip - drop + best < stop - drop ↔ ip + best < stop := by omega
      rw [if_congr (and_congr_left' hin) rfl rfl]
      rcases recedes_slid hc next with hsame | ⟨hend, hpos, hlt⟩
      · rw [hsame, ih, ih]
      · have hfar : ¬(0 ≤ next ∧ ip - next.toNat ≤ max_offset) := by
          rcases h.far with rfl | hfar <;> omega
        rw [hend, if_neg Bool.false_ne_true, if_neg Bool.false_ne_true,
          find_matches_from_far ip cap hfar, find_matches_from_far ip cap hfar, ite_self, ite_self,
          ite_self, ite_self]
    · rw [find_matches_from_far ip cap hbig, find_matches_from_far _ cap hsmall]

theorem find_matches_slid (h : Slid cast drop window start stop) (hmax : max_offset ≤ window)
    (hring : st.slide_period ∣ drop) {ip : Nat} (hip : start ≤ ip) (depth cap : Nat) :
    (st.reduce_index unbounded drop).find_matches (data.drop drop) (ip - drop) (stop - drop)
        max_offset depth cap =
      st.find_matches data ip stop max_offset depth cap := by
  unfold find_matches
  rw [hash_slid st (h.le.trans hip), show slot (st.reduce_index unbounded drop).head _ = _ from
    slot_reduce unbounded drop st.head _, find_matches_from_slid h hmax hring hip]

end Slide

end ChainState

/-! ## The lazy parse -/

/-- The finder of a lazy parse before and after a slide. -/
structure LazyFinder.Slides {σ : Type} (window drop start stop : Nat) (slide : σ → σ)
    (Ok : σ → Prop) (f g : LazyFinder σ) : Prop where
  keeps : ∀ st p, Ok st → Ok (f.insert st p)
  insert : ∀ st p, Ok st → start ≤ p → p < stop →
    g.insert (slide st) (p - drop) = slide (f.insert st p)
  best : ∀ st p rep ll0, Ok st → start ≤ p → p < stop → Within window rep →
    g.best (slide st) (p - drop) rep ll0 = f.best st p rep ll0

namespace LazyState

section Slide

variable {σ : Type} {data : Bytes} {drop window start stop : Nat} {slide : σ → σ} {Ok : σ → Prop}
  {f g : LazyFinder σ} {s : LazyState σ}

/-- The state of a lazy parse after a slide. -/
def slide_by (drop : Nat) (slide : σ → σ) (s : LazyState σ) : LazyState σ :=
  ⟨slide s.finder, s.anchor - drop, s.ip - drop, s.inserted - drop, s.out⟩

/-- What the parse keeps: it is past the start and within the window. -/
structure Past (window start : Nat) (Ok : σ → Prop) (s : LazyState σ) : Prop where
  ok : Ok s.finder
  anchor : start ≤ s.anchor
  ip : start ≤ s.ip
  inserted : start ≤ s.inserted
  near : s.out.Near window

theorem Past.index_upto (hs : s.Past window start Ok)
    (hf : f.Slides window drop start stop slide Ok g) (upto : Nat) :
    (s.index_upto f upto).Past window start Ok :=
  ⟨index_upto_inv hf.keeps hs.ok upto, hs.anchor, hs.ip, le_max_of_le_left hs.inserted, hs.near⟩

theorem index_upto_slid (hf : f.Slides window drop start stop slide Ok g) (hdrop : drop ≤ start)
    (hs : s.Past window start Ok) {upto : Nat} (hupto : upto ≤ stop) :
    (s.slide_by drop slide).index_upto g (upto - drop) =
      (s.index_upto f upto).slide_by drop slide := by
  have hins := hs.inserted
  have hfold : (List.range' (s.inserted - drop) (upto - drop - (s.inserted - drop))).foldl g.insert
      (slide s.finder) = slide ((List.range' s.inserted (upto - s.inserted)).foldl f.insert
        s.finder) := by
    rw [show upto - drop - (s.inserted - drop) = upto - s.inserted by omega]
    rcases Nat.lt_or_ge upto s.inserted with hlt | hle
    · rw [Nat.sub_eq_zero_of_le hlt.le]
      rfl
    · exact foldl_range'_slid hdrop Ok hf.keeps hf.insert _ _ _ hs.ok hins (by omega)
  show LazyState.mk _ _ _ (max (s.inserted - drop) (upto - drop)) _ =
    LazyState.mk _ _ _ (max s.inserted upto - drop) _
  rw [show max (s.inserted - drop) (upto - drop) = max s.inserted upto - drop by omega]
  exact congrArg (LazyState.mk · _ _ _ _) hfold

/-- The look-ahead before and after a slide: the same match, at the same place. -/
theorem look_ahead_slid (hf : f.Slides window drop start stop slide Ok g) (hdrop : drop ≤ start)
    {ilimit : Nat} (hlim : ilimit < stop) (steps : Nat) (hs : s.Past window start Ok)
    (ml moff obits : Nat) :
    look_ahead g (ilimit - drop) steps (s.slide_by drop slide) ml moff obits =
        ((look_ahead f ilimit steps s ml moff obits).1.slide_by drop slide,
          (look_ahead f ilimit steps s ml moff obits).2) ∧
      (look_ahead f ilimit steps s ml moff obits).1.Past window start Ok := by
  induction steps generalizing s ml moff obits with
  | zero => exact ⟨rfl, hs⟩
  | succ steps ih =>
    have hip := hs.ip
    by_cases hnext : s.ip < ilimit
    · have hpast := hs.index_upto hf (s.ip + 1)
      have hupto := index_upto_slid hf hdrop hs (by omega : s.ip + 1 ≤ stop)
      have hbest := hf.best (s.index_upto f (s.ip + 1)).finder (s.ip + 1) s.out.rep false hpast.ok
        (by omega) (by omega) hs.near.rep
      generalize hm : f.best (s.index_upto f (s.ip + 1)).finder (s.ip + 1) s.out.rep false = m
        at hbest
      have hnext' : (s.slide_by drop slide).ip < ilimit - drop := by
        show s.ip - drop < _
        omega
      have hsucc : (s.slide_by drop slide).ip + 1 = s.ip + 1 - drop := by
        show s.ip - drop + 1 = _
        omega
      have hm' : g.best
          ((s.slide_by drop slide).index_upto g ((s.slide_by drop slide).ip + 1)).finder
          ((s.slide_by drop slide).ip + 1) (s.slide_by drop slide).out.rep false = m := by
        rw [hsucc, hupto]
        exact hbest
      rw [look_ahead_succ f hnext steps ml moff obits hm,
        look_ahead_succ g hnext' steps ml moff obits hm', hsucc, hupto]
      show (if MIN_MATCH ≤ m.1 ∧ gain ml obits + 4 < gain m.1 (offset_bits s.out.rep m.2 false) then
        _ else _) = _ ∧ _
      split_ifs with hgain
      · exact @ih { s.index_upto f (s.ip + 1) with ip := s.ip + 1 }
          ⟨hpast.ok, hpast.anchor, Nat.le_succ_of_le hip, hpast.inserted, hpast.near⟩ _ _ _
      · exact ⟨rfl, hpast⟩
    · have hnext' : ¬(s.slide_by drop slide).ip < ilimit - drop := by
        show ¬s.ip - drop < _
        omega
      rw [look_ahead, look_ahead, if_neg hnext, if_neg hnext']
      exact ⟨rfl, hs⟩

theorem parse_step_slid (hf : f.Slides window drop start stop slide Ok g)
    (hnear : NearFinder window f) (hdrop : drop ≤ start) (lazy_steps : Nat)
    (hs : s.Past window start Ok) (hlim : s.ip + MIN_MATCH ≤ stop) :
    parse_step g (data.drop drop) (stop - drop) lazy_steps (s.slide_by drop slide) =
        (parse_step f data stop lazy_steps s).slide_by drop slide ∧
      (parse_step f data stop lazy_steps s).Past window start Ok := by
  have hmin : MIN_MATCH = 4 := rfl
  have hip := hs.ip
  have hanchor := hs.anchor
  have hnear' := parse_step_near hnear data stop lazy_steps hs.near
  have hpast := hs.index_upto hf s.ip
  have hupto := index_upto_slid hf hdrop hs (by omega : s.ip ≤ stop)
  have hll0 : (s.ip - drop == s.anchor - drop) = (s.ip == s.anchor) := by
    rw [Bool.eq_iff_iff, beq_iff_eq, beq_iff_eq]
    omega
  have hbest := hf.best (s.index_upto f s.ip).finder s.ip s.out.rep (s.ip == s.anchor) hpast.ok hip
    (by omega) hs.near.rep
  generalize hm : f.best (s.index_upto f s.ip).finder s.ip s.out.rep (s.ip == s.anchor) = m at hbest
  have hm' : g.best ((s.slide_by drop slide).index_upto g (s.slide_by drop slide).ip).finder
      (s.slide_by drop slide).ip (s.slide_by drop slide).out.rep
      ((s.slide_by drop slide).ip == (s.slide_by drop slide).anchor) = m := by
    show g.best ((s.slide_by drop slide).index_upto g (s.ip - drop)).finder (s.ip - drop) s.out.rep
      (s.ip - drop == s.anchor - drop) = m
    rw [hll0, hupto]
    exact hbest
  obtain ⟨hahead, hpast'⟩ := look_ahead_slid hf hdrop (by omega : stop - MIN_MATCH < stop)
    lazy_steps hpast m.1 m.2 (offset_bits s.out.rep m.2 (s.ip == s.anchor))
  generalize hr : look_ahead f (stop - MIN_MATCH) lazy_steps (s.index_upto f s.ip) m.1 m.2
    (offset_bits s.out.rep m.2 (s.ip == s.anchor)) = r at hahead hpast'
  obtain ⟨s', ml, moff⟩ := r
  have hr' : look_ahead g (stop - drop - MIN_MATCH) lazy_steps
      ((s.slide_by drop slide).index_upto g (s.slide_by drop slide).ip) m.1 m.2
      (offset_bits (s.slide_by drop slide).out.rep m.2
        ((s.slide_by drop slide).ip == (s.slide_by drop slide).anchor)) =
      (s'.slide_by drop slide, ml, moff) := by
    show look_ahead g (stop - drop - MIN_MATCH) lazy_steps
      ((s.slide_by drop slide).index_upto g (s.ip - drop)) m.1 m.2
      (offset_bits s.out.rep m.2 (s.ip - drop == s.anchor - drop)) = _
    rw [hll0, hupto, Nat.sub_right_comm]
    exact hahead
  rw [parse_step_eq f data stop lazy_steps s hm hr] at hnear' ⊢
  rw [parse_step_eq g (data.drop drop) (stop - drop) lazy_steps (s.slide_by drop slide) hm' hr']
  by_cases hshort : m.1 < MIN_MATCH
  · rw [if_pos hshort] at hnear' ⊢
    rw [if_pos hshort]
    refine ⟨?_, hpast.ok, hanchor, Nat.le_succ_of_le hip, hpast.inserted, hnear'⟩
    show ({ (s.slide_by drop slide).index_upto g (s.ip - drop) with ip := s.ip - drop + 1 } :
      LazyState σ) = _
    rw [hupto]
    exact congrArg (LazyState.mk _ _ · _ _) (show s.ip - drop + 1 = s.ip + 1 - drop by omega)
  · rw [if_neg hshort] at hnear' ⊢
    rw [if_neg hshort]
    have hip' := hpast'.ip
    have hanchor' := hpast'.anchor
    dsimp only at hip' hanchor' hpast'
    have hlast := index_upto_slid hf hdrop hpast'
      (by omega : min (s'.ip + ml) (stop - MIN_MATCH + 1) ≤ stop)
    have hend := hpast'.index_upto hf (min (s'.ip + ml) (stop - MIN_MATCH + 1))
    refine ⟨?_, hend.ok, Nat.le_add_right_of_le hip', Nat.le_add_right_of_le hip', hend.inserted,
      hnear'⟩
    have hupto' : min ((s'.slide_by drop slide).ip + ml) (stop - drop - MIN_MATCH + 1) =
        min (s'.ip + ml) (stop - MIN_MATCH + 1) - drop := by
      show min (s'.ip - drop + ml) _ = _
      omega
    have hstop : s'.ip - drop + ml = s'.ip + ml - drop := by omega
    dsimp only
    rw [hupto', hlast]
    show LazyState.mk _ (s'.ip - drop + ml) (s'.ip - drop + ml) _
      (s'.out.push (data.drop drop) (s'.anchor - drop) (s'.ip - drop) ml moff) = _
    rw [hstop, s'.out.push_slid (by omega)]
    rfl

theorem parse_block_slid (hf : f.Slides window drop start stop slide Ok g)
    (hnear : NearFinder window f) (hdrop : drop ≤ start) (lazy_steps : Nat) {rep : Reps}
    (hrep : Within window rep) {finder : σ} (hok : Ok finder) :
    parse_block g (data.drop drop) (start - drop) (stop - drop) lazy_steps rep (slide finder) =
      ((parse_block f data start stop lazy_steps rep finder).1,
        slide (parse_block f data start stop lazy_steps rep finder).2) := by
  have hmin : MIN_MATCH = 4 := rfl
  unfold parse_block
  by_cases hshort : stop < start + MIN_MATCH + 1
  · rw [if_pos hshort, if_pos (by omega), literal_parse_slid hdrop]
  · rw [if_neg hshort, if_neg (by omega)]
    obtain ⟨hpast, heq⟩ := @While.iterate_map (LazyState σ) (LazyState σ)
      (fun s => decide (s.ip ≤ stop - MIN_MATCH)) (parse_step f data stop lazy_steps)
      (fun s => decide (s.ip ≤ stop - drop - MIN_MATCH))
      (parse_step g (data.drop drop) (stop - drop) lazy_steps) (slide_by drop slide)
      (Past window start Ok)
      (fun s hs => decide_eq_decide.mpr (by
        have hip := hs.ip
        show s.ip - drop ≤ _ ↔ _
        omega))
      (fun s hs hc => by
        have hlim := of_decide_eq_true hc
        have hip := hs.ip
        exact (parse_step_slid hf hnear hdrop lazy_steps hs (by omega)).symm)
      (stop - start) ⟨finder, start, start, start, ⟨[], [], rep⟩⟩
      ⟨hok, le_refl _, le_refl _, le_refl _, ParseOut.near_start hrep⟩
    rw [slide_by] at heq
    dsimp only
    rw [show stop - drop - (start - drop) = stop - start by omega, heq]
    exact congrArg (Prod.mk · _) (ParseOut.finish_slid _ (hdrop.trans hpast.anchor))

end Slide

end LazyState

theorem lazy_parse_block_slid {cast : Nat → Int} {drop window start stop max_offset : Nat}
    (h : Slid cast drop window start stop) (hmax : max_offset ≤ window) (data : Bytes) {rep : Reps}
    (hrep : Within window rep) (lazy_steps depth : Nat) {st : ChainState}
    (hring : st.slide_period ∣ drop) :
    lazy_parse_block cast (data.drop drop) (start - drop) (stop - drop) max_offset rep lazy_steps
        depth (st.reduce_index unbounded drop) =
      ((lazy_parse_block unbounded data start stop max_offset rep lazy_steps depth st).1,
        (lazy_parse_block unbounded data start stop max_offset rep lazy_steps depth
          st).2.reduce_index unbounded drop) := by
  refine @LazyState.parse_block_slid _ data drop window start stop _
    (fun st : ChainState => st.slide_period ∣ drop) _ _ ⟨fun _ _ hst => hst, ?_, ?_⟩ ?_ h.le
    lazy_steps rep hrep st hring
  · exact fun st p hst hp hstop => ChainState.insert_slid h hst hp hstop
  · exact fun st p rep ll0 hst hp _ hrep =>
      ChainState.best_match_at_slid h hmax hst hp depth hrep ll0
  · exact fun st p rep ll0 hrep => ChainState.best_match_at_near hmax hrep st data p stop depth ll0

end ZstdPure.Encode
