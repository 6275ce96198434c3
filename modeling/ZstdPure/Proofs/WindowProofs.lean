import ZstdPure.Encode.Finder
import ZstdPure.Proofs.OptParseProofs

/-!
# Proofs: parses within the window

Every finder searches within its window only, and a repeat offset is a distance used before. So no
sequence of a parse reaches beyond the window, whatever the tables of the finder hold.
-/

namespace ZstdPure.Encode

open Sequences

/-! ## Offset values -/

/-- No repeat offset reaches beyond the window. -/
structure Within (window : Nat) (rep : Reps) : Prop where
  r0 : rep.r0 ≤ window
  r1 : rep.r1 ≤ window
  r2 : rep.r2 ≤ window

/-- The sequences have no offset value beyond the literal form of the window. -/
def Near (window : Nat) (seqs : List Seq) : Prop := ∀ s ∈ seqs, s.offset_value ≤ window + 3

/-- A match long enough to be used is within the window. -/
def NearMatch (window : Nat) (m : Nat × Nat) : Prop := MIN_MATCH ≤ m.1 → m.2 ≤ window

section Offsets

variable {window offset_value off : Nat} {rep : Reps} {seqs more : List Seq}

/-- From repeat offsets within the window, such an offset value resolves to a distance within it. -/
theorem Within.resolve (h : Within window rep) (hle : offset_value ≤ window + 3) (ll0 : Bool) :
    (rep.resolve offset_value ll0).1 ≤ window ∧ Within window (rep.resolve offset_value ll0).2 := by
  obtain ⟨h0, h1, h2⟩ := h
  unfold Reps.resolve
  split_ifs with hlit
  · have hoff : offset_value - 3 ≤ window := by omega
    exact ⟨hoff, hoff, h0, h1⟩
  · generalize offset_value - 1 + ll0.toNat = code
    match code with
    | 0 => exact ⟨h0, h0, h1, h2⟩
    | 1 => exact ⟨h1, h1, h0, h2⟩
    | 2 => exact ⟨h2, h2, h0, h1⟩
    | n + 3 => exact ⟨(Nat.sub_le _ _).trans h0, (Nat.sub_le _ _).trans h0, h0, h1⟩

/-- No repeat code stands for a distance beyond the window. -/
theorem Within.repeat_offset (h : Within window rep) (ov : Nat) (ll0 : Bool) :
    rep_resolved_offset rep ov ll0 ≤ window := by
  unfold rep_resolved_offset
  split
  · exact h.r0
  · exact h.r1
  · exact h.r2
  · exact (Nat.sub_le _ _).trans h.r0

theorem encode_offset_le (rep : Reps) (off : Nat) (ll0 : Bool) :
    1 ≤ encode_offset rep off ll0 ∧ encode_offset rep off ll0 ≤ off + 3 := by
  unfold encode_offset
  split_ifs <;> omega

/-- The offset value of a distance within the window, and the repeat offsets after it. -/
theorem Within.encode (h : Within window rep) (hoff : off ≤ window) (ll0 : Bool) :
    encode_offset rep off ll0 ≤ window + 3 ∧
      Within window (Encode.resolve rep (encode_offset rep off ll0) ll0).2 := by
  obtain ⟨hpos, hle⟩ := encode_offset_le rep off ll0
  have hnear : encode_offset rep off ll0 ≤ window + 3 := by omega
  refine ⟨hnear, ?_⟩
  rw [resolve_eq rep hpos]
  exact (h.resolve hnear ll0).2

theorem Near.nil (window : Nat) : Near window [] := fun _ hs => absurd hs List.not_mem_nil

theorem Near.append (h : Near window seqs) (hmore : Near window more) :
    Near window (seqs ++ more) := by
  intro s hs
  rcases List.mem_append.mp hs with hs | hs
  · exact h s hs
  · exact hmore s hs

theorem Near.singleton {s : Seq} (h : s.offset_value ≤ window + 3) : Near window [s] := by
  intro s' hs'
  rw [List.mem_singleton.mp hs']
  exact h

theorem nearMatch_short {m : Nat × Nat} (h : m.1 < MIN_MATCH) : NearMatch window m :=
  fun hlen => absurd hlen (Nat.not_le_of_lt h)

end Offsets

/-! ## The parse in progress -/

/-- The sequences so far are within the window, and so are the repeat offsets after them. -/
structure ParseOut.Near (window : Nat) (out : ParseOut) : Prop where
  seqs : Encode.Near window out.seqs
  rep : Within window out.rep

/-- A candidate within the window. -/
structure Candidate.Near (window : Nat) (c : Candidate) : Prop where
  seqs : Encode.Near window c.parse.seqs
  rep : Within window c.rep

section Parsing

variable {data : Bytes} {window start stop anchor p ml off : Nat} {rep : Reps} {out : ParseOut}

theorem ParseOut.near_start (h : Within window rep) : ParseOut.Near window ⟨[], [], rep⟩ :=
  ⟨Near.nil window, h⟩

theorem ParseOut.Near.push (h : out.Near window) (data : Bytes) (anchor p ml : Nat)
    (hoff : off ≤ window) : (out.push data anchor p ml off).Near window := by
  have hcode := h.rep.encode ((Nat.mod_le off (2 ^ 32)).trans hoff) ((p - anchor) == 0)
  exact ⟨h.seqs.append (Near.singleton hcode.1), hcode.2⟩

theorem ParseOut.Near.finish (h : out.Near window) (data : Bytes) (anchor stop : Nat) :
    (out.finish data anchor stop).Near window := ⟨h.seqs, h.rep⟩

theorem literal_parse_near (h : Within window rep) (data : Bytes) (start stop : Nat) :
    (literal_parse data start stop rep).Near window := ⟨Near.nil window, h⟩

theorem rep_match_at_near (h : Within window rep) (data : Bytes) (p stop : Nat) (ll0 : Bool) :
    NearMatch window (rep_match_at data p stop rep ll0) := by
  have hoff := h.repeat_offset 1 ll0
  unfold rep_match_at
  dsimp only
  split_ifs
  · exact nearMatch_short (by decide)
  · exact fun _ => hoff
  · exact nearMatch_short (by decide)

end Parsing

/-! ## The single-slot finders -/

section Single

variable {data : Bytes} {window start stop max_offset p : Nat} {rep : Reps}

theorem MatchState.parse_block_near (hmax : max_offset ≤ window) (h : Within window rep)
    (cast : Nat → Int) (data : Bytes) (start stop : Nat) (st : MatchState) :
    (MatchState.parse_block cast data start stop max_offset rep st).1.Near window := by
  unfold MatchState.parse_block
  split_ifs
  · exact literal_parse_near h data start stop
  · refine ParseOut.Near.finish ?_ data _ stop
    refine While.iterate_inv (fun s : MatchState.Loop => s.out.Near window) ?_ _ _
      (ParseOut.near_start h)
    intro s hs
    unfold MatchState.parse_step
    dsimp only
    split_ifs with hmatch
    · exact hs.push data _ _ _ (hmatch.2.1.trans hmax)
    · exact hs

namespace DFastState

theorem better_near (hmax : max_offset ≤ window) {best : Nat × Nat} (hbest : NearMatch window best)
    (data : Bytes) (p stop : Nat) (cand : Int) :
    NearMatch window (better data p stop max_offset best cand) := by
  unfold better
  dsimp only
  split_ifs with hmatch
  · exact fun _ => hmatch.2.1.trans hmax
  · exact hbest
  · exact hbest

theorem best_match_near (hmax : max_offset ≤ window) (h : Within window rep) (st : DFastState)
    (data : Bytes) (p stop : Nat) (ll0 : Bool) :
    NearMatch window (st.best_match data p stop max_offset rep ll0) := by
  have hnone : NearMatch window (MIN_MATCH - 1, 0) := fun _ => Nat.zero_le window
  have hlong := better_near hmax hnone data p stop (st.cand_long data p stop)
  have hshort := better_near hmax hlong data p stop (st.cand_short data p stop)
  unfold best_match
  dsimp only
  split_ifs
  · exact rep_match_at_near h data p stop ll0
  · exact hshort

theorem dfast_parse_block_near (hmax : max_offset ≤ window) (h : Within window rep)
    (cast : Nat → Int) (data : Bytes) (start stop : Nat) (st : DFastState) :
    (dfast_parse_block cast data start stop max_offset rep st).1.Near window := by
  unfold dfast_parse_block
  split_ifs
  · exact literal_parse_near h data start stop
  · refine ParseOut.Near.finish ?_ data _ stop
    refine While.iterate_inv (fun s : Loop => s.out.Near window) ?_ _ _ (ParseOut.near_start h)
    intro s hs
    have hbest := best_match_near hmax hs.rep s.state data s.p stop (s.p == s.anchor)
    unfold parse_step
    dsimp only
    split_ifs with hlong
    · exact hs.push data _ _ _ (hbest hlong)
    · exact hs

end DFastState

end Single

/-! ## The chain and the tree -/

section Walks

variable {data : Bytes} {window stop ip max_offset : Nat} {rep : Reps}

namespace ChainState

/-- The walk of `find` stops at the first position beyond the window. -/
theorem find_from_near (hmax : max_offset ≤ window) (st : ChainState) (n : Nat) {cand : Int}
    {best : Nat × Nat} (hbest : NearMatch window (best.1, ip - best.2)) :
    NearMatch window ((st.find_from data ip stop max_offset n cand best).1,
      ip - (st.find_from data ip stop max_offset n cand best).2) := by
  induction n generalizing cand best with
  | zero => exact hbest
  | succ n ih =>
    unfold find_from
    dsimp only
    by_cases hend : cand < 0 ∨ max_offset < ip - cand.toNat
    · rw [if_pos hend]
      exact hbest
    · rw [if_neg hend]
      have hnear : ip - cand.toNat ≤ window := (Nat.le_of_not_lt (not_or.mp hend).2).trans hmax
      split_ifs
      · exact ih fun _ => hnear
      · exact ih hbest
      · exact fun _ => hnear
      · exact hbest

theorem find_near (hmax : max_offset ≤ window) (st : ChainState) (data : Bytes)
    (ip stop depth : Nat) :
    NearMatch window ((st.find data ip stop max_offset depth).1,
      ip - (st.find data ip stop max_offset depth).2) := by
  have hnone : NearMatch window (MIN_MATCH - 1, ip - 0) :=
    nearMatch_short (show MIN_MATCH - 1 < MIN_MATCH by decide)
  have hfound := @find_from_near data window stop ip max_offset hmax st depth
    (slot st.head (st.hash data ip)) (MIN_MATCH - 1, 0) hnone
  unfold find
  dsimp only
  split_ifs
  · exact hfound
  · exact nearMatch_short (show 0 < MIN_MATCH by decide)

theorem best_match_at_near (hmax : max_offset ≤ window) (h : Within window rep) (st : ChainState)
    (data : Bytes) (p stop depth : Nat) (ll0 : Bool) :
    NearMatch window (st.best_match_at data p stop max_offset depth rep ll0) := by
  have hfind := find_near hmax st data p stop depth
  unfold best_match_at
  dsimp only
  split_ifs
  · exact rep_match_at_near h data p stop ll0
  · exact hfind
  · exact nearMatch_short (by decide)

/-- So does the walk of `find_matches`. -/
theorem find_matches_from_near (hmax : max_offset ≤ window) (st : ChainState) (cap n : Nat)
    {cand : Int} {best : Nat} {out : List (Nat × Nat)} (hout : ∀ m ∈ out, m.2 ≤ window) :
    ∀ m ∈ st.find_matches_from data ip stop max_offset cap n cand best out, m.2 ≤ window := by
  induction n generalizing cand best out with
  | zero => exact hout
  | succ n ih =>
    unfold find_matches_from
    dsimp only
    by_cases hend : cand < 0 ∨ max_offset < ip - cand.toNat
    · rw [if_pos hend]
      exact hout
    · rw [if_neg hend]
      have hnear : ip - cand.toNat ≤ window := (Nat.le_of_not_lt (not_or.mp hend).2).trans hmax
      have hpush : ∀ ml, ∀ m ∈ out ++ [(ml, (ip - cand.toNat) % 2 ^ 32)], m.2 ≤ window := by
        intro ml m hm
        rcases List.mem_append.mp hm with hm | hm
        · exact hout m hm
        · rw [List.mem_singleton.mp hm]
          exact (Nat.mod_le _ _).trans hnear
      split_ifs
      · exact hpush _
      · exact ih (hpush _)
      · exact hpush _
      · exact hout
      · exact ih hout
      · exact hout

end ChainState

namespace BtState

/-- A node above the low end of the window is within it. -/
theorem near_of_window_low (hmax : max_offset ≤ window) (st : BtState) {mi : Nat}
    (h : st.window_low ip max_offset < mi) : ip - mi ≤ window := by
  unfold window_low at h
  omega

theorem find_longest_from_near (hmax : max_offset ≤ window) (st : BtState) (nb : Nat)
    {match_index : Int} {common_smaller common_larger : Nat} {best : Nat × Nat}
    (hbest : NearMatch window (best.1, ip - best.2)) :
    NearMatch window ((st.find_longest_from data ip stop (st.window_low ip max_offset) nb
      match_index
        common_smaller common_larger best).1,
      ip - (st.find_longest_from data ip stop (st.window_low ip max_offset) nb match_index
        common_smaller common_larger best).2) := by
  induction nb generalizing match_index common_smaller common_larger best with
  | zero => exact hbest
  | succ nb ih =>
    unfold find_longest_from
    by_cases hlive : 0 ≤ match_index ∧ st.window_low ip max_offset < match_index.toNat
    · rw [if_pos hlive]
      have hnear := near_of_window_low hmax st hlive.2
      dsimp only
      generalize min common_smaller common_larger = from_
      generalize from_ + common_len data (match_index.toNat + from_) (ip + from_) stop = ml
      have hbest' : NearMatch window ((if best.1 < ml then (ml, match_index.toNat) else best).1,
          ip - (if best.1 < ml then (ml, match_index.toNat) else best).2) := by
        split_ifs
        · exact fun _ => hnear
        · exact hbest
      generalize (if best.1 < ml then (ml, match_index.toNat) else best) = best at hbest' ⊢
      split_ifs
      · exact hbest'
      · exact ih hbest'
      · exact ih hbest'
    · rw [if_neg hlive]
      exact hbest

theorem find_longest_near (hmax : max_offset ≤ window) (st : BtState) (data : Bytes)
    (ip stop depth : Nat) :
    NearMatch window ((st.find_longest data ip stop max_offset depth).1,
      ip - (st.find_longest data ip stop max_offset depth).2) :=
  find_longest_from_near hmax st depth (nearMatch_short (show 0 < MIN_MATCH by decide))

theorem descend_all_near (hmax : max_offset ≤ window) (st : BtState) (curr nb : Nat) {d : Descent}
    (hout : ∀ m ∈ d.out, m.2 ≤ window) :
    ∀ m ∈ (st.descend_all data curr stop (st.window_low curr max_offset) nb d).out,
    m.2 ≤ window := by
  induction nb generalizing d with
  | zero => exact hout
  | succ nb ih =>
    unfold descend_all
    by_cases hlive : 0 ≤ d.match_index ∧ st.window_low curr max_offset < d.match_index.toNat
    · rw [if_pos hlive]
      have hnear := near_of_window_low hmax st hlive.2
      dsimp only
      generalize min d.common_smaller d.common_larger = from_
      generalize from_ + common_len data (d.match_index.toNat + from_) (curr + from_) stop = ml
      have hpush : ∀ m ∈ d.out ++ [(ml % 2 ^ 32, (curr - d.match_index.toNat) % 2 ^ 32)],
          m.2 ≤ window := by
        intro m hm
        rcases List.mem_append.mp hm with hm | hm
        · exact hout m hm
        · rw [List.mem_singleton.mp hm]
          exact (Nat.mod_le _ _).trans hnear
      have hsame : ∀ d' : Descent, (st.descend data curr d.match_index.toNat ml d').out = d'.out :=
        fun d' => (st.descend_eq data curr d.match_index.toNat ml d').2.2.2.2.1
      split_ifs
      · exact hpush
      · exact hout
      · refine ih ?_
        rw [hsame]
        exact hpush
      · refine ih ?_
        rw [hsame]
        exact hout
    · rw [if_neg hlive]
      exact hout

end BtState

theorem bt_lazy_best_near (hmax : max_offset ≤ window) (chain : ChainState) (tree : BtState)
    (data : Bytes) (ip stop depth : Nat) (rep : Reps) (ll0 : Bool) :
    NearMatch window ((bt_lazy_best chain tree data ip stop max_offset depth rep ll0).1,
      ip - (bt_lazy_best chain tree data ip stop max_offset depth rep ll0).2) := by
  have hchain := ChainState.find_near hmax chain data ip stop depth
  have htree := BtState.find_longest_near hmax tree data ip stop depth
  unfold bt_lazy_best
  dsimp only
  split_ifs
  · exact htree
  · exact hchain

theorem bt_best_match_near (hmax : max_offset ≤ window) (h : Within window rep) (chain : ChainState)
    (tree : BtState) (data : Bytes) (ip stop depth : Nat) (ll0 : Bool) :
    NearMatch window (bt_best_match chain tree data ip stop max_offset depth rep ll0) := by
  have hlazy := bt_lazy_best_near hmax chain tree data ip stop depth rep ll0
  unfold bt_best_match
  dsimp only
  split_ifs
  · exact rep_match_at_near h data ip stop ll0
  · exact hlazy
  · exact nearMatch_short (by decide)

end Walks

/-! ## The lazy parses -/

namespace LazyState

section Lazy

variable {σ : Type} {f : LazyFinder σ} {window : Nat} {rep : Reps} {s : LazyState σ}

/-- The finder offers matches within the window only, from repeat offsets within it. -/
def NearFinder (window : Nat) (f : LazyFinder σ) : Prop :=
  ∀ st p rep ll0, Within window rep → NearMatch window (f.best st p rep ll0)

/-- The look-ahead leaves the parse as it is, and goes from a match within the window to another. -/
theorem look_ahead_near (hf : NearFinder window f) (ilimit steps : Nat) (hs : s.out.Near window)
    {ml moff : Nat} (hoff : moff ≤ window) (obits : Nat) :
    (look_ahead f ilimit steps s ml moff obits).1.out = s.out ∧
      (look_ahead f ilimit steps s ml moff obits).2.2 ≤ window := by
  induction steps generalizing s ml moff obits with
  | zero => exact ⟨rfl, hoff⟩
  | succ steps ih =>
    by_cases hnext : s.ip < ilimit
    · have hbest := hf (s.index_upto f (s.ip + 1)).finder (s.ip + 1) s.out.rep false hs.rep
      generalize hm : f.best (s.index_upto f (s.ip + 1)).finder (s.ip + 1) s.out.rep false =
        m at hbest
      rw [look_ahead_succ f hnext steps ml moff obits hm]
      split_ifs with hgain
      · exact @ih { s.index_upto f (s.ip + 1) with ip := s.ip + 1 } hs _ _ (hbest hgain.1) _
      · exact ⟨rfl, hoff⟩
    · unfold look_ahead
      rw [if_neg hnext]
      exact ⟨rfl, hoff⟩

theorem parse_step_near (hf : NearFinder window f) (data : Bytes) (stop lazy_steps : Nat)
    (hs : s.out.Near window) : (parse_step f data stop lazy_steps s).out.Near window := by
  have hbest := hf (s.index_upto f s.ip).finder s.ip s.out.rep (s.ip == s.anchor) hs.rep
  generalize hm : f.best (s.index_upto f s.ip).finder s.ip s.out.rep (s.ip == s.anchor) = m at hbest
  obtain ⟨s', r, hr⟩ : ∃ s' r, look_ahead f (stop - MIN_MATCH) lazy_steps (s.index_upto f s.ip) m.1
    m.2
      (offset_bits s.out.rep m.2 (s.ip == s.anchor)) = (s', r) := ⟨_, _, rfl⟩
  rw [parse_step_eq f data stop lazy_steps s hm hr]
  split_ifs with hshort
  · exact hs
  · obtain ⟨hout, hoff⟩ := @look_ahead_near _ f window (s.index_upto f s.ip) hf (stop - MIN_MATCH)
      lazy_steps hs m.1 _ (hbest (Nat.le_of_not_lt hshort))
      (offset_bits s.out.rep m.2 (s.ip == s.anchor))
    rw [hr] at hout hoff
    have hs' : s'.out.Near window := by
      rw [show s'.out = s.out from hout]
      exact hs
    exact hs'.push data _ _ _ hoff

theorem parse_block_near (hf : NearFinder window f) (h : Within window rep) (data : Bytes)
    (start stop lazy_steps : Nat) (finder : σ) :
    (parse_block f data start stop lazy_steps rep finder).1.Near window := by
  unfold parse_block
  split_ifs
  · exact literal_parse_near h data start stop
  · refine ParseOut.Near.finish ?_ data _ stop
    exact While.iterate_inv (fun s : LazyState σ => s.out.Near window)
      (fun s hs => parse_step_near hf data stop lazy_steps hs) _ _ (ParseOut.near_start h)

end Lazy

end LazyState

/-! ## The optimal parse -/

/-- A cell whose match is within the window, and whose repeat offsets are. -/
structure Opt.Near (window : Nat) (c : Opt) : Prop where
  offval : c.offval ≤ window + 3
  rep : Within window c.rep

section Cells

variable {data : Bytes} {window start n : Nat} {prices : Prices} {h : Here} {opt : List Opt}

theorem Opt.unreached_near (window : Nat) : Opt.unreached.Near window :=
  ⟨Nat.zero_le _, Nat.zero_le _, Nat.zero_le _, Nat.zero_le _⟩

/-- Every cell of the program is within the window. -/
def CellsNear (window : Nat) (opt : List Opt) : Prop := ∀ c ∈ opt, Opt.Near window c

theorem CellsNear.cell (hopt : CellsNear window opt) (j : Nat) : (cell opt j).Near window := by
  unfold Encode.cell
  rcases Nat.lt_or_ge j opt.length with hj | hj
  · rw [List.getD_eq_getElem _ _ hj]
    exact hopt _ (List.getElem_mem hj)
  · rw [List.getD_eq_default _ _ hj]
    exact Opt.unreached_near window

theorem CellsNear.improve (hopt : CellsNear window opt) {c : Opt} (hc : c.Near window) (j : Nat) :
    CellsNear window (improve opt j c) := by
  unfold Encode.improve
  split_ifs
  · intro c' hc'
    rcases List.mem_or_eq_of_mem_set hc' with hmem | rfl
    · exact hopt c' hmem
    · exact hc
  · exact hopt

theorem Here.literal_near (hcell : h.cell.Near window) (b : UInt8) : (h.literal b).Near window :=
  ⟨Nat.zero_le _, hcell.rep⟩

theorem Here.extend_near (hcell : h.cell.Near window) (len : Nat) {off : Nat}
    (hoff : off ≤ window) :
    (h.extend len off).Near window := by
  have hcode := hcell.rep.encode hoff h.ll0
  exact ⟨hcode.1, hcode.2⟩

theorem CellsNear.offer (hopt : CellsNear window opt) (hcell : h.cell.Near window) (low len : Nat)
    {off : Nat} (hoff : off ≤ window) : CellsNear window (h.offer low len off opt) := by
  have hcuts : ∀ cuts : List Nat, ∀ opt, CellsNear window opt → CellsNear window
      (cuts.foldl (fun opt l => Encode.improve opt (h.i + l) (h.extend l off)) opt) := by
    intro cuts
    induction cuts with
    | nil => exact fun _ hopt => hopt
    | cons l cuts ih => exact fun _ hopt => ih _ (hopt.improve (Here.extend_near hcell l hoff) _)
  have hshort := hcuts (List.range' low (min len MAX_SUBLEN + 1 - low)) opt hopt
  unfold Here.offer
  dsimp only
  split_ifs
  · exact hshort.improve (Here.extend_near hcell len hoff) _
  · exact hshort

theorem CellsNear.offer_rep (hopt : CellsNear window opt) (hcell : h.cell.Near window)
    (data : Bytes)
    (start n ov : Nat) : CellsNear window (h.offer_rep data start n opt ov) := by
  have hoff := hcell.rep.repeat_offset ov h.ll0
  unfold Here.offer_rep
  dsimp only
  split_ifs
  · exact hopt
  · exact hopt
  · exact hopt.offer hcell _ _ hoff

theorem CellsNear.offer_reps (hcell : h.cell.Near window) (data : Bytes) (start n : Nat)
    (ovs : List Nat) (hopt : CellsNear window opt) :
    CellsNear window (ovs.foldl (h.offer_rep data start n) opt) := by
  induction ovs generalizing opt with
  | nil => exact hopt
  | cons ov ovs ih => exact ih (hopt.offer_rep hcell data start n ov)

theorem CellsNear.offer_matches (hopt : CellsNear window opt) (hcell : h.cell.Near window)
    {cands : List (Nat × Nat)} (hcands : ∀ c ∈ cands, c.2 ≤ window) :
    CellsNear window (h.offer_matches cands opt) := by
  unfold Here.offer_matches
  suffices hfold : ∀ (cs : List (Nat × Nat)) (s : List Opt × Nat), (∀ c ∈ cs, c.2 ≤ window) →
      CellsNear window s.1 → CellsNear window (cs.foldl (fun (s : List Opt × Nat) c =>
        (h.offer (max (s.2 + 1) MIN_MATCH) c.1 c.2 s.1, c.1)) s).1 from hfold cands _ hcands hopt
  intro cs
  induction cs with
  | nil => exact fun s _ hs => hs
  | cons c cs ih =>
    intro s hcs hs
    exact ih _ (fun c' hc' => hcs c' (List.mem_cons_of_mem c hc'))
      (hs.offer hcell _ _ (hcs c List.mem_cons_self))

/-- The candidates of a stream, and the matches committed, are within the window. -/
structure NearCandidates (window : Nat) (m : Matches) (pos_long : List (Option (Nat × Nat))) :
    Prop where
  cands : ∀ c ∈ m.flat, c.2 ≤ window
  committed : ∀ x ∈ pos_long, ∀ c ∈ x, c.2 ≤ window

theorem NearCandidates.at_ {m : Matches} {pos_long : List (Option (Nat × Nat))}
    (hm : NearCandidates window m pos_long) (i : Nat) : ∀ c ∈ m.at_ i, c.2 ≤ window :=
  fun c hc => hm.cands c (List.mem_of_mem_take (List.mem_of_mem_drop hc))

theorem CellsNear.dp_step {m : Matches} {pos_long : List (Option (Nat × Nat))}
    (hm : NearCandidates window m pos_long) (data : Bytes) (start n : Nat) (prices : Prices)
    (offer_reps : Bool) (hopt : CellsNear window opt) (i : Nat) :
    CellsNear window (dp_step data start n prices m pos_long offer_reps opt i) := by
  have hcell := hopt.cell i
  have hlit := hopt.improve (Here.literal_near (h := ⟨prices, i, Encode.cell opt i⟩) hcell
    (byte_at data (start + i))) (i + 1)
  unfold Encode.dp_step
  dsimp only
  cases hc : pos_long.getD i none with
  | some c =>
    have hmem : some c ∈ pos_long := by
      rcases Nat.lt_or_ge i pos_long.length with hi | hi
      · rw [List.getD_eq_getElem _ _ hi] at hc
        rw [← hc]
        exact List.getElem_mem hi
      · rw [List.getD_eq_default _ _ hi] at hc
        cases hc
    exact hlit.improve (Here.extend_near (h := ⟨prices, i, Encode.cell opt i⟩) hcell c.1
      (hm.committed _ hmem c rfl)) _
  | none =>
    cases offer_reps
    · exact hlit.offer_matches (h := ⟨prices, i, Encode.cell opt i⟩) hcell (hm.at_ i)
    · exact (CellsNear.offer_reps (h := ⟨prices, i, Encode.cell opt i⟩) hcell data start n [1, 2, 3]
        hlit).offer_matches hcell (hm.at_ i)

/-- The cells that the program starts from. -/
theorem cells_start_near {rep : Reps} (hrep : Within window rep) (n : Nat) :
    CellsNear window ((List.replicate (n + 1) Opt.unreached).set 0 ⟨0, 0, 0, 0, rep⟩) := by
  intro c hc
  rcases List.mem_or_eq_of_mem_set hc with hmem | rfl
  · rw [List.eq_of_mem_replicate hmem]
    exact Opt.unreached_near window
  · exact ⟨Nat.zero_le _, hrep⟩

theorem dp_cells_near {m : Matches} {pos_long : List (Option (Nat × Nat))}
    (hm : NearCandidates window m pos_long) {rep : Reps} (hrep : Within window rep) (data : Bytes)
    (start n : Nat) (prices : Prices) (offer_reps : Bool) :
    CellsNear window (dp_cells data start n prices m pos_long rep offer_reps) := by
  have hfold : ∀ is : List Nat, ∀ opt, CellsNear window opt →
      CellsNear window (is.foldl (Encode.dp_step data start n prices m pos_long offer_reps)
        opt) := by
    intro is
    induction is with
    | nil => exact fun _ hopt => hopt
    | cons i is ih => exact fun _ hopt => ih _ (hopt.dp_step hm data start n prices offer_reps i)
  exact hfold _ _ (cells_start_near hrep n)

theorem CellsNear.backtrack (hopt : CellsNear window opt) (fuel : Nat) {pos : Nat} {acc : List Seq}
    (hacc : Near window acc) : Near window (backtrack opt fuel pos acc) := by
  induction fuel generalizing pos acc with
  | zero => exact hacc
  | succ fuel ih =>
    unfold Encode.backtrack
    split_ifs
    · exact ih ((Near.singleton (hopt.cell pos).offval).append hacc)
    · exact hacc

/-- Over candidates within the window, so is the parse that the program finds. -/
theorem run_dp_near {m : Matches} {pos_long : List (Option (Nat × Nat))}
    (hm : NearCandidates window m pos_long) {rep : Reps} (hrep : Within window rep) (data : Bytes)
    (start n : Nat) (prices : Prices) (offer_reps : Bool) :
    Near window (run_dp data start n prices m pos_long rep offer_reps).1 ∧
      Within window (run_dp data start n prices m pos_long rep offer_reps).2 := by
  have hcells := dp_cells_near hm hrep data start n prices offer_reps
  exact ⟨hcells.backtrack n (Near.nil window), (hcells.cell n).rep⟩

end Cells

namespace Collect

section Collecting

variable {window : Nat} {e : CollectEnv} {s : Collect}

theorem no_candidates (window : Nat) : ∀ c ∈ ([] : List (Nat × Nat)), c.2 ≤ window :=
  fun _ hc => absurd hc List.not_mem_nil

/-- All that was collected is within the window. -/
structure Near (window : Nat) (s : Collect) : Prop where
  hybrid : NearCandidates window s.hybrid s.pos_long
  full : NearCandidates window s.full s.pos_long

theorem Near.add (h : s.Near window) (finder : Hybrid) (inserted skip_until : Nat)
    (starts₁ starts₂ : List Nat) {g₁ g₂ : List (Nat × Nat)} {x : Option (Nat × Nat)}
    (h₁ : ∀ c ∈ g₁, c.2 ≤ window) (h₂ : ∀ c ∈ g₂, c.2 ≤ window) (hx : ∀ c ∈ x, c.2 ≤ window) :
    Near window ⟨finder, inserted, skip_until, ⟨starts₁, s.hybrid.flat ++ g₁⟩,
      ⟨starts₂, s.full.flat ++ g₂⟩, s.pos_long ++ [x]⟩ := by
  have hlong : ∀ y ∈ s.pos_long ++ [x], ∀ c ∈ y, c.2 ≤ window := by
    intro y hy
    rcases List.mem_append.mp hy with hy | hy
    · exact h.hybrid.committed y hy
    · rw [List.mem_singleton.mp hy]
      exact hx
  refine ⟨⟨?_, hlong⟩, ⟨?_, hlong⟩⟩
  · intro c hc
    rcases List.mem_append.mp hc with hc | hc
    · exact h.hybrid.cands c hc
    · exact h₁ c hc
  · intro c hc
    rcases List.mem_append.mp hc with hc | hc
    · exact h.full.cands c hc
    · exact h₂ c hc

/-- A position without candidates. -/
theorem Near.skip (h : s.Near window) (finder : Hybrid) (inserted skip_until : Nat)
    (starts₁ starts₂ : List Nat) :
    Near window ⟨finder, inserted, skip_until, ⟨starts₁, s.hybrid.flat⟩, ⟨starts₂, s.full.flat⟩,
      s.pos_long ++ [none]⟩ := by
  have hlong : ∀ c ∈ (none : Option (Nat × Nat)), c.2 ≤ window := fun c hc => by cases hc
  have hadd := h.add finder inserted skip_until starts₁ starts₂ (no_candidates window)
    (no_candidates window) hlong
  rw [List.append_nil, List.append_nil] at hadd
  exact hadd

theorem search_near (hmax : e.max_offset ≤ window) (s : Collect) (ap : Nat) :
    (∀ c ∈ (s.search e ap).1, c.2 ≤ window) ∧ (∀ c ∈ (s.search e ap).2.1, c.2 ≤ window) := by
  exact ⟨ChainState.find_matches_from_near hmax s.finder.chain _ _ (no_candidates window),
    BtState.descend_all_near hmax s.finder.tree ap e.depth (no_candidates window)⟩

theorem record_near (h : s.Near window) (e : CollectEnv) (ap : Nat) {chain tree : List (Nat × Nat)}
    (hchain : ∀ c ∈ chain, c.2 ≤ window) (htree : ∀ c ∈ tree, c.2 ≤ window) :
    (record e ap chain tree s).Near window := by
  have hbest : (if (longest chain).1 < (longest tree).1 then longest tree else longest chain).1 ≠
    0 →
      (if (longest chain).1 < (longest tree).1 then longest tree else longest chain).2 ≤
        window := by
    split_ifs
    · exact fun h0 => htree _ (longest_mem h0)
    · exact fun h0 => hchain _ (longest_mem h0)
  have hfull : ∀ c ∈ reduce_to_frontier (chain ++ tree), c.2 ≤ window := by
    intro c hc
    rcases List.mem_append.mp ((reduce_subperm (chain ++ tree)).subset hc) with hc | hc
    · exact hchain c hc
    · exact htree c hc
  unfold record
  dsimp only
  generalize (if (longest chain).1 < (longest tree).1 then longest tree else longest chain) = best
    at hbest ⊢
  by_cases h0 : best.1 = 0
  · rw [if_pos h0]
    exact h.skip _ _ _ _ _
  · rw [if_neg h0]
    have hcommit : ∀ ml : Nat, ∀ c ∈ some (ml, best.2), c.2 ≤ window := by
      intro ml c hc
      rw [← Option.mem_some_iff.mp hc]
      exact hbest h0
    generalize (if e.suff ≤ best.1 then ChainState.extend_full e.data ap (ap - best.2) e.stop
      else best.1) = long_len
    split_ifs
    · have hadd := h.add s.finder s.inserted (ap + long_len) s.hybrid.starts s.full.starts
        (no_candidates window) (no_candidates window) (hcommit (long_len % 2 ^ 32))
      rw [List.append_nil, List.append_nil] at hadd
      exact hadd
    · exact h.add _ _ _ _ _ hchain hfull (fun c hc => by cases hc)

theorem step_near (hmax : e.max_offset ≤ window) (h : s.Near window) (i : Nat) :
    (step e s i).Near window := by
  have hnoted : ∀ finder inserted, Near window ⟨finder, inserted, s.skip_until, s.hybrid.note,
      s.full.note, s.pos_long⟩ :=
    fun _ _ => ⟨⟨h.hybrid.cands, h.hybrid.committed⟩, ⟨h.full.cands, h.full.committed⟩⟩
  rw [step_eq]
  split_ifs
  · exact h.skip _ _ _ _ _
  · exact h.skip _ _ _ _ _
  · exact h.skip _ _ _ _ _
  · obtain ⟨hchain, htree⟩ := search_near hmax (s.noted.index_upto e (e.start + i)) (e.start + i)
    exact record_near (hnoted _ _) e _ hchain htree

theorem run_near (hmax : e.max_offset ≤ window) (finder : Hybrid) :
    NearCandidates window (run e finder).hybrid (run e finder).pos_long ∧
      NearCandidates window (run e finder).full (run e finder).pos_long := by
  have hfold : ∀ is : List Nat, ∀ s : Collect, s.Near window →
    (is.foldl (step e) s).Near window := by
    intro is
    induction is with
    | nil => exact fun _ hs => hs
    | cons i is ih => exact fun _ hs => ih _ (step_near hmax hs i)
  have hnone : NearCandidates window ⟨[], []⟩ [] :=
    ⟨fun c hc => absurd hc List.not_mem_nil, fun x hx => absurd hx List.not_mem_nil⟩
  obtain ⟨hhybrid, hfull⟩ := hfold (List.range (e.stop - e.start))
    ⟨finder, e.start, e.start, ⟨[], []⟩, ⟨[], []⟩, []⟩ ⟨hnone, hnone⟩
  exact ⟨⟨hhybrid.cands, hhybrid.committed⟩, ⟨hfull.cands, hfull.committed⟩⟩

end Collecting

end Collect

namespace OptEnv

section

variable {window : Nat} {e : OptEnv} {m : Matches}

/-- A parse within the window. -/
def NearParse (window : Nat) (r : List Seq × Reps) : Prop := Near window r.1 ∧ Within window r.2

theorem two_pass_dp_near (hm : NearCandidates window m e.pos_long) (hrep : Within window e.rep_in)
    (offer_reps : Bool) : NearParse window (e.two_pass_dp m offer_reps) := by
  unfold two_pass_dp
  dsimp only
  split_ifs
  · exact run_dp_near hm hrep _ _ _ _ _
  · exact run_dp_near hm hrep _ _ _ _ _

theorem rep_dp_near (hm : NearCandidates window m e.pos_long) (hrep : Within window e.rep_in)
    (stats : OptStats) : NearParse window (e.rep_dp stats m) := by
  unfold rep_dp
  split_ifs
  · exact run_dp_near hm hrep _ _ _ _ _
  · exact two_pass_dp_near hm hrep true

end

end OptEnv

theorem opt_parse_block_near {window max_offset : Nat} {rep : Reps} (hmax : max_offset ≤ window)
    (hrep : Within window rep) (cast : Nat → Int) (data : Bytes)
    (start stop depth sufficient_len : Nat) (two_pass : Bool) (st : Hybrid) (stats : OptStats) :
    ∀ c ∈ (opt_parse_block cast data start stop max_offset rep depth sufficient_len two_pass st
        stats).1.primary ::
      (opt_parse_block cast data start stop max_offset rep depth sufficient_len two_pass st
        stats).1.alts,
      c.Near window := by
  unfold opt_parse_block
  split_ifs
  · intro c hc
    rw [List.mem_singleton.mp hc]
    exact literal_parse_near hrep data start stop
  · obtain ⟨hhybrid, hfull⟩ := @Collect.run_near window ⟨cast, data, start, stop, max_offset, depth,
      max sufficient_len MIN_MATCH⟩ hmax st
    generalize Collect.run _ st = c at hhybrid hfull ⊢
    dsimp only
    generalize he : (⟨data, start, stop, c.pos_long, rep, two_pass⟩ : OptEnv) = e
    have hlong : c.pos_long = e.pos_long := by rw [← he]
    have hrep : Within window e.rep_in := by
      rw [← he]
      exact hrep
    rw [hlong] at hhybrid hfull
    have hnear : ∀ r, OptEnv.NearParse window r → (e.candidate r).Near window :=
      fun r hr => ⟨hr.1, hr.2⟩
    intro a ha
    rcases List.mem_cons.mp ha with rfl | ha
    · exact hnear _ (OptEnv.two_pass_dp_near hhybrid hrep false)
    · rcases alts_subset e.candidate _ _ a ha with ha | ⟨p, hp, rfl⟩
      · exact absurd ha List.not_mem_nil
      · simp only [List.mem_cons, List.not_mem_nil, or_false] at hp
        rcases hp with rfl | rfl | rfl
        · exact hnear _ (OptEnv.rep_dp_near hhybrid hrep stats)
        · exact hnear _ (OptEnv.two_pass_dp_near hfull hrep false)
        · exact hnear _ (OptEnv.rep_dp_near hfull hrep stats)

/-! ## Any finder, and the matches between its parses -/

section Finders

variable {data : Bytes} {window max_offset : Nat} {rep : Reps}

/-- The parse of a range, and its alternatives, reach no further than the window, from repeat
offsets that do not. -/
theorem Finder.parse_near (hmax : max_offset ≤ window) (hrep : Within window rep) (f : Finder)
    (cast : Nat → Int) (data : Bytes) (start stop : Nat) :
    ∀ c ∈ (f.parse cast data start stop max_offset rep).1.primary ::
      (f.parse cast data start stop max_offset rep).1.alts, c.Near window := by
  have hone : ∀ {c : Candidate}, c.Near window → ∀ c' ∈ [c], c'.Near window := by
    intro c hc c' hc'
    rw [List.mem_singleton.mp hc']
    exact hc
  cases f with
  | Fast st => exact hone (MatchState.parse_block_near hmax hrep cast data start stop st)
  | DFast st => exact hone (DFastState.dfast_parse_block_near hmax hrep cast data start stop st)
  | Chain st lazy_steps depth =>
    refine hone (LazyState.parse_block_near ?_ hrep data start stop lazy_steps st)
    exact fun st p rep ll0 h => ChainState.best_match_at_near hmax h st data p stop depth ll0
  | BtLazy st depth =>
    refine hone (LazyState.parse_block_near ?_ hrep data start stop 2 st)
    exact fun st p rep ll0 h => bt_best_match_near hmax h st.chain st.tree data p stop depth ll0
  | Opt st depth sufficient_len two_pass stats =>
    exact opt_parse_block_near hmax hrep cast data start stop depth sufficient_len two_pass st stats

theorem parse_gap_near (hmax : max_offset ≤ window) (cast : Nat → Int) (data : Bytes) {s : LdmLoop}
    (hs : s.out.Near window) (pos : Nat) :
    (parse_gap cast data max_offset s pos).2.out.Near window := by
  have hgap := s.finder.parse_near hmax hs.rep cast data s.cursor pos _ List.mem_cons_self
  unfold parse_gap
  split_ifs
  · exact ⟨hs.seqs.append hgap.seqs, hgap.rep⟩
  · exact hs

theorem ldm_step_near (hmax : max_offset ≤ window) (cast : Nat → Int) (data : Bytes) {s : LdmLoop}
    (hs : s.out.Near window) {m : LdmSeq} (hm : m.offset ≤ window) :
    (ldm_step cast data max_offset s m).out.Near window := by
  have hgap := parse_gap_near hmax cast data hs m.pos
  have hcode := hgap.rep.encode hm ((parse_gap cast data max_offset s m.pos).1 == 0)
  exact ⟨hgap.seqs.append (Near.singleton hcode.1), hcode.2⟩

/-- Long matches within the window, and the parses of the gaps between them. -/
theorem parse_with_ldm_near (hmax : max_offset ≤ window) (hrep : Within window rep)
    (cast : Nat → Int) (f : Finder) (data : Bytes) (start stop : Nat) {ms : List LdmSeq}
    (hms : ∀ m ∈ ms, m.offset ≤ window) :
    (parse_with_ldm cast f data start stop max_offset rep ms).1.Near window := by
  have hfold : ∀ ms : List LdmSeq, (∀ m ∈ ms, m.offset ≤ window) → ∀ s : LdmLoop,
      s.out.Near window → (ms.foldl (ldm_step cast data max_offset) s).out.Near window := by
    intro ms
    induction ms with
    | nil => exact fun _ _ hs => hs
    | cons m ms ih =>
      intro hms s hs
      exact ih (fun m' hm' => hms m' (List.mem_cons_of_mem m hm')) _
        (ldm_step_near hmax cast data hs (hms m List.mem_cons_self))
  have hend := parse_gap_near hmax cast data
    (hfold ms hms ⟨f, start, ⟨[], [], rep⟩⟩ (ParseOut.near_start hrep)) stop
  exact ⟨hend.seqs, hend.rep⟩

end Finders

end ZstdPure.Encode
