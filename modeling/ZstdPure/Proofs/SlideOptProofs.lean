import ZstdPure.Proofs.SlideTreeProofs

/-!
# Proofs: the optimal parse on a window that slid

The same candidates are collected, and the program over them reads distances and bytes only.
-/

namespace ZstdPure.Encode

open Sequences

/-! ## Collecting -/

namespace Collect

/-- What the collection reads after a slide. -/
def slide_env (cast : Nat → Int) (drop : Nat) (e : CollectEnv) : CollectEnv :=
  ⟨cast, e.data.drop drop, e.start - drop, e.stop - drop, e.max_offset, e.depth, e.suff⟩

/-- The collection after a slide. -/
def slide (drop : Nat) (s : Collect) : Collect :=
  ⟨Finder.reduce_hybrid unbounded drop s.finder, s.inserted - drop, s.skip_until - drop, s.hybrid,
    s.full, s.pos_long⟩

/-- What the collection keeps. -/
structure Past (start drop : Nat) (s : Collect) : Prop where
  turns : s.finder.Turns drop
  inserted : start ≤ s.inserted
  skip_until : start ≤ s.skip_until

section Slide

variable {cast : Nat → Int} {drop window ap : Nat} {e : CollectEnv} {s : Collect}

theorem Past.index_upto (hs : s.Past e.start drop) (ap : Nat) :
    (s.index_upto e ap).Past e.start drop :=
  ⟨List.foldlRecOn (motive := Hybrid.Turns drop) _ _ hs.turns
      fun _ hst _ _ => ⟨hst.chain, hst.tree⟩,
    le_max_of_le_left hs.inserted, hs.skip_until⟩

theorem index_upto_slid (h : Slid cast drop window e.start e.stop) (he : e.cast = unbounded)
    (hmax : e.max_offset ≤ window) (hs : s.Past e.start drop) (hap : ap ≤ e.stop) :
    (s.slide drop).index_upto (slide_env cast drop e) (ap - drop) =
      (s.index_upto e ap).slide drop := by
  have hins := hs.inserted
  have hle := h.le
  have hfold : (List.range' (s.inserted - drop) (ap - drop - (s.inserted - drop))).foldl
      (Hybrid.insert cast (e.data.drop drop) (e.stop - drop) e.max_offset e.depth)
      (Finder.reduce_hybrid unbounded drop s.finder) =
      Finder.reduce_hybrid unbounded drop ((List.range' s.inserted (ap - s.inserted)).foldl
        (Hybrid.insert e.cast e.data e.stop e.max_offset e.depth) s.finder) := by
    rw [show ap - drop - (s.inserted - drop) = ap - s.inserted by omega, he]
    rcases Nat.lt_or_ge ap s.inserted with hlt | hge
    · rw [Nat.sub_eq_zero_of_le hlt.le]
      rfl
    · exact @foldl_range'_slid drop _ _ (Hybrid.insert unbounded e.data e.stop e.max_offset e.depth)
        (Hybrid.insert cast (e.data.drop drop) (e.stop - drop) e.max_offset e.depth)
        (Finder.reduce_hybrid unbounded drop) e.start e.stop hle (Hybrid.Turns drop)
        (fun _ _ hst => ⟨hst.chain, hst.tree⟩)
        (fun st p hst hp hstop => Hybrid.insert_slid h hmax hst hp hstop e.depth) _ _ _ hs.turns
        hins (by omega)
  show Collect.mk _ (max (s.inserted - drop) (ap - drop)) _ _ _ _ =
    Collect.mk _ (max s.inserted ap - drop) _ _ _ _
  rw [show max (s.inserted - drop) (ap - drop) = max s.inserted ap - drop by omega]
  exact congrArg (Collect.mk · _ _ _ _ _) hfold

theorem Past.search (hs : s.Past e.start drop) (hap : e.start ≤ ap) :
    (s.search e ap).2.2.Past e.start drop :=
  ⟨⟨hs.turns.chain, hs.turns.tree⟩, Nat.le_succ_of_le hap, hs.skip_until⟩

theorem search_slid (h : Slid cast drop window e.start e.stop) (he : e.cast = unbounded)
    (hmax : e.max_offset ≤ window) (hs : s.Past e.start drop) (hap : e.start ≤ ap)
    (hstop : ap < e.stop) :
    (s.slide drop).search (slide_env cast drop e) (ap - drop) =
      ((s.search e ap).1, (s.search e ap).2.1, (s.search e ap).2.2.slide drop) := by
  have hle := h.le
  have hchain := @ChainState.find_matches_slid cast e.data drop window e.start e.stop e.max_offset
    s.finder.chain h hmax hs.turns.chain ap hap e.depth (max e.suff 512)
  have htree := @BtState.insert_and_get_all_matches_slid cast e.data drop window e.start e.stop
    e.max_offset ap s.finder.tree h hmax hs.turns.tree hap hstop e.depth
  have hins := @ChainState.insert_slid cast e.data drop window e.start e.stop ap s.finder.chain h
    hs.turns.chain hap hstop
  unfold search
  rw [he]
  dsimp only [slide, slide_env, Finder.reduce_hybrid]
  rw [hchain, htree, hins, ← Nat.sub_add_comm (hle.trans hap)]

/-- The offset of a candidate does not lead before the bytes that are left. -/
theorem record_slid (h : Slid cast drop window e.start e.stop) (hap : e.start ≤ ap)
    {chain tree : List (Nat × Nat)} (hchain : ∀ c ∈ chain, c.2 ≤ window)
    (htree : ∀ c ∈ tree, c.2 ≤ window) :
    record (slide_env cast drop e) (ap - drop) chain tree (s.slide drop) =
      (record e ap chain tree s).slide drop := by
  have hle := h.le
  have hbest :
      (if (longest chain).1 < (longest tree).1 then longest tree else longest chain).1 ≠ 0 →
        (if (longest chain).1 < (longest tree).1 then longest tree else longest chain).2 ≤
          window := by
    split_ifs
    · exact fun h0 => htree _ (longest_mem h0)
    · exact fun h0 => hchain _ (longest_mem h0)
  unfold record
  dsimp only
  generalize (if (longest chain).1 < (longest tree).1 then longest tree else longest chain) = best
    at hbest ⊢
  by_cases h0 : best.1 = 0
  · rw [if_pos h0, if_pos h0]
    rfl
  · have hoff := hbest h0
    have hreach : drop ≤ ap - best.2 := by
      rcases h.far with rfl | hfar <;> omega
    have hfull : ChainState.extend_full (slide_env cast drop e).data (ap - drop)
        (ap - drop - best.2) (slide_env cast drop e).stop =
          ChainState.extend_full e.data ap (ap - best.2) e.stop := by
      show common_len (e.data.drop drop) (ap - drop - best.2) (ap - drop) (e.stop - drop) =
        common_len e.data (ap - best.2) ap e.stop
      rw [Nat.sub_right_comm, common_len_slid hreach (by omega)]
    have hsuff : (slide_env cast drop e).suff = e.suff := rfl
    rw [if_neg h0, if_neg h0, hfull, hsuff]
    generalize (if e.suff ≤ best.1 then ChainState.extend_full e.data ap (ap - best.2) e.stop
      else best.1) = long_len
    by_cases hlong : e.suff ≤ long_len
    · rw [if_pos hlong, if_pos hlong, ← Nat.sub_add_comm (by omega : drop ≤ ap)]
      rfl
    · rw [if_neg hlong, if_neg hlong]
      rfl

theorem record_past (hs : s.Past e.start drop) (hap : e.start ≤ ap)
    (chain tree : List (Nat × Nat)) :
    (record e ap chain tree s).Past e.start drop := by
  unfold record
  dsimp only
  generalize (if (longest chain).1 < (longest tree).1 then longest tree else longest chain) = best
  generalize (if e.suff ≤ best.1 then ChainState.extend_full e.data ap (ap - best.2) e.stop
    else best.1) = long_len
  split_ifs
  · exact ⟨hs.turns, hs.inserted, hs.skip_until⟩
  · exact ⟨hs.turns, hs.inserted, Nat.le_add_right_of_le hap⟩
  · exact ⟨hs.turns, hs.inserted, hs.skip_until⟩

theorem step_slid (h : Slid cast drop window e.start e.stop) (he : e.cast = unbounded)
    (hmax : e.max_offset ≤ window) (hs : s.Past e.start drop) (i : Nat) :
    step (slide_env cast drop e) (s.slide drop) i = (step e s i).slide drop ∧
      (step e s i).Past e.start drop := by
  have hmin : MIN_MATCH = 4 := rfl
  have hle := h.le
  have hskip := hs.skip_until
  have hnoted : s.noted.Past e.start drop := ⟨hs.turns, hs.inserted, hs.skip_until⟩
  have hap : (slide_env cast drop e).start + i = e.start + i - drop := (Nat.sub_add_comm hle).symm
  rw [step_eq, step_eq, hap]
  have hend : (slide_env cast drop e).stop < e.start + i - drop + MIN_MATCH ↔
      e.stop < e.start + i + MIN_MATCH := by
    show e.stop - drop < _ ↔ _
    omega
  by_cases hlim : e.stop < e.start + i + MIN_MATCH
  · rw [if_pos hlim, if_pos (hend.mpr hlim)]
    exact ⟨rfl, hnoted.turns, hnoted.inserted, hnoted.skip_until⟩
  · rw [if_neg hlim, if_neg fun hl => hlim (hend.mp hl)]
    have hupto := index_upto_slid h he hmax hnoted (by omega : e.start + i ≤ e.stop)
    have hpast := hnoted.index_upto (e.start + i)
    have hseen : (s.slide drop).noted.index_upto (slide_env cast drop e) (e.start + i - drop) =
      (s.noted.index_upto e (e.start + i)).slide drop := hupto
    rw [hseen]
    generalize s.noted.index_upto e (e.start + i) = t at hpast ⊢
    have hskips : e.start + i - drop < (s.slide drop).skip_until ↔ e.start + i < s.skip_until := by
      show _ < s.skip_until - drop ↔ _
      omega
    by_cases hin : e.start + i < s.skip_until
    · -- inside a committed long match
      have hlast := index_upto_slid h he hmax hpast (by omega : e.start + i + 1 ≤ e.stop)
      have hpast' := hpast.index_upto (e.start + i + 1)
      have hins := hpast.inserted
      have hdone : (t.slide drop).inserted = e.start + i - drop ↔ t.inserted = e.start + i := by
        show t.inserted - drop = _ ↔ _
        omega
      rw [if_pos hin, if_pos (hskips.mpr hin), if_congr hdone rfl rfl,
        ← Nat.sub_add_comm (by omega : drop ≤ e.start + i), hlast]
      split_ifs
      · exact ⟨rfl, hpast'.turns, hpast'.inserted, hpast'.skip_until⟩
      · exact ⟨rfl, hpast.turns, hpast.inserted, hpast.skip_until⟩
    · rw [if_neg hin, if_neg fun hl => hin (hskips.mp hl)]
      obtain ⟨hchain, htree⟩ := search_near hmax t (e.start + i)
      have hsearch := search_slid h he hmax hpast (by omega : e.start ≤ e.start + i)
        (by omega : e.start + i < e.stop)
      rw [hsearch]
      exact ⟨record_slid h (by omega) hchain htree,
        record_past (hpast.search (by omega)) (by omega) _ _⟩

theorem run_slid (h : Slid cast drop window e.start e.stop) (he : e.cast = unbounded)
    (hmax : e.max_offset ≤ window) {finder : Hybrid} (hturns : finder.Turns drop) :
    run (slide_env cast drop e) (Finder.reduce_hybrid unbounded drop finder) =
      (run e finder).slide drop := by
  have hle := h.le
  have hfold : ∀ (is : List Nat) (s : Collect), s.Past e.start drop →
      is.foldl (step (slide_env cast drop e)) (s.slide drop) =
        (is.foldl (step e) s).slide drop := by
    intro is
    induction is with
    | nil => exact fun _ _ => rfl
    | cons i is ih =>
      intro s hs
      obtain ⟨heq, hpast⟩ := step_slid h he hmax hs i
      rw [List.foldl_cons, List.foldl_cons, heq]
      exact ih _ hpast
  have hn : (slide_env cast drop e).stop - (slide_env cast drop e).start = e.stop - e.start := by
    show e.stop - drop - (e.start - drop) = _
    omega
  have hrun := hfold (List.range (e.stop - e.start))
    ⟨finder, e.start, e.start, ⟨[], []⟩, ⟨[], []⟩, []⟩ ⟨hturns, le_refl _, le_refl _⟩
  unfold run
  rw [hn]
  exact congrArg noted hrun

end Slide

end Collect

/-! ## The dynamic program -/

section Program

variable {cast : Nat → Int} {data : Bytes} {drop window start stop n : Nat} {prices : Prices}
  {opt : List Opt}

theorem offer_rep_slid (h : Slid cast drop window start stop) {here : Here}
    (hcell : here.cell.Near window) (opt : List Opt) (ov : Nat) :
    here.offer_rep (data.drop drop) (start - drop) n opt ov =
      here.offer_rep data start n opt ov := by
  have hoff := hcell.rep.repeat_offset ov here.ll0
  have hle := h.le
  unfold Here.offer_rep
  dsimp only
  generalize rep_resolved_offset here.cell.rep ov here.ll0 = off at hoff ⊢
  have hback : (off = 0 ∨ start - drop + here.i < off) ↔ (off = 0 ∨ start + here.i < off) := by
    rcases h.far with rfl | hfar <;> omega
  rw [if_congr hback rfl rfl]
  by_cases hnone : off = 0 ∨ start + here.i < off
  · rw [if_pos hnone, if_pos hnone]
  · have hreach : drop ≤ start + here.i - off := by
      rcases h.far with rfl | hfar <;> omega
    rw [if_neg hnone, if_neg hnone, ← Nat.sub_add_comm hle, Nat.sub_right_comm,
      common_tail_slid hreach (by omega)]

theorem dp_step_slid (h : Slid cast drop window start stop) (m : Matches)
    (pos_long : List (Option (Nat × Nat))) (offer_reps : Bool) (hopt : CellsNear window opt)
    (i : Nat) :
    dp_step (data.drop drop) (start - drop) n prices m pos_long offer_reps opt i =
      dp_step data start n prices m pos_long offer_reps opt i := by
  have hreps : ∀ opt', [1, 2, 3].foldl (Here.offer_rep ⟨prices, i, cell opt i⟩ (data.drop drop)
      (start - drop) n) opt' =
      [1, 2, 3].foldl (Here.offer_rep ⟨prices, i, cell opt i⟩ data start n) opt' := by
    intro opt'
    congr 1
    funext opt'' ov
    exact offer_rep_slid h (hopt.cell i) opt'' ov
  have hbyte : byte_at (data.drop drop) (start - drop + i) = byte_at data (start + i) :=
    byte_at_slid h.le i
  unfold dp_step
  dsimp only
  rw [hbyte]
  cases pos_long.getD i none with
  | some c => rfl
  | none =>
    cases offer_reps
    · rfl
    · exact congrArg (Here.offer_matches _ _) (hreps _)

theorem run_dp_slid (h : Slid cast drop window start stop) {m : Matches}
    {pos_long : List (Option (Nat × Nat))} (hm : NearCandidates window m pos_long) {rep : Reps}
    (hrep : Within window rep) (prices : Prices) (offer_reps : Bool) :
    run_dp (data.drop drop) (start - drop) n prices m pos_long rep offer_reps =
      run_dp data start n prices m pos_long rep offer_reps := by
  have hfold : ∀ (is : List Nat) (opt : List Opt), CellsNear window opt →
      is.foldl (dp_step (data.drop drop) (start - drop) n prices m pos_long offer_reps) opt =
        is.foldl (dp_step data start n prices m pos_long offer_reps) opt := by
    intro is
    induction is with
    | nil => exact fun _ _ => rfl
    | cons i is ih =>
      intro opt hopt
      rw [List.foldl_cons, List.foldl_cons, dp_step_slid h m pos_long offer_reps hopt i]
      exact ih _ (hopt.dp_step hm data start n prices offer_reps i)
  have hcells : dp_cells (data.drop drop) (start - drop) n prices m pos_long rep offer_reps =
      dp_cells data start n prices m pos_long rep offer_reps :=
    hfold _ _ (cells_start_near hrep n)
  unfold run_dp
  rw [hcells]

end Program

/-! ## The parse -/

section Parse

variable {cast : Nat → Int} {data : Bytes} {drop window start stop : Nat}

theorem range_of_slid_add {p : Nat} (hp : drop ≤ p) (l : Nat) :
    range_of (data.drop drop) (p - drop) (p - drop + l) = range_of data p (p + l) := by
  rw [← Nat.sub_add_comm hp, range_of_slid hp]

/-- Two folds over the sequences of a parse that only differ by the position they are at. -/
theorem foldl_spans_slid {α : Type} (f g : α × Nat → Seq → α × Nat)
    (hspan : ∀ s q, (f s q).2 = s.2 + q.span)
    (hstep : ∀ s q, drop ≤ s.2 → g (s.1, s.2 - drop) q = ((f s q).1, (f s q).2 - drop))
    (seqs : List Seq) (s : α × Nat) (hs : drop ≤ s.2) :
    seqs.foldl g (s.1, s.2 - drop) = ((seqs.foldl f s).1, (seqs.foldl f s).2 - drop) ∧
      drop ≤ (seqs.foldl f s).2 := by
  induction seqs generalizing s with
  | nil => exact ⟨rfl, hs⟩
  | cons q seqs ih =>
    rw [List.foldl_cons, List.foldl_cons, hstep s q hs]
    exact ih (f s q) (by rw [hspan]; omega)

theorem materialize_literals_slid (hstart : drop ≤ start) (seqs : List Seq) :
    materialize_literals (data.drop drop) (start - drop) (stop - drop) seqs =
      materialize_literals data start stop seqs := by
  obtain ⟨hfold, hle⟩ := foldl_spans_slid
    (fun (s : Bytes × Nat) q => (s.1 ++ range_of data s.2 (s.2 + q.lit_len), s.2 + q.span))
    (fun (s : Bytes × Nat) q =>
      (s.1 ++ range_of (data.drop drop) s.2 (s.2 + q.lit_len), s.2 + q.span))
    (fun _ _ => rfl)
    (fun s q hs => by rw [range_of_slid_add hs, Nat.sub_add_comm hs])
    seqs ([], start) hstart
  unfold materialize_literals
  rw [hfold]
  dsimp only
  rw [range_of_slid hle]

theorem count_slid (hstart : drop ≤ start) (freqs : Freqs) (seqs : List Seq) :
    freqs.count (data.drop drop) (start - drop) (stop - drop) seqs =
      freqs.count data start stop seqs := by
  obtain ⟨hfold, hle⟩ := foldl_spans_slid (Freqs.sequence data) (Freqs.sequence (data.drop drop))
    (fun _ _ => rfl)
    (fun s q hs => by
      unfold Freqs.sequence
      dsimp only
      rw [range_of_slid_add hs, Nat.sub_add_comm hs])
    seqs (freqs, start) hstart
  unfold Freqs.count
  rw [hfold]
  dsimp only
  rw [range_of_slid hle]

theorem record_stats_slid (hstart : drop ≤ start) (stats : OptStats) (seqs : List Seq) :
    stats.record (data.drop drop) (start - drop) (stop - drop) seqs =
      stats.record data start stop seqs := by
  unfold OptStats.record
  rw [count_slid hstart]

namespace OptEnv

/-- What the parses of the two streams share, after a slide. -/
def slide (drop : Nat) (e : OptEnv) : OptEnv :=
  ⟨e.data.drop drop, e.start - drop, e.stop - drop, e.pos_long, e.rep_in, e.two_pass⟩

section Streams

variable {e : OptEnv} {m : Matches}

theorem run_slid (h : Slid cast drop window e.start e.stop)
    (hm : NearCandidates window m e.pos_long)
    (hrep : Within window e.rep_in) (prices : Prices) (offer_reps : Bool) :
    (e.slide drop).run prices m offer_reps = e.run prices m offer_reps := by
  have hle := h.le
  have hn : e.stop - drop - (e.start - drop) = e.stop - e.start := by omega
  show run_dp (e.data.drop drop) (e.start - drop) (e.stop - drop - (e.start - drop)) prices m
    e.pos_long e.rep_in offer_reps = _
  rw [hn, run_dp_slid h hm hrep]
  rfl

theorem two_pass_dp_slid (h : Slid cast drop window e.start e.stop)
    (hm : NearCandidates window m e.pos_long) (hrep : Within window e.rep_in) (offer_reps : Bool) :
    (e.slide drop).two_pass_dp m offer_reps = e.two_pass_dp m offer_reps := by
  have hblock : range_of (e.slide drop).data (e.slide drop).start (e.slide drop).stop =
    range_of e.data e.start e.stop := range_of_slid h.le
  unfold two_pass_dp
  rw [hblock]
  dsimp only
  rw [run_slid h hm hrep, run_slid h hm hrep]
  rfl

theorem rep_dp_slid (h : Slid cast drop window e.start e.stop)
    (hm : NearCandidates window m e.pos_long) (hrep : Within window e.rep_in) (stats : OptStats) :
    (e.slide drop).rep_dp stats m = e.rep_dp stats m := by
  unfold rep_dp
  rw [run_slid h hm hrep, two_pass_dp_slid h hm hrep]

theorem candidate_slid (h : Slid cast drop window e.start e.stop) (p : List Seq × Reps) :
    (e.slide drop).candidate p = e.candidate p :=
  congrArg (fun lits => (⟨⟨p.1, lits⟩, p.2⟩ : Candidate)) (materialize_literals_slid h.le p.1)

end Streams

end OptEnv

theorem opt_parse_block_slid {max_offset : Nat} (h : Slid cast drop window start stop)
    (hmax : max_offset ≤ window) (data : Bytes) {rep : Reps} (hrep : Within window rep)
    (depth sufficient_len : Nat) (two_pass : Bool) {st : Hybrid} (hturns : st.Turns drop)
    (stats : OptStats) :
    opt_parse_block cast (data.drop drop) (start - drop) (stop - drop) max_offset rep depth
        sufficient_len two_pass (Finder.reduce_hybrid unbounded drop st) stats =
      ((opt_parse_block unbounded data start stop max_offset rep depth sufficient_len two_pass st
          stats).1,
        Finder.reduce_hybrid unbounded drop (opt_parse_block unbounded data start stop max_offset
          rep depth sufficient_len two_pass st stats).2.1,
        (opt_parse_block unbounded data start stop max_offset rep depth sufficient_len two_pass st
          stats).2.2) := by
  have hle := h.le
  have hn : stop - drop - (start - drop) = stop - start := by omega
  unfold opt_parse_block
  rw [hn]
  by_cases hshort : stop - start < MIN_MATCH + 1
  · rw [if_pos hshort, if_pos hshort, literal_parse_slid hle]
  · have hrun := @Collect.run_slid cast drop window
      ⟨unbounded, data, start, stop, max_offset, depth, max sufficient_len MIN_MATCH⟩ h rfl hmax st
      hturns
    obtain ⟨hhybrid, hfull⟩ := @Collect.run_near window
      ⟨unbounded, data, start, stop, max_offset, depth, max sufficient_len MIN_MATCH⟩ hmax st
    rw [if_neg hshort, if_neg hshort, show Collect.run ⟨cast, data.drop drop, start - drop,
      stop - drop, max_offset, depth, max sufficient_len MIN_MATCH⟩ _ = _ from hrun]
    generalize Collect.run _ st = c at hhybrid hfull ⊢
    generalize he : (⟨data, start, stop, c.pos_long, rep, two_pass⟩ : OptEnv) = e
    have he' : OptEnv.mk (data.drop drop) (start - drop) (stop - drop) (c.slide drop).pos_long rep
        two_pass = e.slide drop := by
      rw [← he]
      rfl
    have hlong : c.pos_long = e.pos_long := by rw [← he]
    have hs : Slid cast drop window e.start e.stop := by
      rw [← he]
      exact h
    have hreps : Within window e.rep_in := by
      rw [← he]
      exact hrep
    rw [hlong] at hhybrid hfull
    have hcand : (e.slide drop).candidate = e.candidate :=
      funext (OptEnv.candidate_slid hs)
    dsimp only
    rw [he', show (c.slide drop).hybrid = c.hybrid from rfl, show (c.slide drop).full = c.full from
      rfl, OptEnv.two_pass_dp_slid hs hhybrid hreps, OptEnv.two_pass_dp_slid hs hfull hreps,
      OptEnv.rep_dp_slid hs hhybrid hreps, OptEnv.rep_dp_slid hs hfull hreps, hcand,
      record_stats_slid hle, he]
    rfl

end Parse

end ZstdPure.Encode
