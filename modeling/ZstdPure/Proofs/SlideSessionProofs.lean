import ZstdPure.Proofs.SessionProofs
import ZstdPure.Proofs.SlideOptProofs
import ZstdPure.Proofs.StoredProofs

/-!
# Proofs: a block on a window that slid

The finders, the long-distance index and the repeat offsets together: a session whose positions
moved with its buffer writes the block that it would have written. -/

namespace ZstdPure.Encode

open Sequences

theorem Slid.sub {cast : Nat → Int} {drop window start stop a b : Nat}
    (h : Slid cast drop window start stop) (ha : start ≤ a) (hb : b ≤ stop) :
    Slid cast drop window a b :=
  ⟨h.le.trans ha, h.far.imp id fun hfar => hfar.trans ha, fun p hp => h.cast p (by omega)⟩

/-! ## The finder -/

/-- A finder whose rings turn a whole number of times parses what it would have parsed. -/
theorem Finder.parse_slid {cast : Nat → Int} {drop window start stop max_offset : Nat}
    (h : Slid cast drop window start stop) (hmax : max_offset ≤ window) (data : Bytes) {rep : Reps}
    (hrep : Within window rep) {f : Finder} (hturn : f.slide_period ∣ drop) :
    (f.reduce_index unbounded drop).parse cast (data.drop drop) (start - drop) (stop - drop)
        max_offset rep =
      ((f.parse unbounded data start stop max_offset rep).1,
        (f.parse unbounded data start stop max_offset rep).2.reduce_index unbounded drop) := by
  have hturns : ∀ st : Hybrid, hybrid_period st ∣ drop → st.Turns drop :=
    fun st hst => ⟨(hybrid_aligned st).1.trans hst, (hybrid_aligned st).2.trans hst⟩
  cases f with
  | Fast st =>
    have hparse := @MatchState.parse_block_slid cast data drop window start stop max_offset h hmax
      rep st
    simp only [Finder.reduce_index, Finder.parse, hparse]
  | DFast st =>
    have hparse := @DFastState.dfast_parse_block_slid cast data drop window start stop max_offset h
      hmax rep hrep st
    simp only [Finder.reduce_index, Finder.parse, hparse]
  | Chain st lazy_steps depth =>
    have hparse := lazy_parse_block_slid h hmax data hrep lazy_steps depth hturn
    simp only [Finder.reduce_index, Finder.parse, hparse]
  | BtLazy st depth =>
    have hparse := bt_lazy_parse_block_slid h hmax data hrep depth (hturns st hturn)
    simp only [Finder.reduce_index, Finder.parse, hparse]
  | Opt st depth sufficient_len two_pass stats =>
    have hparse := opt_parse_block_slid h hmax data hrep depth sufficient_len two_pass
      (hturns st hturn) stats
    simp only [Finder.reduce_index, Finder.parse, hparse]

/-! ## Long-distance matches -/

/-- A match where the slide puts it. -/
def LdmSeq.slide (drop : Nat) (m : LdmSeq) : LdmSeq := { m with pos := m.pos - drop }

/-- A match that starts in the range and is within the window. -/
structure LdmSeq.Reaches (start stop window : Nat) (m : LdmSeq) : Prop where
  low : start ≤ m.pos
  high : m.pos ≤ stop
  offset : m.offset ≤ window

namespace LdmState

variable {cast : Nat → Int} {data : Bytes} {drop window start stop max_offset min_offset : Nat}

/-- The loop of `generate` after a slide. -/
def Loop.slide (drop : Nat) (s : Loop) : Loop :=
  ⟨s.state.reduce_index unbounded drop, s.p - drop, s.out.map (LdmSeq.slide drop)⟩

theorem ldm_hash_slid {p : Nat} (hp : drop ≤ p) :
    ldm_hash (data.drop drop) (p - drop) = ldm_hash data p := by
  unfold ldm_hash
  rw [read_u64_slid hp]

theorem generate_step_slid (h : Slid cast drop window start stop) (hmax : max_offset ≤ window)
    {s : Loop} (hp : start ≤ s.p) (hstop : s.p < stop) :
    generate_step cast (data.drop drop) (stop - drop) min_offset max_offset (s.slide drop) =
      (generate_step unbounded data stop min_offset max_offset s).slide drop := by
  obtain ⟨⟨table, hash_log⟩, p, out⟩ := s
  dsimp only at hp hstop
  have hdrop := h.le.trans hp
  have hnext : p - drop + 1 = p + 1 - drop := (Nat.sub_add_comm hdrop).symm
  have hslot := slot_reduce unbounded drop table
  have hset := set_slid hdrop (h.cast (p - drop) (by omega)) table
  show generate_step cast (data.drop drop) (stop - drop) min_offset max_offset
    ⟨⟨reduce_index_table unbounded drop table, hash_log⟩, p - drop, out.map (LdmSeq.slide drop)⟩ = _
  unfold generate_step
  dsimp only
  rw [ldm_hash_slid hdrop, hslot, hset, hnext]
  generalize ldm_hash data p = hash
  generalize hash >>> (64 - hash_log) = i
  have hcand := h.candidate hmax hp (slot table i)
  generalize slot table i = cand at hcand ⊢
  by_cases hgate : hash >>> (64 - hash_log - LDM_HASH_RATE_LOG) &&& (2 ^ LDM_HASH_RATE_LOG - 1) ≠ 0
  · rw [if_pos hgate, if_pos hgate]
    rfl
  · rw [if_neg hgate, if_neg hgate]
    rcases hcand with ⟨hpos, hoff, hkept, hentry⟩ | ⟨hbig, hsmall⟩
    · -- the candidate is still there, at the same distance
      rw [hentry, Int.toNat_natCast, common_tail_slid hkept hdrop,
        show stop - drop - (p - drop) = stop - p by omega,
        show p - drop - (cand.toNat - drop) = p - cand.toNat by omega]
      generalize common_tail data cand.toNat p (stop - p) 0 = ml
      by_cases hmatch : min_offset < p - cand.toNat ∧ LDM_MIN_MATCH ≤ ml
      · rw [if_pos ⟨Int.natCast_nonneg _, hmatch.1, hoff, hmatch.2⟩,
          if_pos ⟨hpos, hmatch.1, hoff, hmatch.2⟩, ← Nat.sub_add_comm hdrop, Loop.slide,
          List.map_append]
        rfl
      · rw [if_neg fun hm => hmatch ⟨hm.2.1, hm.2.2.2⟩, if_neg fun hm => hmatch ⟨hm.2.1, hm.2.2.2⟩]
        rfl
    · rw [if_neg fun hm => hsmall ⟨hm.1, hm.2.2.1⟩, if_neg fun hm => hbig ⟨hm.1, hm.2.2.1⟩]
      rfl

/-- What the loop of `generate` has found lies in the range, and the loop has not left it. -/
structure Loop.Inside (start stop window : Nat) (s : Loop) : Prop where
  low : start ≤ s.p
  found : ∀ m ∈ s.out, m.Reaches start stop window

theorem generate_step_inside (cast : Nat → Int) (data : Bytes) {s : Loop}
    (hs : s.Inside start stop window) (hstop : s.p ≤ stop) :
    (generate_step cast data stop min_offset window s).Inside start stop window := by
  obtain ⟨low, found⟩ := hs
  obtain ⟨next, -, hstep | ⟨len, offset, hoff, hstep⟩⟩ :=
    generate_step_cases cast data stop min_offset window s
  · rw [hstep]
    exact ⟨Nat.le_succ_of_le low, found⟩
  · rw [hstep]
    refine ⟨Nat.le_add_right_of_le low, fun m hm => ?_⟩
    rcases List.mem_append.mp hm with hm | hm
    · exact found m hm
    · rw [List.mem_singleton.mp hm]
      exact ⟨low, hstop, hoff⟩

/-- The matches that `generate` finds. -/
theorem generate_reaches (cast : Nat → Int) (st : LdmState) (data : Bytes)
    (start stop min_offset window : Nat) :
    ∀ m ∈ (st.generate cast data start stop min_offset window).1, m.Reaches start stop window := by
  unfold generate
  split_ifs with hshort
  · exact fun m hm => absurd hm List.not_mem_nil
  · refine (While.iterate_keeps (Loop.Inside start stop window) (fun s hs hc => ?_) _ _
      ⟨le_refl _, fun _ hm => absurd hm List.not_mem_nil⟩).found
    have hlim := of_decide_eq_true hc
    exact generate_step_inside cast data hs (by omega)

/-- A slide moves what `generate` finds. -/
theorem generate_slid (h : Slid cast drop window start stop) (hmax : max_offset ≤ window)
    (data : Bytes) (min_offset : Nat) (st : LdmState) :
    (st.reduce_index unbounded drop).generate cast (data.drop drop) (start - drop) (stop - drop)
        min_offset max_offset =
      ((st.generate unbounded data start stop min_offset max_offset).1.map (LdmSeq.slide drop),
        (st.generate unbounded data start stop min_offset max_offset).2.reduce_index unbounded
          drop) := by
  have hle := h.le
  have hmin : LDM_MIN_MATCH = 64 := rfl
  unfold generate
  by_cases hshort : stop < 8 ∨ stop - start < LDM_MIN_MATCH
  · rw [if_pos hshort, if_pos (by omega)]
    rfl
  · rw [if_neg hshort, if_neg (by omega)]
    obtain ⟨-, hloop⟩ := @While.iterate_map Loop Loop
      (fun s => decide (s.p ≤ stop - 8)) (generate_step unbounded data stop min_offset max_offset)
      (fun s => decide (s.p ≤ stop - drop - 8))
      (generate_step cast (data.drop drop) (stop - drop) min_offset max_offset) (Loop.slide drop)
      (Loop.Inside start stop max_offset)
      (fun s hs => decide_eq_decide.mpr (by
        have hlow := hs.low
        show s.p - drop ≤ _ ↔ _
        omega))
      (fun s hs hc => by
        have hlim := of_decide_eq_true hc
        have hlow := hs.low
        exact ⟨generate_step_inside unbounded data hs (by omega),
          generate_step_slid h hmax hlow (by omega)⟩)
      (stop - start) ⟨st, start, []⟩ ⟨le_refl _, fun _ hm => absurd hm List.not_mem_nil⟩
    have hn : stop - drop - (start - drop) = stop - start := by omega
    have hstart : Loop.slide drop ⟨st, start, []⟩ =
      ⟨st.reduce_index unbounded drop, start - drop, []⟩ := rfl
    rw [hstart] at hloop
    dsimp only
    rw [hn, hloop]
    rfl

end LdmState

/-! ## Gaps between long matches -/

section Gaps

variable {cast : Nat → Int} {drop window start stop max_offset : Nat} {data : Bytes}

/-- The loop of `parse_with_ldm` after a slide. -/
def LdmLoop.slide (drop : Nat) (s : LdmLoop) : LdmLoop :=
  ⟨s.finder.reduce_index unbounded drop, s.cursor - drop, s.out⟩

/-- The loop of `parse_with_ldm` past the start, within the window, and with rings that fit. -/
structure LdmLoop.Past (drop window start : Nat) (s : LdmLoop) : Prop where
  cursor : start ≤ s.cursor
  near : s.out.Near window
  turn : s.finder.slide_period ∣ drop

theorem parse_gap_past (hmax : max_offset ≤ window) {s : LdmLoop} (hs : s.Past drop window start)
    (pos : Nat) : (parse_gap cast data max_offset s pos).2.Past drop window start := by
  refine ⟨?_, parse_gap_near hmax cast data hs.near pos, ?_⟩
  · have hcursor := hs.cursor
    unfold parse_gap
    split_ifs with hgap
    · exact hcursor.trans hgap.le
    · exact hcursor
  · rw [parse_gap_period]
    exact hs.turn

theorem parse_gap_slid (h : Slid cast drop window start stop) (hmax : max_offset ≤ window)
    {s : LdmLoop} (hs : s.Past drop window start) {pos : Nat} (hpos : pos ≤ stop) :
    parse_gap cast (data.drop drop) max_offset (s.slide drop) (pos - drop) =
      ((parse_gap unbounded data max_offset s pos).1,
        (parse_gap unbounded data max_offset s pos).2.slide drop) := by
  obtain ⟨finder, cursor, out⟩ := s
  obtain ⟨hcursor, hnear, hturn⟩ := hs
  dsimp only at hcursor hnear hturn
  have hle := h.le
  show parse_gap cast (data.drop drop) max_offset
    ⟨finder.reduce_index unbounded drop, cursor - drop, out⟩ (pos - drop) = _
  unfold parse_gap
  by_cases hgap : cursor < pos
  · have hparse := Finder.parse_slid (h.sub hcursor hpos) hmax data hnear.rep hturn
    rw [if_pos hgap, if_pos (show cursor - drop < pos - drop by omega)]
    dsimp only
    rw [hparse]
    rfl
  · rw [if_neg hgap, if_neg (show ¬cursor - drop < pos - drop by omega)]
    rfl

theorem ldm_step_past (hmax : max_offset ≤ window) {s : LdmLoop} (hs : s.Past drop window start)
    {m : LdmSeq} (hm : m.Reaches start stop window) :
    (ldm_step cast data max_offset s m).Past drop window start := by
  have hgap := @parse_gap_past cast drop window start max_offset data hmax s hs m.pos
  exact ⟨Nat.le_add_right_of_le hm.low, ldm_step_near hmax cast data hs.near hm.offset, hgap.turn⟩

theorem ldm_step_slid (h : Slid cast drop window start stop) (hmax : max_offset ≤ window)
    {s : LdmLoop} (hs : s.Past drop window start) {m : LdmSeq} (hm : m.Reaches start stop window) :
    ldm_step cast (data.drop drop) max_offset (s.slide drop) (m.slide drop) =
      (ldm_step unbounded data max_offset s m).slide drop := by
  have hpos : m.pos - drop + m.len = m.pos + m.len - drop :=
    (Nat.sub_add_comm (h.le.trans hm.low)).symm
  unfold ldm_step LdmSeq.slide
  dsimp only
  rw [parse_gap_slid h hmax hs hm.high, hpos]
  rfl

/-- The long matches and the gaps between them. -/
theorem parse_with_ldm_slid (h : Slid cast drop window start stop) (hmax : max_offset ≤ window)
    {rep : Reps} (hrep : Within window rep) {f : Finder} (hturn : f.slide_period ∣ drop)
    {ms : List LdmSeq} (hms : ∀ m ∈ ms, m.Reaches start stop window) :
    parse_with_ldm cast (f.reduce_index unbounded drop) (data.drop drop) (start - drop)
        (stop - drop) max_offset rep (ms.map (LdmSeq.slide drop)) =
      ((parse_with_ldm unbounded f data start stop max_offset rep ms).1,
        (parse_with_ldm unbounded f data start stop max_offset rep ms).2.reduce_index unbounded
          drop) := by
  have hfold : ∀ ms : List LdmSeq, (∀ m ∈ ms, m.Reaches start stop window) → ∀ s : LdmLoop,
      s.Past drop window start → (ms.foldl (ldm_step unbounded data max_offset) s).Past drop window
          start ∧
        (ms.map (LdmSeq.slide drop)).foldl (ldm_step cast (data.drop drop) max_offset)
          (s.slide drop) = (ms.foldl (ldm_step unbounded data max_offset) s).slide drop := by
    intro ms
    induction ms with
    | nil => exact fun _ s hs => ⟨hs, rfl⟩
    | cons m ms ih =>
      intro hms s hs
      have hm := hms m List.mem_cons_self
      rw [List.map_cons, List.foldl_cons, List.foldl_cons, ldm_step_slid h hmax hs hm]
      exact ih (fun m' hm' => hms m' (List.mem_cons_of_mem m hm')) _ (ldm_step_past hmax hs hm)
  obtain ⟨hend, heq⟩ := hfold ms hms ⟨f, start, ⟨[], [], rep⟩⟩
    ⟨le_refl _, ParseOut.near_start hrep, hturn⟩
  have hstart : LdmLoop.slide drop ⟨f, start, ⟨[], [], rep⟩⟩ =
    ⟨f.reduce_index unbounded drop, start - drop, ⟨[], [], rep⟩⟩ := rfl
  rw [hstart] at heq
  unfold parse_with_ldm
  rw [heq]
  dsimp only
  rw [parse_gap_slid h hmax hend (le_refl stop)]
  rfl

end Gaps

/-! ## Blocks -/

/-- The environment that stores positions in full. -/
def FrameEnv.unbounded (e : FrameEnv) : FrameEnv := { e with cast := Encode.unbounded }

section Blocks

variable {e : FrameEnv} {window drop start stop : Nat} {s : Session}

/-- The repeat offsets after a block are within the window again. -/
theorem encode_block_near (hwin : e.SearchesIn window) (hrep : Within window s.state.rep)
    (last : Bool) (data : Bytes) (start stop : Nat) :
    Within window (encode_block e last data start stop s).2.state.rep := by
  obtain ⟨finder, ldm, state⟩ := s
  cases ldm with
  | none =>
    have hnear := finder.parse_near hwin.max_offset hrep e.cast data start stop
    rcases choose_block_rep (write_store_block last (range_of data start stop)) state last
      (finder.parse e.cast data start stop e.max_offset state.rep).1 e.split_depth with
      heq | ⟨c, hc, heq⟩
    · exact heq ▸ hrep
    · exact heq ▸ (hnear c hc).rep
  | some st =>
    have hreach := LdmState.generate_reaches e.cast st data start stop e.regular_reach e.max_offset
    have hnear := parse_with_ldm_near hwin.regular hrep e.cast finder data start stop
      fun m hm => (hreach m hm).offset.trans hwin.max_offset
    rcases choose_block_rep (write_store_block last (range_of data start stop)) state last
      ⟨(parse_with_ldm e.cast finder data start stop e.regular_reach state.rep
        (st.generate e.cast data start stop e.regular_reach e.max_offset).1).1, []⟩ e.split_depth
      with heq | ⟨c, hc, heq⟩
    · exact heq ▸ hrep
    · rw [List.mem_singleton.mp hc] at heq
      exact heq ▸ hnear.rep

/-- A block on a buffer that slid is the block on the whole input. -/
theorem encode_block_slid (h : Slid e.cast drop window start stop) (hwin : e.SearchesIn window)
    (hrep : Within window s.state.rep) (hturn : s.finder.slide_period ∣ drop) (last : Bool)
    (data : Bytes) :
    encode_block e last (data.drop drop) (start - drop) (stop - drop)
        (s.reduce_index unbounded drop) =
      ((encode_block e.unbounded last data start stop s).1,
        (encode_block e.unbounded last data start stop s).2.reduce_index unbounded drop) := by
  obtain ⟨finder, ldm, state⟩ := s
  have hstore := @range_of_slid data drop start stop h.le
  cases ldm with
  | none =>
    have hparse := Finder.parse_slid h hwin.max_offset data hrep hturn
    simp only [encode_block, Session.reduce_index, write_compressed_block, FrameEnv.unbounded,
      Option.map_none, hparse, hstore]
  | some st =>
    have hgen := LdmState.generate_slid h hwin.max_offset data e.regular_reach st
    have hreach := LdmState.generate_reaches Encode.unbounded st data start stop e.regular_reach
      e.max_offset
    have hparse := @parse_with_ldm_slid _ _ _ _ _ _ data h hwin.regular _ hrep _ hturn _ fun m hm =>
      let hm := hreach m hm
      ⟨hm.low, hm.high, hm.offset.trans hwin.max_offset⟩
    simp only [encode_block, Session.reduce_index, write_compressed_block_ldm, FrameEnv.unbounded,
      Option.map_some, hgen, hparse, hstore]

end Blocks

end ZstdPure.Encode
