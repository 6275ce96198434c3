import ZstdPure.Proofs.SlideSessionProofs
import ZstdPure.Proofs.StreamRoundTripProofs

/-!
# Sliding is invisible

Beside the encoder that slides runs the one that keeps all of its input and stores positions in
full. At every point the tables of the first are those of the second, moved by what was dropped, so
that both write the same blocks. -/

namespace ZstdPure.Encode

open Outcome Sequences XxHash

/-! ## Two slides are one -/

section Reduce

variable {drop : Nat}

theorem reduce_index_entry_zero (e : Int) : reduce_index_entry unbounded 0 e = e := by
  unfold reduce_index_entry
  split_ifs with hneg hle
  · rfl
  · exact Int.toNat_of_nonneg (Int.not_lt.mp hneg)
  · exact absurd (Nat.zero_le _) hle

/-- A position that is stored in full slides again. -/
theorem reduce_index_entry_again {e : Int} (h : reduce_index_entry unbounded drop e < 2 ^ 31)
    (more : Nat) : reduce_index_entry asI32 more (reduce_index_entry unbounded drop e) =
      reduce_index_entry unbounded (drop + more) e := by
  have hentry : reduce_index_entry unbounded (drop + more) e = if e < 0 then e
      else if drop + more ≤ e.toNat then unbounded (e.toNat - (drop + more)) else -1 := rfl
  rw [hentry]
  rcases slid_entry_cases drop e with ⟨hpos, hle, heq⟩ | ⟨hneg, hold⟩
  · rw [heq, reduce_index_entry, if_neg (not_lt_of_ge (Int.natCast_nonneg _)), Int.toNat_natCast,
      if_neg (not_lt_of_ge hpos)]
    rw [heq] at h
    by_cases hmore : drop + more ≤ e.toNat
    · rw [if_pos (by omega), if_pos hmore, Fse.asI32_of_lt (by omega), ← Nat.sub_sub]
      rfl
    · rw [if_neg (by omega), if_neg hmore]
  · rw [reduce_index_entry, if_pos hneg]
    unfold reduce_index_entry
    by_cases hpos : e < 0
    · rw [if_pos hpos, if_pos hpos]
    · have hlt := hold (Int.not_lt.mp hpos)
      rw [if_neg hpos, if_neg hpos, if_neg (by omega), if_neg (by omega)]

theorem reduce_index_table_zero (table : List Int) :
    reduce_index_table unbounded 0 table = table := by
  unfold reduce_index_table
  rw [List.map_congr_left fun e _ => reduce_index_entry_zero e, List.map_id']

theorem reduce_index_table_again {table : List Int}
    (h : Stored (reduce_index_table unbounded drop table)) (more : Nat) :
    reduce_index_table asI32 more (reduce_index_table unbounded drop table) =
      reduce_index_table unbounded (drop + more) table := by
  unfold reduce_index_table
  rw [List.map_map]
  exact List.map_congr_left fun e he =>
    reduce_index_entry_again (h _ (List.mem_map_of_mem he)) more

theorem Finder.reduce_index_zero (f : Finder) : f.reduce_index unbounded 0 = f := by
  cases f <;>
    simp only [Finder.reduce_index, reduce_hybrid, MatchState.reduce_index, DFastState.reduce_index,
      ChainState.reduce_index, BtState.reduce_index, reduce_index_table_zero]

theorem Finder.reduce_index_again {f : Finder} (h : (f.reduce_index unbounded drop).Stored)
    (more : Nat) : (f.reduce_index unbounded drop).reduce_index asI32 more =
      f.reduce_index unbounded (drop + more) := by
  have hchain : ∀ st : ChainState, (st.reduce_index unbounded drop).Stored →
      (st.reduce_index unbounded drop).reduce_index asI32 more =
        st.reduce_index unbounded (drop + more) := by
    intro st hst
    simp only [ChainState.reduce_index, reduce_index_table_again hst.head,
      reduce_index_table_again hst.chain]
  have htree : ∀ st : BtState, (st.reduce_index unbounded drop).Stored →
      (st.reduce_index unbounded drop).reduce_index asI32 more =
        st.reduce_index unbounded (drop + more) := by
    intro st hst
    simp only [BtState.reduce_index, reduce_index_table_again hst.hash,
      reduce_index_table_again hst.bt]
  cases f with
  | Fast st =>
    have htable := reduce_index_table_again h more
    exact congrArg (fun t => Finder.Fast ⟨t, st.hash_log⟩) htable
  | DFast st =>
    simp only [Finder.reduce_index, DFastState.reduce_index, reduce_index_table_again h.long,
      reduce_index_table_again h.short]
  | Chain st lazy_steps depth => simp only [Finder.reduce_index, hchain st h]
  | BtLazy st depth =>
    simp only [Finder.reduce_index, reduce_hybrid, hchain _ h.chain, htree _ h.tree]
  | Opt st depth sufficient_len two_pass stats =>
    simp only [Finder.reduce_index, reduce_hybrid, hchain _ h.chain, htree _ h.tree]

theorem Session.reduce_index_zero (s : Session) : s.reduce_index unbounded 0 = s := by
  obtain ⟨finder, ldm, state⟩ := s
  cases ldm with
  | none => simp only [Session.reduce_index, Finder.reduce_index_zero, Option.map_none]
  | some st =>
    simp only [Session.reduce_index, Finder.reduce_index_zero, Option.map_some,
      LdmState.reduce_index, reduce_index_table_zero]

theorem Session.reduce_index_again {s : Session} (h : (s.reduce_index unbounded drop).Stored)
    (more : Nat) : (s.reduce_index unbounded drop).reduce_index asI32 more =
      s.reduce_index unbounded (drop + more) := by
  obtain ⟨finder, ldm, state⟩ := s
  have hfinder := Finder.reduce_index_again h.finder more
  cases ldm with
  | none => simp only [Session.reduce_index, Option.map_none, hfinder]
  | some st =>
    have htable := reduce_index_table_again (h.ldm _ rfl) more
    simp only [Session.reduce_index, Option.map_some, LdmState.reduce_index, hfinder, htable]

end Reduce

namespace StreamingEncoder

/-! ## The encoder that never slides -/

/-- The encoder that stores positions in full. -/
def unbounded (s : StreamingEncoder) : StreamingEncoder := { s with env := s.env.unbounded }

theorem id_slides : Slides id :=
  ⟨fun _ => rfl, fun _ hs => hs.dropped, fun _ _ => rfl, fun _ _ _ => rfl, fun _ => rfl,
    fun _ => rfl, fun _ _ _ => rfl⟩

/-- `u` has kept all of the input and `s` the end of it, with the positions of `u` counted from
there. -/
structure Mirrors (data : Bytes) (u s : StreamingEncoder) : Prop where
  env : u.env = s.env.unbounded
  cast : s.env.cast = asI32
  searches : s.env.SearchesIn s.window_size
  whole : u.input = data
  origin : u.dropped = 0
  kept : s.input = data.drop s.dropped
  emitted : u.emitted = s.emitted
  out : u.out = s.out
  session : s.session = u.session.reduce_index Encode.unbounded s.dropped
  stored : s.session.Stored
  near : Within s.window_size s.session.state.rep

section Steps

variable {data : Bytes} {u s : StreamingEncoder} {stop : Nat}

/-- What was dropped is beyond the window, and the positions that are left are small. -/
theorem Mirrors.slid (h : Mirrors data u s) (hbounded : s.Bounded)
    (hwindow : s.window_size ≤ 2 ^ 28) (hblock : stop - s.emitted ≤ BLOCK_SIZE_MAX) :
    Slid s.env.cast s.dropped s.window_size s.emitted stop := by
  have hmax : BLOCK_SIZE_MAX = 131072 := rfl
  have hle := hbounded.ordered.dropped
  have hge := hbounded.history_ge
  have hhistory := hbounded.history_le
  refine ⟨hle, by omega, fun p hp => ?_⟩
  rw [h.cast]
  exact Fse.asI32_of_lt (by omega)

/-- Both encoders write the same block. -/
theorem Mirrors.next_block (h : Mirrors data u s) (hbounded : s.Bounded)
    (hwindow : s.window_size ≤ 2 ^ 28) (hblock : stop - s.emitted ≤ BLOCK_SIZE_MAX) (last : Bool) :
    s.next_block stop last = ((u.next_block stop last).1,
      (u.next_block stop last).2.reduce_index Encode.unbounded s.dropped) := by
  have hturn : u.session.finder.slide_period ∣ s.dropped := by
    have haligned := hbounded.aligned
    rw [h.session] at haligned
    exact (Finder.reduce_index_period _ _ u.session.finder) ▸ haligned
  have hrep : Within s.window_size u.session.state.rep := by
    have hnear := h.near
    rw [h.session] at hnear
    exact hnear
  have hslid := encode_block_slid (h.slid hbounded hwindow hblock) h.searches hrep hturn last
    (data.take stop)
  unfold StreamingEncoder.next_block
  rw [h.env, h.whole, h.origin, h.emitted, Nat.sub_zero, Nat.sub_zero, ← hslid, h.kept,
    ← List.drop_take, ← h.session]

theorem Mirrors.emit (h : Mirrors data u s) (hbounded : s.Bounded)
    (hwindow : s.window_size ≤ 2 ^ 28) (hblock : stop - s.emitted ≤ BLOCK_SIZE_MAX) (last : Bool) :
    Mirrors data (u.emit_block stop last) (s.emit_block stop last) := by
  have hsame := h.next_block hbounded hwindow hblock last
  have hstored : (s.next_block stop last).2.Stored :=
    encode_block_stored (fun p => by rw [h.cast]; exact asI32_lt p) h.stored last _ _ _
  have hnear : Within s.window_size (s.next_block stop last).2.state.rep :=
    encode_block_near h.searches h.near last _ _ _
  refine ⟨h.env, h.cast, h.searches, h.whole, h.origin, h.kept, rfl, ?_, ?_, hstored, hnear⟩
  · show u.out ++ (u.next_block stop last).1 = s.out ++ (s.next_block stop last).1
    rw [h.out, hsame]
  · show (s.next_block stop last).2 = _
    rw [hsame]
    rfl

/-- Neither the output that is left nor the hash matters. -/
theorem Mirrors.with_sink (h : Mirrors data u s) (out : Bytes) (hasher hasher' : Xxh64) :
    Mirrors data (u.with_sink out hasher) (s.with_sink out hasher') :=
  ⟨h.env, h.cast, h.searches, h.whole, h.origin, h.kept, h.emitted, rfl, h.session, h.stored,
    h.near⟩

/-- A slide of the one is none of the other. -/
theorem Mirrors.slide (h : Mirrors data u s) : Mirrors data u s.maybe_slide := by
  by_cases h0 : s.slide_drop = 0
  · have hsame : s.maybe_slide = s := by
      rw [maybe_slide]
      exact if_pos h0
    rw [hsame]
    exact h
  · have hslid : s.maybe_slide = { s with
        session := s.session.reduce_index s.env.cast s.slide_drop
        input := s.input.drop s.slide_drop
        dropped := s.dropped + s.slide_drop } := by
      rw [maybe_slide]
      exact if_neg h0
    have hstored := h.stored.reduce s.slide_drop
    have hsession : s.session.reduce_index asI32 s.slide_drop =
        u.session.reduce_index Encode.unbounded (s.dropped + s.slide_drop) := by
      have hlow := h.stored
      rw [h.session] at hlow ⊢
      exact Session.reduce_index_again hlow s.slide_drop
    rw [hslid]
    refine ⟨h.env, h.cast, h.searches, h.whole, h.origin, ?_, h.emitted, h.out, ?_, ?_, h.near⟩
    · show s.input.drop s.slide_drop = data.drop (s.dropped + s.slide_drop)
      rw [h.kept, List.drop_drop]
    · rw [h.cast]
      exact hsession
    · rw [h.cast]
      exact hstored

/-- A block and the slide after it. -/
theorem Mirrors.step (h : Mirrors data u s) (hbounded : s.Bounded)
    (hwindow : s.window_size ≤ 2 ^ 28) :
    Mirrors data (drain_step id u) (drain_step maybe_slide s) := by
  have hemit := h.emit hbounded hwindow
    (show s.emitted + BLOCK_SIZE_MAX - s.emitted ≤ BLOCK_SIZE_MAX by omega) false
  unfold drain_step
  rw [h.emitted]
  exact hemit.slide

end Steps

/-- Every state that both encoders pass through between two blocks. -/
theorem after_mirrors {s₀ : StreamingEncoder} (h₀ : Fresh s₀)
    (hperiod : s₀.session.finder.slide_period ≤ s₀.window_size) (hwindow : s₀.window_size ≤ 2 ^ 28)
    {data : Bytes} (hstart : Mirrors data (s₀.unbounded.feed data) (s₀.feed data)) :
    ∀ k, k * BLOCK_SIZE_MAX ≤ data.length →
      Mirrors data (after id s₀.unbounded data k) (after maybe_slide s₀ data k) := by
  intro k
  induction k with
  | zero => exact fun _ => hstart
  | succ k ih =>
    intro hk
    rw [Nat.succ_mul] at hk
    obtain ⟨hbounded, hsame⟩ := after_bounded h₀ hperiod data k (by omega)
    rw [after_succ, after_succ]
    exact (ih (by omega)).step hbounded (by rw [hsame]; exact hwindow)

/-- At the start nothing was dropped. -/
theorem fresh_mirrors {s₀ : StreamingEncoder} (h₀ : Fresh s₀) (hcast : s₀.env.cast = asI32)
    (hsearches : s₀.env.SearchesIn s₀.window_size) (hstored : s₀.session.Stored)
    (hnear : Within s₀.window_size s₀.session.state.rep) (data : Bytes) :
    Mirrors data (s₀.unbounded.feed data) (s₀.feed data) := by
  have hinput : s₀.input ++ data = data := by
    rw [h₀.input, List.nil_append]
  refine ⟨rfl, hcast, hsearches, hinput, h₀.dropped, ?_, rfl, rfl, ?_, hstored, hnear⟩
  · show s₀.input ++ data = data.drop s₀.dropped
    rw [hinput, h₀.dropped, List.drop_zero]
  · show s₀.session = s₀.session.reduce_index Encode.unbounded s₀.dropped
    rw [h₀.dropped, Session.reduce_index_zero]

/-- The tables and the repeat offsets of the constructors. -/
theorem of_mode_session (level : Int) (checksum expect_magic : Bool) (mode : StreamMode) :
    (of_mode level checksum expect_magic mode).session.Stored ∧
      (of_mode level checksum expect_magic mode).session.state = EncState.start := by
  cases mode with
  | plain =>
    rw [of_mode, with_options, start]
    exact ⟨⟨Finder.Stored.new _, fun st hst => absurd hst (by simp)⟩, rfl⟩
  | long window_log =>
    rw [of_mode, with_options_long, start]
    refine ⟨⟨Finder.Stored.new _, fun st hst => ?_⟩, rfl⟩
    rw [← Option.mem_some_iff.mp hst]
    exact Stored.empty _

theorem of_mode_mirrors (level : Int) (checksum expect_magic : Bool) (mode : StreamMode)
    (data : Bytes) : Mirrors data ((of_mode level checksum expect_magic mode).unbounded.feed data)
      ((of_mode level checksum expect_magic mode).feed data) := by
  obtain ⟨log, h17, -, hlog, -⟩ := of_mode_window level checksum expect_magic mode
  obtain ⟨hstored, hstate⟩ := of_mode_session level checksum expect_magic mode
  have hs := of_mode_starts level checksum expect_magic mode 0 0
  refine fresh_mirrors hs.fresh hs.cast hs.searches hstored ?_ data
  rw [hlog, hstate]
  have hwide : 2 ^ 17 ≤ 2 ^ log := Nat.pow_le_pow_right Nat.two_pos h17
  exact ⟨le_trans (show 1 ≤ 2 ^ 17 by decide) hwide, le_trans (show 4 ≤ 2 ^ 17 by decide) hwide,
    le_trans (show 8 ≤ 2 ^ 17 by decide) hwide⟩

/-! ## Every run -/

/-- Sliding is invisible: for every level and mode, and every sequence of calls, the encoder writes
what it would write if it kept all of the input and never slid, with positions of any size. After
every call both have given the same output, the buffer is the end of the input, and every table is
the one of the encoder that never slides, less what was dropped; and both write the same next block,
wherever it ends. -/
theorem sliding_invisible (level : Int) (checksum expect_magic : Bool) (mode : StreamMode)
    (calls : List Call) (hlen : ∀ c ∈ calls, c.pushed.length < 2 ^ 63) :
    (∃ out, run maybe_slide (of_mode level checksum expect_magic mode) calls = .ok out ∧
      run id (of_mode level checksum expect_magic mode).unbounded calls = .ok out) ∧
    ∃ r r',
      calls.foldlM (Run.call maybe_slide) ⟨of_mode level checksum expect_magic mode, []⟩ = .ok r ∧
      calls.foldlM (Run.call id) ⟨(of_mode level checksum expect_magic mode).unbounded, []⟩ =
        .ok r' ∧
      r.drained = r'.drained ∧ r.encoder.out = r'.encoder.out ∧
      r'.encoder.dropped = 0 ∧ r'.encoder.input = (calls.map Call.pushed).flatten ∧
      r.encoder.input = r'.encoder.input.drop r.encoder.dropped ∧
      r.encoder.session = r'.encoder.session.reduce_index Encode.unbounded r.encoder.dropped ∧
      ∀ stop last, stop - r.encoder.emitted ≤ BLOCK_SIZE_MAX →
        r.encoder.next_block stop last = ((r'.encoder.next_block stop last).1,
          (r'.encoder.next_block stop last).2.reduce_index Encode.unbounded r.encoder.dropped) := by
  obtain ⟨h₀, hhash⟩ := of_mode_fresh level checksum expect_magic mode
  obtain ⟨-, -, hperiod, hwindow, -⟩ := of_mode_starts level checksum expect_magic mode 0 0
  have hmirrors := of_mode_mirrors level checksum expect_magic mode
  generalize of_mode level checksum expect_magic mode = s₀ at h₀ hhash hperiod hmirrors hwindow ⊢
  have h₀' : Fresh s₀.unbounded := ⟨h₀.input, h₀.dropped, h₀.emitted⟩
  have hafter := fun data => after_mirrors h₀ hperiod hwindow (hmirrors data) _
    (full_blocks_le data)
  constructor
  · refine runs_agree maybe_slide_slides id_slides h₀ h₀' hhash hhash rfl hlen hlen rfl ?_
    generalize (calls.map Call.pushed).flatten = data
    obtain ⟨-, hemitted, -⟩ := after_spec maybe_slide_slides h₀ data _ (full_blocks_le data)
    obtain ⟨hbounded, hsame⟩ := after_bounded h₀ hperiod data _ (full_blocks_le data)
    have hnext := (hafter data).next_block hbounded (by rw [hsame]; exact hwindow)
      (show data.length - _ ≤ _ by rw [hemitted]; exact rest_le data) true
    unfold stream_blocks
    dsimp only
    rw [hnext, (hafter data).out]
  · have hpushed₀ : Pushed maybe_slide s₀ [] [] s₀ := pushed_nil hhash
    have hpushed₀' : Pushed id s₀.unbounded [] [] s₀.unbounded := pushed_nil hhash
    obtain ⟨r, r', hr, hr', hpushed, hpushed', hdrained, hout⟩ := @calls_agree maybe_slide s₀
      maybe_slide_slides h₀ id s₀.unbounded id_slides h₀' (fun data => (hafter data).out.symm) calls
      hlen [] ⟨s₀, []⟩ ⟨s₀.unbounded, []⟩ hpushed₀ hpushed₀' rfl
    rw [List.nil_append] at hpushed hpushed'
    generalize (calls.map Call.pushed).flatten = data at *
    obtain ⟨hbounded, hsame⟩ := hpushed.bounded h₀ hperiod
    have hmirrors : Mirrors data r'.encoder r.encoder := by
      rw [hpushed.state_eq, hpushed'.state_eq, hout]
      exact (hafter data).with_sink _ _ _
    exact ⟨r, r', hr, hr', hdrained, hout, hmirrors.origin, hmirrors.whole,
      by rw [hmirrors.whole]; exact hmirrors.kept, hmirrors.session,
      fun stop last hblock => hmirrors.next_block hbounded (hsame.trans_le hwindow) hblock last⟩

/-- `sliding_invisible` on eight MiB in two calls: by the end of the second, four MiB are gone. -/
theorem sliding_invisible_eight_mib :
    ∃ r r', [Call.push (List.replicate (2 ^ 22) 97), .take_output,
        .push (List.replicate (2 ^ 22) 97)].foldlM
        (Run.call maybe_slide) ⟨of_mode 1 false true .plain, []⟩ = .ok r ∧
      [Call.push (List.replicate (2 ^ 22) 97), .take_output,
        .push (List.replicate (2 ^ 22) 97)].foldlM
        (Run.call id) ⟨(of_mode 1 false true .plain).unbounded, []⟩ = .ok r' ∧
      2 ^ 22 ≤ r.encoder.dropped ∧ r'.encoder.dropped = 0 ∧ r.drained = r'.drained ∧
      r.encoder.out = r'.encoder.out ∧
      r.encoder.session = r'.encoder.session.reduce_index Encode.unbounded r.encoder.dropped := by
  obtain ⟨xs, heq, hxs⟩ : ∃ xs : Bytes, List.replicate (2 ^ 22) 97 = xs ∧ xs.length = 2 ^ 22 :=
    ⟨_, rfl, List.length_replicate⟩
  rw [heq]
  have hcalls : ∀ c ∈ [Call.push xs, .take_output, .push xs], c.pushed.length < 2 ^ 63 := by
    intro c hc
    simp only [List.mem_cons, List.not_mem_nil, or_false] at hc
    rcases hc with rfl | rfl | rfl <;> simp only [Call.pushed, hxs, List.length_nil] <;> decide
  obtain ⟨-, r, r', hr, hr', hdrained, hout, hnone, -, -, hsession, -⟩ :=
    sliding_invisible 1 false true .plain _ hcalls
  refine ⟨r, r', hr, hr', ?_, hnone, hdrained, hout, hsession⟩
  -- what is held back and what is kept are both small
  obtain ⟨h₀, hhash⟩ := of_mode_fresh 1 false true .plain
  have hpushed₀ : Pushed maybe_slide (of_mode 1 false true .plain) [] []
    (of_mode 1 false true .plain) := pushed_nil hhash
  obtain ⟨r₁, hr₁, hpushed⟩ := @calls_spec maybe_slide (of_mode 1 false true .plain) []
    maybe_slide_slides h₀ _ hcalls ⟨of_mode 1 false true .plain, []⟩ hpushed₀
  obtain rfl := Except.ok.inj (hr.symm.trans hr₁)
  obtain ⟨hbounded, hwindow⟩ := hpushed.bounded h₀ (of_mode_period 1 false true .plain)
  obtain ⟨⟨k, hk, hheld⟩, -⟩ := hpushed
  obtain ⟨hemitted, -⟩ := hk.spec maybe_slide_slides h₀
  replace hwindow : r.encoder.window_size = 2 ^ 19 := by
    rw [hwindow, of_mode, with_options, window_size, start]
    rfl
  have hmax : BLOCK_SIZE_MAX = 2 ^ 17 := by rfl
  have hhistory := hbounded.history_le
  simp only [List.map_cons, List.map_nil, Call.pushed, List.flatten_cons, List.flatten_nil,
    List.nil_append, List.length_append, List.length_nil, hxs] at hheld
  rw [Nat.succ_mul] at hheld
  omega

end StreamingEncoder

end ZstdPure.Encode
