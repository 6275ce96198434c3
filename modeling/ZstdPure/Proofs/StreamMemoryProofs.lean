import ZstdPure.Proofs.SlidePeriodProofs
import ZstdPure.Proofs.StreamEncodeProofs

/-!
# The memory of the streaming encoder

After every call the encoder holds back at most one block, and of the input it has emitted it keeps
at least one window and at most two. -/

namespace ZstdPure.Encode.StreamingEncoder

open Outcome

/-! ## History -/

/-- The history of an encoder: between one window and two, and cut at a period of the finder, which
is at most a window. -/
structure Bounded (s : StreamingEncoder) : Prop where
  ordered : s.Ordered
  history_le : s.emitted - s.dropped ≤ 2 * s.window_size
  history_ge : min s.emitted s.window_size ≤ s.emitted - s.dropped
  period_le : s.session.finder.slide_period ≤ s.window_size
  aligned : s.session.finder.slide_period ∣ s.dropped

/-- A slide drops nothing, or a positive multiple of the period. -/
theorem maybe_slide_cases (s : StreamingEncoder) : s.maybe_slide = s ∨ ∃ m > 0,
    s.slide_drop = m * s.session.finder.slide_period ∧
      s.maybe_slide.dropped = s.dropped + m * s.session.finder.slide_period := by
  by_cases h0 : s.slide_drop = 0
  · left
    rw [maybe_slide]
    exact if_pos h0
  · right
    have hmul : s.session.finder.slide_period ∣ s.slide_drop := by
      rw [slide_drop]
      dsimp only
      split_ifs
      · exact dvd_zero _
      · exact Nat.dvd_sub_mod _
    obtain ⟨m, hm⟩ := hmul
    rw [Nat.mul_comm] at hm
    refine ⟨m, ?_, hm, ?_⟩
    · rcases Nat.eq_zero_or_pos m with rfl | hpos
      · exact absurd (hm.trans (Nat.zero_mul _)) h0
      · exact hpos
    · rw [maybe_slide, ← hm, if_neg h0]

/-- Where a slide is due, it leaves at least a window and less than two. -/
theorem slide_drop_spec {s : StreamingEncoder}
    (hperiod : s.session.finder.slide_period ≤ s.window_size) :
    s.emitted - s.dropped ≤ 2 * s.window_size ∧ s.slide_drop = 0 ∨
      s.window_size ≤ s.emitted - s.dropped - s.slide_drop ∧
        s.emitted - s.dropped - s.slide_drop ≤ 2 * s.window_size := by
  have hpos := slide_period_pos s.session.finder
  have hmod := Nat.mod_lt (s.emitted - s.dropped - s.window_size) hpos
  have hle := Nat.mod_le (s.emitted - s.dropped - s.window_size) s.session.finder.slide_period
  have hdrop : s.slide_drop = if s.emitted - s.dropped ≤ 2 * s.window_size then 0 else
      s.emitted - s.dropped - s.window_size -
        (s.emitted - s.dropped - s.window_size) % s.session.finder.slide_period := rfl
  split_ifs at hdrop with h
  · exact Or.inl ⟨h, hdrop⟩
  · right
    omega

theorem maybe_slide_fields (s : StreamingEncoder) : s.maybe_slide.window_size = s.window_size ∧
    s.maybe_slide.session.finder.slide_period = s.session.finder.slide_period ∧
    s.maybe_slide.dropped = s.dropped + s.slide_drop := by
  rw [maybe_slide]
  split_ifs with h0
  · exact ⟨rfl, rfl, by rw [h0, Nat.add_zero]⟩
  · exact ⟨rfl, Finder.reduce_index_period .., rfl⟩

/-- One block more, and the slide after it. -/
theorem Bounded.drain_step {s : StreamingEncoder} (h : s.Bounded)
    (hfull : s.emitted + BLOCK_SIZE_MAX ≤ s.total) : (drain_step maybe_slide s).Bounded := by
  obtain ⟨ordered, history_le, history_ge, period_le, aligned⟩ := h
  have hord := drain_step_ordered maybe_slide_slides ordered hfull
  have hemit := @drain_step_emitted _ maybe_slide_slides s
  generalize ht : s.emit_block (s.emitted + BLOCK_SIZE_MAX) false = t
  have hperiod : t.session.finder.slide_period = s.session.finder.slide_period := by
    rw [← ht]
    exact encode_block_period ..
  have hwindow : t.window_size = s.window_size := by rw [← ht]; rfl
  have hdropped : t.dropped = s.dropped := by rw [← ht]; rfl
  have hemitted : t.emitted = s.emitted + BLOCK_SIZE_MAX := by rw [← ht]; rfl
  obtain ⟨hw, hp, hd⟩ := maybe_slide_fields t
  have hspec := @slide_drop_spec t (by rw [hperiod, hwindow]; exact period_le)
  have hdle := slide_drop_le t
  have hstep : StreamingEncoder.drain_step maybe_slide s = t.maybe_slide := by rw [← ht]; rfl
  rw [hstep] at hord hemit ⊢
  refine ⟨hord, ?_, ?_, ?_, ?_⟩
  · omega
  · have := ordered.dropped
    omega
  · rw [hp, hw, hperiod, hwindow]
    exact period_le
  · rw [hp, hd, hdropped, hperiod]
    refine Nat.dvd_add aligned ?_
    rcases maybe_slide_cases t with hsame | ⟨m, -, hm, -⟩
    · rw [hsame] at hd
      rw [show t.slide_drop = 0 by omega]
      exact dvd_zero _
    · rw [hm, hperiod]
      exact Nat.dvd_mul_left _ _

/-- Every state that the encoder passes through between two blocks. -/
theorem after_bounded {s₀ : StreamingEncoder} (h₀ : Fresh s₀)
    (hperiod : s₀.session.finder.slide_period ≤ s₀.window_size) (data : Bytes) :
    ∀ k, k * BLOCK_SIZE_MAX ≤ data.length → (after maybe_slide s₀ data k).Bounded ∧
      (after maybe_slide s₀ data k).window_size = s₀.window_size := by
  intro k
  induction k with
  | zero =>
    intro hk
    obtain ⟨hord, hemit, -⟩ := after_spec maybe_slide_slides h₀ data 0 hk
    have hdropped : (after maybe_slide s₀ data 0).dropped = 0 := h₀.dropped
    refine ⟨⟨hord, ?_, ?_, hperiod, ?_⟩, rfl⟩
    · omega
    · omega
    · rw [hdropped]
      exact dvd_zero _
  | succ k ih =>
    intro hk
    rw [Nat.succ_mul] at hk
    obtain ⟨hb, hw⟩ := ih (by omega)
    obtain ⟨-, hemit, htotal⟩ := after_spec maybe_slide_slides h₀ data k (by omega)
    rw [after_succ]
    refine ⟨hb.drain_step (by rw [hemit, htotal]; exact hk), ?_⟩
    rw [← hw]
    exact (maybe_slide_fields _).1

theorem Bounded.with_sink {s : StreamingEncoder} (h : s.Bounded) (out : Bytes)
    (hasher : XxHash.Xxh64) : (s.with_sink out hasher).Bounded :=
  ⟨⟨h.ordered.dropped, h.ordered.emitted⟩, h.history_le, h.history_ge, h.period_le, h.aligned⟩

theorem Pushed.bounded {s₀ s : StreamingEncoder} {data drained : Bytes} (h₀ : Fresh s₀)
    (hperiod : s₀.session.finder.slide_period ≤ s₀.window_size)
    (hs : Pushed maybe_slide s₀ data drained s) :
    s.Bounded ∧ s.window_size = s₀.window_size := by
  obtain ⟨hbounded, hwindow⟩ := after_bounded h₀ hperiod data _ (full_blocks_le data)
  rw [hs.state_eq]
  exact ⟨hbounded.with_sink _ _, hwindow⟩

/-! ## Every run -/

theorem of_mode_period (level : Int) (checksum expect_magic : Bool) (mode : StreamMode) :
    (of_mode level checksum expect_magic mode).session.finder.slide_period ≤
      (of_mode level checksum expect_magic mode).window_size := by
  cases mode with
  | plain => exact level_period_le level
  | long window_log =>
    refine (level_period_le level).trans (Nat.pow_le_pow_right (by decide) ?_)
    exact le_max_left _ _

/-- After every sequence of calls the encoder holds back at most one block of what was pushed, and
at least a byte of it; of what it has emitted it keeps at least one window and at most two; and no
slide drops anything but a positive multiple of the finder's period, at which every ring lines up.
-/
theorem streaming_memory_bounded (level : Int) (checksum expect_magic : Bool) (mode : StreamMode) :
    (∀ calls : List Call, (∀ c ∈ calls, c.pushed.length < 2 ^ 63) →
      ∃ r, calls.foldlM (Run.call maybe_slide) ⟨of_mode level checksum expect_magic mode, []⟩ =
        .ok r ∧
        r.encoder.total = ((calls.map Call.pushed).flatten).length ∧
        r.encoder.total - r.encoder.emitted ≤ BLOCK_SIZE_MAX ∧
        ((calls.map Call.pushed).flatten ≠ [] → r.encoder.emitted < r.encoder.total) ∧
        r.encoder.dropped ≤ r.encoder.emitted ∧
        r.encoder.emitted - r.encoder.dropped ≤ 2 * r.encoder.window_size ∧
        min r.encoder.emitted r.encoder.window_size ≤ r.encoder.emitted - r.encoder.dropped ∧
        r.encoder.buffered_input_len ≤ 2 * r.encoder.window_size + BLOCK_SIZE_MAX ∧
        r.encoder.window_size = (of_mode level checksum expect_magic mode).window_size) ∧
    (∀ s : StreamingEncoder, s.maybe_slide = s ∨ ∃ m > 0,
      s.maybe_slide.dropped = s.dropped + m * s.session.finder.slide_period ∧
        s.session.finder.Aligned (s.maybe_slide.dropped - s.dropped)) := by
  constructor
  · intro calls hlen
    obtain ⟨h₀, hhash⟩ := of_mode_fresh level checksum expect_magic mode
    have hperiod := of_mode_period level checksum expect_magic mode
    generalize of_mode level checksum expect_magic mode = s₀ at h₀ hhash hperiod ⊢
    have hstart : Pushed maybe_slide s₀ [] [] s₀ := pushed_nil hhash
    obtain ⟨r, hcalls, hr⟩ :=
      @calls_spec maybe_slide s₀ [] maybe_slide_slides h₀ calls hlen ⟨s₀, []⟩ hstart
    rw [List.nil_append] at hr
    generalize (calls.map Call.pushed).flatten = data at *
    obtain ⟨hb, hwindow⟩ := hr.bounded h₀ hperiod
    obtain ⟨⟨k, hk, hheld⟩, -⟩ := hr
    obtain ⟨hemit, htotal⟩ := hk.spec maybe_slide_slides h₀
    rw [Nat.succ_mul] at hheld
    have hle := hb.ordered.dropped
    have hhist := hb.history_le
    have hge := hb.history_ge
    have htot : r.encoder.total = r.encoder.dropped + r.encoder.buffered_input_len := rfl
    refine ⟨r, hcalls, htotal, by omega, fun hne => ?_, by omega, by omega, by omega, by omega,
      hwindow⟩
    rcases hk.complete with rfl | hlt
    · have := List.length_pos_iff.mpr hne
      omega
    · omega
  · intro s
    rcases maybe_slide_cases s with hsame | ⟨m, hm, -, hdrop⟩
    · exact Or.inl hsame
    · refine Or.inr ⟨m, hm, hdrop, Finder.aligned _ ?_⟩
      rw [hdrop, Nat.add_sub_cancel_left]
      exact Nat.dvd_mul_left _ _

/-- `streaming_memory_bounded` on eight MiB in two calls: most of it is gone from the history. -/
theorem streaming_memory_bounded_eight_mib :
    ∃ r, [Call.push (List.replicate (2 ^ 22) 97), .take_output,
      .push (List.replicate (2 ^ 22) 97)].foldlM
        (Run.call maybe_slide) ⟨of_mode 1 false true .plain, []⟩ = .ok r ∧
      r.encoder.total = 2 ^ 23 ∧ r.encoder.buffered_input_len ≤ 2 ^ 21 ∧
      2 ^ 22 ≤ r.encoder.dropped := by
  obtain ⟨xs, heq, hxs⟩ : ∃ xs : Bytes, List.replicate (2 ^ 22) 97 = xs ∧ xs.length = 2 ^ 22 :=
    ⟨_, rfl, List.length_replicate⟩
  rw [heq]
  have hpushed : ∀ c ∈ [Call.push xs, .take_output, .push xs], c.pushed.length < 2 ^ 63 := by
    intro c hc
    simp only [List.mem_cons, List.not_mem_nil, or_false] at hc
    rcases hc with rfl | rfl | rfl <;> simp only [Call.pushed, hxs, List.length_nil] <;> decide
  obtain ⟨r, hcalls, htotal, hheld, -, -, hhist, -, hbuffered, hwindow⟩ :=
    (streaming_memory_bounded 1 false true .plain).1 _ hpushed
  replace hwindow : r.encoder.window_size = 2 ^ 19 := by
    rw [hwindow, of_mode, with_options, window_size, start]
    rfl
  have hmax : BLOCK_SIZE_MAX = 2 ^ 17 := by rfl
  simp only [List.map_cons, List.map_nil, Call.pushed, List.flatten_cons, List.flatten_nil,
    List.length_append, List.length_nil, hxs] at htotal
  exact ⟨r, hcalls, by omega, by omega, by omega⟩

end ZstdPure.Encode.StreamingEncoder
