import ZstdPure.Proofs.FrameRunProofs
import ZstdPure.Proofs.HistoryProofs

/-!
# The output ceiling

A larger ceiling changes nothing but what fits: a decode that succeeds under one ceiling succeeds
with the same output under every ceiling that the output fits, and fails under every other. At no
point does the buffer exceed the ceiling.
-/

namespace ZstdPure

open Outcome

/-! ## One frame -/

/-- A block decoded under a ceiling is the same block under another that its output fits. -/
theorem decode_block_lift {src pre : Bytes} {p p' : BlockPos} {t : BlockState}
    (h : p.state.Lifted pre t) (hs : p.state.dict_len ≤ p.state.out.length)
    (ht : t.dict_len ≤ t.out.length) (hdecode : decode_block src p = .ok p')
    (hfit : t.Fits (pre ++ p'.state.out)) :
    ∃ t', decode_block src ⟨t, p.pos, p.last⟩ = .ok ⟨t', p'.pos, p'.last⟩ ∧
      BlockState.LiftedStep (p.state.blocks + 1) pre p.state t p'.state t' ∧
      t.Appended t' t.block_max := by
  rw [decode_block] at hdecode
  obtain ⟨r, hr, hp'⟩ := bind_eq_ok.mp hdecode
  have hp' := Except.ok.inj hp'
  rw [← hp'] at hfit ⊢
  obtain ⟨r', hr', hrel, hpos⟩ := BlockState.decode_block_at_lift h hs ht r hr hfit
  refine ⟨r'.1, ?_, hrel, BlockState.decode_block_at_ensures ht r' hr'⟩
  have h₁ : r.2.1 = r'.2.1 := by rw [hpos]
  have h₂ : r.2.2 = r'.2.2 := by rw [hpos]
  rw [decode_block, hr', bind_ok, h₁, h₂]
  rfl

theorem shift_zero (ms : List FrameMatch) : ms.map (FrameMatch.shift 0) = ms := List.map_id ms

/-- The block loop under another ceiling. -/
theorem BlocksIterate.lift {src : Bytes} {p q : BlockPos} (h : BlocksIterate src p q) :
    ∀ {t : BlockState}, p.state.Lifted [] t → p.state.matches_ = t.matches_ →
      p.state.dict_len ≤ p.state.out.length → t.dict_len ≤ t.out.length → t.Fits q.state.out →
      ∃ t', BlocksIterate src ⟨t, p.pos, p.last⟩ ⟨t', q.pos, q.last⟩ ∧ q.state.Lifted [] t' ∧
        q.state.matches_ = t'.matches_ := by
  induction h with
  | stop hc => intro t hl hms _ _ _; exact ⟨t, .stop hc, hl, hms⟩
  | @step p p' q hc hbody hrest ih =>
    intro t hl hms hs ht hfit
    have hgrown := (BlocksGrown.refl p.state).block hs hbody
    have hs' := hgrown.dict_len_le hs
    have hle := (BlocksIterate.grown hrest hs').out_extends.length_le
    obtain ⟨t₁, ht₁, hstep, happ⟩ := decode_block_lift hl hs ht hbody (hfit.mono hle)
    obtain ⟨ms, -, hms₁, hms₂⟩ := hstep.matches_
    obtain ⟨t', hiter, hl'⟩ := ih hstep.lifted
      (by rw [hms₁, hms₂, hms, List.length_nil, shift_zero]) hs' (by
      rw [happ.same.dict_len]; exact ht.trans happ.out_extends.length_le)
      ⟨by rw [happ.same.dict_len, happ.same.max_output]; exact hfit.ceiling, hfit.word⟩
    exact ⟨t', .step hc ht₁ hiter, hl'⟩

/-- The start of a frame under another ceiling. -/
theorem frame_start_ceiling {src : Bytes} {expect_magic : Bool} {m : Nat}
    {dict : Option Dictionary} {max_window : Option Nat} {start : Nat ⊕ FrameStart} (m' : Nat)
    (h : frame_start src expect_magic m dict max_window = .ok start) :
    match start with
    | .inl n => frame_start src expect_magic m' dict max_window = .ok (.inl n)
    | .inr st => (∀ n ∈ st.header.content_size, n ≤ m') →
        frame_start src expect_magic m' dict max_window = .ok (.inr ⟨st.header,
          BlockState.start (st.header.content_size.getD m')
            (min st.header.window_size MAX_BLOCK_SIZE) dict, st.pos⟩) := by
  rw [frame_start] at h
  obtain ⟨front, hfront, h⟩ := bind_eq_ok.mp h
  cases front with
  | skippable n =>
    obtain rfl := Except.ok.inj h
    dsimp only
    rw [frame_start, hfront]
    rfl
  | frame pos =>
    obtain ⟨rest, hrest, h⟩ := bind_eq_ok.mp h
    obtain ⟨header, hheader, h⟩ := bind_eq_ok.mp h
    obtain ⟨pos', hpos, h⟩ := bind_eq_ok.mp h
    obtain ⟨_, hwindow, h⟩ := bind_eq_ok.mp h
    obtain ⟨cap, -, h⟩ := bind_eq_ok.mp h
    obtain ⟨_, hdict, h⟩ := bind_eq_ok.mp h
    obtain rfl := Except.ok.inj h
    dsimp only
    intro hn
    rw [frame_start, hfront, bind_ok]
    dsimp only
    rw [hrest, bind_ok, hheader, bind_ok, hpos, bind_ok, hwindow, bind_ok]
    cases hsize : header.content_size with
    | none => rw [frame_cap, pure_eq_ok, bind_ok, hdict]; rfl
    | some n =>
      rw [frame_cap, if_neg (Nat.not_lt.mpr (hn n hsize)), pure_eq_ok, bind_ok, hdict]
      rfl

/-- The states at the start of a frame under two ceilings. -/
theorem start_lifted (max_output max_output' block_max : Nat) (dict : Option Dictionary) :
    (BlockState.start max_output block_max dict).Lifted []
      (BlockState.start max_output' block_max dict) := by
  unfold BlockState.start
  cases dict with
  | none => exact ⟨rfl, rfl, rfl, rfl, rfl, rfl⟩
  | some d => dsimp only; cases d.entropy <;> exact ⟨rfl, rfl, rfl, rfl, rfl, rfl⟩

/-- A frame decodes alike under every ceiling that its output fits. -/
theorem decode_frame_ceiling {src : Bytes} {expect_magic : Bool} {m m' : Nat}
    {dict : Option Dictionary} {max_window : Option Nat} {f : DecodedFrame}
    (h : decode_frame src expect_magic m dict max_window = .ok f) (hle : f.data.length ≤ m')
    (hword : dictionary_len dict + f.data.length ≤ usizeMax) :
    ∃ f', decode_frame src expect_magic m' dict max_window = .ok f' ∧ f'.data = f.data ∧
      f'.consumed = f.consumed := by
  rw [decode_frame_eq] at h
  obtain ⟨start, hstart, h⟩ := bind_eq_ok.mp h
  have hstart' := frame_start_ceiling m' hstart
  cases start with
  | inl n =>
    refine ⟨f, ?_, rfl, rfl⟩
    rw [decode_frame_eq, hstart', bind_ok]
    exact h
  | inr st =>
    obtain ⟨cap, hcap, hpledge, hstate⟩ := frame_start_ensures _ hstart st rfl
    obtain ⟨p, hp, hdata, hms, hend⟩ := frame_rest_ok h
    obtain ⟨hout, hdict⟩ := start_out cap (min st.header.window_size MAX_BLOCK_SIZE) dict
    rw [← hstate] at hout hdict
    have hdl : st.state.dict_len ≤ st.state.out.length := by omega
    have hgrown := BlocksIterate.grown (decode_blocks_iterate hp) hdl
    have hlen := hgrown.out_extends.length_le
    have hdlen : f.data.length = p.state.out.length - st.state.dict_len := by
      rw [hdata, List.length_drop]
    dsimp only at hlen
    -- the pledged size, if there is one, is the size of the output
    have hsize : ∀ n ∈ st.header.content_size, f.data.length = n := by
      rw [frame_end] at hend
      obtain ⟨_, hcheck, -⟩ := bind_eq_ok.mp hend
      exact check_content_size_safe.ensures _ hcheck
    have hstart'' := hstart' fun n hn => by rw [← hsize n hn]; exact hle
    set t := BlockState.start (st.header.content_size.getD m')
      (min st.header.window_size MAX_BLOCK_SIZE) dict with ht
    obtain ⟨hout', hdict'⟩ := start_out (st.header.content_size.getD m')
      (min st.header.window_size MAX_BLOCK_SIZE) dict
    rw [← ht] at hout' hdict'
    have hlift : st.state.Lifted [] t := by
      rw [hstate, ht]
      exact start_lifted _ _ _ _
    have hmax : t.max_output = st.header.content_size.getD m' := by rw [ht, start_max_output]
    have hroom : f.data.length ≤ t.max_output := by
      rw [hmax]
      cases hs : st.header.content_size with
      | none => exact hle
      | some n => exact (hsize n hs).le
    have hms' : st.state.matches_ = t.matches_ := by
      rw [hstate, ht, start_matches, start_matches]
    obtain ⟨t', hiter, hl', -⟩ := BlocksIterate.lift (decode_blocks_iterate hp) hlift hms' hdl
      (by omega) ⟨by omega, by omega⟩
    have hblocks := BlocksIterate.decode_blocks hiter
    have hout'' := hl'.out
    rw [List.nil_append] at hout''
    refine ⟨⟨f.data, f.consumed, t'.matches_⟩, ?_, rfl, rfl⟩
    rw [decode_frame_eq, hstart'', bind_ok]
    dsimp only
    rw [frame_rest, hblocks, bind_ok, hout'', hdict', ← hdict, sliceFrom_ok (by omega), bind_ok,
      ← hdata, hend]
    rfl

/-! ## The frame loop -/

theorem decompress_capped_run {src v : Bytes} {m : Nat} (h : decompress_capped src m = .ok v) :
    StreamRun (fun s m => decode_one s true m) src m v :=
  decode_stream_iterate (decode_frame_decoder true none none) h

theorem StreamRun.decompress_capped {src v : Bytes} {m : Nat}
    (h : StreamRun (fun s m => decode_one s true m) src m v) (hlen : src.length < 2 ^ 63) :
    decompress_capped src m = .ok v :=
  h.decode_stream (decode_frame_decoder true none none) hlen

/-- A run of the frame loop under another budget that its output fits. -/
theorem StreamRun.decode_one_ceiling {src v : Bytes} {m m' : Nat}
    (h : StreamRun (fun s m => decode_one s true m) src m v) (hm : m ≤ usizeMax)
    (hle : v.length ≤ m') : StreamRun (fun s m => decode_one s true m) src m' v := by
  refine h.ceiling (fun {src m m' f} hf hle hm => ?_) hm m' hle
  have hdata := decode_frame_data_le _ hf
  exact decode_frame_ceiling hf hle (by simp only [dictionary_len]; omega)

theorem decompress_capped_noFault {src : Bytes} {m : Nat} (hlen : src.length < 2 ^ 63)
    (hm : m ≤ usizeMax) : NoFault (decompress_capped src m) := by
  rw [decompress_capped, decode_stream]
  refine Safe.noFault (Q := fun _ => True) ?_
  refine (Safe.loop (fun s : Nat × Bytes => s.1 ≤ src.length) (fun s => src.length - s.1) ?_ _ _
    (Nat.zero_le _) (by simp only; omega)).bind fun s _ => Safe.ok trivial
  rintro ⟨pos, out⟩ hpos hc
  have hlt : pos < src.length := by simpa using hc
  refine safe_ite (fun _ => safe_fail) fun _ => ?_
  rw [sliceFrom_ok hpos, bind_ok]
  refine (decode_frame_capped_safe (by rw [List.length_drop]; omega) (by omega)).bind fun f hf => ?_
  rw [List.length_drop] at hf
  rw [add_ok (by omega), bind_ok]
  exact Safe.ok ⟨by simp only; omega, by simp only; omega⟩

/-! ## The buffer -/

/-- At every point of the block loop of a frame the output is within the frame's budget, and a
block adds at most the block maximum. -/
theorem block_trace_within {src : Bytes} {expect_magic : Bool} {budget : Nat}
    {dict : Option Dictionary} {max_window : Option Nat} {st : FrameStart} {p : BlockPos}
    (hstart : frame_start src expect_magic budget dict max_window = .ok (.inr st))
    (hp : BlockAt src st p) : ∀ o ∈ p.state.block_trace src p.pos,
      o.length - dictionary_len dict ≤ budget ∧
        o.length ≤ p.state.out.length + min st.header.window_size MAX_BLOCK_SIZE := by
  obtain ⟨cap, hcap, -, hstate⟩ := frame_start_ensures _ hstart st rfl
  obtain ⟨hout, hdict⟩ := start_out cap (min st.header.window_size MAX_BLOCK_SIZE) dict
  have hmax := start_max_output cap (min st.header.window_size MAX_BLOCK_SIZE) dict
  have hblock := start_block_max cap (min st.header.window_size MAX_BLOCK_SIZE) dict
  rw [← hstate] at hout hdict hmax hblock
  have hdl : st.state.dict_len ≤ st.state.out.length := by omega
  have hgrown : BlocksGrown st.state p.state := by
    induction hp with
    | start => exact .refl _
    | next _ _ hdecode ih => exact ih.block hdl hdecode
  intro o ho
  obtain ⟨-, hceil, hlen⟩ := BlockState.block_trace_grown (hgrown.dict_len_le hdl) o ho
  have hceil' := hgrown.ceiling
  rw [hgrown.same.dict_len, hgrown.same.max_output] at hceil
  rw [hgrown.same.block_max] at hlen
  exact ⟨by omega, by omega⟩

/-- The output ceiling is exact, and no buffer exceeds it. -/
theorem output_ceiling_exact (src : Bytes) (hlen : src.length < 2 ^ 63) :
    (∀ M v, M ≤ usizeMax → decompress_capped src M = .ok v → ∀ m ≤ usizeMax,
      (v.length ≤ m → decompress_capped src m = .ok v) ∧
      (m < v.length → ∃ e, decompress_capped src m = fail e)) ∧
    (∀ m v, decompress_capped src m = .ok v → v.length ≤ m) ∧
    (∀ dict m v, decompress_with_dict src dict m = .ok v → v.length ≤ m) ∧
    (∀ dict m pos budget st p,
      FrameAt (fun s m => decode_one_with_dict s true m dict) src m pos budget →
      frame_start (src.drop pos) true budget dict none = .ok (.inr st) →
      BlockAt (src.drop pos) st p → ∀ o ∈ p.state.block_trace (src.drop pos) p.pos,
        o.length - dictionary_len dict ≤ budget ∧
          o.length ≤ p.state.out.length + min st.header.window_size MAX_BLOCK_SIZE) := by
  refine ⟨fun M v hM hv m hm => ⟨fun hle => ?_, fun hlt => ?_⟩, fun m v hv => ?_,
    fun dict m v hv => ?_, fun dict m pos budget st p _ hstart hp => block_trace_within hstart hp⟩
  · exact ((decompress_capped_run hv).decode_one_ceiling hM hle).decompress_capped hlen
  · cases hx : decompress_capped src m with
    | ok w =>
      have hw := decompress_capped_run hx
      have hwlen := hw.length_le (decode_frame_decoder true none none)
      have hvlen := (decompress_capped_run hv).length_le (decode_frame_decoder true none none)
      have hagain := (hw.decode_one_ceiling hm (show w.length ≤ M by omega)).decompress_capped hlen
      rw [hv] at hagain
      have hwv := Except.ok.inj hagain
      rw [← hwv] at hwlen
      omega
    | error e =>
      cases e with
      | err e => exact ⟨e, rfl⟩
      | fault f => exact absurd hx (decompress_capped_noFault hlen hm f)
  · exact (decompress_capped_run hv).length_le (decode_frame_decoder true none none)
  · exact (decode_stream_iterate (decode_frame_decoder true (some dict) none) hv).length_le
      (decode_frame_decoder true (some dict) none)

/-- `output_ceiling_exact` on the frame of three blocks, below its size and above. -/
theorem output_ceiling_exact_three_blocks :
    decompress_capped three_blocks 14 = .ok three_blocks_content ∧
      decompress_capped three_blocks 1000 = .ok three_blocks_content ∧
      ∃ e, decompress_capped three_blocks 13 = fail e := by
  have h : decompress_capped three_blocks 14 = .ok three_blocks_content := by decide +kernel
  have hexact := (output_ceiling_exact three_blocks (by decide)).1 14 three_blocks_content
    (by decide) h
  exact ⟨h, (hexact 1000 (by decide)).1 (by decide), (hexact 13 (by decide)).2 (by decide)⟩

end ZstdPure
