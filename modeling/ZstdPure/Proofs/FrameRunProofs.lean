import ZstdPure.Proofs.DelimitedProofs
import ZstdPure.Proofs.TraceProofs

/-!
# The runs of the frame loop

`decode_frame` in its three parts, and the multi-frame loop as an inductive run that needs no fuel.
-/

namespace ZstdPure

open Outcome

/-! ## One frame -/

/-- `decode_frame` in its three parts. -/
theorem decode_frame_eq (src : Bytes) (expect_magic : Bool) (max_output : Nat)
    (dict : Option Dictionary) (max_window : Option Nat) :
    decode_frame src expect_magic max_output dict max_window =
      frame_start src expect_magic max_output dict max_window >>= fun start =>
        match start with
        | .inl consumed => .ok ⟨[], consumed, []⟩
        | .inr st => frame_rest src st := by
  rw [decode_frame, frame_start, bind_assoc]
  refine bind_congr fun front => ?_
  cases front with
  | skippable n => rfl
  | frame pos =>
    simp only [bind_assoc]
    refine bind_congr fun rest => bind_congr fun header => bind_congr fun pos' => ?_
    refine bind_congr fun _ => bind_congr fun cap => bind_congr fun _ => ?_
    rw [pure_eq_ok, bind_ok]
    dsimp only
    rw [frame_rest]
    refine bind_congr fun p => bind_congr fun data => ?_
    rw [frame_end, bind_assoc]

/-- A frame that starts has checked its header against the ceilings. -/
theorem frame_start_ensures {src : Bytes} {expect_magic : Bool} {max_output : Nat}
    {dict : Option Dictionary} {max_window : Option Nat} :
    Ensures (frame_start src expect_magic max_output dict max_window) fun start =>
      ∀ st, start = .inr st → ∃ cap ≤ max_output, st.header.content_size.all (· == cap) ∧
        st.state = BlockState.start cap (min st.header.window_size MAX_BLOCK_SIZE) dict := by
  rw [frame_start]
  refine Ensures.after fun front _ => ?_
  cases front with
  | skippable n => exact Ensures.ok fun st h => by simp at h
  | frame pos =>
    refine Ensures.after fun rest _ => Ensures.after fun header _ => Ensures.after fun pos' _ => ?_
    refine Ensures.after fun _ _ => (frame_cap_safe _ _).ensures.bind fun cap hcap => ?_
    refine Ensures.after fun _ _ => Ensures.ok fun st hst => ?_
    obtain rfl := Sum.inr.inj hst
    refine ⟨cap, hcap.1, ?_, rfl⟩
    rw [Option.all_eq_true]
    intro n hn
    rw [beq_iff_eq, hcap.2 n (by rw [hn]; rfl)]

/-- The block loop stays in the frame and within its ceiling. -/
structure BlocksGrown (s s' : BlockState) : Prop where
  same : s.SameFrame s'
  out_extends : s.out <+: s'.out
  ceiling : s'.out.length ≤ max s.out.length (s.dict_len + s.max_output)

theorem BlocksGrown.refl (s : BlockState) : BlocksGrown s s :=
  ⟨⟨rfl, rfl, rfl⟩, List.prefix_rfl, le_max_left _ _⟩

theorem BlocksGrown.dict_len_le {s s' : BlockState} (h : BlocksGrown s s')
    (hdict : s.dict_len ≤ s.out.length) : s'.dict_len ≤ s'.out.length := by
  rw [h.same.dict_len]
  exact hdict.trans h.out_extends.length_le

theorem BlocksGrown.block {src : Bytes} {s : BlockState} {p p' : BlockPos}
    (h : BlocksGrown s p.state) (hdict : s.dict_len ≤ s.out.length)
    (hdecode : decode_block src p = .ok p') : BlocksGrown s p'.state := by
  rw [decode_block] at hdecode
  obtain ⟨r, hr, hdecode⟩ := bind_eq_ok.mp hdecode
  have happ := BlockState.decode_block_at_ensures (h.dict_len_le hdict) r hr
  have hsame := h.same
  have hceil := h.ceiling
  have hceil' := happ.ceiling
  rw [hsame.dict_len, hsame.max_output] at hceil'
  rw [← Except.ok.inj hdecode]
  exact ⟨⟨happ.same.1.trans hsame.1, happ.same.2.trans hsame.2, happ.same.3.trans hsame.3⟩,
    h.out_extends.trans happ.out_extends, by simp only; omega⟩

/-- The block loop as a run without fuel. -/
abbrev BlocksIterate (src : Bytes) : BlockPos → BlockPos → Prop :=
  Iterates (fun p : BlockPos => !p.last) (decode_block src)

theorem decode_blocks_iterate {src : Bytes} {s : BlockState} {pos : Nat} {p : BlockPos}
    (h : decode_blocks src s pos = .ok p) : BlocksIterate src ⟨s, pos, false⟩ p :=
  .of_loop _ h

theorem BlocksIterate.pos_le {src : Bytes} {p q : BlockPos} (h : BlocksIterate src p q) :
    p.pos ≤ q.pos := by
  induction h with
  | stop _ => exact le_rfl
  | step _ hbody _ ih => have := decode_block_pos_lt hbody; omega

/-- A block ends inside the input. -/
theorem decode_block_pos_le {src : Bytes} {p p' : BlockPos} (h : decode_block src p = .ok p') :
    p'.pos ≤ src.length := by
  rw [decode_block] at h
  obtain ⟨r, hr, h⟩ := bind_eq_ok.mp h
  rw [← Except.ok.inj h]
  cases BlockState.decode_block_at_cases hr with
  | raw _ _ _ _ hstop => exact hstop
  | rle _ _ _ _ hbyte => obtain ⟨hlt, -⟩ := get_eq_ok.mp hbyte; simp only; omega
  | compressed _ _ _ _ hstop => exact hstop

/-- A run of blocks is what the block loop computes. -/
theorem BlocksIterate.decode_blocks {src : Bytes} {s : BlockState} {pos : Nat} {p : BlockPos}
    (h : BlocksIterate src ⟨s, pos, false⟩ p) : decode_blocks src s pos = .ok p := by
  refine Iterates.loop (fun p : BlockPos => if p.last then 0 else src.length - p.pos + 1) ?_ h _
    (by simp only [Bool.false_eq_true, if_false]; omega)
  intro q q' hc hq
  have hlt := decode_block_pos_lt hq
  have hle := decode_block_pos_le hq
  have hlast : q.last = false := by simpa using hc
  simp only [hlast, Bool.false_eq_true, if_false]
  split_ifs <;> omega

theorem BlocksIterate.grown {src : Bytes} {p q : BlockPos} (h : BlocksIterate src p q)
    (hdict : p.state.dict_len ≤ p.state.out.length) : BlocksGrown p.state q.state := by
  induction h with
  | stop _ => exact .refl _
  | @step p p' q _ hbody _ ih =>
    have h₁ := (BlocksGrown.refl p.state).block hdict hbody
    have h₂ := ih (h₁.dict_len_le hdict)
    have hceil := h₂.ceiling
    have hceil' := h₁.ceiling
    rw [h₁.same.dict_len, h₁.same.max_output] at hceil
    exact ⟨⟨h₂.same.1.trans h₁.same.1, h₂.same.2.trans h₁.same.2, h₂.same.3.trans h₁.same.3⟩,
      h₁.out_extends.trans h₂.out_extends, by omega⟩

/-- The parts of a decoded frame. -/
theorem frame_rest_ok {src : Bytes} {st : FrameStart} {f : DecodedFrame}
    (h : frame_rest src st = .ok f) : ∃ p, decode_blocks src st.state st.pos = .ok p ∧
      f.data = p.state.out.drop st.state.dict_len ∧ f.matches_ = p.state.matches_ ∧
      frame_end src st.header.content_size st.header.has_checksum f.data p.pos
        = .ok f.consumed := by
  rw [frame_rest] at h
  obtain ⟨p, hp, h⟩ := bind_eq_ok.mp h
  obtain ⟨data, hdata, h⟩ := bind_eq_ok.mp h
  obtain ⟨consumed, hend, h⟩ := bind_eq_ok.mp h
  rw [← Except.ok.inj h]
  exact ⟨p, hp, (sliceFrom_eq_ok.mp hdata).2, rfl, hend⟩

theorem frame_end_le {src data : Bytes} {declared : Option Nat} {has_checksum : Bool} {pos : Nat} :
    Ensures (frame_end src declared has_checksum data pos) fun p => pos ≤ p := by
  rw [frame_end]
  refine Ensures.after fun _ _ => ensures_ite (fun _ => ?_) fun _ => Ensures.ok le_rfl
  rw [verify_checksum]
  refine Ensures.after fun stop hstop => ensures_ite (fun _ => ensures_fail) fun _ =>
    Ensures.after fun stored _ => ensures_ite (fun _ => ensures_fail) fun _ => Ensures.ok ?_
  have := (add_eq_ok.mp hstop).2
  omega

/-- Every accepted frame consumes at least one byte. -/
theorem decode_frame_consumed_pos {src : Bytes} {expect_magic : Bool} {max_output : Nat}
    {dict : Option Dictionary} {max_window : Option Nat} :
    Ensures (decode_frame src expect_magic max_output dict max_window) fun f => 0 < f.consumed := by
  intro f h
  rw [decode_frame_eq] at h
  obtain ⟨start, hstart, h⟩ := bind_eq_ok.mp h
  cases start with
  | inl n =>
    rw [← Except.ok.inj h]
    rw [frame_start] at hstart
    obtain ⟨front, hfront, hstart⟩ := bind_eq_ok.mp hstart
    have hpos := decode_front_safe.ensures front hfront
    cases front with
    | skippable m =>
      obtain rfl := Sum.inl.inj (Except.ok.inj hstart)
      exact hpos.1
    | frame pos =>
      obtain ⟨rest, -, hstart⟩ := bind_eq_ok.mp hstart
      obtain ⟨header, -, hstart⟩ := bind_eq_ok.mp hstart
      obtain ⟨pos', -, hstart⟩ := bind_eq_ok.mp hstart
      obtain ⟨_, -, hstart⟩ := bind_eq_ok.mp hstart
      obtain ⟨cap, -, hstart⟩ := bind_eq_ok.mp hstart
      obtain ⟨_, -, hstart⟩ := bind_eq_ok.mp hstart
      exact absurd (Except.ok.inj hstart) (by simp)
  | inr st =>
    obtain ⟨p, hp, -, -, hend⟩ := frame_rest_ok h
    have hle := frame_end_le _ hend
    cases decode_blocks_iterate hp with
    | stop hc => simp at hc
    | step _ hbody hrest =>
      have h₁ := decode_block_pos_lt hbody
      have h₂ := BlocksIterate.pos_le hrest
      omega

/-- The output of a frame is within its ceiling. -/
theorem decode_frame_data_le {src : Bytes} {expect_magic : Bool} {max_output : Nat}
    {dict : Option Dictionary} {max_window : Option Nat} :
    Ensures (decode_frame src expect_magic max_output dict max_window) fun f =>
      f.data.length ≤ max_output := by
  intro f h
  rw [decode_frame_eq] at h
  obtain ⟨start, hstart, h⟩ := bind_eq_ok.mp h
  cases start with
  | inl n =>
    rw [← Except.ok.inj h]
    exact Nat.zero_le _
  | inr st =>
    obtain ⟨p, hp, hdata, -, -⟩ := frame_rest_ok h
    obtain ⟨cap, hcap, -, hstate⟩ := frame_start_ensures _ hstart st rfl
    obtain ⟨hout, hdict⟩ := start_out cap (min st.header.window_size MAX_BLOCK_SIZE) dict
    rw [← hstate] at hout hdict
    have hgrown := BlocksIterate.grown (decode_blocks_iterate hp) (by simp only; omega)
    have hceil := hgrown.ceiling
    have hmax : st.state.max_output = cap := by rw [hstate, start_max_output]
    rw [hdata, List.length_drop]
    dsimp only at hceil
    omega

/-! ## The frame loop -/

/-- What the multi-frame loop needs of the decoder of one frame. -/
structure FrameDecoder (decode : Bytes → Nat → Res DecodedFrame) : Prop where
  delimited : ∀ m, Delimited 0 DecodedFrame.consumed fun src => decode src m
  consumed_pos : ∀ src m, Ensures (decode src m) fun f => 0 < f.consumed
  data_le : ∀ src m, Ensures (decode src m) fun f => f.data.length ≤ m

theorem decode_frame_decoder (expect_magic : Bool) (dict : Option Dictionary)
    (max_window : Option Nat) :
    FrameDecoder fun src m => decode_frame src expect_magic m dict max_window where
  delimited _ := decode_frame_delimited _ _ _ _
  consumed_pos _ _ := decode_frame_consumed_pos
  data_le _ _ := decode_frame_data_le

/-- The runs of the multi-frame loop: the frames of `src`, each within what is left of the budget,
and their output. -/
inductive StreamRun (decode : Bytes → Nat → Res DecodedFrame) : Bytes → Nat → Bytes → Prop
  | nil (m : Nat) : StreamRun decode [] m []
  | frame {src : Bytes} {m : Nat} {f : DecodedFrame} {v : Bytes} (hdecode : decode src m = .ok f)
      (hrest : StreamRun decode (src.drop f.consumed) (m - f.data.length) v) :
      StreamRun decode src m (f.data ++ v)

variable {decode : Bytes → Nat → Res DecodedFrame}

/-- The body of the frame loop. -/
def decode_stream_body (decode : Bytes → Nat → Res DecodedFrame) (src : Bytes) (max_output : Nat)
    (s : Nat × Bytes) : Res (Nat × Bytes) := do
  if max_output < s.2.length then fail (.OutputTooLarge max_output)
  else
    let rest ← sliceFrom src s.1
    let frame ← decode rest (max_output - s.2.length)
    let pos ← add 64 s.1 frame.consumed
    pure (pos, s.2 ++ frame.data)

theorem decode_stream_iterate {src v : Bytes} {m : Nat} (hdec : FrameDecoder decode)
    (h : decode_stream decode src m = .ok v) : StreamRun decode src m v := by
  have hrun : ∀ {s t : Nat × Bytes},
      Iterates (fun s : Nat × Bytes => decide (s.1 < src.length)) (decode_stream_body decode src m)
        s t → s.1 ≤ src.length →
      ∃ v, t.2 = s.2 ++ v ∧ StreamRun decode (src.drop s.1) (m - s.2.length) v := by
    intro s t h
    induction h with
    | @stop s h =>
      intro hle
      have hnil : src.drop s.1 = [] := List.drop_eq_nil_of_le (by simpa using h)
      exact ⟨[], (List.append_nil _).symm, by rw [hnil]; exact .nil _⟩
    | @step s s' t hc hbody _ ih =>
      intro hle
      rw [decode_stream_body] at hbody
      obtain ⟨hm, hbody⟩ := guard_eq_ok.mp hbody
      rw [sliceFrom_ok hle, bind_ok] at hbody
      obtain ⟨f, hf, hbody⟩ := bind_eq_ok.mp hbody
      obtain ⟨pos, hpos, hbody⟩ := bind_eq_ok.mp hbody
      have hs' := Except.ok.inj hbody
      have hpos' := (add_eq_ok.mp hpos).2
      have hcons := (hdec.delimited _).le _ f (Nat.zero_le _) hf
      rw [List.length_drop] at hcons
      obtain ⟨v, hv, hv'⟩ := ih (by rw [← hs']; simp only; omega)
      rw [← hs'] at hv hv'
      dsimp only at hv hv'
      refine ⟨f.data ++ v, by rw [hv, List.append_assoc], .frame hf ?_⟩
      rw [List.drop_drop, ← hpos']
      rw [List.length_append, ← Nat.sub_sub] at hv'
      exact hv'
  rw [decode_stream] at h
  obtain ⟨t, ht, h⟩ := bind_eq_ok.mp h
  obtain ⟨w, hw, hw'⟩ := hrun (Iterates.of_loop _ ht) (Nat.zero_le _)
  rw [← Except.ok.inj h]
  rw [List.nil_append] at hw
  rw [hw]
  exact hw'

/-- A run within the budget is what the frame loop computes. -/
theorem StreamRun.decode_stream {src v : Bytes} {m : Nat} (hdec : FrameDecoder decode)
    (h : StreamRun decode src m v) (hlen : src.length < 2 ^ 63) :
    decode_stream decode src m = .ok v := by
  have hrun : ∀ {rest v : Bytes} {k : Nat}, StreamRun decode rest k v → ∀ s : Nat × Bytes,
      s.1 ≤ src.length → src.drop s.1 = rest → s.2.length ≤ m → k = m - s.2.length →
      ∃ t, t.2 = s.2 ++ v ∧ Iterates (fun s : Nat × Bytes => decide (s.1 < src.length))
        (decode_stream_body decode src m) s t := by
    intro rest v k h
    induction h with
    | nil k =>
      intro s hle hrest _ _
      refine ⟨s, (List.append_nil _).symm, .stop ?_⟩
      have := List.drop_eq_nil_iff.mp hrest
      simp only [decide_eq_false_iff_not]
      omega
    | @frame rest k f v hf _ ih =>
      intro s hle hrest hm hk
      have hcons := (hdec.delimited _).le _ f (Nat.zero_le _) hf
      have hpos := hdec.consumed_pos _ _ f hf
      have hdata := hdec.data_le _ _ f hf
      rw [← hrest, List.length_drop] at hcons
      obtain ⟨t, ht, hiter⟩ := ih (s.1 + f.consumed, s.2 ++ f.data) (by simp only; omega)
        (by rw [← hrest, List.drop_drop]) (by simp only [List.length_append]; omega)
        (by simp only [List.length_append]; omega)
      refine ⟨t, by rw [ht, List.append_assoc], .step (by simp only [decide_eq_true_eq]; omega) ?_
        hiter⟩
      rw [decode_stream_body, if_neg (by omega), sliceFrom_ok hle, bind_ok, hrest, ← hk, hf,
        bind_ok,
        add_ok (by omega)]
      rfl
  obtain ⟨t, ht, hiter⟩ := hrun h (0, []) (Nat.zero_le _) rfl (Nat.zero_le _) rfl
  have hloop := Iterates.loop (fun s : Nat × Bytes => src.length - s.1) (fun s s' hc hbody => ?_)
    hiter (src.length + 1) (by simp only; omega)
  · rw [ZstdPure.decode_stream]
    refine bind_eq_ok.mpr ⟨t, hloop, ?_⟩
    obtain ⟨pos, out⟩ := t
    dsimp only at ht
    rw [ht]
    rfl
  · have hlt : s.1 < src.length := by simpa using hc
    rw [decode_stream_body] at hbody
    obtain ⟨hm, hbody⟩ := guard_eq_ok.mp hbody
    obtain ⟨rest, -, hbody⟩ := bind_eq_ok.mp hbody
    obtain ⟨f, hf, hbody⟩ := bind_eq_ok.mp hbody
    obtain ⟨pos, hpos, hbody⟩ := bind_eq_ok.mp hbody
    have hpos' := (add_eq_ok.mp hpos).2
    have hcons := hdec.consumed_pos _ _ f hf
    rw [← Except.ok.inj hbody]
    simp only
    omega

/-- The output of a run is within its budget. -/
theorem StreamRun.length_le {src v : Bytes} {m : Nat} (hdec : FrameDecoder decode)
    (h : StreamRun decode src m v) : v.length ≤ m := by
  induction h with
  | nil m => exact Nat.zero_le _
  | @frame src m f v hf _ ih =>
    have := hdec.data_le _ _ f hf
    rw [List.length_append]
    omega

/-- A run under another budget that its output fits. -/
theorem StreamRun.ceiling {src v : Bytes} {m : Nat}
    (hceil : ∀ {src : Bytes} {m m' : Nat} {f : DecodedFrame}, decode src m = .ok f →
      f.data.length ≤ m' → m ≤ usizeMax →
      ∃ f', decode src m' = .ok f' ∧ f'.data = f.data ∧ f'.consumed = f.consumed)
    (h : StreamRun decode src m v) (hm : m ≤ usizeMax) :
    ∀ m', v.length ≤ m' → StreamRun decode src m' v := by
  induction h with
  | nil m => intro m' _; exact .nil _
  | @frame src m f v hf _ ih =>
    intro m' hle
    rw [List.length_append] at hle
    obtain ⟨f', hf', hdata, hcons⟩ := hceil hf (show f.data.length ≤ m' by omega) hm
    have hrest := ih (by omega) (m' - f.data.length) (by omega)
    rw [← hdata]
    rw [← hdata, ← hcons] at hrest
    exact .frame hf' hrest

/-- The run of two inputs in a row. -/
theorem StreamRun.append {a b x y : Bytes} {m : Nat} (hdec : FrameDecoder decode)
    (ha : StreamRun decode a m x) (hb : StreamRun decode b (m - x.length) y) :
    StreamRun decode (a ++ b) m (x ++ y) := by
  induction ha with
  | nil m => simpa using hb
  | @frame src m f v hf _ ih =>
    have hcons := (hdec.delimited _).le _ f (Nat.zero_le _) hf
    rw [List.append_assoc]
    refine .frame ((hdec.delimited _).extend _ _ f (List.prefix_append _ _) (Nat.zero_le _) hf) ?_
    rw [List.drop_append_of_le_length hcons]
    exact ih (by rwa [List.length_append, ← Nat.sub_sub] at hb)

/-- A run cut at a position of the frame loop. -/
theorem FrameAt.split {src v : Bytes} {m pos budget : Nat} (hdec : FrameDecoder decode)
    (h : FrameAt decode src m pos budget) (hrun : StreamRun decode src m v) :
    ∃ x y, v = x ++ y ∧ pos ≤ src.length ∧ budget = m - x.length ∧
      StreamRun decode (src.take pos) m x ∧ StreamRun decode (src.drop pos) budget y := by
  induction h with
  | start => exact ⟨[], v, rfl, Nat.zero_le _, rfl, .nil _, hrun⟩
  | @next pos budget f _ hf ih =>
    obtain ⟨x, y, hv, hpos, hbudget, hx, hy⟩ := ih
    have hcons := (hdec.delimited _).le _ f (Nat.zero_le _) hf
    rw [List.length_drop] at hcons
    have hone : StreamRun decode ((src.drop pos).take f.consumed) budget f.data := by
      have hcut := (hdec.delimited budget).cut _ _ f (List.take_prefix f.consumed _)
        (Nat.zero_le _) hf (by rw [List.length_take, List.length_drop]; omega)
      have hnil : ((src.drop pos).take f.consumed).drop f.consumed = [] :=
        List.drop_eq_nil_of_le (by rw [List.length_take]; omega)
      rw [← List.append_nil f.data]
      exact .frame hcut (by rw [hnil]; exact .nil _)
    generalize hrest : src.drop pos = rest at hf hy hone
    cases hy with
    | nil =>
      have h0 := hdec.consumed_pos _ _ f hf
      have := List.drop_eq_nil_iff.mp hrest
      omega
    | @frame _ _ f' y hf' hy =>
      obtain rfl := Except.ok.inj (hf.symm.trans hf')
      refine ⟨x ++ f.data, y, by rw [hv, List.append_assoc], by omega, ?_, ?_, ?_⟩
      · rw [List.length_append, hbudget, Nat.sub_sub]
      · rw [List.take_add, hrest]
        exact hx.append hdec (hbudget ▸ hone)
      · rw [← List.drop_drop, hrest]
        exact hy

end ZstdPure
