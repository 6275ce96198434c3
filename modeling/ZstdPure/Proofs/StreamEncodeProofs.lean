import ZstdPure.Encode.Stream
import ZstdPure.Proofs.XxHashProofs

/-!
# The streamed frame does not depend on the chunks of the input

Emitting a block and then reading more input is reading the input and then emitting the block. So
the encoder is at any time where it would be with all its input read at once, up to the output that
was drained. -/

namespace ZstdPure.Encode.StreamingEncoder

open Outcome XxHash

/-- More input waits. -/
def feed (s : StreamingEncoder) (e : Bytes) : StreamingEncoder := { s with input := s.input ++ e }

/-- Another output and another hash. -/
def with_sink (s : StreamingEncoder) (out : Bytes) (hasher : Xxh64) : StreamingEncoder :=
  { s with out, hasher }

/-- The positions of the encoder are in order. -/
structure Ordered (s : StreamingEncoder) : Prop where
  dropped : s.dropped ≤ s.emitted
  emitted : s.emitted ≤ s.total

/-- Sliding keeps the position in the stream, looks neither at the output nor at the hash, and not
past what was emitted. -/
structure Slides (slide : StreamingEncoder → StreamingEncoder) : Prop where
  emitted : ∀ s, (slide s).emitted = s.emitted
  dropped : ∀ s, s.Ordered → (slide s).dropped ≤ s.emitted
  total : ∀ s, s.Ordered → (slide s).total = s.total
  sink : ∀ s out hasher, slide (s.with_sink out hasher) = (slide s).with_sink out hasher
  out : ∀ s, (slide s).out = s.out
  checksum : ∀ s, (slide s).checksum = s.checksum
  feed : ∀ s e, s.Ordered → slide (s.feed e) = (slide s).feed e

theorem Slides.ordered {slide : StreamingEncoder → StreamingEncoder} (h : Slides slide)
    {s : StreamingEncoder} (hs : s.Ordered) : (slide s).Ordered :=
  ⟨by rw [h.emitted]; exact h.dropped s hs, by rw [h.emitted, h.total s hs]; exact hs.emitted⟩

/-! ## `maybe_slide` -/

theorem slide_drop_le (s : StreamingEncoder) : s.slide_drop ≤ s.emitted - s.dropped := by
  unfold slide_drop
  dsimp only
  split_ifs
  · omega
  · omega

theorem maybe_slide_slides : Slides maybe_slide := by
  have hle := slide_drop_le
  refine ⟨?_, ?_, ?_, ?_, ?_, ?_, ?_⟩
  · intro s
    unfold maybe_slide
    dsimp only
    split_ifs <;> rfl
  · intro s hs
    have hd := hle s
    have h1 := hs.dropped
    unfold maybe_slide
    dsimp only
    split_ifs
    · exact h1
    · show s.dropped + s.slide_drop ≤ s.emitted
      omega
  · intro s hs
    have hd := hle s
    have h1 := hs.dropped
    have h2 := hs.emitted
    unfold maybe_slide total
    unfold total at h2
    dsimp only
    split_ifs
    · rfl
    · show s.dropped + s.slide_drop + (s.input.drop s.slide_drop).length = _
      rw [List.length_drop]
      omega
  · intro s out hasher
    have hdrop : (s.with_sink out hasher).slide_drop = s.slide_drop := rfl
    unfold maybe_slide
    dsimp only
    rw [hdrop]
    split_ifs <;> rfl
  · intro s
    unfold maybe_slide
    dsimp only
    split_ifs <;> rfl
  · intro s
    unfold maybe_slide
    dsimp only
    split_ifs <;> rfl
  · intro s e hs
    have hd := hle s
    have h2 := hs.emitted
    have hdrop : (s.feed e).slide_drop = s.slide_drop := rfl
    unfold maybe_slide
    unfold total at h2
    dsimp only
    rw [hdrop]
    split_ifs with h0
    · rfl
    · have hcut : (s.input ++ e).drop s.slide_drop = s.input.drop s.slide_drop ++ e :=
        List.drop_append_of_le_length (by omega)
      simp only [feed, hcut]

/-! ## One block -/

/-- The block that `emit_block` writes, with the session after it. -/
def next_block (s : StreamingEncoder) (stop : Nat) (last : Bool) : Bytes × Session :=
  encode_block s.env last (s.input.take (stop - s.dropped)) (s.emitted - s.dropped)
    (stop - s.dropped) s.session

theorem emit_block_eq (s : StreamingEncoder) (stop : Nat) (last : Bool) :
    s.emit_block stop last = { s with
      session := (s.next_block stop last).2
      out := s.out ++ (s.next_block stop last).1
      emitted := stop } := rfl

theorem next_block_feed {s : StreamingEncoder} {stop : Nat} (h : stop ≤ s.total) (last : Bool)
    (e : Bytes) : (s.feed e).next_block stop last = s.next_block stop last := by
  unfold total at h
  have hcut : (s.input ++ e).take (stop - s.dropped) = s.input.take (stop - s.dropped) :=
    List.take_append_of_le_length (by omega)
  simp only [next_block, feed, hcut]

/-- One iteration of `drain_full_blocks`. -/
def drain_step (slide : StreamingEncoder → StreamingEncoder) (s : StreamingEncoder) :
    StreamingEncoder :=
  slide (s.emit_block (s.emitted + BLOCK_SIZE_MAX) false)

section

variable {slide : StreamingEncoder → StreamingEncoder} (h : Slides slide) {s : StreamingEncoder}

theorem emit_block_ordered (hs : s.Ordered) (hfull : s.emitted + BLOCK_SIZE_MAX ≤ s.total) :
    (s.emit_block (s.emitted + BLOCK_SIZE_MAX) false).Ordered :=
  ⟨Nat.le_add_right_of_le hs.dropped, hfull⟩

include h

theorem drain_step_ordered (hs : s.Ordered) (hfull : s.emitted + BLOCK_SIZE_MAX ≤ s.total) :
    (drain_step slide s).Ordered := h.ordered (emit_block_ordered hs hfull)

theorem drain_step_emitted : (drain_step slide s).emitted = s.emitted + BLOCK_SIZE_MAX :=
  h.emitted _

theorem drain_step_total (hs : s.Ordered) (hfull : s.emitted + BLOCK_SIZE_MAX ≤ s.total) :
    (drain_step slide s).total = s.total :=
  (h.total _ (emit_block_ordered hs hfull)).trans rfl

theorem drain_step_out :
    (drain_step slide s).out = s.out ++ (s.next_block (s.emitted + BLOCK_SIZE_MAX) false).1 :=
  h.out _

theorem drain_step_feed (hs : s.Ordered) (hfull : s.emitted + BLOCK_SIZE_MAX ≤ s.total)
    (e : Bytes) : drain_step slide (s.feed e) = (drain_step slide s).feed e := by
  have hblock := next_block_feed hfull false e
  have hemit : (s.feed e).emit_block (s.emitted + BLOCK_SIZE_MAX) false
      = (s.emit_block (s.emitted + BLOCK_SIZE_MAX) false).feed e := by
    rw [emit_block_eq, hblock, emit_block_eq]
    rfl
  unfold drain_step
  rw [show (s.feed e).emitted = s.emitted from rfl, hemit]
  exact h.feed _ e (emit_block_ordered hs hfull)

omit h in
theorem emit_block_sink (stop : Nat) (last : Bool) (out : Bytes) (hasher : Xxh64) :
    (s.with_sink out hasher).emit_block stop last
      = (s.emit_block stop last).with_sink (out ++ (s.next_block stop last).1) hasher := by
  have hblock : (s.with_sink out hasher).next_block stop last = s.next_block stop last := rfl
  rw [emit_block_eq, emit_block_eq, hblock]
  rfl

theorem drain_step_sink (out : Bytes) (hasher : Xxh64) :
    drain_step slide (s.with_sink out hasher) = (drain_step slide s).with_sink
      (out ++ (s.next_block (s.emitted + BLOCK_SIZE_MAX) false).1) hasher := by
  unfold drain_step
  rw [← h.sink, ← emit_block_sink]
  rfl

end

/-! ## All the input at once -/

/-- The encoder after the first `k` blocks of `data`, all of which waits in it. -/
def after (slide : StreamingEncoder → StreamingEncoder) (s₀ : StreamingEncoder) (data : Bytes)
    (k : Nat) : StreamingEncoder :=
  (drain_step slide)^[k] (s₀.feed data)

section

variable {slide : StreamingEncoder → StreamingEncoder} (h : Slides slide) {s₀ : StreamingEncoder}

/-- An encoder that has read nothing yet. -/
structure Fresh (s : StreamingEncoder) : Prop where
  input : s.input = []
  dropped : s.dropped = 0
  emitted : s.emitted = 0

theorem after_succ (data : Bytes) (k : Nat) :
    after slide s₀ data (k + 1) = drain_step slide (after slide s₀ data k) :=
  Function.iterate_succ_apply' ..

include h

/-- Where the encoder is after `k` blocks. -/
theorem after_spec (h₀ : Fresh s₀) (data : Bytes) :
    ∀ k, k * BLOCK_SIZE_MAX ≤ data.length →
      (after slide s₀ data k).Ordered ∧ (after slide s₀ data k).emitted = k * BLOCK_SIZE_MAX ∧
        (after slide s₀ data k).total = data.length := by
  intro k
  induction k with
  | zero =>
    intro _
    have htotal : (s₀.feed data).total = data.length := by
      unfold total feed
      rw [h₀.dropped, h₀.input, List.nil_append, Nat.zero_add]
    refine ⟨⟨?_, ?_⟩, ?_, htotal⟩
    · exact Nat.le_of_eq (h₀.dropped.trans h₀.emitted.symm)
    · exact h₀.emitted.trans_le (Nat.zero_le _)
    · exact h₀.emitted.trans (Nat.zero_mul _).symm
  | succ k ih =>
    intro hk
    rw [Nat.succ_mul] at hk
    obtain ⟨hord, hemit, htotal⟩ := ih (by omega)
    have hfull : (after slide s₀ data k).emitted + BLOCK_SIZE_MAX ≤
      (after slide s₀ data k).total := by
      rw [hemit, htotal]
      exact hk
    rw [after_succ, Nat.succ_mul]
    exact ⟨drain_step_ordered h hord hfull, by rw [drain_step_emitted h, hemit],
      (drain_step_total h hord hfull).trans htotal⟩

theorem after_checksum (data : Bytes) :
    ∀ k, (after slide s₀ data k).checksum = s₀.checksum := by
  intro k
  induction k with
  | zero => rfl
  | succ k ih =>
    rw [after_succ]
    exact (h.checksum _).trans ih

/-- More input does not change the blocks that were complete without it. -/
theorem after_append (h₀ : Fresh s₀) (data e : Bytes) :
    ∀ k, k * BLOCK_SIZE_MAX ≤ data.length →
      after slide s₀ (data ++ e) k = (after slide s₀ data k).feed e := by
  intro k
  induction k with
  | zero =>
    intro _
    show s₀.feed (data ++ e) = (s₀.feed data).feed e
    unfold feed
    rw [List.append_assoc]
  | succ k ih =>
    intro hk
    rw [Nat.succ_mul] at hk
    obtain ⟨hord, hemit, htotal⟩ := after_spec h h₀ data k (by omega)
    rw [after_succ, after_succ, ih (by omega)]
    exact drain_step_feed h hord (by rw [hemit, htotal]; exact hk) e

end

/-! ## Every run -/

/-- `s` has emitted `k` blocks of the input `data`, and the bytes `drained` were taken from it. -/
structure Emitted (slide : StreamingEncoder → StreamingEncoder) (s₀ : StreamingEncoder)
    (data drained : Bytes) (k : Nat) (s : StreamingEncoder) : Prop where
  state : s = (after slide s₀ data k).with_sink s.out s.hasher
  out : drained ++ s.out = (after slide s₀ data k).out
  complete : k = 0 ∨ k * BLOCK_SIZE_MAX < data.length

/-- `s` has read `data`, and holds back at most one block of it. -/
structure Pushed (slide : StreamingEncoder → StreamingEncoder) (s₀ : StreamingEncoder)
    (data drained : Bytes) (s : StreamingEncoder) : Prop where
  emitted : ∃ k, Emitted slide s₀ data drained k s ∧ data.length ≤ (k + 1) * BLOCK_SIZE_MAX
  hasher : s.hasher.Holds 0 data

/-- What a call takes of the output. -/
def Call.taken (out : Bytes) : Call → Bytes
  | .push _ => []
  | .take_output => out

section

variable {slide : StreamingEncoder → StreamingEncoder} {s₀ s : StreamingEncoder}
  {data drained : Bytes} {k : Nat}

theorem Emitted.complete_le (hs : Emitted slide s₀ data drained k s) :
    k * BLOCK_SIZE_MAX ≤ data.length := by
  rcases hs.complete with rfl | hlt
  · rw [Nat.zero_mul]
    exact Nat.zero_le _
  · exact hlt.le

/-- The number of blocks before the last one. -/
def full_blocks (data : Bytes) : Nat := (data.length - 1) / BLOCK_SIZE_MAX

/-- How many blocks were emitted is determined by the input. -/
theorem Emitted.eq_full_blocks (hs : Emitted slide s₀ data drained k s)
    (hheld : data.length ≤ (k + 1) * BLOCK_SIZE_MAX) : k = full_blocks data := by
  have hpos : 0 < BLOCK_SIZE_MAX := by decide
  rw [full_blocks]
  symm
  rw [Nat.succ_mul] at hheld
  apply Nat.div_eq_of_lt_le
  · rcases hs.complete with rfl | hlt
    · rw [Nat.zero_mul]
      exact Nat.zero_le _
    · omega
  · rw [Nat.succ_mul]
    omega

theorem full_blocks_le (data : Bytes) : full_blocks data * BLOCK_SIZE_MAX ≤ data.length :=
  (Nat.div_mul_le_self _ _).trans (Nat.sub_le _ _)

/-- At most one block is left after the full ones. -/
theorem rest_le (data : Bytes) :
    data.length - full_blocks data * BLOCK_SIZE_MAX ≤ BLOCK_SIZE_MAX := by
  have hmax : BLOCK_SIZE_MAX = 131072 := rfl
  rw [full_blocks, hmax]
  omega

theorem Pushed.state_eq (hs : Pushed slide s₀ data drained s) :
    s = (after slide s₀ data (full_blocks data)).with_sink s.out s.hasher := by
  obtain ⟨⟨k, hk, hheld⟩, -⟩ := hs
  rw [← hk.eq_full_blocks hheld]
  exact hk.state

/-- The output so far is that of the full blocks of the input. -/
theorem Pushed.out_eq (hs : Pushed slide s₀ data drained s) :
    drained ++ s.out = (after slide s₀ data (full_blocks data)).out := by
  obtain ⟨⟨k, hk, hheld⟩, -⟩ := hs
  rw [← hk.eq_full_blocks hheld]
  exact hk.out

/-- The whole output before the checksum. -/
def stream_blocks (slide : StreamingEncoder → StreamingEncoder) (s₀ : StreamingEncoder)
    (data : Bytes) : Bytes :=
  let t := after slide s₀ data (full_blocks data)
  t.out ++ if data = [] then write_raw_block true [] else (t.next_block data.length true).1

variable (h : Slides slide) (h₀ : Fresh s₀)

include h h₀

theorem Emitted.spec (hs : Emitted slide s₀ data drained k s) :
    s.emitted = k * BLOCK_SIZE_MAX ∧ s.total = data.length := by
  obtain ⟨-, hemit, htotal⟩ := after_spec h h₀ data k hs.complete_le
  rw [hs.state]
  exact ⟨hemit, htotal⟩

omit h₀ in
theorem Emitted.checksum_eq (hs : Emitted slide s₀ data drained k s) :
    s.checksum = s₀.checksum := by
  rw [hs.state]
  exact after_checksum h data k

/-- One more block. -/
theorem Emitted.drain_step (hs : Emitted slide s₀ data drained k s)
    (hfull : BLOCK_SIZE_MAX < s.total - s.emitted) :
    Emitted slide s₀ data drained (k + 1) (drain_step slide s) ∧
      (StreamingEncoder.drain_step slide s).hasher = s.hasher := by
  obtain ⟨hemit, htotal⟩ := hs.spec h h₀
  have hstep := congrArg (StreamingEncoder.drain_step slide) hs.state
  rw [drain_step_sink h] at hstep
  refine ⟨⟨?_, ?_, ?_⟩, ?_⟩
  · rw [after_succ, hstep]
    rfl
  · rw [hstep, after_succ, drain_step_out h, ← hs.out]
    exact (List.append_assoc ..).symm
  · right
    rw [Nat.succ_mul]
    omega
  · rw [hstep]
    rfl

/-- `drain_full_blocks` emits all the blocks that are followed by more input. -/
theorem Emitted.drain (hs : Emitted slide s₀ data drained k s) :
    (∃ k', Emitted slide s₀ data drained k' (drain_full_blocks slide s) ∧
      data.length ≤ (k' + 1) * BLOCK_SIZE_MAX) ∧
      (drain_full_blocks slide s).hasher = s.hasher := by
  have hpos : 0 < BLOCK_SIZE_MAX := by decide
  obtain ⟨⟨⟨k', hk'⟩, hhash⟩, hstop⟩ := @While.iterate_spec _
    (fun s : StreamingEncoder => decide (BLOCK_SIZE_MAX < s.total - s.emitted))
    (StreamingEncoder.drain_step slide)
    (fun s' => (∃ k', Emitted slide s₀ data drained k' s') ∧ s'.hasher = s.hasher)
    (fun s' => s'.total - s'.emitted)
    (by
      rintro s' ⟨⟨j, hj⟩, hhash⟩ hc
      have hfull := of_decide_eq_true hc
      obtain ⟨hnext, hsame⟩ := hj.drain_step h h₀ hfull
      obtain ⟨hemit, htotal⟩ := hj.spec h h₀
      obtain ⟨hemit', htotal'⟩ := hnext.spec h h₀
      refine ⟨⟨⟨_, hnext⟩, hsame.trans hhash⟩, ?_⟩
      rw [Nat.succ_mul] at hemit'
      omega)
    (s.total - s.emitted) s ⟨⟨k, hs⟩, rfl⟩ le_rfl
  refine ⟨⟨k', hk', ?_⟩, hhash⟩
  obtain ⟨hemit, htotal⟩ := hk'.spec h h₀
  have hle := of_decide_eq_false hstop
  rw [Nat.succ_mul]
  omega

/-- More input waits. -/
theorem Emitted.feed (hs : Emitted slide s₀ data drained k s) (e : Bytes) :
    Emitted slide s₀ (data ++ e) drained k (s.feed e) := by
  have happ := after_append h h₀ data e k hs.complete_le
  refine ⟨?_, ?_, ?_⟩
  · rw [happ]
    exact congrArg (StreamingEncoder.feed · e) hs.state
  · rw [happ]
    exact hs.out
  · rw [List.length_append]
    exact hs.complete.imp id (Nat.lt_add_right _)

/-- The steps of `push`. -/
theorem Emitted.push_parts : ∀ (parts : List Bytes) {data : Bytes} {k : Nat} {s : StreamingEncoder},
    Emitted slide s₀ data drained k s → data.length ≤ (k + 1) * BLOCK_SIZE_MAX →
    (∃ k', Emitted slide s₀ (data ++ parts.flatten) drained k' (parts.foldl (push_part slide) s) ∧
      (data ++ parts.flatten).length ≤ (k' + 1) * BLOCK_SIZE_MAX) ∧
      (parts.foldl (push_part slide) s).hasher = s.hasher := by
  intro parts
  induction parts with
  | nil =>
    intro data k s hs hheld
    rw [List.flatten_nil, List.append_nil]
    exact ⟨⟨k, hs, hheld⟩, rfl⟩
  | cons part parts ih =>
    intro data k s hs hheld
    obtain ⟨⟨j, hj, hheld'⟩, hhash⟩ := (hs.feed h h₀ part).drain h h₀
    obtain ⟨hrest, hhash'⟩ := ih hj hheld'
    rw [List.flatten_cons, ← List.append_assoc, List.foldl_cons]
    exact ⟨hrest, hhash'.trans hhash⟩

/-- `push` reads its input. -/
theorem Pushed.push (hs : Pushed slide s₀ data drained s) (input : Bytes)
    (hlen : input.length < 2 ^ 63) :
    ∃ s', push slide s input = .ok s' ∧ Pushed slide s₀ (data ++ input) drained s' := by
  obtain ⟨⟨k, hk, hheld⟩, hhash⟩ := hs
  obtain ⟨hasher, hupdate, hholds⟩ := Xxh64.update_spec hhash input hlen
  have hstate := congrArg (StreamingEncoder.with_sink · s.out hasher) hk.state
  have hk' : Emitted slide s₀ data drained k { s with hasher } := ⟨hstate, hk.out, hk.complete⟩
  obtain ⟨hparts, hsame⟩ := hk'.push_parts h h₀ (input.chunks BLOCK_SIZE_MAX) hheld
  rw [List.flatten_chunks (by decide)] at hparts
  refine ⟨_, ?_, hparts, ?_⟩
  · unfold StreamingEncoder.push
    rw [hupdate]
    rfl
  · rw [hsame]
    exact hholds

/-- The last block. -/
theorem Pushed.emit_last (hs : Pushed slide s₀ data drained s) :
    drained ++ (emit_last slide s).out = stream_blocks slide s₀ data ∧
      (StreamingEncoder.emit_last slide s).hasher = s.hasher ∧
      (StreamingEncoder.emit_last slide s).checksum = s₀.checksum := by
  obtain ⟨⟨k, hk, hheld⟩, -⟩ := hs
  have htotal := (hk.spec h h₀).2
  unfold StreamingEncoder.emit_last stream_blocks
  dsimp only
  rw [htotal]
  by_cases hnil : data = []
  · rw [if_pos (by rw [hnil]; rfl), if_pos hnil, ← hk.eq_full_blocks hheld, ← hk.out]
    have hcheck : s.checksum = s₀.checksum := hk.checksum_eq h
    exact ⟨(List.append_assoc ..).symm, rfl, hcheck⟩
  · rw [if_neg (fun hc => hnil (List.eq_nil_of_length_eq_zero hc)), if_neg hnil]
    obtain ⟨⟨k', hk', hheld'⟩, hhash⟩ := hk.drain h h₀
    have htotal' := (hk'.spec h h₀).2
    have hcheck : (drain_full_blocks slide s).checksum = s₀.checksum := hk'.checksum_eq h
    refine ⟨?_, hhash, hcheck⟩
    rw [emit_block_eq, htotal', ← hk'.eq_full_blocks hheld', ← hk'.out]
    have hnext : (drain_full_blocks slide s).next_block data.length true
        = (after slide s₀ data k').next_block data.length true := by
      rw [hk'.state]
      rfl
    rw [hnext]
    exact (List.append_assoc ..).symm

/-- One call: what it pushes is read, and what it takes is drained. -/
theorem Pushed.call {r : Run} (hr : Pushed slide s₀ data r.drained r.encoder) (c : Call)
    (hlen : c.pushed.length < 2 ^ 63) :
    ∃ r', Run.call slide r c = .ok r' ∧ Pushed slide s₀ (data ++ c.pushed) r'.drained r'.encoder ∧
      r'.drained = r.drained ++ c.taken r.encoder.out := by
  cases c with
  | push input =>
    obtain ⟨s', hpush, hs'⟩ := hr.push h h₀ input hlen
    refine ⟨⟨s', r.drained⟩, ?_, hs', (List.append_nil _).symm⟩
    rw [Run.call, hpush]
    rfl
  | take_output =>
    refine ⟨_, rfl, ?_, rfl⟩
    obtain ⟨⟨k, hk, hheld⟩, hhash⟩ := hr
    show Pushed slide s₀ (data ++ []) _ _
    rw [List.append_nil]
    have hstate := congrArg (StreamingEncoder.with_sink · [] r.encoder.hasher) hk.state
    refine ⟨⟨k, ⟨hstate, ?_, hk.complete⟩, hheld⟩, hhash⟩
    exact (List.append_nil _).trans hk.out

/-- Two encoders whose full blocks are the same give the same output to every call. -/
theorem calls_agree {slide' : StreamingEncoder → StreamingEncoder} {s₀' : StreamingEncoder}
    (h' : Slides slide') (h₀' : Fresh s₀')
    (hsame : ∀ data, (after slide s₀ data (full_blocks data)).out =
      (after slide' s₀' data (full_blocks data)).out)
    (calls : List Call) (hlen : ∀ c ∈ calls, c.pushed.length < 2 ^ 63) :
    ∀ {data : Bytes} {r r' : Run}, Pushed slide s₀ data r.drained r.encoder →
      Pushed slide' s₀' data r'.drained r'.encoder → r.drained = r'.drained →
      ∃ t t', calls.foldlM (Run.call slide) r = .ok t ∧ calls.foldlM (Run.call slide') r' = .ok t' ∧
        Pushed slide s₀ (data ++ (calls.map Call.pushed).flatten) t.drained t.encoder ∧
        Pushed slide' s₀' (data ++ (calls.map Call.pushed).flatten) t'.drained t'.encoder ∧
        t.drained = t'.drained ∧ t.encoder.out = t'.encoder.out := by
  have hout : ∀ {data : Bytes} {r r' : Run}, Pushed slide s₀ data r.drained r.encoder →
      Pushed slide' s₀' data r'.drained r'.encoder → r.drained = r'.drained →
      r.encoder.out = r'.encoder.out := by
    intro data r r' hr hr' hdrained
    have hall := hr.out_eq.trans ((hsame data).trans hr'.out_eq.symm)
    rw [hdrained] at hall
    exact List.append_cancel_left hall
  induction calls with
  | nil =>
    intro data r r' hr hr' hdrained
    refine ⟨r, r', rfl, rfl, ?_⟩
    rw [List.map_nil, List.flatten_nil, List.append_nil]
    exact ⟨hr, hr', hdrained, hout hr hr' hdrained⟩
  | cons c calls ih =>
    intro data r r' hr hr' hdrained
    have hc := hlen c List.mem_cons_self
    obtain ⟨r₁, hcall, hr₁, hdrained₁⟩ := hr.call h h₀ c hc
    obtain ⟨r₁', hcall', hr₁', hdrained₁'⟩ := hr'.call h' h₀' c hc
    obtain ⟨t, t', ht, ht', hpushed⟩ := ih (fun c hc => hlen c (List.mem_cons_of_mem _ hc)) hr₁ hr₁'
      (by rw [hdrained₁, hdrained₁', hdrained, hout hr hr' hdrained])
    refine ⟨t, t', ?_, ?_, ?_⟩
    · rw [List.foldlM_cons, hcall, bind_ok]
      exact ht
    · rw [List.foldlM_cons, hcall', bind_ok]
      exact ht'
    · rw [List.map_cons, List.flatten_cons, ← List.append_assoc]
      exact hpushed

/-- Every call on a run: the input read so far is the input that was pushed. -/
theorem calls_spec (calls : List Call) (hlen : ∀ c ∈ calls, c.pushed.length < 2 ^ 63)
    {r : Run} (hr : Pushed slide s₀ data r.drained r.encoder) :
    ∃ r', calls.foldlM (Run.call slide) r = .ok r' ∧
      Pushed slide s₀ (data ++ (calls.map Call.pushed).flatten) r'.drained r'.encoder := by
  obtain ⟨t, -, ht, -, hpushed, -⟩ := calls_agree h h₀ h h₀ (fun _ => rfl) calls hlen hr hr rfl
  exact ⟨t, ht, hpushed⟩

omit h h₀ in
theorem pushed_nil (hhash : s₀.hasher.Holds 0 []) : Pushed slide s₀ [] [] s₀ := by
  refine ⟨⟨0, ⟨?_, rfl, Or.inl rfl⟩, Nat.zero_le _⟩, hhash⟩
  show s₀ = { s₀ with input := s₀.input ++ [] }
  rw [List.append_nil]

/-- The output of a run, `digest` being the one of the input. -/
theorem run_eq (hhash : s₀.hasher.Holds 0 []) (calls : List Call)
    (hlen : ∀ c ∈ calls, c.pushed.length < 2 ^ 63) :
    ∃ hasher : Xxh64, hasher.Holds 0 (calls.map Call.pushed).flatten ∧
      run slide s₀ calls = (do
        if s₀.checksum then
          let digest ← hasher.digest
          pure (stream_blocks slide s₀ (calls.map Call.pushed).flatten ++
            leBytes 4 (digest.toNat % 2 ^ 32))
        else pure (stream_blocks slide s₀ (calls.map Call.pushed).flatten)) := by
  have hstart : Pushed slide s₀ [] [] s₀ := pushed_nil hhash
  obtain ⟨r, hcalls, hr⟩ := @calls_spec slide s₀ [] h h₀ calls hlen ⟨s₀, []⟩ hstart
  obtain ⟨hblocks, hsame, hcheck⟩ := hr.emit_last h h₀
  rw [List.nil_append] at hblocks hr
  refine ⟨_, hr.hasher, ?_⟩
  rw [run, hcalls, bind_ok, finish, hcheck, hsame]
  by_cases hc : s₀.checksum = true
  · rw [if_pos hc, if_pos hc, bind_assoc]
    congr 1
    funext digest
    rw [← hblocks, List.append_assoc]
    rfl
  · rw [if_neg hc, if_neg hc, ← hblocks]
    rfl

end

/-- Two encoders whose blocks are the same write the same frame, however the input is cut. -/
theorem runs_agree {slide slide' : StreamingEncoder → StreamingEncoder} {s₀ s₀' : StreamingEncoder}
    (h : Slides slide) (h' : Slides slide') (h₀ : Fresh s₀) (h₀' : Fresh s₀')
    (hhash : s₀.hasher.Holds 0 []) (hhash' : s₀'.hasher.Holds 0 [])
    (hcheck : s₀'.checksum = s₀.checksum) {calls calls' : List Call}
    (hlen : ∀ c ∈ calls, c.pushed.length < 2 ^ 63) (hlen' : ∀ c ∈ calls', c.pushed.length < 2 ^ 63)
    (hpushed : (calls'.map Call.pushed).flatten = (calls.map Call.pushed).flatten)
    (hblocks : stream_blocks slide' s₀' (calls.map Call.pushed).flatten =
      stream_blocks slide s₀ (calls.map Call.pushed).flatten) :
    ∃ out, run slide s₀ calls = .ok out ∧ run slide' s₀' calls' = .ok out := by
  obtain ⟨hasher, hholds, hrun⟩ := run_eq h h₀ hhash calls hlen
  obtain ⟨hasher', hholds', hrun'⟩ := run_eq h' h₀' hhash' calls' hlen'
  rw [hpushed] at hholds' hrun'
  rw [hrun, hrun', Xxh64.digest_eq hholds, Xxh64.digest_eq hholds', hblocks, hcheck, bind_ok]
  by_cases hc : s₀.checksum = true
  · rw [if_pos hc]
    exact ⟨_, pure_eq_ok _, pure_eq_ok _⟩
  · rw [if_neg hc]
    exact ⟨_, pure_eq_ok _, pure_eq_ok _⟩

/-! ## Independence of the chunking -/

theorem of_mode_fresh (level : Int) (checksum expect_magic : Bool) (mode : StreamMode) :
    Fresh (of_mode level checksum expect_magic mode) ∧
      (of_mode level checksum expect_magic mode).hasher.Holds 0 [] := by
  cases mode with
  | plain => exact ⟨⟨rfl, rfl, rfl⟩, Xxh64.new_holds 0⟩
  | long window_log => exact ⟨⟨rfl, rfl, rfl⟩, Xxh64.new_holds 0⟩

/-- The streamed frame does not depend on how the input is cut into calls of `push`, nor on when the
output is taken. -/
theorem run_independent_of_chunking (level : Int) (checksum expect_magic : Bool) (mode : StreamMode)
    (calls calls' : List Call) (hlen : ∀ c ∈ calls, c.pushed.length < 2 ^ 63)
    (hlen' : ∀ c ∈ calls', c.pushed.length < 2 ^ 63)
    (hpushed : (calls.map Call.pushed).flatten = (calls'.map Call.pushed).flatten) :
    ∃ out, run maybe_slide (of_mode level checksum expect_magic mode) calls = .ok out ∧
      run maybe_slide (of_mode level checksum expect_magic mode) calls' = .ok out := by
  obtain ⟨h₀, hhash⟩ := of_mode_fresh level checksum expect_magic mode
  exact runs_agree maybe_slide_slides maybe_slide_slides h₀ h₀ hhash hhash rfl hlen hlen'
    hpushed.symm rfl

theorem run_independent_of_chunking_two_pushes :
    ∃ out, run maybe_slide (of_mode 3 true true (.long 20)) [.push [1, 2], .take_output, .push [3]]
        = .ok out ∧
      run maybe_slide (of_mode 3 true true (.long 20)) [.push [], .push [1, 2, 3]] = .ok out :=
  run_independent_of_chunking 3 true true (.long 20) _ _ (by decide) (by decide) rfl

end ZstdPure.Encode.StreamingEncoder
