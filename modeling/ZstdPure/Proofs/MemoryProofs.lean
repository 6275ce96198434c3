import ZstdPure.Proofs.StreamingProofs
import ZstdPure.Proofs.TraceProofs

/-!
# The memory of the streaming decoder

After every read, successful or failed, the buffer of a streaming decoder is no longer than the
window or the dictionary and one block.
-/

namespace ZstdPure

open Outcome Sequences XxHash

namespace StreamingDecoder

/-- The buffer of a decoder: its indices are in range and it has at most `limit` bytes. -/
structure Held (limit : Nat) (d : StreamingDecoder) : Prop where
  read_off : d.read_off ≤ d.state.out.length
  dict_len : d.state.dict_len ≤ d.state.out.length
  length : d.state.out.length ≤ limit

theorem Held.mono {limit limit' : Nat} {d : StreamingDecoder} (h : d.Held limit)
    (hle : limit ≤ limit') : d.Held limit' :=
  ⟨h.read_off, h.dict_len, h.length.trans hle⟩

/-- The fields that no read changes. -/
structure SameStream (d d' : StreamingDecoder) : Prop where
  src : d'.src = d.src
  window_size : d'.window_size = d.window_size
  block_max : d'.state.block_max = d.state.block_max
  poisoned : d'.poisoned = d.poisoned

theorem SameStream.refl (d : StreamingDecoder) : d.SameStream d := ⟨rfl, rfl, rfl, rfl⟩

theorem SameStream.trans {d d' d'' : StreamingDecoder} (h : d.SameStream d')
    (h' : d'.SameStream d'') : d.SameStream d'' :=
  ⟨h'.src.trans h.src, h'.window_size.trans h.window_size, h'.block_max.trans h.block_max,
    h'.poisoned.trans h.poisoned⟩

variable {d : StreamingDecoder}

theorem finish_frame_ensures : Ensures d.finish_frame fun d' => ∃ pos, d' = { d with pos } := by
  rw [finish_frame]
  refine Ensures.after fun _ _ => ensures_ite (fun _ => Ensures.after fun _ _ =>
    Ensures.after fun pos _ => Ensures.ok ⟨pos, rfl⟩) fun _ => Ensures.ok ⟨d.pos, rfl⟩

/-- A decoded block changes the decode state as `decode_block_at` does and delivers nothing. -/
theorem decode_next_block_ensures : Ensures d.decode_next_block fun d' =>
    (∃ r, d.state.decode_block_at d.src d.pos = .ok r ∧ d'.state = r.1) ∧
      d'.read_off = d.read_off ∧ d'.src = d.src ∧ d'.window_size = d.window_size ∧
      d'.poisoned = d.poisoned := by
  rw [decode_next_block]
  refine Ensures.after fun r hr => Ensures.after fun produced _ => Ensures.after fun hasher _ =>
    Ensures.after fun total _ => ensures_ite (fun _ => ?_) fun _ => ?_
  · intro d' hd'
    obtain ⟨pos, rfl⟩ := finish_frame_ensures _ hd'
    exact ⟨⟨r, hr, rfl⟩, rfl, rfl, rfl, rfl⟩
  · exact Ensures.ok ⟨⟨r, hr, rfl⟩, rfl, rfl, rfl, rfl⟩

/-- A block decoded into a buffer of at most `limit` bytes. -/
theorem Held.next {limit : Nat} (h : d.Held limit) : Ensures d.decode_next_block fun d' =>
    d'.Held (limit + d.state.block_max) ∧ d.SameStream d' ∧ d'.read_off = d.read_off ∧
      d'.state.out.length ≤ d.state.out.length + d.state.block_max := by
  intro d' hd'
  obtain ⟨⟨r, hr, hstate⟩, hoff, hsrc, hwin, hpoison⟩ := decode_next_block_ensures _ hd'
  have hgrown : d.state.Appended d'.state d.state.block_max := by
    rw [hstate]
    exact BlockState.decode_block_at_ensures h.dict_len _ hr
  have hle := hgrown.out_extends.length_le
  have hlen := hgrown.length
  have hread := h.read_off
  have hdict := h.dict_len
  have hlimit := h.length
  have hsame := hgrown.same.dict_len
  exact ⟨⟨by omega, by omega, by omega⟩, ⟨hsrc, hwin, hgrown.same.block_max, hpoison⟩, hoff, hlen⟩

/-- Compacting keeps the buffer in range. -/
theorem Held.compact {limit : Nat} (h : d.Held limit) : (d.evict d.spare).Held limit := by
  have hread := h.read_off
  have hdict := h.dict_len
  have hlimit := h.length
  refine ⟨?_, ?_, ?_⟩
  · rw [length_evict, spare, evict]; simp only; omega
  · rw [length_evict, evict]; simp only; omega
  · rw [length_evict]; omega

/-- A decoder between two reads: at most a window or the dictionary is buffered. -/
structure Idle (limit : Nat) (d : StreamingDecoder) : Prop extends Held limit d where
  block_max : d.state.block_max ≤ d.window_size
  window_le : d.window_size ≤ limit

/-- A block decoded when nothing waits to be delivered, and the compaction after it. -/
theorem Idle.next {limit : Nat} (h : d.Idle limit) (hstarved : d.starved = true) :
    Ensures d.decode_next_block fun d' =>
      (d'.evict d'.spare).Idle limit ∧ d.SameStream (d'.evict d'.spare) ∧
        d'.compact = .ok (d'.evict d'.spare) := by
  intro d' hd'
  obtain ⟨hheld, hsame, hoff, hlen⟩ := h.toHeld.next _ hd'
  have hread : d.state.out.length ≤ d.read_off := by
    rw [starved, Bool.and_eq_true, decide_eq_true_eq] at hstarved
    exact hstarved.1
  have hmax := h.block_max
  have hwin := h.window_le
  have hlimit := h.length
  refine ⟨⟨⟨hheld.compact.read_off, hheld.compact.dict_len, ?_⟩, ?_, ?_⟩,
    hsame.trans ⟨rfl, rfl, rfl, rfl⟩, compact_eq hheld.read_off⟩
  · rw [length_evict, spare, hoff, hsame.window_size]; omega
  · change d'.state.block_max ≤ d'.window_size
    rw [hsame.block_max, hsame.window_size]
    exact hmax
  · change d'.window_size ≤ limit
    rw [hsame.window_size]
    exact hwin

/-- The refill keeps a decoder idle. -/
theorem Idle.refill {limit : Nat} (h : d.Idle limit) :
    Ensures d.refill fun d' => d'.Idle limit ∧ d.SameStream d' := by
  intro d' hd'
  refine (Ensures.loop (fun d' : StreamingDecoder => d'.Idle limit ∧ d.SameStream d') ?_ _ d
    ⟨h, SameStream.refl d⟩ _ hd').1
  rintro d₁ ⟨hidle, hsame⟩ hstarved
  refine Ensures.after fun d₂ hd₂ => ?_
  obtain ⟨hidle₂, hsame₂, hcompact⟩ := hidle.next hstarved _ hd₂
  rw [hcompact]
  exact Ensures.ok ⟨hidle₂, hsame.trans hsame₂⟩

/-- The buffer that an error leaves has at most one block more. -/
theorem Idle.refill_end {limit : Nat} : ∀ (n : Nat) {d : StreamingDecoder}, d.Idle limit →
    (refill_end n d).Held (limit + d.state.block_max) := by
  intro n
  induction n with
  | zero =>
    intro d h
    exact h.mono (Nat.le_add_right _ _)
  | succ n ih =>
    intro d h
    rw [StreamingDecoder.refill_end]
    by_cases hstarved : d.starved = true
    · rw [if_pos hstarved]
      cases hnext : d.decode_next_block with
      | ok d' =>
        obtain ⟨hidle, hsame, hcompact⟩ := h.next hstarved _ hnext
        have hend := ih hidle
        rw [hsame.block_max] at hend
        simp only [hcompact]
        exact hend
      | error e =>
        have htrace : ∀ o ∈ d.state.block_trace d.src d.pos, d.state.out.length ≤ o.length ∧
            o.length ≤ d.state.out.length + d.state.block_max := by
          intro o ho
          obtain ⟨hpre, -, hlen⟩ := BlockState.block_trace_grown h.dict_len o ho
          exact ⟨hpre.length_le, hlen⟩
        have hbuffer := BlockState.getLastD_of_forall (P := fun o =>
            d.state.out.length ≤ o.length ∧ o.length ≤ d.state.out.length + d.state.block_max)
          ⟨le_rfl, Nat.le_add_right _ _⟩ htrace
        have hread := h.read_off
        have hdict := h.dict_len
        have hlimit := h.length
        exact ⟨hread.trans hbuffer.1, hdict.trans hbuffer.1, hbuffer.2.trans (by omega)⟩
    · rw [if_neg hstarved]
      exact h.mono (Nat.le_add_right _ _)

/-- Where the refill succeeds, `refill_end` is the decoder it returns. -/
theorem refill_end_ok : ∀ (n : Nat) {d d' : StreamingDecoder}, loop StreamingDecoder.starved
    (fun d => d.decode_next_block >>= fun d => d.compact) n d = .ok d' →
    StreamingDecoder.refill_end n d = d' := by
  intro n
  induction n with
  | zero =>
    intro d d' h
    rw [loop] at h
    split_ifs at h
    · exact absurd h (crash_ne_ok _ _)
    · exact Except.ok.inj h
  | succ n ih =>
    intro d d' h
    rw [StreamingDecoder.refill_end]
    by_cases hstarved : d.starved = true
    · rw [loop_succ_of hstarved] at h
      obtain ⟨d₂, h, hrest⟩ := bind_eq_ok.mp h
      obtain ⟨d₁, h₁, h₂⟩ := bind_eq_ok.mp h
      rw [if_pos hstarved, h₁]
      simp only [h₂]
      exact ih hrest
    · rw [loop_of_not (by simpa using hstarved)] at h
      rw [if_neg hstarved]
      exact Except.ok.inj h

/-- A delivery keeps a decoder idle. -/
theorem Idle.deliver {limit : Nat} (h : d.Idle limit) (n : Nat) :
    Ensures (d.deliver n) fun r => r.2.Idle limit ∧ d.SameStream r.2 := by
  have hread := h.read_off
  rw [StreamingDecoder.deliver]
  refine Ensures.after fun avail _ => ensures_ite (fun _ => Ensures.ok ⟨h, SameStream.refl d⟩)
    fun _ => Ensures.after fun stop hstop => Ensures.after fun bytes hbytes => ?_
  have hle := (slice_eq_ok.mp hbytes).1
  have hadvance : Held limit { d with read_off := stop } := ⟨hle.2, h.dict_len, h.length⟩
  rw [compact_eq hle.2]
  exact Ensures.ok ⟨⟨hadvance.compact, h.block_max, h.window_le⟩, ⟨rfl, rfl, rfl, rfl⟩⟩

/-! ## Runs of reads -/

/-- The decoders reached from `d₀` by reads into buffers of any lengths, with the buffer that each
read leaves, also one that fails. -/
inductive ReadRun (d₀ : StreamingDecoder) : StreamingDecoder → Prop
  | start : ReadRun d₀ d₀
  | read {d d' : StreamingDecoder} {n : Nat} (h : ReadRun d₀ d) (hread : d.read_end n = some d') :
      ReadRun d₀ d'

/-- The state of a run: idle, or failed with at most one block more in the buffer. -/
def Idling (limit : Nat) (d₀ d : StreamingDecoder) : Prop :=
  d₀.SameStream d ∧ d.poisoned = none ∧ d.Idle limit ∨
    (∃ msg, d.poisoned = some msg) ∧ d.Held (limit + d₀.state.block_max)

theorem read_end_step {limit n : Nat} {d₀ d' : StreamingDecoder} (h : Idling limit d₀ d)
    (hread : d.read_end n = some d') : Idling limit d₀ d' := by
  rw [read_end] at hread
  rcases h with ⟨hsame, hpoison, hidle⟩ | ⟨⟨msg, hmsg⟩, hheld⟩
  · cases hx : d.refill >>= fun d => d.deliver n with
    | ok r =>
      obtain ⟨bytes, d₂⟩ := r
      have hr : d.read n = .ok (.Ok bytes, d₂) := by rw [StreamingDecoder.read, hpoison, hx]
      rw [hr] at hread
      obtain rfl := Option.some.inj hread
      obtain ⟨d₁, h₁, h₂⟩ := bind_eq_ok.mp hx
      obtain ⟨hidle₁, hsame₁⟩ := hidle.refill _ h₁
      obtain ⟨hidle₂, hsame₂⟩ := hidle₁.deliver n _ h₂
      have hsame' := hsame₁.trans hsame₂
      exact Or.inl ⟨hsame.trans hsame', hsame'.poisoned.trans hpoison, hidle₂⟩
    | error e =>
      cases e with
      | fault f =>
        have hr : d.read n = crash f := by rw [StreamingDecoder.read, hpoison, hx]
        rw [hr] at hread
        exact absurd hread (by simp [crash])
      | err e =>
        have hr : d.read n = .ok (.Err e.to_string, { d with poisoned := some e.to_string }) := by
          rw [StreamingDecoder.read, hpoison, hx]
        rw [hr, hpoison] at hread
        obtain rfl := Option.some.inj hread
        have hheld := hidle.refill_end (d.src.length + 2)
        rw [hsame.block_max] at hheld
        exact Or.inr ⟨⟨_, rfl⟩, hheld.read_off, hheld.dict_len, hheld.length⟩
  · have hr : d.read n = .ok (.Err msg, d) := by rw [StreamingDecoder.read, hmsg]
    rw [hr, hmsg] at hread
    obtain rfl := Option.some.inj hread
    exact Or.inr ⟨⟨msg, hmsg⟩, hheld⟩

/-- What the constructor builds. -/
theorem with_options_ensures {src : Bytes} {expect_magic : Bool} {dict : Option Dictionary}
    {window_log_max : Nat} :
    Ensures (with_options src expect_magic dict window_log_max) fun d => d.poisoned = none ∧
      d.state = BlockState.start usizeMax (min d.window_size MAX_BLOCK_SIZE) dict ∧
      d.read_off = d.state.dict_len := by
  rw [with_options]
  refine Ensures.after fun header _ => Ensures.after fun max_ws _ => ensures_ite
    (fun _ => ensures_fail) fun _ => Ensures.after fun _ _ => Ensures.ok ⟨rfl, rfl, rfl⟩

/-- After construction and after every read of any run, the buffer of a streaming decoder is no
longer than the window or the dictionary and one block. -/
theorem buffered_len_le {src : Bytes} {expect_magic : Bool} {dict : Option Dictionary}
    {window_log_max : Nat} {d₀ d : StreamingDecoder}
    (h₀ : with_options src expect_magic dict window_log_max = .ok d₀) (h : ReadRun d₀ d) :
    d.buffered_len ≤ max d₀.window_size (dictionary_len dict) + min d₀.window_size MAX_BLOCK_SIZE ∧
      d.read_off ≤ d.state.out.length ∧ d.state.dict_len ≤ d.state.out.length := by
  obtain ⟨hpoison, hstate, hoff⟩ := with_options_ensures _ h₀
  obtain ⟨hlen, hdict⟩ := start_out usizeMax (min d₀.window_size MAX_BLOCK_SIZE) dict
  have hmax := start_block_max usizeMax (min d₀.window_size MAX_BLOCK_SIZE) dict
  rw [← hstate] at hlen hdict hmax
  have hstart : Idling (max d₀.window_size (dictionary_len dict)) d₀ d₀ :=
    Or.inl ⟨SameStream.refl d₀, hpoison, ⟨⟨by omega, by omega, by omega⟩, by omega,
      le_max_left _ _⟩⟩
  have hrun : Idling (max d₀.window_size (dictionary_len dict)) d₀ d := by
    induction h with
    | start => exact hstart
    | read _ hread ih => exact read_end_step ih hread
  rw [← hmax]
  rcases hrun with ⟨hsame, -, hidle⟩ | ⟨-, hheld⟩
  · exact ⟨hidle.length.trans (Nat.le_add_right _ _), hidle.read_off, hidle.dict_len⟩
  · exact ⟨hheld.length, hheld.read_off, hheld.dict_len⟩

/-- `buffered_len_le` on the frame of three blocks, after three reads. -/
theorem buffered_len_le_three_blocks : ∃ d₀ d₁ d₂ d₃,
    with_options three_blocks true none 27 = .ok d₀ ∧ d₀.read_end 3 = some d₁ ∧
      d₁.read_end 5 = some d₂ ∧ d₂.read_end 9 = some d₃ ∧
      d₃.buffered_len ≤ max d₀.window_size (dictionary_len none) + min d₀.window_size
        MAX_BLOCK_SIZE ∧
      d₃.read_off ≤ d₃.state.out.length ∧ d₃.state.dict_len ≤ d₃.state.out.length := by
  obtain ⟨d₀, h₀, hreads⟩ : ∃ d₀, with_options three_blocks true none 27 = .ok d₀ ∧
      ((d₀.read_end 3).bind fun d₁ => (d₁.read_end 5).bind fun d₂ => d₂.read_end 9).isSome = true :=
    ⟨_, rfl, by decide +kernel⟩
  obtain ⟨d₃, hreads⟩ := Option.isSome_iff_exists.mp hreads
  obtain ⟨d₁, h₁, hreads⟩ := Option.bind_eq_some_iff.mp hreads
  obtain ⟨d₂, h₂, h₃⟩ := Option.bind_eq_some_iff.mp hreads
  have hrun : ReadRun d₀ d₃ := .read (.read (.read .start h₁) h₂) h₃
  exact ⟨d₀, d₁, d₂, d₃, h₀, h₁, h₂, h₃, buffered_len_le h₀ hrun⟩

end StreamingDecoder

end ZstdPure
