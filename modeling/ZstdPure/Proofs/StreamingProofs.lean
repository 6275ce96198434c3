import ZstdPure.Streaming
import ZstdPure.Proofs.FrameProofs
import ZstdPure.Proofs.XxHashProofs

/-!
# The streaming decoder

A streaming decoder never faults, whatever the input, the dictionary and the schedule of buffer
sizes, as long as input and dictionary together are shorter than `2 ^ 49` bytes.
-/

namespace ZstdPure

open Outcome Sequences XxHash

namespace StreamingDecoder

/-- What holds between two reads of a decoder whose dictionary has `base` bytes. -/
structure Inv (base : Nat) (d : StreamingDecoder) : Prop where
  budget : Budget d.src base d.state d.pos
  read_off : d.read_off ≤ d.state.out.length
  hasher : ∃ data, d.hasher.Holds 0 data ∧ d.total_out = data.length
  total : d.total_out ≤ 2 ^ 15 * d.pos

variable {base : Nat} {d : StreamingDecoder}

/-! ## One block -/

/-- The end of the frame, with the streaming hash and the count of bytes replaced by the output. -/
theorem finish_frame_eq {data : Bytes} (hhash : d.hasher.Holds 0 data)
    (htotal : d.total_out = data.length) (hlen : data.length < 2 ^ 64) :
    d.finish_frame = frame_end d.src d.declared_size d.has_checksum data d.pos >>= fun pos =>
      .ok { d with pos } := by
  rw [finish_frame, frame_end, htotal, Xxh64.digest_spec hhash hlen]
  cases check_content_size d.declared_size data.length with
  | error e => rfl
  | ok u =>
    simp only [bind_ok]
    by_cases hc : d.has_checksum = true
    · rw [if_pos hc, if_pos hc]; rfl
    · rw [if_neg hc, if_neg hc, ← htotal]; rfl

/-- A decoded block, with the hash and the count of bytes brought up to date. -/
theorem decode_next_block_eq {data : Bytes} {s : BlockState} {pos : Nat} {last : Bool}
    (hblock : d.state.decode_block_at d.src d.pos = .ok (s, pos, last))
    (hout : d.state.out.length ≤ s.out.length)
    (hhash : d.hasher.Holds 0 data)
    (hlen : s.out.length < d.state.out.length + 2 ^ 63) :
    ∃ hasher, Xxh64.Holds hasher 0 (data ++ s.out.drop d.state.out.length) ∧
      d.decode_next_block =
        (add 64 d.total_out (s.out.length - d.state.out.length) >>= fun total_out =>
          let d' := { d with state := s, pos, hasher, total_out }
          if last then finish_frame { d' with last_done := true } else .ok d') := by
  obtain ⟨hasher, hupdate, hholds⟩ :=
    Xxh64.update_spec hhash (s.out.drop d.state.out.length)
      (by rw [List.length_drop]; omega)
  refine ⟨hasher, hholds, ?_⟩
  rw [decode_next_block, hblock, bind_ok]
  dsimp only
  rw [sliceFrom_ok hout, bind_ok, hupdate, bind_ok, List.length_drop]
  rfl

theorem frame_end_safe {src : Bytes} (declared : Option Nat) (has_checksum : Bool) (data : Bytes)
    {pos : Nat} (hlen : src.length < 2 ^ 63) (hpos : pos ≤ src.length) :
    Safe (frame_end src declared has_checksum data pos) fun p => pos ≤ p ∧ p ≤ src.length := by
  rw [frame_end]
  refine check_content_size_safe.bind fun _ _ => safe_ite (fun _ => ?_) fun _ =>
    Safe.ok ⟨le_rfl, hpos⟩
  exact (verify_checksum_safe hlen hpos).mono fun p hp => ⟨by omega, hp.2⟩

theorem decode_next_block_safe (h : d.Inv base) :
    Safe d.decode_next_block fun d' => d'.Inv base ∧ d'.src = d.src ∧ d.pos < d'.pos := by
  have hpos := h.budget.pos_le
  have hlen := h.budget.total
  obtain ⟨data, hdata, htotal⟩ := h.hasher
  rcases safe_iff.mp h.budget.block_safe with ⟨⟨s, pos, last⟩, heq, hread, hbudget⟩ | ⟨e, he⟩
  swap
  · rw [decode_next_block, he, bind_fail]; exact safe_fail
  have hle := hread.out.length_le
  have hlt := hread.lt
  have hpos' := hread.le
  have hratio := hread.ratio
  have hblock := hread.block
  have hroom := h.total
  have hread_off := h.read_off
  dsimp only at hle hlt hpos' hratio hblock hbudget
  obtain ⟨hasher, hholds, hnext⟩ := decode_next_block_eq heq hle hdata (by omega)
  rw [hnext, add_ok (by omega), bind_ok]
  dsimp only
  have hdlen : (data ++ s.out.drop d.state.out.length).length
      = d.total_out + (s.out.length - d.state.out.length) := by
    rw [List.length_append, List.length_drop, htotal]
  have hinv : ∀ b p, pos ≤ p → p ≤ d.src.length → Inv base { d with
      state := s, pos := p, hasher, last_done := b,
      total_out := d.total_out + (s.out.length - d.state.out.length) } := fun b p hp hp' => by
    have hout := hbudget.out
    refine ⟨⟨hbudget.valid, hp', hlen, ?_⟩, ?_, ⟨_, hholds, hdlen.symm⟩, ?_⟩
    · simp only; omega
    · simp only; omega
    · simp only; omega
  refine safe_ite (fun _ => ?_) fun _ => Safe.ok ⟨hinv _ _ le_rfl hpos', rfl, by simp only; omega⟩
  rw [finish_frame_eq hholds hdlen.symm (by omega)]
  exact (frame_end_safe _ _ _ (by omega) hpos').bind fun p hp =>
    Safe.ok ⟨hinv _ _ hp.1 hp.2, rfl, by simp only; omega⟩

/-! ## Compacting and delivering -/

/-- `d` without the first `m` bytes of its buffer. -/
def evict (d : StreamingDecoder) (m : Nat) : StreamingDecoder :=
  { d with
    state := { d.state with out := d.state.out.drop m, dict_len := d.state.dict_len - m }
    read_off := d.read_off - m }

/-- The bytes both delivered and older than the window. -/
def spare (d : StreamingDecoder) : Nat := min d.read_off (d.state.out.length - d.window_size)

/-- `d` with up to `n` more bytes delivered. -/
def advance (d : StreamingDecoder) (n : Nat) : StreamingDecoder :=
  { d with read_off := d.read_off + min (d.state.out.length - d.read_off) n }

theorem length_evict (d : StreamingDecoder) (m : Nat) :
    (d.evict m).state.out.length = d.state.out.length - m := List.length_drop

theorem compact_eq (h : d.read_off ≤ d.state.out.length) :
    d.compact = .ok (d.evict d.spare) := by
  rw [compact, spare, evict]
  dsimp only
  by_cases h0 : 0 < min d.read_off (d.state.out.length - d.window_size)
  · rw [if_pos h0, sliceFrom_ok (by omega), bind_ok, sub_ok (by omega), bind_ok]
    rfl
  · have hz : min d.read_off (d.state.out.length - d.window_size) = 0 := by omega
    rw [if_neg h0, hz]
    rfl

/-- The delivery copies what fits of the undelivered bytes. -/
theorem deliver_eq (h : d.read_off ≤ d.state.out.length) (hout : d.state.out.length < 2 ^ 64)
    (n : Nat) :
    d.deliver n = .ok ((d.state.out.drop d.read_off).take n,
      if d.state.out.length = d.read_off then d else (d.advance n).evict (d.advance n).spare) := by
  rw [deliver, sub_ok h, bind_ok]
  by_cases h0 : d.state.out.length - d.read_off = 0
  · rw [if_pos h0, if_pos (by omega), List.drop_eq_nil_of_le (by omega), List.take_nil]
    rfl
  · rw [if_neg h0, if_neg (by omega)]
    dsimp only
    rw [add_ok (by omega), bind_ok, slice_ok (by omega) (by omega), bind_ok, ← advance,
      compact_eq (by simp only [advance]; omega), bind_ok, ← List.take_drop, Nat.min_comm,
      ← List.length_drop, ← List.take_eq_take_min]
    rfl

theorem compact_inv (h : d.Inv base) : (d.evict d.spare).Inv base := by
  have hv := h.budget.valid
  have hdict := hv.dict
  have hread := h.read_off
  have hout := h.budget.out
  refine ⟨⟨⟨?_, hv.block_max, hv.huff, hv.seq⟩, h.budget.pos_le, h.budget.total, ?_⟩, ?_,
    h.hasher, h.total⟩
  · simp only [evict, List.length_drop]; omega
  · simp only [evict, List.length_drop]; omega
  · simp only [evict, List.length_drop, spare]; omega

theorem advance_inv (h : d.Inv base) (n : Nat) : (d.advance n).Inv base := by
  have hread := h.read_off
  exact ⟨h.budget, by simp only [advance]; omega, h.hasher, h.total⟩

/-! ## Reads -/

theorem refill_safe (h : d.Inv base) :
    Safe d.refill fun d' => (d'.Inv base ∧ d'.src = d.src) ∧ d'.starved = false := by
  rw [refill]
  refine Safe.loop (fun d' : StreamingDecoder => d'.Inv base ∧ d'.src = d.src)
    (fun d' => d.src.length - d'.pos) ?_ _ _
    ⟨h, rfl⟩ (by omega)
  rintro d' ⟨hinv, hsrc⟩ -
  refine (decode_next_block_safe hinv).bind fun d₁ h₁ => ?_
  obtain ⟨hinv₁, hsrc₁, hpos₁⟩ := h₁
  rw [compact_eq hinv₁.read_off]
  have hp := hinv₁.budget.pos_le
  rw [hsrc₁, hsrc] at hp
  exact Safe.ok ⟨⟨compact_inv hinv₁, hsrc₁.trans hsrc⟩, by simp only [evict]; omega⟩

theorem deliver_safe (h : d.Inv base) (n : Nat) :
    Safe (d.deliver n) fun r => r.2.Inv base := by
  have hout := h.budget.out
  have hpos := h.budget.pos_le
  have hlen := h.budget.total
  rw [deliver_eq h.read_off (by omega)]
  refine Safe.ok ?_
  dsimp only
  split_ifs
  · exact h
  · exact compact_inv (advance_inv h n)

/-- A read of a decoder that is not poisoned refills and delivers. -/
theorem read_ok {d' d'' : StreamingDecoder} {n : Nat} {bytes : Bytes} (h : d.poisoned = none)
    (hrefill : d.refill = .ok d') (hdeliver : d'.deliver n = .ok (bytes, d'')) :
    d.read n = .ok (.Ok bytes, d'') := by
  rw [read, h, hrefill, bind_ok, hdeliver]

/-- A read whose refill fails poisons the decoder. -/
theorem read_fail {e : ZstdError} (n : Nat) (h : d.poisoned = none) (hrefill : d.refill = fail e) :
    d.read n = .ok (.Err e.to_string, { d with poisoned := some e.to_string }) := by
  rw [read, h, hrefill, bind_fail]
  rfl

/-- Every read of a poisoned decoder returns the error that poisoned it. -/
theorem reads_poisoned {msg : String} (h : d.poisoned = some msg) (ns : List Nat) :
    d.reads ns = .ok (List.replicate ns.length (.Err msg), d) := by
  induction ns with
  | nil => rfl
  | cons n ns ih =>
    have hread : d.read n = .ok (.Err msg, d) := by rw [read, h]
    rw [reads, hread, bind_ok]
    dsimp only
    rw [ih]
    rfl

/-- Delivering returns no error. -/
theorem deliver_ne_fail (n : Nat) (e : ZstdError) : d.deliver n ≠ fail e := by
  intro h
  rw [deliver, sub] at h
  split_ifs at h
  · rw [bind_ok] at h
    split_ifs at h
    · exact ok_ne_fail _ _ h
    · dsimp only at h
      rw [add] at h
      split_ifs at h
      · rw [bind_ok, slice] at h
        split_ifs at h with hs
        · rw [bind_ok, compact_eq (by simp only; omega), bind_ok] at h
          exact ok_ne_fail _ _ h
        · simp [crash, fail] at h
      · simp [crash, fail] at h
  · simp [crash, fail] at h

/-- A read never faults. -/
theorem read_safe (h : d.Inv base) (n : Nat) :
    Returns (d.read n) fun r => r.2.Inv base := by
  rw [read]
  split
  · exact ⟨_, rfl, h⟩
  · have hsafe : Safe (d.refill >>= fun d => d.deliver n) fun r => r.2.Inv base :=
      (refill_safe h).bind fun d' hd => deliver_safe hd.1.1 n
    rcases safe_iff.mp hsafe with ⟨⟨bytes, d'⟩, heq, hinv⟩ | ⟨e, heq⟩
    · rw [heq]; exact ⟨_, rfl, hinv⟩
    · rw [heq]; exact ⟨_, rfl, ⟨h.budget, h.read_off, h.hasher, h.total⟩⟩

/-- No schedule of buffer sizes makes the reads fault. -/
theorem reads_safe : ∀ (ns : List Nat) {d : StreamingDecoder}, d.Inv base →
    Returns (d.reads ns) fun r => r.2.Inv base := by
  intro ns
  induction ns with
  | nil => intro d h; exact ⟨_, rfl, h⟩
  | cons n ns ih =>
    intro d h
    rw [reads]
    refine (read_safe h n).bind fun r hr => ?_
    exact (ih hr).bind fun r' hr' => ⟨_, rfl, hr'⟩

theorem frame_header_safe {src : Bytes} (hlen : src.length < 2 ^ 63) :
    Safe (frame_header src) fun h => h.Fits src := by
  rw [frame_header]
  refine safe_ite (fun _ => safe_fail) fun h4 => ?_
  obtain ⟨magic, h₁, -, -⟩ := read_u32_le_ok src 0 (by omega)
  rw [h₁, bind_ok]
  refine safe_ite (fun _ => safe_fail) fun _ => ?_
  rw [sliceFrom_ok (by omega), bind_ok]
  refine (parse_frame_header_safe (by rw [List.length_drop]; omega)).bind fun h hh => ?_
  have hge := hh.ge
  have hle := hh.le
  rw [List.length_drop] at hle
  rw [add_ok (by omega), bind_ok]
  exact Safe.ok ⟨by simp only; omega, by simp only; omega⟩

/-- The constructor never faults, and what it builds satisfies the invariant. -/
theorem with_options_safe {src : Bytes} (expect_magic : Bool) {dict : Option Dictionary}
    (window_log_max : Nat) (hlen : src.length + dictionary_len dict < 2 ^ 49)
    (hd : DictionaryValid dict) :
    Safe (with_options src expect_magic dict window_log_max) (Inv (dictionary_len dict)) := by
  rw [with_options]
  have h63 : src.length < 2 ^ 63 := by omega
  refine Safe.bind (P := fun h => h.Fits src) (safe_ite (fun _ => frame_header_safe h63) fun _ => by
    rw [frame_header_magicless]; exact parse_frame_header_safe h63) fun header hh => ?_
  have hge := hh.ge
  have hle := hh.le
  rw [shl_ok (by omega), bind_ok]
  refine safe_ite (fun _ => safe_fail) fun _ => ?_
  refine Safe.bind (P := fun _ => True) ?_ fun _ _ => Safe.ok ?_
  · unfold supplied_dictionary_check
    split
    · exact check_dictionary_safe.mono fun _ _ => trivial
    · exact Safe.ok trivial
  · obtain ⟨hout, hdict⟩ := start_out usizeMax (min header.window_size MAX_BLOCK_SIZE) dict
    exact ⟨⟨start_valid _ (Nat.min_le_right _ _) hd, hle, hlen, by simp only; omega⟩,
      by simp only; omega, ⟨[], Xxh64.new_holds 0, rfl⟩, Nat.zero_le _⟩

end StreamingDecoder

end ZstdPure
