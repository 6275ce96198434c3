import ZstdPure.Proofs.FrameHeaderProofs
import ZstdPure.Proofs.StreamingProofs

/-!
# Dictionary ids

A frame that names a dictionary the caller did not supply is rejected by every one-shot entry point
and by a streaming decoder built with another dictionary. A streaming decoder built without a
dictionary rejects it only when the frame fails for another reason before any byte is delivered.
-/

namespace ZstdPure

open Outcome Sequences XxHash

/-! ## Entry points -/

/-- The decoding entry points, with their parameters other than the input. -/
inductive EntryPoint where
  | decode_one (expect_magic : Bool) (max_output : Nat)
  | decode_one_with_dict (expect_magic : Bool) (max_output : Nat) (dict : Option Dictionary)
  | decompress
  | decompress_capped (max_output : Nat)
  | decompress_http (max_output : Nat)
  | decompress_magicless (max_output : Nat)
  | decompress_with_dict (dict : Dictionary) (max_output : Nat)
  | decompress_magicless_with_dict (dict : Dictionary) (max_output : Nat)
  | new
  | new_magicless
  | with_dict (dict : Dictionary)
  | with_options (expect_magic : Bool) (dict : Option Dictionary) (window_log_max : Nat)

/-- A call returns an error. -/
def Fails {α : Type} (x : Res α) : Prop := ∃ e, x = fail e

/-- Every read returns an error, whatever the buffer sizes. -/
def StreamingDecoder.AlwaysErr (d : StreamingDecoder) : Prop :=
  ∀ ns, ∃ rs d', d.reads ns = .ok (rs, d') ∧ ∀ r ∈ rs, ∃ msg, r = .Err msg

/-- A construction returns an error, or every read of the decoder does. -/
def StreamFails (x : Res StreamingDecoder) : Prop := Fails x ∨ ∃ d, x = .ok d ∧ d.AlwaysErr

namespace EntryPoint

/-- Whether the frame starts with a magic number. -/
def expect_magic : EntryPoint → Bool
  | decode_one m _ | decode_one_with_dict m _ _ | with_options m _ _ => m
  | decompress | decompress_capped _ | decompress_http _ | decompress_with_dict _ _ => true
  | new | with_dict _ => true
  | decompress_magicless _ | decompress_magicless_with_dict _ _ | new_magicless => false

/-- The dictionary supplied. -/
def dict : EntryPoint → Option Dictionary
  | decode_one_with_dict _ _ d | with_options _ d _ => d
  | decompress_with_dict d _ | decompress_magicless_with_dict d _ | with_dict d => some d
  | _ => none

/-- The call fails with an error and no byte is produced. -/
def Rejects (src : Bytes) : EntryPoint → Prop
  | decode_one m n => Fails (ZstdPure.decode_one src m n)
  | decode_one_with_dict m n d => Fails (ZstdPure.decode_one_with_dict src m n d)
  | decompress => Fails (ZstdPure.decompress src)
  | decompress_capped n => Fails (ZstdPure.decompress_capped src n)
  | decompress_http n => Fails (ZstdPure.decompress_http src n)
  | decompress_magicless n => Fails (ZstdPure.decompress_magicless src n)
  | decompress_with_dict d n => Fails (ZstdPure.decompress_with_dict src d n)
  | decompress_magicless_with_dict d n => Fails (ZstdPure.decompress_magicless_with_dict src d n)
  | new => StreamFails (StreamingDecoder.new src)
  | new_magicless => StreamFails (StreamingDecoder.new_magicless src)
  | with_dict d => StreamFails (StreamingDecoder.with_dict src d)
  | with_options m d w => StreamFails (StreamingDecoder.with_options src m d w)

/-- The window ceiling of a streaming constructor that was given no dictionary. -/
def unchecked : EntryPoint → Option Nat
  | new | new_magicless => some DEFAULT_WINDOW_LOG_MAX
  | with_options _ none w => some w
  | _ => none

end EntryPoint

/-- The header at the front of `src`. -/
def header_at_front (src : Bytes) (expect_magic : Bool) : Res FrameHeader :=
  if expect_magic then frame_header src else frame_header_magicless src

/-! ## Blocks without output -/

/-- From an empty output, the blocks at `pos` fail before a byte can be delivered: some block does
not decode and all before it are empty, or the first block with output is the last and the checks
at the end of the frame fail. -/
inductive FailsSilently (src : Bytes) (header : FrameHeader) : BlockState → Nat → Prop
  | block {s : BlockState} {pos : Nat} {e : ZstdError}
      (h : s.decode_block_at src pos = fail e) : FailsSilently src header s pos
  | empty {s s' : BlockState} {pos pos' : Nat}
      (h : s.decode_block_at src pos = .ok (s', pos', false)) (hout : s'.out = [])
      (rest : FailsSilently src header s' pos') : FailsSilently src header s pos
  | last {s s' : BlockState} {pos pos' : Nat} {e : ZstdError}
      (h : s.decode_block_at src pos = .ok (s', pos', true))
      (hend : frame_end src header.content_size header.has_checksum s'.out pos' = fail e) :
      FailsSilently src header s pos

/-! ## The one-shot entry points -/

section OneShot

variable {src : Bytes} {m : Bool} {header : FrameHeader} {dict : Option Dictionary}

theorem check_dictionary_fails (hid : header.dictionary_id ≠ 0)
    (hdict : ∀ d ∈ dict, d.id ≠ header.dictionary_id) :
    Fails (check_dictionary header.dictionary_id dict) := by
  cases dict with
  | none => rw [check_dictionary, if_pos hid]; exact ⟨_, rfl⟩
  | some d => rw [check_dictionary, if_pos ⟨hid, (hdict d rfl).symm⟩]; exact ⟨_, rfl⟩

theorem Fails.bind {α β : Type} {x : Res α} (h : Fails x) (f : α → Res β) : Fails (x >>= f) := by
  obtain ⟨e, rfl⟩ := h; exact ⟨e, rfl⟩

/-- A frame header without its magic is at most 14 bytes. -/
theorem header_len_le : Ensures (parse_frame_header src) fun h => h.header_len ≤ 14 := by
  intro h hh
  obtain ⟨b, -, -, hlen⟩ := parse_frame_header_implied h hh
  rw [hlen]
  exact (implied_len_bounds b.toNat).2

/-- The magic number of a frame whose header parses is not that of a skippable frame. -/
theorem decode_front_of_header (h : header_at_front src m = .ok header) :
    ∃ rest pos h', decode_front src m = .ok (.frame pos) ∧
      (sliceFrom src pos : Res Bytes) = .ok rest ∧ parse_frame_header rest = .ok h' ∧ pos ≤ 4 ∧
      header = { h' with header_len := h'.header_len + pos } := by
  cases m with
  | false => exact ⟨src, 0, header, rfl, rfl, h, by omega, rfl⟩
  | true =>
    rw [header_at_front, if_pos rfl, frame_header] at h
    split_ifs at h with h4
    · exact absurd h (fail_ne_ok _ _)
    obtain ⟨magic, hmagic, h⟩ := bind_eq_ok.mp h
    split_ifs at h with hm
    · exact absurd h (fail_ne_ok _ _)
    obtain ⟨rest, hrest, h⟩ := bind_eq_ok.mp h
    obtain ⟨h', hparse, h⟩ := bind_eq_ok.mp h
    obtain ⟨len, hlen, h⟩ := bind_eq_ok.mp h
    obtain ⟨-, rfl⟩ := add_eq_ok.mp hlen
    refine ⟨rest, 4, h', ?_, hrest, hparse, le_rfl, (Except.ok.inj h).symm⟩
    have hm : magic = ZSTD_MAGIC := not_not.mp hm
    rw [decode_front, if_pos rfl, if_neg h4, hmagic, bind_ok, hm]
    rfl

/-- `decode_frame` fails on a frame whose dictionary was not supplied. -/
theorem decode_frame_fails (h : header_at_front src m = .ok header)
    (hid : header.dictionary_id ≠ 0) (hdict : ∀ d ∈ dict, d.id ≠ header.dictionary_id)
    (max_output : Nat) (max_window : Option Nat) :
    Fails (decode_frame src m max_output dict max_window) := by
  obtain ⟨rest, pos, h', hfront, hrest, hparse, hpos, rfl⟩ := decode_front_of_header h
  have hlen := header_len_le _ hparse
  rw [decode_frame, hfront, bind_ok]
  dsimp only at hid hdict ⊢
  rw [hrest, bind_ok, hparse, bind_ok, add_ok (by omega), bind_ok]
  rcases safe_iff.mp (check_window_safe h'.window_size max_window) with
    ⟨u, hw, -⟩ | ⟨e, he⟩
  · rw [hw, bind_ok]
    rcases safe_iff.mp (frame_cap_safe h'.content_size max_output) with
      ⟨cap, hc, -⟩ | ⟨e, he⟩
    · rw [hc, bind_ok]
      exact (check_dictionary_fails hid hdict).bind _
    · rw [he]; exact ⟨e, rfl⟩
  · rw [he]; exact ⟨e, rfl⟩

theorem decode_stream_fails {decode : Bytes → Nat → Res DecodedFrame} (max_output : Nat)
    (hsrc : src ≠ []) (h : Fails (decode src max_output)) :
    Fails (decode_stream decode src max_output) := by
  have hpos := List.length_pos_iff.mpr hsrc
  rw [decode_stream, loop_succ_of (by simpa using hpos)]
  dsimp only
  rw [if_neg (by simp), sliceFrom_ok (Nat.zero_le _), bind_ok, List.drop_zero]
  exact Fails.bind (Fails.bind (Fails.bind h _) _) _

end OneShot

/-! ## The streaming decoder -/

section Streaming

open StreamingDecoder

variable {src : Bytes} {header : FrameHeader}

/-- A decoder without a dictionary before its first byte of output. -/
structure Fresh (src : Bytes) (header : FrameHeader) (d : StreamingDecoder) : Prop where
  src_eq : d.src = src
  pos_le : d.pos ≤ src.length
  declared_size : d.declared_size = header.content_size
  has_checksum : d.has_checksum = header.has_checksum
  valid : d.state.Valid
  out : d.state.out = []
  dict_len : d.state.dict_len = 0
  max_output : d.state.max_output = usizeMax
  read_off : d.read_off = 0
  last_done : d.last_done = false
  hasher : d.hasher.Holds 0 []
  total_out : d.total_out = 0

variable {d : StreamingDecoder}

theorem Fresh.starved (h : Fresh src header d) : d.starved = true := by
  simp [StreamingDecoder.starved, h.out, h.read_off, h.last_done]

theorem Fresh.block_safe (h : Fresh src header d) (hsrc : src.length < 2 ^ 63) :
    Safe (d.state.decode_block_at src d.pos) fun r => d.state.BlockRead src d.pos r.1 r.2.1 := by
  have husize : usizeMax = 2 ^ 64 - 1 := rfl
  refine BlockState.decode_block_at_safe h.valid hsrc h.pos_le fun _ => Or.inl ?_
  rw [h.out, h.dict_len, h.max_output, List.length_nil]
  omega

/-- The first block of output: its bytes are hashed and counted, and the end of the frame checked
after the last block. -/
theorem Fresh.next (h : Fresh src header d) {s : BlockState} {pos : Nat} {last : Bool}
    (hread : d.state.BlockRead src d.pos s pos)
    (heq : d.state.decode_block_at src d.pos = .ok (s, pos, last)) :
    ∃ d', d'.state = s ∧ d'.pos = pos ∧ d'.read_off = 0 ∧ d'.last_done = last ∧
      (s.out = [] → last = false → Fresh src header d') ∧
      d.decode_next_block = (if last then
        frame_end src header.content_size header.has_checksum s.out pos >>= fun p =>
          .ok { d' with pos := p } else .ok d') := by
  have hblock := hread.block
  rw [h.out, List.length_nil] at hblock
  rw [← h.src_eq] at heq
  obtain ⟨hasher, hholds, hnext⟩ := decode_next_block_eq heq (by rw [h.out]; exact Nat.zero_le _)
    h.hasher (by rw [h.out, List.length_nil]; omega)
  rw [h.out, List.length_nil, List.nil_append, List.drop_zero] at hholds
  rw [h.total_out, h.out, List.length_nil, add_ok (by omega), bind_ok, Nat.zero_add,
    Nat.sub_zero] at hnext
  dsimp only at hnext
  have hsame := hread.same
  refine ⟨{ d with state := s, pos, hasher, total_out := s.out.length, last_done := last }, rfl,
    rfl,
    h.read_off, rfl, fun h0 hl => ?_, ?_⟩
  · exact ⟨h.src_eq, hread.le, h.declared_size, h.has_checksum, hread.valid, h0,
      hsame.dict_len.trans h.dict_len, hsame.max_output.trans h.max_output, h.read_off, hl,
      h0 ▸ hholds, by simp only [h0, List.length_nil]⟩
  · rw [hnext]
    cases last with
    | false => rw [if_neg Bool.false_ne_true, if_neg Bool.false_ne_true, ← h.last_done]
    | true =>
      simp only [if_true]
      rw [finish_frame_eq hholds rfl (by omega), h.src_eq, h.declared_size,
        h.has_checksum]

/-- Compacting changes nothing before the first delivery. -/
theorem compact_undelivered (h : d.read_off = 0) : d.compact = .ok d := by
  have hspare : d.spare = 0 := by rw [spare, h, Nat.zero_min]
  rw [compact_eq (by omega), hspare]
  rfl

/-- Blocks that fail silently fail the refill. -/
theorem Fresh.refill_fails (hsrc : src.length < 2 ^ 63) {s : BlockState} {pos : Nat}
    (hfail : FailsSilently src header s pos) : ∀ (n : Nat) {d : StreamingDecoder},
    Fresh src header d → d.state = s → d.pos = pos → src.length < n + pos →
    Fails (loop StreamingDecoder.starved
      (fun d => d.decode_next_block >>= fun d => d.compact) n d) := by
  induction hfail with
  | block hb =>
    intro n d h hs hp hn
    obtain ⟨n, rfl⟩ : ∃ k, n = k + 1 := ⟨n - 1, by have := h.pos_le; omega⟩
    rw [loop_succ_of h.starved, decode_next_block, h.src_eq, hs, hp, hb]
    exact ⟨_, rfl⟩
  | empty hb hout _ ih =>
    intro n d h hs hp hn
    obtain ⟨n, rfl⟩ : ∃ k, n = k + 1 := ⟨n - 1, by have := h.pos_le; omega⟩
    rw [← hs, ← hp] at hb
    have hread := (h.block_safe hsrc).of_ok hb
    obtain ⟨d', hs', hp', hoff, -, hfresh, hnext⟩ := h.next hread hb
    rw [if_neg Bool.false_ne_true] at hnext
    have hlt := hread.lt
    dsimp only at hlt
    rw [loop_succ_of h.starved, hnext, bind_ok, compact_undelivered hoff, bind_ok]
    exact ih n (hfresh hout rfl) hs' hp' (by omega)
  | last hb hend =>
    intro n d h hs hp hn
    obtain ⟨n, rfl⟩ : ∃ k, n = k + 1 := ⟨n - 1, by have := h.pos_le; omega⟩
    rw [← hs, ← hp] at hb
    obtain ⟨d', -, -, -, -, -, hnext⟩ := h.next ((h.block_safe hsrc).of_ok hb) hb
    rw [if_pos rfl, hend, bind_fail] at hnext
    rw [loop_succ_of h.starved, hnext]
    exact ⟨_, rfl⟩

/-- A refill fails only for blocks that fail silently. -/
theorem Fresh.fails_silently (hsrc : src.length < 2 ^ 63) : ∀ (n : Nat) {d : StreamingDecoder},
    Fresh src header d → Fails (loop StreamingDecoder.starved
      (fun d => d.decode_next_block >>= fun d => d.compact) n d) →
    FailsSilently src header d.state d.pos := by
  intro n
  induction n with
  | zero =>
    rintro d h ⟨e, he⟩
    rw [loop, if_pos h.starved] at he
    simp [crash, fail] at he
  | succ n ih =>
    rintro d h ⟨e, he⟩
    rw [loop_succ_of h.starved] at he
    rcases safe_iff.mp (h.block_safe hsrc) with ⟨⟨s, pos, last⟩, heq, hread⟩ | ⟨e', he'⟩
    swap
    · exact .block he'
    obtain ⟨d', hs', hp', hoff, hlast, hfresh, hnext⟩ := h.next hread heq
    rw [hnext] at he
    cases last with
    | true =>
      rcases safe_iff.mp (frame_end_safe header.content_size header.has_checksum
        s.out hsrc hread.le) with
        ⟨p, hok, -⟩ | ⟨e', he'⟩
      · rw [if_pos rfl, hok, bind_ok, bind_ok, compact_undelivered (by exact hoff), bind_ok,
          loop_of_not (by simp [StreamingDecoder.starved, hlast])] at he
        exact absurd he (ok_ne_fail _ _)
      · exact .last heq he'
    | false =>
      rw [if_neg Bool.false_ne_true, bind_ok, compact_undelivered hoff, bind_ok] at he
      by_cases hout : s.out = []
      · have hrest := ih (hfresh hout rfl) ⟨e, he⟩
        rw [hs', hp'] at hrest
        exact .empty heq hout hrest
      · rw [loop_of_not (by simp [StreamingDecoder.starved, hs', hoff, hout])] at he
        exact absurd he (ok_ne_fail _ _)

theorem header_fits {m : Bool} (hsrc : src.length < 2 ^ 63)
    (h : header_at_front src m = .ok header) : header.Fits src := by
  cases m with
  | false => exact (parse_frame_header_safe hsrc).of_ok h
  | true => exact (frame_header_safe hsrc).of_ok h

/-- Without a dictionary the constructor checks the window only. -/
theorem fresh_with_options {m : Bool} {w : Nat} (hpos : header.header_len ≤ src.length)
    (h : header_at_front src m = .ok header) (hwin : header.window_size ≤ 2 ^ min w 63) :
    ∃ d, with_options src m none w = .ok d ∧ Fresh src header d ∧ d.poisoned = none ∧
      d.state = BlockState.start usizeMax (min header.window_size MAX_BLOCK_SIZE) none ∧
      d.pos = header.header_len := by
  have hmin : min w 63 < 64 := by omega
  have hpow : 1 * 2 ^ min w 63 < 2 ^ 64 := by
    rw [Nat.one_mul]; exact Nat.pow_lt_pow_right (by omega) hmin
  have hvalid := start_valid usizeMax
    (Nat.min_le_right header.window_size MAX_BLOCK_SIZE)
      (show DictionaryValid none from fun d hd => by simp at hd)
  rw [header_at_front] at h
  rw [with_options, h, bind_ok, shl_exact hmin hpow, bind_ok, Nat.one_mul, if_neg (by omega)]
  exact ⟨_, rfl, ⟨rfl, hpos, rfl, rfl, hvalid, rfl, rfl, rfl, rfl, rfl, Xxh64.new_holds 0, rfl⟩,
    rfl,
    rfl, rfl⟩

theorem with_options_window_fails {m : Bool} {w : Nat} {dict : Option Dictionary}
    (h : header_at_front src m = .ok header) (hwin : 2 ^ min w 63 < header.window_size) :
    Fails (with_options src m dict w) := by
  have hmin : min w 63 < 64 := by omega
  have hpow : 1 * 2 ^ min w 63 < 2 ^ 64 := by
    rw [Nat.one_mul]; exact Nat.pow_lt_pow_right (by omega) hmin
  rw [header_at_front] at h
  rw [with_options, h, bind_ok, shl_exact hmin hpow, bind_ok, Nat.one_mul, if_pos hwin]
  exact ⟨_, rfl⟩

/-- A dictionary that was supplied is checked. -/
theorem with_options_dictionary_fails {m : Bool} {w : Nat} {dict : Dictionary}
    (h : header_at_front src m = .ok header) (hid : header.dictionary_id ≠ 0)
    (hdict : dict.id ≠ header.dictionary_id) : Fails (with_options src m (some dict) w) := by
  by_cases hwin : 2 ^ min w 63 < header.window_size
  · exact with_options_window_fails h hwin
  have hmin : min w 63 < 64 := by omega
  have hpow : 1 * 2 ^ min w 63 < 2 ^ 64 := by
    rw [Nat.one_mul]; exact Nat.pow_lt_pow_right (by omega) hmin
  rw [header_at_front] at h
  rw [with_options, h, bind_ok, shl_exact hmin hpow, bind_ok, Nat.one_mul, if_neg hwin]
  have hfails : Fails (check_dictionary header.dictionary_id (some dict)) :=
    check_dictionary_fails hid fun d hd => by
      obtain rfl := Option.mem_some_iff.mp hd
      exact hdict
  exact hfails.bind _

/-- Every read fails exactly when the first refill does. -/
theorem alwaysErr_iff {d : StreamingDecoder} (h : d.poisoned = none) :
    d.AlwaysErr ↔ Fails d.refill := by
  constructor
  · intro herr
    obtain ⟨rs, d', hreads, hall⟩ := herr [1]
    rw [reads, StreamingDecoder.read, h] at hreads
    dsimp only at hreads
    cases hx : d.refill >>= fun d => d.deliver 1 with
    | ok r =>
      rw [hx, bind_ok] at hreads
      obtain ⟨p, hp, hreads⟩ := bind_eq_ok.mp hreads
      obtain ⟨rfl, -⟩ := Prod.mk.inj (Except.ok.inj hreads)
      obtain ⟨msg, hmsg⟩ := hall (.Ok r.1) (by simp)
      exact absurd hmsg (by simp)
    | error e =>
      cases e with
      | fault f => rw [hx] at hreads; exact absurd hreads (by simp [crash])
      | err e =>
        rcases bind_eq_error.mp hx with hr | ⟨d₁, -, hd⟩
        · exact ⟨e, hr⟩
        · exact absurd hd (deliver_ne_fail 1 e)
  · rintro ⟨e, he⟩ ns
    cases ns with
    | nil => exact ⟨[], d, rfl, by simp⟩
    | cons n ns =>
      refine ⟨List.replicate (ns.length + 1) (.Err e.to_string),
        { d with poisoned := some e.to_string }, ?_, fun r hr => ⟨_, List.eq_of_mem_replicate hr⟩⟩
      rw [reads, read_fail n h he, bind_ok]
      dsimp only
      rw [reads_poisoned rfl]
      rfl

/-- Without a dictionary the streaming decoder fails on a frame exactly when its window is too
large or its first blocks fail silently. -/
theorem stream_fails_iff (hsrc : src.length < 2 ^ 63) {m : Bool} {w : Nat}
    (hpos : header.header_len ≤ src.length) (h : header_at_front src m = .ok header) :
    StreamFails (with_options src m none w) ↔ 2 ^ min w 63 < header.window_size ∨
      FailsSilently src header
        (BlockState.start usizeMax (min header.window_size MAX_BLOCK_SIZE) none)
        header.header_len := by
  by_cases hwin : 2 ^ min w 63 < header.window_size
  · exact iff_of_true (Or.inl (with_options_window_fails h hwin)) (Or.inl hwin)
  obtain ⟨d, hd, hfresh, hpoison, hstate, hp⟩ := fresh_with_options hpos h (Nat.le_of_not_lt hwin)
  have hrefill : Fails d.refill ↔ FailsSilently src header d.state d.pos := by
    rw [refill, hfresh.src_eq]
    exact ⟨hfresh.fails_silently hsrc _, fun hf =>
      Fresh.refill_fails hsrc hf _ hfresh rfl rfl (by have := hfresh.pos_le; omega)⟩
  rw [← hstate, ← hp, ← hrefill, ← alwaysErr_iff hpoison, or_iff_right hwin]
  constructor
  · rintro (⟨e, he⟩ | ⟨d', hd', herr⟩)
    · rw [hd] at he; exact absurd he (ok_ne_fail _ _)
    · rw [hd] at hd'; obtain rfl := Except.ok.inj hd'; exact herr
  · exact fun herr => Or.inr ⟨d, hd, herr⟩

end Streaming

/-! ## Every entry point -/

/-- Where an entry point does not check the dictionary id, the frame fails for another reason
before a byte is delivered. -/
def EntryPoint.FailsAnyway (src : Bytes) (header : FrameHeader) (ep : EntryPoint) : Prop :=
  ∀ w ∈ ep.unchecked, 2 ^ min w 63 < header.window_size ∨
    FailsSilently src header
      (BlockState.start usizeMax (min header.window_size MAX_BLOCK_SIZE) none) header.header_len

/-- A frame that names a dictionary the caller did not supply is rejected exactly when the entry
point checks the id or the frame fails anyway. -/
theorem dictionary_id_contract (ep : EntryPoint) {src : Bytes} {header : FrameHeader}
    (hsrc : src.length < 2 ^ 63) (h : header_at_front src ep.expect_magic = .ok header)
    (hid : header.dictionary_id ≠ 0) (hdict : ∀ d ∈ ep.dict, d.id ≠ header.dictionary_id) :
    ep.Rejects src ↔ ep.FailsAnyway src header := by
  have hfits := header_fits hsrc h
  have hge := hfits.ge
  have hne : src ≠ [] := by
    rintro rfl
    have := hfits.le
    rw [List.length_nil] at this
    omega
  have hstream (w : Nat) : (∀ w' ∈ some w, 2 ^ min w' 63 < header.window_size ∨
      FailsSilently src header
        (BlockState.start usizeMax (min header.window_size MAX_BLOCK_SIZE) none)
        header.header_len) ↔
        StreamFails (StreamingDecoder.with_options src ep.expect_magic none w) := by
    rw [stream_fails_iff hsrc hfits.le h]
    simp
  have hchecked (hu : ep.unchecked = none) : ep.FailsAnyway src header := fun w hw => by
    rw [hu] at hw; simp at hw
  have hstreams {w : Nat} {d : Dictionary} (hd : d.id ≠ header.dictionary_id) :
      StreamFails (StreamingDecoder.with_options src ep.expect_magic (some d) w) :=
    Or.inl (with_options_dictionary_fails h hid hd)
  have hframe := decode_frame_fails h hid hdict
  cases ep with
  | decode_one m n => exact iff_of_true (hframe n none) (hchecked rfl)
  | decompress_magicless n => exact iff_of_true (hframe n none) (hchecked rfl)
  | decode_one_with_dict m n d => exact iff_of_true (hframe n none) (hchecked rfl)
  | decompress_magicless_with_dict d n => exact iff_of_true (hframe n none) (hchecked rfl)
  | decompress =>
    exact iff_of_true (decode_stream_fails _ hne (hframe _ none)) (hchecked rfl)
  | decompress_capped n =>
    exact iff_of_true (decode_stream_fails n hne (hframe n none)) (hchecked rfl)
  | decompress_http n =>
    exact iff_of_true (decode_stream_fails n hne (hframe n _)) (hchecked rfl)
  | decompress_with_dict d n =>
    exact iff_of_true (decode_stream_fails n hne (hframe n none)) (hchecked rfl)
  | new => exact (hstream _).symm
  | new_magicless => exact (hstream _).symm
  | with_dict d => exact iff_of_true (hstreams (hdict d rfl)) (hchecked rfl)
  | with_options m d w =>
    cases d with
    | none => exact (hstream w).symm
    | some d => exact iff_of_true (hstreams (hdict d rfl)) (hchecked rfl)

/-- A frame that names dictionary 7 and holds one raw block of one byte. -/
def dictionary_frame : Bytes := [40, 181, 47, 253, 33, 7, 1, 9, 0, 0, 97]

/-- `dictionary_id_contract` on the one-shot decoder. -/
theorem dictionary_frame_rejected : (EntryPoint.decompress_capped 1).Rejects dictionary_frame :=
  (dictionary_id_contract (.decompress_capped 1) (by decide)
    (show header_at_front dictionary_frame true = .ok ⟨7, false, some 1, 1, 7⟩ from rfl)
    (by decide) (by decide)).mpr fun w hw => by simp [EntryPoint.unchecked] at hw

/-- The streaming decoder built without a dictionary delivers the byte of that frame. -/
theorem dictionary_frame_delivered :
    header_at_front dictionary_frame true = .ok ⟨7, false, some 1, 1, 7⟩ ∧
    EntryPoint.new.dict = none ∧ ¬ EntryPoint.new.Rejects dictionary_frame := by
  refine ⟨rfl, rfl, ?_⟩
  obtain ⟨d, d', hnew, hread⟩ : ∃ d d', StreamingDecoder.new dictionary_frame = .ok d ∧
      d.reads [1] = .ok ([.Ok [97]], d') := ⟨_, _, rfl, rfl⟩
  rintro (⟨e, he⟩ | ⟨d₁, hd₁, herr⟩)
  · rw [hnew] at he; exact absurd he (ok_ne_fail _ _)
  · rw [hnew] at hd₁
    obtain rfl := Except.ok.inj hd₁
    obtain ⟨rs, d₂, hreads, hall⟩ := herr [1]
    rw [hread] at hreads
    obtain ⟨rfl, -⟩ := Prod.mk.inj (Except.ok.inj hreads)
    obtain ⟨msg, hmsg⟩ := hall (.Ok [97]) (List.mem_singleton_self _)
    exact absurd hmsg (by simp)

end ZstdPure
