import ZstdPure.Proofs.CeilingProofs
import ZstdPure.Proofs.DictionaryIdProofs
import ZstdPure.Proofs.MemoryProofs

/-!
# Streaming and one-shot decoding side by side

A streaming decoder follows the one-shot block loop without its output cap: at every point its
buffer is the one-shot buffer less the bytes already evicted. One lemma advances both by a block.
-/

namespace ZstdPure

open Outcome XxHash

/-! ## The one-shot decode without its cap -/

/-- The start of a frame without an output cap. -/
def FrameStart.uncapped (header : FrameHeader) (dict : Option Dictionary) : FrameStart :=
  ⟨header, BlockState.start usizeMax (min header.window_size MAX_BLOCK_SIZE) dict,
    header.header_len⟩

/-- The first point of its block loop. -/
def FrameStart.first (st : FrameStart) : BlockPos := ⟨st.state, st.pos, false⟩

section Uncapped

variable {src : Bytes} {expect_magic : Bool} {header : FrameHeader} {dict : Option Dictionary}
  {m : Nat}

/-- `decode_frame` on a frame whose header is known. -/
theorem decode_frame_of_header (h : header_at_front src expect_magic = .ok header)
    (hdict : check_dictionary header.dictionary_id dict = .ok ()) :
    decode_frame src expect_magic m dict none =
      frame_cap header.content_size m >>= fun cap => frame_rest src
        ⟨header, BlockState.start cap (min header.window_size MAX_BLOCK_SIZE) dict,
          header.header_len⟩ := by
  obtain ⟨rest, pos, h', hfront, hrest, hparse, hpos, rfl⟩ := decode_front_of_header h
  have hlen := header_len_le _ hparse
  rw [decode_frame_eq, frame_start, hfront, bind_ok]
  dsimp only at hdict ⊢
  rw [hrest, bind_ok, hparse, bind_ok, add_ok (by omega), bind_ok, check_window, pure_eq_ok,
    bind_ok,
    bind_assoc]
  refine bind_congr fun cap => ?_
  rw [hdict, bind_ok, pure_eq_ok, bind_ok, Nat.add_comm pos]
  rfl

/-- The one-shot decode is the block loop without its cap and the checks at the end of the
frame. -/
theorem decode_frame_uncapped {f : DecodedFrame}
    (h : header_at_front src expect_magic = .ok header)
    (hdict : check_dictionary header.dictionary_id dict = .ok ())
    (hok : decode_frame src expect_magic m dict none = .ok f)
    (hword : dictionary_len dict + f.data.length ≤ usizeMax) :
    ∃ q, BlocksIterate src (FrameStart.uncapped header dict).first q ∧
      f.data = q.state.out.drop (dictionary_len dict) ∧ f.matches_ = q.state.matches_ ∧
      frame_end src header.content_size header.has_checksum f.data q.pos = .ok f.consumed := by
  rw [decode_frame_of_header h hdict] at hok
  obtain ⟨cap, -, hok⟩ := bind_eq_ok.mp hok
  obtain ⟨p, hp, hdata, hms, hend⟩ := frame_rest_ok hok
  obtain ⟨hout, hdl⟩ := start_out cap (min header.window_size MAX_BLOCK_SIZE) dict
  obtain ⟨hout', hdl'⟩ := start_out usizeMax (min header.window_size MAX_BLOCK_SIZE) dict
  have hgrown := BlocksIterate.grown (decode_blocks_iterate hp) (by simp only; omega)
  have hlen := hgrown.out_extends.length_le
  have hdlen := congrArg List.length hdata
  rw [List.length_drop] at hdlen
  dsimp only at hlen hdata hdlen
  rw [hdl] at hdata hdlen
  obtain ⟨t', hiter, hl, hms'⟩ := BlocksIterate.lift (decode_blocks_iterate hp)
    (start_lifted cap usizeMax (min header.window_size MAX_BLOCK_SIZE) dict)
    (by simp only [start_matches]) (by simp only; omega) (by omega)
    ⟨by rw [start_max_output]; omega, by omega⟩
  have hout'' := hl.out
  rw [List.nil_append] at hout''
  exact ⟨_, hiter, by rw [hdata, ← hout''], hms.trans hms', hend⟩

/-- The converse: the block loop without its cap, and the checks at the end of the frame. -/
theorem decode_frame_of_uncapped {q : BlockPos} {consumed : Nat}
    (h : header_at_front src expect_magic = .ok header)
    (hdict : check_dictionary header.dictionary_id dict = .ok ())
    (hrun : BlocksIterate src (FrameStart.uncapped header dict).first q)
    (hend : frame_end src header.content_size header.has_checksum
      (q.state.out.drop (dictionary_len dict)) q.pos = .ok consumed)
    (hword : q.state.out.length ≤ usizeMax)
    (hm : q.state.out.length - dictionary_len dict ≤ m) :
    ∃ f, decode_frame src expect_magic m dict none = .ok f ∧
      f.data = q.state.out.drop (dictionary_len dict) := by
  have hsize : ∀ n ∈ header.content_size,
      q.state.out.length - dictionary_len dict = n := by
    rw [frame_end] at hend
    obtain ⟨_, hcheck, -⟩ := bind_eq_ok.mp hend
    rw [← List.length_drop]
    exact check_content_size_safe.ensures _ hcheck
  obtain ⟨cap, hcap, hroom⟩ : ∃ cap, frame_cap header.content_size m = .ok cap ∧
      q.state.out.length - dictionary_len dict ≤ cap := by
    cases hs : header.content_size with
    | none => exact ⟨m, rfl, hm⟩
    | some n =>
      have hn := hsize n (by rw [hs]; rfl)
      exact ⟨n, by rw [frame_cap, if_neg (by omega)]; rfl, hn.le⟩
  obtain ⟨hout, hdl⟩ := start_out cap (min header.window_size MAX_BLOCK_SIZE) dict
  obtain ⟨hout', hdl'⟩ := start_out usizeMax (min header.window_size MAX_BLOCK_SIZE) dict
  have hgrown := BlocksIterate.grown hrun (by
    simp only [FrameStart.first, FrameStart.uncapped]; omega)
  have hlen := hgrown.out_extends.length_le
  simp only [FrameStart.first, FrameStart.uncapped] at hlen
  obtain ⟨t', hiter, hl, -⟩ := BlocksIterate.lift hrun
    (start_lifted usizeMax cap (min header.window_size MAX_BLOCK_SIZE) dict)
    (by simp only [FrameStart.first, FrameStart.uncapped, start_matches])
    (by simp only [FrameStart.first, FrameStart.uncapped]; omega) (by omega)
    ⟨by rw [start_max_output]; omega, hword⟩
  have hout'' := hl.out
  rw [List.nil_append] at hout''
  refine ⟨⟨_, consumed, t'.matches_⟩, ?_, rfl⟩
  have hblocks := BlocksIterate.decode_blocks hiter
  rw [decode_frame_of_header h hdict, hcap, bind_ok, frame_rest]
  simp only [FrameStart.first, FrameStart.uncapped] at hblocks
  rw [hblocks, bind_ok, hout'', hdl, sliceFrom_ok (by omega), bind_ok, hend]
  rfl

/-- The dictionary and the cap stay as they are during the block loop. -/
theorem uncapped_at {p : BlockPos} (h : BlockAt src (.uncapped header dict) p) :
    p.state.dict_len = dictionary_len dict ∧ p.state.max_output = usizeMax ∧
      p.state.block_max = min header.window_size MAX_BLOCK_SIZE ∧
      dictionary_len dict ≤ p.state.out.length := by
  obtain ⟨hout, hdl⟩ := start_out usizeMax (min header.window_size MAX_BLOCK_SIZE) dict
  have hgrown : BlocksGrown (FrameStart.uncapped header dict).state p.state := by
    induction h with
    | start => exact .refl _
    | next _ _ hdecode ih => exact ih.block (by simp only [FrameStart.uncapped]; omega) hdecode
  have hlen := hgrown.out_extends.length_le
  refine ⟨hgrown.same.dict_len.trans hdl, hgrown.same.max_output.trans (start_max_output _ _ _),
    hgrown.same.block_max.trans (start_block_max _ _ _), ?_⟩
  simp only [FrameStart.uncapped] at hlen
  omega

/-- A point of the block loop, and the run to its end. -/
theorem BlockAt.iterate {st : FrameStart} {p q : BlockPos} (h : BlockAt src st p)
    (hrest : BlocksIterate src p q) : BlocksIterate src st.first q := by
  induction h with
  | start => exact hrest
  | next _ hlast hdecode ih => exact ih (.step (by simp [hlast]) hdecode hrest)

/-- A point of the block loop is on its run. -/
theorem BlocksIterate.from_point {st : FrameStart} {p q : BlockPos}
    (hrun : BlocksIterate src st.first q) (h : BlockAt src st p) : BlocksIterate src p q := by
  induction h with
  | start => exact hrun
  | next _ hlast hdecode ih =>
    cases ih with
    | stop hc => simp [hlast] at hc
    | step _ hbody hrest =>
      obtain rfl := Except.ok.inj (hdecode.symm.trans hbody)
      exact hrest

/-- The block loop adds its matches to those before it. -/
theorem BlocksIterate.matches_extend {p q : BlockPos} (h : BlocksIterate src p q) :
    p.state.matches_ <+: q.state.matches_ := by
  induction h with
  | stop _ => exact List.prefix_rfl
  | @step p p' q _ hbody _ ih =>
    rw [decode_block] at hbody
    obtain ⟨r, hr, hbody⟩ := bind_eq_ok.mp hbody
    obtain ⟨-, ms, hms, -⟩ := BlockState.decode_block_at_matches _ hr
    rw [← Except.ok.inj hbody] at ih
    exact (hms ▸ List.prefix_append _ _).trans ih

end Uncapped

/-! ## The relation -/

namespace StreamingDecoder

/-- `d` stands where the one-shot block loop stands at `p`, with the bytes `evicted` gone from the
front of its buffer. -/
structure Tracks (src : Bytes) (header : FrameHeader) (dict : Option Dictionary) (evicted : Bytes)
    (d : StreamingDecoder) (p : BlockPos) : Prop where
  src_eq : d.src = src
  window_size : d.window_size = header.window_size
  declared_size : d.declared_size = header.content_size
  has_checksum : d.has_checksum = header.has_checksum
  reached : BlockAt src (.uncapped header dict) p
  lifted : d.state.Lifted evicted p.state
  dict_len : d.state.dict_len = dictionary_len dict - evicted.length
  max_output : d.state.max_output = usizeMax
  read_off : d.read_off ≤ d.state.out.length
  base_le : dictionary_len dict ≤ evicted.length + d.read_off
  kept : evicted = [] ∨ header.window_size ≤ d.state.out.length
  fresh : p.state.blocks = 0 → evicted = [] ∧ d.read_off = d.state.out.length
  in_window : ∀ m ∈ p.state.matches_, 2 ≤ m.block → m.distance ≤ header.window_size + m.in_block
  hasher : d.hasher.Holds 0 (p.state.out.drop (dictionary_len dict))
  total_out : d.total_out = p.state.out.length - dictionary_len dict
  word : p.state.out.length ≤ usizeMax
  last_done : d.last_done = p.last
  pos : p.last = false → d.pos = p.pos
  finished : p.last = true → ∃ consumed, frame_end src header.content_size header.has_checksum
    (p.state.out.drop (dictionary_len dict)) p.pos = .ok consumed
  poisoned : d.poisoned = none

/-- Once a block has been decoded, no more than a window is kept of a buffer that was delivered. -/
def Settled (d : StreamingDecoder) : Prop :=
  d.read_off = d.state.out.length → d.state.blocks ≠ 0 → d.state.out.length ≤ d.window_size

/-- The bytes delivered so far. -/
def delivered (dict : Option Dictionary) (evicted : Bytes) (d : StreamingDecoder) (p : BlockPos) :
    Bytes :=
  (p.state.out.take (evicted.length + d.read_off)).drop (dictionary_len dict)

variable {src evicted : Bytes} {header : FrameHeader} {dict : Option Dictionary}
  {d : StreamingDecoder} {p : BlockPos}

theorem Tracks.length (h : Tracks src header dict evicted d p) :
    p.state.out.length = evicted.length + d.state.out.length := by
  rw [h.lifted.out, List.length_append]

theorem Tracks.dict_le (h : Tracks src header dict evicted d p) :
    d.state.dict_len ≤ d.state.out.length := by
  have h₁ := h.base_le
  have h₂ := h.read_off
  rw [h.dict_len]
  omega

/-- The checks after a block: those at the end of the frame, if it was the last one. -/
def block_end (src : Bytes) (header : FrameHeader) (last : Bool) (data : Bytes) (pos : Nat) :
    Res Nat :=
  if last then frame_end src header.content_size header.has_checksum data pos else pure pos

/-- A block decoded by a starved decoder is the next block of the one-shot loop, and what is left of
the step are the checks after the block. -/
theorem Tracks.block (h : Tracks src header dict evicted d p) (hsettled : d.Settled)
    (hstarved : d.read_off = d.state.out.length) (hlast : p.last = false)
    {s : BlockState} {pos : Nat} {last : Bool}
    (hs : d.state.decode_block_at src d.pos = .ok (s, pos, last))
    (hword : evicted.length + s.out.length ≤ usizeMax) :
    ∃ (t : BlockState) (d₁ : StreamingDecoder),
      decode_block src p = .ok ⟨t, pos, last⟩ ∧ t.out = evicted ++ s.out ∧
      d.decode_next_block =
        (block_end src header last (t.out.drop (dictionary_len dict)) pos >>=
          fun pos' => .ok { d₁ with pos := pos' }) ∧
      ∀ pos', block_end src header last (t.out.drop (dictionary_len dict)) pos = .ok pos' →
        Tracks src header dict evicted { d₁ with pos := pos' } ⟨t, pos, last⟩ ∧
          d₁.read_off = d.read_off := by
  obtain ⟨hdl, hmax, hblock, hbase⟩ := uncapped_at h.reached
  have hlen := h.length
  have husize : usizeMax = 2 ^ 64 - 1 := rfl
  have happ := BlockState.decode_block_at_ensures h.dict_le _ hs
  have hgrow := happ.length
  have hle := happ.out_extends.length_le
  have hbm : d.state.block_max ≤ MAX_BLOCK_SIZE := by
    rw [← h.lifted.block_max, hblock]
    exact Nat.min_le_right _ _
  have hbm' : MAX_BLOCK_SIZE = 131072 := rfl
  dsimp only at hgrow hle happ
  -- the one-shot block
  obtain ⟨r, hr, hstep, hpos⟩ := BlockState.decode_block_at_lift h.lifted h.dict_le
    (by omega) _ hs ⟨by simp only [List.length_append]; omega, by
      simp only [List.length_append]; omega⟩
  rw [h.pos hlast] at hr
  obtain ⟨t, pos₁, last₁⟩ := r
  obtain ⟨rfl, rfl⟩ := Prod.mk.inj hpos
  have hout := hstep.lifted.out
  dsimp only at hout hstep
  have ht : decode_block src p = .ok ⟨t, pos₁, last₁⟩ := by rw [decode_block, hr]; rfl
  have hnew : p.state.out.drop (dictionary_len dict) ++ s.out.drop d.state.out.length
      = t.out.drop (dictionary_len dict) := by
    obtain ⟨tail, htail⟩ := happ.out_extends
    rw [hout, ← htail, List.drop_left, ← List.append_assoc, ← h.lifted.out,
      List.drop_append_of_le_length hbase]
  have htlen : t.out.length = evicted.length + s.out.length := by rw [hout, List.length_append]
  -- the streaming block
  obtain ⟨hasher, hholds, hnext⟩ := decode_next_block_eq (h.src_eq.symm ▸ hs) hle h.hasher
    (by omega)
  rw [hnew] at hholds
  rw [h.total_out, add_ok (by omega), bind_ok] at hnext
  have htotal : p.state.out.length - dictionary_len dict + (s.out.length - d.state.out.length)
      = t.out.length - dictionary_len dict := by omega
  rw [htotal] at hnext
  refine ⟨t, { d with
    state := s, pos := pos₁, hasher, total_out := t.out.length - dictionary_len dict,
    last_done := last₁ }, ht, hout, ?_, fun pos' hend => ⟨?_, rfl⟩⟩
  · rw [hnext, block_end]
    cases last₁ with
    | false =>
      have hl : d.last_done = false := h.last_done.trans hlast
      simp only [Bool.false_eq_true, if_false, pure_eq_ok, bind_ok, hl]
    | true =>
      simp only [if_true]
      rw [finish_frame_eq hholds (by simp only [List.length_drop]) (by
        rw [List.length_drop]; omega)]
      simp only [h.src_eq]
      rw [h.declared_size, h.has_checksum]
  · obtain ⟨ms, hms, -, hms'⟩ := hstep.matches_
    refine ⟨h.src_eq, h.window_size, h.declared_size, h.has_checksum, .next h.reached hlast ht,
      hstep.lifted, ?_, ?_, h.read_off.trans hle, h.base_le, ?_, ?_, ?_, hholds, rfl, by
        simp only; omega, rfl, ?_, ?_, h.poisoned⟩
    · simp only [happ.same.dict_len, h.dict_len]
    · simp only [happ.same.max_output, h.max_output]
    · rcases h.kept with hk | hk
      · exact Or.inl hk
      · exact Or.inr (hk.trans hle)
    · intro h0
      have hblocks := (BlockState.decode_block_at_matches _ hr).1
      dsimp only at h0 hblocks
      omega
    · intro m hm hblocks
      rw [hms'] at hm
      rcases List.mem_append.mp hm with hm | hm
      · exact h.in_window m hm hblocks
      · obtain ⟨m', hm', rfl⟩ := List.mem_map.mp hm
        obtain ⟨hb, hh, hdist⟩ := hms m' hm'
        have hset := hsettled hstarved (by
          have : (FrameMatch.shift evicted.length m').block = m'.block := rfl
          omega)
        have hwin := h.window_size
        simp only [FrameMatch.shift]
        omega
    · rintro rfl
      rw [block_end, if_neg (by decide)] at hend
      exact (Except.ok.inj hend).symm
    · rintro rfl
      rw [block_end, if_pos rfl] at hend
      exact ⟨pos', hend⟩

/-- Compacting moves the bytes it drops to those evicted before. -/
theorem Tracks.compact (h : Tracks src header dict evicted d p) (hblocks : p.state.blocks ≠ 0) :
    ∃ evicted', Tracks src header dict evicted' (d.evict d.spare) p ∧
      (d.evict d.spare).Settled ∧
      delivered dict evicted' (d.evict d.spare) p = delivered dict evicted d p := by
  have hread := h.read_off
  have hbase := h.base_le
  have hwin := h.window_size
  have hdl := h.dict_len
  have hspare : d.spare ≤ d.read_off := Nat.min_le_left _ _
  have hspare' : d.spare ≤ d.state.out.length - d.window_size := Nat.min_le_right _ _
  have hlen : (evicted ++ d.state.out.take d.spare).length = evicted.length + d.spare := by
    rw [List.length_append, List.length_take]
    omega
  have hout := length_evict d d.spare
  refine ⟨evicted ++ d.state.out.take d.spare, ⟨h.src_eq, hwin, h.declared_size, h.has_checksum,
    h.reached, ?_, ?_, h.max_output, ?_, ?_, ?_, fun h0 => absurd h0 hblocks, h.in_window, h.hasher,
    h.total_out, h.word, h.last_done, h.pos, h.finished, h.poisoned⟩, ?_, ?_⟩
  · refine ⟨?_, h.lifted.block_max, h.lifted.huff, h.lifted.seq, h.lifted.rep, h.lifted.blocks⟩
    rw [h.lifted.out, List.append_assoc]
    simp only [evict, List.take_append_drop]
  · rw [hlen]
    simp only [evict]
    omega
  · rw [hout]
    simp only [evict]
    omega
  · rw [hlen]
    simp only [evict]
    omega
  · rw [hout]
    by_cases h0 : d.spare = 0
    · rcases h.kept with hk | hk
      · left
        rw [hk, h0]
        rfl
      · right
        omega
    · right
      omega
  · intro hall _
    rw [hout] at hall ⊢
    simp only [evict, spare] at hall ⊢
    omega
  · rw [delivered, delivered, hlen]
    congr 2
    simp only [evict]
    omega

/-- Delivering `n` more bytes. -/
theorem Tracks.advance (h : Tracks src header dict evicted d p) (n : Nat)
    (hblocks : p.state.blocks ≠ 0) :
    Tracks src header dict evicted (d.advance n) p ∧
      delivered dict evicted (d.advance n) p =
        delivered dict evicted d p ++ (d.state.out.drop d.read_off).take n := by
  have hread := h.read_off
  have hbase := h.base_le
  refine ⟨⟨h.src_eq, h.window_size, h.declared_size, h.has_checksum, h.reached, h.lifted,
    h.dict_len,
    h.max_output, by simp only [StreamingDecoder.advance]; omega,
    by simp only [StreamingDecoder.advance]; omega, h.kept, fun h0 => absurd h0 hblocks,
    h.in_window,
    h.hasher, h.total_out, h.word, h.last_done, h.pos, h.finished, h.poisoned⟩, ?_⟩
  have htake : ∀ k, p.state.out.take (evicted.length + k) = evicted ++ d.state.out.take k := by
    intro k
    rw [h.lifted.out, List.take_length_add_append]
  have hbytes : (d.state.out.drop d.read_off).take n
      = (d.state.out.drop d.read_off).take (min (d.state.out.length - d.read_off) n) := by
    rw [Nat.min_comm, ← List.length_drop, ← List.take_eq_take_min]
  rw [delivered, delivered, htake, htake]
  simp only [StreamingDecoder.advance]
  rw [hbytes, List.take_add, ← List.append_assoc, List.drop_append_of_le_length]
  rw [List.length_append, List.length_take]
  omega

/-! ## One block -/

/-- `d` has delivered `v` and stands where the one-shot block loop stands at `p`. -/
def Follows (src : Bytes) (header : FrameHeader) (dict : Option Dictionary)
    (d : StreamingDecoder) (p : BlockPos) (v : Bytes) : Prop :=
  ∃ evicted, Tracks src header dict evicted d p ∧ d.Settled ∧ v = delivered dict evicted d p

variable {v : Bytes}

theorem starved_iff (h : d.read_off ≤ d.state.out.length) :
    d.starved = true ↔ d.read_off = d.state.out.length ∧ d.last_done = false := by
  rw [starved, Bool.and_eq_true, decide_eq_true_eq, Bool.not_eq_true']
  constructor
  · rintro ⟨h₁, h₂⟩
    exact ⟨by omega, h₂⟩
  · rintro ⟨h₁, h₂⟩
    exact ⟨by omega, h₂⟩

/-- Everything decoded has been delivered. -/
theorem Tracks.delivered_all (h : Tracks src header dict evicted d p)
    (hall : d.read_off = d.state.out.length) :
    delivered dict evicted d p = p.state.out.drop (dictionary_len dict) := by
  rw [delivered, hall, ← h.length, List.take_length]

/-- The state after a block has been decoded and the buffer compacted. -/
theorem Tracks.follows (h : Tracks src header dict evicted d p) (hblocks : p.state.blocks ≠ 0) :
    d.compact = .ok (d.evict d.spare) ∧
      Follows src header dict (d.evict d.spare) p (delivered dict evicted d p) := by
  obtain ⟨evicted', h', hsettled, hdel⟩ := h.compact hblocks
  exact ⟨compact_eq h.read_off, evicted', h', hsettled, hdel.symm⟩

/-- What a block adds to the buffer leaves the delivered bytes alone. -/
theorem delivered_next (d₁ : StreamingDecoder) {t : BlockState} {s : Bytes} (pos : Nat)
    (last : Bool) (h : Tracks src header dict evicted d p)
    (hall : d.read_off = d.state.out.length) (hpre : d.state.out <+: s)
    (hout : t.out = evicted ++ s) (hread : d₁.read_off = d.read_off) :
    delivered dict evicted d₁ ⟨t, pos, last⟩ = delivered dict evicted d p := by
  obtain ⟨tail, rfl⟩ := hpre
  rw [h.delivered_all hall, delivered, hread, hall, hout, ← List.append_assoc, ← h.lifted.out,
    ← h.length, List.take_left]

/-- A block that the streaming decoder decodes is the next one of the one-shot loop. -/
theorem Follows.next_of_ok (h : Follows src header dict d p v) (hstarved : d.starved = true)
    (hslack : dictionary_len dict = 0 ∨ p.state.out.length + MAX_BLOCK_SIZE ≤ usizeMax) :
    Ensures d.decode_next_block fun d₁ => ∃ p', p.last = false ∧ decode_block src p = .ok p' ∧
      d₁.compact = .ok (d₁.evict d₁.spare) ∧
      Follows src header dict (d₁.evict d₁.spare) p' v := by
  intro d₁ hd₁
  obtain ⟨evicted, ht, hsettled, hv⟩ := h
  obtain ⟨hall, hdone⟩ := (starved_iff ht.read_off).mp hstarved
  have hlast : p.last = false := ht.last_done.symm.trans hdone
  obtain ⟨⟨⟨s, pos, last⟩, hs, -⟩, -, -, -, -⟩ := decode_next_block_ensures _ hd₁
  rw [ht.src_eq] at hs
  have happ := BlockState.decode_block_at_ensures ht.dict_le _ hs
  have hlen := ht.length
  have hle := happ.out_extends.length_le
  have hgrow := happ.length
  have hbm : d.state.block_max ≤ MAX_BLOCK_SIZE := by
    rw [← ht.lifted.block_max, (uncapped_at ht.reached).2.2.1]
    exact Nat.min_le_right _ _
  dsimp only at hle hgrow happ
  have hbm' : MAX_BLOCK_SIZE = 131072 := rfl
  have hword : evicted.length + s.out.length ≤ usizeMax := by
    rcases hslack with h0 | hslack
    · -- the count of the bytes produced did not overflow
      obtain ⟨hasher, -, hnext⟩ := decode_next_block_eq (ht.src_eq.symm ▸ hs) hle ht.hasher
        (by omega)
      rw [hnext] at hd₁
      obtain ⟨total, htotal, -⟩ := bind_eq_ok.mp hd₁
      have hfit := (add_eq_ok.mp htotal).1
      rw [ht.total_out] at hfit
      have husize : usizeMax = 2 ^ 64 - 1 := rfl
      omega
    · omega
  obtain ⟨t, d₂, hblock, hout, hnext, htracks⟩ := ht.block hsettled hall hlast hs hword
  rw [hnext] at hd₁
  obtain ⟨pos', hend, hd₁⟩ := bind_eq_ok.mp hd₁
  obtain ⟨ht', hread⟩ := htracks pos' hend
  rw [Except.ok.inj hd₁] at ht'
  have hread' : d₁.read_off = d.read_off := by rw [← Except.ok.inj hd₁]; exact hread
  have hblocks : t.blocks ≠ 0 := by
    have hb : ∃ r, p.state.decode_block_at src p.pos = .ok r ∧ r.1 = t := by
      rw [decode_block] at hblock
      obtain ⟨r, hr, hblock⟩ := bind_eq_ok.mp hblock
      exact ⟨r, hr, congrArg BlockPos.state (Except.ok.inj hblock)⟩
    obtain ⟨r, hr, rfl⟩ := hb
    have := (BlockState.decode_block_at_matches _ hr).1
    omega
  obtain ⟨hcompact, hfollows⟩ := ht'.follows hblocks
  rw [delivered_next d₁ pos last ht hall happ.out_extends hout hread', ← hv] at hfollows
  exact ⟨_, hlast, hblock, hcompact, hfollows⟩

/-- A block of the one-shot loop that reaches no further than the window is decoded by the
streaming decoder too. -/
theorem Follows.next_of_block (h : Follows src header dict d p v) (hstarved : d.starved = true)
    {p' : BlockPos} (hblock : decode_block src p = .ok p')
    (hword : p'.state.out.length ≤ usizeMax)
    (hend : p'.last = true → ∃ consumed, frame_end src header.content_size header.has_checksum
      (p'.state.out.drop (dictionary_len dict)) p'.pos = .ok consumed)
    (hwin : ∀ m ∈ p'.state.matches_, 2 ≤ m.block →
      m.distance ≤ header.window_size + m.in_block) :
    ∃ d₁, d.decode_next_block = .ok d₁ ∧ d₁.compact = .ok (d₁.evict d₁.spare) ∧
      Follows src header dict (d₁.evict d₁.spare) p' v := by
  obtain ⟨evicted, ht, hsettled, hv⟩ := h
  obtain ⟨hall, hdone⟩ := (starved_iff ht.read_off).mp hstarved
  have hlast : p.last = false := ht.last_done.symm.trans hdone
  obtain ⟨hdl, hmax, -, hbase⟩ := uncapped_at ht.reached
  have hlen := ht.length
  obtain ⟨⟨t, pos, last⟩, hr, hp'⟩ := bind_eq_ok.mp (show (p.state.decode_block_at src p.pos >>=
    fun r => pure ⟨r.1, r.2.1, r.2.2⟩) = .ok p' from hblock)
  obtain rfl := Except.ok.inj hp'
  dsimp only at hword hend hwin
  obtain ⟨hblocks, ms, hms, hmatch⟩ := BlockState.decode_block_at_matches _ hr
  dsimp only at hblocks hms
  have happ := BlockState.decode_block_at_ensures (by omega) _ hr
  have hle := happ.out_extends.length_le
  dsimp only at hle
  have husize : usizeMax = 2 ^ 64 - 1 := rfl
  -- no match of the block reaches an evicted byte
  have hfall : BlockState.Falls evicted d.state p.state t := by
    refine ⟨?_, hword, fun ms' hms' m hm => ?_⟩
    · rw [ht.max_output]
      omega
    · obtain rfl := List.append_cancel_left (hms.symm.trans hms')
      have hof := hmatch m hm
      have hb := hof.block
      have hh := hof.hist
      have hd := hof.distance
      by_cases h0 : p.state.blocks = 0
      · rw [(ht.fresh h0).1]
        simpa using hd
      · have hreach := hwin m (by rw [hms]; exact List.mem_append_right _ hm) (by omega)
        rcases ht.kept with hk | hk
        · rw [hk]
          simpa using hd
        · omega
  obtain ⟨⟨s, pos₁, last₁⟩, hs, hlift, hpos⟩ := BlockState.decode_block_at_unlift ht.lifted
    ht.dict_le (by omega) _ hr hfall
  obtain ⟨rfl, rfl⟩ := Prod.mk.inj hpos
  rw [← ht.pos hlast] at hs
  have hout := hlift.out
  dsimp only at hout
  have htlen : t.out.length = evicted.length + s.out.length := by rw [hout, List.length_append]
  obtain ⟨t', d₂, hblock', hout', hnext, htracks⟩ := ht.block hsettled hall hlast hs (by omega)
  have ht' : t' = t := by
    rw [hblock] at hblock'
    exact (congrArg BlockPos.state (Except.ok.inj hblock')).symm
  rw [ht'] at hnext htracks hout'
  obtain ⟨pos', hbend⟩ : ∃ pos', block_end src header last₁ (t.out.drop (dictionary_len dict)) pos₁
      = .ok pos' := by
    rw [block_end]
    cases last₁ with
    | false => exact ⟨_, rfl⟩
    | true => exact hend rfl
  obtain ⟨ht₂, hread⟩ := htracks pos' hbend
  have happ' := BlockState.decode_block_at_ensures ht.dict_le _ hs
  obtain ⟨hcompact, hfollows⟩ := ht₂.follows (by simp only; omega)
  have hdel := delivered_next { d₂ with pos := pos' } pos₁ last₁ ht hall
    happ'.out_extends hout' hread
  rw [hdel, ← hv] at hfollows
  refine ⟨_, ?_, hcompact, hfollows⟩
  rw [hnext, hbend, bind_ok]

end StreamingDecoder

end ZstdPure
