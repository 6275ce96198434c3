import ZstdPure.Proofs.StreamingProofs

/-!
# Totality of the decoder

The decoding entry points return a value or an error for all inputs shorter than `2 ^ 49` bytes. At
`2 ^ 49 + 2` bytes the streaming decoder can overflow its count of the bytes produced: a frame of
`2 ^ 47` four-byte RLE blocks of 128 KiB each has `2 ^ 64` bytes of output.
-/

namespace ZstdPure

open Outcome Sequences XxHash

/-- The optional dictionaries a caller can build from `bytes`. -/
inductive DictionaryFrom (bytes : Bytes) : Option Dictionary → Prop
  | none : DictionaryFrom bytes none
  | raw : DictionaryFrom bytes (some (Dictionary.raw bytes))
  | parsed {d : Dictionary} (h : Dictionary.parse bytes = .ok d) : DictionaryFrom bytes (some d)

/-- Every decoding entry point returns a value or an error on these inputs, and so does every read
into buffers of the lengths `ns`. -/
structure TotalOn (src bytes : Bytes) (dict : Option Dictionary) (expect_magic : Bool)
    (max_output window_log_max : Nat) (ns : List Nat) : Prop where
  parse : NoFault (Dictionary.parse bytes)
  decode_one_with_dict : NoFault (decode_one_with_dict src expect_magic max_output dict)
  decompress_capped : NoFault (decompress_capped src max_output)
  decompress_http : NoFault (decompress_http src max_output)
  with_options : NoFault (StreamingDecoder.with_options src expect_magic dict window_log_max)
  reads : ∀ d, StreamingDecoder.with_options src expect_magic dict window_log_max = .ok d →
    NoFault (d.reads ns)

theorem DictionaryFrom.valid {bytes : Bytes} {dict : Option Dictionary}
    (h : DictionaryFrom bytes dict) (hlen : bytes.length < 2 ^ 55) :
    DictionaryValid dict ∧ dictionary_len dict ≤ bytes.length := by
  cases h with
  | none => exact ⟨fun d hd => by simp at hd, Nat.zero_le _⟩
  | raw =>
    refine ⟨fun d hd => ?_, le_rfl⟩
    obtain rfl := Option.mem_some_iff.mp hd
    exact Dictionary.raw_valid bytes
  | parsed h =>
    obtain ⟨hv, hl⟩ := (Dictionary.parse_safe hlen).of_ok h
    refine ⟨fun d hd => ?_, hl⟩
    obtain rfl := Option.mem_some_iff.mp hd
    exact hv

/-- The decoder is total on inputs shorter than `2 ^ 49` bytes. -/
theorem decoder_total {src bytes : Bytes} {dict : Option Dictionary} (expect_magic : Bool)
    (max_output window_log_max : Nat) (ns : List Nat) (hdict : DictionaryFrom bytes dict)
    (hlen : src.length + bytes.length < 2 ^ 49) :
    TotalOn src bytes dict expect_magic max_output window_log_max ns := by
  obtain ⟨hd, hle⟩ := hdict.valid (by omega)
  have hnone : DictionaryValid none := fun d hd => by simp at hd
  have hframe : ∀ (rest : Bytes) (m : Nat) (w : Option Nat), rest.length ≤ src.length →
      Safe (decode_frame rest true m none w) fun f => 0 < f.consumed ∧ f.consumed ≤ rest.length :=
    fun rest m w h => decode_frame_safe (by simp only [dictionary_len]; omega) hnone
  have hwith := StreamingDecoder.with_options_safe expect_magic window_log_max
    (show src.length + dictionary_len dict < 2 ^ 49 by omega) hd
  refine ⟨(Dictionary.parse_safe (by omega)).noFault, ?_, ?_, ?_, hwith.noFault, fun d h => ?_⟩
  · exact (decode_frame_safe (by omega) hd).noFault
  · exact (decode_stream_safe (by omega) fun rest m h => hframe rest m none h).noFault
  · exact (decode_stream_safe (by omega) fun rest m h => hframe rest m _ h).noFault
  · exact (StreamingDecoder.reads_safe ns (hwith.of_ok h)).safe.noFault

/-- `decoder_total` on the four bytes of a skippable frame cut short. -/
theorem decoder_total_skippable : TotalOn [80, 42, 77, 24] [1] (some (Dictionary.raw [1])) true 9 27
    [3] :=
  decoder_total true 9 27 [3] .raw (by decide)

/-! ## A stream of `2 ^ 64` bytes -/

/-- An RLE block of 128 KiB of zeros that is not the last. -/
def zeros_block : Bytes := [2, 0, 16, 0]

/-- A magicless frame header with a window of 128 KiB, and `n` blocks of zeros. -/
def zeros_frame (n : Nat) : Bytes := [0, 56] ++ (List.replicate n zeros_block).flatten

theorem drop_zeros_frame {n k : Nat} (h : k ≤ n) :
    (zeros_frame n).drop (2 + 4 * k) = (List.replicate (n - k) zeros_block).flatten := by
  have hsplit : (List.replicate n zeros_block).flatten
      = (List.replicate k zeros_block).flatten ++ (List.replicate (n - k) zeros_block).flatten := by
    rw [← List.flatten_append, List.replicate_append_replicate, Nat.add_sub_cancel' h]
  have hlen : (List.replicate k zeros_block).flatten.length = 4 * k := by
    simp [zeros_block, Nat.mul_comm]
  rw [zeros_frame, ← List.drop_drop, List.drop_append_of_le_length (by simp), hsplit, ← hlen]
  simp

theorem length_zeros_frame (n : Nat) : (zeros_frame n).length = 2 + 4 * n := by
  simp [zeros_frame, zeros_block]; omega

theorem read_header_zeros_block (rest : Bytes) :
    read_header (zeros_block ++ rest) = .ok ⟨false, 1, 131072⟩ :=
  read_header_cons 2 0 16 (0 :: rest)

namespace StreamingDecoder

/-- The decoder of `zeros_frame n` after `k` reads of one block each. -/
structure Delivered (n k : Nat) (d : StreamingDecoder) : Prop where
  src : d.src = zeros_frame n
  pos : d.pos = 2 + 4 * k
  window_size : d.window_size = 131072
  out : d.state.out.length ≤ 131072
  dict_len : d.state.dict_len = 0
  max_output : d.state.max_output = usizeMax
  block_max : d.state.block_max = 131072
  read_off : d.read_off = d.state.out.length
  last_done : d.last_done = false
  hasher : ∃ data, d.hasher.Holds 0 data
  total_out : d.total_out = 131072 * k
  poisoned : d.poisoned = none

variable {n k : Nat} {d : StreamingDecoder}

/-- The next block is one of zeros. -/
theorem Delivered.block (h : d.Delivered n k) (hk : k < n) (hn : n < 2 ^ 60) :
    d.state.decode_block_at d.src d.pos = .ok ({ d.state with
      blocks := d.state.blocks + 1, out := d.state.out ++ List.replicate 131072 0 },
      2 + 4 * (k + 1), false) := by
  have hm : n - k = n - k - 1 + 1 := by omega
  have hrest : (d.src.drop d.pos) = zeros_block ++
    (List.replicate (n - k - 1) zeros_block).flatten := by
    rw [h.src, h.pos, drop_zeros_frame hk.le, hm, List.replicate_succ, List.flatten_cons]
    rfl
  have hlen : d.src.length = 2 + 4 * n := by rw [h.src, length_zeros_frame]
  have hpos := h.pos
  have hout := h.out
  have hget : (get d.src (d.pos + 3) : Res UInt8) = .ok 0 := by
    rw [get_ok (by omega)]
    have : (d.src.drop d.pos)[3]? = some 0 := by rw [hrest]; rfl
    rw [List.getElem?_drop, List.getElem?_eq_getElem (by omega)] at this
    rw [Option.some.inj this]
  have hheader : read_header (d.src.drop d.pos) = .ok ⟨false, 1, 131072⟩ := by
    rw [hrest]; exact read_header_zeros_block _
  have hceil : BlockState.check_ceiling { d.state with blocks := d.state.blocks + 1 } 131072
      = .ok () := by
    have husize : usizeMax = 2 ^ 64 - 1 := rfl
    rw [BlockState.check_ceiling, BlockState.output_len, h.dict_len, sub_ok (Nat.zero_le _),
      bind_ok, h.max_output, if_neg (by simp only; omega)]
    rfl
  have husize : usizeMax = 2 ^ 64 - 1 := rfl
  have hblock := h.block_max
  rw [BlockState.decode_block_at, sliceFrom_ok (by omega), bind_ok, hheader, bind_ok,
    if_neg (by simp only; omega), if_neg (by omega)]
  dsimp only
  rw [if_neg (by omega), if_pos rfl, if_neg (by omega), hget, bind_ok, BlockState.decode_rle, hceil,
    bind_ok, pure_eq_ok, bind_ok, add_ok (by omega), bind_ok, hpos]
  rfl

/-- The next block decoded, with the count of the bytes produced still to be updated. -/
theorem Delivered.next (h : d.Delivered n k) (hk : k < n) (hn : n < 2 ^ 60) :
    ∃ hasher data, Xxh64.Holds hasher 0 data ∧ d.decode_next_block =
      (add 64 (131072 * k) 131072 >>= fun total_out => .ok { d with
        state := { d.state with
          blocks := d.state.blocks + 1, out := d.state.out ++ List.replicate 131072 0 }
        pos := 2 + 4 * (k + 1), hasher, total_out }) := by
  obtain ⟨data, hdata⟩ := h.hasher
  obtain ⟨hasher, hupdate, hholds⟩ :=
    Xxh64.update_spec hdata (List.replicate 131072 0)
      (by rw [List.length_replicate]; omega)
  refine ⟨hasher, _, hholds, ?_⟩
  rw [decode_next_block, h.block hk hn, bind_ok]
  dsimp only
  rw [sliceFrom_ok (by rw [List.length_append]; omega), bind_ok, List.drop_left, hupdate, bind_ok,
    List.length_replicate,
    h.total_out]
  rfl

/-- A read of one block delivers it. -/
theorem Delivered.read (h : d.Delivered n k) (hk : k < n) (hn : n < 2 ^ 60)
    (hfit : 131072 * (k + 1) < 2 ^ 64) :
    ∃ r d', d.read 131072 = .ok (r, d') ∧ d'.Delivered n (k + 1) := by
  obtain ⟨hasher, data, hholds, hnext⟩ := h.next hk hn
  rw [add_ok (by omega), bind_ok] at hnext
  have hstarved : d.starved = true := by simp [starved, h.read_off, h.last_done]
  have hout := h.out
  set d₁ : StreamingDecoder := { d with
    state := { d.state with
      blocks := d.state.blocks + 1, out := d.state.out ++ List.replicate 131072 0 }
    pos := 2 + 4 * (k + 1), hasher, total_out := 131072 * k + 131072 } with hd₁
  have hlen₁ : d₁.state.out.length = d.state.out.length + 131072 := by
    rw [hd₁]; simp only [List.length_append, List.length_replicate]
  have hoff₁ : d₁.read_off = d.state.out.length := h.read_off
  have hwin₁ : d₁.window_size = 131072 := h.window_size
  -- everything before the block has been delivered, so compacting leaves the block alone
  have hspare : d₁.spare = d.state.out.length := by rw [spare, hoff₁, hlen₁, hwin₁]; omega
  have hlen₂ : (d₁.evict d₁.spare).state.out.length = 131072 := by
    rw [length_evict, hlen₁, hspare]; omega
  have hoff₂ : (d₁.evict d₁.spare).read_off = 0 := by
    rw [evict]; simp only; omega
  have hrefill : d.refill = .ok (d₁.evict d₁.spare) := by
    rw [refill, loop_succ_of hstarved, hnext, bind_ok, compact_eq (by omega), bind_ok, loop_of_not]
    simp only [starved, hlen₂, hoff₂]; rfl
  have hdeliver := deliver_eq (d := d₁.evict d₁.spare) (by omega) (by omega) 131072
  rw [if_neg (by omega)] at hdeliver
  refine ⟨_, _, read_ok h.poisoned hrefill hdeliver, ?_⟩
  have hspare₂ : ((d₁.evict d₁.spare).advance 131072).spare = 0 := by
    have hwin₂ : (d₁.evict d₁.spare).window_size = 131072 := h.window_size
    simp only [spare, advance] at hlen₂ hwin₂ ⊢
    omega
  rw [hspare₂]
  refine ⟨h.src, rfl, h.window_size, ?_, ?_, h.max_output, h.block_max, ?_, h.last_done,
    ⟨_, hholds⟩, ?_, h.poisoned⟩
  · rw [length_evict]; exact (Nat.sub_le _ _).trans hlen₂.le
  · simp only [evict, advance, hd₁, h.dict_len, Nat.zero_sub]
  · rw [length_evict]
    simp only [evict, advance] at hlen₂ hoff₂ ⊢
    omega
  · simp only [evict, advance, hd₁]; omega

/-- The read after `2 ^ 47 - 1` blocks overflows the count of the bytes produced. -/
theorem Delivered.overflow (h : d.Delivered n (2 ^ 47 - 1)) (hn : 2 ^ 47 ≤ n)
    (hn' : n < 2 ^ 60) :
    d.read 131072 = crash .overflow := by
  obtain ⟨hasher, data, -, hnext⟩ := h.next (by omega) hn'
  have hstarved : d.starved = true := by simp [starved, h.read_off, h.last_done]
  have hrefill : d.refill = crash .overflow := by
    rw [refill, loop_succ_of hstarved, hnext]
    rfl
  rw [StreamingDecoder.read, h.poisoned, hrefill]
  rfl

theorem Delivered.reads (hn : n < 2 ^ 60) : ∀ (j : Nat) {k : Nat} {d : StreamingDecoder},
    d.Delivered n k → k + j ≤ n → 131072 * (k + j) < 2 ^ 64 →
    ∃ rs d', d.reads (List.replicate j 131072) = .ok (rs, d') ∧ d'.Delivered n (k + j) := by
  intro j
  induction j with
  | zero => intro k d h _ _; exact ⟨[], d, rfl, h⟩
  | succ j ih =>
    intro k d h hk hfit
    obtain ⟨r, d₁, h₁, hd₁⟩ := h.read (by omega) hn (by omega)
    obtain ⟨rs, d₂, h₂, hd₂⟩ := ih hd₁ (by omega) (by omega)
    refine ⟨r :: rs, d₂, ?_, by rwa [Nat.add_right_comm] at hd₂⟩
    rw [List.replicate_succ, StreamingDecoder.reads, h₁, bind_ok]
    dsimp only
    rw [h₂]
    rfl

/-- A fault of the read after a schedule is a fault of the longer schedule. -/
theorem reads_concat_crash {m : Nat} {f : Fault} : ∀ (ms : List Nat) {d d' : StreamingDecoder}
    {rs : List ReadResult}, d.reads ms = .ok (rs, d') → d'.read m = crash f →
    d.reads (ms ++ [m]) = crash f := by
  intro ms
  induction ms with
  | nil =>
    intro d d' rs h hm
    obtain ⟨-, rfl⟩ := Prod.mk.inj (Except.ok.inj h)
    rw [List.nil_append, StreamingDecoder.reads, hm, bind_crash]
  | cons n ns ih =>
    intro d d' rs h hm
    rw [StreamingDecoder.reads, bind_eq_ok] at h
    obtain ⟨⟨r, d₁⟩, h₁, h⟩ := h
    rw [bind_eq_ok] at h
    obtain ⟨⟨rs', d₂⟩, h₂, h⟩ := h
    obtain ⟨-, rfl⟩ := Prod.mk.inj (Except.ok.inj h)
    rw [List.cons_append, StreamingDecoder.reads, h₁, bind_ok]
    dsimp only
    rw [ih h₂ hm, bind_crash]

/-- The decoder of a frame of zeros, before any read. -/
theorem with_options_zeros_frame :
    ∃ d, with_options (zeros_frame n) false none 27 = .ok d ∧ d.Delivered n 0 := by
  have hlen := length_zeros_frame n
  have hheader : parse_frame_header (zeros_frame n) = .ok ⟨2, false, none, 131072, 0⟩ := by
    have h0 : (get (zeros_frame n) 0 : Res UInt8) = .ok 0 := get_ok (by omega)
    have h1 : (get (zeros_frame n) 1 : Res UInt8) = .ok 56 := get_ok (by omega)
    have hfield : ∀ what, parse_field (zeros_frame n) what 2 0 = .ok (0, 2) := fun what => by
      rw [parse_field, add_ok (by omega), bind_ok, if_neg (by omega),
        slice_ok (by omega) (by omega), bind_ok]
      rfl
    have hwindow : parse_window (zeros_frame n) false 1 = .ok (some 131072, 2) := by
      rw [parse_window, if_neg (by decide), if_neg (by omega), h1]
      rfl
    rw [parse_frame_header, if_neg (by omega), h0, bind_ok]
    dsimp only
    rw [if_neg (by decide), show ((0 : UInt8).toNat >>> 5 &&& 1 != 0) = false from rfl, hwindow,
      bind_ok]
    dsimp only
    rw [show (get [0, 1, 2, 4] ((0 : UInt8).toNat &&& 3) : Res Nat) = .ok 0 from rfl, bind_ok,
      hfield,
      bind_ok]
    dsimp only
    rw [show (0 : UInt8).toNat >>> 6 &&& 3 = 0 from rfl]
    simp only [if_true, Bool.false_eq_true, if_false]
    rw [hfield, bind_ok]
    rfl
  refine ⟨
    { src := zeros_frame n, pos := 2, window_size := 131072
      state := BlockState.start usizeMax 131072 none, read_off := 0, last_done := false
      has_checksum := false, hasher := Xxh64.new 0, total_out := 0, declared_size := none
      poisoned := none }, ?_, ?_⟩
  · rw [with_options, if_neg (by decide), frame_header_magicless, hheader, bind_ok,
      shl_exact (by decide) (by decide), bind_ok, if_neg (by decide)]
    rfl
  · exact ⟨rfl, rfl, rfl, Nat.zero_le _, rfl, rfl, rfl, rfl, rfl, ⟨[], Xxh64.new_holds 0⟩, rfl, rfl⟩

end StreamingDecoder

/-- `2 ^ 49 + 2` bytes can overflow the count of the bytes produced. -/
theorem zeros_frame_overflows :
    ¬ TotalOn (zeros_frame (2 ^ 47)) [] none false 0 27 (List.replicate (2 ^ 47) 131072) := by
  intro h
  obtain ⟨d, hd, h₀⟩ := StreamingDecoder.with_options_zeros_frame (n := 2 ^ 47)
  obtain ⟨rs, d', h₁, hd'⟩ := h₀.reads (by omega) (2 ^ 47 - 1) (by omega) (by omega)
  rw [Nat.zero_add] at hd'
  have hcrash := StreamingDecoder.reads_concat_crash _ h₁ (hd'.overflow le_rfl (by omega))
  rw [← List.replicate_succ', Nat.sub_add_cancel (by omega)] at hcrash
  exact h.reads d hd _ hcrash

end ZstdPure
