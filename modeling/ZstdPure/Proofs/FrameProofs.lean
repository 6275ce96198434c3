import ZstdPure.Trace
import ZstdPure.Proofs.BlockProofs
import ZstdPure.Proofs.DictProofs

/-!
# Frames

The one-shot entry points never fault, whatever the bytes of the input and of the dictionary, as
long as both together are shorter than `2 ^ 49` bytes.
-/

namespace ZstdPure

open Outcome Sequences XxHash

/-! ## Headers -/

theorem parse_field_safe {src : Bytes} {what : String} {o size : Nat} (hlen : src.length < 2 ^ 63)
    (ho : o ≤ src.length) (hs : size ≤ 8) :
    Safe (parse_field src what o size) fun p => p.1 < 2 ^ (8 * size) ∧ p.2 = o + size ∧
      p.2 ≤ src.length := by
  rw [parse_field, add_ok (by omega), bind_ok]
  refine safe_ite (fun _ => safe_fail) fun h => ?_
  rw [slice_ok (by omega) (by omega), bind_ok]
  refine Safe.ok ⟨?_, rfl, by simp only; omega⟩
  have hl : ((src.take (o + size)).drop o).length = size := by
    rw [List.length_drop, List.length_take]; omega
  have := leNat_lt ((src.take (o + size)).drop o)
  rwa [hl] at this

theorem parse_window_safe {src : Bytes} {single_segment : Bool} {o : Nat}
    (hlen : src.length < 2 ^ 63) (ho : o ≤ src.length) :
    Safe (parse_window src single_segment o) fun p =>
      p.2 = (if single_segment then o else o + 1) ∧ p.2 ≤ src.length := by
  rw [parse_window]
  refine safe_ite (fun hs => Safe.ok ⟨by rw [if_pos hs], ho⟩) fun hs => ?_
  refine safe_ite (fun _ => safe_fail) fun h => ?_
  have hb := (src[o]).toNat_lt_256
  have he : src[o].toNat >>> 3 < 32 := by rw [Nat.shiftRight_eq_div_pow]; omega
  have hm : src[o].toNat &&& 7 ≤ 7 := Nat.and_le_right
  have hpow : 2 ^ (10 + src[o].toNat >>> 3) ≤ 2 ^ 41 := Nat.pow_le_pow_right (by omega) (by omega)
  have hmul : 2 ^ (10 + src[o].toNat >>> 3) / 8 * (src[o].toNat &&& 7) ≤ 2 ^ 41 * 7 :=
    Nat.mul_le_mul ((Nat.div_le_self _ _).trans hpow) hm
  rw [get_ok (by omega), bind_ok, add_ok (by omega), bind_ok]
  dsimp only
  rw [add_ok (by omega), bind_ok, shl_exact (by omega) (by omega), bind_ok, Nat.one_mul,
    mul_ok (by omega), bind_ok, add_ok (by omega), bind_ok]
  exact Safe.ok ⟨by rw [if_neg hs], by simp only; omega⟩

/-- The lengths of a frame header. -/
structure FrameHeader.Fits (h : FrameHeader) (src : Bytes) : Prop where
  ge : 2 ≤ h.header_len
  le : h.header_len ≤ src.length

theorem parse_frame_header_safe {src : Bytes} (hlen : src.length < 2 ^ 63) :
    Safe (parse_frame_header src) fun h => h.Fits src := by
  rw [parse_frame_header]
  refine safe_ite (fun _ => safe_fail) fun h0 => ?_
  rw [get_ok (by omega), bind_ok]
  dsimp only
  refine safe_ite (fun _ => safe_fail) fun _ => ?_
  refine (parse_window_safe hlen (by omega)).bind ?_
  rintro ⟨w, o⟩ ⟨ho, ho'⟩
  dsimp only at ho ho' ⊢
  have hflag : src[0].toNat &&& 3 < 4 := Nat.and_lt_two_pow (n := 2) _ (by norm_num)
  obtain ⟨dict_id_size, hget, hsize⟩ : ∃ n, (get [0, 1, 2, 4] (src[0].toNat &&& 3) : Res Nat) =
    .ok n ∧
      n ≤ 8 := by
    generalize src[0].toNat &&& 3 = f at hflag
    interval_cases f <;> exact ⟨_, rfl, by decide⟩
  rw [hget, bind_ok]
  refine (parse_field_safe hlen ho' hsize).bind ?_
  rintro ⟨id, o₂⟩ ⟨-, ho₂, ho₂'⟩
  dsimp only at ho₂ ho₂' ⊢
  generalize hs : ((src[0].toNat >>> 5) &&& 1 != 0) = single at ho
  generalize hf : (if (src[0].toNat >>> 6) &&& 3 = 0 then if single = true then 1 else 0
    else if (src[0].toNat >>> 6) &&& 3 = 1 then 2
    else if (src[0].toNat >>> 6) &&& 3 = 2 then 4 else 8) = fcs_size
  have hfcs : fcs_size ≤ 8 := by rw [← hf]; split_ifs <;> omega
  have hge : 2 ≤ o₂ + fcs_size := by
    cases single with
    | false => simp only [Bool.false_eq_true, if_false] at ho; omega
    | true =>
      have : 1 ≤ fcs_size := by rw [← hf, if_pos rfl]; split_ifs <;> omega
      simp only [if_true] at ho; omega
  refine (parse_field_safe hlen ho₂' hfcs).bind ?_
  rintro ⟨v, o₃⟩ ⟨hv, ho₃, ho₃'⟩
  dsimp only at hv ho₃ ho₃' ⊢
  refine Safe.bind (P := fun _ => True) ?_ fun size _ => Safe.ok ⟨by simp only; omega, ho₃'⟩
  refine safe_ite (fun _ => Safe.ok trivial) fun _ => safe_ite (fun h2 => ?_) fun _ =>
    Safe.ok trivial
  subst h2
  rw [add_ok (by omega), bind_ok]
  exact Safe.ok trivial

theorem decode_front_safe {src : Bytes} {expect_magic : Bool} :
    Safe (decode_front src expect_magic) fun f =>
      match f with
      | .skippable n => 0 < n ∧ n ≤ src.length
      | .frame pos => pos ≤ src.length := by
  rw [decode_front]
  refine safe_ite (fun _ => ?_) fun _ => Safe.ok (Nat.zero_le _)
  refine safe_ite (fun _ => safe_fail) fun h4 => ?_
  obtain ⟨magic, h₁, -, -⟩ := read_u32_le_ok src 0 (by omega)
  rw [h₁, bind_ok]
  refine safe_ite (fun _ => ?_) fun _ => safe_ite (fun _ => safe_fail) fun _ =>
    Safe.ok (by omega)
  refine safe_ite (fun _ => safe_fail) fun h8 => ?_
  obtain ⟨len, h₂, -, -⟩ := read_u32_le_ok src 4 (by omega)
  rw [h₂, bind_ok]
  exact safe_ite (fun _ => safe_fail) fun _ => safe_ite (fun _ => safe_fail) fun _ =>
    Safe.ok ⟨by omega, by omega⟩

/-! ## The block loop -/

/-- The bytes a dictionary puts before the output. -/
def dictionary_len : Option Dictionary → Nat
  | none => 0
  | some d => d.content.length

/-- A dictionary that was supplied is valid. -/
def DictionaryValid (dict : Option Dictionary) : Prop := ∀ d ∈ dict, d.Valid

theorem start_valid (max_output : Nat) {block_max : Nat} {dict : Option Dictionary}
    (hb : block_max ≤ MAX_BLOCK_SIZE) (hd : DictionaryValid dict) :
    (BlockState.start max_output block_max dict).Valid := by
  have hnone : Literals.CacheValid none := fun _ h => by simp at h
  cases dict with
  | none => exact ⟨Nat.zero_le _, hb, hnone, SeqTables.default_valid⟩
  | some d =>
    have hv := hd d rfl
    rw [BlockState.start]
    cases he : d.entropy with
    | none => exact ⟨le_rfl, hb, hnone, SeqTables.default_valid⟩
    | some e =>
      have hev := hv e he
      obtain ⟨ws, max_bits, hl⟩ := hev.huff
      refine ⟨le_rfl, hb, fun t ht => ?_, ⟨hev.ll.valid le_rfl, hev.of.valid (by omega),
        hev.ml.valid le_rfl⟩⟩
      obtain rfl := Option.mem_some_iff.mp ht
      exact hl.valid

theorem start_out (max_output block_max : Nat) (dict : Option Dictionary) :
    (BlockState.start max_output block_max dict).out.length = dictionary_len dict ∧
      (BlockState.start max_output block_max dict).dict_len = dictionary_len dict := by
  cases dict with
  | none => exact ⟨rfl, rfl⟩
  | some d =>
    rw [BlockState.start]
    cases d.entropy <;> exact ⟨rfl, rfl⟩

theorem start_max_output (max_output block_max : Nat) (dict : Option Dictionary) :
    (BlockState.start max_output block_max dict).max_output = max_output := by
  cases dict with
  | none => rfl
  | some d =>
    rw [BlockState.start]
    cases d.entropy <;> rfl

theorem start_block_max (max_output block_max : Nat) (dict : Option Dictionary) :
    (BlockState.start max_output block_max dict).block_max = block_max := by
  cases dict with
  | none => rfl
  | some d =>
    rw [BlockState.start]
    cases d.entropy <;> rfl

theorem start_matches (max_output block_max : Nat) (dict : Option Dictionary) :
    (BlockState.start max_output block_max dict).matches_ = [] := by
  cases dict with
  | none => rfl
  | some d =>
    rw [BlockState.start]
    cases d.entropy <;> rfl

theorem start_blocks (max_output block_max : Nat) (dict : Option Dictionary) :
    (BlockState.start max_output block_max dict).blocks = 0 := by
  cases dict with
  | none => rfl
  | some d =>
    rw [BlockState.start]
    cases d.entropy <;> rfl

/-- The output of the blocks up to `pos` is small against the bytes consumed, `base` bytes before
the output aside. -/
structure Budget (src : Bytes) (base : Nat) (s : BlockState) (pos : Nat) : Prop where
  valid : s.Valid
  pos_le : pos ≤ src.length
  total : src.length + base < 2 ^ 49
  out : s.out.length + 2 ^ 16 ≤ base + 2 ^ 15 * pos

theorem Budget.block_safe {src : Bytes} {base pos : Nat} {s : BlockState}
    (h : Budget src base s pos) :
    Safe (s.decode_block_at src pos) fun r =>
      s.BlockRead src pos r.1 r.2.1 ∧ Budget src base r.1 r.2.1 := by
  have ht := h.total
  have ho := h.out
  refine (BlockState.decode_block_at_safe h.valid (by omega) h.pos_le fun _ =>
    Or.inr (by omega)).mono fun r hr => ?_
  have hratio := hr.ratio
  exact ⟨hr, hr.valid, hr.le, ht, by omega⟩

/-- What the block loop does. -/
structure BlocksRead (src : Bytes) (s : BlockState) (pos : Nat) (p : BlockPos) : Prop where
  valid : p.state.Valid
  same : s.SameFrame p.state
  out : s.out <+: p.state.out
  ge : pos ≤ p.pos
  le : p.pos ≤ src.length

/-- The block loop never faults under an invariant that makes every block safe. -/
theorem decode_blocks_safe_of {src : Bytes} (inv : BlockState → Nat → Prop)
    (hinv : ∀ s pos, inv s pos → Safe (s.decode_block_at src pos) fun r =>
      s.BlockRead src pos r.1 r.2.1 ∧ inv r.1 r.2.1)
    {s : BlockState} {pos : Nat} (hv : s.Valid) (hpos : pos ≤ src.length) (h : inv s pos) :
    Safe (decode_blocks src s pos) (BlocksRead src s pos) := by
  refine (Safe.loop (fun p : BlockPos => BlocksRead src s pos p ∧ inv p.state p.pos)
    (fun p => if p.last then 0 else src.length - p.pos + 1) ?_ (src.length + 2) ⟨s, pos, false⟩
    ⟨⟨hv, ⟨rfl, rfl, rfl⟩, List.prefix_rfl, le_rfl, hpos⟩, h⟩ ?_).mono fun p hp => hp.1.1
  · rintro p ⟨hread, hp⟩ hc
    have hlast : p.last = false := by simpa using hc
    rw [decode_block]
    refine (hinv _ _ hp).bind ?_
    rintro ⟨s', pos', last⟩ ⟨hr, hb⟩
    have hlt := hr.lt
    have hle := hr.le
    have hge := hread.ge
    dsimp only at hlt hle
    refine Safe.ok ⟨⟨⟨hr.valid, ⟨hr.same.1.trans hread.same.1, hr.same.2.trans hread.same.2,
      hr.same.3.trans hread.same.3⟩, hread.out.trans hr.out, by simp only; omega, hle⟩, hb⟩, ?_⟩
    rw [hlast]
    simp only [Bool.false_eq_true, if_false]
    split_ifs <;> omega
  · simp only [Bool.false_eq_true, if_false]; omega

/-- The block loop never faults. -/
theorem decode_blocks_safe {src : Bytes} {base pos : Nat} {s : BlockState}
    (h : Budget src base s pos) : Safe (decode_blocks src s pos) (BlocksRead src s pos) :=
  decode_blocks_safe_of (Budget src base) (fun _ _ h => h.block_safe) h.valid h.pos_le h

/-- An output under a ceiling that fits into the machine's word. -/
structure Capped (src : Bytes) (s : BlockState) (pos : Nat) : Prop where
  valid : s.Valid
  pos_le : pos ≤ src.length
  ceiling : s.out.length ≤ s.dict_len + s.max_output
  word : s.dict_len + s.max_output < 2 ^ 64

theorem Capped.block_safe {src : Bytes} {s : BlockState} {pos : Nat} (h : Capped src s pos)
    (hlen : src.length < 2 ^ 63) :
    Safe (s.decode_block_at src pos) fun r =>
      s.BlockRead src pos r.1 r.2.1 ∧ Capped src r.1 r.2.1 := by
  have hceil := h.ceiling
  have hword := h.word
  refine (BlockState.decode_block_at_safe h.valid hlen h.pos_le fun _ =>
    Or.inl ⟨hceil, hword⟩).mono fun r hr => ⟨hr, hr.valid, hr.le, ?_, ?_⟩
  · have hc := hr.ceiling
    rw [hr.same.dict_len, hr.same.max_output]
    omega
  · rw [hr.same.dict_len, hr.same.max_output]
    exact hword

/-! ## Frames -/

theorem check_window_safe (w : Nat) (max_window : Option Nat) :
    Safe (check_window w max_window) fun _ => True := by
  unfold check_window
  split
  · exact safe_ite (fun _ => safe_fail) fun _ => Safe.ok trivial
  · exact Safe.ok trivial

theorem frame_cap_safe (n : Option Nat) (max_output : Nat) :
    Safe (frame_cap n max_output) fun c => c ≤ max_output ∧ ∀ m ∈ n, c = m := by
  unfold frame_cap
  split
  · exact safe_ite (fun _ => safe_fail) fun _ => Safe.ok ⟨by omega, fun m hm => by simpa using hm⟩
  · exact Safe.ok ⟨le_rfl, fun m hm => by simp at hm⟩

/-- The dictionary check passes only for a frame that names no dictionary or the one supplied. -/
theorem check_dictionary_safe {id : Nat} {dict : Option Dictionary} :
    Safe (check_dictionary id dict) fun _ => id = 0 ∨ ∃ d ∈ dict, d.id = id := by
  unfold check_dictionary
  split
  · refine safe_ite (fun _ => safe_fail) fun h => Safe.ok ?_
    simp only [ne_eq, not_and, not_not] at h
    by_cases h0 : id = 0
    · exact Or.inl h0
    · exact Or.inr ⟨_, rfl, (h h0).symm⟩
  · exact safe_ite (fun _ => safe_fail) fun h => Safe.ok (Or.inl (by simpa using h))

theorem check_content_size_safe {declared : Option Nat} {n : Nat} :
    Safe (check_content_size declared n) fun _ => ∀ m ∈ declared, n = m := by
  unfold check_content_size
  split
  · exact safe_ite (fun _ => safe_fail) fun h => Safe.ok fun m hm => by
      simp only [Option.mem_def, Option.some.injEq] at hm
      simpa [hm] using h
  · exact Safe.ok fun m hm => by simp at hm

theorem verify_checksum_safe {src : Bytes} {pos computed : Nat} (hlen : src.length < 2 ^ 63)
    (hp : pos ≤ src.length) :
    Safe (verify_checksum src pos computed) fun p => p = pos + 4 ∧ p ≤ src.length := by
  rw [verify_checksum, add_ok (by omega), bind_ok]
  refine safe_ite (fun _ => safe_fail) fun h => ?_
  obtain ⟨v, h₁, -, -⟩ := read_u32_le_ok src pos (by omega)
  rw [h₁, bind_ok]
  exact safe_ite (fun _ => safe_fail) fun _ => Safe.ok ⟨rfl, by omega⟩

/-- `decode_frame` never faults when its block loop does not, and consumes at least one byte and no
more than there are. -/
theorem decode_frame_safe_of {src : Bytes} {expect_magic : Bool} {max_output : Nat}
    {dict : Option Dictionary} {max_window : Option Nat} (hlen : src.length < 2 ^ 63)
    (hblocks : ∀ cap window pos, cap ≤ max_output → 2 ≤ pos → pos ≤ src.length →
      Safe (decode_blocks src (BlockState.start cap (min window MAX_BLOCK_SIZE) dict) pos)
        (BlocksRead src (BlockState.start cap (min window MAX_BLOCK_SIZE) dict) pos)) :
    Safe (decode_frame src expect_magic max_output dict max_window) fun f =>
      0 < f.consumed ∧ f.consumed ≤ src.length := by
  rw [decode_frame]
  refine decode_front_safe.bind fun front hfront => ?_
  cases front with
  | skippable n => exact Safe.ok hfront
  | frame pos =>
    dsimp only at hfront ⊢
    rw [sliceFrom_ok hfront, bind_ok]
    refine (parse_frame_header_safe (by rw [List.length_drop]; omega)).bind fun header hh => ?_
    have hge := hh.ge
    have hle := hh.le
    rw [List.length_drop] at hle
    rw [add_ok (by omega), bind_ok]
    refine (check_window_safe _ _).bind fun _ _ => ?_
    refine (frame_cap_safe _ _).bind fun cap hcap => ?_
    refine check_dictionary_safe.bind fun _ _ => ?_
    refine (hblocks cap header.window_size (pos + header.header_len) hcap.1 (by omega)
      (by omega)).bind fun p hp => ?_
    have hpge := hp.ge
    have hple := hp.le
    have hdl := hp.valid.dict
    rw [hp.same.dict_len] at hdl
    rw [sliceFrom_ok hdl, bind_ok]
    refine check_content_size_safe.bind fun _ _ => ?_
    refine Safe.bind (P := fun n => p.pos ≤ n ∧ n ≤ src.length) ?_ fun n hn =>
      Safe.ok ⟨by simp only; omega, hn.2⟩
    refine safe_ite (fun _ => ?_) fun _ => Safe.ok ⟨le_rfl, hple⟩
    exact (verify_checksum_safe (by omega) hple).mono fun n hn => ⟨by omega, hn.2⟩

/-- `decode_frame` never faults, and consumes at least one byte and no more than there are. -/
theorem decode_frame_safe {src : Bytes} {expect_magic : Bool} {max_output : Nat}
    {dict : Option Dictionary} {max_window : Option Nat}
    (hlen : src.length + dictionary_len dict < 2 ^ 49) (hd : DictionaryValid dict) :
    Safe (decode_frame src expect_magic max_output dict max_window) fun f =>
      0 < f.consumed ∧ f.consumed ≤ src.length := by
  refine decode_frame_safe_of (by omega) fun cap window pos _ hge hle => ?_
  obtain ⟨hout, hdict⟩ := start_out cap (min window MAX_BLOCK_SIZE) dict
  have hbudget : Budget src (dictionary_len dict)
      (BlockState.start cap (min window MAX_BLOCK_SIZE) dict) pos :=
    ⟨start_valid cap (Nat.min_le_right _ _) hd, hle, hlen, by omega⟩
  exact decode_blocks_safe hbudget

/-- Without a dictionary only the ceiling has to fit into the machine's word. -/
theorem decode_frame_capped_safe {src : Bytes} {expect_magic : Bool} {max_output : Nat}
    {max_window : Option Nat} (hlen : src.length < 2 ^ 63) (hmax : max_output ≤ usizeMax) :
    Safe (decode_frame src expect_magic max_output none max_window) fun f =>
      0 < f.consumed ∧ f.consumed ≤ src.length := by
  refine decode_frame_safe_of hlen fun cap window pos hcap _ hle => ?_
  have hv : (BlockState.start cap (min window MAX_BLOCK_SIZE) none).Valid :=
    start_valid cap (Nat.min_le_right _ _) fun _ hd => by simp at hd
  have husize : usizeMax = 2 ^ 64 - 1 := rfl
  refine decode_blocks_safe_of (Capped src) (fun _ _ h => h.block_safe hlen) hv hle
    ⟨hv, hle, Nat.zero_le _, ?_⟩
  show 0 + cap < 2 ^ 64
  omega

/-- The multi-frame loop never faults when the decoder of one frame does not. -/
theorem decode_stream_safe {decode : Bytes → Nat → Res DecodedFrame} {src : Bytes}
    {max_output : Nat} (hlen : src.length < 2 ^ 63)
    (hdecode : ∀ rest m, rest.length ≤ src.length →
      Safe (decode rest m) fun f => 0 < f.consumed ∧ f.consumed ≤ rest.length) :
    Safe (decode_stream decode src max_output) fun _ => True := by
  rw [decode_stream]
  refine (Safe.loop (fun s : Nat × Bytes => s.1 ≤ src.length) (fun s => src.length - s.1) ?_ _ _
    (Nat.zero_le _) (by simp only; omega)).bind fun s _ => Safe.ok trivial
  rintro ⟨pos, out⟩ hpos hc
  have hlt : pos < src.length := by simpa using hc
  refine safe_ite (fun _ => safe_fail) fun _ => ?_
  rw [sliceFrom_ok hpos, bind_ok]
  refine (hdecode _ _ (by rw [List.length_drop]; omega)).bind fun f hf => ?_
  rw [List.length_drop] at hf
  rw [add_ok (by omega), bind_ok]
  exact Safe.ok ⟨by simp only; omega, by simp only; omega⟩

/-! ## A frame of three blocks -/

/-- A frame of fourteen bytes: four raw ones, a match of distance 4 between two literals, and a run.
-/
def three_blocks : Bytes :=
  [40, 181, 47, 253, 32, 14, 32, 0, 0, 97, 98, 99, 100, 76, 0, 0, 16, 120, 121, 1, 84, 1, 2, 2, 7,
    27, 0, 0, 122]

def three_blocks_content : Bytes :=
  [97, 98, 99, 100, 120, 98, 99, 100, 120, 98, 121, 122, 122, 122]

example :
    decode_one three_blocks true 14 = .ok ⟨three_blocks_content, 29, [⟨2, 1, 5, 4⟩]⟩ := by
  decide +kernel

end ZstdPure
