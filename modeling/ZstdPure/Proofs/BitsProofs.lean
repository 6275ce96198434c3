import ZstdPure.Bits

/-!
# The bit readers

`ReverseBitReader.Valid` is what every operation of the reverse reader keeps; under it no operation
faults. `Holds` relates a reader to the bit stack it has yet to read: reads pop the stack, refills
keep it.
-/

namespace ZstdPure

open Outcome

theorem highbit32_ok {x : Nat} (h0 : x ≠ 0) (h : x < 2 ^ 32) : highbit32 x = .ok (Nat.log2 x) := by
  have hl : Nat.log2 x < 32 := (Nat.log2_lt h0).mpr h
  have hz : leading_zeros x = 31 - Nat.log2 x := by simp [leading_zeros, h0]
  rw [highbit32, hz, sub_ok (by omega)]
  congr 1
  omega

theorem read_u64_le_ok {src : Bytes} {i : Nat} (hlen : src.length < 2 ^ 63)
    (hi : i ≤ src.length) : read_u64_le src i = .ok (leNat ((src.drop i).take 8)) := by
  rw [read_u64_le, add_ok (by omega), bind_ok]
  split_ifs with h
  · rw [slice_ok (by omega) h, bind_ok, List.take_drop]; rfl
  · rw [sliceFrom_ok hi, bind_ok, List.take_of_length_le (by simp; omega)]; rfl

/-- The eight bytes at `i` as a window over the number the stream denotes. -/
theorem leNat_window (src : Bytes) (i : Nat) :
    leNat ((src.drop i).take 8) = leNat src / 2 ^ (8 * i) % 2 ^ 64 := by
  rw [leNat_take, leNat_drop]

namespace ReverseBitReader

/-- The window of a reader is a part of its stream. -/
structure Valid (r : ReverseBitReader) : Prop where
  len : r.src.length < 2 ^ 63
  ptr : r.ptr = 0 ∨ r.ptr + 8 ≤ r.src.length
  window : r.container = leNat r.src / 2 ^ (8 * r.ptr) % 2 ^ 64

variable {r r' : ReverseBitReader} {s : BitStack} {n : Nat}

/-! ## Peeking and consuming -/

/-- The value of `peek`, whatever the number of bits consumed. -/
theorem peek_eq (h1 : 0 < n) (h : n ≤ 32) :
    r.peek n = .ok (r.container * 2 ^ (r.bits_consumed % 64) % 2 ^ 64 / 2 ^ (64 - n)) := by
  have hb : r.bits_consumed % 64 < 64 := Nat.mod_lt _ (by omega)
  have hlt : r.container * 2 ^ (r.bits_consumed % 64) % 2 ^ 64 / 2 ^ (64 - n) < 2 ^ 32 := by
    rw [Nat.div_lt_iff_lt_mul (by positivity), ← pow_add]
    exact lt_of_lt_of_le (Nat.mod_lt _ (by positivity)) (Nat.pow_le_pow_right (by omega) (by omega))
  rw [peek, if_neg (by omega), shl_ok hb, bind_ok, sub_ok (by omega), bind_ok,
    shr_ok (by omega), bind_ok, Nat.shiftLeft_eq, Nat.mod_eq_of_lt hlt]
  rfl

theorem peek_zero : r.peek 0 = .ok 0 := rfl

/-- `peek` never faults, and its value has at most `n` bits. -/
theorem peek_lt (r : ReverseBitReader) (h : n ≤ 32) : ∃ v, r.peek n = .ok v ∧ v < 2 ^ n := by
  rcases Nat.eq_zero_or_pos n with rfl | h1
  · exact ⟨0, rfl, by simp⟩
  · refine ⟨_, peek_eq h1 h, ?_⟩
    rw [Nat.div_lt_iff_lt_mul (by positivity), ← pow_add, Nat.add_sub_cancel' (by omega)]
    exact Nat.mod_lt _ (by positivity)

theorem consume_ok (h : r.bits_consumed + n < 2 ^ 32) :
    r.consume n = .ok { r with bits_consumed := r.bits_consumed + n } := by
  rw [consume, add_ok h]; rfl

theorem Valid.consume (h : r.Valid) (n : Nat) :
    { r with bits_consumed := r.bits_consumed + n : ReverseBitReader }.Valid :=
  ⟨h.len, h.ptr, h.window⟩

/-- `read` keeps validity and its value has at most `n` bits. -/
theorem read_valid (r : ReverseBitReader) (h : n ≤ 32) (hc : r.bits_consumed + n < 2 ^ 32) :
    ∃ v, r.read n = .ok (v, { r with bits_consumed := r.bits_consumed + n }) ∧ v < 2 ^ n := by
  obtain ⟨v, hv, hlt⟩ := r.peek_lt h
  refine ⟨v, ?_, hlt⟩
  rw [read, hv, bind_ok, consume_ok hc]; rfl

/-! ## Reloading -/

/-- What a reload does. -/
structure Reloaded (r : ReverseBitReader) (st : ReloadStatus) (r' : ReverseBitReader) : Prop where
  src : r'.src = r.src
  valid : r'.Valid
  consumed_le : r'.bits_consumed ≤ r.bits_consumed
  /-- No bit is skipped or read again. -/
  bits : r.bits_consumed + 8 * r'.ptr = r'.bits_consumed + 8 * r.ptr
  /-- Unless bits past the start were asked for, the window is full or at the start. -/
  fresh : st ≠ .Overflow → r'.bits_consumed ≤ 7 ∨ r'.ptr = 0
  full : st = .Unfinished → r'.bits_consumed ≤ 7
  overflow : st = .Overflow ↔ 64 < r.bits_consumed
  stay : 64 < r.bits_consumed → r' = r

/-- `reload` never faults. -/
theorem reload_spec (hr : r.Valid) : ∃ st r', r.reload = .ok (st, r') ∧ Reloaded r st r' := by
  by_cases h64 : 64 < r.bits_consumed
  · refine ⟨.Overflow, r, by rw [reload, if_pos h64]; rfl, rfl, hr, le_rfl, rfl, ?_, ?_, ?_, ?_⟩ <;>
      simp [h64]
  have hle : r.bits_consumed / 8 ≤ 8 := by omega
  by_cases hp : 8 ≤ r.ptr
  · have hptr : r.ptr + 8 ≤ r.src.length := by rcases hr.ptr with h | h <;> omega
    refine ⟨.Unfinished, { r with
      ptr := r.ptr - r.bits_consumed / 8
      container := leNat ((r.src.drop (r.ptr - r.bits_consumed / 8)).take 8)
      bits_consumed := r.bits_consumed % 8 }, ?_, ?_⟩
    · rw [reload, if_neg h64, if_pos hp, sub_ok (by omega), bind_ok,
        read_u64_le_ok hr.len (by omega)]
      rfl
    · refine ⟨rfl, ⟨hr.len, ?_, leNat_window _ _⟩, ?_, ?_, fun _ => Or.inl ?_, fun _ => ?_,
        by simp [h64], fun h => absurd h h64⟩ <;> simp only <;> omega
  by_cases h0 : r.ptr = 0
  · refine ⟨if r.bits_consumed < 64 then .EndOfBuffer else .Completed, r, ?_, rfl, hr, le_rfl, rfl,
      fun _ => Or.inr h0, ?_, ?_, ?_⟩
    · rw [reload, if_neg h64, if_neg hp, if_pos h0]; rfl
    · split_ifs <;> simp
    · split_ifs <;> simp [h64]
    · exact fun h => absurd h h64
  · have hptr : r.ptr + 8 ≤ r.src.length := by rcases hr.ptr with h | h <;> omega
    have hmul : min (r.bits_consumed / 8) r.ptr * 8 ≤ r.bits_consumed := by
      have := Nat.min_le_left (r.bits_consumed / 8) r.ptr; omega
    refine ⟨if r.ptr < r.bits_consumed / 8 then .EndOfBuffer else .Unfinished, { r with
      ptr := r.ptr - min (r.bits_consumed / 8) r.ptr
      container := leNat ((r.src.drop (r.ptr - min (r.bits_consumed / 8) r.ptr)).take 8)
      bits_consumed := r.bits_consumed - min (r.bits_consumed / 8) r.ptr * 8 }, ?_, ?_⟩
    · rw [reload, if_neg h64, if_neg hp, if_neg h0]
      simp only []
      rw [sub_ok (by omega), bind_ok, sub_ok hmul, bind_ok, read_u64_le_ok hr.len (by omega)]
      rfl
    · refine ⟨rfl, ⟨hr.len, Or.inr (by simp only; omega), leNat_window _ _⟩, ?_, ?_, ?_, ?_, ?_, ?_⟩
      · simp only; omega
      · simp only; omega
      · simp only; omega
      · simp only; split_ifs <;> simp; omega
      · simp only [h64, iff_false]; split_ifs <;> simp
      · exact fun h => absurd h h64

/-- `ensure` never faults. -/
theorem ensure_spec (hr : r.Valid) (hc : r.bits_consumed + n < 2 ^ 32) :
    ∃ r', r.ensure n = .ok r' ∧ r'.src = r.src ∧ r'.Valid ∧ r'.bits_consumed ≤ r.bits_consumed := by
  rw [ensure, add_ok hc, bind_ok]
  split_ifs with h
  · obtain ⟨st, r', hr', hs⟩ := reload_spec hr
    exact ⟨r', by rw [hr']; rfl, hs.src, hs.valid, hs.consumed_le⟩
  · exact ⟨r, rfl, rfl, hr, le_rfl⟩

/-- `read_lazy` never faults. -/
theorem read_lazy_valid (hr : r.Valid) (h : n ≤ 32) (hc : r.bits_consumed + n < 2 ^ 32) :
    ∃ v r', r.read_lazy n = .ok (v, r') ∧ v < 2 ^ n ∧ r'.src = r.src ∧ r'.Valid ∧
      r'.bits_consumed ≤ r.bits_consumed + n := by
  obtain ⟨r₁, h₁, hs, hv, hb⟩ := ensure_spec hr hc
  obtain ⟨v, h₂, hlt⟩ := r₁.read_valid h (by omega)
  exact ⟨v, { r₁ with bits_consumed := r₁.bits_consumed + n }, by rw [read_lazy, h₁, bind_ok, h₂],
    hlt, hs, hv.consume n, by simp only; omega⟩

/-! ## Construction -/

/-- The last byte of a stream holds its highest bits. -/
theorem leNat_div_last {src : Bytes} (h : src.length ≠ 0) :
    leNat src / 2 ^ (8 * (src.length - 1)) = src[src.length - 1].toNat := by
  have hd : src.drop (src.length - 1) = [src[src.length - 1]] := by
    rw [List.drop_eq_getElem_cons (by omega), List.drop_of_length_le (by omega)]
  rw [← leNat_drop, hd]
  simp

/-- The streams that a reader can be made for: the last byte holds a sentinel bit. -/
def HasSentinel (src : Bytes) : Prop := ∃ h : src.length ≠ 0, src[src.length - 1].toNat ≠ 0

/-- `new` fails exactly on an empty stream or one without a sentinel. -/
theorem new_spec {src : Bytes} (hlen : src.length < 2 ^ 63) :
    (¬ HasSentinel src ∧ ∃ msg, new src = fail (.CorruptTable msg)) ∨
    ∃ r, new src = .ok r ∧ r.src = src ∧ r.Valid ∧ r.bits_consumed ≤ 64 ∧
      ∃ h : src.length ≠ 0, src[src.length - 1].toNat ≠ 0 ∧
        r.bits_consumed + (8 * (src.length - 1) + Nat.log2 src[src.length - 1].toNat)
          = 8 * r.ptr + 64 := by
  by_cases h0 : src.length = 0
  · exact Or.inl ⟨fun h => h.1 h0, "empty bitstream", by rw [new]; simp only [h0, if_true]⟩
  have hget : (get src (src.length - 1) : Res UInt8) = .ok src[src.length - 1] := get_ok (by omega)
  by_cases hz : src[src.length - 1].toNat = 0
  · refine Or.inl ⟨fun h => h.2 hz, "final bitstream byte is zero (missing sentinel)", ?_⟩
    rw [new]
    simp only [if_neg h0]
    rw [hget, bind_ok, if_pos hz]
  have hlt := (src[src.length - 1]).toNat_lt_256
  have hlog : Nat.log2 src[src.length - 1].toNat < 8 := (Nat.log2_lt hz).mpr hlt
  have hnew : new src = (do
      if 8 ≤ src.length then
        let container ← read_u64_le src (src.length - 8)
        pure ⟨src, src.length - 8, container, 8 - Nat.log2 src[src.length - 1].toNat⟩
      else
        let missing ← sub 8 src.length
        let bits_consumed ← add 32 (8 - Nat.log2 src[src.length - 1].toNat) (missing * 8)
        pure ⟨src, 0, leNat src, bits_consumed⟩) := by
    rw [new]
    simp only [if_neg h0]
    rw [hget, bind_ok, if_neg hz, highbit32_ok hz (by omega), bind_ok, sub_ok (by omega), bind_ok]
  right
  rw [hnew]
  by_cases h8 : 8 ≤ src.length
  · rw [if_pos h8, read_u64_le_ok hlen (by omega), bind_ok]
    refine ⟨_, rfl, rfl, ⟨hlen, Or.inr (by simp only; omega), leNat_window _ _⟩,
      by simp only; omega,
      h0, hz, by simp only; omega⟩
  · rw [if_neg h8, sub_ok (by omega), bind_ok, add_ok (by omega), bind_ok]
    refine ⟨_, rfl, rfl, ⟨hlen, Or.inl rfl, ?_⟩, by simp only; omega, h0, hz, by simp only; omega⟩
    have := leNat_lt src
    simp only [Nat.mul_zero, pow_zero, Nat.div_one]
    rw [Nat.mod_eq_of_lt (lt_of_lt_of_le this (Nat.pow_le_pow_right (by omega) (by omega)))]

/-- `new` does not fault. -/
theorem new_safe {src : Bytes} (hlen : src.length < 2 ^ 63) :
    Safe (new src) fun r => r.src = src ∧ r.Valid ∧ r.bits_consumed ≤ 64 := by
  rcases new_spec hlen with ⟨-, _, h⟩ | ⟨r, h, hs, hv, hb, _⟩
  · rw [h]; exact safe_fail
  · rw [h]; exact Safe.ok ⟨hs, hv, hb⟩

/-- `new` succeeds exactly on a stream with a sentinel. -/
theorem new_eq_ok_iff {src : Bytes} (hlen : src.length < 2 ^ 63) :
    (∃ r, new src = .ok r) ↔ HasSentinel src := by
  rcases new_spec hlen with ⟨hno, msg, hmsg⟩ | ⟨r, hr, -, -, -, h0, hne, -⟩
  · refine iff_of_false (fun ⟨r, hr⟩ => ?_) hno
    rw [hmsg] at hr
    exact fail_ne_ok _ _ hr
  · exact iff_of_true ⟨r, hr⟩ ⟨h0, hne⟩

/-! ## The stack a reader holds -/

/-- The bits of the window not yet consumed. -/
theorem window_bits {c b n : Nat} (hb : b + n ≤ 64) :
    c * 2 ^ b % 2 ^ 64 / 2 ^ (64 - n) = c / 2 ^ (64 - b - n) % 2 ^ n := by
  have h64 : 2 ^ 64 = 2 ^ b * 2 ^ (64 - b) := by rw [← pow_add]; congr 1; omega
  have hn : 2 ^ (64 - n) = 2 ^ b * 2 ^ (64 - b - n) := by rw [← pow_add]; congr 1; omega
  rw [Nat.mul_comm c, h64, Nat.mul_mod_mul_left, hn, ← Nat.div_div_eq_div_mul,
    Nat.mul_div_cancel_left _ (by positivity), Nat.mod_two_pow_div (b := n) _ (by omega)]

/-- A peek within the window, in terms of the stream. -/
theorem Valid.peek_window (h : r.Valid) (hn : n ≤ 32) (hb : r.bits_consumed + n ≤ 64) :
    r.peek n = .ok (leNat r.src / 2 ^ (8 * r.ptr + 64 - r.bits_consumed - n) % 2 ^ n) := by
  rcases Nat.eq_zero_or_pos n with rfl | h1
  · rw [peek_zero, pow_zero, Nat.mod_one]
  have hexp : 8 * r.ptr + (64 - r.bits_consumed - n) = 8 * r.ptr + 64 - r.bits_consumed - n := by
    omega
  rw [peek_eq h1 hn, Nat.mod_eq_of_lt (a := r.bits_consumed) (by omega), window_bits hb, h.window,
    Nat.mod_two_pow_div (b := r.bits_consumed + n) _ (by omega),
    Nat.mod_mod_of_dvd _ (pow_dvd_pow 2 (by omega)), Nat.div_div_eq_div_mul, ← pow_add, hexp]

/-- The bits `s` are what the reader has yet to read. -/
structure Holds (r : ReverseBitReader) (s : BitStack) : Prop where
  valid : r.Valid
  consumed : r.bits_consumed ≤ 64
  len : r.bits_consumed + s.len = 8 * r.ptr + 64
  val : s.val = leNat r.src % 2 ^ s.len

theorem Holds.peek (h : r.Holds s) (hn : n ≤ 32) (hs : n ≤ s.len) (hb : r.bits_consumed + n ≤ 64) :
    r.peek n = .ok (s.top n) := by
  have hlen := h.len
  have hexp : 8 * r.ptr + 64 - r.bits_consumed - n = s.len - n := by omega
  rw [h.valid.peek_window hn hb, hexp, BitStack.top, h.val,
    Nat.mod_two_pow_div (b := n) _ (by omega)]

theorem Holds.consume (h : r.Holds s) (hs : n ≤ s.len) (hb : r.bits_consumed + n ≤ 64) :
    { r with bits_consumed := r.bits_consumed + n : ReverseBitReader }.Holds (s.pop n) where
  valid := h.valid.consume n
  consumed := hb
  len := by have := h.len; simp only [BitStack.pop_len]; omega
  val := by
    simp only [BitStack.pop_val, BitStack.pop_len]
    rw [h.val, Nat.mod_mod_of_dvd _ (pow_dvd_pow 2 (by omega))]

/-- A read within the window pops the stack. -/
theorem Holds.read (h : r.Holds s) (hn : n ≤ 32) (hs : n ≤ s.len) (hb : r.bits_consumed + n ≤ 64) :
    ∃ r', r.read n = .ok (s.top n, r') ∧ r'.Holds (s.pop n) ∧ r'.src = r.src ∧
      r'.bits_consumed = r.bits_consumed + n := by
  refine ⟨_, ?_, h.consume hs hb, rfl, rfl⟩
  rw [ReverseBitReader.read, h.peek hn hs hb, bind_ok, consume_ok (by omega)]; rfl

/-- A reload keeps the stack. -/
theorem Holds.reloaded {st : ReloadStatus} (h : r.Holds s) (hr : Reloaded r st r') :
    r'.Holds s where
  valid := hr.valid
  consumed := le_trans hr.consumed_le h.consumed
  len := by have := h.len; have := hr.bits; omega
  val := by rw [hr.src]; exact h.val

/-- After a reload any read of at most 57 bits of the stack fits the window. -/
theorem Holds.reload (h : r.Holds s) : ∃ st r', r.reload = .ok (st, r') ∧ r'.Holds s ∧
    r'.src = r.src ∧ (∀ m, m ≤ 57 → m ≤ s.len → r'.bits_consumed + m ≤ 64) ∧
    (st = .Unfinished → r'.bits_consumed ≤ 7) ∧ Reloaded r st r' := by
  obtain ⟨st, r', hr', hs⟩ := reload_spec h.valid
  have hh := h.reloaded hs
  refine ⟨st, r', hr', hh, hs.src, fun m hm hms => ?_, hs.full, hs⟩
  have hne : st ≠ .Overflow := fun e => absurd (hs.overflow.mp e) (by have := h.consumed; omega)
  have hl := hh.len
  rcases hs.fresh hne with h7 | h0 <;> omega

theorem Holds.ensure (h : r.Holds s) (hn : n ≤ 57) (hs : n ≤ s.len) :
    ∃ r', r.ensure n = .ok r' ∧ r'.Holds s ∧ r'.src = r.src ∧ r'.bits_consumed + n ≤ 64 := by
  rw [ReverseBitReader.ensure, add_ok (by have := h.consumed; omega), bind_ok]
  split_ifs with h64
  · obtain ⟨st, r', hr', hh, hsrc, hfit, -⟩ := h.reload
    exact ⟨r', by rw [hr']; rfl, hh, hsrc, hfit n hn hs⟩
  · exact ⟨r, rfl, h, rfl, by omega⟩

theorem Holds.read_lazy (h : r.Holds s) (hn : n ≤ 32) (hs : n ≤ s.len) :
    ∃ r', r.read_lazy n = .ok (s.top n, r') ∧ r'.Holds (s.pop n) ∧ r'.src = r.src := by
  obtain ⟨r₁, h₁, hh, hsrc, hb⟩ := h.ensure (by omega) hs
  obtain ⟨r₂, h₂, hh₂, hsrc₂, -⟩ := hh.read hn hs hb
  exact ⟨r₂, by rw [ReverseBitReader.read_lazy, h₁, bind_ok, h₂], hh₂, hsrc₂.trans hsrc⟩

/-- The reader of a stream with a sentinel above the bits `s` holds `s`. -/
theorem new_holds {src : Bytes} (hlen : src.length < 2 ^ 63) (hn : src.length = s.len / 8 + 1)
    (hv : leNat src = s.val + 2 ^ s.len) : ∃ r, new src = .ok r ∧ r.src = src ∧ r.Holds s := by
  have h0 : src.length ≠ 0 := by omega
  have hL : s.len = 8 * (src.length - 1) + s.len % 8 := by omega
  have hlast := leNat_div_last h0
  -- the last byte is the sentinel above the highest `s.len % 8` bits
  have hb : src[src.length - 1].toNat
      = s.val / 2 ^ (8 * (src.length - 1)) + 2 ^ (s.len % 8) := by
    rw [← hlast, hv]
    conv_lhs => rw [hL, pow_add, Nat.add_mul_div_left _ _ (by positivity)]
  have hlow : s.val / 2 ^ (8 * (src.length - 1)) < 2 ^ (s.len % 8) := by
    rw [Nat.div_lt_iff_lt_mul (by positivity), ← pow_add, Nat.add_comm, ← hL]
    exact s.lt
  have hlog : Nat.log2 src[src.length - 1].toNat = s.len % 8 := by
    rw [hb, Nat.log2_eq_iff (by positivity)]
    constructor
    · exact Nat.le_add_left _ _
    · rw [pow_succ, Nat.mul_two]; exact Nat.add_lt_add_right hlow _
  have hz : src[src.length - 1].toNat ≠ 0 := by rw [hb]; positivity
  rcases new_spec hlen with ⟨hno, -⟩ | ⟨r, h, hs, hvd, hc, _, _, hbits⟩
  · exact absurd ⟨h0, hz⟩ hno
  · refine ⟨r, h, hs, hvd, hc, by rw [hlog] at hbits; omega, ?_⟩
    rw [hs, hv, Nat.add_mod_right, Nat.mod_eq_of_lt s.lt]

/-- The first reads of a stream fit the window. -/
theorem Holds.fits_new (h : r.Holds s) (hn : r.src.length = s.len / 8 + 1) {m : Nat} (hm : m ≤ 56)
    (hs : m ≤ s.len) : r.bits_consumed + m ≤ 64 := by
  have hlen := h.len
  rcases h.valid.ptr with h0 | h8
  · omega
  · omega

/-- A reader whose bits are used up is at the start of its stream. -/
theorem Holds.at_start (h : r.Holds s) (h0 : s.len = 0) : r.ptr = 0 ∧ r.bits_consumed = 64 := by
  have hlen := h.len
  have hc := h.consumed
  omega

/-! ## Readers at one position -/

/-- Two readers with the same bits left, each within its window or at the start of the stream. -/
structure SamePosition (r r' : ReverseBitReader) : Prop where
  src : r'.src = r.src
  valid : r.Valid
  valid' : r'.Valid
  bits : r.bits_consumed + 8 * r'.ptr = r'.bits_consumed + 8 * r.ptr
  settled : r.bits_consumed ≤ 64 ∨ r.ptr = 0
  settled' : r'.bits_consumed ≤ 64 ∨ r'.ptr = 0

theorem SamePosition.symm (h : SamePosition r r') : SamePosition r' r :=
  ⟨h.src.symm, h.valid', h.valid, h.bits.symm, h.settled', h.settled⟩

theorem SamePosition.trans {r'' : ReverseBitReader} (h : SamePosition r r')
    (h' : SamePosition r' r'') : SamePosition r r'' :=
  ⟨h'.src.trans h.src, h.valid, h'.valid', by have := h.bits; have := h'.bits; omega, h.settled,
    h'.settled'⟩

theorem SamePosition.refl (h : r.Valid) (hs : r.bits_consumed ≤ 64 ∨ r.ptr = 0) :
    SamePosition r r := ⟨rfl, h, h, rfl, hs, hs⟩

/-- Reloading leaves readers at one position the same. -/
theorem SamePosition.reload (h : SamePosition r r') :
    ∃ st st' r₁, r.reload = .ok (st, r₁) ∧ r'.reload = .ok (st', r₁) ∧ SamePosition r r₁ ∧
      (r₁.bits_consumed ≤ 7 ∨ r₁.ptr = 0) ∧ r₁.bits_consumed ≤ r.bits_consumed ∧
      (st = .Unfinished → r₁.bits_consumed ≤ 7) := by
  obtain ⟨st, r₁, h₁, hs₁⟩ := reload_spec h.valid
  obtain ⟨st', r₂, h₂, hs₂⟩ := reload_spec h.valid'
  have hfresh : ∀ {r r₁ : ReverseBitReader} {st : ReloadStatus}, Reloaded r st r₁ →
      (r.bits_consumed ≤ 64 ∨ r.ptr = 0) → r₁.bits_consumed ≤ 7 ∨ r₁.ptr = 0 := by
    intro r r₁ st hs hset
    by_cases hover : 64 < r.bits_consumed
    · rw [hs.stay hover]
      exact Or.inr (by omega)
    · exact hs.fresh fun he => hover (hs.overflow.mp he)
  have hf₁ := hfresh hs₁ h.settled
  have hf₂ := hfresh hs₂ h.settled'
  -- the position determines a reader with a full window, or one at the start
  have hbits := h.bits
  have hb₁ := hs₁.bits
  have hb₂ := hs₂.bits
  have hptr : r₂.ptr = r₁.ptr := by omega
  have hcon : r₂.bits_consumed = r₁.bits_consumed := by omega
  have hsrc : r₂.src = r₁.src := hs₂.src.trans (h.src.trans hs₁.src.symm)
  have hwin : r₂.container = r₁.container := by
    rw [hs₂.valid.window, hs₁.valid.window, hptr, hsrc]
  have heq : r₂ = r₁ := by
    cases r₁
    cases r₂
    simp only at hptr hcon hsrc hwin
    rw [hptr, hcon, hsrc, hwin]
  refine ⟨st, st', r₁, h₁, heq ▸ h₂, ⟨hs₁.src, h.valid, hs₁.valid, hs₁.bits, h.settled, by omega⟩,
    hf₁,
    hs₁.consumed_le, hs₁.full⟩

/-- Readers at one position show the same bits within their windows. -/
theorem SamePosition.peek (h : SamePosition r r') (hn : n ≤ 32) (hb : r.bits_consumed + n ≤ 64)
    (hb' : r'.bits_consumed + n ≤ 64) : r.peek n = r'.peek n := by
  have hexp : 8 * r'.ptr + 64 - r'.bits_consumed - n = 8 * r.ptr + 64 - r.bits_consumed - n := by
    have hbits := h.bits
    omega
  rw [h.valid.peek_window hn hb, h.valid'.peek_window hn hb', h.src, hexp]

/-- Consuming bits keeps readers at one position. -/
theorem SamePosition.consume (h : SamePosition r r') (n : Nat)
    (hs : r.bits_consumed + n ≤ 64 ∨ r.ptr = 0) (hs' : r'.bits_consumed + n ≤ 64 ∨ r'.ptr = 0) :
    SamePosition { r with bits_consumed := r.bits_consumed + n }
      { r' with bits_consumed := r'.bits_consumed + n } :=
  ⟨h.src, h.valid.consume n, h.valid'.consume n, by have := h.bits; simp only; omega, hs, hs'⟩

end ReverseBitReader

namespace ForwardBitReader

/-- What every operation of the forward reader keeps. -/
structure Valid (r : ForwardBitReader) : Prop where
  len : r.src.length < 2 ^ 63
  idx : r.idx ≤ r.src.length
  live : r.live ≤ 64
  live_idx : r.live ≤ 8 * r.idx
  acc : r.acc < 2 ^ r.live

/-- The bits not yet read as a number, the next one least significant. -/
def value (r : ForwardBitReader) : Nat := r.acc + leNat (r.src.drop r.idx) * 2 ^ r.live

/-- The number of bits not yet read. -/
def avail (r : ForwardBitReader) : Nat := 8 * (r.src.length - r.idx) + r.live

/-- The next `n` bits, or all that are left, are buffered. -/
def Ready (r : ForwardBitReader) (n : Nat) : Prop := n ≤ r.live ∨ r.idx = r.src.length

/-- `r'` buffers the bits of `r`. -/
structure Same (r r' : ForwardBitReader) : Prop where
  src : r'.src = r.src
  valid : r'.Valid
  value : r'.value = r.value
  avail : r'.avail = r.avail

variable {r r' : ForwardBitReader} {n k : Nat}

theorem Same.refl (h : r.Valid) : Same r r := ⟨rfl, h, rfl, rfl⟩

theorem Same.trans {r'' : ForwardBitReader} (h : Same r r') (h' : Same r' r'') : Same r r'' :=
  ⟨h'.src.trans h.src, h'.valid, h'.value.trans h.value, h'.avail.trans h.avail⟩

theorem Valid.value_lt (h : r.Valid) : r.value < 2 ^ r.avail := by
  have hd := leNat_lt (r.src.drop r.idx)
  have hp := BitStack.push_lt h.acc hd
  rwa [List.length_drop, Nat.add_comm r.live] at hp

theorem Valid.avail_le (h : r.Valid) : r.avail ≤ 8 * r.src.length := by
  have := h.live_idx; have := h.idx; unfold avail; omega

/-- Buffering a byte moves it from the stream to the accumulator. -/
theorem refill_byte_spec (h : r.Valid) (hlive : r.live ≤ 56) (hidx : r.idx < r.src.length) :
    ∃ r', r.refill_byte = .ok r' ∧ Same r r' ∧ r'.live = r.live + 8 := by
  have hb := (r.src[r.idx]).toNat_lt_256
  have hlen := h.len
  have hlt : r.src[r.idx].toNat * 2 ^ r.live < 2 ^ 64 :=
    calc r.src[r.idx].toNat * 2 ^ r.live < 2 ^ 8 * 2 ^ r.live :=
          Nat.mul_lt_mul_of_pos_right hb (by positivity)
      _ = 2 ^ (8 + r.live) := (pow_add 2 8 r.live).symm
      _ ≤ 2 ^ 64 := Nat.pow_le_pow_right (by omega) (by omega)
  have hor : r.acc ||| r.src[r.idx].toNat * 2 ^ r.live
      = r.acc + r.src[r.idx].toNat * 2 ^ r.live := by
    rw [← Nat.shiftLeft_eq, lor_shl_eq_add _ _ h.acc, Nat.shiftLeft_eq]
  refine ⟨{ r with
    acc := r.acc + r.src[r.idx].toNat * 2 ^ r.live, live := r.live + 8, idx := r.idx + 1 }, ?_,
    ⟨rfl, ⟨hlen, hidx, by simp only; omega, ?_, BitStack.push_lt h.acc hb⟩, ?_, ?_⟩, rfl⟩
  · rw [refill_byte, get_ok hidx, bind_ok, shl_exact (by omega) hlt, bind_ok, add_ok (by omega),
      bind_ok, add_ok (by omega), bind_ok, hor]
    rfl
  · have := h.live_idx; simp only; omega
  · have hd : r.src.drop r.idx = r.src[r.idx] :: r.src.drop (r.idx + 1) :=
      List.drop_eq_getElem_cons hidx
    simp only [value]
    rw [hd, leNat_cons, pow_add]
    ring
  · simp only [avail]; omega

/-- `refill` never faults, and leaves the window full or the stream exhausted. -/
theorem refill_spec (h : r.Valid) :
    ∃ r', r.refill = .ok r' ∧ Same r r' ∧ (56 < r'.live ∨ r'.idx = r'.src.length) := by
  have hr : Returns r.refill fun r' => (Same r r') ∧ r'.refilling = false := by
    refine Returns.loop (Same r) (fun s => (64 - s.live) / 8) ?_ 9 r (Same.refl h) (by omega)
    intro s hs hc
    simp only [refilling, decide_eq_true_eq] at hc
    obtain ⟨s', h₁, h₂, h₃⟩ := refill_byte_spec hs.valid hc.1 hc.2
    exact ⟨s', h₁, hs.trans h₂, by omega⟩
  obtain ⟨r', h₁, h₂, h₃⟩ := hr
  refine ⟨r', h₁, h₂, ?_⟩
  simp only [refilling, decide_eq_false_iff_not] at h₃
  have := h₂.valid.idx
  omega

theorem new_spec (src : Bytes) (hlen : src.length < 2 ^ 63) :
    ∃ r, new src = .ok r ∧ r.src = src ∧ r.Valid ∧ r.value = leNat src ∧
      r.avail = 8 * src.length := by
  have hv : Valid ⟨src, 0, 0, 0⟩ := ⟨hlen, by simp, by simp, by simp, by simp⟩
  obtain ⟨r, h₁, h₂, -⟩ := refill_spec hv
  refine ⟨r, h₁, h₂.src, h₂.valid, ?_, ?_⟩
  · rw [h₂.value]; simp [value]
  · rw [h₂.avail]; simp [avail]

/-- The buffered bits are the next ones. -/
theorem Ready.acc_mod (hn : r.Ready n) : r.acc % 2 ^ n = r.value % 2 ^ n := by
  unfold value
  rcases hn with hn | hn
  · rw [← Nat.sub_add_cancel hn, pow_add, ← Nat.mul_assoc, Nat.add_mul_mod_self_right]
  · rw [hn, List.drop_length, leNat_nil, Nat.zero_mul, Nat.add_zero]

/-- `peek` returns the next `n` bits, zeros past the end. -/
theorem peek_spec (h : r.Valid) (hn : n < 32) :
    ∃ r', r.peek n = .ok (r.value % 2 ^ n, r') ∧ Same r r' ∧ r'.Ready n := by
  by_cases h0 : n = 0
  · subst h0
    exact ⟨r, by simp [peek, Nat.mod_one], Same.refl h, Or.inl (Nat.zero_le _)⟩
  obtain ⟨r', h₁, h₂, h₃⟩ : ∃ r', (if r.live < n then r.refill else pure r) = .ok r' ∧
      Same r r' ∧ r'.Ready n := by
    split_ifs with hl
    · obtain ⟨r', h₁, h₂, h₃⟩ := refill_spec h
      exact ⟨r', h₁, h₂, h₃.imp (by omega) id⟩
    · exact ⟨r, rfl, Same.refl h, Or.inl (by omega)⟩
  refine ⟨r', ?_, h₂, h₃⟩
  have h1 : 1 * 2 ^ n < 2 ^ 32 := by
    rw [Nat.one_mul]; exact Nat.pow_lt_pow_right (by omega) hn
  rw [peek, if_neg h0, h₁, bind_ok, if_neg (by omega), shl_exact hn h1, bind_ok,
    sub_ok (by have := Nat.one_le_two_pow (n := n); omega), bind_ok, Nat.one_mul,
    Nat.and_two_pow_sub_one_eq_mod, Nat.mod_mod_of_dvd _ (pow_dvd_pow 2 (by omega)),
    h₃.acc_mod, h₂.value]
  rfl

/-- `consume` drops buffered bits. -/
theorem consume_spec (h : r.Valid) (hn : n < 64) (hr : r.Ready n) :
    ∃ r', r.consume n = .ok r' ∧ r'.src = r.src ∧ r'.Valid ∧ r'.value = r.value / 2 ^ n ∧
      r'.avail = r.avail - n := by
  refine ⟨{ r with acc := r.acc / 2 ^ n, live := r.live - n }, ?_, rfl,
    ⟨h.len, h.idx, ?_, ?_, ?_⟩, ?_, ?_⟩
  · rw [consume, shr_ok hn]; rfl
  · have := h.live; simp only; omega
  · have := h.live_idx; simp only; omega
  · simp only
    rcases Nat.le_total n r.live with hl | hl
    · rw [Nat.div_lt_iff_lt_mul (by positivity), ← pow_add, Nat.sub_add_cancel hl]; exact h.acc
    · rw [Nat.sub_eq_zero_of_le hl, Nat.div_eq_of_lt]
      · simp
      · exact lt_of_lt_of_le h.acc (Nat.pow_le_pow_right (by omega) hl)
  · simp only [value]
    rcases hr with hl | hl
    · conv_rhs => rw [← Nat.sub_add_cancel hl, pow_add, ← Nat.mul_assoc,
        Nat.add_mul_div_right _ _ (by positivity)]
    · simp [hl]
  · rcases hr with hl | hl <;> simp only [avail] <;> omega

theorem Ready.mono (h : r.Ready n) (hk : k ≤ n) : r.Ready k := h.imp (by omega) id

/-- `read` returns the next `n` bits and drops them. -/
theorem read_spec (h : r.Valid) (hn : n < 32) :
    ∃ r', r.read n = .ok (r.value % 2 ^ n, r') ∧ r'.src = r.src ∧ r'.Valid ∧
      r'.value = r.value / 2 ^ n ∧ r'.avail = r.avail - n := by
  obtain ⟨r₁, h₁, hs, hr⟩ := peek_spec h hn
  obtain ⟨r₂, h₂, hs₂, hv₂, hval, hav⟩ := consume_spec hs.valid (by omega) hr
  refine ⟨r₂, ?_, hs₂.trans hs.src, hv₂, by rw [hval, hs.value], by rw [hav, hs.avail]⟩
  rw [read, h₁, bind_ok]
  simp only []
  rw [h₂]; rfl

/-- `bytes_consumed` counts the bits read, rounded up to bytes. -/
theorem bytes_consumed_spec (h : r.Valid) (hused : 8 * r.src.length - r.avail + 64 < 2 ^ 64) :
    r.bytes_consumed = .ok ((8 * r.src.length - r.avail + 7) / 8) := by
  have := h.len; have := h.idx; have := h.live_idx; have := h.live
  unfold avail at hused
  rw [bytes_consumed, mul_ok (by omega), bind_ok, sub_ok h.live_idx, bind_ok]
  have he : 8 * r.idx - r.live = 8 * r.src.length - r.avail := by unfold avail; omega
  rw [he]; rfl

end ForwardBitReader

end ZstdPure
