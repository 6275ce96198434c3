import ZstdPure.XxHash

/-!
# XXH64

The streaming hash of a sequence of pieces is the one-shot hash of their concatenation.
-/

namespace ZstdPure.XxHash

open Outcome

/-! ## Stripes -/

theorem read_u64_append {d : Bytes} {i : Nat} (h : i + 8 ≤ d.length) (e : Bytes) :
    read_u64 (d ++ e) i = read_u64 d i := by
  rw [read_u64, read_u64, List.drop_append_of_le_length (by omega),
    List.take_append_of_le_length (by rw [List.length_drop]; omega)]

theorem stripe_append {d : Bytes} (h : 32 ≤ d.length) (v : Lanes) (e : Bytes) :
    stripe v (d ++ e) = stripe v d := by
  rw [stripe, stripe, read_u64_append (by omega), read_u64_append (by omega),
    read_u64_append (by omega), read_u64_append (by omega)]

/-- The first `n` stripes do not depend on the bytes after them. -/
theorem stripes_append : ∀ (n : Nat) (v : Lanes) (d e : Bytes), 32 * n ≤ d.length →
    stripes n v (d ++ e) = stripes n v d := by
  intro n
  induction n with
  | zero => intro v d e _; rfl
  | succ n ih =>
    intro v d e h
    rw [stripes, stripes, stripe_append (by omega), List.drop_append_of_le_length (by omega)]
    exact ih _ _ _ (by rw [List.length_drop]; omega)

theorem stripes_add : ∀ (m n : Nat) (v : Lanes) (d : Bytes),
    stripes (m + n) v d = stripes n (stripes m v d) (d.drop (32 * m)) := by
  intro m
  induction m with
  | zero => intro n v d; simp [stripes]
  | succ m ih =>
    intro n v d
    rw [Nat.succ_add, stripes, ih, stripes, List.drop_drop, Nat.mul_succ, Nat.add_comm 32]

/-- The stripes of whole stripes followed by more. -/
theorem stripes_split {m : Nat} {d e : Bytes} (h : d.length = 32 * m) (n : Nat) (v : Lanes) :
    stripes (m + n) v (d ++ e) = stripes n (stripes m v d) e := by
  rw [stripes_add, stripes_append _ _ _ _ (by omega), ← h, List.drop_left]

/-! ## The streaming state -/

namespace Xxh64

/-- The whole stripes of `data` have been hashed into `s`, and the rest waits in its buffer. -/
structure Hashed (s : Xxh64) (seed : UInt64) (data : Bytes) : Prop where
  v : s.v = stripes (data.length / 32) (Lanes.new seed) data
  memsize : s.memsize = data.length % 32
  mem : s.mem.take s.memsize = data.drop (32 * (data.length / 32))
  length : s.mem.length = 32
  seed_eq : s.seed = seed

/-- `s` is the streaming state after the bytes `data`. -/
structure Holds (s : Xxh64) (seed : UInt64) (data : Bytes) : Prop extends Hashed s seed data where
  total_len : s.total_len = UInt64.ofNat data.length

theorem new_holds (seed : UInt64) : (new seed).Holds seed [] :=
  ⟨⟨rfl, rfl, rfl, List.length_replicate, rfl⟩, rfl⟩

variable {s : Xxh64} {seed : UInt64} {data : Bytes}

/-- Once the partial buffer is finished, whole stripes of `data` and of the input's first `k` bytes
have been hashed. -/
theorem fill_stripe_spec (h : s.Hashed seed data) (input : Bytes)
    (hlong : 32 ≤ s.memsize + input.length) :
    ∃ s' k, s.fill_stripe input = .ok (s', input.drop k) ∧ k ≤ input.length ∧
      (data.length + k) % 32 = 0 ∧ s'.memsize = 0 ∧ s'.mem.length = 32 ∧
      s'.total_len = s.total_len ∧ s'.seed = s.seed ∧
      s'.v = stripes ((data.length + k) / 32) (Lanes.new seed) (data ++ input.take k) := by
  have hm := h.memsize
  have hlen := h.length
  rw [fill_stripe]
  by_cases h0 : 0 < s.memsize
  · set need := 32 - s.memsize with hneed
    have hhead : (input.take need).length = need := by rw [List.length_take]; omega
    rw [if_pos h0, sub_ok (by omega), bind_ok, slice_ok (Nat.zero_le _) (by omega), bind_ok,
      List.drop_zero, copyAt_ok (by rw [hhead]; omega), bind_ok, sliceFrom_ok (by omega), bind_ok]
    refine ⟨_, need, rfl, by omega, by omega, rfl, ?_, rfl, rfl, ?_⟩
    · simp only [List.length_append, List.length_take, List.length_drop]; omega
    · have hq : (data.length + need) / 32 = data.length / 32 + 1 := by omega
      have hdrop : s.mem.drop (s.memsize + (input.take need).length) = [] :=
        List.drop_eq_nil_of_le (by omega)
      rw [hq, stripes_add, stripes_append _ _ _ _ (by omega), ← h.v,
        List.drop_append_of_le_length (by omega), ← h.mem, hdrop, List.append_nil]
      simp only [stripes, hneed]
  · rw [if_neg h0]
    refine ⟨s, 0, rfl, Nat.zero_le _, by omega, by omega, hlen, rfl, rfl, ?_⟩
    rw [List.take_zero, List.append_nil, Nat.add_zero, h.v]

/-- `update` hashes its input, if the buffer and the input have together a length. -/
theorem update_spec_of_fits (h : s.Holds seed data) (input : Bytes)
    (hlen : s.memsize + input.length < 2 ^ 64) :
    ∃ s', s.update input = .ok s' ∧ s'.Holds seed (data ++ input) := by
  have hm := h.memsize
  have hmem := h.length
  have hlt : s.memsize < 32 := by omega
  have htotal : s.total_len + UInt64.ofNat input.length
      = UInt64.ofNat (data ++ input).length := by
    rw [h.total_len, List.length_append, UInt64.ofNat_add]
  rw [update]
  dsimp only
  rw [add_ok (by omega), bind_ok]
  by_cases hshort : s.memsize + input.length < 32
  · rw [if_pos hshort, copyAt_ok (by omega), bind_ok]
    have hq : (data ++ input).length / 32 = data.length / 32 := by
      rw [List.length_append]; omega
    refine ⟨_, rfl, ⟨?_, by simp only [List.length_append]; omega, ?_, ?_, h.seed_eq⟩, htotal⟩
    · rw [hq, stripes_append _ _ _ _ (by omega)]; exact h.v
    · simp only
      have ht : (s.mem.take s.memsize).length = s.memsize := by rw [List.length_take]; omega
      rw [hq, List.drop_append_of_le_length (by omega), ← h.mem,
        List.take_append_of_le_length (by rw [List.length_append, ht]), List.take_of_length_le
        (by rw [List.length_append, ht])]
    · simp only [List.length_append, List.length_take, List.length_drop]; omega
  · rw [if_neg hshort]
    -- the total length is counted before the buffer is filled
    have h' : Hashed { s with total_len := s.total_len + UInt64.ofNat input.length } seed data :=
      ⟨h.v, h.memsize, h.mem, h.length, h.seed_eq⟩
    obtain ⟨s', k, hfill, hk, hmod, hsize, hlen', ht, hseed, hv⟩ :=
      fill_stripe_spec h' input (by simp only; omega)
    rw [hfill, bind_ok]
    dsimp only
    have hrest : (input.drop k).length = input.length - k := List.length_drop
    have hsplit : data ++ input = data ++ input.take k ++ input.drop k := by
      rw [List.append_assoc, List.take_append_drop]
    have hdone : (data ++ input.take k).length = data.length + k := by
      rw [List.length_append, List.length_take]; omega
    have hq : (data ++ input).length / 32
        = (data.length + k) / 32 + (input.drop k).length / 32 := by
      rw [List.length_append, hrest]; omega
    have hwhole : (data ++ input.take k).length = 32 * ((data.length + k) / 32) := by omega
    have hv' : stripes ((input.drop k).length / 32) s'.v (input.drop k)
        = stripes ((data ++ input).length / 32) (Lanes.new seed) (data ++ input) := by
      rw [hq, hv, hsplit, stripes_split hwhole]
    have hdrop : (input.drop k).drop (32 * ((input.drop k).length / 32))
        = (data ++ input).drop (32 * ((data ++ input).length / 32)) := by
      rw [hq, Nat.mul_add, ← List.drop_drop, hsplit, ← hwhole, List.drop_left]
    have hleft : ((input.drop k).drop (32 * ((input.drop k).length / 32))).length
        = (data ++ input).length % 32 := by
      rw [hdrop, List.length_drop]; omega
    have hseed' : s'.seed = seed := hseed.trans h.seed_eq
    by_cases hz : ((input.drop k).drop (32 * ((input.drop k).length / 32))).length = 0
    · rw [if_pos hz]
      refine ⟨_, rfl, ⟨hv', by simp only; omega, ?_, hlen', hseed'⟩, ht.trans htotal⟩
      simp only
      rw [hsize, List.take_zero, ← hdrop, List.length_eq_zero_iff.mp hz]
    · rw [if_neg hz, copyAt_ok (by omega), bind_ok]
      refine ⟨_, rfl, ⟨hv', hleft, ?_, ?_, hseed'⟩, ht.trans htotal⟩
      · simp only [List.take_zero, List.nil_append]
        rw [List.take_append_of_le_length le_rfl, List.take_of_length_le le_rfl, hdrop]
      · simp only [List.length_append, List.length_take, List.length_drop] at hleft ⊢
        omega

/-- `update` hashes its input. -/
theorem update_spec (h : s.Holds seed data) (input : Bytes) (hlen : input.length < 2 ^ 63) :
    ∃ s', s.update input = .ok s' ∧ s'.Holds seed (data ++ input) := by
  have hm := h.memsize
  exact update_spec_of_fits h input (by omega)

/-- The digest of the bytes that were hashed; the comparison is the one of the wrapping counter. -/
theorem digest_eq (h : s.Holds seed data) :
    s.digest = .ok (finish ((if 32 ≤ UInt64.ofNat data.length then
      (stripes (data.length / 32) (Lanes.new seed) data).merge else seed + PRIME64_5) +
        UInt64.ofNat data.length) (data.drop (32 * (data.length / 32)))) := by
  have hm := h.memsize
  have hmem := h.length
  rw [digest, slice_ok (Nat.zero_le _) (by omega), bind_ok, List.drop_zero, h.mem, h.v, h.seed_eq,
    h.total_len]
  rfl

/-- `digest` is the one-shot hash. -/
theorem digest_spec (h : s.Holds seed data) (hlen : data.length < 2 ^ 64) :
    s.digest = .ok (xxh64 data seed) := by
  have hle : (32 ≤ UInt64.ofNat data.length) ↔ 32 ≤ data.length := by
    rw [UInt64.le_iff_toNat_le, UInt64.toNat_ofNat_of_lt' hlen]
    rfl
  rw [digest_eq h, xxh64]
  by_cases h32 : 32 ≤ data.length
  · rw [if_pos (hle.mpr h32), if_pos h32]
  · rw [if_neg (fun hc => h32 (hle.mp hc)), if_neg h32]

/-! ## Runs -/

/-- The bytes that a call absorbs. -/
def Call.absorbed : Call → Bytes
  | .update input => input
  | .digest => []

/-- Whether a call absorbs bytes. -/
def Call.is_update : Call → Bool
  | .update _ => true
  | .digest => false

/-- The one-shot hashes, at the digest calls, of `data` and the bytes absorbed so far. -/
def one_shot_digests (seed : UInt64) : Bytes → List Call → List UInt64
  | _, [] => []
  | data, .update input :: calls => one_shot_digests seed (data ++ input) calls
  | data, .digest :: calls => xxh64 data seed :: one_shot_digests seed data calls

theorem run_spec : ∀ (calls : List Call) {s : Xxh64} {seed : UInt64} {data : Bytes},
    s.Holds seed data → (data ++ calls.flatMap Call.absorbed).length < 2 ^ 64 →
      ∃ s', s.run calls = .ok (s', one_shot_digests seed data calls) ∧
        s.run (calls.filter Call.is_update) = .ok (s', []) ∧
        s'.Holds seed (data ++ calls.flatMap Call.absorbed) := by
  intro calls
  induction calls with
  | nil =>
    intro s seed data h _
    exact ⟨s, rfl, rfl, by rwa [List.flatMap_nil, List.append_nil]⟩
  | cons c calls ih =>
    intro s seed data h hlen
    rw [List.flatMap_cons, ← List.append_assoc] at hlen
    cases c with
    | update input =>
      have hm := h.memsize
      have hle : data.length + input.length < 2 ^ 64 := by
        simp only [Call.absorbed, List.length_append] at hlen
        omega
      obtain ⟨s₁, hupdate, h₁⟩ := update_spec_of_fits h input (by omega)
      obtain ⟨s', hrun, hrun', h'⟩ := ih h₁ hlen
      refine ⟨s', ?_, ?_, by rwa [List.flatMap_cons, ← List.append_assoc]⟩
      · rw [run, hupdate, bind_ok, hrun, one_shot_digests]
      · rw [List.filter_cons_of_pos (by rfl), run, hupdate, bind_ok, hrun']
    | digest =>
      simp only [Call.absorbed, List.append_nil] at hlen
      have hdata : data.length < 2 ^ 64 := by
        rw [List.length_append] at hlen
        omega
      obtain ⟨s', hrun, hrun', h'⟩ := ih h hlen
      refine ⟨s', ?_, ?_, h'⟩
      · rw [run, digest_spec h hdata, bind_ok, hrun, bind_ok]
        rfl
      · rw [List.filter_cons_of_neg (by decide), hrun']

/-- Every digest of a streaming hash, wherever it is taken, is the one-shot hash of the bytes
absorbed before it, and taking it changes nothing. -/
theorem streaming_eq_one_shot_hash (seed : UInt64) (calls : List Call)
    (hlen : (calls.flatMap Call.absorbed).length < 2 ^ 64) :
    ∃ s, (new seed).run calls = .ok (s, one_shot_digests seed [] calls) ∧
      (new seed).run (calls.filter Call.is_update) = .ok (s, []) ∧
      s.digest = .ok (xxh64 (calls.flatMap Call.absorbed) seed) := by
  obtain ⟨s, hrun, hrun', h⟩ := run_spec calls (new_holds seed) hlen
  exact ⟨s, hrun, hrun', digest_spec h hlen⟩

/-- `streaming_eq_one_shot_hash` on 75 bytes with two digests in between: a stripe is completed by
two updates, and one update holds a stripe and the rest of another. -/
theorem streaming_eq_one_shot_hash_stripes :
    ∃ s, (new 7).run [.update (List.replicate 30 1), .update [2, 3, 4], .digest,
          .update (List.replicate 40 5), .digest, .update [], .update [6, 7]]
        = .ok (s, [xxh64 (List.replicate 30 1 ++ [2, 3, 4]) 7,
            xxh64 (List.replicate 30 1 ++ [2, 3, 4] ++ List.replicate 40 5) 7]) ∧
      s.digest = .ok (xxh64 (List.replicate 30 1 ++ [2, 3, 4] ++ List.replicate 40 5 ++ [6, 7])
        7) := by
  obtain ⟨s, hrun, -, hdigest⟩ := streaming_eq_one_shot_hash 7
    [.update (List.replicate 30 1), .update [2, 3, 4], .digest, .update (List.replicate 40 5),
      .digest,
      .update [], .update [6, 7]] (by decide)
  exact ⟨s, hrun, hdigest⟩

end Xxh64

end ZstdPure.XxHash
