import ZstdPure.Encode.Finder
import ZstdPure.Proofs.FastProofs
import ZstdPure.Proofs.OptParseProofs

/-!
# Proofs: the parses of any finder

Each finder keeps one invariant over all that can be done to it: its indices hold positions before
the next range only, its trees are ordered, and its statistics are bounded. -/

namespace ZstdPure.Encode

open Sequences

namespace Finder

/-! ## The invariant -/

/-- The positions indexed are below `next`. -/
def Sound (data : Bytes) (next : Nat) : Finder → Prop
  | .Fast st => st.Before next
  | .DFast st => st.Before next
  | .Chain st _ _ => st.Before next
  | .BtLazy st _ => Hybrid.Sound data next st
  | .Opt st depth _ _ stats =>
    Hybrid.Sound data next st ∧ (0 < depth ∧ depth ≤ 128) ∧ stats.freqs.Bounded (2 ^ 31)

/-- How many candidates a finder may store for `n` positions: for the optimal parse, two lists of
`depth` at each of them. -/
def candidates : Finder → Nat → Nat
  | .Opt _ depth _ _ _, n => n * (2 * depth)
  | _, _ => 0

/-- A range that the finder can parse: lengths, distances and the starts of candidates fit the 32
bits of their fields. -/
structure Accepts (f : Finder) (data : Bytes) (start stop max_offset : Nat) : Prop where
  range : start ≤ stop
  inside : stop ≤ data.length
  field : stop - start < 2 ^ 32
  reach : min max_offset data.length + 3 < 2 ^ 32
  starts : f.candidates (stop - start) < 2 ^ 32

section Sound

variable {data : Bytes} {next : Nat} {f : Finder}

theorem new_hybrid_sound (params : CParams) (data : Bytes) :
    Hybrid.Sound data 0 (new_hybrid params) :=
  ⟨ChainState.Before.new _ _ _ 0, BtState.Sound.new _ _ data⟩

theorem Sound.new (params : CParams) (data : Bytes) : (Finder.new params).Sound data 0 := by
  have hopt : ∀ two_pass, (new_opt params two_pass).Sound data 0 := by
    intro two_pass
    have hdepth : 0 < min (2 ^ min params.search_log 7) 128 :=
      lt_min (Nat.two_pow_pos _) (by decide)
    exact ⟨new_hybrid_sound params data, ⟨hdepth, min_le_right _ _⟩,
      Freqs.zero_bounded.mono (Nat.zero_le _)⟩
  unfold Finder.new
  cases params.strategy with
  | Fast => exact MatchState.Before.new _ 0
  | Dfast => exact DFastState.Before.new _ _ 0
  | Greedy => exact ChainState.Before.new _ _ _ 0
  | Lazy => exact ChainState.Before.new _ _ _ 0
  | Lazy2 => exact ChainState.Before.new _ _ _ 0
  | BtLazy2 => exact new_hybrid_sound params data
  | Btopt => exact hopt false
  | Btultra => exact hopt false
  | Btultra2 => exact hopt true

theorem Sound.append (h : f.Sound data next) (more : Bytes) : f.Sound (data ++ more) next := by
  cases f with
  | Fast st => exact h
  | DFast st => exact h
  | Chain st lazy_steps depth => exact h
  | BtLazy st depth => exact ⟨h.chain, h.tree.append more⟩
  | Opt st depth sufficient_len two_pass stats =>
    obtain ⟨hsound, hrest⟩ := h
    exact ⟨⟨hsound.chain, hsound.tree.append more⟩, hrest⟩

/-- The period of both indices is one of the tree. -/
theorem tree_period_dvd (st : Hybrid) : st.tree.slide_period ∣ hybrid_period st := by
  show 2 ^ st.tree.bt_log ∣ max (2 ^ st.chain.chain_log) (2 ^ st.tree.bt_log)
  rcases le_total (2 ^ st.chain.chain_log) (2 ^ st.tree.bt_log) with h | h
  · rw [max_eq_right h]
  · rw [max_eq_left h]
    exact Nat.pow_dvd_pow 2 ((Nat.pow_le_pow_iff_right (by decide)).mp h)

theorem reduce_hybrid_sound {st : Hybrid} (h : Hybrid.Sound data next st) {drop : Nat}
    (hdrop : hybrid_period st ∣ drop) :
    Hybrid.Sound (data.drop drop) (next - drop) (reduce_hybrid asI32 drop st) :=
  ⟨h.chain.reduce drop, h.tree.slide ((tree_period_dvd st).trans hdrop)⟩

theorem Sound.slide (h : f.Sound data next) {drop : Nat} (hdrop : f.slide_period ∣ drop) :
    (f.reduce_index asI32 drop).Sound (data.drop drop) (next - drop) := by
  cases f with
  | Fast st => exact MatchState.Before.reduce h drop
  | DFast st => exact DFastState.Before.reduce h drop
  | Chain st lazy_steps depth => exact ChainState.Before.reduce h drop
  | BtLazy st depth => exact reduce_hybrid_sound h hdrop
  | Opt st depth sufficient_len two_pass stats => exact ⟨reduce_hybrid_sound h.1 hdrop, h.2⟩

/-- Priming indexes positions of the dictionary in order. -/
theorem primed_upto {σ : Type} {Ok : σ → Nat → Prop} {insert : σ → Nat → σ} {st : σ}
    (hinsert : ∀ st q, Ok st q → Ok (insert st q) (q + 1)) (h : Ok st 0) (dict_len : Nat) :
    Ok ((primed dict_len).foldl insert st) (dict_len + 1 - MIN_MATCH) := by
  have hupto := @inserts_upto σ Ok insert st 0 (dict_len + 1 - MIN_MATCH)
    (fun st q _ _ h => hinsert st q h) h
  rw [Nat.zero_add, ← List.range_eq_range'] at hupto
  exact hupto

theorem prime_hybrid_sound {st : Hybrid} (h : Hybrid.Sound data 0 st) {dict_len : Nat}
    (hdict : dict_len ≤ data.length) (max_offset depth : Nat) :
    Hybrid.Sound data dict_len (prime_hybrid asI32 data dict_len max_offset depth st) := by
  have hmin : MIN_MATCH = 4 := rfl
  have hchain := @primed_upto _ ChainState.Before (ChainState.insert asI32 data) st.chain
    (fun _ _ h => h.insert data) h.chain dict_len
  have hsound : Hybrid.Sound data (dict_len + 1 - MIN_MATCH)
      (prime_hybrid asI32 data dict_len max_offset depth st) :=
    ⟨hchain, h.tree.prime hdict max_offset depth⟩
  exact hsound.mono (by omega)

theorem Sound.prime (h : f.Sound data 0) {dict_len : Nat} (hdict : dict_len ≤ data.length)
    (max_offset : Nat) : (f.prime asI32 data dict_len max_offset).Sound data dict_len := by
  have hmin : MIN_MATCH = 4 := rfl
  have hle : dict_len + 1 - MIN_MATCH ≤ dict_len := by omega
  cases f with
  | Fast st =>
    exact (@primed_upto _ MatchState.Before (MatchState.insert asI32 data) st
      (fun _ _ h => h.insert data) h dict_len).mono hle
  | DFast st =>
    exact (@primed_upto _ DFastState.Before (DFastState.insert asI32 data dict_len) st
      (fun _ _ h => h.insert data dict_len) h dict_len).mono hle
  | Chain st lazy_steps depth =>
    exact (@primed_upto _ ChainState.Before (ChainState.insert asI32 data) st
      (fun _ _ h => h.insert data) h dict_len).mono hle
  | BtLazy st depth => exact prime_hybrid_sound h hdict max_offset depth
  | Opt st depth sufficient_len two_pass stats =>
    exact ⟨prime_hybrid_sound h.1 hdict max_offset depth, h.2⟩

theorem Sound.mono (h : f.Sound data next) {p : Nat} (hp : next ≤ p) : f.Sound data p := by
  cases f with
  | Fast st => exact MatchState.Before.mono h hp
  | DFast st => exact DFastState.Before.mono h hp
  | Chain st lazy_steps depth => exact ChainState.Before.mono h hp
  | BtLazy st depth => exact Hybrid.Sound.mono h hp
  | Opt st depth sufficient_len two_pass stats => exact ⟨h.1.mono hp, h.2⟩

/-- The blocks of a frame have few enough candidates. -/
theorem Sound.candidates_lt (h : f.Sound data next) {n : Nat} (hn : n ≤ BLOCK_SIZE_MAX) :
    f.candidates n < 2 ^ 32 := by
  cases f with
  | Opt st depth sufficient_len two_pass stats =>
    obtain ⟨-, ⟨-, hdepth⟩, -⟩ := h
    have hmax : BLOCK_SIZE_MAX = 131072 := rfl
    calc n * (2 * depth) ≤ 131072 * (2 * 128) := Nat.mul_le_mul (by omega) (by omega)
      _ < 2 ^ 32 := by norm_num
  | _ => exact Nat.two_pow_pos 32

/-- The parse of a range, and its alternatives, are valid, and the positions indexed are before its
end. -/
theorem Sound.parse {start stop max_offset : Nat} (h : f.Sound data start)
    (ha : f.Accepts data start stop max_offset) {rep : Reps} (hrep : Fits32 rep) :
    (∀ c ∈ (f.parse asI32 data start stop max_offset rep).1.primary ::
        (f.parse asI32 data start stop max_offset rep).1.alts, ValidParse data start stop rep c) ∧
      (f.parse asI32 data start stop max_offset rep).2.Sound data stop := by
  obtain ⟨hrange, hstop, hfield, hreach, hstarts⟩ := ha
  have hreach : min max_offset data.length < 2 ^ 32 := by omega
  have hone : ∀ {c : Candidate}, ValidParse data start stop rep c →
      ∀ c' ∈ [c], ValidParse data start stop rep c' := by
    intro c hc c' hc'
    rw [List.mem_singleton.mp hc']
    exact hc
  cases f with
  | Fast st =>
    obtain ⟨hvalid, hsound⟩ := MatchState.parse_block_valid h hrange hstop hfield hreach hrep
    exact ⟨hone hvalid, hsound⟩
  | DFast st =>
    obtain ⟨hvalid, hsound⟩ := DFastState.dfast_parse_block_valid h hrange hstop hfield hreach hrep
    exact ⟨hone hvalid, hsound⟩
  | Chain st lazy_steps depth =>
    obtain ⟨hvalid, hsound⟩ := LazyState.parse_block_valid
      (ChainState.lazy_sound hstop hreach depth) hrange hfield lazy_steps hrep h
    exact ⟨hone hvalid, hsound⟩
  | BtLazy st depth =>
    obtain ⟨hvalid, hsound⟩ := LazyState.parse_block_valid
      (Hybrid.lazy_sound hstop hreach depth) hrange hfield 2 hrep h
    exact ⟨hone hvalid, hsound⟩
  | Opt st depth sufficient_len two_pass stats =>
    obtain ⟨hsound, hdepth, hstats⟩ := h
    obtain ⟨p, st', stats', heq, hvalid, hsound', hstats'⟩ :=
      opt_parse_block_valid hrange hstop hreach hdepth.1 hstarts hsound hstats rep sufficient_len
        two_pass
    have hparse : Finder.parse asI32 (.Opt st depth sufficient_len two_pass stats) data start stop
        max_offset rep = (p, .Opt st' depth sufficient_len two_pass stats') :=
      congrArg (fun r : Parsed × Hybrid × OptStats =>
        (r.1, Finder.Opt r.2.1 depth sufficient_len two_pass r.2.2)) heq
    rw [hparse]
    exact ⟨hvalid, hsound', hdepth, hstats'⟩

end Sound

/-! ## Runs -/

/-- The finder after some operations on a buffer, whose positions below `next` may be indexed. The
ranges parsed follow one another, and need not be adjacent. -/
inductive Run : Bytes → Nat → Finder → Prop
  | new (params : CParams) (data : Bytes) : Run data 0 (Finder.new params)
  | grow {data : Bytes} {next : Nat} {f : Finder} (h : Run data next f) (more : Bytes) :
    Run (data ++ more) next f
  | prime {data : Bytes} {f : Finder} (h : Run data 0 f) {dict_len : Nat}
    (hdict : dict_len ≤ data.length) (max_offset : Nat) :
    Run data dict_len (f.prime asI32 data dict_len max_offset)
  | parse {data : Bytes} {next : Nat} {f : Finder} (h : Run data next f)
    {start stop max_offset : Nat} (hstart : next ≤ start)
      (ha : f.Accepts data start stop max_offset)
    {rep : Reps} (hrep : Fits32 rep) :
    Run data stop (f.parse asI32 data start stop max_offset rep).2
  | slide {data : Bytes} {next : Nat} {f : Finder} (h : Run data next f) {drop : Nat}
    (hdrop : f.slide_period ∣ drop) (hlen : drop ≤ data.length) :
    Run (data.drop drop) (next - drop) (f.reduce_index asI32 drop)

theorem Run.sound {data : Bytes} {next : Nat} {f : Finder} (h : Run data next f) :
    f.Sound data next := by
  induction h with
  | new params data => exact Sound.new params data
  | grow _ more ih => exact ih.append more
  | prime _ hdict max_offset ih => exact ih.prime hdict max_offset
  | parse _ hstart ha hrep ih => exact ((ih.mono hstart).parse ha hrep).2
  | slide _ hdrop _ ih => exact ih.slide hdrop

/-- Every range that follows is parsed into valid parses, the alternatives included. -/
theorem parse_valid {data : Bytes} {next : Nat} {f : Finder} (h : Run data next f)
    {start stop max_offset : Nat} (hstart : next ≤ start)
      (ha : f.Accepts data start stop max_offset)
    {rep : Reps} (hrep : Fits32 rep) :
    ∀ c ∈ (f.parse asI32 data start stop max_offset rep).1.primary ::
      (f.parse asI32 data start stop max_offset rep).1.alts, ValidParse data start stop rep c :=
  ((h.sound.mono hstart).parse ha hrep).1

/-- The parameters of a small finder. -/
def small_params (strategy : Strategy) : CParams := ⟨10, 6, 6, 4, 4, 32, strategy⟩

/-- A token parsed at its second place by the chain and the tree, after a dictionary that begins
with it. -/
theorem parse_valid_token :
    let data : Bytes := [1, 2, 3, 4, 5, 6, 0, 1, 2, 3, 4, 5, 9]
    let f := (Finder.new (small_params .BtLazy2)).prime asI32 data 6 16
    let p := (f.parse asI32 data 6 13 16 ⟨1, 4, 8⟩).1
    p.primary = ⟨⟨[⟨1, 5, 10⟩], [0, 9]⟩, ⟨7, 1, 4⟩⟩ ∧
    ∀ c ∈ p.primary :: p.alts, ValidParse data 6 13 ⟨1, 4, 8⟩ c := by
  intro data f p
  constructor
  · decide +kernel
  · have hrun : Run data 6 f := (Run.new (small_params .BtLazy2) data).prime (by decide) 16
    have ha : f.Accepts data 6 13 16 :=
      ⟨by decide, by decide, by decide, by decide, by decide⟩
    exact parse_valid hrun (le_refl 6) ha ⟨by decide, by decide, by decide⟩

/-! ## Lengths beyond 32 bits -/

section Zeros

variable {n : Nat}

theorem range_zeros (n a b : Nat) :
    range_of (List.replicate n 0) a b = List.replicate (min b n - a) 0 := by
  rw [range_of, List.take_replicate, List.drop_replicate]

/-- A step that finds the earlier position `c` emits its match. -/
theorem parse_step_hit {data : Bytes} {stop max_offset c : Nat} {s : MatchState.Loop}
    (hcand : slot s.state.table (s.state.hash data s.p) = (c : Nat)) (hnear : s.p - c ≤ max_offset)
    (hback : c < s.p) (hword : read_u32 data c = read_u32 data s.p) :
    ∃ state, MatchState.parse_step asI32 data stop max_offset s =
      ⟨state, s.p + common_len data c s.p stop, s.p + common_len data c s.p stop,
        s.out.push data s.anchor s.p (common_len data c s.p stop) (s.p - c)⟩ := by
  unfold MatchState.parse_step
  dsimp only
  rw [hcand, Int.toNat_natCast, if_pos ⟨Int.natCast_nonneg c, hnear, by omega, hword⟩]
  exact ⟨_, rfl⟩

/-- The first byte of the zeros is indexed. -/
def zeros_loop (n : Nat) : MatchState.Loop :=
  ⟨(MatchState.new 6).insert asI32 (List.replicate n 0) 0, 0, 1, ⟨[], [], ⟨1, 4, 8⟩⟩⟩

theorem zeros_step_first (n : Nat) : MatchState.parse_step asI32 (List.replicate n 0) n 1
    ⟨MatchState.new 6, 0, 0, ⟨[], [], ⟨1, 4, 8⟩⟩⟩ = zeros_loop n := by
  have hempty : slot (MatchState.new 6).table ((MatchState.new 6).hash (List.replicate n 0) 0) =
    -1 :=
    slot_empty _ _
  unfold MatchState.parse_step
  dsimp only
  rw [hempty, if_neg fun hc => absurd hc.1 (by decide)]
  rfl

/-- The second byte finds the first, and the match of all that is left, whose length is cut. -/
theorem zeros_step_second (h : 5 ≤ n) :
    ∃ state, MatchState.parse_step asI32 (List.replicate n 0) n 1 (zeros_loop n) =
      ⟨state, n, n, ⟨[⟨1, (n - 1) % 2 ^ 32, 1⟩], [0], ⟨1, 4, 8⟩⟩⟩ := by
  have hhash : ∀ p, p + 4 ≤ n → hash4 (read_u32 (List.replicate n 0) p) 6 = 0 := by
    intro p hp
    rw [BtState.read_u32_zeros hp]
    decide
  have hcand : slot (zeros_loop n).state.table ((zeros_loop n).state.hash (List.replicate n 0) 1) =
      (0 : Nat) := by
    show slot ((empty_table 6).set (hash4 (read_u32 (List.replicate n 0) 0) 6) (asI32 0))
      (hash4 (read_u32 (List.replicate n 0) 1) 6) = _
    rw [hhash 0 (by omega), hhash 1 (by omega)]
    decide
  have hword : read_u32 (List.replicate n 0) 0 = read_u32 (List.replicate n 0) 1 := by
    rw [BtState.read_u32_zeros (by omega), BtState.read_u32_zeros (by omega)]
  obtain ⟨state, hstep⟩ := @parse_step_hit _ n 1 0 (zeros_loop n) hcand (le_refl 1) Nat.one_pos
    hword
  have hlen : common_len (List.replicate n 0) 0 1 n = n - 1 :=
    BtState.common_len_zeros (by decide) (by omega) (le_refl n)
  have hlit : range_of (List.replicate n 0) 0 1 = [0] := by
    rw [range_zeros, min_eq_left (by omega)]
    rfl
  refine ⟨state, hstep.trans ?_⟩
  show (⟨state, 1 + common_len (List.replicate n 0) 0 1 n, 1 + common_len (List.replicate n 0) 0 1
    n,
    ⟨[⟨1, common_len (List.replicate n 0) 0 1 n % 2 ^ 32, 1⟩], range_of (List.replicate n 0) 0 1,
      ⟨1, 4, 8⟩⟩⟩ : MatchState.Loop) = _
  rw [hlen, hlit, Nat.add_sub_cancel' (by omega)]

theorem zeros_parse (h : 5 ≤ n) :
    ((Finder.new (small_params .Fast)).parse asI32 (List.replicate n 0) 0 n 1 ⟨1, 4, 8⟩).1.primary =
      ⟨⟨[⟨1, (n - 1) % 2 ^ 32, 1⟩], [0]⟩, ⟨1, 4, 8⟩⟩ := by
  have hmin : MIN_MATCH = 4 := rfl
  obtain ⟨state, hsecond⟩ := zeros_step_second h
  obtain ⟨k, rfl⟩ : ∃ k, n = k + 2 := ⟨n - 2, by omega⟩
  have hloop : While.iterate (fun s : MatchState.Loop => decide (s.p ≤ k + 2 - MIN_MATCH))
      (MatchState.parse_step asI32 (List.replicate (k + 2) 0) (k + 2) 1) (k + 2)
      ⟨MatchState.new 6, 0, 0, ⟨[], [], ⟨1, 4, 8⟩⟩⟩ =
        ⟨state, k + 2, k + 2, ⟨[⟨1, (k + 2 - 1) % 2 ^ 32, 1⟩], [0], ⟨1, 4, 8⟩⟩⟩ := by
    rw [While.iterate, if_pos (decide_eq_true (Nat.zero_le _)), zeros_step_first, While.iterate,
      if_pos (decide_eq_true (by show 1 ≤ k + 2 - MIN_MATCH; omega)), hsecond]
    cases k with
    | zero => rfl
    | succ k =>
      rw [While.iterate, if_neg]
      intro hc
      have hle : k + 1 + 2 ≤ k + 1 + 2 - MIN_MATCH := of_decide_eq_true hc
      omega
  show (MatchState.parse_block asI32 (List.replicate (k + 2) 0) 0 (k + 2) 1 ⟨1, 4, 8⟩
    (MatchState.new 6)).1 = _
  unfold MatchState.parse_block
  rw [if_neg (by omega), Nat.sub_zero, hloop]
  show (⟨⟨_, [0] ++ range_of (List.replicate (k + 2) 0) (k + 2) (k + 2)⟩, _⟩ : Candidate) = _
  rw [range_zeros, min_self, Nat.sub_self]
  rfl

/-- A parse that stops short of the zeros does not tile them. -/
theorem zeros_not_valid {ml : Nat} (h : 1 + ml < n) (rep : Reps) :
    ¬ ValidParse (List.replicate n 0) 0 n rep ⟨⟨[⟨1, ml, 1⟩], [0]⟩, rep⟩ := by
  rintro ⟨last, _, hreplays, hlits⟩
  have hlast : last = 0 + 1 + ml := by
    cases hreplays with
    | cons _ _ _ _ rest =>
      cases rest with
      | nil => rfl
  have hlits : [0] =
      range_of (List.replicate n 0) 0 (0 + 1) ++ [] ++ range_of (List.replicate n 0) last n := hlits
  have hlen := congrArg List.length hlits
  rw [range_zeros, range_zeros, hlast, min_eq_left (by omega), min_self, List.length_append,
    List.length_append, List.length_replicate, List.length_replicate, List.length_singleton,
    List.length_nil] at hlen
  omega

/-- Over a range whose only match is longer than its length field holds, the parse is not valid. -/
theorem parse_valid_counterexample :
    let data : Bytes := List.replicate (8 + 2 ^ 32) 0
    let f := Finder.new (small_params .Fast)
    let c := (f.parse asI32 data 0 (8 + 2 ^ 32) 1 ⟨1, 4, 8⟩).1.primary
    Run data 0 f ∧ c = ⟨⟨[⟨1, 7, 1⟩], [0]⟩, ⟨1, 4, 8⟩⟩ ∧
      ¬ ValidParse data 0 (8 + 2 ^ 32) ⟨1, 4, 8⟩ c := by
  intro data f c
  have hc : c = ⟨⟨[⟨1, 7, 1⟩], [0]⟩, ⟨1, 4, 8⟩⟩ := by
    have hparse := @zeros_parse (8 + 2 ^ 32) (by norm_num)
    rw [show (8 + 2 ^ 32 - 1) % 2 ^ 32 = 7 by norm_num] at hparse
    exact hparse
  refine ⟨Run.new _ data, hc, ?_⟩
  rw [hc]
  exact zeros_not_valid (by norm_num) _

end Zeros

end Finder

end ZstdPure.Encode
