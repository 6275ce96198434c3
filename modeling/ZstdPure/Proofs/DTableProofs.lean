import ZstdPure.Proofs.CTableProofs

/-!
# FSE tables from untrusted bytes, and the two tables of one distribution

What `read_ncount` accepts is the distribution of a decoding table that no state leaves. The
decoding and the encoding table of one distribution are inverse to each other.
-/

namespace ZstdPure

open Outcome

/-- A value that was read fits its width. -/
theorem ReverseBitReader.read_lt {r r' : ReverseBitReader} {n v : Nat} (hn : n ≤ 32)
    (h : r.read n = .ok (v, r')) : v < 2 ^ n := by
  obtain ⟨w, hw, hlt⟩ := r.peek_lt hn
  rw [read, hw, bind_ok] at h
  obtain ⟨_, -, hv⟩ := bind_eq_ok.mp h
  obtain ⟨rfl, -⟩ := Prod.mk.inj (Except.ok.inj hv)
  exact hlt

namespace Fse

/-! ## Table descriptions -/

/-- No state that is read leaves the live part of the table. -/
structure FseDecodeTable.Closed (t : FseDecodeTable) : Prop where
  entry : ∀ e ∈ t.entries, e.new_state_base + 2 ^ e.num_bits ≤ 2 ^ t.table_log
  init : ∀ br s br', init t br = .ok (s, br') → s < 2 ^ t.table_log
  update : ∀ state br sym s br', symbol_update state t br = .ok (sym, s, br') → s < 2 ^ t.table_log

theorem FseDecodeTable.Valid.closed {t : FseDecodeTable} (h : t.Valid) : t.Closed where
  entry := fun e he => (h.entry e he).2
  init := by
    intro br s br' hs
    have hlog := h.log
    exact ReverseBitReader.read_lt (by omega) hs
  update := by
    intro state br sym s br' hs
    obtain ⟨e, he, hentry⟩ := entry_spec h state
    have hnb := h.num_bits_le he
    have hbase := (h.entry e he).2
    rw [symbol_update, hentry, bind_ok] at hs
    obtain ⟨⟨s₁, br₁⟩, hupdate, hs⟩ := bind_eq_ok.mp hs
    simp only [pure_eq_ok, Except.ok.injEq, Prod.mk.injEq] at hs
    obtain ⟨-, rfl, -⟩ := hs
    rw [update_with_entry] at hupdate
    obtain ⟨⟨low, br₂⟩, hread, hadd⟩ := bind_eq_ok.mp hupdate
    obtain ⟨s₂, hsum, hs₂⟩ := bind_eq_ok.mp hadd
    obtain ⟨-, rfl⟩ := add_eq_ok.mp hsum
    simp only [pure_eq_ok, Except.ok.injEq, Prod.mk.injEq] at hs₂
    obtain ⟨rfl, -⟩ := hs₂
    have hlow := ReverseBitReader.read_lt (by omega) hread
    omega

/-- What a table description says once `read_ncount` has accepted it. -/
structure NCount.Sound (nc : NCount) (max_log : Nat) (src : Bytes) : Prop where
  ge_log : 5 ≤ nc.table_log
  log_le : nc.table_log ≤ max_log
  length : nc.counts.length = 256
  symbol : nc.max_symbol < 256
  ge : ∀ c ∈ nc.counts, -1 ≤ c
  sum : (nc.counts.map Int.natAbs).sum = 2 ^ nc.table_log
  zeros : ∀ i, nc.max_symbol < i → nc.counts.getD i 0 = 0
  last : nc.counts.getD nc.max_symbol 0 ≠ 0
  consumed : nc.bytes_consumed ≤ src.length
  table : ∃ t, build_dtable nc.counts nc.max_symbol nc.table_log = .ok t ∧
    t.table_log = nc.table_log ∧ t.Closed

/-- The table of an accepted description is the one of its counts. -/
theorem NCount.Valid.dtable {nc : NCount} {max_log : Nat} {src : Bytes} (h : nc.Valid max_log src)
    (h9 : max_log ≤ 9) : build_dtable nc.counts nc.max_symbol nc.table_log
      = .ok (dtable (nc.counts.take (nc.max_symbol + 1)) nc.table_log) := by
  have hge := h.ge_log
  have hle := h.log_le
  have hsym := h.symbol
  exact build_dtable_ok (by rw [h.length]; omega) rfl h.counts (by omega) (by omega)

/-- `read_ncount` of a string of up to about `2 ^ 60` bytes never faults, and what it accepts is
sound. -/
theorem read_ncount_sound (src : Bytes) (max_log : Nat) (hlen : 12 * src.length + 260 ≤ 2 ^ 64)
    (h9 : max_log ≤ 9) : Safe (read_ncount src max_log) fun nc => nc.Sound max_log src := by
  apply (read_ncount_safe max_log hlen (by omega)).mono
  intro nc h
  have hge := h.ge_log
  have hle := h.log_le
  have hzeros : ∀ i, nc.max_symbol + 1 ≤ i → nc.counts.getD i 0 = 0 := h.zeros
  have hdrop : ∀ c ∈ nc.counts, c ∈ nc.counts.take (nc.max_symbol + 1) ∨ c = 0 := by
    intro c hc
    rw [← List.take_append_drop (nc.max_symbol + 1) nc.counts] at hc
    rcases List.mem_append.mp hc with hc | hc
    · exact Or.inl hc
    · obtain ⟨i, hi, rfl⟩ := List.getElem_of_mem hc
      right
      have hz := hzeros (nc.max_symbol + 1 + i) (by omega)
      rw [List.length_drop] at hi
      rw [List.getD_eq_getElem _ _ (by omega)] at hz
      rw [List.getElem_drop]
      exact hz
  refine ⟨hge, hle, h.length, h.symbol, ?_, ?_, h.zeros, h.last, h.consumed, ?_⟩
  · intro c hc
    rcases hdrop c hc with hc | rfl
    · exact h.counts.ge c hc
    · decide
  · rw [← sum_take_of_zeros hzeros]
    exact h.counts.sum
  · exact ⟨_, h.dtable h9, rfl, (dtable_valid h.counts (by omega) (by omega)).closed⟩

theorem read_ncount_sound_four_symbols : Safe (read_ncount [0xB0, 0x40, 0x1F] 6) fun nc =>
    nc.Sound 6 [0xB0, 0x40, 0x1F] :=
  read_ncount_sound [0xB0, 0x40, 0x1F] 6 (by decide) (by decide)

/-! ## The run that overflows -/

/-- A run of ones that counts past `2 ^ 64` overflows. -/
theorem skip_runs_overflow {n by_ k rest rep : Nat} {br : ForwardBitReader} (hn : n < 32)
    (h : br.Valid) (hv : br.value = ones_below n k rest) (hk : k ≤ 8 * br.src.length)
    (hrep : rep < 2 ^ 64) (hover : 2 ^ 64 ≤ rep + k * by_) :
    skip_runs n (2 ^ n - 1) by_ br rep = crash .overflow := by
  have hloop : ∀ (k m : Nat) (br : ForwardBitReader) (rep : Nat), k < m → br.Valid → br.Ready n →
      br.value = ones_below n k rest → rep < 2 ^ 64 → 2 ^ 64 ≤ rep + k * by_ →
      loop (fun s => s.1 == 2 ^ n - 1) (skip_step n by_) m (br.value % 2 ^ n, br, rep)
        = crash .overflow := by
    intro k
    induction k with
    | zero =>
      intro m br rep _ _ _ _ hrep hover
      omega
    | succ k ih =>
      intro m br rep hm hb hrd hv hrep hover
      obtain ⟨m, rfl⟩ : ∃ j, m = j + 1 := ⟨m - 1, by omega⟩
      rw [Nat.add_mul, Nat.one_mul] at hover
      have hmod : br.value % 2 ^ n = 2 ^ n - 1 := by rw [hv, ones_below_succ_mod]
      rw [loop_succ_of (by simpa using hmod)]
      by_cases hfit : rep + by_ < 2 ^ 64
      · obtain ⟨b₁, h₁, -, hv₁, hr₁, hval₁, -⟩ := @skip_step_spec n by_ k rest rep _ br hn hb hrd hv
          hfit
        rw [h₁, bind_ok]
        exact ih m b₁ (rep + by_) (by omega) hv₁ hr₁ hval₁ hfit (by omega)
      · rw [skip_step, add, if_neg hfit]
        rfl
  obtain ⟨b₁, h₁, hs₁, hr₁⟩ := ForwardBitReader.peek_spec h hn
  have hrun := hloop k (8 * b₁.src.length + 1) b₁ rep (by rw [hs₁.src]; omega) hs₁.valid hr₁
    (hs₁.value.trans hv) hrep hover
  rw [skip_runs_of_peek h₁, ← hs₁.value, hrun]
  rfl

theorem leNat_replicate (n : Nat) : leNat (List.replicate n 0xFF) = 2 ^ (8 * n) - 1 := by
  induction n with
  | zero => rfl
  | succ n ih =>
    have h1 := Nat.one_le_two_pow (n := 8 * n)
    have h255 : (0xFF : UInt8).toNat = 255 := rfl
    rw [List.replicate_succ, leNat_cons, ih, h255, Nat.mul_add, pow_add]
    omega

/-- A first count of zero, then nothing but ones. -/
def run_on (n : Nat) : Bytes := [0x10, 0xFE] ++ List.replicate n 0xFF

theorem leNat_run_on (n : Nat) : leNat (run_on n) = 2 ^ 9 * ones_below 8 n 127 + 16 := by
  have h1 := Nat.one_le_two_pow (n := 8 * n)
  have hlow : leNat [0x10, 0xFE] = 65040 := by decide
  rw [run_on, leNat_append, leNat_replicate, hlow, ones_below]
  norm_num
  omega

theorem count_field_run_on (x : Nat) : count_field 33 (2 ^ 5 * x + 1) = (1, 5) := by
  have hlog : Nat.log2 33 = 5 := by decide
  have hlow : (2 ^ 5 * x + 1) % (2 * 2 ^ 5) % 2 ^ 5 = 1 := by omega
  simp only [count_field]
  rw [hlog, hlow, if_pos (by decide)]

theorem read_ncount_run_on {k : Nat} (hk : 2 ^ 64 ≤ 24 * k)
    (hlen : (run_on (2 * k)).length < 2 ^ 63) :
    read_ncount (run_on (2 * k)) 9 = crash .overflow := by
  have hvalue := leNat_run_on (2 * k)
  have hruns : ones_below 8 (2 * k) 127 = ones_below 16 k 127 := by
    rw [ones_below, ones_below, ← Nat.mul_assoc]
  have hsrc : 2 * k ≤ (run_on (2 * k)).length := by
    rw [run_on, List.length_append, List.length_replicate]
    exact Nat.le_add_left _ _
  rw [hruns] at hvalue
  generalize run_on (2 * k) = src at hvalue hsrc hlen ⊢
  obtain ⟨b₀, h₀, hs₀, hv₀, hval₀, -⟩ := ForwardBitReader.new_spec src hlen
  obtain ⟨b₁, h₁, hs₁, hv₁, hval₁, -⟩ := ForwardBitReader.read_spec hv₀ (n := 4) (by decide)
  have hlow : b₀.value % 2 ^ 4 = 0 := by rw [hval₀, hvalue]; omega
  have hstart := @ncount_start src b₁ 5 hv₁ (hs₁.trans hs₀) (by decide)
  obtain ⟨b₂, h₂, hs₂, hv₂, hval₂, -⟩ := read_count_spec (by decide) hstart (by decide)
    (Nat.zero_lt_succ _)
  have hone : b₁.value = 2 ^ 5 * ones_below 16 k 127 + 1 := by rw [hval₁, hval₀, hvalue]; omega
  rw [show (2 : Nat) ^ 5 + 1 = 33 from rfl, hone, count_field_run_on] at h₂
  have hrest : b₂.value = ones_below 16 k 127 := by
    rw [hval₂]
    show b₁.value / 2 ^ (count_field 33 b₁.value).2 = _
    rw [hone, count_field_run_on]
    dsimp only
    omega
  have hover := @skip_runs_overflow 16 24 k 127 1 b₂ (by decide) hv₂ hrest
    (by rw [hs₂, hs₁, hs₀]; omega) (by decide) (by omega)
  rw [read_ncount, h₀, bind_ok, h₁, bind_ok, hlow]
  simp only []
  rw [add_ok (by decide), bind_ok, if_neg (by decide), shl_exact (by decide) (by decide), bind_ok,
    asI32_of_lt (by decide), int32_ok (by decide) (by decide), bind_ok, add_ok (by decide), bind_ok]
  have hzero : read_zero_run (counted
      ⟨b₁, ((2 ^ 5 : Nat) : Int) + 1, ((2 ^ 5 : Nat) : Int), 5 + 1, List.replicate 256 0, 0, false⟩
      b₂ 33 1) = crash .overflow := by
    rw [read_zero_run]
    exact congrArg (· >>= _) hover
  rw [loop_succ_of (by rfl), if_neg Bool.false_ne_true]
  refine (congrArg (fun x => (x >>= _) >>= _) h₂).trans ?_
  rw [bind_ok, loop_succ_of (by rfl), if_pos (by rfl)]
  refine (congrArg (fun x => (x >>= _) >>= _) hzero).trans ?_
  rfl

/-- The symbol counter of `read_ncount` overflows on a long enough run of zero counts. -/
theorem read_ncount_overflows : (run_on (2 ^ 61)).length < 2 ^ 63 ∧
    ¬ Safe (read_ncount (run_on (2 ^ 61)) 9) fun nc => nc.Sound 9 (run_on (2 ^ 61)) := by
  have hlen : (run_on (2 * 2 ^ 60)).length < 2 ^ 63 := by
    rw [run_on, List.length_append, List.length_replicate]
    decide
  have hrun := read_ncount_run_on (by decide) hlen
  rw [show (2 : Nat) ^ 61 = 2 * 2 ^ 60 from rfl, hrun]
  exact ⟨hlen, safe_crash⟩

end Fse

namespace Encode

open Fse

/-! ## Inverse tables -/

section Tables

variable {norm counts : List Int} {max_symbol table_log : Nat}

/-- The live entries carry the symbols of the spread. -/
theorem dtable_symbols (h : ValidCounts counts table_log) (h4 : 4 ≤ table_log)
    (h9 : table_log ≤ 9) : ((dtable counts table_log).entries.take (2 ^ table_log)).map
      FseEntry.symbol
      = (table_symbol counts table_log).1 := by
  obtain ⟨-, hlen, -⟩ := table_symbol_spec h (Or.inr h4) (by omega)
  rw [dtable]
  dsimp only
  rw [List.take_left' (by simp), List.map_map]
  apply List.ext_getElem
  · simp [hlen]
  · intro u hu₁ hu₂
    simp [value_entry, List.getElem?_eq_getElem hu₂]

theorem dtable_entry {u : Nat} (hu : u < 2 ^ table_log) :
    (dtable counts table_log).entries[u]?
      = some (value_entry table_log (position_value counts (table_symbol counts table_log).1 u)
          ((table_symbol counts table_log).1.getD u 0)) := by
  rw [dtable]
  dsimp only
  rw [List.getElem?_append_left (by simpa using hu), List.getElem?_map, List.getElem?_range hu,
    Option.map_some]

/-- Two state values of a symbol of count `c` with a state `w - 2 ^ table_log` in both ranges. -/
theorem state_value_unique {c x y w : Nat} (hcx : c ≤ x) (hxc : x < 2 * c) (hcy : c ≤ y)
    (hyc : y < 2 * c) (hx : Nat.log2 x ≤ table_log) (hy : Nat.log2 y ≤ table_log)
    (hwx : w / 2 ^ (table_log - Nat.log2 x) = x) (hwy : w / 2 ^ (table_log - Nat.log2 y) = y) :
    x = y := by
  -- the longer value would be at least twice the shorter one
  have hdouble : ∀ x y, c ≤ x → y < 2 * c → Nat.log2 x < Nat.log2 y → Nat.log2 y ≤ table_log →
      w / 2 ^ (table_log - Nat.log2 x) = x → w / 2 ^ (table_log - Nat.log2 y) = y → False := by
    intro x y hcx hyc hlt hy hwx hwy
    have hsplit : table_log - Nat.log2 x
        = (table_log - Nat.log2 y) + (Nat.log2 y - Nat.log2 x) := by omega
    rw [hsplit, pow_add, ← Nat.div_div_eq_div_mul, hwy] at hwx
    have h2 : 2 ^ 1 ≤ 2 ^ (Nat.log2 y - Nat.log2 x) := Nat.pow_le_pow_right (by decide) (by omega)
    have hle : x * 2 ^ (Nat.log2 y - Nat.log2 x) ≤ y := by
      rw [← Nat.le_div_iff_mul_le (by positivity), hwx]
    have := Nat.mul_le_mul_left x h2
    omega
  rcases Nat.lt_trichotomy (Nat.log2 x) (Nat.log2 y) with hlt | heq | hgt
  · exact (hdouble x y hcx hyc hlt hy hwx hwy).elim
  · rw [← hwx, ← hwy, heq]
  · exact (hdouble y x hcy hxc hgt hx hwy hwx).elim

/-- A state is in the range of an entry when its value is the quotient. -/
theorem value_entry_range {x s v : Nat} (h1 : 1 ≤ x) (hx : x < 2 ^ (table_log + 1)) :
    (value_entry table_log x s).new_state_base ≤ v ∧
        v < (value_entry table_log x s).new_state_base + 2 ^ (value_entry table_log x s).num_bits ↔
      (2 ^ table_log + v) / 2 ^ (table_log - Nat.log2 x) = x := by
  obtain ⟨-, hge, -⟩ := value_entry_bounds h1 hx
  have hp : 0 < 2 ^ (table_log - Nat.log2 x) := by positivity
  simp only [value_entry]
  rw [Nat.div_eq_iff hp]
  generalize x * 2 ^ (table_log - Nat.log2 x) = base at hge ⊢
  omega

/-- The values of the positions of a symbol run from its count to twice its count. -/
theorem position_value_range (h : ValidCounts counts table_log) (h4 : 4 ≤ table_log)
    (h64 : table_log < 64) {u s : Nat} (hu : u < 2 ^ table_log)
    (hs : (table_symbol counts table_log).1.getD u 0 = s) :
    (counts.getD s 0).natAbs ≤ position_value counts (table_symbol counts table_log).1 u ∧
      position_value counts (table_symbol counts table_log).1 u < 2 * (counts.getD s 0).natAbs := by
  obtain ⟨-, hlen, hcount⟩ := table_symbol_spec h (Or.inr h4) h64
  have hlt := List.count_take_lt (d := 0) (by omega : u < (table_symbol counts table_log).1.length)
  rw [hs, hcount] at hlt
  rw [position_value, hs]
  omega

/-- The decoding table `dt` and the encoding table `ct` of one distribution undo each other. -/
structure MutualInverses (counts : List Int) (table_log : Nat) (ct : FseCTable)
    (dt : FseDecodeTable) : Prop where
  ct_log : ct.table_log = table_log
  dt_log : dt.table_log = table_log
  /-- Every symbol owns as many states as its count says. -/
  states : ∀ s, ((dt.entries.take (2 ^ table_log)).map FseEntry.symbol).count s
    = (counts.getD s 0).natAbs
  inside : ∀ e ∈ dt.entries, e.new_state_base + 2 ^ e.num_bits ≤ 2 ^ table_log
  /-- Every state is in the range of exactly one state of a symbol. -/
  partition : ∀ s : Nat, counts.getD s 0 ≠ 0 → ∀ v : Nat, v < 2 ^ table_log → ∃! u : Nat,
  u < 2 ^ table_log ∧
    ∃ e, dt.entries[u]? = some e ∧ e.symbol = s ∧ e.new_state_base ≤ v ∧
      v < e.new_state_base + 2 ^ e.num_bits
  /-- Both tables place the symbols at the same positions. -/
  positions : (table_symbol counts table_log).1
    = (dt.entries.take (2 ^ table_log)).map FseEntry.symbol
  start_index : ∀ s, counts.getD s 0 ≠ 0 →
    0 ≤ ct.start_index s ∧ ct.start_index s < ct.state_table.length
  next_index : ∀ s x, counts.getD s 0 ≠ 0 → 2 ^ table_log ≤ x → x < 2 * 2 ^ table_log →
    0 ≤ ct.next_index x s ∧ ct.next_index x s < ct.state_table.length
  start : ∀ s, counts.getD s 0 ≠ 0 → ∃ u < 2 ^ table_log,
    ct.init_state2 s = 2 ^ table_log + u ∧ ∃ e, dt.entries[u]? = some e ∧ e.symbol = s
  encode : ∀ (s x : Nat) (bw : BitWriter), counts.getD s 0 ≠ 0 → 2 ^ table_log ≤ x →
    x < 2 * 2 ^ table_log → ∃ nb y : Nat, y < 2 ^ table_log ∧
      ct.encode_symbol bw x s = (bw.add x nb, 2 ^ table_log + y) ∧
      ∃ e, dt.entries[y]? = some e ∧ e.symbol = s ∧ e.num_bits = nb ∧
        e.new_state_base + x % 2 ^ nb = x - 2 ^ table_log

/-- The slots of a symbol are in the table. -/
theorem cumul_add_le_size (h : ValidCounts counts table_log) {s : Nat} (hs : s < counts.length) :
    (cumul counts).getD s 0 + (counts.getD s 0).natAbs ≤ 2 ^ table_log := by
  have hle := cumul_add_le hs le_rfl
  rw [getD_cumul le_rfl, List.take_length, h.sum] at hle
  exact hle

theorem length_state_table (norm : List Int) (max_symbol table_log : Nat) :
    (build_ctable norm max_symbol table_log).state_table.length = 2 ^ table_log := by
  have hfold : ∀ (l : List (Nat × Nat)) (st : List Nat × List Nat),
      (l.foldl (fill_step (2 ^ table_log)) st).1.length = st.1.length := by
    intro l
    induction l with
    | nil => intro st; rfl
    | cons c l ih =>
      intro st
      rw [List.foldl_cons, ih, fill_step, List.length_set]
  show (List.foldl (fill_step (2 ^ table_log)) _ _).1.length = _
  rw [hfold, List.length_replicate]

/-- The ranges of the states of a symbol partition the states. -/
theorem dtable_partition (h : ValidCounts counts table_log) (h4 : 4 ≤ table_log)
    (h9 : table_log ≤ 9) {s v : Nat} (hs : counts.getD s 0 ≠ 0) (hv : v < 2 ^ table_log) :
    ∃! u : Nat, u < 2 ^ table_log ∧ ∃ e, (dtable counts table_log).entries[u]? = some e ∧
    e.symbol = s ∧
      e.new_state_base ≤ v ∧ v < e.new_state_base + 2 ^ e.num_bits := by
  obtain ⟨-, hlen, -⟩ := table_symbol_spec h (Or.inr h4) (by omega)
  have hinv := @build_ctable_inverts counts counts counts.length table_log
    (List.take_of_length_le (by omega)) h (Or.inr h4) h9
  obtain ⟨u, hu, nb, base, -, -, -, hentry, hbase⟩ := hinv.step s v hs hv
  rw [show (dtable counts table_log).table_log = table_log from rfl] at hu hbase
  have hlow : (2 ^ table_log + v) % 2 ^ nb < 2 ^ nb := Nat.mod_lt _ (by positivity)
  refine ⟨u, ⟨hu, _, hentry, rfl, by simp only; omega, by simp only; omega⟩, ?_⟩
  -- the symbol and the range of a state determine its value, and that its position
  have hvalue : ∀ w, w < 2 ^ table_log → (∃ e, (dtable counts table_log).entries[w]? = some e ∧
      e.symbol = s ∧ e.new_state_base ≤ v ∧ v < e.new_state_base + 2 ^ e.num_bits) →
      (table_symbol counts table_log).1.getD w 0 = s ∧
        (2 ^ table_log + v) / 2 ^ (table_log
          - Nat.log2 (position_value counts (table_symbol counts table_log).1 w))
          = position_value counts (table_symbol counts table_log).1 w := by
    rintro w hw ⟨e, he, hsym, hlo, hhi⟩
    obtain ⟨h1, hx⟩ := position_value_bounds h h4 (by omega) hw
    rw [dtable_entry hw, Option.some.injEq] at he
    subst he
    exact ⟨hsym, (value_entry_range h1 hx).mp ⟨hlo, hhi⟩⟩
  rintro w ⟨hw, hrange⟩
  obtain ⟨hsu, hqu⟩ := hvalue u hu ⟨_, hentry, rfl, by simp only; omega, by simp only; omega⟩
  obtain ⟨hsw, hqw⟩ := hvalue w hw hrange
  obtain ⟨hcu, huc⟩ := position_value_range h h4 (by omega) hu hsu
  obtain ⟨hcw, hwc⟩ := position_value_range h h4 (by omega) hw hsw
  obtain ⟨hu1, hux⟩ := position_value_bounds h h4 (by omega) hu
  obtain ⟨hw1, hwx⟩ := position_value_bounds h h4 (by omega) hw
  have heq := state_value_unique hcw hwc hcu huc (value_entry_bounds hw1 hwx).1
    (value_entry_bounds hu1 hux).1 hqw hqu
  rw [position_value, position_value, hsu, hsw] at heq
  rcases Nat.lt_trichotomy w u with hlt | rfl | hgt
  · have hc := List.count_take_lt_of_lt (d := 0) hlt
      (by omega : u ≤ (table_symbol counts table_log).1.length)
    rw [hsw] at hc
    omega
  · rfl
  · have hc := List.count_take_lt_of_lt (d := 0) hgt
      (by omega : w ≤ (table_symbol counts table_log).1.length)
    rw [hsu] at hc
    omega

/-- The tables of a normalized distribution are built, and are mutual inverses. -/
theorem tables_mutually_inverse (hlen : max_symbol < norm.length)
    (hcounts : norm.take (max_symbol + 1) = counts) (hsym : max_symbol ≤ 255)
    (hge : ∀ c ∈ counts, -1 ≤ c) (hsum : (counts.map Int.natAbs).sum = 2 ^ table_log)
    (h5 : 5 ≤ table_log) (h9 : table_log ≤ 9) :
    ∃ dt, build_dtable norm max_symbol table_log = .ok dt ∧
      MutualInverses counts table_log (build_ctable norm max_symbol table_log) dt := by
  have h : ValidCounts counts table_log := by
    refine ⟨?_, hge, hsum⟩
    rw [← hcounts, List.length_take]
    omega
  have h4 : 4 ≤ table_log := by omega
  obtain ⟨-, -, hcount⟩ := table_symbol_spec h (Or.inr h4) (by omega)
  have hinv := build_ctable_inverts hcounts h (Or.inr h4) h9
  have hlog : (dtable counts table_log).table_log = table_log := rfl
  refine ⟨_, build_dtable_ok hlen hcounts h h4 h9, rfl, rfl, ?_, ?_, ?_, ?_, ?_, ?_, ?_, ?_⟩
  · intro s
    rw [dtable_symbols h h4 h9, hcount]
  · exact fun e he => ((dtable_valid h h4 h9).entry e he).2
  · exact fun s hs v hv => dtable_partition h h4 h9 hs hv
  · exact (dtable_symbols h h4 h9).symm
  · intro s hs
    obtain ⟨hlt, -, -⟩ := count_range h hs
    have hle := cumul_add_le_size h hlt
    rw [start_index_spec hcounts h h9 hs, length_state_table]
    omega
  · intro s x hs hx hx2
    obtain ⟨v, rfl⟩ := Nat.exists_eq_add_of_le hx
    obtain ⟨hlt, -, -⟩ := count_range h hs
    have hle := cumul_add_le_size h hlt
    obtain ⟨nb, -, -, hc, hc2, hidx⟩ := next_index_spec (v := v) hcounts h h9 hs (by omega)
    rw [hidx, length_state_table]
    omega
  · intro s hs
    obtain ⟨u, hu, hstart, hentry⟩ := hinv.start s hs
    rw [hlog] at hu hstart
    exact ⟨u, hu, hstart, _, hentry, rfl⟩
  · intro s x bw hs hx hx2
    obtain ⟨v, rfl⟩ := Nat.exists_eq_add_of_le hx
    obtain ⟨u, hu, nb, base, hout, hnb, hnext, hentry, hbase⟩ :=
      hinv.step s v hs (by rw [hlog]; omega)
    rw [hlog] at hu hout hnext hbase
    refine ⟨nb, u, hu, ?_, _, hentry, rfl, rfl, ?_⟩
    · rw [FseCTable.encode_symbol]
      exact Prod.ext (congrArg (bw.add _) hout) hnext
    · rw [Nat.add_sub_cancel_left]
      exact hbase

theorem tables_mutually_inverse_three_symbols : ∃ dt,
    build_dtable [20, -1, 11] 2 5 = .ok dt ∧
      MutualInverses [20, -1, 11] 5 (build_ctable [20, -1, 11] 2 5) dt :=
  tables_mutually_inverse (by decide) rfl (by decide) (by decide) (by decide) (by decide)
    (by decide)

end Tables

end Encode

end ZstdPure
