import ZstdPure.Encode.Sequences
import ZstdPure.Lib.Tally
import ZstdPure.Proofs.CTableProofs
import ZstdPure.Proofs.NCountProofs
import ZstdPure.Proofs.NormalizeProofs
import ZstdPure.Proofs.SequencesProofs

/-!
# The plan of a channel

Whatever `plan_channel` picks, the decoder reads its description and comes to the decoding table
that goes with the encoding table of the plan. -/

namespace ZstdPure.Encode

open Outcome Fse Sequences

/-! ## Tables that belong together -/

/-- An encoding table and the decoding table of the same normalized counts or of the same symbol. -/
inductive Related : FseCTable → FseDecodeTable → Prop
  | counts {norm : List Int} {max_symbol table_log : Nat} {dt : FseDecodeTable}
      (hlen : max_symbol < norm.length) (h : ValidCounts (norm.take (max_symbol + 1)) table_log)
      (h5 : 5 ≤ table_log) (h9 : table_log ≤ 9)
      (hdt : build_dtable norm max_symbol table_log = .ok dt) :
      Related (build_ctable norm max_symbol table_log) dt
  | rle {symbol : Nat} (h : symbol < 256) : Related (build_rle_ctable symbol) (rle_table symbol)

section Rle

variable {symbol : Nat}

/-- The counts of a table with a single symbol. -/
theorem rle_counts (h : symbol < 256) : ValidCounts (List.replicate symbol 0 ++ [1]) 0 where
  length := by
    rw [List.length_append, List.length_replicate, List.length_singleton]
    omega
  ge := by
    intro c hc
    rcases List.mem_append.mp hc with hc | hc
    · rw [List.eq_of_mem_replicate hc]
      decide
    · rw [List.mem_singleton.mp hc]
      decide
  sum := by simp

theorem getD_rle_counts (symbol : Nat) : (List.replicate symbol (0 : Int) ++ [1]).getD symbol 0 =
    1 := by
  rw [List.getD_append_right _ _ _ _ (by simp), List.length_replicate, Nat.sub_self]
  rfl

/-- The decoding table of a single symbol is `rle_table`. -/
theorem dtable_rle (h : symbol < 256) : dtable (List.replicate symbol 0 ++ [1]) 0 =
    rle_table symbol := by
  obtain ⟨-, hlen, hcount⟩ := table_symbol_spec (rle_counts h) (Or.inl rfl) (by decide)
  have hone := hcount symbol
  rw [getD_rle_counts] at hone
  obtain ⟨a, ha⟩ := List.length_eq_one_iff.mp hlen
  have hsym : a = symbol := by
    by_contra hne
    rw [ha, List.count_singleton, if_neg (by simpa using hne)] at hone
    exact absurd hone (by decide)
  rw [hsym] at ha
  rw [dtable, ha]
  simp only [position_value, pow_zero, List.range_one, List.map_cons, List.map_nil,
    List.getD_cons_zero, List.take_zero, List.count_nil, getD_rle_counts]
  rfl

theorem build_rle_ctable_inverts (h : symbol < 256) :
    Inverts (List.replicate symbol 0 ++ [1]) (build_rle_ctable symbol) (rle_table symbol) := by
  rw [← dtable_rle h, build_rle_ctable]
  exact build_ctable_inverts (List.take_of_length_le (by simp)) (rle_counts h) (Or.inl rfl)
    (by decide)

end Rle

/-- Tables that belong together encode and decode the same symbols. -/
theorem Related.inverts {ct : FseCTable} {dt : FseDecodeTable} (h : Related ct dt) :
    dt.Valid ∧ ∃ counts, Inverts counts ct dt := by
  cases h with
  | counts hlen h h5 h9 hdt =>
    rw [build_dtable_ok hlen rfl h (by omega) h9] at hdt
    obtain rfl := Except.ok.inj hdt
    exact ⟨dtable_valid h (by omega) h9, _, build_ctable_inverts rfl h (Or.inr (by omega)) h9⟩
  | rle h => exact ⟨rle_table_valid _, _, build_rle_ctable_inverts h⟩

/-! ## Histograms -/

section Histogram

variable {codes : List Nat}

theorem lt_max_succ (codes : List Nat) : ∀ c ∈ codes, c < codes.foldl max 0 + 1 := fun _ hc =>
  Nat.lt_succ_of_le (Tally.le_foldl_max hc)

theorem length_code_histogram (codes : List Nat) :
    (code_histogram codes (codes.foldl max 0)).length = codes.foldl max 0 + 1 :=
  Tally.length_tally_zero (lt_max_succ codes)

/-- Every code has a count. -/
theorem code_histogram_pos {c : Nat} (hc : c ∈ codes) :
    0 < (code_histogram codes (codes.foldl max 0)).getD c 0 :=
  lt_of_lt_of_eq (List.count_pos_iff.mpr hc) (Tally.getD_tally_zero (lt_max_succ codes) c).symm

/-- Some code has a count. -/
theorem one_le_present (hne : codes ≠ []) :
    1 ≤ (code_histogram codes (codes.foldl max 0)).countP (0 < ·) :=
  Tally.one_le_countP (code_histogram_pos (Tally.foldl_max_mem hne))

end Histogram

/-! ## The candidates -/

/-- A channel: its predefined counts, the greatest accuracy log of a table, and its name. -/
structure Channel where
  dist : List Int
  max_symbol : Nat
  log : Nat
  max_log : Nat
  name : String

/-- What the planner needs of a channel. -/
structure Channel.Valid (ch : Channel) : Prop where
  length : ch.dist.length = ch.max_symbol + 1
  counts : ValidCounts ch.dist ch.log
  all : ∀ c ∈ ch.dist, c ≠ 0
  log_ge : 5 ≤ ch.log
  log_le : ch.log ≤ 9
  max_log_ge : 5 ≤ ch.max_log
  max_log_le : ch.max_log ≤ 9

/-- A plan for `codes` whose description a decoder with this cache understands. -/
structure ChannelPlan.Good (ch : Channel) (cache : Option FseDecodeTable) (codes : List Nat)
    (plan : ChannelPlan) : Prop where
  mode : plan.mode < 4
  header : plan.header.length ≤ 1025
  table : ∃ dt counts, Related plan.ct dt ∧ Inverts counts plan.ct dt ∧
    (∀ c ∈ codes, counts.getD c 0 ≠ 0) ∧
    ∀ (before after : Bytes), (before ++ (plan.header ++ after)).length < 2 ^ 60 →
      ∃ m, parse_mode plan.mode (before ++ (plan.header ++ after)) before.length ch.max_log
          = .ok (m, before.length + plan.header.length) ∧
        resolve_table m ch.dist ch.max_symbol ch.log cache ch.name = .ok dt

section Candidates

variable {ch : Channel} {cache : Option FseDecodeTable} {codes : List Nat}

theorem plan_predefined_good (hch : ch.Valid) (hmax : ∀ c ∈ codes, c ≤ ch.max_symbol) :
    (plan_predefined codes ch.dist ch.max_symbol ch.log).2.Good ch cache codes := by
  have hlen := hch.length
  have htake : ch.dist.take (ch.max_symbol + 1) = ch.dist := List.take_of_length_le (by omega)
  have hbuild := build_dtable_ok (by omega) htake hch.counts (by have := hch.log_ge; omega)
    hch.log_le
  refine ⟨(by decide : 0 < 4), by simp [plan_predefined], dtable ch.dist ch.log, ch.dist, ?_, ?_,
    ?_, ?_⟩
  · exact Related.counts (by omega) (by rw [htake]; exact hch.counts) hch.log_ge hch.log_le hbuild
  · exact build_ctable_inverts htake hch.counts (Or.inr (by have := hch.log_ge; omega)) hch.log_le
  · intro c hc
    have hcm := hmax c hc
    rw [List.getD_eq_getElem _ _ (by omega)]
    exact hch.all _ (List.getElem_mem _)
  · intro before after _
    exact ⟨.Predefined, rfl, hbuild⟩

theorem plan_rle_good (hne : codes ≠ []) (h256 : ∀ c ∈ codes, c < 256)
    (hone : (code_histogram codes (codes.foldl max 0)).countP (0 < ·) = 1) :
    (plan_rle codes).2.Good ch cache codes := by
  -- every code is the first one
  have hall : ∀ c ∈ codes, c = codes.headD 0 := fun c hc => by
    have hmem : codes.headD 0 ∈ codes := by
      cases codes with
      | nil => exact absurd rfl hne
      | cons a codes => simp
    by_contra hdiff
    have htwo := Tally.two_le_countP hdiff (code_histogram_pos hc) (code_histogram_pos hmem)
    omega
  have hhead : codes.headD 0 < 256 := by
    obtain ⟨c, hc⟩ := List.exists_mem_of_ne_nil codes hne
    rw [← hall c hc]
    exact h256 c hc
  have hmod : codes.headD 0 % 256 = codes.headD 0 := Nat.mod_eq_of_lt hhead
  rw [plan_rle, hmod]
  refine ⟨(by decide : 1 < 4), by simp, rle_table (codes.headD 0), _, Related.rle hhead,
    build_rle_ctable_inverts hhead, ?_, ?_⟩
  · intro c hc
    rw [hall c hc, getD_rle_counts]
    decide
  · intro before after hlen
    refine ⟨.Rle (codes.headD 0), ?_, rfl⟩
    rw [List.length_append] at hlen
    simp only [List.cons_append, List.nil_append]
    rw [parse_mode, if_neg (by decide), if_pos rfl, if_neg (by simp), get_ok (by simp), bind_ok,
      add_ok (by omega), bind_ok]
    simp only [List.getElem_append_right le_rfl, Nat.sub_self, List.getElem_cons_zero,
      UInt8.toNat_ofNat', List.length_singleton]
    rw [show codes.headD 0 % 2 ^ 8 = codes.headD 0 from hmod]
    rfl

theorem plan_fse_good (hch : ch.Valid) (hne : codes ≠ []) (hcodes : ∀ c ∈ codes, c < 2 ^ ch.max_log)
    (h256 : ∀ c ∈ codes, c < 256) :
    (plan_fse codes (codes.foldl max 0) ch.max_log
      (code_histogram codes (codes.foldl max 0))).2.Good
      ch cache codes := by
  have h5 := hch.max_log_ge
  have h9 := hch.max_log_le
  have hmem := Tally.foldl_max_mem hne
  have hmaxc := hcodes _ hmem
  have hmax256 := h256 _ hmem
  have hlen := length_code_histogram codes
  have hpos := fun c (hc : c ∈ codes) => code_histogram_pos hc
  rw [plan_fse]
  dsimp only
  generalize code_histogram codes (codes.foldl max 0) = freq at *
  generalize codes.foldl max 0 = m at *
  -- the table has a position for every symbol
  obtain ⟨log, hlog⟩ : ∃ log, min (max (optimal_table_log ch.max_log codes.length m)
      (min_table_log (freq.countP (0 < ·)))) ch.max_log = log := ⟨_, rfl⟩
  rw [hlog]
  have hcount := List.countP_le_length (p := (0 < ·)) (l := freq)
  obtain ⟨h5', h9', hpresent⟩ := @table_log_spec _ h5 codes.length m
    (freq.countP (0 < ·)) (by omega)
  rw [hlog] at h5' h9' hpresent
  obtain ⟨hvalid, hnlen, hnz⟩ := normalize_counts_valid codes.length hlen hmax256 hpresent
  generalize normalize_counts freq codes.length m log = norm at *
  have htake : norm.take (m + 1) = norm := List.take_of_length_le (by omega)
  have hbuild := build_dtable_ok (by omega) htake hvalid (by omega) (by omega : log ≤ 9)
  have hlast := hnz m (hpos m hmem)
  have hhead := length_write_ncount_le htake hnlen hvalid hlast h5' (by omega)
  refine ⟨(by decide : 2 < 4), by simp only; omega, dtable norm log, norm, ?_, ?_,
    fun c hc => hnz c (hpos c hc), ?_⟩
  · exact Related.counts (by omega) (by rw [htake]; exact hvalid) h5' (by omega) hbuild
  · exact build_ctable_inverts htake hvalid (Or.inr (by omega)) (by omega)
  · intro before after hsrc
    refine ⟨.Fse (dtable norm log), ?_, rfl⟩
    dsimp only at hsrc ⊢
    rw [List.length_append] at hsrc
    rw [parse_mode, if_neg (by decide), if_neg (by decide), if_pos rfl, sliceFrom_ok (by simp),
      bind_ok, List.drop_left, read_write_ncount after htake hnlen hvalid hlast h5' (by omega) h9'
        (by omega), bind_ok]
    dsimp only
    have htake' : (norm ++ List.replicate (256 - norm.length) 0).take (m + 1) = norm := by
      rw [← hnlen, List.take_left]
    rw [List.length_append] at hsrc
    rw [add_ok (by omega), bind_ok, build_dtable_ok (by rw [List.length_append]; omega) htake'
      hvalid
      (by omega) (by omega), bind_ok]
    rfl

theorem plan_repeat_good {t : FseCTable} {dt : FseDecodeTable} (hrel : Related t dt)
    (hcache : cache = some dt) (hcan : t.can_encode codes = true) :
    (plan_repeat codes t).2.Good ch cache codes := by
  obtain ⟨-, counts, hinv⟩ := hrel.inverts
  refine ⟨(by decide : 3 < 4), by simp [plan_repeat], dt, counts, hrel, hinv, fun c hc => ?_, ?_⟩
  · exact (hinv.present c).mp (List.all_eq_true.mp hcan c hc)
  · intro before after _
    refine ⟨.Repeat, rfl, ?_⟩
    rw [hcache]
    rfl

theorem min_by_cost_mem : ∀ (rest : List (Nat × ChannelPlan)) (c : Nat × ChannelPlan),
    min_by_cost c rest ∈ c :: rest := by
  intro rest
  induction rest with
  | nil => intro c; simp [min_by_cost]
  | cons d rest ih =>
    intro c
    rw [min_by_cost]
    rcases List.mem_cons.mp (ih (if d.1 < c.1 then d else c)) with h | h
    · rw [h]
      split_ifs <;> simp
    · exact List.mem_cons_of_mem _ (List.mem_cons_of_mem _ h)

theorem min_by_cost_le : ∀ (rest : List (Nat × ChannelPlan)) (c d : Nat × ChannelPlan),
    d ∈ c :: rest →
    (min_by_cost c rest).1 ≤ d.1 := by
  intro rest
  induction rest with
  | nil =>
    intro c d hd
    rw [List.mem_singleton.mp hd]
    exact le_rfl
  | cons e rest ih =>
    intro c d hd
    have hfirst := ih (if e.1 < c.1 then e else c) _ List.mem_cons_self
    rw [min_by_cost]
    rcases List.mem_cons.mp hd with rfl | hd
    · refine hfirst.trans ?_
      split_ifs <;> omega
    · rcases List.mem_cons.mp hd with rfl | hd
      · refine hfirst.trans ?_
        split_ifs <;> omega
      · exact ih _ d (List.mem_cons_of_mem _ hd)

/-- A candidate of the planner, and when it is one. -/
inductive IsCandidate (ch : Channel) (codes : List Nat) (prev : Option FseCTable) :
    Nat × ChannelPlan → Prop
  | predefined (h : codes.foldl max 0 ≤ ch.max_symbol) :
      IsCandidate ch codes prev (plan_predefined codes ch.dist ch.max_symbol ch.log)
  | rle (h : (code_histogram codes (codes.foldl max 0)).countP (0 < ·) = 1) :
      IsCandidate ch codes prev (plan_rle codes)
  | fse (h : 2 ≤ (code_histogram codes (codes.foldl max 0)).countP (0 < ·)) :
      IsCandidate ch codes prev
        (plan_fse codes (codes.foldl max 0) ch.max_log (code_histogram codes (codes.foldl max 0)))
  | repeated {t : FseCTable} (mem : t ∈ prev) (can : t.can_encode codes = true) :
      IsCandidate ch codes prev (plan_repeat codes t)

theorem mem_ite_singleton {α : Type} {p : Prop} [Decidable p] {a c : α} :
    c ∈ (if p then [a] else []) ↔ p ∧ c = a := by
  split_ifs with h
  · rw [List.mem_singleton]
    exact (and_iff_right h).symm
  · exact iff_of_false (List.not_mem_nil) fun hc => h hc.1

theorem mem_candidates_iff {prev : Option FseCTable} {c : Nat × ChannelPlan} :
    c ∈ candidates codes ch.dist ch.max_symbol ch.log ch.max_log prev ↔
    IsCandidate ch codes prev c := by
  unfold candidates
  dsimp only
  rw [List.mem_append, List.mem_append, List.mem_append, mem_ite_singleton, mem_ite_singleton,
    mem_ite_singleton]
  refine (or_congr_right (c := ∃ t ∈ prev, t.can_encode codes = true ∧ c = plan_repeat codes t)
    ?_).trans ?_
  · -- the repeated table is a candidate when there is one and it codes all symbols
    cases prev with
    | none => simp
    | some t =>
      dsimp only
      rw [mem_ite_singleton]
      constructor
      · intro h
        exact ⟨t, rfl, h⟩
      · rintro ⟨_, hmem, h⟩
        rw [Option.mem_some_iff.mp hmem]
        exact h
  constructor
  · rintro (((⟨h, rfl⟩ | ⟨h, rfl⟩) | ⟨h, rfl⟩) | ⟨t, hmem, hcan, rfl⟩)
    · exact .predefined h
    · exact .rle h
    · exact .fse h
    · exact .repeated hmem hcan
  · rintro (h | h | h | ⟨hmem, hcan⟩)
    · exact Or.inl (Or.inl (Or.inl ⟨h, rfl⟩))
    · exact Or.inl (Or.inl (Or.inr ⟨h, rfl⟩))
    · exact Or.inl (Or.inr ⟨h, rfl⟩)
    · exact Or.inr ⟨_, hmem, hcan, rfl⟩

/-- Every candidate is a good plan. -/
theorem candidates_good (prev : Option FseCTable) (hch : ch.Valid) (hne : codes ≠ [])
    (hcodes : ∀ c ∈ codes, c < 2 ^ ch.max_log) (h256 : ∀ c ∈ codes, c < 256)
    (hprev : ∀ t ∈ prev, ∃ dt ∈ cache, Related t dt) :
    ∀ c ∈ candidates codes ch.dist ch.max_symbol ch.log ch.max_log prev,
    c.2.Good ch cache codes := by
  intro c hc
  cases mem_candidates_iff.mp hc with
  | predefined h => exact plan_predefined_good hch fun d hd => (Tally.le_foldl_max hd).trans h
  | rle h => exact plan_rle_good hne h256 h
  | fse h => exact plan_fse_good hch hne hcodes h256
  | repeated hmem hcan =>
    obtain ⟨dt, hdt, hrel⟩ := hprev _ hmem
    exact plan_repeat_good hrel hdt hcan

/-- There is a candidate, and the planner picks one with the least cost. -/
theorem plan_channel_least (prev : Option FseCTable) (hne : codes ≠ []) :
    ∃ cost, (cost, plan_channel codes ch.dist ch.max_symbol ch.log ch.max_log prev)
        ∈ candidates codes ch.dist ch.max_symbol ch.log ch.max_log prev ∧
      ∀ c ∈ candidates codes ch.dist ch.max_symbol ch.log ch.max_log prev, cost ≤ c.1 := by
  have hsome := one_le_present hne
  rw [plan_channel]
  split
  · next c rest hcand =>
    rw [hcand]
    exact ⟨(min_by_cost c rest).1, min_by_cost_mem rest c, min_by_cost_le rest c⟩
  · next hcand =>
    simp only [candidates, List.append_eq_nil_iff] at hcand
    obtain ⟨⟨⟨-, h1⟩, h2⟩, -⟩ := hcand
    split_ifs at h1 h2
    omega

/-- Whatever the planner picks. -/
theorem plan_channel_good (prev : Option FseCTable) (hch : ch.Valid) (hne : codes ≠ [])
    (hcodes : ∀ c ∈ codes, c < 2 ^ ch.max_log) (h256 : ∀ c ∈ codes, c < 256)
    (hprev : ∀ t ∈ prev, ∃ dt ∈ cache, Related t dt) :
    (plan_channel codes ch.dist ch.max_symbol ch.log ch.max_log prev).Good ch cache codes := by
  obtain ⟨cost, hmem, -⟩ := @plan_channel_least ch codes prev hne
  exact candidates_good prev hch hne hcodes h256 hprev _ hmem

end Candidates

end ZstdPure.Encode
