import ZstdPure.Proofs.TrainCorpusProofs

/-!
# Proofs: the segments the trainer selects

The window of the scan holds the dmers of its positions with their multiplicities, and its score is
their weight under the current frequencies. So each round selects the first segment of the greatest
weight, and its dmers weigh nothing afterwards.
-/

namespace ZstdPure.Encode.Train

open Outcome Coverage

/-! ## What is selected -/

/-- The dmers of the `n` positions from `start` on, where they lie inside one sample. -/
def dmers (samples : List Bytes) (d start n : Nat) : List Nat :=
  ((List.range' start n).filter fun i => decide (InSample samples d i)).map (dmer samples.flatten d)

/-- The weight of the segment at `start`: the sum of `f` over its distinct dmers. -/
def gain (samples : List Bytes) (d k : Nat) (f : Nat → Nat) (start : Nat) : Nat :=
  weight f (dmers samples d start (k - d + 1))

/-- The frequencies when some segments have been selected: their dmers count no more. -/
def current (samples : List Bytes) (d k : Nat) (selected : List Nat) (v : Nat) : Nat :=
  if v ∈ selected.flatMap fun start => dmers samples d start (k - d + 1) then 0 else shared samples
    d v

/-- The segment at `start`. -/
def segment (samples : List Bytes) (k start : Nat) : Bytes := (samples.flatten.drop start).take k

/-- `start` is the first window inside one sample of the greatest weight, and weighs something. -/
structure Best (samples : List Bytes) (d k : Nat) (f : Nat → Nat) (start : Nat) : Prop where
  inside : InSample samples k start
  pos : 0 < gain samples d k f start
  max : ∀ i, InSample samples k i → gain samples d k f i ≤ gain samples d k f start
  first : ∀ i, i < start → InSample samples k i → gain samples d k f i < gain samples d k f start

/-- The counters fit their types: the frequencies and the places of a dmer in one window in 32 bits,
the positions and the bytes selected in a word. -/
structure CountersFit (samples : List Bytes) (d k max_size : Nat) : Prop where
  freq : ∀ v, shared samples d v < 2 ^ 32
  wcount : ∀ start v, (dmers samples d start (k - d + 1)).count v < 2 ^ 32
  positions : samples.flatten.length < 2 ^ 64
  accumulated : max_size + k ≤ 2 ^ 64 ∨ samples.flatten.length * k < 2 ^ 64

/-- The window holds `xs`, and its score is their weight. -/
structure Tracks (f : Nat → Nat) (xs : List Nat) (w : Window) : Prop where
  wcount : Counting w.wcount fun v => xs.count v
  score : w.score = weight f xs

/-- Every lookup of a dmer hits, and finds its frequency. -/
def Knows (samples : List Bytes) (d : Nat) (freq : Counts) (f : Nat → Nat) : Prop :=
  ∀ i, InSample samples d i → freq[dmer samples.flatten d i]? = some (f (dmer samples.flatten d i))

section Window

variable {samples : List Bytes} {d k i start n : Nat} {f : Nat → Nat} {freq : Counts} {w : Window}
  {xs : List Nat}

theorem dmers_one_of (h : InSample samples d i) : dmers samples d i 1 =
    [dmer samples.flatten d i] := by
  simp [dmers, h]

theorem dmers_one_of_not (h : ¬ InSample samples d i) : dmers samples d i 1 = [] := by
  simp [dmers, h]

theorem dmers_add (m n : Nat) :
    dmers samples d start (m + n) = dmers samples d start m ++ dmers samples d (start + m) n := by
  unfold dmers
  rw [← List.map_append, ← List.filter_append, List.range'_append_1]

theorem mem_dmers {v : Nat} : v ∈ dmers samples d start n ↔
    ∃ i, (start ≤ i ∧ i < start + n) ∧ InSample samples d i ∧ dmer samples.flatten d i = v := by
  simp only [dmers, List.mem_map, List.mem_filter, List.mem_range'_1, decide_eq_true_eq, and_assoc]

theorem lookup_ok {c : Nat} (h : freq[i]? = some c) : lookup freq i = .ok c := by
  unfold lookup
  rw [h]
  rfl

theorem knows_of_counting (h : Counting freq (shared samples d)) :
    Knows samples d freq (shared samples d) := by
  intro i hi
  obtain ⟨b, hb, hlo, hhi⟩ := hi
  obtain ⟨pre, s, post, hs, rfl⟩ := mem_sample_bounds.mp hb
  have hmem : dmer samples.flatten d i ∈ sample_dmers d s := by
    have hmap := @map_dmer_starts d pre.flatten s post.flatten
    rw [← hmap, hs, List.flatten_append, List.flatten_cons]
    exact List.mem_map_of_mem (mem_starts.mpr ⟨by simpa using hlo, by simpa using hhi⟩)
  have hpos : 0 < shared samples d (dmer samples.flatten d i) :=
    List.countP_pos_iff.mpr ⟨s, by rw [hs]; simp, decide_eq_true hmem⟩
  rw [h, if_neg (by omega)]

/-- The weight of any dmers is bounded by the size of the corpus. -/
theorem weight_le_total (hd : 1 ≤ d) (hf : ∀ v, f v ≤ shared samples d v) :
    weight f xs ≤ samples.flatten.length := by
  refine le_trans (weight_le_sum_length (samples.map (sample_dmers d)) f fun v => ?_) ?_
  · rw [List.countP_map]
    exact hf v
  · rw [List.length_flatten, List.map_map]
    refine List.sum_le_sum fun s _ => ?_
    show (sample_dmers d s).length ≤ s.length
    unfold sample_dmers
    rw [List.length_map, List.length_range]
    omega

/-- A dmer enters on the right. -/
theorem enter_spec (hd : d ≤ 8) (hi : i < samples.flatten.length - d + 1)
    (hknows : Knows samples d freq f) (h : Tracks f xs w)
    (hcount : ∀ v, (xs ++ dmers samples d i 1).count v < 2 ^ 32)
    (hweight : weight f (xs ++ dmers samples d i 1) < 2 ^ 64) :
    Returns (enter (corpus samples k d) freq w i) (Tracks f (xs ++ dmers samples d i 1)) := by
  have hget : (get (corpus samples k d).valid i : Res Bool) = .ok (decide (InSample samples d i)) :=
    get_mark hi
  unfold enter
  rw [hget, bind_ok]
  by_cases hin : InSample samples d i
  · rw [decide_eq_true hin, if_pos rfl]
    rw [dmers_one_of hin] at hcount hweight ⊢
    have hdm : dmer_at (corpus samples k d).buf i (corpus samples k d).d
        = .ok (dmer samples.flatten d i) := dmer_at_ok hd hin.piece.1
    have hc := hcount (dmer samples.flatten d i)
    rw [List.count_append, List.count_singleton_self] at hc
    rw [hdm, bind_ok, h.wcount.getD]
    dsimp only
    have hcounts : Counting (w.wcount.insert (dmer samples.flatten d i)
        (xs.count (dmer samples.flatten d i) + 1)) fun v => (xs ++ [dmer samples.flatten d i]).count
          v := by
      refine (h.wcount.insert (Nat.succ_ne_zero _)).congr fun v => ?_
      rw [List.count_append]
      split_ifs with hv
      · subst hv
        rw [List.count_singleton_self]
      · have hne : [dmer samples.flatten d i].count v = 0 :=
          List.count_eq_zero_of_not_mem fun hmem => hv (List.mem_singleton.mp hmem).symm
        rw [hne, Nat.add_zero]
    by_cases hmem : dmer samples.flatten d i ∈ xs
    · rw [if_neg (by rw [List.count_eq_zero]; exact not_not_intro hmem), pure_eq_ok, bind_ok,
        bump_ok h.wcount hc, bind_ok, pure_eq_ok, returns_ok]
      refine ⟨hcounts, ?_⟩
      rw [weight_concat, weight_cons_of_mem hmem]
      exact h.score
    · rw [weight_concat, weight_cons_of_not_mem hmem] at hweight
      rw [if_pos (List.count_eq_zero_of_not_mem hmem), lookup_ok (hknows i hin), bind_ok, h.score,
        add_ok (by omega), bind_ok, bump_ok h.wcount hc, bind_ok, pure_eq_ok, returns_ok]
      refine ⟨hcounts, ?_⟩
      rw [weight_concat, weight_cons_of_not_mem hmem]
      exact Nat.add_comm _ _
  · rw [decide_eq_false hin, if_neg Bool.false_ne_true, dmers_one_of_not hin, List.append_nil]
    exact ⟨w, rfl, h⟩

/-- A dmer leaves on the left: its counter is there and is not zero. -/
theorem leave_spec (hd : d ≤ 8) (hi : i < samples.flatten.length - d + 1)
    (hknows : Knows samples d freq f) (h : Tracks f (dmers samples d i 1 ++ xs) w) :
    Returns (leave (corpus samples k d) freq w i) (Tracks f xs) := by
  have hget : (get (corpus samples k d).valid i : Res Bool) = .ok (decide (InSample samples d i)) :=
    get_mark hi
  unfold leave
  rw [hget, bind_ok]
  by_cases hin : InSample samples d i
  · rw [decide_eq_true hin, if_pos rfl]
    rw [dmers_one_of hin, List.singleton_append] at h
    have hdm : dmer_at (corpus samples k d).buf i (corpus samples k d).d
        = .ok (dmer samples.flatten d i) := dmer_at_ok hd hin.piece.1
    have hslot : w.wcount[dmer samples.flatten d i]? = some (xs.count (dmer samples.flatten d i) +
      1) := by
      have hslot := h.wcount (dmer samples.flatten d i)
      simpa using hslot
    rw [hdm, bind_ok, hslot]
    show Returns (sub _ 1 >>= _) _
    rw [sub_ok (Nat.le_add_left 1 _), bind_ok, Nat.add_sub_cancel]
    have hscore := h.score
    by_cases hmem : dmer samples.flatten d i ∈ xs
    · rw [if_neg (by rw [List.count_eq_zero]; exact not_not_intro hmem), pure_eq_ok, returns_ok]
      constructor
      · refine (h.wcount.insert (by rw [Ne, List.count_eq_zero]; exact not_not_intro hmem)).congr
          fun v => ?_
        split_ifs with hv
        · rw [hv]
        · exact List.count_cons_of_ne hv
      · rw [weight_cons_of_mem hmem] at hscore
        exact hscore
    · rw [weight_cons_of_not_mem hmem] at hscore
      rw [if_pos (List.count_eq_zero_of_not_mem hmem), lookup_ok (hknows i hin), bind_ok,
        sub_ok (by omega), bind_ok, pure_eq_ok, returns_ok]
      constructor
      · refine h.wcount.erase.congr fun v => ?_
        split_ifs with hv
        · rw [← hv, List.count_eq_zero_of_not_mem hmem]
        · exact List.count_cons_of_ne hv
      · show w.score - _ = _
        omega
  · rw [decide_eq_false hin, if_neg Bool.false_ne_true]
    rw [dmers_one_of_not hin, List.nil_append] at h
    exact ⟨w, rfl, h⟩

end Window

/-! ## The scan -/

section Scan

variable {samples : List Bytes} {d k i start max_size : Nat} {f : Nat → Nat} {freq : Counts}

/-- The state of the scan when the window has reached `start`. -/
structure Scanned (samples : List Bytes) (d k : Nat) (f : Nat → Nat) (start : Nat) (s : Scan) :
    Prop where
  window : Tracks f (dmers samples d start (k - d + 1)) s.window
  best : FirstMax (InSample samples k) (gain samples d k f) (start + 1) s.best_score s.best_start

/-- Where the corpus lets a segment be selected. -/
structure Trainable (samples : List Bytes) (d k max_size : Nat) : Prop where
  one_le : 1 ≤ d
  le_eight : d ≤ 8
  le_len : d ≤ k
  len_le : k ≤ samples.flatten.length
  fit : CountersFit samples d k max_size

/-- The frequencies a scan may start from. -/
structure Frequencies (samples : List Bytes) (d : Nat) (freq : Counts) (f : Nat → Nat) : Prop where
  knows : Knows samples d freq f
  le_shared : ∀ v, f v ≤ shared samples d v

theorem Trainable.weight_lt (h : Trainable samples d k max_size) (hf : Frequencies samples d freq f)
    (xs : List Nat) : weight f xs < 2 ^ 64 :=
  lt_of_le_of_lt (weight_le_total h.one_le hf.le_shared) h.fit.positions

theorem first_entries_spec (h8 : d ≤ 8) (hknows : Knows samples d freq f)
    (hweight : ∀ xs, weight f xs < 2 ^ 64) : ∀ n, n ≤ samples.flatten.length - d + 1 →
    (∀ v, (dmers samples d 0 n).count v < 2 ^ 32) →
    Returns ((List.range n).foldlM (enter (corpus samples k d) freq) ⟨∅, 0⟩)
      (Tracks f (dmers samples d 0 n)) := by
  intro n
  induction n with
  | zero => intro _ _; exact ⟨_, rfl, ⟨counting_empty, rfl⟩⟩
  | succ n ih =>
    intro hn hcount
    rw [dmers_add, Nat.zero_add] at hcount ⊢
    rw [List.range_succ, List.foldlM_append]
    refine (ih (by omega) fun v => ?_).bind fun w hw => ?_
    · have := hcount v
      rw [List.count_append] at this
      omega
    · rw [List.foldlM_cons]
      exact (enter_spec h8 (by omega) hknows hw hcount (hweight _)).bind fun w' hw' =>
        ⟨w', rfl, hw'⟩

theorem first_window_spec (h : Trainable samples d k max_size) (hf : Frequencies samples d freq f) :
    Returns (first_window (corpus samples k d) freq)
      (Tracks f (dmers samples d 0 (k - d + 1))) := by
  have hk := h.len_le
  have hmin : min (corpus samples k d).seg_dmers (corpus samples k d).valid.length = k - d + 1 := by
    show min (k - d + 1) (mark_starts _ d _).length = k - d + 1
    rw [length_mark_starts]
    omega
  unfold first_window
  rw [hmin]
  exact first_entries_spec h.le_eight hf.knows (h.weight_lt hf) _ (by omega) (h.fit.wcount 0)

theorem slide_spec (h : Trainable samples d k max_size) (hf : Frequencies samples d freq f)
    {s : Scan}
    (hs : Scanned samples d k f start s)
    (hstart : start + 1 ≤ samples.flatten.length - k) :
    Returns (slide (corpus samples k d) freq s (start + 1))
      (Scanned samples d k f (start + 1)) := by
  have hone := h.one_le
  have hk := h.le_len
  have hlen := h.len_le
  have htotal := h.fit.positions
  have hget : (get (corpus samples k d).valid_seg (start + 1) : Res Bool)
      = .ok (decide (InSample samples k (start + 1))) := get_mark (by omega)
  have hleft : dmers samples d start (k - d + 1)
      = dmers samples d start 1 ++ dmers samples d (start + 1) (k - d) := by
    rw [Nat.add_comm (k - d) 1, dmers_add]
  have hright : dmers samples d (start + 1) (k - d + 1)
      = dmers samples d (start + 1) (k - d) ++ dmers samples d (start + 1 + (k - d)) 1 :=
      dmers_add _ _
  have hseg : (corpus samples k d).seg_dmers = k - d + 1 := rfl
  unfold slide
  rw [hget, bind_ok, sub_ok (by omega), bind_ok, Nat.add_sub_cancel]
  have hwin := hs.window
  rw [hleft] at hwin
  refine (leave_spec h.le_eight (by omega) hf.knows hwin).bind fun w hw => ?_
  rw [hseg, add_ok (by omega), bind_ok, sub_ok (by omega), bind_ok]
  have hhi : start + 1 + (k - d + 1) - 1 = start + 1 + (k - d) := by omega
  rw [hhi]
  refine (enter_spec h.le_eight (by omega) hf.knows hw ?_ (h.weight_lt hf _)).bind fun w' hw' => ?_
  · rw [← hright]
    exact h.fit.wcount _
  · rw [← hright] at hw'
    have hscore : w'.score = gain samples d k f (start + 1) := hw'.score
    by_cases hin : InSample samples k (start + 1)
    · by_cases hlt : s.best_score < w'.score
      · rw [decide_eq_true hin, decide_eq_true hlt, Bool.true_and, if_pos rfl, pure_eq_ok,
          returns_ok]
        refine ⟨hw', ?_⟩
        rw [hscore] at hlt ⊢
        exact hs.best.better hin hlt
      · rw [decide_eq_false hlt, Bool.and_false, if_neg Bool.false_ne_true, pure_eq_ok, returns_ok]
        refine ⟨hw', hs.best.keep fun _ => ?_⟩
        rw [← hscore]
        exact Nat.le_of_not_lt hlt
    · rw [decide_eq_false hin, Bool.false_and, if_neg Bool.false_ne_true, pure_eq_ok, returns_ok]
      exact ⟨hw', hs.best.keep fun h => absurd h hin⟩

/-- Wherever the scan has got, the window holds its dmers and the best start is the first maximum.
-/
theorem scan_spec (h : Trainable samples d k max_size) (hf : Frequencies samples d freq f) : ∀ last,
    last ≤ samples.flatten.length - k →
    Returns (scan (corpus samples k d) freq last) (Scanned samples d k f last) := by
  intro last
  induction last with
  | zero =>
    intro _
    have hget : (get (corpus samples k d).valid_seg 0 : Res Bool)
        = .ok (decide (InSample samples k 0)) := get_mark (Nat.succ_pos _)
    unfold scan
    refine (first_window_spec h hf).bind fun w hw => ?_
    have hscore : w.score = gain samples d k f 0 := hw.score
    rw [hget, bind_ok, List.range'_zero, List.foldlM_nil, pure_eq_ok, returns_ok]
    refine ⟨hw, ?_, ?_⟩
    · intro i hi hin
      obtain rfl : i = 0 := by omega
      rw [decide_eq_true hin, if_pos rfl, hscore]
    · intro hpos
      by_cases hin : InSample samples k 0
      · refine ⟨Nat.succ_pos _, hin, ?_, fun i hi => absurd hi (Nat.not_lt_zero _)⟩
        rw [decide_eq_true hin, if_pos rfl, hscore]
      · rw [decide_eq_false hin, if_neg Bool.false_ne_true] at hpos
        exact absurd hpos (lt_irrefl 0)
  | succ last ih =>
    intro hlast
    have hstep : scan (corpus samples k d) freq (last + 1)
        = scan (corpus samples k d) freq last >>= fun s => slide (corpus samples k d) freq s
          (last + 1) := by
      unfold scan
      simp only [bind_assoc]
      refine bind_congr fun w => bind_congr fun ok => ?_
      rw [List.range'_concat, List.foldlM_append, Nat.one_mul, Nat.add_comm 1 last]
      refine bind_congr fun s => ?_
      rw [List.foldlM_cons]
      exact bind_pure _
    rw [hstep]
    exact (ih (by omega)).bind fun s hs => slide_spec h hf hs hlast

end Scan

/-! ## The selection -/

section Selection

variable {samples : List Bytes} {d k start n max_size : Nat} {f : Nat → Nat} {freq : Counts}

/-- The dmers that are covered count no more; the other lookups find what they found. -/
theorem cover_spec (hd : d ≤ 8) (hlen : start + n ≤ samples.flatten.length - d + 1)
    (h : Knows samples d freq f) :
    Returns ((List.range' start n).foldlM (cover (corpus samples k d)) freq) fun freq =>
      Knows samples d freq fun v => if v ∈ dmers samples d start n then 0 else f v := by
  induction n with
  | zero => exact ⟨freq, rfl, fun i hi => by simpa [dmers] using h i hi⟩
  | succ n ih =>
    rw [List.range'_concat, List.foldlM_append, Nat.one_mul]
    refine (ih (by omega)).bind fun freq hfreq => ?_
    have hget : (get (corpus samples k d).valid (start + n) : Res Bool)
        = .ok (decide (InSample samples d (start + n))) := get_mark (by omega)
    rw [List.foldlM_cons]
    unfold cover
    rw [hget, bind_ok]
    by_cases hin : InSample samples d (start + n)
    · have hdm : dmer_at (corpus samples k d).buf (start + n) (corpus samples k d).d
          = .ok (dmer samples.flatten d (start + n)) := dmer_at_ok hd hin.piece.1
      rw [decide_eq_true hin, if_pos rfl, hdm, bind_ok, pure_eq_ok, bind_ok, List.foldlM_nil,
        pure_eq_ok,
        returns_ok]
      intro i hi
      rw [Std.TreeMap.getElem?_insert, hfreq i hi, dmers_add, dmers_one_of hin]
      simp only [Nat.compare_eq_eq, List.mem_append, List.mem_singleton]
      by_cases hv : dmer samples.flatten d (start + n) = dmer samples.flatten d i
      · rw [if_pos hv, if_pos (Or.inr hv.symm)]
      · have hne : dmer samples.flatten d i ≠ dmer samples.flatten d (start + n) :=
          fun e => hv e.symm
        simp only [if_neg hv, hne, or_false]
    · rw [decide_eq_false hin, if_neg Bool.false_ne_true, pure_eq_ok, bind_ok, List.foldlM_nil,
        pure_eq_ok,
        returns_ok]
      intro i hi
      rw [hfreq i hi, dmers_add, dmers_one_of_not hin, List.append_nil]

theorem current_nil : current samples d k [] = shared samples d := by
  funext v
  simp [current]

theorem current_concat (selected : List Nat) :
    current samples d k (selected ++ [start]) = fun v =>
      if v ∈ dmers samples d start (k - d + 1) then 0 else current samples d k selected v := by
  funext v
  simp only [current, List.flatMap_append, List.mem_append, List.flatMap_singleton]
  split_ifs <;> tauto

theorem current_le_shared (selected : List Nat) (v : Nat) :
    current samples d k selected v ≤ shared samples d v := by
  unfold current
  split_ifs
  · exact Nat.zero_le _
  · exact le_rfl

/-- A state of the selection: each segment selected was the best one when it was, and the
frequencies are the current ones. -/
structure Selecting (samples : List Bytes) (d k : Nat) (g : Greedy) : Prop where
  knows : Knows samples d g.freq (current samples d k g.selected)
  accumulated : g.accumulated = g.selected.length * k
  accumulated_lt : g.accumulated < 2 ^ 64
  best : ∀ n (h : n < g.selected.length),
    Best samples d k (current samples d k (g.selected.take n)) g.selected[n]
  fresh : g.selected.length ≤
    (g.selected.flatMap fun start => dmers samples d start (k - d + 1)).toFinset.card

theorem Selecting.frequencies {g : Greedy} (hg : Selecting samples d k g) :
    Frequencies samples d g.freq (current samples d k g.selected) := ⟨hg.knows, current_le_shared _⟩

theorem length_dmers_le : (dmers samples d start n).length ≤ n := by
  unfold dmers
  rw [List.length_map]
  exact le_trans (List.length_filter_le _ _) (List.length_range').le

/-- There are no more distinct dmers than positions. -/
theorem card_dmers_le (h1 : 1 ≤ d) (selected : List Nat) :
    (selected.flatMap fun start => dmers samples d start n).toFinset.card ≤
      samples.flatten.length := by
  have hsub : (selected.flatMap fun start => dmers samples d start n).toFinset
      ⊆ (dmers samples d 0 samples.flatten.length).toFinset := by
    intro v hv
    obtain ⟨start, -, hmem⟩ := List.mem_flatMap.mp (List.mem_toFinset.mp hv)
    obtain ⟨i, -, hin, rfl⟩ := mem_dmers.mp hmem
    have := hin.piece.1
    exact List.mem_toFinset.mpr (mem_dmers.mpr ⟨i, ⟨Nat.zero_le i, by omega⟩, hin, rfl⟩)
  exact le_trans (Finset.card_le_card hsub) (le_trans (List.toFinset_card_le _) length_dmers_le)

/-- A segment that weighs something has a dmer that none before it has. -/
theorem Best.fresh {selected : List Nat} (h : Best samples d k (current samples d k selected) start)
    (hcard : selected.length ≤
      (selected.flatMap fun start => dmers samples d start (k - d + 1)).toFinset.card) :
    (selected ++ [start]).length ≤
      ((selected ++ [start]).flatMap fun start => dmers samples d start
        (k - d + 1)).toFinset.card := by
  have hnew : ∃ v ∈ dmers samples d start (k - d + 1), current samples d k selected v ≠ 0 := by
    by_contra hc
    push Not at hc
    have hpos := h.pos
    unfold gain at hpos
    rw [weight_eq_zero hc] at hpos
    exact lt_irrefl 0 hpos
  obtain ⟨v, hv, hcur⟩ := hnew
  have hold : v ∉ selected.flatMap fun start => dmers samples d start (k - d + 1) := by
    intro hmem
    exact hcur (if_pos hmem)
  rw [List.length_append, List.length_singleton, List.flatMap_append, List.flatMap_singleton]
  refine le_trans (Nat.succ_le_succ hcard) (Finset.card_lt_card ?_)
  rw [Finset.ssubset_iff_of_subset fun u hu => by simp [List.mem_toFinset.mp hu]]
  exact ⟨v, by simp [hv], fun hmem => hold (List.mem_toFinset.mp hmem)⟩

/-- No window inside one sample weighs anything any more. -/
def Exhausted (samples : List Bytes) (d k : Nat) (selected : List Nat) : Prop :=
  ∀ start, InSample samples k start → gain samples d k (current samples d k selected) start = 0

/-- One round ends the selection, when nothing is left, or adds the best segment to it. -/
theorem pick_spec {g : Greedy} (h : Trainable samples d k max_size)
    (hg : Selecting samples d k g) (hmax : g.accumulated < max_size) :
    Returns (pick (corpus samples k d) g) fun g' =>
      (g' = { g with done := true } ∧ Exhausted samples d k g.selected) ∨
        ∃ start, g'.selected = g.selected ++ [start] ∧ g'.done = false ∧
        Selecting samples d k g' := by
  have hk := h.le_len
  have hlen := h.len_le
  have hlast : (corpus samples k d).valid_seg.length - 1 = samples.flatten.length - k := by
    show (mark_starts _ k _).length - 1 = _
    rw [length_mark_starts]
    rfl
  unfold pick
  rw [hlast]
  refine (scan_spec h hg.frequencies _ le_rfl).bind fun s hs => ?_
  by_cases hzero : s.best_score = 0
  · rw [if_pos hzero, pure_eq_ok, returns_ok]
    refine Or.inl ⟨rfl, fun start hstart => ?_⟩
    have := hstart.piece.1
    exact Nat.le_zero.mp (hzero ▸ hs.best.le start (by omega) hstart)
  · obtain ⟨hlt, hin, hgain, hfirst⟩ := hs.best.first (by omega)
    have hbest : Best samples d k (current samples d k g.selected) s.best_start := by
      refine ⟨hin, by rw [hgain]; omega, fun i hi => ?_, fun i hi hini => ?_⟩
      · rw [hgain]
        have := hi.piece.1
        exact hs.best.le i (by omega) hi
      · rw [hgain]
        exact hfirst i hi hini
    have hfresh := hbest.fresh hg.fresh
    -- the bytes selected are those of so many segments, each with a dmer of its own
    have hacc : g.accumulated + k < 2 ^ 64 := by
      rcases h.fit.accumulated with hbudget | hbudget
      · omega
      · refine lt_of_le_of_lt ?_ hbudget
        rw [hg.accumulated, ← Nat.succ_mul]
        refine Nat.mul_le_mul_right k (le_trans ?_ (@card_dmers_le samples d (k - d + 1) h.one_le
          (g.selected ++ [s.best_start])))
        rw [List.length_append, List.length_singleton] at hfresh
        exact hfresh
    rw [if_neg hzero, show (corpus samples k d).k = k from rfl, add_ok hacc, bind_ok]
    refine (@cover_spec samples d k s.best_start (k - d + 1) _ _ h.le_eight ?_ hg.knows).bind
      fun freq hfreq => ?_
    · have := hin.piece.1
      omega
    · rw [pure_eq_ok, returns_ok]
      refine Or.inr ⟨s.best_start, rfl, rfl, ?_, ?_, hacc, ?_, hfresh⟩
      · show Knows samples d freq (current samples d k (g.selected ++ [s.best_start]))
        rw [current_concat]
        exact hfreq
      · show g.accumulated + k = (g.selected ++ [s.best_start]).length * k
        rw [hg.accumulated, List.length_append, List.length_singleton, Nat.add_mul, Nat.one_mul]
      · intro n hn
        rw [List.length_append, List.length_singleton] at hn
        rcases Nat.lt_succ_iff_lt_or_eq.mp hn with hn | rfl
        · show Best samples d k (current samples d k ((g.selected ++ [s.best_start]).take n))
            (g.selected ++ [s.best_start])[n]
          rw [List.take_append_of_le_length hn.le, List.getElem_append_left hn]
          exact hg.best n hn
        · show Best samples d k
            (current samples d k ((g.selected ++ [s.best_start]).take g.selected.length))
            (g.selected ++ [s.best_start])[g.selected.length]
          rw [List.take_append_of_le_length le_rfl, List.take_length,
            List.getElem_append_right le_rfl]
          simpa using hbest

/-- The states of the selection up to some point, each one round after the one before. -/
def Rounds (samples : List Bytes) (d k : Nat) (freq : Counts) (selected : List Nat) : Prop :=
  ∀ n, n ≤ selected.length → ∃ g, times (pick (corpus samples k d)) n (unselected freq) = .ok g ∧
    g.selected = selected.take n ∧ Selecting samples d k g

theorem selecting_start (h : Counting freq (shared samples d)) :
    Selecting samples d k (unselected freq) := by
  refine ⟨?_, (Nat.zero_mul k).symm, Nat.two_pow_pos 64, fun n hn => absurd hn (Nat.not_lt_zero n),
    Nat.zero_le _⟩
  show Knows samples d freq (current samples d k [])
  rw [current_nil]
  exact knows_of_counting h

/-- The loop ends when the budget is reached or nothing is left, and every state on its way is one
of the selection. -/
theorem select_spec (h : Trainable samples d k max_size)
    (hfreq : Counting freq (shared samples d)) :
    Returns (loop (fun g => !g.done && decide (g.accumulated < max_size))
      (pick (corpus samples k d))
      (max_size + 2) (unselected freq)) fun g =>
      Selecting samples d k g ∧ Rounds samples d k freq g.selected ∧
        (max_size ≤ g.selected.length * k ∨ Exhausted samples d k g.selected) := by
  have hk := h.one_le
  have hd := h.le_len
  refine (Returns.loop (fun g => Selecting samples d k g ∧ Rounds samples d k freq g.selected ∧
      if g.done then Exhausted samples d k g.selected
      else times (pick (corpus samples k d)) g.selected.length (unselected freq) = .ok g)
    (fun g => if g.done then 0 else max_size - g.accumulated + 1) ?_ (max_size + 2)
      (unselected freq)
    ⟨selecting_start hfreq, ?_, ?_⟩ ?_).mono ?_
  · rintro g ⟨hg, hrounds, hnow⟩ hcond
    rw [Bool.and_eq_true, Bool.not_eq_true', decide_eq_true_eq] at hcond
    obtain ⟨hdone, hmax⟩ := hcond
    rw [hdone, if_neg Bool.false_ne_true] at hnow
    obtain ⟨g', hpick, hg'⟩ := pick_spec h hg hmax
    refine ⟨g', hpick, ?_⟩
    rw [hdone, if_neg Bool.false_ne_true]
    rcases hg' with ⟨rfl, hnone⟩ | ⟨start, hsel, hdone', hnext⟩
    · exact ⟨⟨⟨hg.knows, hg.accumulated, hg.accumulated_lt, hg.best, hg.fresh⟩, hrounds, hnone⟩,
        Nat.succ_pos _⟩
    · have htimes : times (pick (corpus samples k d)) g'.selected.length (unselected freq) =
        .ok g' := by
        rw [hsel, List.length_append, List.length_singleton, times_succ_last, hnow, bind_ok]
        exact hpick
      rw [hdone', if_neg Bool.false_ne_true, if_neg Bool.false_ne_true]
      refine ⟨⟨hnext, ?_, htimes⟩, ?_⟩
      · intro n hn
        rw [hsel, List.length_append, List.length_singleton] at hn
        rcases Nat.le_succ_iff.mp hn with hn | rfl
        · obtain ⟨g'', ht, hs, hsel'⟩ := hrounds n hn
          exact ⟨g'', ht, by rw [hs, hsel, List.take_append_of_le_length hn], hsel'⟩
        · refine ⟨g', ?_, ?_, hnext⟩
          · rw [← htimes, hsel, List.length_append, List.length_singleton]
          · rw [List.take_of_length_le]
            rw [hsel, List.length_append, List.length_singleton]
      · rw [hnext.accumulated, hsel, List.length_append, List.length_singleton, Nat.add_mul,
          ← hg.accumulated]
        omega
  · intro n hn
    obtain rfl : n = 0 := Nat.le_zero.mp hn
    exact ⟨unselected freq, rfl, rfl, selecting_start hfreq⟩
  · rfl
  · show (if false = true then 0 else max_size - 0 + 1) < max_size + 2
    rw [if_neg Bool.false_ne_true]
    omega
  · rintro g ⟨⟨hg, hrounds, hnow⟩, hcond⟩
    refine ⟨hg, hrounds, ?_⟩
    rw [Bool.and_eq_false_iff, Bool.not_eq_false', decide_eq_false_iff_not, Nat.not_lt] at hcond
    rcases hcond with hdone | hmax
    · rw [hdone, if_pos rfl] at hnow
      exact Or.inr hnow
    · rw [hg.accumulated] at hmax
      exact Or.inl hmax

/-- The last `max_size` bytes. -/
def trim (max_size : Nat) (content : Bytes) : Bytes := content.drop (content.length - max_size)

theorem trim_of_le {content : Bytes} (h : content.length ≤ max_size) : trim max_size content =
    content := by
  rw [trim, Nat.sub_eq_zero_of_le h, List.drop_zero]

theorem length_trim (content : Bytes) : (trim max_size content).length = min content.length
    max_size := by
  rw [trim, List.length_drop]
  omega

/-- The dictionary is the end of the selected segments, the first one last. -/
theorem concatenate_spec {selected : List Nat} (hlen : selected.length * k < 2 ^ 64)
    (h : ∀ start ∈ selected, start + k ≤ samples.flatten.length) :
    concatenate samples.flatten max_size k selected = .ok (trim max_size
      (selected.reverse.map (segment samples k)).flatten) := by
  have hparts : (selected.reverse.mapM fun start => slice samples.flatten start (start + k) : Res _)
      = .ok (selected.reverse.map (segment samples k)) := by
    rw [mapM_eq_ok, List.forall₂_map_right_iff, List.forall₂_same]
    intro start hstart
    rw [slice_ok (Nat.le_add_right _ _) (h start (List.mem_reverse.mp hstart)), List.drop_take,
      Nat.add_sub_cancel_left]
    rfl
  unfold concatenate
  rw [mul_ok hlen, bind_ok, hparts, bind_ok]
  dsimp only
  unfold trim
  split_ifs with hcut
  · rfl
  · rw [Nat.sub_eq_zero_of_le (Nat.le_of_not_lt hcut), List.drop_zero]
    rfl

end Selection

/-! ## The result -/

section Result

variable {samples : List Bytes} {max_size k_req d : Nat}

/-- The counters fit for every corpus of less than `2 ^ 32` bytes. -/
theorem countersFit_of_total (h1 : 1 ≤ d) (h8 : d ≤ 8) (h : samples.flatten.length < 2 ^ 32) :
    CountersFit samples d (segment_len samples k_req d) max_size := by
  have hshared : ∀ v, shared samples d v ≤ samples.flatten.length := by
    intro v
    exact le_trans (le_weight (List.mem_singleton_self v)) (weight_le_total h1 fun _ => le_rfl)
  have hpositions : ∀ start n, (dmers samples d start n).length ≤ samples.flatten.length := by
    intro start n
    unfold dmers
    rw [List.length_map, ← List.toFinset_card_of_nodup (List.Nodup.filter _ List.nodup_range')]
    refine le_trans (Finset.card_le_card fun i hi => ?_) (Finset.card_range _).le
    have hin := of_decide_eq_true (List.mem_filter.mp (List.mem_toFinset.mp hi)).2
    have := hin.piece.1
    rw [Finset.mem_range]
    omega
  have hlongest : (samples.map List.length).max?.getD 0 ≤ samples.flatten.length := by
    cases hmax : (samples.map List.length).max? with
    | none => exact Nat.zero_le _
    | some m =>
      rw [List.length_flatten]
      exact List.le_sum_of_mem (List.max?_mem hmax)
  refine ⟨fun v => lt_of_le_of_lt (hshared v) h, fun start v => ?_, lt_trans h (by decide),
    Or.inr ?_⟩
  · exact lt_of_le_of_lt (le_trans List.count_le_length (hpositions _ _)) h
  · have hk : segment_len samples k_req d < 2 ^ 32 := by
      unfold segment_len
      omega
    calc samples.flatten.length * segment_len samples k_req d
        ≤ samples.flatten.length * 2 ^ 32 := Nat.mul_le_mul_left _ hk.le
      _ < 2 ^ 32 * 2 ^ 32 := Nat.mul_lt_mul_of_pos_right h (by decide)
      _ = 2 ^ 64 := by decide

theorem le_segment_len : d ≤ segment_len samples k_req d := le_max_right _ _

/-- A selection that is made: it ends when the budget is reached or nothing is left. -/
structure Selected (samples : List Bytes) (d k max_size : Nat) (freq : Counts)
    (selected : List Nat) :
    Prop where
  best : ∀ n (h : n < selected.length),
    Best samples d k (current samples d k (selected.take n)) selected[n]
  rounds : Rounds samples d k freq selected
  exit : max_size ≤ selected.length * k ∨ Exhausted samples d k selected

/-- Where a segment fits, the dictionary is the end of a selection. -/
theorem train_cover_run {k : Nat} (hk : segment_len samples k_req d = k)
    (h : Trainable samples d k max_size) (hmax : max_size ≠ 0) :
    ∃ (freq : Counts) (selected : List Nat),
      count_dmers samples.flatten d (sample_bounds 0 samples) = .ok freq ∧
      Selected samples d k max_size freq selected ∧
      train_cover samples max_size k_req d
        = .ok (trim max_size (selected.reverse.map (segment samples k)).flatten) := by
  obtain ⟨freq, hcount, hfreq⟩ := count_dmers_spec h.le_eight h.fit.freq
  obtain ⟨g, hloop, hg, hrounds, hexit⟩ := select_spec h hfreq
  refine ⟨freq, g.selected, hcount, ⟨hg.best, hrounds, hexit⟩, ?_⟩
  have hd := h.le_len
  have hlen := h.len_le
  unfold train_cover
  rw [if_neg hmax, if_neg (by omega), hcount, bind_ok, hk]
  dsimp only
  rw [if_neg (by omega), hloop, bind_ok]
  refine concatenate_spec (by rw [← hg.accumulated]; exact hg.accumulated_lt) fun start hstart => ?_
  obtain ⟨n, hn, rfl⟩ := List.getElem_of_mem hstart
  exact (hg.best n hn).inside.piece.1

/-- Where no segment fits, or nothing may be kept, the dictionary is empty. -/
theorem train_cover_empty {k : Nat} (hk : segment_len samples k_req d = k) (h8 : d ≤ 8)
    (hfit : ∀ v, shared samples d v < 2 ^ 32)
    (h : ¬ (max_size ≠ 0 ∧ k ≤ samples.flatten.length)) : train_cover samples max_size k_req d =
      .ok [] := by
  obtain ⟨freq, hcount, -⟩ := count_dmers_spec h8 hfit
  unfold train_cover
  split_ifs
  · rfl
  · rfl
  · rw [hcount, bind_ok, hk]
    dsimp only
    rw [if_pos (by omega)]
    rfl

/-- Every dictionary is the end of a selection: of the empty one where no segment fits or nothing
may be kept. -/
theorem train_cover_selected {k : Nat} (hk : segment_len samples k_req d = k) (h1 : 1 ≤ d)
    (h8 : d ≤ 8)
    (hdk : d ≤ k) (hfit : CountersFit samples d k max_size) :
    ∃ (selected : List Nat) (freq : Counts),
      count_dmers samples.flatten d (sample_bounds 0 samples) = .ok freq ∧
      Selected samples d k max_size freq selected ∧
      train_cover samples max_size k_req d
        = .ok (trim max_size (selected.reverse.map (segment samples k)).flatten) := by
  by_cases hgo : max_size ≠ 0 ∧ k ≤ samples.flatten.length
  · obtain ⟨freq, selected, hcount, hsel, hrun⟩ := train_cover_run hk ⟨h1, h8, hdk, hgo.2, hfit⟩
      hgo.1
    exact ⟨selected, freq, hcount, hsel, hrun⟩
  · obtain ⟨freq, hcount, hfreq⟩ := count_dmers_spec h8 hfit.freq
    have hrounds : Rounds samples d k freq [] := by
      intro n hn
      obtain rfl : n = 0 := Nat.le_zero.mp hn
      exact ⟨unselected freq, rfl, rfl, selecting_start hfreq⟩
    have hexit : max_size ≤ ([] : List Nat).length * k ∨ Exhausted samples d k [] := by
      by_cases hmax : max_size = 0
      · exact Or.inl (by rw [hmax]; exact Nat.zero_le _)
      · refine Or.inr fun start hstart => absurd hstart.piece.1 ?_
        omega
    refine ⟨[], freq, hcount, ⟨fun n hn => absurd hn (Nat.not_lt_zero n), hrounds, hexit⟩, ?_⟩
    rw [train_cover_empty hk h8 hfit.freq hgo, List.reverse_nil, List.map_nil, List.flatten_nil,
      trim_of_le]
    exact Nat.zero_le _

theorem train_cover_returns (h1 : 1 ≤ d) (h8 : d ≤ 8)
    (hfit : CountersFit samples d (segment_len samples k_req d) max_size) :
    Returns (train_cover samples max_size k_req d) fun content => content.length ≤ max_size := by
  obtain ⟨selected, -, -, -, hrun⟩ := train_cover_selected rfl h1 h8 le_segment_len hfit
  exact ⟨_, hrun, le_of_eq_of_le (length_trim _) (min_le_right _ _)⟩

/-- One sample no longer than a segment is the whole dictionary, where the budget lets it. -/
theorem train_cover_single {s : Bytes} (h1 : 1 ≤ d) (h8 : d ≤ 8) (hd : d ≤ s.length)
    (hreq : s.length ≤ k_req) (hmax : s.length ≤ max_size) (h32 : s.length < 2 ^ 32) :
    train_cover [s] max_size k_req d = .ok s := by
  have hflat : [s].flatten = s := by simp
  have hk : segment_len [s] k_req d = s.length := by
    simp only [segment_len, List.map_cons, List.map_nil, List.max?_singleton, Option.getD_some]
    omega
  have hfit := @countersFit_of_total [s] max_size k_req d h1 h8 (by rwa [hflat])
  rw [hk] at hfit
  obtain ⟨freq, selected, -, hsel, hrun⟩ := train_cover_run hk
    ⟨h1, h8, hd, by rw [hflat], hfit⟩ (by omega : max_size ≠ 0)
  have hin : ∀ i, InSample [s] s.length i ↔ i = 0 := by
    intro i
    simp only [InSample, sample_bounds, List.mem_singleton, exists_eq_left]
    omega
  -- the dmers of the sample weigh something once, and nothing when they are covered
  have hfirst : 0 < gain [s] d s.length (current [s] d s.length []) 0 := by
    have hpos : InSample [s] d 0 :=
      ⟨(0, 0 + s.length), by simp [sample_bounds], by simp, by simpa using hd⟩
    have hmem : dmer [s].flatten d 0 ∈ dmers [s] d 0 (s.length - d + 1) :=
      mem_dmers.mpr ⟨0, ⟨le_rfl, by omega⟩, hpos, rfl⟩
    refine lt_of_lt_of_le ?_ (le_weight hmem)
    rw [current_nil, hflat]
    refine List.countP_pos_iff.mpr ⟨s, List.mem_singleton_self s, decide_eq_true ?_⟩
    exact List.mem_map_of_mem (List.mem_range.mpr (by omega))
  have hcovered : gain [s] d s.length (current [s] d s.length [0]) 0 = 0 := by
    refine weight_eq_zero fun v hv => ?_
    unfold current
    rw [if_pos (by simpa using hv)]
  have hone : selected = [0] := by
    have hlen : selected.length < 2 := by
      by_contra hc
      have hb0 := hsel.best 0 (by omega)
      have hb1 := hsel.best 1 (by omega)
      have hpos := hb1.pos
      rw [(hin _).mp hb1.inside, List.take_one, List.head?_eq_getElem?,
        List.getElem?_eq_getElem (by omega), (hin _).mp hb0.inside, Option.toList_some,
        hcovered] at hpos
      exact lt_irrefl 0 hpos
    rcases selected with _ | ⟨start, _ | ⟨start', rest⟩⟩
    · -- an empty selection would have stopped at a start that still weighs something
      rcases hsel.exit with hfull | hnone
      · rw [List.length_nil, Nat.zero_mul] at hfull
        omega
      · have := hnone 0 ((hin 0).mpr rfl)
        omega
    · exact congrArg (fun i => [i]) ((hin _).mp (hsel.best 0 (by simp)).inside)
    · simp only [List.length_cons] at hlen
      omega
  rw [hrun, hone]
  simp only [List.reverse_singleton, List.map_cons, List.map_nil, List.flatten_cons,
    List.flatten_nil,
    List.append_nil, segment, List.drop_zero, List.take_length]
  rw [trim_of_le hmax]

/-- A state of the selection in which every lookup hits, and in which, wherever the scan has got,
the window holds exactly its dmers, the score is their weight and the best start is the first
maximum. -/
structure Exact (samples : List Bytes) (d k : Nat) (selected : List Nat) (g : Greedy) : Prop where
  eq : g.selected = selected
  knows : Knows samples d g.freq (current samples d k selected)
  scans : ∀ last, last ≤ samples.flatten.length - k →
    Returns (scan (corpus samples k d) g.freq last)
      (Scanned samples d k (current samples d k selected) last)

/-- `train_cover` returns the last `max_size` bytes of the segments it selects, last one first. The
selection is complete: it ends when the budget is reached or no segment weighs anything. Each
segment lies inside one sample and is the first one of the greatest weight under the frequencies
current at its round; every state of the selection is exact. -/
theorem train_cover_selects (h1 : 1 ≤ d) (h8 : d ≤ 8)
    (hfit : CountersFit samples d (segment_len samples k_req d) max_size) :
    let k := segment_len samples k_req d
    ∃ selected : List Nat,
      let picked := (selected.reverse.map (segment samples k)).flatten
      train_cover samples max_size k_req d = .ok (trim max_size picked) ∧
      (trim max_size picked).length ≤ max_size ∧ trim max_size picked <:+ picked ∧
      (∀ start ∈ selected, ∃ s ∈ samples, segment samples k start <:+: s) ∧
      (∀ n (h : n < selected.length),
        Best samples d k (current samples d k (selected.take n)) selected[n]) ∧
      (max_size ≤ selected.length * k ∨ Exhausted samples d k selected) ∧
      (k ≤ samples.flatten.length →
        ∃ freq, count_dmers samples.flatten d (sample_bounds 0 samples) = .ok freq ∧
          ∀ n, n ≤ selected.length → ∃ g,
            times (pick (corpus samples k d)) n (unselected freq) = .ok g ∧
            Exact samples d k (selected.take n) g) := by
  intro k
  have hdk : d ≤ k := le_segment_len
  have hk : segment_len samples k_req d = k := rfl
  clear_value k
  rw [hk] at hfit
  obtain ⟨selected, freq, hcount, hsel, hrun⟩ := train_cover_selected hk h1 h8 hdk hfit
  refine ⟨selected, hrun, ?_, List.drop_suffix _ _, ?_, hsel.best, hsel.exit, ?_⟩
  · rw [length_trim]
    exact min_le_right _ _
  · intro start hstart
    obtain ⟨n, hn, rfl⟩ := List.getElem_of_mem hstart
    exact (hsel.best n hn).inside.piece.2
  · intro hlen
    refine ⟨freq, hcount, fun n hn => ?_⟩
    obtain ⟨g, htimes, heq, hg⟩ := hsel.rounds n hn
    rw [← heq]
    exact ⟨g, htimes, rfl, hg.knows, scan_spec ⟨h1, h8, hdk, hlen, hfit⟩ hg.frequencies⟩

theorem train_cover_selects_two_samples :
    let samples : List Bytes := [[1, 2, 3, 4, 5, 6, 7, 8, 9, 10], [1, 2, 3, 4, 5, 6, 7, 8, 11, 12]]
    let k := segment_len samples 9 8
    ∃ selected : List Nat,
      let picked := (selected.reverse.map (segment samples k)).flatten
      train_cover samples 20 9 8 = .ok (trim 20 picked) ∧
      (trim 20 picked).length ≤ 20 ∧ trim 20 picked <:+ picked ∧
      (∀ start ∈ selected, ∃ s ∈ samples, segment samples k start <:+: s) ∧
      (∀ n (h : n < selected.length),
        Best samples 8 k (current samples 8 k (selected.take n)) selected[n]) ∧
      (20 ≤ selected.length * k ∨ Exhausted samples 8 k selected) ∧
      (k ≤ samples.flatten.length →
        ∃ freq, count_dmers samples.flatten 8 (sample_bounds 0 samples) = .ok freq ∧
          ∀ n, n ≤ selected.length → ∃ g,
            times (pick (corpus samples k 8)) n (unselected freq) = .ok g ∧
            Exact samples 8 k (selected.take n) g) :=
  train_cover_selects (by decide) (by decide) (countersFit_of_total (by decide) (by decide)
    (by decide))

end Result

/-! ## Windows too long for the counters -/

section Overflow

variable {samples : List Bytes} {d k i m : Nat} {f : Nat → Nat} {freq : Counts} {w : Window}
  {xs : List Nat}

theorem enter_overflow (hd : d ≤ 8) (hi : i < samples.flatten.length - d + 1)
    (hin : InSample samples d i) (h : Tracks f xs w)
    (hcount : xs.count (dmer samples.flatten d i) + 1 = 2 ^ 32) :
    enter (corpus samples k d) freq w i = crash .overflow := by
  have hget : (get (corpus samples k d).valid i : Res Bool) = .ok (decide (InSample samples d i)) :=
    get_mark hi
  have hdm : dmer_at (corpus samples k d).buf i (corpus samples k d).d
      = .ok (dmer samples.flatten d i) := dmer_at_ok hd hin.piece.1
  have hbump : bump w.wcount (dmer samples.flatten d i) = crash .overflow := by
    unfold bump add
    rw [h.wcount.getD, if_neg (by omega)]
    rfl
  unfold enter
  rw [hget, bind_ok, decide_eq_true hin, if_pos rfl, hdm, bind_ok, h.wcount.getD]
  dsimp only
  rw [if_neg (by omega), pure_eq_ok, bind_ok, hbump, bind_crash]

theorem inSample_single {s : Bytes} {len : Nat} : InSample [s] len i ↔ i + len ≤ s.length := by
  simp [InSample, sample_bounds]

theorem dmer_zeros (h : i < m) : dmer (List.replicate m 0) 1 i = 0 := by
  unfold dmer
  rw [List.drop_replicate, List.take_replicate, Nat.min_eq_left (by omega)]
  rfl

theorem dmers_zeros {n : Nat} (h : n ≤ m) : dmers [List.replicate m 0] 1 0 n = List.replicate n
    0 := by
  have hflat : [List.replicate m (0 : UInt8)].flatten = List.replicate m 0 := by simp
  induction n with
  | zero => rfl
  | succ n ih =>
    have hin : InSample [List.replicate m 0] 1 n :=
      inSample_single.mpr (by rw [List.length_replicate]; omega)
    rw [dmers_add, ih (by omega), Nat.zero_add, dmers_one_of hin, hflat, dmer_zeros (by omega),
      List.replicate_succ']

/-- One sample of as many zero bytes as a counter has values, taken as one segment. -/
theorem train_cover_zeros (hm : m = 2 ^ 32) :
    train_cover [List.replicate m 0] 1 m 1 = crash .overflow := by
  have hflat : [List.replicate m (0 : UInt8)].flatten = List.replicate m 0 := by simp
  have hlen : [List.replicate m (0 : UInt8)].flatten.length =
    m := by rw [hflat, List.length_replicate]
  have hseg : segment_len [List.replicate m 0] m 1 = m := by
    simp only [segment_len, List.map_cons, List.map_nil, List.length_replicate, List.max?_singleton,
      Option.getD_some]
    omega
  have hshared : ∀ v, shared [List.replicate m 0] 1 v ≤ 1 := fun v => List.countP_le_length
  obtain ⟨freq, hcount, hfreq⟩ := @count_dmers_spec [List.replicate m 0] 1 (by decide) fun v =>
    lt_of_le_of_lt (hshared v) (by decide)
  -- all places but the last one of the first window fit
  have hcounts : ∀ v, (dmers [List.replicate m 0] 1 0 (m - 1)).count v < 2 ^ 32 := by
    intro v
    rw [dmers_zeros (by omega)]
    refine lt_of_le_of_lt List.count_le_length ?_
    rw [List.length_replicate]
    omega
  obtain ⟨w, hw, htracks⟩ := @first_entries_spec [List.replicate m 0] 1 m _ freq (by decide)
    (knows_of_counting hfreq) (fun xs => lt_of_le_of_lt (weight_le_total le_rfl fun _ => le_rfl)
      (by rw [hlen]; omega)) (m - 1) (by rw [hlen]; omega) hcounts
  have hlast : enter (corpus [List.replicate m 0] m 1) freq w (m - 1) = crash .overflow := by
    refine enter_overflow (by decide) (by rw [hlen]; omega)
      (inSample_single.mpr (by rw [List.length_replicate]; omega)) htracks ?_
    rw [hflat, dmer_zeros (by omega), dmers_zeros (by omega), List.count_replicate_self]
    omega
  have hfirst : first_window (corpus [List.replicate m 0] m 1) freq = crash .overflow := by
    have hmin : min (corpus [List.replicate m 0] m 1).seg_dmers
      (corpus [List.replicate m 0] m 1).valid.length
        = m - 1 + 1 := by
      show min (m - 1 + 1) (mark_starts _ 1 _).length = m - 1 + 1
      rw [length_mark_starts, hlen]
      omega
    unfold first_window
    rw [hmin, List.range_succ, List.foldlM_append, hw, bind_ok, List.foldlM_cons, hlast, bind_crash]
  unfold train_cover
  rw [if_neg one_ne_zero, if_neg (by rw [hlen]; omega), hcount, bind_ok, hseg]
  dsimp only
  rw [if_neg (by rw [hlen]; omega), loop_succ_of rfl]
  unfold pick scan
  rw [show (unselected freq).freq = freq from rfl, hfirst]
  rfl

/-- A counter of 32 bits is full before the first window is. -/
theorem train_cover_counterexample :
    train_cover [List.replicate (2 ^ 32) 0] 1 (2 ^ 32) 1 = crash .overflow :=
  train_cover_zeros rfl

end Overflow

end ZstdPure.Encode.Train
