import ZstdPure.Encode.Train
import ZstdPure.Lib.Coverage

/-!
# Proofs: the corpus of the trainer

Where the dmers of the samples are, and in how many samples each of them occurs.
-/

namespace ZstdPure.Encode.Train

open Outcome Coverage

/-! ## What a corpus is -/

/-- The `d` bytes at `i`, as a number. -/
def dmer (buf : Bytes) (d i : Nat) : Nat := leNat ((buf.drop i).take d)

/-- The `len` bytes from position `i` of the concatenated samples lie inside one sample. -/
def InSample (samples : List Bytes) (len i : Nat) : Prop :=
  ∃ b ∈ sample_bounds 0 samples, b.1 ≤ i ∧ i + len ≤ b.2

instance (samples : List Bytes) (len : Nat) : DecidablePred (InSample samples len) :=
  fun _ => List.decidableBEx _ _

/-- All dmers of one sample. -/
def sample_dmers (d : Nat) (s : Bytes) : List Nat := (List.range (s.length + 1 - d)).map (dmer s d)

/-- In how many samples a dmer occurs. -/
def shared (samples : List Bytes) (d v : Nat) : Nat :=
  samples.countP fun s => decide (v ∈ sample_dmers d s)

/-! ## The bounds of the samples -/

section Bounds

variable {samples : List Bytes} {b : Nat × Nat} {len n i : Nat}

theorem mem_sample_bounds : ∀ {samples : List Bytes} {n : Nat}, b ∈ sample_bounds n samples ↔
    ∃ pre s post, samples = pre ++ s :: post ∧
    b = (n + pre.flatten.length, n + pre.flatten.length + s.length) := by
  intro samples
  induction samples with
  | nil => intro n; simp [sample_bounds]
  | cons s rest ih =>
    intro n
    rw [sample_bounds, List.mem_cons, ih]
    constructor
    · rintro (rfl | ⟨pre, t, post, rfl, rfl⟩)
      · exact ⟨[], s, rest, rfl, by simp⟩
      · refine ⟨s :: pre, t, post, rfl, ?_⟩
        rw [List.flatten_cons, List.length_append]
        simp only [Nat.add_assoc]
    · rintro ⟨pre, t, post, heq, rfl⟩
      cases pre with
      | nil =>
        obtain ⟨rfl, rfl⟩ := List.cons.inj heq
        exact Or.inl (by simp)
      | cons u pre =>
        obtain ⟨rfl, rfl⟩ := List.cons.inj heq
        refine Or.inr ⟨pre, t, post, rfl, ?_⟩
        rw [List.flatten_cons, List.length_append]
        simp only [Nat.add_assoc]

theorem mem_starts : i ∈ starts len b ↔ b.1 ≤ i ∧ i + len ≤ b.2 := by
  unfold starts
  split_ifs with h
  · rw [List.mem_range'_1]
    omega
  · simp only [List.not_mem_nil, false_iff]
    omega

/-- What lies inside one sample is a piece of it. -/
theorem InSample.piece (h : InSample samples len i) :
    i + len ≤ samples.flatten.length ∧ ∃ s ∈ samples, (samples.flatten.drop i).take len <:+: s := by
  obtain ⟨b, hb, hlo, hhi⟩ := h
  obtain ⟨pre, s, post, rfl, rfl⟩ := mem_sample_bounds.mp hb
  simp only [Nat.zero_add] at hlo hhi
  have hflat : (pre ++ s :: post).flatten = pre.flatten ++ (s ++ post.flatten) := by
    rw [List.flatten_append, List.flatten_cons]
  refine ⟨by rw [hflat, List.length_append, List.length_append]; omega, s, by simp, ?_⟩
  rw [hflat, List.drop_append, List.drop_eq_nil_of_le hlo, List.nil_append,
    List.drop_append_of_le_length (by omega),
    List.take_append_of_le_length (by rw [List.length_drop]; omega)]
  exact (List.take_prefix _ _).isInfix.trans (List.drop_suffix _ _).isInfix

/-! ## The marks -/

theorem length_foldl_set (is : List Nat) : ∀ marks : List Bool,
    (is.foldl (fun marks i => marks.set i true) marks).length = marks.length := by
  induction is with
  | nil => intro marks; rfl
  | cons j is ih => intro marks; rw [List.foldl_cons, ih, List.length_set]

/-- Setting some marks. -/
theorem getD_foldl_set (is : List Nat) : ∀ marks : List Bool, i < marks.length →
    ((is.foldl (fun marks i => marks.set i true) marks).getD i false = true ↔
      marks.getD i false = true ∨ i ∈ is) := by
  induction is with
  | nil => intro marks _; simp
  | cons j is ih =>
    intro marks hi
    rw [List.foldl_cons, ih _ (by rwa [List.length_set]), List.mem_cons,
      List.getD_eq_getElem?_getD, List.getElem?_set]
    by_cases hij : j = i
    · subst hij
      simp [hi]
    · rw [if_neg hij, ← List.getD_eq_getElem?_getD]
      have : i ≠ j := fun h => hij h.symm
      tauto

theorem foldl_marks (bounds : List (Nat × Nat)) (len : Nat) : ∀ marks : List Bool,
    (bounds.foldl (fun marks b => (starts len b).foldl (fun marks i => marks.set i true) marks)
        marks).length = marks.length ∧
      (i < marks.length →
        ((bounds.foldl (fun marks b => (starts len b).foldl (fun marks i => marks.set i true) marks)
            marks).getD i false = true ↔
          marks.getD i false = true ∨ ∃ b ∈ bounds, b.1 ≤ i ∧ i + len ≤ b.2)) := by
  induction bounds with
  | nil => intro marks; exact ⟨rfl, fun _ => by simp⟩
  | cons b bounds ih =>
    intro marks
    obtain ⟨hlen, hget⟩ := ih ((starts len b).foldl (fun marks i => marks.set i true) marks)
    rw [length_foldl_set] at hlen hget
    refine ⟨hlen, fun hi => ?_⟩
    rw [List.foldl_cons, hget hi, getD_foldl_set _ _ hi, mem_starts, List.exists_mem_cons_iff]
    tauto

theorem length_mark_starts (bounds : List (Nat × Nat)) (len n : Nat) :
    (mark_starts bounds len n).length = n := by
  unfold mark_starts
  rw [(@foldl_marks 0 bounds len _).1, List.length_replicate]

/-- The marks say which positions have `len` bytes inside one sample. -/
theorem get_mark (h : i < n) : (get (mark_starts (sample_bounds 0 samples) len n) i : Res Bool)
    = .ok (decide (InSample samples len i)) := by
  have hlen := length_mark_starts (sample_bounds 0 samples) len n
  have hmark := (@foldl_marks i (sample_bounds 0 samples) len (List.replicate n false)).2
    (by simpa using h)
  rw [List.getD_replicate _ h] at hmark
  have hlt : i < (mark_starts (sample_bounds 0 samples) len n).length := by rwa [hlen]
  rw [get_ok hlt, ← List.getD_eq_getElem _ false hlt]
  congr 1
  rw [Bool.eq_iff_iff, decide_eq_true_eq]
  unfold mark_starts
  rw [hmark]
  simp [InSample]

end Bounds

/-! ## Dmers -/

section Dmers

variable {samples : List Bytes} {buf : Bytes} {d i : Nat}

/-- The key of a position that has its bytes. -/
theorem dmer_at_ok (hd : d ≤ 8) (hi : i + d ≤ buf.length) : dmer_at buf i d =
    .ok (dmer buf d i) := by
  unfold dmer_at dmer
  suffices h : ∀ n, n ≤ d → (List.range n).foldlM (fun v k => do
      let b ← get buf (i + k)
      let x ← shl 64 b.toNat (8 * k)
      pure (v ||| x)) 0 = (.ok (leNat ((buf.drop i).take n)) : Res Nat) from h d le_rfl
  intro n
  induction n with
  | zero => intro _; rfl
  | succ n ih =>
    intro hn
    have hlt : i + n < buf.length := by omega
    have hb : buf[i + n].toNat * 2 ^ (8 * n) < 2 ^ 64 := by
      calc buf[i + n].toNat * 2 ^ (8 * n) < 2 ^ 8 * 2 ^ (8 * n) :=
            Nat.mul_lt_mul_of_pos_right (UInt8.toNat_lt_256 _) (Nat.two_pow_pos _)
        _ = 2 ^ (8 + 8 * n) := (Nat.pow_add _ _ _).symm
        _ ≤ 2 ^ 64 := Nat.pow_le_pow_right (by omega) (by omega)
    have hlen : ((buf.drop i).take n).length = n := by
      rw [List.length_take, List.length_drop]
      omega
    have htake : (buf.drop i).take (n + 1) = (buf.drop i).take n ++ [buf[i + n]] := by
      rw [List.take_succ_eq_append_getElem (by rw [List.length_drop]; omega), List.getElem_drop]
    have hsmall := leNat_lt ((buf.drop i).take n)
    rw [hlen] at hsmall
    rw [List.range_succ, List.foldlM_append, ih (by omega), bind_ok, List.foldlM_cons, get_ok hlt,
      bind_ok, shl_ok (by omega), bind_ok, pure_eq_ok, bind_ok, List.foldlM_nil, pure_eq_ok, htake,
      leNat_append, hlen, leNat_cons, leNat_nil, Nat.mod_eq_of_lt (by rwa [Nat.shiftLeft_eq]),
      lor_shl_eq_add _ _ hsmall]
    congr 1
    ring

/-- The dmers of a sample, where it lies in the concatenation. -/
theorem dmer_concat (pre s post : Bytes) (h : i + d ≤ s.length) :
    dmer (pre ++ (s ++ post)) d (pre.length + i) = dmer s d i := by
  unfold dmer
  rw [List.drop_append, List.drop_eq_nil_of_le (by omega), List.nil_append, Nat.add_sub_cancel_left,
    List.drop_append_of_le_length (by omega),
    List.take_append_of_le_length (by rw [List.length_drop]; omega)]

theorem map_dmer_starts (pre s post : Bytes) :
    (starts d (pre.length, pre.length + s.length)).map (dmer (pre ++ (s ++ post)) d)
      = sample_dmers d s := by
  unfold starts sample_dmers
  split_ifs with h
  · have hn : pre.length + s.length - d + 1 - pre.length = s.length + 1 - d := by omega
    rw [hn, List.range'_eq_map_range, List.map_map]
    refine List.map_congr_left fun i hi => ?_
    rw [List.mem_range] at hi
    exact dmer_concat pre s post (by omega)
  · have hn : s.length + 1 - d = 0 := by omega
    rw [hn]
    rfl

end Dmers

/-! ## Counting -/

/-- The map holds the counts that are not zero. -/
def Counting (map : Counts) (f : Nat → Nat) : Prop :=
  ∀ v, map[v]? = if f v = 0 then none else some (f v)

section Counting

variable {map : Counts} {f : Nat → Nat} {v : Nat}

theorem counting_empty : Counting ∅ fun _ => 0 := by
  intro v
  rw [if_pos rfl]
  exact Std.TreeMap.getElem?_emptyc

theorem Counting.getD (h : Counting map f) (v : Nat) : map.getD v 0 = f v := by
  rw [Std.TreeMap.getD_eq_getD_getElem?, h v]
  split_ifs with h0
  · rw [h0]; rfl
  · rfl

theorem Counting.insert {n : Nat} (h : Counting map f) (hn : n ≠ 0) :
    Counting (map.insert v n) fun u => if v = u then n else f u := by
  intro u
  rw [Std.TreeMap.getElem?_insert, h u]
  simp only [Nat.compare_eq_eq]
  split_ifs <;> rfl

theorem Counting.erase (h : Counting map f) : Counting (map.erase v) fun u => if v =
    u then 0 else f u := by
  intro u
  rw [Std.TreeMap.getElem?_erase, h u]
  simp only [Nat.compare_eq_eq]
  by_cases hvu : v = u
  · rw [if_pos hvu, if_pos hvu, if_pos rfl]
  · rw [if_neg hvu, if_neg hvu]

theorem Counting.congr {g : Nat → Nat} (h : Counting map f) (hfg : ∀ v, f v = g v) :
    Counting map g := by
  rwa [← funext hfg]

theorem bump_ok (h : Counting map f) (hv : f v + 1 < 2 ^ 32) :
    bump map v = .ok (map.insert v (f v + 1)) := by
  unfold bump
  rw [h.getD, add_ok hv, bind_ok]
  rfl

end Counting

section Frequencies

variable {samples : List Bytes} {buf : Bytes} {d : Nat}

/-- What the loop over one sample has counted: each dmer it has seen once more. -/
structure Counted (buf : Bytes) (d : Nat) (f : Nat → Nat) (seen : List Nat)
    (s : Counts × Std.TreeSet Nat) : Prop where
  freq : Counting s.1 fun v => f v + if v ∈ seen then 1 else 0
  seen : ∀ v, s.2.contains v = decide (v ∈ seen)

theorem count_dmer_spec {f : Nat → Nat} {seen : List Nat} {s : Counts × Std.TreeSet Nat} {i : Nat}
    (hd : d ≤ 8) (hi : i + d ≤ buf.length) (hf : f (dmer buf d i) + 1 < 2 ^ 32)
    (h : Counted buf d f seen s) :
    Returns (count_dmer buf d s i) (Counted buf d f (seen ++ [dmer buf d i])) := by
  unfold count_dmer
  rw [dmer_at_ok hd hi, bind_ok, h.seen]
  by_cases hv : dmer buf d i ∈ seen
  · rw [decide_eq_true hv, if_pos rfl, pure_eq_ok, returns_ok]
    have hmem : ∀ v, v ∈ seen ++ [dmer buf d i] ↔ v ∈ seen := by
      intro v
      rw [List.mem_append, List.mem_singleton]
      exact ⟨fun h => h.elim id (fun e => e ▸ hv), Or.inl⟩
    constructor
    · simp only [hmem]
      exact h.freq
    · simp only [hmem]
      exact h.seen
  · rw [decide_eq_false hv, if_neg Bool.false_ne_true,
      bump_ok h.freq (by rw [if_neg hv]; exact hf), bind_ok, pure_eq_ok, returns_ok]
    constructor
    · refine (h.freq.insert (Nat.succ_ne_zero _)).congr fun v => ?_
      simp only [List.mem_append, List.mem_singleton]
      by_cases hvu : dmer buf d i = v
      · subst hvu
        simp [hv]
      · have : v ≠ dmer buf d i := fun e => hvu e.symm
        simp [hvu, this]
    · intro v
      rw [Std.TreeSet.contains_insert, h.seen, Bool.eq_iff_iff]
      simp only [Bool.or_eq_true, beq_iff_eq, Nat.compare_eq_eq, decide_eq_true_eq, List.mem_append,
        List.mem_singleton]
      constructor
      · rintro (rfl | hmem)
        · exact Or.inr rfl
        · exact Or.inl hmem
      · rintro (hmem | rfl)
        · exact Or.inr hmem
        · exact Or.inl rfl

/-- The frequencies of all samples. -/
theorem count_dmers_spec (hd : d ≤ 8) (hfit : ∀ v, shared samples d v < 2 ^ 32) :
    Returns (count_dmers samples.flatten d (sample_bounds 0 samples)) fun freq =>
      Counting freq (shared samples d) := by
  -- the samples already counted stand before the rest
  suffices h : ∀ (rest pre : List Bytes) (freq : Counts), samples = pre ++ rest →
      Counting freq (shared pre d) →
      Returns ((sample_bounds pre.flatten.length rest).foldlM (fun freq b =>
          (starts d b).foldlM (count_dmer samples.flatten d) (freq, ∅) >>= fun r => pure r.1) freq)
        fun freq => Counting freq (shared samples d) by
    exact h samples [] ∅ rfl counting_empty
  intro rest
  induction rest with
  | nil =>
    intro pre freq hs hfreq
    rw [List.append_nil] at hs
    subst hs
    exact ⟨freq, rfl, hfreq⟩
  | cons s rest ih =>
    intro pre freq hs hfreq
    have hflat : samples.flatten = pre.flatten ++ (s ++ rest.flatten) := by
      rw [hs, List.flatten_append, List.flatten_cons]
    have hmap := @map_dmer_starts d pre.flatten s rest.flatten
    rw [← hflat] at hmap
    have hone : ∀ v, shared pre d v + (if v ∈ sample_dmers d s then 1 else 0) = shared (pre ++ [s])
      d v := by
      intro v
      unfold shared
      rw [List.countP_append, List.countP_singleton]
      simp only [decide_eq_true_eq]
    have hle : ∀ v, shared (pre ++ [s]) d v ≤ shared samples d v := by
      intro v
      unfold shared
      rw [hs, List.append_cons pre s rest]
      exact List.Sublist.countP_le (List.sublist_append_left _ _)
    rw [sample_bounds, List.foldlM_cons]
    have hinner : Returns ((starts d (pre.flatten.length, pre.flatten.length + s.length)).foldlM
        (count_dmer samples.flatten d) (freq, ∅)) fun r =>
          Counting r.1 (shared (pre ++ [s]) d) := by
      refine (Returns.foldlM (fun l r => ∃ p,
        starts d (pre.flatten.length, pre.flatten.length + s.length)
        = p ++ l ∧ Counted samples.flatten d (shared pre d) (p.map (dmer samples.flatten d)) r)
        ?_ _ _ ⟨[], rfl, ?_⟩).mono ?_
      · rintro i l r ⟨p, hp, hr⟩
        have hi : i ∈ starts d (pre.flatten.length, pre.flatten.length + s.length) := by
          rw [hp]
          simp
        have hin := mem_starts.mp hi
        have hdm : dmer samples.flatten d i ∈ sample_dmers d s := by
          rw [← hmap]
          exact List.mem_map_of_mem hi
        refine (count_dmer_spec hd ?_ ?_ hr).mono fun r' hr' => ⟨p ++ [i], by rw [hp]; simp, ?_⟩
        · rw [hflat, List.length_append, List.length_append]
          omega
        · have := hone (dmer samples.flatten d i)
          rw [if_pos hdm] at this
          rw [this]
          exact lt_of_le_of_lt (hle _) (hfit _)
        · rw [List.map_append]
          exact hr'
      · exact ⟨hfreq.congr fun v => rfl, fun v => rfl⟩
      · rintro r ⟨p, hp, hr⟩
        rw [List.append_nil] at hp
        rw [← hp, hmap] at hr
        exact hr.freq.congr hone
    obtain ⟨r, hr, hcount⟩ := hinner
    have hnext := ih (pre ++ [s]) r.1 (by rw [hs]; simp) hcount
    rw [hr]
    have hlen : (pre ++ [s]).flatten.length = pre.flatten.length + s.length := by simp
    rw [hlen] at hnext
    exact hnext

end Frequencies

end ZstdPure.Encode.Train
