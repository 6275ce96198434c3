import ZstdPure.Huff
import ZstdPure.Proofs.BitsProofs
import ZstdPure.Lib.Occurrence

/-!
# Huffman decoding tables

A complete weight list gives every symbol of nonzero weight `w` a run of `2 ^ (w - 1)` table
positions, lower weights first and symbols in order within a weight.
-/

namespace ZstdPure.Huff

open Outcome

/-! ## Weight lists -/

/-- The share of one symbol: the number of table positions of weight `w`. -/
def share (w : Nat) : Nat := if w = 0 then 0 else 2 ^ (w - 1)

/-- The positions of all symbols. -/
def total (ws : List Nat) : Nat := (ws.map share).sum

/-- The positions of the symbols with a weight below `w`. -/
def below (ws : List Nat) : Nat → Nat
  | 0 => 0
  | w + 1 => below ws w + ws.count w * share w

/-- The first position of symbol `i`. -/
def start (ws : List Nat) (i : Nat) : Nat :=
  below ws (ws.getD i 0) + (ws.take i).count (ws.getD i 0) * share (ws.getD i 0)

/-- A complete weight list for codes of at most `max_bits` bits. -/
structure Complete (ws : List Nat) (max_bits : Nat) : Prop where
  length : ws.length ≤ 256
  log : max_bits ≤ HUF_TABLELOG_MAX
  le : ∀ w ∈ ws, w ≤ max_bits
  total : total ws = 2 ^ max_bits

variable {ws : List Nat} {max_bits : Nat}

theorem below_mono (ws : List Nat) {v w : Nat} (h : v ≤ w) : below ws v ≤ below ws w := by
  induction w, h using Nat.le_induction with
  | base => exact le_rfl
  | succ w _ ih => rw [below]; omega

theorem below_nil (k : Nat) : below [] k = 0 := by
  induction k with
  | zero => rfl
  | succ k ih => rw [below, ih, List.count_nil, Nat.zero_mul]

theorem below_cons (a : Nat) (ws : List Nat) (k : Nat) :
    below (a :: ws) k = below ws k + if a < k then share a else 0 := by
  induction k with
  | zero => simp [below]
  | succ k ih =>
    rw [below, below, ih, List.count_cons]
    by_cases hak : a = k
    · subst hak; simp [Nat.add_mul]; omega
    · have : (a == k) = false := by simpa using hak
      simp only [this, Bool.false_eq_true, if_false, Nat.add_zero]
      split_ifs <;> omega

theorem below_eq_total {k : Nat} (h : ∀ w ∈ ws, w < k) : below ws k = total ws := by
  induction ws with
  | nil => rw [below_nil, total, List.map_nil, List.sum_nil]
  | cons a ws ih =>
    rw [below_cons, ih fun w hw => h w (by simp [hw]), if_pos (h a (by simp)), total, total,
      List.map_cons, List.sum_cons, Nat.add_comm]

theorem count_take_succ (ws : List Nat) (i : Nat) (h : i < ws.length) (w : Nat) :
    (ws.take (i + 1)).count w = (ws.take i).count w + if ws[i] = w then 1 else 0 := by
  rw [List.take_add_one, List.getElem?_eq_getElem h, List.count_append]
  simp [List.count_singleton]

/-- The positions of a symbol lie among those of its weight. -/
theorem start_add_share_le (ws : List Nat) (i : Nat) (h : i < ws.length) :
    start ws i + share ws[i] ≤ below ws (ws[i] + 1) := by
  rw [start, List.getD_eq_getElem _ _ h, below]
  have hlt : (ws.take i).count ws[i] + 1 ≤ ws.count ws[i] := by
    have hs := congrArg (List.count ws[i]) (List.take_append_drop i ws)
    rw [List.count_append, List.drop_eq_getElem_cons h, List.count_cons_self] at hs
    omega
  have := Nat.mul_le_mul_right (share ws[i]) hlt
  rw [Nat.add_mul, Nat.one_mul] at this
  omega

theorem Complete.getD_le (h : Complete ws max_bits) (i : Nat) : ws.getD i 0 ≤ max_bits := by
  by_cases hi : i < ws.length
  · rw [List.getD_eq_getElem _ _ hi]
    exact h.le _ (List.getElem_mem hi)
  · rw [List.getD_eq_default _ _ (by omega)]
    exact Nat.zero_le _

theorem Complete.start_le (hc : Complete ws max_bits) {i : Nat} (h : i < ws.length) :
    start ws i + share ws[i] ≤ 2 ^ max_bits := by
  have hle := hc.le _ (List.getElem_mem h)
  calc start ws i + share ws[i] ≤ below ws (ws[i] + 1) := start_add_share_le ws i h
    _ ≤ below ws (max_bits + 1) := below_mono ws (by omega)
    _ = 2 ^ max_bits := by
      rw [below_eq_total fun w hw => Nat.lt_succ_of_le (hc.le w hw), hc.total]

/-- The runs are ordered by weight, then by symbol. -/
theorem start_ordered {i j : Nat} (hi : i < ws.length) (hj : j < ws.length)
    (h : ws[j] < ws[i] ∨ ws[j] = ws[i] ∧ j < i) : start ws j + share ws[j] ≤ start ws i := by
  have hsi : start ws i = below ws ws[i] + (ws.take i).count ws[i] * share ws[i] := by
    rw [start, List.getD_eq_getElem _ _ hi]
  have hsj : start ws j = below ws ws[j] + (ws.take j).count ws[j] * share ws[j] := by
    rw [start, List.getD_eq_getElem _ _ hj]
  rcases h with hlt | ⟨heq, hlt⟩
  · have hend := start_add_share_le ws j hj
    have hmono := below_mono ws (show ws[j] + 1 ≤ ws[i] by omega)
    omega
  · have hcount := List.count_take_lt_of_lt (d := 0) hlt hi.le
    rw [List.getD_eq_getElem _ _ hj] at hcount
    have hmul := Nat.mul_le_mul_right (share ws[j]) hcount
    rw [Nat.succ_mul] at hmul
    rw [hsi, hsj, ← heq]
    omega

/-- Different symbols have different positions. -/
theorem start_disjoint {i j : Nat} (hij : j < i) (h : i < ws.length) {u : Nat}
    (hi : start ws i ≤ u ∧ u < start ws i + share ws[i])
    (hj : start ws j ≤ u ∧ u < start ws j + share ws[j]) : False := by
  rcases Nat.lt_trichotomy ws[i] ws[j] with hlt | heq | hgt
  · have := start_ordered (by omega) h (Or.inl hlt)
    omega
  · have := start_ordered h (by omega) (Or.inr ⟨heq.symm, hij⟩)
    omega
  · have := start_ordered h (by omega) (Or.inl hgt)
    omega

/-! ## The building loops -/

theorem foldlM_set_run {α : Type} (es : List α) (e : α) (a n : Nat) (h : a + n ≤ es.length) :
    ∃ es', (List.range' a n).foldlM (fun es u => set es u e) es = (.ok es' : Res (List α)) ∧
      es'.length = es.length ∧
      ∀ u, es'[u]? = if a ≤ u ∧ u < a + n then some e else es[u]? := by
  induction n generalizing a es with
  | zero => exact ⟨es, rfl, rfl, fun u => by rw [if_neg (by omega)]⟩
  | succ n ih =>
    obtain ⟨es', h₁, h₂, h₃⟩ := ih (es.set a e) (a + 1) (by simp; omega)
    refine ⟨es', ?_, by simpa using h₂, fun u => ?_⟩
    · rw [List.range'_succ, List.foldlM_cons, set_ok (by omega), bind_ok, h₁]
    · rw [h₃]
      by_cases hu : a + 1 ≤ u ∧ u < a + 1 + n
      · rw [if_pos hu, if_pos (by omega)]
      · rw [if_neg hu]
        by_cases hau : a = u
        · subst hau
          rw [if_pos (by omega), List.getElem?_set_self (by omega)]
        · rw [if_neg (by omega), List.getElem?_set_ne hau]

theorem set_map_range {α : Type} (f : Nat → α) (n i : Nat) (x : α) :
    ((List.range n).map f).set i x = (List.range n).map (Function.update f i x) := by
  refine List.ext_getElem (by simp) fun k h₁ h₂ => ?_
  rw [List.getElem_set, List.getElem_map, List.getElem_map, List.getElem_range]
  by_cases hik : i = k
  · subst hik; simp
  · rw [if_neg hik, Function.update_of_ne (Ne.symm hik)]

theorem get_map_range {α : Type} (f : Nat → α) {n i : Nat} (h : i < n) :
    (get ((List.range n).map f) i : Res α) = .ok (f i) := by
  rw [get_ok (by simpa using h)]; simp

/-- The body of `sum_weights`. -/
theorem sum_weight_ok {w n : Nat} (hw : w ≤ HUF_TABLELOG_MAX) (hn : n + 2048 < 2 ^ 32) :
    (if HUF_TABLELOG_MAX < w then fail (.CorruptTable s!"huffman weight {w} too large")
      else if 0 < w then do
        let e ← sub w 1
        let one ← shl 32 1 e
        add 32 n one
      else pure n) = (.ok (n + share w) : Res Nat) ∧ share w ≤ 2048 := by
  have hw : w ≤ 12 := hw
  have h12 : HUF_TABLELOG_MAX = 12 := rfl
  rw [if_neg (by omega), share]
  by_cases h0 : w = 0
  · rw [if_neg (by omega), if_pos h0]; exact ⟨rfl, by omega⟩
  · have hpow : 2 ^ (w - 1) ≤ 2 ^ 11 := Nat.pow_le_pow_right (by omega) (by omega)
    rw [if_pos (by omega), if_neg h0, sub_ok (by omega), bind_ok, shl_exact (by omega) (by omega),
      bind_ok, Nat.one_mul, add_ok (by omega)]
    exact ⟨rfl, by omega⟩

/-- `sum_weights` counts the positions of the listed weights unless one is too large. -/
theorem sum_weights_cases (ws : List Nat) (hlen : ws.length ≤ 256) :
    (∃ w ∈ ws, HUF_TABLELOG_MAX < w ∧
        sum_weights ws = fail (.CorruptTable s!"huffman weight {w} too large")) ∨
      sum_weights ws = .ok (total ws) ∧ ∀ w ∈ ws, w ≤ HUF_TABLELOG_MAX := by
  suffices h : ∀ (ws : List Nat) (n : Nat), n + 2048 * ws.length < 2 ^ 32 →
      (∃ v ∈ ws, HUF_TABLELOG_MAX < v ∧ ws.foldlM (fun total w => do
        if HUF_TABLELOG_MAX < w then fail (.CorruptTable s!"huffman weight {w} too large")
        else if 0 < w then
          let e ← sub w 1
          let one ← shl 32 1 e
          add 32 total one
        else pure total) n = (fail (.CorruptTable s!"huffman weight {v} too large") : Res Nat)) ∨
      ws.foldlM (fun total w => do
        if HUF_TABLELOG_MAX < w then fail (.CorruptTable s!"huffman weight {w} too large")
        else if 0 < w then
          let e ← sub w 1
          let one ← shl 32 1 e
          add 32 total one
        else pure total) n = (.ok (n + total ws) : Res Nat) ∧ ∀ w ∈ ws, w ≤ HUF_TABLELOG_MAX by
    have h0 := h ws 0 (by omega)
    rwa [Nat.zero_add] at h0
  intro ws
  induction ws with
  | nil => intro n _; exact Or.inr ⟨by simp [total], by simp⟩
  | cons w ws ih =>
    intro n hn
    rw [List.length_cons] at hn
    rw [List.foldlM_cons]
    by_cases hw : HUF_TABLELOG_MAX < w
    · exact Or.inl ⟨w, by simp, hw, by rw [if_pos hw, bind_fail]⟩
    · have hn' : n + 2048 ≤ n + 2048 * (ws.length + 1) := by omega
      obtain ⟨h₁, h₂⟩ := sum_weight_ok (Nat.le_of_not_lt hw) (lt_of_le_of_lt hn' hn)
      rw [h₁, bind_ok]
      rcases ih (n + share w) (by omega) with ⟨v, hv, hlt, hf⟩ | ⟨ho, hall⟩
      · exact Or.inl ⟨v, by simp [hv], hlt, hf⟩
      · refine Or.inr ⟨by rw [ho]; simp [total, Nat.add_assoc], fun v hv => ?_⟩
        rcases List.mem_cons.mp hv with rfl | hv
        · omega
        · exact hall v hv

theorem count_ranks_ok (hlen : ws.length ≤ 256) (hle : ∀ w ∈ ws, w ≤ HUF_TABLELOG_MAX) :
    count_ranks ws = .ok ((List.range (HUF_TABLELOG_MAX + 1)).map fun w => ws.count w) := by
  suffices h : ∀ (ws : List Nat) (f : Nat → Nat), (∀ w ∈ ws, w ≤ HUF_TABLELOG_MAX) →
      (∀ w, f w + ws.length < 2 ^ 32) →
      ws.foldlM (fun stats w => do
        let n ← get stats w
        let n ← add 32 n 1
        set stats w n) ((List.range (HUF_TABLELOG_MAX + 1)).map f)
      = (.ok ((List.range (HUF_TABLELOG_MAX + 1)).map fun w => f w + ws.count w) : Res _) by
    have h0 : List.replicate (HUF_TABLELOG_MAX + 1) 0
        = (List.range (HUF_TABLELOG_MAX + 1)).map fun _ => 0 := rfl
    rw [count_ranks, h0, h ws (fun _ => 0) hle (fun w => by omega)]
    simp
  intro ws
  induction ws with
  | nil => intro f _ _; simp
  | cons w ws ih =>
    intro f hle hf
    have hw := hle w (by simp)
    have hfw := hf w
    rw [List.length_cons] at hfw
    rw [List.foldlM_cons, get_map_range f (by omega), bind_ok, add_ok (by omega), bind_ok,
      set_ok (by simp; omega), bind_ok, set_map_range,
      ih _ (fun v hv => hle v (by simp [hv])) fun v => by
        have := hf v
        rw [List.length_cons] at this
        by_cases hv : v = w
        · subst hv; simp; omega
        · rw [Function.update_of_ne hv]; omega]
    congr 1
    refine List.map_congr_left fun v _ => ?_
    by_cases hv : v = w
    · subst hv; simp; omega
    · rw [Function.update_of_ne hv, List.count_cons_of_ne (Ne.symm hv)]

theorem rank_starts_ok (hc : Complete ws max_bits) :
    rank_starts ((List.range (HUF_TABLELOG_MAX + 1)).map fun w => ws.count w) max_bits
      = .ok ((List.range (HUF_TABLELOG_MAX + 1)).map fun w =>
          if 1 ≤ w ∧ w ≤ max_bits then below ws w else 0) := by
  have hlog := hc.log
  have h12 : 2 ^ max_bits ≤ 2 ^ 12 := Nat.pow_le_pow_right (by omega) hlog
  have htotal : ∀ w, w ≤ max_bits + 1 → below ws w ≤ 2 ^ max_bits := fun w hw => by
    rw [← hc.total, ← below_eq_total fun w hw => Nat.lt_succ_of_le (hc.le w hw)]
    exact below_mono _ hw
  suffices h : ∀ n k, k + n = max_bits →
      (List.range' (k + 1) n).foldlM (fun (s : List Nat × Nat) w => do
        let n ← get ((List.range (HUF_TABLELOG_MAX + 1)).map fun w => ws.count w) w
        let e ← sub w 1
        let width ← shl 32 n e
        let next ← add 32 s.2 width
        let start ← set s.1 w s.2
        pure (start, next)) ((List.range (HUF_TABLELOG_MAX + 1)).map (fun w =>
          if 1 ≤ w ∧ w ≤ k then below ws w else 0), below ws (k + 1))
      = (.ok ((List.range (HUF_TABLELOG_MAX + 1)).map (fun w =>
          if 1 ≤ w ∧ w ≤ max_bits then below ws w else 0), below ws (max_bits + 1)) : Res _) by
    have h0 : (List.replicate (HUF_TABLELOG_MAX + 1) 0, 0)
        = ((List.range (HUF_TABLELOG_MAX + 1)).map (fun w =>
          if 1 ≤ w ∧ w ≤ 0 then below ws w else 0), below ws (0 + 1)) := by
      have hf : (fun w => if 1 ≤ w ∧ w ≤ 0 then below ws w else 0) = fun _ => 0 := by
        funext w; rw [if_neg (by omega)]
      rw [hf]
      simp [below, share]
    rw [rank_starts, h0, h max_bits 0 (by omega)]
    rfl
  intro n
  induction n with
  | zero =>
    intro k hk
    obtain rfl : k = max_bits := by omega
    rfl
  | succ n ih =>
    intro k hk
    have hnext : below ws (k + 1) + ws.count (k + 1) * 2 ^ k = below ws (k + 1 + 1) := by
      change _ = below ws (k + 1) + ws.count (k + 1) * share (k + 1)
      rw [share, if_neg (by omega), Nat.add_sub_cancel]
    have hle : below ws (k + 1 + 1) ≤ 2 ^ max_bits := htotal (k + 2) (by omega)
    have hlog' : max_bits ≤ 12 := hlog
    rw [List.range'_succ, List.foldlM_cons, get_map_range _ (by omega), bind_ok, sub_ok (by omega),
      bind_ok, Nat.add_sub_cancel, shl_exact (by omega) (by omega), bind_ok, add_ok (by omega),
      bind_ok, set_ok (by simp; omega), bind_ok, pure_eq_ok, bind_ok, set_map_range, hnext,
      ← ih (k + 1) (by omega)]
    congr 2
    refine List.map_congr_left fun v _ => ?_
    by_cases hv : v = k + 1
    · subst hv; rw [Function.update_self, if_pos (by omega)]
    · rw [Function.update_of_ne hv]
      split_ifs <;> first | rfl | omega

/-! ## The table -/

/-- The positions of every symbol hold its entry. -/
structure Layout (ws : List Nat) (max_bits : Nat) (t : HuffTable) : Prop where
  complete : Complete ws max_bits
  table_bits : t.max_bits = max_bits
  length : t.entries.length = HUF_DTABLE_SIZE
  num_bits : ∀ e ∈ t.entries, e.num_bits ≤ max_bits
  entries : ∀ i (h : i < ws.length), ws[i] ≠ 0 → ∀ u, start ws i ≤ u → u < start ws i +
    share ws[i] →
    t.entries[u]? = some ⟨UInt8.ofNat i, max_bits + 1 - ws[i]⟩

/-- The state of the loop over the symbols, the first `i` of them filled in. -/
structure Filled (ws : List Nat) (max_bits i : Nat) (st : List HuffEntry × List Nat) : Prop where
  starts : st.2 = (List.range (HUF_TABLELOG_MAX + 1)).map fun w =>
    if 1 ≤ w ∧ w ≤ max_bits then below ws w + (ws.take i).count w * share w else 0
  length : st.1.length = HUF_DTABLE_SIZE
  num_bits : ∀ e ∈ st.1, e.num_bits ≤ max_bits
  entries : ∀ j (h : j < ws.length), j < i → ws[j] ≠ 0 → ∀ u, start ws j ≤ u →
    u < start ws j + share ws[j] → st.1[u]? = some ⟨UInt8.ofNat j, max_bits + 1 - ws[j]⟩

theorem fill_symbol_ok (hc : Complete ws max_bits) {i : Nat} (hi : i < ws.length)
    {st : List HuffEntry × List Nat} (h : Filled ws max_bits i st) :
    ∃ st', fill_symbol max_bits (2 ^ max_bits) st (ws[i], i) = .ok st' ∧
      Filled ws max_bits (i + 1) st' := by
  have hlog : max_bits ≤ 12 := hc.log
  have h12 : 2 ^ max_bits ≤ 2 ^ 12 := Nat.pow_le_pow_right (by omega) hlog
  have hw := hc.le _ (List.getElem_mem hi)
  rw [fill_symbol]
  dsimp only
  by_cases h0 : ws[i] = 0
  · refine ⟨st, by rw [if_pos h0]; rfl, ?_, h.length, h.num_bits, fun j hj hji => ?_⟩
    · rw [h.starts]
      refine List.map_congr_left fun w _ => ?_
      split_ifs with hw1
      · rw [count_take_succ _ _ hi, if_neg (by omega), Nat.add_zero]
      · rfl
    · rcases Nat.lt_succ_iff_lt_or_eq.mp hji with hlt | rfl
      · exact h.entries j hj hlt
      · exact fun hne => absurd h0 hne
  · have hstart := hc.start_le hi
    have hpow : share ws[i] = 2 ^ (ws[i] - 1) := by rw [share, if_neg h0]
    have hsi : start ws i = below ws ws[i] + (ws.take i).count ws[i] * share ws[i] := by
      rw [start, List.getD_eq_getElem _ _ hi]
    have hget : (get st.2 ws[i] : Res Nat) = .ok (start ws i) := by
      rw [h.starts, get_map_range _ (Nat.lt_succ_of_le (hw.trans hc.log)), if_pos (by omega), hsi]
    have hsize : start ws i + 2 ^ (ws[i] - 1) ≤ st.1.length := by
      rw [h.length, HUF_DTABLE_SIZE]; omega
    obtain ⟨es', hes, hlen', hget'⟩ := foldlM_set_run st.1
      (⟨UInt8.ofNat i, max_bits + 1 - ws[i]⟩ : HuffEntry) _ _ hsize
    have hstarts : st.2.length = HUF_TABLELOG_MAX + 1 := by rw [h.starts]; simp
    refine ⟨(es', st.2.set ws[i] (start ws i + 2 ^ (ws[i] - 1))), ?_, ?_, by rw [hlen', h.length],
      ?_,
      fun j hj hji => ?_⟩
    · rw [if_neg h0, sub_ok (by omega), bind_ok, shl_exact (by omega) (by omega), bind_ok,
        Nat.one_mul,
        add_ok (by omega), bind_ok, sub_ok (by omega), bind_ok, hget, bind_ok, add_ok (by omega),
        bind_ok, if_neg (by omega), Nat.mod_eq_of_lt (a := max_bits + 1 - ws[i]) (by omega)]
      rw [hes, bind_ok, add_ok (by omega), bind_ok,
        set_ok (by rw [hstarts]; exact Nat.lt_succ_of_le (hw.trans hc.log))]
      rfl
    · simp only
      rw [h.starts, set_map_range]
      refine List.map_congr_left fun w _ => ?_
      by_cases hwi : w = ws[i]
      · subst hwi
        rw [Function.update_self, if_pos (by omega), count_take_succ _ _ hi, if_pos rfl, hsi, hpow]
        ring
      · rw [Function.update_of_ne hwi]
        split_ifs
        · rw [count_take_succ _ _ hi, if_neg (Ne.symm hwi), Nat.add_zero]
        · rfl
    · intro e he
      obtain ⟨u, hu, rfl⟩ := List.getElem_of_mem he
      have := hget' u
      rw [List.getElem?_eq_getElem hu] at this
      split_ifs at this with hin
      · rw [Option.some_inj.mp this]; simp only; omega
      · exact h.num_bits _ (List.mem_of_getElem? this.symm)
    · intro hne u hu hu'
      simp only
      rw [hget']
      rcases Nat.lt_succ_iff_lt_or_eq.mp hji with hlt | rfl
      · rw [if_neg fun hin => start_disjoint hlt hi (u := u) (by rw [hpow]; exact hin) ⟨hu, hu'⟩]
        exact h.entries j hj hlt hne u hu hu'
      · rw [if_pos ⟨hu, by rw [← hpow]; exact hu'⟩]

theorem foldlM_fill_symbol (hc : Complete ws max_bits) (vs : List Nat) (i : Nat)
    (hvs : ws.drop i = vs) {st : List HuffEntry × List Nat} (h : Filled ws max_bits i st) :
    ∃ st', (vs.zipIdx i).foldlM (fill_symbol max_bits (2 ^ max_bits)) st = .ok st' ∧
      Filled ws max_bits (i + vs.length) st' := by
  induction vs generalizing i st with
  | nil => exact ⟨st, rfl, h⟩
  | cons v vs ih =>
    have hi : i < ws.length := by
      by_contra hge
      rw [List.drop_of_length_le (by omega)] at hvs
      simp at hvs
    rw [List.drop_eq_getElem_cons hi] at hvs
    obtain ⟨hv, hvs⟩ := List.cons_eq_cons.mp hvs
    obtain ⟨st₁, h₁, hf₁⟩ := fill_symbol_ok hc hi h
    obtain ⟨st₂, h₂, hf₂⟩ := ih (i + 1) hvs hf₁
    refine ⟨st₂, ?_, by rw [List.length_cons, Nat.add_comm vs.length, ← Nat.add_assoc]; exact hf₂⟩
    rw [List.zipIdx_cons, List.foldlM_cons, ← hv, h₁, bind_ok, h₂]

/-- The loops of `build_table` over a complete list. -/
theorem fill_table_ok {all : List Nat} (hc : Complete all max_bits) :
    ∃ entries rest, all.zipIdx.foldlM (fill_symbol max_bits (2 ^ max_bits))
        (List.replicate HUF_DTABLE_SIZE HuffEntry.zero,
          (List.range (HUF_TABLELOG_MAX + 1)).map fun w =>
            if 1 ≤ w ∧ w ≤ max_bits then below all w else 0) = .ok (entries, rest) ∧
      Layout all max_bits ⟨max_bits, entries⟩ := by
  have hstart : Filled all max_bits 0 (List.replicate HUF_DTABLE_SIZE HuffEntry.zero,
      (List.range (HUF_TABLELOG_MAX + 1)).map fun w =>
        if 1 ≤ w ∧ w ≤ max_bits then below all w else 0) := by
    refine ⟨by simp, List.length_replicate, fun e he => ?_, fun j _ hj => absurd hj (by omega)⟩
    rw [List.eq_of_mem_replicate he]
    exact Nat.zero_le _
  obtain ⟨⟨entries, rest⟩, h, hf⟩ := foldlM_fill_symbol hc all 0 rfl hstart
  exact ⟨entries, rest, h, hc, rfl, hf.length, hf.num_bits,
    fun i hi => hf.entries i hi (by omega)⟩

/-- A weight list that a last weight makes complete. -/
structure Completes (ws : List Nat) (last max_bits : Nat) : Prop where
  length : ws.length < 256
  log : max_bits ≤ HUF_TABLELOG_MAX
  nonzero : total ws ≠ 0
  max_bits_eq : max_bits = Nat.log2 (total ws) + 1
  last_pos : 1 ≤ last
  sum : total ws + 2 ^ (last - 1) = 2 ^ max_bits

theorem share_le_total {w : Nat} (h : w ∈ ws) : share w ≤ total ws :=
  List.le_sum_of_mem (List.mem_map_of_mem h)

theorem Completes.le {last : Nat} (h : Completes ws last max_bits) {w : Nat} (hw : w ∈ ws) :
    w ≤ max_bits := by
  by_cases h0 : w = 0
  · omega
  · have hs := share_le_total hw
    rw [share, if_neg h0] at hs
    have hlog := (Nat.le_log2 h.nonzero).mpr hs
    have := h.max_bits_eq
    omega

theorem Completes.last_le {last : Nat} (h : Completes ws last max_bits) : last ≤ max_bits := by
  have hself := Nat.log2_self_le h.nonzero
  have hlt : 2 ^ (last - 1) < 2 ^ max_bits := by
    have := h.sum; have := h.nonzero; omega
  have := (Nat.pow_lt_pow_iff_right (by omega)).mp hlt
  omega

theorem Completes.complete {last : Nat} (h : Completes ws last max_bits) :
    Complete (ws ++ [last]) max_bits where
  length := by have := h.length; simp; omega
  log := h.log
  le := by
    intro w hw
    rcases List.mem_append.mp hw with hw | hw
    · exact h.le hw
    · rw [List.mem_singleton.mp hw]; exact h.last_le
  total := by
    have hp := h.last_pos
    rw [total, List.map_append, List.sum_append, ← h.sum, total, List.map_singleton,
      List.sum_singleton, share, if_neg (by omega)]

/-- `build_table` of a list that a last weight completes. -/
theorem build_table_ok {last : Nat} (h : Completes ws last max_bits) :
    ∃ t, build_table ws = .ok t ∧ Layout (ws ++ [last]) max_bits t := by
  have hc := h.complete
  have hlog : max_bits ≤ 12 := h.log
  have hp := h.last_pos
  have hpow : 2 ^ max_bits ≤ 2 ^ 12 := Nat.pow_le_pow_right (by omega) hlog
  have hlen := h.length
  have hsum := h.sum
  have hone : 1 ≤ 2 ^ (last - 1) := Nat.one_le_two_pow
  have hweights : sum_weights ws = .ok (total ws) := by
    rcases sum_weights_cases ws (by omega) with ⟨w, hw, hlt, -⟩ | ⟨ho, -⟩
    · have := h.le hw
      have h12 : HUF_TABLELOG_MAX = 12 := rfl
      omega
    · exact ho
  have hleft : 2 ^ max_bits - total ws = 2 ^ (last - 1) := by omega
  have hresidual : 2 ^ (last - 1) &&& (2 ^ (last - 1) - 1) = 0 := by
    rw [Nat.and_two_pow_sub_one_eq_mod, Nat.mod_self]
  have hlast : (Nat.log2 (2 ^ (last - 1)) + 1) % 256 = last := by
    have := h.last_le
    rw [Nat.log2_two_pow]; omega
  have hle256 : (ws ++ [last]).length ≤ 256 := by simp; omega
  obtain ⟨entries, rest, hfill, hlayout⟩ := fill_table_ok hc
  refine ⟨⟨max_bits, entries⟩, ?_, hlayout⟩
  have h12 : HUF_TABLELOG_MAX = 12 := rfl
  rw [build_table, hweights, bind_ok, if_neg h.nonzero, highbit32_ok h.nonzero (by omega), bind_ok,
    add_ok (by have := h.max_bits_eq; omega), bind_ok, ← h.max_bits_eq,
    if_neg (by omega), shl_exact (by omega) (by omega), bind_ok, Nat.one_mul,
    sub_ok (by omega), bind_ok, hleft, if_neg (by omega), sub_ok hone, bind_ok, hresidual]
  simp only [pure_eq_ok, bind_ok, ne_eq, not_true_eq_false, if_false]
  rw [highbit32_ok (by omega) (by omega), bind_ok, add_ok (by rw [Nat.log2_two_pow]; omega),
    bind_ok,
    hlast, if_neg (by omega), count_ranks_ok hle256 (fun w hw => (hc.le w hw).trans hc.log),
    bind_ok,
    rank_starts_ok hc, bind_ok, shl_exact (by omega) (by omega), bind_ok, Nat.one_mul]
  rw [hfill]
  rfl

/-- A message about one weight is not the one about the table. -/
theorem weight_message_ne (w : Nat) :
    s!"huffman weight {w} too large" ≠ "huffman table overflow" := by
  intro h
  have hprefix := congrArg (fun s : String => s.toList.take 9) h
  rw [String.toList_append, String.toList_append, List.append_assoc,
    List.take_append_of_le_length (by decide)] at hprefix
  exact absurd hprefix (by decide)

theorem length_message_ne (n : Nat) :
    s!"huffman max code length {n} too large" ≠ "huffman table overflow" := by
  intro h
  have hprefix := congrArg (fun s : String => s.toList.take 9) h
  rw [String.toList_append, String.toList_append, List.append_assoc,
    List.take_append_of_le_length (by decide)] at hprefix
  exact absurd hprefix (by decide)

/-- `build_table` rejects a list that no last weight completes, before any entry is filled in. -/
theorem build_table_rejects (hlen : ws.length ≤ 256)
    (h : ¬ ∃ last max_bits, Completes ws last max_bits) :
    ∃ msg, build_table ws = fail (.CorruptTable msg) ∧ msg ≠ "huffman table overflow" := by
  rcases sum_weights_cases ws hlen with ⟨w, -, -, hw⟩ | ⟨hsum, hle⟩
  · exact ⟨_, by rw [build_table, hw, bind_fail], weight_message_ne w⟩
  rw [build_table, hsum, bind_ok]
  by_cases h0 : total ws = 0
  · exact ⟨_, if_pos h0, by decide⟩
  have hbound : total ws ≤ 256 * 2048 := by
    have hs : ∀ x ∈ ws.map share, x ≤ 2048 := by
      intro x hx
      obtain ⟨w, hw, rfl⟩ := List.mem_map.mp hx
      exact (sum_weight_ok (n := 0) (hle w hw) (by norm_num)).2
    have h₁ := List.sum_le_card_nsmul _ _ hs
    have h₂ := Nat.mul_le_mul_right 2048 hlen
    rw [List.length_map, smul_eq_mul] at h₁
    exact h₁.trans h₂
  have hlt : total ws < 2 ^ (Nat.log2 (total ws) + 1) := Nat.lt_log2_self
  have hlog : Nat.log2 (total ws) < 20 := (Nat.log2_lt h0).mpr (by omega)
  rw [if_neg h0, highbit32_ok h0 (by omega), bind_ok, add_ok (by omega), bind_ok]
  have h12 : HUF_TABLELOG_MAX = 12 := rfl
  by_cases hmax : HUF_TABLELOG_MAX < Nat.log2 (total ws) + 1
  · exact ⟨_, if_pos hmax, length_message_ne _⟩
  have hpow : 2 ^ (Nat.log2 (total ws) + 1) ≤ 2 ^ 12 := Nat.pow_le_pow_right (by omega) (by omega)
  rw [if_neg hmax, shl_exact (by omega) (by omega), bind_ok, Nat.one_mul, sub_ok (by omega),
    bind_ok,
    if_neg (by omega), sub_ok (by omega), bind_ok]
  simp only [pure_eq_ok, bind_ok]
  generalize hleft : 2 ^ (Nat.log2 (total ws) + 1) - total ws = left
  by_cases hres : left &&& (left - 1) ≠ 0
  · exact ⟨_, if_pos hres, by decide⟩
  have hlt20 : Nat.log2 left < 20 := (Nat.log2_lt (by omega)).mpr (by omega)
  rw [if_neg hres, highbit32_ok (by omega) (by omega), bind_ok, add_ok (by omega), bind_ok]
  by_cases hlength : 256 < (ws ++ [(Nat.log2 left + 1) % 256]).length
  · exact ⟨_, if_pos hlength, by decide⟩
  -- every check passed
  refine absurd ?_ h
  obtain ⟨k, hk⟩ := (Nat.and_sub_one_eq_zero_iff_isPowerOfTwo (by omega)).mp (not_not.mp hres)
  exact ⟨k + 1, _, by simpa using hlength, by omega, h0, rfl, by omega, by
    rw [Nat.add_sub_cancel, ← hk]; omega⟩

/-- `build_table` never faults, and the table it returns is that of a complete list. -/
theorem build_table_safe (ws : List Nat) (hlen : ws.length ≤ 256) :
    Safe (build_table ws) fun t => ∃ last max_bits, Layout (ws ++ [last]) max_bits t := by
  by_cases hok : ∃ last max_bits, Completes ws last max_bits
  · obtain ⟨last, max_bits, h⟩ := hok
    obtain ⟨t, ht, hl⟩ := build_table_ok h
    rw [ht]
    exact Safe.ok ⟨last, max_bits, hl⟩
  · obtain ⟨msg, hmsg, -⟩ := build_table_rejects hlen hok
    rw [hmsg]
    exact safe_fail

end ZstdPure.Huff
