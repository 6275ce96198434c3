import ZstdPure.Encode.Huff
import ZstdPure.Lib.Tally
import ZstdPure.Proofs.BitWriterProofs
import ZstdPure.Proofs.HuffCodeProofs
import ZstdPure.Proofs.HuffStreamProofs

/-!
# Code tables

`build_code_table` reads the codes back out of the decoder's own table. A stream of these codes,
last symbol first, decodes to the symbols. -/

namespace ZstdPure.Encode

open Outcome Huff Tally

/-! ## The codes of a decoding table -/

/-- Symbol `s` has the code `code` of `nb` bits: the table gives it for exactly the windows that
start with these bits. -/
structure HasCode (t : HuffTable) (s : UInt8) (code nb : Nat) : Prop where
  pos : 0 < nb
  le : nb ≤ t.max_bits
  lt : code < 2 ^ nb
  entry : ∀ u < 2 ^ t.max_bits, t.entries[u]? = some ⟨s, nb⟩ ↔ u / 2 ^ (t.max_bits - nb) = code

/-- A code table and a decoding table with the same code bits for every symbol. -/
structure SameCodes (ct : CodeTable) (t : HuffTable) : Prop where
  built : ∃ weights, build_table weights = .ok t
  present : ∀ s : UInt8, ct.nbits.getD s.toNat 0 ≠ 0 →
    HasCode t s (ct.code.getD s.toNat 0) (ct.nbits.getD s.toNat 0)
  absent : ∀ s : UInt8, ct.nbits.getD s.toNat 0 = 0 →
    ∀ u < 2 ^ t.max_bits, ∀ e, t.entries[u]? = some e → e.symbol ≠ s

section Codes

variable {ws : List Nat} {max_bits i w u nb : Nat} {t : HuffTable} {s : UInt8}

theorem ofNat_inj {i j : Nat} (hi : i < 256) (hj : j < 256) (h : UInt8.ofNat i = UInt8.ofNat j) :
    i = j := by
  have hn := congrArg UInt8.toNat h
  rw [UInt8.toNat_ofNat', UInt8.toNat_ofNat'] at hn
  omega

/-- The run of a symbol are the windows that start with its code. -/
theorem Tiled.hasCode {first : Nat → Nat} (h : Tiled ws first t) (hlen : ws.length ≤ 256)
    (hi : ws[i]? = some w) (hw : w ≠ 0) :
    HasCode t (UInt8.ofNat i) (first i / 2 ^ (w - 1)) (t.max_bits + 1 - w) := by
  have hpos := h.num_bits_pos i w hi hw
  have hinside := h.inside i w hi hw
  have hexp : t.max_bits - (t.max_bits + 1 - w) = w - 1 := by omega
  obtain ⟨q, hq⟩ := h.aligned i w hi hw
  have hp : 0 < 2 ^ (w - 1) := by positivity
  have hcode : first i / 2 ^ (w - 1) = q := by rw [hq, Nat.mul_div_cancel_left _ hp]
  have hi256 : i < 256 := lt_of_lt_of_le (List.getElem?_eq_some_iff.mp hi).1 hlen
  refine ⟨hpos, by omega, ?_, fun u hu => ?_⟩
  · rw [Nat.div_lt_iff_lt_mul hp, ← pow_add, show t.max_bits + 1 - w + (w - 1) =
      t.max_bits by omega]
    omega
  rw [hexp, hcode, Nat.div_eq_iff hp]
  rw [Nat.mul_comm] at hq
  constructor
  · intro he
    obtain ⟨j, ⟨v, hj, hv, hlo, hhi⟩, -⟩ := h.cover u hu
    rw [h.entry j v hj hv u hlo hhi, Option.some.injEq, HuffEntry.mk.injEq] at he
    obtain rfl : j = i :=
      ofNat_inj (lt_of_lt_of_le (List.getElem?_eq_some_iff.mp hj).1 hlen) hi256 he.1
    rw [hi] at hj
    obtain rfl := Option.some.inj hj
    omega
  · rintro ⟨hlo, hhi⟩
    exact h.entry i w hi hw u (by omega) (by omega)

/-- The code of the symbol of a window. -/
theorem Tiled.code_of_entry {first : Nat → Nat} (h : Tiled ws first t) (hlen : ws.length ≤ 256)
    (hu : u < 2 ^ t.max_bits) (he : t.entries[u]? = some ⟨s, nb⟩) :
    HasCode t s (u / 2 ^ (t.max_bits - nb)) nb := by
  obtain ⟨i, ⟨w, hi, hw, hlo, hhi⟩, -⟩ := h.cover u hu
  have hcode := Tiled.hasCode h hlen hi hw
  have hrun := h.entry i w hi hw u hlo hhi
  rw [hrun, Option.some.injEq, HuffEntry.mk.injEq] at he
  obtain ⟨rfl, rfl⟩ := he
  rw [(hcode.entry u hu).mp hrun]
  exact hcode

/-- The symbol of a window has a weight, and the length that goes with it. -/
theorem Tiled.weight_of_entry {first : Nat → Nat} (h : Tiled ws first t) (hlen : ws.length ≤ 256)
    (hu : u < 2 ^ t.max_bits) (he : t.entries[u]? = some ⟨s, nb⟩) :
    ∃ w, ws[s.toNat]? = some w ∧ w ≠ 0 ∧ nb = t.max_bits + 1 - w ∧ first s.toNat ≤ u ∧
      u < first s.toNat + 2 ^ (w - 1) := by
  obtain ⟨i, ⟨w, hi, hw, hlo, hhi⟩, -⟩ := h.cover u hu
  have hi256 : i < 256 := lt_of_lt_of_le (List.getElem?_eq_some_iff.mp hi).1 hlen
  rw [h.entry i w hi hw u hlo hhi, Option.some.injEq, HuffEntry.mk.injEq] at he
  obtain ⟨rfl, rfl⟩ := he
  rw [show (UInt8.ofNat i).toNat = i by rw [UInt8.toNat_ofNat']; omega]
  exact ⟨w, hi, hw, rfl, hlo, hhi⟩

/-- A code has a window that starts with it. -/
theorem HasCode.window {code : Nat} (h : HasCode t s code nb) :
    code * 2 ^ (t.max_bits - nb) < 2 ^ t.max_bits ∧
      t.entries[code * 2 ^ (t.max_bits - nb)]? = some ⟨s, nb⟩ := by
  have hle := h.le
  have hlt : code * 2 ^ (t.max_bits - nb) < 2 ^ t.max_bits := by
    calc code * 2 ^ (t.max_bits - nb) < 2 ^ nb * 2 ^ (t.max_bits - nb) :=
          Nat.mul_lt_mul_of_pos_right h.lt (by positivity)
      _ = 2 ^ t.max_bits := by rw [← pow_add, Nat.add_sub_cancel' hle]
  exact ⟨hlt, (h.entry _ hlt).mpr (Nat.mul_div_cancel _ (by positivity))⟩

/-- The lengths of the codes follow from the weights. -/
theorem SameCodes.nbits_eq {ct : CodeTable} (hs : SameCodes ct t) (hl : Layout ws max_bits t)
    (s : UInt8) :
    ct.nbits.getD s.toNat 0
      = if ws.getD s.toNat 0 = 0 then 0 else max_bits + 1 - ws.getD s.toNat 0 := by
  have htiled := hl.tiled
  have hlen := hl.complete.length
  by_cases h0 : ct.nbits.getD s.toNat 0 = 0
  · rw [h0, if_pos]
    by_contra hw
    have hi := Tally.getElem?_of_getD hw
    have hinside := htiled.inside _ _ hi hw
    have hp : 0 < 2 ^ (ws.getD s.toNat 0 - 1) := by positivity
    refine hs.absent s h0 (start ws s.toNat) (by omega) _
      (htiled.entry _ _ hi hw _ le_rfl (by omega)) ?_
    exact UInt8.ofNat_toNat
  · obtain ⟨hlt, hentry⟩ := (hs.present s h0).window
    obtain ⟨w, hi, hw, hnb, -⟩ := Tiled.weight_of_entry htiled hlen hlt hentry
    have hget : ws.getD s.toNat 0 = w := by rw [List.getD_eq_getElem?_getD, hi, Option.getD_some]
    rw [hget, if_neg hw, hnb, hl.table_bits]

end Codes

/-! ## Reading the codes back -/

section Invert

variable {t : HuffTable}

/-- The codes read from the first `n` entries. -/
structure Inverted (t : HuffTable) (n : Nat) (st : List Nat × List Nat) : Prop where
  code_length : st.1.length = 256
  nbits_length : st.2.length = 256
  found : ∀ s : UInt8, st.2.getD s.toNat 0 ≠ 0 → ∃ u < n,
    t.entries[u]? = some ⟨s, st.2.getD s.toNat 0⟩ ∧
      st.1.getD s.toNat 0 = u / 2 ^ (t.max_bits - st.2.getD s.toNat 0)
  seen : ∀ u < n, ∀ e, t.entries[u]? = some e → e.num_bits ≠ 0 → st.2.getD e.symbol.toNat 0 ≠ 0

theorem Inverted.step {n : Nat} {st : List Nat × List Nat} {e : HuffEntry} (h : Inverted t n st)
    (he : t.entries[n]? = some e) : Inverted t (n + 1) (invert_entry t.max_bits st (e, n)) := by
  have hcl := h.code_length
  have hnl := h.nbits_length
  have hset : ∀ (l : List Nat) (v : Nat) (s : UInt8), l.length = 256 →
      (l.set e.symbol.toNat v).getD s.toNat 0 = if e.symbol = s then v else l.getD s.toNat 0 := by
    intro l v s hl
    have hlt := e.symbol.toNat_lt_256
    rw [getD_set _ _ _ _ _ (by omega)]
    by_cases hes : e.symbol = s
    · rw [if_pos (congrArg UInt8.toNat hes), if_pos hes]
    · rw [if_neg fun h => hes (UInt8.toNat_inj.mp h), if_neg hes]
  rw [invert_entry]
  dsimp only
  split_ifs with hnew
  · obtain ⟨hne, hunseen⟩ := hnew
    refine ⟨by simpa using hcl, by simpa using hnl, fun s hs => ?_, fun u hu e' he' hne' => ?_⟩
    · rw [hset _ _ _ hnl] at hs ⊢
      rw [hset _ _ _ hcl]
      by_cases hes : e.symbol = s
      · rw [if_pos hes, if_pos hes]
        refine ⟨n, Nat.lt_succ_self n, ?_, Nat.shiftRight_eq_div_pow ..⟩
        rw [he, ← hes]
      · rw [if_neg hes, if_neg hes]
        rw [if_neg hes] at hs
        obtain ⟨u, hu, hrest⟩ := h.found s hs
        exact ⟨u, by omega, hrest⟩
    · rw [hset _ _ _ hnl]
      split_ifs with hes
      · exact hne
      · rcases Nat.lt_or_eq_of_le (Nat.le_of_lt_succ hu) with hlt | rfl
        · exact h.seen u hlt e' he' hne'
        · rw [he] at he'
          exact absurd (congrArg HuffEntry.symbol (Option.some.inj he')) hes
  · refine ⟨hcl, hnl, fun s hs => ?_, fun u hu e' he' hne' => ?_⟩
    · obtain ⟨u, hu, hrest⟩ := h.found s hs
      exact ⟨u, by omega, hrest⟩
    · rcases Nat.lt_or_eq_of_le (Nat.le_of_lt_succ hu) with hlt | rfl
      · exact h.seen u hlt e' he' hne'
      · rw [he] at he'
        obtain rfl := Option.some.inj he'
        intro h0
        exact hnew ⟨hne', h0⟩

/-- All codes of a table. -/
theorem invert_entries (hlen : 2 ^ t.max_bits ≤ t.entries.length) :
    Inverted t (2 ^ t.max_bits) ((live_entries t).zipIdx.foldl (invert_entry t.max_bits)
      (List.replicate 256 0, List.replicate 256 0)) := by
  have hrun : ∀ n, n ≤ t.entries.length → Inverted t n ((t.entries.take n).zipIdx.foldl
      (invert_entry t.max_bits) (List.replicate 256 0, List.replicate 256 0)) := by
    intro n
    induction n with
    | zero =>
      intro _
      exact ⟨List.length_replicate, List.length_replicate,
        fun s hs => absurd (getD_replicate_zero _ _) hs,
        fun u hu => absurd hu (Nat.not_lt_zero _)⟩
    | succ n ih =>
      intro hn
      have hget : t.entries[n]? = some t.entries[n] := List.getElem?_eq_getElem hn
      rw [List.take_succ_eq_append_getElem hn, List.zipIdx_append, List.foldl_append,
        List.length_take, Nat.min_eq_left (by omega), Nat.zero_add]
      exact (ih (by omega)).step hget
  exact hrun _ hlen

/-- The codes read from a decoding table are its codes. -/
theorem invert_same_codes {ws : List Nat} {max_bits : Nat} (hl : Layout ws max_bits t)
    (hbuilt : ∃ weights, build_table weights = .ok t) (max_symbol : Nat)
      {code nbits weights : List Nat}
    (hinv : (live_entries t).zipIdx.foldl (invert_entry t.max_bits)
      (List.replicate 256 0, List.replicate 256 0) = (code, nbits)) :
    SameCodes ⟨code, nbits, max_symbol, weights⟩ t ∧
      ∀ i w, ws[i]? = some w → w ≠ 0 → nbits.getD i 0 ≠ 0 := by
  have htiled := hl.tiled
  have hws := hl.complete.length
  have hlog : t.max_bits ≤ 12 := hl.valid.log
  have hsize : 2 ^ t.max_bits ≤ 2 ^ 12 := Nat.pow_le_pow_right (by decide) hlog
  have hspec := invert_entries (t := t) (by rw [hl.length]; exact hsize)
  rw [hinv] at hspec
  refine ⟨⟨hbuilt, fun s hs => ?_, fun s hs u hu e he hes => ?_⟩, fun i w hi hw => ?_⟩
  · obtain ⟨u, hu, he, hcode⟩ := hspec.found s hs
    dsimp only at he hcode ⊢
    rw [hcode]
    exact Tiled.code_of_entry htiled hws hu he
  · rw [← hes] at hs
    have hcode := @Tiled.code_of_entry _ u e.num_bits t e.symbol _ htiled hws hu he
    exact hspec.seen u hu e he (Nat.pos_iff_ne_zero.mp hcode.pos) hs
  · have hi256 : i < 256 := lt_of_lt_of_le (List.getElem?_eq_some_iff.mp hi).1 hws
    have hp : 0 < 2 ^ (w - 1) := by positivity
    have hinside := htiled.inside i w hi hw
    have hne := hspec.seen (start ws i) (by omega) _
      (htiled.entry i w hi hw _ le_rfl (by omega))
        (Nat.pos_iff_ne_zero.mp (htiled.num_bits_pos i w hi hw))
    rwa [show (UInt8.ofNat i).toNat = i by rw [UInt8.toNat_ofNat']; omega] at hne

end Invert

/-! ## `build_code_table` -/

/-- The last index with a property is the greatest. -/
theorem le_getLastD_filter_range (p : Nat → Bool) : ∀ (n s : Nat), s < n → p s = true →
    s ≤ ((List.range n).filter p).getLastD 0 := by
  intro n
  induction n with
  | zero => intro s hs; exact absurd hs (Nat.not_lt_zero _)
  | succ n ih =>
    intro s hs hp
    rw [List.range_succ, List.filter_append]
    by_cases hn : p n = true
    · rw [List.filter_cons_of_pos hn, List.filter_nil, List.getLastD_concat]
      omega
    · rw [List.filter_cons_of_neg hn, List.filter_nil, List.append_nil]
      refine ih s ?_ hp
      rcases Nat.lt_or_eq_of_le (Nat.le_of_lt_succ hs) with hlt | rfl
      · exact hlt
      · exact absurd hp hn

theorem le_last_symbol {lengths : List Nat} {s : Nat} (hs : s < 256) (hpos : 0 < lengths.getD s 0) :
    s ≤ last_symbol lengths :=
  le_getLastD_filter_range (fun s => decide (0 < lengths.getD s 0)) 256 s hs (decide_eq_true hpos)

/-- The last symbol has a length, if there is one. -/
theorem last_symbol_mem (lengths : List Nat) :
    last_symbol lengths = 0 ∨
      last_symbol lengths < 256 ∧ 0 < lengths.getD (last_symbol lengths) 0 := by
  rcases List.mem_cons.mp (@List.getLastD_mem_cons _
    ((List.range 256).filter fun s => 0 < lengths.getD s 0) 0) with h | h
  · exact Or.inl h
  · obtain ⟨hrange, hpos⟩ := List.mem_filter.mp h
    exact Or.inr ⟨List.mem_range.mp hrange, of_decide_eq_true hpos⟩

theorem last_symbol_lt (lengths : List Nat) : last_symbol lengths < 256 := by
  rcases last_symbol_mem lengths with h | h
  · omega
  · exact h.1

/-- The weights that the header of a code table stores. -/
def code_weights (lengths : List Nat) : List Nat :=
  (lengths.take (last_symbol lengths)).map fun l => if 0 < l then lengths.foldl max 0 + 1 - l else 0

/-- The code table has the codes of the decoding table of its weights, and a code for every symbol
with a length. -/
theorem build_code_table_spec {lengths : List Nat} {ct : CodeTable} (hlen : lengths.length = 256)
    (h : build_code_table lengths = .ok ct) :
    ∃ t, build_table ct.weights = .ok t ∧ SameCodes ct t ∧ ct.max_symbol = last_symbol lengths ∧
      ct.weights.length = ct.max_symbol ∧ ∀ s, 0 < lengths.getD s 0 → ct.nbits.getD s 0 ≠ 0 := by
  rw [build_code_table] at h
  obtain ⟨t, ht, h⟩ := bind_eq_ok.mp h
  obtain ⟨last, max_bits, hlast, hl⟩ := build_table_layout ht
  obtain ⟨⟨code, nbits⟩, hinv⟩ : ∃ st, (live_entries t).zipIdx.foldl (invert_entry t.max_bits)
      (List.replicate 256 0, List.replicate 256 0) = st := ⟨_, rfl⟩
  rw [hinv] at h
  obtain rfl := Except.ok.inj h
  obtain ⟨hsame, hpresent⟩ := invert_same_codes hl ⟨_, ht⟩ (last_symbol lengths) hinv
  have hwlen : ((lengths.take (last_symbol lengths)).map fun l =>
      if 0 < l then lengths.foldl max 0 + 1 - l else 0).length = last_symbol lengths := by
    have hlt := last_symbol_lt lengths
    rw [List.length_map, List.length_take]
    omega
  refine ⟨t, ht, hsame, rfl, hwlen, fun s hs => ?_⟩
  have hs256 : s < 256 := by
    by_contra hc
    rw [List.getD_eq_default _ _ (by omega)] at hs
    exact absurd hs (Nat.lt_irrefl 0)
  rcases Nat.lt_or_eq_of_le (le_last_symbol hs256 hs) with hlt | rfl
  · have hget : lengths[s]? = some (lengths.getD s 0) := by
      rw [List.getD_eq_getElem _ _ (by omega), List.getElem?_eq_getElem (by omega)]
    have hle : lengths.getD s 0 ≤ lengths.foldl max 0 :=
      le_foldl_max (List.mem_of_getElem? hget)
    refine hpresent s (lengths.foldl max 0 + 1 - lengths.getD s 0) ?_ (by omega)
    rw [List.getElem?_append_left (by omega), List.getElem?_map, List.getElem?_take_of_lt hlt, hget,
      Option.map_some, if_pos hs]
  · refine hpresent _ last ?_ (by omega)
    rw [List.getElem?_append_right (by omega), hwlen, Nat.sub_self]
    rfl

/-! ## Complete codes -/

/-- The part of a complete code of at most `m` bits that a length takes up. -/
def code_share (m l : Nat) : Nat := if l = 0 then 0 else 2 ^ (m - l)

/-- The lengths of a complete code of at most `m` bits. -/
structure CompleteCode (m : Nat) (lengths : List Nat) : Prop where
  length : lengths.length = 256
  log : m ≤ HUF_TABLELOG_MAX
  le : ∀ l ∈ lengths, l ≤ m
  kraft : (lengths.map (code_share m)).sum = 2 ^ m

section Complete

variable {m : Nat} {lengths : List Nat}

/-- The longest length is limit enough. -/
theorem CompleteCode.longest (h : CompleteCode m lengths) :
    CompleteCode (lengths.foldl max 0) lengths := by
  have hne : lengths ≠ [] := List.ne_nil_of_length_pos (by rw [h.length]; decide)
  have hmem := foldl_max_mem hne
  have hle := h.le _ hmem
  have hmax : ∀ l ∈ lengths, l ≤ lengths.foldl max 0 := fun l hl => le_foldl_max hl
  refine ⟨h.length, hle.trans h.log, hmax, ?_⟩
  have hkraft := h.kraft
  generalize lengths.foldl max 0 = longest at *
  have hscale : (lengths.map (code_share m)).sum
      = 2 ^ (m - longest) * (lengths.map (code_share longest)).sum := by
    rw [← List.sum_map_mul_left]
    refine congrArg _ (List.map_congr_left fun l hl => ?_)
    have hl' := hmax l hl
    rw [code_share, code_share]
    split_ifs
    · rfl
    · rw [← pow_add]
      congr 1
      omega
  rw [hscale, show m = m - longest + longest by omega, pow_add,
    show m - longest + longest - longest = m - longest by omega] at hkraft
  exact Nat.eq_of_mul_eq_mul_left (by positivity) hkraft

/-- The last symbol has a length. -/
theorem CompleteCode.last_pos (h : CompleteCode m lengths) :
    0 < lengths.getD (last_symbol lengths) 0 := by
  have hsome : ∃ s < 256, 0 < lengths.getD s 0 := by
    by_contra hc
    have hzero : (lengths.map (code_share m)).sum = 0 := by
      refine List.sum_eq_zero fun x hx => ?_
      obtain ⟨l, hl, rfl⟩ := List.mem_map.mp hx
      obtain ⟨s, hs, rfl⟩ := List.mem_iff_getElem.mp hl
      refine if_pos ?_
      by_contra hne
      refine hc ⟨s, by rw [← h.length]; exact hs, ?_⟩
      rw [List.getD_eq_getElem _ _ hs]
      omega
    have hpos : 0 < 2 ^ m := by positivity
    rw [h.kraft] at hzero
    omega
  obtain ⟨s, hs, hpos⟩ := hsome
  rcases last_symbol_mem lengths with h0 | ⟨-, hlast⟩
  · have hle := le_last_symbol hs hpos
    rw [h0]
    rwa [show s = 0 by omega] at hpos
  · exact hlast

/-- The symbols up to the last take up the whole code. -/
theorem CompleteCode.sum_take (h : CompleteCode m lengths) :
    ((lengths.take (last_symbol lengths)).map (code_share m)).sum
      + code_share m (lengths.getD (last_symbol lengths) 0) = 2 ^ m := by
  have hlt : last_symbol lengths < lengths.length := by
    rw [h.length]
    exact last_symbol_lt lengths
  have hzero : ((lengths.drop (last_symbol lengths + 1)).map (code_share m)).sum = 0 := by
    refine List.sum_eq_zero fun x hx => ?_
    obtain ⟨l, hl, rfl⟩ := List.mem_map.mp hx
    obtain ⟨k, hk, rfl⟩ := List.mem_iff_getElem.mp hl
    rw [List.length_drop] at hk
    refine if_pos ?_
    rw [List.getElem_drop]
    by_contra hne
    have hle := @le_last_symbol lengths (last_symbol lengths + 1 + k) (by have := h.length; omega)
      (by
      rw [List.getD_eq_getElem _ _ (by omega)]
      omega)
    omega
  have hsplit := congrArg (fun l => (l.map (code_share m)).sum)
    (List.take_append_drop (last_symbol lengths) lengths)
  rw [List.drop_eq_getElem_cons hlt, ← List.getD_eq_getElem _ 0 hlt] at hsplit
  simp only [List.map_append, List.sum_append, List.map_cons, List.sum_cons, hzero,
    h.kraft] at hsplit
  omega

/-- The stored weights are completed by the weight of the last symbol. -/
theorem CompleteCode.completes (h : CompleteCode m lengths) :
    Completes (code_weights lengths)
      (lengths.foldl max 0 + 1 - lengths.getD (last_symbol lengths) 0) (lengths.foldl max 0) := by
  have hlong := h.longest
  have hsum := hlong.sum_take
  have hpos := h.last_pos
  have hlt := last_symbol_lt lengths
  have hlen := h.length
  have hmem : lengths.getD (last_symbol lengths) 0 ∈ lengths := by
    rw [List.getD_eq_getElem _ _ (by omega)]
    exact List.getElem_mem _
  have hle := hlong.le _ hmem
  have htotal : total (code_weights lengths)
      = ((lengths.take (last_symbol lengths)).map (code_share (lengths.foldl max 0))).sum := by
    rw [total, code_weights, List.map_map]
    refine congrArg _ (List.map_congr_left fun l hl => ?_)
    have hl' := hlong.le l (List.mem_of_mem_take hl)
    rw [Function.comp_apply, code_share, share]
    by_cases h0 : l = 0
    · rw [h0]
      rfl
    · rw [if_pos (Nat.pos_of_ne_zero h0), if_neg (by omega), if_neg h0]
      congr 1
      omega
  rw [code_share, if_neg (by omega)] at hsum
  rw [← htotal] at hsum
  have hlog := hlong.log
  have hwlen : (code_weights lengths).length < 256 := by
    rw [code_weights, List.length_map, List.length_take]
    omega
  generalize code_weights lengths = ws at *
  generalize lengths.foldl max 0 = longest at *
  generalize lengths.getD (last_symbol lengths) 0 = l at *
  obtain ⟨k, rfl⟩ : ∃ k, longest = k + 1 := ⟨longest - 1, by omega⟩
  have hhalf : 2 ^ (k + 1 - l) ≤ 2 ^ k := Nat.pow_le_pow_right (by decide) (by omega)
  have hone : 0 < 2 ^ (k + 1 - l) := by positivity
  have htwo : 2 ^ (k + 1) = 2 ^ k + 2 ^ k := by rw [pow_succ]; omega
  have hkpos : 0 < 2 ^ k := by positivity
  have hlog2 : Nat.log2 (total ws) = k := (Nat.log2_eq_iff (by omega)).mpr ⟨by omega, by omega⟩
  refine ⟨hwlen, hlog, by omega, by rw [hlog2], by omega, ?_⟩
  · rw [show k + 1 + 1 - l - 1 = k + 1 - l by omega]
    exact hsum

/-- The weight of a symbol, stored or not. -/
theorem CompleteCode.getD_weights (h : CompleteCode m lengths) {s : Nat} (hs : s < 256) :
    (code_weights lengths ++ [lengths.foldl max 0 + 1 - lengths.getD (last_symbol lengths) 0]).getD
      s 0
      = if lengths.getD s 0 = 0 then 0 else lengths.foldl max 0 + 1 - lengths.getD s 0 := by
  have hlen := h.length
  have hlt := last_symbol_lt lengths
  have hwlen : (code_weights lengths).length = last_symbol lengths := by
    rw [code_weights, List.length_map, List.length_take]
    omega
  rw [List.getD_eq_getElem?_getD]
  rcases Nat.lt_trichotomy s (last_symbol lengths) with hlo | rfl | hhi
  · rw [List.getElem?_append_left (by omega), code_weights, List.getElem?_map,
      List.getElem?_take_of_lt hlo,
      List.getElem?_eq_getElem (by omega), Option.map_some, Option.getD_some,
      List.getD_eq_getElem _ _ (by omega)]
    split_ifs <;> omega
  · have hpos := h.last_pos
    rw [List.getElem?_append_right (by omega), hwlen, Nat.sub_self, if_neg (by omega)]
    rfl
  · rw [List.getElem?_eq_none (by rw [List.length_append, List.length_singleton]; omega),
      Option.getD_none,
      if_pos]
    by_contra hne
    have hle := le_last_symbol hs (Nat.pos_of_ne_zero hne)
    omega

/-- A complete code has a table, with a code of its length for every symbol. -/
theorem CompleteCode.build (h : CompleteCode m lengths) :
    ∃ ct t, build_code_table lengths = .ok ct ∧ SameCodes ct t ∧
      Layout (code_weights lengths ++ [lengths.foldl max 0 + 1 - lengths.getD (last_symbol lengths)
        0])
        (lengths.foldl max 0) t ∧
      ∀ s : UInt8, ct.nbits.getD s.toNat 0 = lengths.getD s.toNat 0 := by
  obtain ⟨t, ht, hl⟩ := build_table_ok h.completes
  obtain ⟨⟨code, nbits⟩, hinv⟩ : ∃ st, (live_entries t).zipIdx.foldl (invert_entry t.max_bits)
      (List.replicate 256 0, List.replicate 256 0) = st := ⟨_, rfl⟩
  obtain ⟨hsame, -⟩ := @invert_same_codes t _ _ hl ⟨_, ht⟩ (last_symbol lengths) _ _
    (code_weights lengths) hinv
  refine ⟨_, t, ?_, hsame, hl, fun s => ?_⟩
  · rw [build_code_table]
    show (build_table (code_weights lengths) >>= _) = _
    rw [ht, bind_ok, hinv]
    rfl
  · rw [hsame.nbits_eq hl, h.getD_weights s.toNat_lt_256]
    have hle : lengths.getD s.toNat 0 ≤ lengths.foldl max 0 := by
      rw [List.getD_eq_getElem _ _ (by rw [h.length]; exact s.toNat_lt_256)]
      exact le_foldl_max (List.getElem_mem _)
    split_ifs <;> omega

end Complete

end ZstdPure.Encode
