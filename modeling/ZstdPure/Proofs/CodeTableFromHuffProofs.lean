import ZstdPure.Proofs.LitStreamProofs

/-!
# Code tables from decoding tables

`code_table_from_huff` reads the lengths of the codes out of a decoding table and builds a table of
its own from them. The two tables may differ in their width and in all their weights; the codes are
the same, since a code only depends on the lengths. -/

namespace ZstdPure.Encode

open Outcome Huff Tally

/-! ## The lengths of a decoding table -/

section Lengths

variable {t : HuffTable} {ws : List Nat} {max_bits : Nat}

/-- A symbol of a decoding table. -/
def HasSymbol (t : HuffTable) (s : UInt8) : Prop := ∃ e ∈ live_entries t, e.symbol = s

/-- The lengths that `code_table_from_huff` reads. -/
def huff_lengths (t : HuffTable) : List Nat :=
  (live_entries t).foldl (fun lengths e => lengths.set e.symbol.toNat e.num_bits)
    (List.replicate 256 0)

theorem mem_live_entries {e : HuffEntry} :
    e ∈ live_entries t ↔ ∃ u < 2 ^ t.max_bits, t.entries[u]? = some e := by
  rw [live_entries, List.mem_iff_getElem?]
  constructor
  · rintro ⟨u, h⟩
    by_cases hu : u < 2 ^ t.max_bits
    · exact ⟨u, hu, by rwa [List.getElem?_take_of_lt hu] at h⟩
    · rw [List.getElem?_take_eq_none (by omega)] at h
      exact absurd h (by simp)
  · rintro ⟨u, hu, h⟩
    exact ⟨u, by rwa [List.getElem?_take_of_lt hu]⟩

/-- The symbols of a table are those with a weight. -/
theorem hasSymbol_iff (hl : Layout ws max_bits t) (s : UInt8) : HasSymbol t s ↔ ws.getD s.toNat 0 ≠
    0 := by
  have htiled := hl.tiled
  constructor
  · rintro ⟨e, he, rfl⟩
    obtain ⟨u, hu, he⟩ := mem_live_entries.mp he
    obtain ⟨w, hi, hw, -⟩ := @Tiled.weight_of_entry _ _ e.num_bits t e.symbol _ htiled
      hl.complete.length hu he
    rwa [List.getD_eq_getElem?_getD, hi]
  · intro hw
    have hi := getElem?_of_getD hw
    have hinside := htiled.inside _ _ hi hw
    have hp : 0 < 2 ^ (ws.getD s.toNat 0 - 1) := by positivity
    refine ⟨_, mem_live_entries.mpr ⟨start ws s.toNat, by omega,
      htiled.entry _ _ hi hw _ le_rfl (by omega)⟩, UInt8.ofNat_toNat⟩

/-- The lengths follow from the weights. -/
theorem getD_huff_lengths (hl : Layout ws max_bits t) (s : UInt8) :
    (huff_lengths t).getD s.toNat 0
      = if ws.getD s.toNat 0 = 0 then 0 else max_bits + 1 - ws.getD s.toNat 0 := by
  have hpairs : huff_lengths t = ((live_entries t).map fun e => (e.symbol.toNat, e.num_bits)).foldl
      (fun l p => l.set p.1 p.2) (List.replicate 256 0) := by
    rw [huff_lengths, List.foldl_map]
  have hkeys : s.toNat ∈ ((live_entries t).map fun e => (e.symbol.toNat, e.num_bits)).map Prod.fst ↔
      HasSymbol t s := by
    rw [List.map_map, List.mem_map]
    exact ⟨fun ⟨e, he, h⟩ => ⟨e, he, UInt8.toNat_inj.mp h⟩, fun ⟨e, he, h⟩ =>
      ⟨e, he, congrArg UInt8.toNat h⟩⟩
  rw [hpairs, getD_foldl_set (fun k => max_bits + 1 - ws.getD k 0), getD_replicate_zero]
  · by_cases hw : ws.getD s.toNat 0 = 0
    · rw [if_neg, if_pos hw]
      exact fun h => (hasSymbol_iff hl s).mp (hkeys.mp h) hw
    · rw [if_pos (hkeys.mpr ((hasSymbol_iff hl s).mpr hw)), if_neg hw]
  · intro p hp
    obtain ⟨e, he, rfl⟩ := List.mem_map.mp hp
    obtain ⟨u, hu, he⟩ := mem_live_entries.mp he
    obtain ⟨w, hi, -, hnb, -⟩ :=
      @Tiled.weight_of_entry _ _ e.num_bits t e.symbol _ hl.tiled hl.complete.length hu he
    refine ⟨by rw [List.length_replicate]; exact e.symbol.toNat_lt_256, ?_⟩
    dsimp only
    rw [List.getD_eq_getElem?_getD, hi, Option.getD_some, hnb, hl.table_bits]

theorem getD_huff_lengths_lt (hl : Layout ws max_bits t) {s : Nat} (hs : s < 256) :
    (huff_lengths t).getD s 0 = if ws.getD s 0 = 0 then 0 else max_bits + 1 - ws.getD s 0 := by
  have h := getD_huff_lengths hl (UInt8.ofNat s)
  rwa [show (UInt8.ofNat s).toNat = s by rw [UInt8.toNat_ofNat']; omega] at h

theorem length_huff_lengths (t : HuffTable) : (huff_lengths t).length = 256 := by
  rw [huff_lengths]
  suffices h : ∀ (es : List HuffEntry) (l : List Nat),
      (es.foldl (fun lengths e => lengths.set e.symbol.toNat e.num_bits) l).length = l.length by
    rw [h, List.length_replicate]
  intro es
  induction es with
  | nil => intro l; rfl
  | cons e es ih => intro l; rw [List.foldl_cons, ih, List.length_set]

/-- The lengths of a decoding table are those of a complete code. -/
theorem huff_lengths_complete (hl : Layout ws max_bits t) : CompleteCode max_bits
    (huff_lengths t) := by
  have hc := hl.complete
  have hlen := length_huff_lengths t
  refine ⟨hlen, hc.log, fun l hl' => ?_, ?_⟩
  · obtain ⟨s, hs, rfl⟩ := List.mem_iff_getElem.mp hl'
    rw [← List.getD_eq_getElem _ 0, getD_huff_lengths_lt hl (by omega)]
    split_ifs <;> omega
  · have hlist : huff_lengths t = (List.range 256).map fun s => (huff_lengths t).getD s 0 := by
      rw [map_getD_range_length hlen]
    have hshare : ((huff_lengths t).map (code_share max_bits)).sum
        = (((List.range 256).map fun s => ws.getD s 0).map share).sum := by
      rw [hlist, List.map_map, List.map_map]
      refine congrArg _ (List.map_congr_left fun s hs => ?_)
      rw [Function.comp_apply, Function.comp_apply, getD_huff_lengths_lt hl (List.mem_range.mp hs),
        code_share, share]
      have hle := Complete.getD_le hc s
      by_cases hw : ws.getD s 0 = 0
      · rw [if_pos hw, if_pos rfl, if_pos hw]
      · rw [if_neg hw, if_neg (by omega), if_neg hw]
        congr 1
        omega
    rw [hshare, map_getD_range hc.length, List.map_append, List.sum_append, List.map_replicate,
      List.sum_replicate, share, if_pos rfl, smul_zero, Nat.add_zero]
    exact hc.total

end Lengths

/-! ## Scaled weights -/

section Scale

variable {k : Nat}

/-- A weight that is not zero, with `k` more bits. -/
def scale (k w : Nat) : Nat := if w = 0 then 0 else w + k

theorem getD_map_scale (ws : List Nat) (i : Nat) :
    (ws.map (scale k)).getD i 0 = scale k (ws.getD i 0) :=
  List.getD_map ws 0 (scale k)

theorem scale_injective (k : Nat) : Function.Injective (scale k) := by
  intro a b h
  rw [scale, scale] at h
  split_ifs at h <;> omega

theorem share_scale (k w : Nat) : share (scale k w) = 2 ^ k * share w := by
  rw [share, share, scale]
  by_cases hw : w = 0
  · rw [if_pos hw, if_pos rfl, if_pos hw, Nat.mul_zero]
  · rw [if_neg hw, if_neg (by omega), if_neg hw, ← pow_add]
    congr 1
    omega

theorem below_scale (ws : List Nat) {w : Nat} (hw : w ≠ 0) :
    below (ws.map (scale k)) (scale k w) = 2 ^ k * below ws w := by
  induction ws with
  | nil => rw [List.map_nil, below_nil, below_nil, Nat.mul_zero]
  | cons a ws ih =>
    rw [List.map_cons, below_cons, below_cons, ih, Nat.mul_add, share_scale]
    congr 1
    have hlt : scale k a < scale k w ↔ a < w := by
      rw [scale, scale, if_neg hw]
      split_ifs <;> omega
    by_cases h : a < w
    · rw [if_pos h, if_pos (hlt.mpr h)]
    · rw [if_neg h, if_neg fun h' => h (hlt.mp h'), Nat.mul_zero]

/-- The runs of scaled weights are the runs, scaled. -/
theorem start_scale (ws : List Nat) {i : Nat} (hw : ws.getD i 0 ≠ 0) :
    start (ws.map (scale k)) i = 2 ^ k * start ws i := by
  rw [start, start, getD_map_scale, below_scale ws hw, share_scale, ← List.map_take,
    List.count_map_of_injective _ _ (scale_injective k)]
  ring

end Scale

/-! ## The same codes -/

section Codes

variable {t t' : HuffTable} {ws ws' : List Nat} {max_bits longest : Nat} {s : UInt8}

/-- A symbol has one code of a length. -/
theorem HasCode.unique {code code' nb : Nat} (h : HasCode t s code nb) (h' : HasCode t s code' nb) :
    code = code' := by
  obtain ⟨hlt, hentry⟩ := h.window
  rw [← (h'.entry _ hlt).mp hentry, Nat.mul_div_cancel _ (by positivity)]

/-- The code of a symbol, from the start of its run. -/
theorem Layout.hasCode (hl : Layout ws max_bits t) (hw : ws.getD s.toNat 0 ≠ 0) :
    HasCode t s (start ws s.toNat / 2 ^ (ws.getD s.toNat 0 - 1))
      (max_bits + 1 - ws.getD s.toNat 0) := by
  have hcode := Tiled.hasCode hl.tiled hl.complete.length (getElem?_of_getD hw) hw
  rwa [UInt8.ofNat_toNat, hl.table_bits] at hcode

/-- Tables whose weights are scaled have the same codes. -/
theorem SameCodes.scale {ct : CodeTable} {k : Nat} (hs : SameCodes ct t')
    (hl' : Layout ws' longest t') (hl : Layout (ws'.map (scale k)) (longest + k) t)
    (hbuilt : ∃ weights, build_table weights = .ok t) :
    SameCodes ct t := by
  refine ⟨hbuilt, fun s h0 => ?_, fun s h0 u hu e he hes => ?_⟩
  · have hw : ws'.getD s.toNat 0 ≠ 0 := fun hw => h0 (by rw [hs.nbits_eq hl' s, if_pos hw])
    have hle := Complete.getD_le hl'.complete s.toNat
    have hnb := hs.nbits_eq hl' s
    rw [if_neg hw] at hnb
    have hcode' := hs.present s h0
    rw [hnb] at hcode' ⊢
    have hcode := @Layout.hasCode t _ _ s hl
      (by rw [getD_map_scale, Encode.scale, if_neg hw]; omega)
    rw [getD_map_scale, Encode.scale, if_neg hw, start_scale ws' hw,
      show ws'.getD s.toNat 0 + k - 1 = k + (ws'.getD s.toNat 0 - 1) by omega, pow_add,
      Nat.mul_div_mul_left _ _ (by positivity),
      show longest + k + 1 - (ws'.getD s.toNat 0 + k) = longest + 1 - ws'.getD s.toNat 0 by omega]
      at hcode
    rw [hcode'.unique (Layout.hasCode hl' hw)]
    exact hcode
  · have hsym := (hasSymbol_iff hl s).mp ⟨e, mem_live_entries.mpr ⟨u, hu, he⟩, hes⟩
    have hnb := hs.nbits_eq hl' s
    rw [h0] at hnb
    rw [getD_map_scale, Encode.scale] at hsym
    have hw : ws'.getD s.toNat 0 ≠ 0 := fun hw => hsym (by rw [if_pos hw])
    have hle := Complete.getD_le hl'.complete s.toNat
    rw [if_neg hw] at hnb
    omega

/-- The last weight is that of the last symbol. -/
theorem last_symbol_huff_lengths {weights : List Nat} {last : Nat} (hlast : 1 ≤ last)
    (hl : Layout (weights ++ [last]) max_bits t) : last_symbol (huff_lengths t) =
      weights.length := by
  have hwlen : weights.length < 256 := by
    have h := hl.complete.length
    rw [List.length_append, List.length_singleton] at h
    omega
  have hend : (weights ++ [last]).getD weights.length 0 = last := by
    rw [List.getD_eq_getElem?_getD, List.getElem?_append_right le_rfl, Nat.sub_self]
    rfl
  have hle := hl.complete.getD_le weights.length
  rw [hend] at hle
  refine le_antisymm ?_ (le_last_symbol hwlen ?_)
  · by_contra hc
    have hpos := (huff_lengths_complete hl).last_pos
    rw [getD_huff_lengths_lt hl (last_symbol_lt _), List.getD_eq_default _ _ (by
      rw [List.length_append, List.length_singleton]; omega), if_pos rfl] at hpos
    exact absurd hpos (Nat.lt_irrefl 0)
  · rw [getD_huff_lengths_lt hl hwlen, hend, if_neg (by omega)]
    omega

/-- The weights that are rebuilt from the lengths of a table, scaled back, are the table's weights.
-/
theorem scale_code_weights {weights : List Nat} {last : Nat} (hlast : 1 ≤ last)
    (hl : Layout (weights ++ [last]) max_bits t) :
    weights ++ [last] = (code_weights (huff_lengths t) ++ [(huff_lengths t).foldl max 0 + 1
      - (huff_lengths t).getD (last_symbol (huff_lengths t)) 0]).map
        (scale (max_bits - (huff_lengths t).foldl max 0)) := by
  have hcode := huff_lengths_complete hl
  have hlen := length_huff_lengths t
  have hwlen := hl.complete.length
  rw [List.length_append, List.length_singleton] at hwlen
  have hcwlen : (code_weights (huff_lengths t)).length = weights.length := by
    rw [code_weights, List.length_map, List.length_take, last_symbol_huff_lengths hlast hl]
    omega
  refine List.ext_getElem (by
    rw [List.length_map, List.length_append, List.length_append, hcwlen]
    rfl) fun s h1 h2 => ?_
  have hs : s < 256 := by
    rw [List.length_append, List.length_singleton] at h1
    omega
  have hlong : (huff_lengths t).getD s 0 ≤ (huff_lengths t).foldl max 0 := by
    rw [List.getD_eq_getElem _ _ (by omega)]
    exact le_foldl_max (List.getElem_mem _)
  have hmax : (huff_lengths t).foldl max 0 ≤ max_bits :=
    hcode.le _ (foldl_max_mem (List.ne_nil_of_length_pos (by omega)))
  have hrebuilt := hcode.getD_weights hs
  rw [List.getElem_map, ← List.getD_eq_getElem _ 0 h1, ← List.getD_eq_getElem _ 0, hrebuilt]
  -- at one symbol: its weight, its length, and the greatest length
  have hlength := getD_huff_lengths_lt hl hs
  have hle := hl.complete.getD_le s
  generalize (weights ++ [last]).getD s 0 = w at *
  generalize (huff_lengths t).getD s 0 = l at *
  generalize (huff_lengths t).foldl max 0 = longest at *
  rw [scale]
  split_ifs at * <;> omega

end Codes

/-- The codes that are rebuilt from a decoding table are its codes, for its symbols and no others: a
stream of them decodes to its symbols. A byte string holds less than `2 ^ 63` bytes. -/
theorem code_table_from_huff_inverts (weights : List Nat) (t : HuffTable)
    (h : build_table weights = .ok t) :
    ∃ ct, code_table_from_huff t = .ok ct ∧ SameCodes ct t ∧
      (∀ s : UInt8, ct.nbits.getD s.toNat 0 ≠ 0 ↔ HasSymbol t s) ∧
      ∀ lits : Bytes, (∀ b ∈ lits, HasSymbol t b) → lits.length < 2 ^ 63 →
        (encode_stream ct lits).length < 2 ^ 63 →
        decode_1stream t (encode_stream ct lits) lits.length = .ok lits := by
  obtain ⟨last, max_bits, hlast, hl⟩ := build_table_layout h
  have hcode := huff_lengths_complete hl
  obtain ⟨ct, t', hbuild, hsame', hl', hnbits⟩ := hcode.build
  have hmax : (huff_lengths t).foldl max 0 ≤ max_bits :=
    hcode.le _ (foldl_max_mem (List.ne_nil_of_length_pos (by rw [length_huff_lengths]; decide)))
  have hsame : SameCodes ct t := by
    refine hsame'.scale hl' (k := max_bits - (huff_lengths t).foldl max 0) ?_ ⟨weights, h⟩
    rw [← scale_code_weights hlast hl, Nat.add_sub_cancel' hmax]
    exact hl
  have hsymbols : ∀ s : UInt8, ct.nbits.getD s.toNat 0 ≠ 0 ↔ HasSymbol t s := fun s => by
    have hle := Complete.getD_le hl.complete s.toNat
    rw [hasSymbol_iff hl, hsame.nbits_eq hl]
    split_ifs <;> omega
  exact ⟨ct, hbuild, hsame, hsymbols, fun lits hlits hlen hstream =>
    (decode_encode_stream_of_len hsame hl (fun b hb => (hsymbols b).mpr (hlits b hb)) hlen
      hstream).2⟩

/-- `code_table_from_huff_inverts` for a table of two bits whose two codes have one bit each. -/
theorem code_table_from_huff_inverts_wide :
    ∃ t ct, build_table [2] = .ok t ∧ code_table_from_huff t = .ok ct ∧ SameCodes ct t := by
  have hc : Completes [2] 2 2 := ⟨by decide, by decide, by decide, by decide, by decide, by decide⟩
  obtain ⟨t, ht, -⟩ := build_table_ok hc
  obtain ⟨ct, hct, hsame, -⟩ := code_table_from_huff_inverts [2] t ht
  exact ⟨t, ct, ht, hct, hsame⟩

end ZstdPure.Encode
