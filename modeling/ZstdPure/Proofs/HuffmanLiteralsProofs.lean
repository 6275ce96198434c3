import ZstdPure.Proofs.RoundTripProofs

/-!
# Proofs: frames of Huffman-coded literals

Each block is the shorter of its stored and its Huffman-coded form, and either form is decoded to
it. -/

namespace ZstdPure.Encode

open Outcome Huff Sequences BlockState

/-! ## One section -/

theorem decode_write_literals_section {lits bytes : Bytes} (hlen : lits.length < 2 ^ 20)
    (h : write_literals_section lits = .ok bytes) (cache : Option HuffTable) (rest : Bytes) :
    ∃ t, Literals.decode (bytes ++ rest) cache = .ok ⟨lits, bytes.length, some t⟩ := by
  obtain ⟨⟨section_, ct⟩, hsection, h⟩ := bind_eq_ok.mp h
  obtain rfl := Except.ok.inj h
  rw [build_compressed_section] at hsection
  cases hfresh : build_fresh_table (histogram lits) with
  | none =>
    rw [hfresh] at hsection
    exact absurd hsection (fail_ne_ok _ _)
  | some fresh =>
    rw [hfresh] at hsection
    obtain ⟨bytes, hbytes, hok⟩ := bind_eq_ok.mp hsection
    obtain ⟨rfl, rfl⟩ := Prod.mk.inj (Except.ok.inj hok)
    obtain ⟨t, -, hdecode⟩ := decode_assemble_compressed_section cache hlen hfresh hbytes rest
    exact ⟨t, hdecode⟩

/-! ## The check for two symbols -/

section Distinct

variable {f : UInt8} {seen : List Bool} {chunk : Bytes}

/-- Only the first byte is ever marked. -/
theorem two_distinct_from_iff (hseen : ∀ b : UInt8, seen.getD b.toNat false = (b == f)) :
    two_distinct_from (some f) seen chunk = true ↔ ∃ b ∈ chunk, b ≠ f := by
  induction chunk with
  | nil =>
    rw [two_distinct_from]
    exact iff_of_false Bool.false_ne_true fun ⟨_, hb, _⟩ => List.not_mem_nil hb
  | cons b chunk ih =>
    rw [two_distinct_from, hseen]
    by_cases hb : b = f
    · subst hb
      rw [if_neg (by simp), ih]
      constructor
      · rintro ⟨c, hc, hne⟩
        exact ⟨c, List.mem_cons_of_mem _ hc, hne⟩
      · rintro ⟨c, hc, hne⟩
        rcases List.mem_cons.mp hc with rfl | hc
        · exact absurd rfl hne
        · exact ⟨c, hc, hne⟩
    · rw [if_pos (by simp [hb])]
      exact iff_of_true rfl ⟨b, List.mem_cons_self, hb⟩

theorem at_least_two_distinct_cons :
    at_least_two_distinct (f :: chunk) = true ↔ ∃ b ∈ chunk, b ≠ f := by
  rw [at_least_two_distinct, two_distinct_from]
  refine two_distinct_from_iff fun b => ?_
  have hb := b.toNat_lt_256
  rw [List.getD_eq_getElem?_getD, List.getElem?_set, List.length_replicate, if_pos f.toNat_lt_256]
  by_cases hbf : b = f
  · subst hbf
    rw [if_pos rfl, beq_self_eq_true]
    rfl
  · rw [if_neg fun h => hbf (UInt8.toNat_inj.mp h.symm), List.getElem?_replicate_of_lt hb,
      beq_eq_false_iff_ne.mpr hbf]
    rfl

/-- A run of one byte has a single symbol. -/
theorem histogram_run (h : ∀ b ∈ chunk, b = f) : (histogram chunk).countP (0 < ·) ≤ 1 := by
  have hlen := (histogram_spec chunk).1
  have hrest : ∀ i, i ≠ f.toNat → (histogram chunk).getD i 0 = 0 := by
    intro i hi
    rw [getD_histogram, List.count_eq_zero]
    intro hmem
    obtain ⟨b, hb, rfl⟩ := List.mem_map.mp hmem
    exact hi (congrArg UInt8.toNat (h b hb))
  have hmap : histogram chunk = (List.range 256).map fun i => (histogram chunk).getD i 0 := by
    refine List.ext_getElem (by rw [List.length_map, List.length_range, hlen]) fun i h₁ h₂ => ?_
    rw [List.getElem_map, List.getElem_range, List.getD_eq_getElem _ _ h₁]
  rw [hmap, List.countP_map]
  have hle : (List.range 256).countP ((fun n => decide (0 < n)) ∘ fun i => (histogram chunk).getD i
    0) ≤
      (List.range 256).countP (· == f.toNat) := by
    refine List.countP_mono_left fun i _ hi => ?_
    by_contra hne
    rw [beq_iff_eq] at hne
    rw [Function.comp_apply, hrest i hne] at hi
    exact absurd hi (by decide)
  exact hle.trans (List.nodup_iff_count_le_one.mp List.nodup_range f.toNat)

/-- Without the check, the Huffman writer fails all the same. -/
theorem at_least_two_distinct_of_section {bytes : Bytes}
    (h : write_literals_section chunk = .ok bytes) :
    at_least_two_distinct chunk = true := by
  obtain ⟨⟨section_, ct⟩, hsection, -⟩ := bind_eq_ok.mp h
  rw [build_compressed_section] at hsection
  have hmany : ¬ (histogram chunk).countP (0 < ·) ≤ 1 := by
    intro hfew
    rw [build_fresh_table, if_pos (by omega)] at hsection
    exact absurd hsection (fail_ne_ok _ _)
  cases chunk with
  | nil => exact absurd (@histogram_run 0 [] fun b hb => absurd hb List.not_mem_nil) hmany
  | cons f chunk =>
    rw [at_least_two_distinct_cons]
    by_contra hall
    refine hmany (@histogram_run f _ fun b hb => ?_)
    by_contra hne
    rcases List.mem_cons.mp hb with rfl | hb
    · exact hne rfl
    · exact hall ⟨b, hb, hne⟩

end Distinct

/-! ## One block -/

section Block

variable {data pre before rest chunk huff : Bytes} {window start stop limit : Nat} {s : BlockState}
  {last : Bool}

/-- The bytes of a block, as a parse without sequences. -/
theorem valid_parse_literals (hstop : start ≤ stop) (rep : Reps) :
    ValidParse data start stop rep ⟨⟨[], range_of data start stop⟩, rep⟩ :=
  ⟨start, hstop, .nil _ _, rfl⟩

/-- The decoder follows a block of Huffman-coded literals. -/
theorem write_huffman_literals_block_run (h : Ready data pre start stop limit s)
    (hwrite : write_huffman_literals_block last (range_of data start stop) = .ok huff)
    (hlen : huff.length ≤ limit + 3) (before rest : Bytes)
    (hsrc : (before ++ (huff ++ rest)).length < 2 ^ 63) :
    ∃ s', s.decode_block_at (before ++ (huff ++ rest)) before.length =
        .ok (s', before.length + huff.length, last) ∧ Decoded window data pre stop s s' := by
  obtain ⟨bytes, hbytes, hok⟩ := bind_eq_ok.mp hwrite
  obtain rfl := Except.ok.inj hok
  have hvalid := @valid_parse_literals data start stop h.range s.counted.rep
  have hsmall := h.small
  have hmax := h.limit_max
  have hbsm : BLOCK_SIZE_MAX = 131072 := rfl
  have hlits : (range_of data start stop).length < 2 ^ 20 := by
    rw [length_range _ h.inside]
    omega
  obtain ⟨t, hdecode⟩ := decode_write_literals_section hlits hbytes s.counted.huff [0]
  obtain ⟨s', hs', hdec, -⟩ := decode_parse_body h.counted hvalid
    (fun q hq => absurd hq List.not_mem_nil)
    (fun q hq => absurd hq List.not_mem_nil) (RelatedTables.default _) hdecode
  have hs' : s.counted.decode_compressed (bytes ++ [0]) = .ok s' := hs'
  have hheader := length_write_block_header last .Compressed (bytes ++ [0]).length
  rw [List.length_append, hheader] at hlen
  exact ⟨s', write_compressed_run h hs' last (by omega) before rest hsrc, hdec.out,
    ⟨hdec.same.1, hdec.same.2, hdec.same.3⟩, fun hs => hdec.near ⟨hs.rep, hs.matches_⟩⟩

/-- The choice of a block, without the check for two symbols. -/
theorem huffman_or_store_block_eq (last : Bool) (chunk : Bytes) : huffman_or_store_block last
    chunk =
    match write_huffman_literals_block last chunk with
    | .ok huff => if huff.length < (write_store_block last chunk).length then huff
      else write_store_block last chunk
    | .error _ => write_store_block last chunk := by
  rw [huffman_or_store_block]
  split_ifs with htwo
  · rfl
  · cases hwrite : write_huffman_literals_block last chunk with
    | error e => rfl
    | ok huff =>
      obtain ⟨bytes, hbytes, -⟩ := bind_eq_ok.mp hwrite
      exact absurd (at_least_two_distinct_of_section hbytes) htwo

/-- The block is no longer than either form. -/
theorem length_huffman_or_store_block (last : Bool) (chunk : Bytes) :
    (huffman_or_store_block last chunk).length ≤ (write_store_block last chunk).length ∧
      ∀ huff, write_huffman_literals_block last chunk = .ok huff →
        (huffman_or_store_block last chunk).length ≤ huff.length := by
  rw [huffman_or_store_block_eq]
  cases write_huffman_literals_block last chunk with
  | error e => exact ⟨le_refl _, fun huff h => absurd h (by simp)⟩
  | ok huff =>
    dsimp only
    split_ifs with hlt
    · refine ⟨Nat.le_of_lt hlt, fun huff' h => ?_⟩
      obtain rfl := Except.ok.inj h
      exact le_refl _
    · refine ⟨le_refl _, fun huff' h => ?_⟩
      obtain rfl := Except.ok.inj h
      exact Nat.le_of_not_lt hlt

theorem huffman_or_store_block_followed (window : Nat) (data : Bytes) :
    Followed window data huffman_or_store_block := by
  refine ⟨?_, fun last chunk => (length_huffman_or_store_block last chunk).1.trans
    (length_write_store_block_le last chunk)⟩
  intro start stop limit s hready last before rest hsrc
  have hstore := (write_store_block_followed window data).run hready last before rest
  have hsmall := hready.small
  have hlen := length_write_store_block_le last (range_of data start stop)
  have hchunk := length_range (p := start) data hready.inside
  rw [huffman_or_store_block_eq] at hsrc ⊢
  cases hwrite : write_huffman_literals_block last (range_of data start stop) with
  | error e =>
    rw [hwrite] at hsrc
    exact hstore hsrc
  | ok huff =>
    rw [hwrite] at hsrc
    dsimp only at hsrc ⊢
    split_ifs at hsrc ⊢ with hlt
    · exact write_huffman_literals_block_run hready hwrite (by omega) before rest hsrc
    · exact hstore hsrc

end Block

/-! ## The frame -/

section Frame

variable {data rest : Bytes} {max_output : Nat}

theorem decode_compress_huffman_literals (checksum m : Bool)
    (hsum : 4 * data.length + rest.length < 2 ^ 62) (hmax : data.length ≤ max_output)
    {max_window : Option Nat} (hceil : Admitted HTTP_MAX_WINDOW_SIZE max_window) :
    ∃ matches_, decode_frame (compress_huffman_literals data checksum m ++ rest) m max_output none
        max_window = .ok ⟨data, (compress_huffman_literals data checksum m).length, matches_⟩ ∧
      Conforms none (compress_huffman_literals data checksum m ++ rest) m matches_ := by
  refine (huffman_or_store_block_followed _ data).decode checksum m hsum hmax hceil ?_
  rw [compress_huffman_literals]

theorem length_write_chunks_le {write plain : Bool → Bytes → Bytes}
    (h : ∀ last chunk, (write last chunk).length ≤ (plain last chunk).length)
      (chunks : List Bytes) :
    (write_chunks write chunks).length ≤ (write_chunks plain chunks).length := by
  induction chunks with
  | nil => exact le_refl _
  | cons c chunks ih =>
    cases chunks with
    | nil => exact h true c
    | cons c' chunks =>
      show (write false c ++ write_chunks write (c' :: chunks)).length ≤
        (plain false c ++ write_chunks plain (c' :: chunks)).length
      rw [List.length_append, List.length_append]
      exact Nat.add_le_add (h false c) ih

/-- A frame of Huffman-coded literals is never longer than a stored one. -/
theorem length_compress_huffman_literals_le (data : Bytes) (checksum m : Bool) :
    (compress_huffman_literals data checksum m).length ≤
      (compress_store data checksum m).length := by
  have hblocks := length_write_chunks_le
    (fun last chunk => (length_huffman_or_store_block last chunk).1)
    (data.chunks BLOCK_SIZE_MAX)
  unfold compress_huffman_literals compress_store store_blocks
  split_ifs
  · exact le_refl _
  · simp only [List.length_append]
    omega

/-- What `compress_huffman_literals` writes is decoded to the data, and to its own end, and is never
longer than the stored frame. -/
theorem compress_huffman_literals_round_trip (checksum m : Bool)
    (hsum : 4 * data.length + rest.length < 2 ^ 62) (hmax : data.length ≤ max_output) :
    (∃ f, decode_one (compress_huffman_literals data checksum m ++ rest) m max_output = .ok f ∧
      f.data = data ∧ f.consumed = (compress_huffman_literals data checksum m).length) ∧
    (compress_huffman_literals data checksum m).length ≤
      (compress_store data checksum m).length := by
  obtain ⟨matches_, hdecode, -⟩ := decode_compress_huffman_literals checksum m hsum hmax
    (.unlimited _)
  exact ⟨⟨_, hdecode, rfl, rfl⟩, length_compress_huffman_literals_le data checksum m⟩

/-- A long run of one byte, and another one. -/
theorem compress_huffman_literals_round_trip_run :
    let data : Bytes := List.replicate 200000 7 ++ [8]
    (∃ f, decode_one (compress_huffman_literals data true true ++ [1]) true 200001 = .ok f ∧
      f.data = data ∧ f.consumed = (compress_huffman_literals data true true).length) ∧
    (compress_huffman_literals data true true).length ≤ (compress_store data true true).length := by
  intro data
  have hlen : data.length = 200001 := by
    rw [List.length_append, List.length_replicate]
    rfl
  exact compress_huffman_literals_round_trip true true (by rw [hlen]; norm_num) (le_of_eq hlen)

end Frame

end ZstdPure.Encode
