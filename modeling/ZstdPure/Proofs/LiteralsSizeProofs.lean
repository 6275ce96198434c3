import ZstdPure.Proofs.LiteralsSectionProofs

/-!
# The sizes of literals sections

The sizes are computed apart from the writers, and they are exact: a size is found for just the
sections that can be built. So the section of `write_literals_auto` is the smallest there is.
-/

namespace ZstdPure.Encode

open Outcome Huff Tally

/-! ## Results with a size -/

section Sized

variable {ε α β : Type}

theorem toOption_bind (x : Outcome ε α) (f : α → Outcome ε β) :
    (x >>= f).toOption = x.toOption.bind fun a => (f a).toOption := by
  cases x <;> rfl

theorem toOption_map_eq_some {x : Outcome ε α} {f : α → β} {b : β} :
    x.toOption.map f = some b ↔ ∃ a, x = .ok a ∧ f a = b := by
  cases x with
  | error e => simp [Except.toOption]
  | ok a => simp [Except.toOption]

end Sized

section

variable {ct : CodeTable} {lits : Bytes}

/-! ## Streams -/

theorem code_bits_len_eq (ct : CodeTable) (lits : Bytes) :
    (code_bits ct lits).len = (lits.map fun b => ct.nbits.getD b.toNat 0).sum := by
  induction lits with
  | nil => rfl
  | cons b lits ih =>
    rw [code_bits, BitStack.push_len, ih, List.map_cons, List.sum_cons]
    omega

theorem length_encode_stream (hnb : ∀ b : UInt8, ct.nbits.getD b.toNat 0 < 32) (lits : Bytes) :
    (encode_stream ct lits).length = stream_byte_len ct lits := by
  rw [(encode_stream_bits fun b _ => hnb b).1, stream_byte_len, code_bits_len_eq]
  omega

/-- The jump table fails to be written just where its sizes are not computed. -/
theorem encode_4stream_size (hnb : ∀ b : UInt8, ct.nbits.getD b.toNat 0 < 32)
    (hfour : four_streams lits.length = true) :
    (encode_4stream ct lits).toOption.map (fun streams => (true, streams.length))
      = streams_byte_len ct lits := by
  have hseg : ¬ lits.length < (lits.length + 3) / 4 * 3 := by
    have h := of_decide_eq_true hfour
    omega
  have hlen := length_encode_stream hnb
  rw [encode_4stream, streams_byte_len]
  dsimp only
  rw [if_neg hseg, if_pos hfour]
  simp only [hlen]
  split_ifs
  · rfl
  · show some _ = some _
    congr 2
    simp only [List.length_append, length_leBytes, hlen]

theorem encode_lit_streams_size (hnb : ∀ b : UInt8, ct.nbits.getD b.toNat 0 < 32) (lits : Bytes) :
    (encode_lit_streams ct lits).toOption.map (fun p => (p.1, p.2.length))
      = streams_byte_len ct lits := by
  rw [encode_lit_streams]
  by_cases hfour : four_streams lits.length = true
  · rw [if_pos hfour, ← encode_4stream_size hnb hfour, toOption_bind, hfour]
    cases encode_4stream ct lits <;> rfl
  · have hfalse : four_streams lits.length = false := by simpa using hfour
    rw [if_neg hfour, pure_eq_ok, bind_ok, streams_byte_len]
    dsimp only
    rw [if_neg hfour, ← length_encode_stream hnb, hfalse]
    rfl

/-! ## Sections -/

theorem write_compressed_lit_header_size (bt : Nat) (four : Bool) (regen comp : Nat) :
    (write_compressed_lit_header bt four regen comp).toOption.map List.length
      = compressed_header_len four regen comp := by
  rw [write_compressed_lit_header, compressed_header_len]
  have hlen := fun k v => length_leBytes k v
  unfold size_format
  cases four with
  | false =>
    simp only [Bool.not_false, if_true]
    split_ifs
    · exact congrArg some (hlen 3 _)
    · rfl
  | true =>
    simp only [Bool.not_true, Bool.false_eq_true, if_false]
    split_ifs
    · exact congrArg some (hlen 3 _)
    · exact congrArg some (hlen 4 _)
    · exact congrArg some (hlen 5 _)
    · rfl

/-- A header and what it is the header of. -/
theorem with_header_size (bt : Nat) (four : Bool) (regen : Nat) (payload : Bytes) :
    (write_compressed_lit_header bt four regen payload.length >>= fun header =>
        pure (header ++ payload)).toOption.map List.length
      = (compressed_header_len four regen payload.length).bind fun n =>
        some (n + payload.length) := by
  rw [toOption_bind, ← write_compressed_lit_header_size bt]
  cases write_compressed_lit_header bt four regen payload.length with
  | error e => rfl
  | ok header => exact congrArg some List.length_append

theorem assemble_compressed_section_size (hnb : ∀ b : UInt8, ct.nbits.getD b.toNat 0 < 32)
    (weight_header lits : Bytes) :
    (assemble_compressed_section ct weight_header lits).toOption.map List.length
      = compressed_size lits (ct, weight_header) := by
  rw [assemble_compressed_section, compressed_size, ← encode_lit_streams_size hnb, toOption_bind]
  cases encode_lit_streams ct lits with
  | error e => rfl
  | ok p =>
    refine (with_header_size 2 p.1 lits.length (weight_header ++ p.2)).trans ?_
    rw [List.length_append]
    rfl

theorem build_treeless_section_size (hnb : ∀ b : UInt8, ct.nbits.getD b.toNat 0 < 32)
    {freq : List Nat} (hcan : ct.can_encode_hist freq = true) (lits : Bytes) :
    (build_treeless_section lits ct).toOption.map List.length = treeless_size lits freq ct := by
  rw [build_treeless_section, treeless_size, hcan, ← encode_lit_streams_size hnb, toOption_bind]
  cases encode_lit_streams ct lits with
  | error e => rfl
  | ok p => exact with_header_size 3 p.1 lits.length p.2

theorem length_write_raw_literals (lits : Bytes) :
    (write_raw_literals lits).length = lits.length + raw_header_len lits.length := by
  rw [write_raw_literals, raw_header_len, List.length_append, Nat.add_comm]
  split_ifs <;> rfl

/-! ## Tables -/

/-- The codes of a table fit the bit writer. -/
theorem CodeTable.Built.nbits_lt (h : ct.Built) (b : UInt8) : ct.nbits.getD b.toNat 0 < 32 := by
  obtain ⟨lengths, hlen, h⟩ := h
  obtain ⟨t, ht, hs, -⟩ := build_code_table_spec hlen h
  obtain ⟨last, max_bits, -, hl⟩ := build_table_layout ht
  exact lt_of_le_of_lt (hs.nbits_le hl b) (by decide)

theorem build_fresh_table_built {freq : List Nat} {weight_header : Bytes}
    (h : build_fresh_table freq = some (ct, weight_header)) : ct.Built := by
  rw [build_fresh_table] at h
  split_ifs at h
  split at h
  · rename_i table htable
    split at h
    · obtain ⟨rfl, -⟩ := Prod.mk.inj (Option.some.inj h)
      exact ⟨_, length_code_lengths freq, htable⟩
    · exact absurd h (by simp)
  · exact absurd h (by simp)

/-- The check of a table against the histogram is the check against the literals. -/
theorem can_encode_hist_iff : ct.can_encode_hist (histogram lits) = true ↔ CanEncode ct lits := by
  refine ⟨can_encode_of_hist, fun h => List.all_eq_true.mpr fun b hb => ?_⟩
  rw [Bool.or_eq_true, beq_iff_eq, decide_eq_true_iff]
  by_cases hmem : UInt8.ofNat b ∈ lits
  · have hcode := h _ hmem
    rw [UInt8.toNat_ofNat', Nat.mod_eq_of_lt (List.mem_range.mp hb)] at hcode
    exact Or.inr (Nat.pos_of_ne_zero hcode)
  · refine Or.inl ?_
    rw [getD_histogram]
    refine List.count_eq_zero.mpr fun hc => hmem ?_
    obtain ⟨c, hc, rfl⟩ := List.mem_map.mp hc
    rwa [UInt8.ofNat_toNat]

/-- A size is found for just the compressed sections that can be built. -/
theorem compressed_size_iff {s : Nat} :
    (build_fresh_table (histogram lits)).bind (compressed_size lits) = some s ↔
      ∃ bytes table, build_compressed_section lits = .ok (bytes, table) ∧ bytes.length = s := by
  rw [build_compressed_section]
  cases hfresh : build_fresh_table (histogram lits) with
  | none => simp [fail]
  | some fresh =>
    have hsize := assemble_compressed_section_size (build_fresh_table_built hfresh).nbits_lt fresh.2
      lits
    rw [Option.bind_some, ← hsize, toOption_map_eq_some]
    constructor
    · rintro ⟨bytes, hbytes, rfl⟩
      refine ⟨bytes, fresh.1, ?_, rfl⟩
      show (assemble_compressed_section fresh.1 fresh.2 lits >>= _) = _
      rw [hbytes]
      rfl
    · rintro ⟨bytes, table, h, rfl⟩
      obtain ⟨bytes', hbytes, h⟩ := bind_eq_ok.mp h
      obtain ⟨rfl, -⟩ := Prod.mk.inj (Except.ok.inj h)
      exact ⟨_, hbytes, rfl⟩

/-- A size is found for just the treeless sections that the table can encode and that can be built.
-/
theorem treeless_size_iff (hbuilt : ct.Built) {s : Nat} :
    treeless_size lits (histogram lits) ct = some s ↔
      CanEncode ct lits ∧ ∃ bytes, build_treeless_section lits ct = .ok bytes ∧
      bytes.length = s := by
  rw [← can_encode_hist_iff]
  by_cases hcan : ct.can_encode_hist (histogram lits) = true
  · rw [← build_treeless_section_size hbuilt.nbits_lt hcan, toOption_map_eq_some]
    exact ⟨fun h => ⟨hcan, h⟩, And.right⟩
  · rw [treeless_size, if_pos (by simpa using hcan)]
    exact ⟨fun h => absurd h (by simp), fun h => absurd h.1 hcan⟩

/-! ## The choice -/

/-- The sections there are for some literals after a previous table, with the table that is current
after each. -/
inductive IsSection (lits : Bytes) (prev : Option CodeTable) : Bytes × Option CodeTable → Prop
  | raw : IsSection lits prev (write_raw_literals lits, prev)
  | compressed {bytes : Bytes} {table : CodeTable}
      (build : build_compressed_section lits = .ok (bytes, table)) : IsSection lits prev (bytes,
        some table)
  | treeless {ct : CodeTable} {bytes : Bytes} (mem : ct ∈ prev) (can : CanEncode ct lits)
      (build : build_treeless_section lits ct = .ok bytes) : IsSection lits prev (bytes, prev)

end

/-- A candidate is kept when its size is smaller. -/
theorem filter_smaller {α : Type} (c : Option α) (size : α → Option Nat) (best : Nat) :
    (c.filter fun a => (size a).any (· < best)) = none ∧ (∀ s, c.bind size = some s → best ≤ s) ∨
      ∃ a s, c = some a ∧ size a = some s ∧ s < best ∧
        (c.filter fun a => (size a).any (· < best)) = some a := by
  cases c with
  | none => exact Or.inl ⟨rfl, fun s hs => absurd hs (by simp)⟩
  | some a =>
    cases hs : size a with
    | none => exact Or.inl ⟨by simp [Option.filter, hs], fun s h => absurd h (by simp [hs])⟩
    | some s =>
      by_cases hlt : s < best
      · exact Or.inr ⟨a, s, rfl, hs, hlt, by simp [Option.filter, hs, hlt]⟩
      · refine Or.inl ⟨by simp [Option.filter, hs, hlt], fun s' h => ?_⟩
        rw [Option.bind_some, hs] at h
        obtain rfl := Option.some.inj h
        exact Nat.le_of_not_lt hlt

/-- The smaller one of the raw and the compressed section. -/
def raw_or_compressed (lits : Bytes) (prev : Option CodeTable) : Bytes × Option CodeTable :=
  match (build_fresh_table (histogram lits)).filter fun f =>
      (compressed_size lits f).any (· < (write_raw_literals lits).length) with
  | some (table, weight_header) =>
    match assemble_compressed_section table weight_header lits with
    | .ok bytes => (bytes, some table)
    | .error _ => (write_raw_literals lits, prev)
  | none => (write_raw_literals lits, prev)

/-- Its size is the one that the treeless section is compared with. -/
theorem raw_or_compressed_least (lits : Bytes) (prev : Option CodeTable) :
    IsSection lits prev (raw_or_compressed lits prev) ∧
      (raw_or_compressed lits prev).1.length
        = (((build_fresh_table (histogram lits)).filter fun f =>
          (compressed_size lits f).any (· < (write_raw_literals lits).length)).bind
            (compressed_size lits)).getD (write_raw_literals lits).length ∧
      (raw_or_compressed lits prev).1.length ≤ (write_raw_literals lits).length ∧
      ∀ s, (build_fresh_table (histogram lits)).bind (compressed_size lits) = some s →
        (raw_or_compressed lits prev).1.length ≤ s := by
  rw [raw_or_compressed]
  rcases filter_smaller (build_fresh_table (histogram lits)) (compressed_size lits)
    (write_raw_literals lits).length with ⟨hnone, hge⟩ | ⟨fresh, c, hfresh, hc, hlt, hsome⟩
  · rw [hnone]
    exact ⟨.raw, rfl, le_rfl, hge⟩
  · have hcomp : (build_fresh_table (histogram lits)).bind (compressed_size lits) = some c := by
      rw [hfresh, Option.bind_some, hc]
    obtain ⟨bytes, table, hbuild, rfl⟩ := compressed_size_iff.mp hcomp
    have hassemble : assemble_compressed_section fresh.1 fresh.2 lits = .ok bytes ∧
      fresh.1 = table := by
      rw [build_compressed_section, hfresh] at hbuild
      obtain ⟨bytes', hbytes, h⟩ := bind_eq_ok.mp hbuild
      obtain ⟨rfl, htable⟩ := Prod.mk.inj (Except.ok.inj h)
      exact ⟨hbytes, htable⟩
    rw [hsome, Option.bind_some, hc]
    dsimp only
    rw [hassemble.1, hassemble.2]
    refine ⟨.compressed hbuild, rfl, hlt.le, fun s hs => ?_⟩
    rw [hcomp] at hs
    exact (Option.some.inj hs).le

/-- The treeless section is written when it is smaller still. -/
theorem write_literals_auto_eq (lits : Bytes) (prev : Option CodeTable) :
    write_literals_auto lits prev
      = match prev.filter fun t => (treeless_size lits (histogram lits) t).any
          (· < (raw_or_compressed lits prev).1.length) with
        | some t =>
          match build_treeless_section lits t with
          | .ok bytes => (bytes, prev)
          | .error _ => (write_raw_literals lits, prev)
        | none => raw_or_compressed lits prev := by
  rw [(raw_or_compressed_least lits prev).2.1, length_write_raw_literals, write_literals_auto,
    raw_or_compressed, length_write_raw_literals]
  generalize (build_fresh_table (histogram lits)).filter _ = compressed
  generalize prev.filter _ = treeless
  cases treeless <;> cases compressed <;> rfl

/-- What is written is the section of a candidate with the least size. -/
theorem write_literals_auto_least (lits : Bytes) (prev : Option CodeTable)
    (hprev : ∀ ct ∈ prev, ct.Built) :
    IsSection lits prev (write_literals_auto lits prev) ∧
      (write_literals_auto lits prev).1.length ≤ (write_raw_literals lits).length ∧
      (∀ s, (build_fresh_table (histogram lits)).bind (compressed_size lits) = some s →
        (write_literals_auto lits prev).1.length ≤ s) ∧
      ∀ s, prev.bind (treeless_size lits (histogram lits)) = some s →
        (write_literals_auto lits prev).1.length ≤ s := by
  obtain ⟨hsection, -, hraw, hcompressed⟩ := raw_or_compressed_least lits prev
  rw [write_literals_auto_eq]
  rcases filter_smaller prev (treeless_size lits (histogram lits))
    (raw_or_compressed lits prev).1.length
    with ⟨hnone, hge⟩ | ⟨ct, s, rfl, hs, hlt, hsome⟩
  · rw [hnone]
    exact ⟨hsection, hraw, hcompressed, hge⟩
  · obtain ⟨hcan, bytes, hbytes, rfl⟩ := (treeless_size_iff (hprev ct rfl)).mp hs
    rw [hsome]
    dsimp only
    rw [hbytes]
    refine ⟨.treeless rfl hcan hbytes, hlt.le.trans hraw,
      fun s hs' => hlt.le.trans (hcompressed s hs'),
      fun s hs' => ?_⟩
    rw [Option.bind_some, hs] at hs'
    exact (Option.some.inj hs').le

/-- The sizes are exact: a compressed or treeless size is found for just the sections that can be
built, and it is their length. So the section that is written is never a fallback, and no section is
smaller. -/
theorem write_literals_auto_smallest (lits : Bytes) (prev : Option CodeTable)
    (hprev : ∀ ct ∈ prev, ct.Built) :
    (∀ s, (build_fresh_table (histogram lits)).bind (compressed_size lits) = some s ↔
        ∃ bytes table, build_compressed_section lits = .ok (bytes, table) ∧ bytes.length = s) ∧
      (∀ ct ∈ prev, ∀ s, treeless_size lits (histogram lits) ct = some s ↔
        CanEncode ct lits ∧ ∃ bytes, build_treeless_section lits ct = .ok bytes ∧
        bytes.length = s) ∧
      IsSection lits prev (write_literals_auto lits prev) ∧
      ∀ out, IsSection lits prev out → (write_literals_auto lits prev).1.length ≤ out.1.length := by
  obtain ⟨hsection, hraw, hcompressed, htreeless⟩ := write_literals_auto_least lits prev hprev
  refine ⟨fun s => compressed_size_iff, fun ct hct s => treeless_size_iff (hprev ct hct), hsection,
    ?_⟩
  intro out hout
  cases hout with
  | raw => exact hraw
  | compressed hbuild => exact hcompressed _ (compressed_size_iff.mpr ⟨_, _, hbuild, rfl⟩)
  | @treeless ct bytes hct hcan hbuild =>
    refine htreeless _ ?_
    rw [Option.mem_def.mp hct, Option.bind_some]
    exact (treeless_size_iff (hprev ct hct)).mpr ⟨hcan, _, hbuild, rfl⟩

/-- `write_literals_auto_smallest` after a block with a table of two symbols. -/
theorem write_literals_auto_smallest_pair :
    ∃ ct : CodeTable, ct.Built ∧ ∀ out, IsSection [0, 1, 1, 0] (some ct) out →
      (write_literals_auto [0, 1, 1, 0] (some ct)).1.length ≤ out.1.length := by
  have hc : Completes [1] 1 1 := ⟨by decide, by decide, by decide, by decide, le_rfl, by decide⟩
  obtain ⟨t, ht, -⟩ := build_table_ok hc
  obtain ⟨⟨code, nbits⟩, hcodes⟩ : ∃ st, (live_entries t).zipIdx.foldl (invert_entry t.max_bits)
      (List.replicate 256 0, List.replicate 256 0) = st := ⟨_, rfl⟩
  obtain ⟨ct, hct⟩ : ∃ ct, build_code_table (1 :: 1 :: List.replicate 254 0) = .ok ct := by
    have hweights : ((1 :: 1 :: List.replicate 254 0).take
        (last_symbol (1 :: 1 :: List.replicate 254 0))).map (fun l =>
          if 0 < l then (1 :: 1 :: List.replicate 254 0).foldl max 0 + 1 - l else 0) = [1] := by
      decide +kernel
    rw [build_code_table]
    dsimp only
    rw [hweights, ht, bind_ok, hcodes]
    exact ⟨_, rfl⟩
  have hbuilt : ct.Built := ⟨_, by rw [List.length_cons, List.length_cons, List.length_replicate],
    hct⟩
  refine ⟨ct, hbuilt, ?_⟩
  refine (write_literals_auto_smallest [0, 1, 1, 0] (some ct) ?_).2.2.2
  rintro _ ⟨⟩
  exact hbuilt

end ZstdPure.Encode
