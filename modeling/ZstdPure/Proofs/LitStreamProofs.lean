import ZstdPure.Proofs.CodeTableProofs

/-!
# Literal streams

A stream of codes, the last symbol written first, decodes to its symbols with every table that has
the same codes; so do the four streams behind a jump table. -/

namespace ZstdPure.Encode

open Outcome Huff ReverseBitReader

section

variable {ct : CodeTable} {t : HuffTable} {ws : List Nat} {max_bits : Nat} {lits : Bytes}

/-! ## One stream -/

/-- The bits of some symbols. -/
def code_bits (ct : CodeTable) : Bytes → BitStack
  | [] => BitStack.empty
  | b :: lits => (code_bits ct lits).push (ct.code.getD b.toNat 0) (ct.nbits.getD b.toNat 0)

/-- A code table that has a code for every symbol. -/
def CanEncode (ct : CodeTable) (lits : Bytes) : Prop := ∀ b ∈ lits, ct.nbits.getD b.toNat 0 ≠ 0

theorem CanEncode.mono {lits' : Bytes} (h : CanEncode ct lits) (hsub : ∀ b ∈ lits', b ∈ lits) :
    CanEncode ct lits' := fun b hb => h b (hsub b hb)

theorem SameCodes.nbits_le (hs : SameCodes ct t) (hl : Layout ws max_bits t) (s : UInt8) :
    ct.nbits.getD s.toNat 0 ≤ 12 := by
  by_cases h0 : ct.nbits.getD s.toNat 0 = 0
  · omega
  · exact (hs.present s h0).le.trans hl.valid.log

theorem code_bits_len (hs : SameCodes ct t) (hl : Layout ws max_bits t) (lits : Bytes) :
    (code_bits ct lits).len ≤ 12 * lits.length := by
  induction lits with
  | nil => exact Nat.zero_le _
  | cons b lits ih =>
    have hle := hs.nbits_le hl b
    rw [code_bits, BitStack.push_len, List.length_cons]
    omega

/-- A stream holds the bits of its symbols below a sentinel bit. -/
theorem encode_stream_bits {lits : Bytes} (hnb : ∀ b ∈ lits, ct.nbits.getD b.toNat 0 < 32) :
    (encode_stream ct lits).length = (code_bits ct lits).len / 8 + 1 ∧
      leNat (encode_stream ct lits)
        = (code_bits ct lits).val + 2 ^ (code_bits ct lits).len := by
  suffices h : (lits.reverse.foldl (fun (bw : BitWriter) b =>
      bw.add (ct.code.getD b.toNat 0) (ct.nbits.getD b.toNat 0)) BitWriter.new).Holds
      (code_bits ct lits) from h.finish
  induction lits with
  | nil => exact BitWriter.new_holds
  | cons b lits ih =>
    rw [List.reverse_cons, List.foldl_append, List.foldl_cons, List.foldl_nil]
    exact (ih fun c hc => hnb c (List.mem_cons_of_mem _ hc)).add _ (hnb b (by simp))

theorem encode_stream_spec (hs : SameCodes ct t) (hl : Layout ws max_bits t) (lits : Bytes) :
    (encode_stream ct lits).length = (code_bits ct lits).len / 8 + 1 ∧
      leNat (encode_stream ct lits)
        = (code_bits ct lits).val + 2 ^ (code_bits ct lits).len :=
  encode_stream_bits fun b _ => lt_of_le_of_lt (hs.nbits_le hl b) (by decide)

theorem length_encode_stream_le (hs : SameCodes ct t) (hl : Layout ws max_bits t) (lits : Bytes) :
    (encode_stream ct lits).length ≤ 2 * lits.length + 1 := by
  have hlen := (encode_stream_spec hs hl lits).1
  have hle := code_bits_len hs hl lits
  omega

/-- A peek at more bits starts with the bits of a peek at fewer. -/
theorem peek_prefix (br : ReverseBitReader) {k n : Nat} (hk : 0 < k) (hkn : k ≤ n) (hn : n ≤ 32) :
    ∃ v, br.peek n = .ok v ∧ v < 2 ^ n ∧ br.peek k = .ok (v / 2 ^ (n - k)) := by
  obtain ⟨v, hv, hlt⟩ := br.peek_lt hn
  refine ⟨v, hv, hlt, ?_⟩
  rw [peek_eq (by omega) hn] at hv
  rw [peek_eq hk (by omega), ← Except.ok.inj hv, Nat.div_div_eq_div_mul, ← pow_add]
  congr 4
  omega

/-- The next symbol of a reader in front of its code. -/
theorem next_symbol_holds {br : ReverseBitReader} {st : BitStack} {s : UInt8} {code nb : Nat}
    (hl : Layout ws max_bits t) (hcode : HasCode t s code nb) (hbr : br.Holds (st.push code nb))
    (hfit : br.bits_consumed + nb ≤ 64) :
    ∃ br', next_symbol t br = .ok (s, br') ∧ br'.Holds st := by
  have hlog : t.max_bits ≤ 12 := hl.valid.log
  have hle := hcode.le
  have hsize : 2 ^ t.max_bits ≤ 2 ^ 12 := Nat.pow_le_pow_right (by decide) hlog
  have hstack : nb ≤ (st.push code nb).len := by
    rw [BitStack.push_len]
    omega
  obtain ⟨v, hv, hlt, hpre⟩ := peek_prefix br hcode.pos hle (by omega)
  rw [hbr.peek (by omega) hstack hfit, BitStack.top_push, Nat.mod_eq_of_lt hcode.lt] at hpre
  have hentry := (hcode.entry v hlt).mpr (Except.ok.inj hpre).symm
  obtain ⟨hvlt, hget⟩ := List.getElem?_eq_some_iff.mp hentry
  have hmod : v % HUF_DTABLE_SIZE = v := Nat.mod_eq_of_lt (lt_of_lt_of_le hlt hsize)
  have hconsume := hbr.consume hstack hfit
  rw [BitStack.pop_push] at hconsume
  refine ⟨_, ?_, hconsume⟩
  exact next_symbol_eq hv (by rw [HuffTable.entry, hmod, get_ok hvlt, hget]) (by
    show br.bits_consumed + nb < 2 ^ 32
    omega)

/-- The plain decoder on the codes of some symbols. -/
theorem decode_symbols (hs : SameCodes ct t) (hl : Layout ws max_bits t) :
    ∀ (lits : Bytes) (br : ReverseBitReader) (out : Bytes), CanEncode ct lits →
      br.Holds (code_bits ct lits) →
      ∃ br', times (decode_one_symbol t) lits.length (br, out) = .ok (br', out ++ lits) := by
  intro lits
  induction lits with
  | nil => intro br out _ _; exact ⟨br, by rw [List.append_nil]; rfl⟩
  | cons b lits ih =>
    intro br out hcan hbr
    have hcode := hs.present b (hcan b (by simp))
    have hle := hs.nbits_le hl b
    obtain ⟨st, br₁, hreload, hbr₁, -, hfit, -⟩ := hbr.reload
    obtain ⟨br₂, hnext, hbr₂⟩ := next_symbol_holds hl hcode hbr₁ (hfit _ (by omega) (by
      rw [code_bits, BitStack.push_len]
      omega))
    obtain ⟨br', hrun⟩ := ih br₂ (out ++ [b]) (hcan.mono fun c hc => List.mem_cons_of_mem _ hc) hbr₂
    refine ⟨br', ?_⟩
    rw [List.length_cons, times, decode_one_symbol, hreload, bind_ok]
    dsimp only
    rw [push_symbol, hnext, bind_ok]
    show times (decode_one_symbol t) lits.length (br₂, out ++ [b]) = _
    rw [hrun, List.append_assoc, List.singleton_append]

/-- A stream has a reader, and it decodes to its symbols; the bounds are those of any byte string.
-/
theorem decode_encode_stream_of_len (hs : SameCodes ct t) (hl : Layout ws max_bits t)
    (hcan : CanEncode ct lits) (hlen : lits.length < 2 ^ 63)
      (hstream : (encode_stream ct lits).length < 2 ^ 63) :
    HasSentinel (encode_stream ct lits) ∧
      decode_1stream t (encode_stream ct lits) lits.length = .ok lits := by
  obtain ⟨hslen, hval⟩ := encode_stream_spec hs hl lits
  obtain ⟨br, hnew, -, hbr⟩ := new_holds hstream hslen hval
  obtain ⟨br', hrun⟩ := decode_symbols hs hl lits br [] hcan hbr
  refine ⟨(new_eq_ok_iff hstream).mp ⟨br, hnew⟩, ?_⟩
  rw [decode_1stream_eq hl hstream hlen, decode_plain, hnew, bind_ok, hrun]
  rfl

theorem decode_encode_stream (hs : SameCodes ct t) (hl : Layout ws max_bits t)
    (hcan : CanEncode ct lits) (hlen : lits.length < 2 ^ 60) :
    HasSentinel (encode_stream ct lits) ∧
      decode_1stream t (encode_stream ct lits) lits.length = .ok lits := by
  have hle := length_encode_stream_le hs hl lits
  exact decode_encode_stream_of_len hs hl hcan (by omega) (by omega)

/-! ## Four streams -/

/-- Four streams behind a jump table. -/
def join_streams (s1 s2 s3 s4 : Bytes) : Bytes :=
  leBytes 2 s1.length ++
    (leBytes 2 s2.length ++ (leBytes 2 s3.length ++ (s1 ++ (s2 ++ (s3 ++ s4)))))

section Join

variable {s1 s2 s3 : Bytes}

theorem take_drop_middle (a b c : Bytes) {i j : Nat} (hi : i = a.length) (hj : j = i + b.length) :
    ((a ++ (b ++ c)).take j).drop i = b := by
  rw [List.drop_take, hi, List.drop_left, hj, hi, Nat.add_sub_cancel_left, List.take_left]

theorem join_streams_len (s4 : Bytes) (h1 : s1.length ≤ 0xFFFF) (h2 : s2.length ≤ 0xFFFF)
    (h3 : s3.length ≤ 0xFFFF) :
    stream_len (join_streams s1 s2 s3 s4) 0 = s1.length ∧
      stream_len (join_streams s1 s2 s3 s4) 1 = s2.length ∧
      stream_len (join_streams s1 s2 s3 s4) 2 = s3.length := by
  have hle : ∀ n, n ≤ 0xFFFF → leNat (leBytes 2 n) = n := fun n hn => by
    rw [leNat_leBytes, Nat.mod_eq_of_lt (by omega)]
  refine ⟨?_, ?_, ?_⟩
  · rw [stream_len, join_streams, List.drop_zero, List.take_left' (length_leBytes _ _), hle _ h1]
  · rw [stream_len, join_streams, List.drop_left' (length_leBytes _ _),
      List.take_left' (length_leBytes _ _), hle _ h2]
  · rw [stream_len, join_streams, ← List.append_assoc,
      List.drop_left' (by rw [List.length_append, length_leBytes, length_leBytes]),
      List.take_left' (length_leBytes _ _), hle _ h3]

/-- The decoder finds the four streams. -/
theorem substream_join_streams (s4 : Bytes) (h1 : s1.length ≤ 0xFFFF) (h2 : s2.length ≤ 0xFFFF)
    (h3 : s3.length ≤ 0xFFFF) :
    JumpFits (join_streams s1 s2 s3 s4) ∧ substream (join_streams s1 s2 s3 s4) 0 = s1 ∧
      substream (join_streams s1 s2 s3 s4) 1 = s2 ∧ substream (join_streams s1 s2 s3 s4) 2 = s3 ∧
      substream (join_streams s1 s2 s3 s4) 3 = s4 := by
  obtain ⟨e0, e1, e2⟩ := join_streams_len s4 h1 h2 h3
  have hs1 : stream_start (join_streams s1 s2 s3 s4) 1 = 6 + s1.length := by
    rw [stream_start, e0]
    rfl
  have hs2 : stream_start (join_streams s1 s2 s3 s4) 2 = 6 + s1.length + s2.length := by
    rw [stream_start, hs1, e1]
  have hs3 : stream_start (join_streams s1 s2 s3 s4) 3 = 6 + s1.length + s2.length + s3.length := by
    rw [stream_start, hs2, e2]
  have hsrc : join_streams s1 s2 s3 s4
      = (leBytes 2 s1.length ++ leBytes 2 s2.length ++ leBytes 2 s3.length) ++
        (s1 ++ (s2 ++ (s3 ++ s4))) := by
    simp only [join_streams, List.append_assoc]
  have hjump : (leBytes 2 s1.length ++ leBytes 2 s2.length ++ leBytes 2 s3.length).length = 6 := by
    simp only [List.length_append, length_leBytes]
  refine ⟨⟨?_, ?_⟩, ?_, ?_, ?_, ?_⟩
  · rw [hsrc, List.length_append, hjump]
    omega
  · rw [hs3, hsrc, List.length_append, hjump]
    simp only [List.length_append]
    omega
  · rw [substream, if_pos (by decide), hs1, hsrc]
    exact take_drop_middle _ _ _ hjump.symm rfl
  · rw [substream, if_pos (by decide), hs1, hs2, hsrc, ← List.append_assoc]
    exact take_drop_middle _ _ _ (by rw [List.length_append, hjump]) rfl
  · rw [substream, if_pos (by decide), hs2, hs3, hsrc, ← List.append_assoc, ← List.append_assoc]
    exact take_drop_middle _ _ _ (by rw [List.length_append, List.length_append, hjump]) rfl
  · rw [substream, if_neg (by decide), hs3, hsrc, ← List.append_assoc, ← List.append_assoc,
      ← List.append_assoc]
    exact List.drop_left' (by simp only [List.length_append, hjump])

end Join

/-- The four parts of the symbols. -/
theorem four_parts (lits : Bytes) (seg : Nat) :
    lits.take seg ++ ((lits.drop seg).take seg ++ ((lits.drop (2 * seg)).take seg ++
      lits.drop (3 * seg))) = lits := by
  have h3 : (lits.drop (2 * seg)).take seg ++ lits.drop (3 * seg) = lits.drop (2 * seg) := by
    rw [show 3 * seg = 2 * seg + seg by omega, ← List.drop_drop, List.take_append_drop]
  have h2 : (lits.drop seg).take seg ++ lits.drop (2 * seg) = lits.drop seg := by
    rw [show 2 * seg = seg + seg by omega, ← List.drop_drop, List.take_append_drop]
  rw [h3, h2, List.take_append_drop]

/-- The four parts that are written behind the jump table: all but the last have the same length. -/
theorem encode_4stream_parts {bytes : Bytes} (h : encode_4stream ct lits = .ok bytes) :
    ∃ q1 q2 q3 q4, q1 ++ (q2 ++ (q3 ++ q4)) = lits ∧
      q1.length = (lits.length + 3) / 4 ∧ q2.length = (lits.length + 3) / 4 ∧
      q3.length = (lits.length + 3) / 4 ∧ q4.length = lits.length - 3 * ((lits.length + 3) / 4) ∧
      ((encode_stream ct q1).length ≤ 0xFFFF ∧ (encode_stream ct q2).length ≤ 0xFFFF ∧
        (encode_stream ct q3).length ≤ 0xFFFF) ∧
      bytes = join_streams (encode_stream ct q1) (encode_stream ct q2) (encode_stream ct q3)
        (encode_stream ct q4) := by
  rw [encode_4stream] at h
  obtain ⟨hseg, h⟩ := guard_eq_ok.mp h
  obtain ⟨hjump, h⟩ := guard_eq_ok.mp h
  generalize (lits.length + 3) / 4 = seg at *
  refine ⟨lits.take seg, (lits.drop seg).take seg, (lits.drop (2 * seg)).take seg,
    lits.drop (3 * seg),
    four_parts lits seg, ?_, ?_, ?_, List.length_drop, by omega, ?_⟩
  · rw [List.length_take]
    omega
  · rw [List.length_take, List.length_drop]
    omega
  · rw [List.length_take, List.length_drop]
    omega
  · rw [← Except.ok.inj h]
    simp only [join_streams, List.append_assoc]

/-- The four-stream form decodes to its symbols. -/
theorem decode_encode_4stream (hs : SameCodes ct t) (hl : Layout ws max_bits t)
    (hcan : CanEncode ct lits) (hlen : lits.length < 2 ^ 20) {bytes : Bytes}
    (h : encode_4stream ct lits = .ok bytes) :
    bytes.length ≤ 2 * lits.length + 10 ∧ decode_4stream t bytes lits.length = .ok lits := by
  obtain ⟨q1, q2, q3, q4, hparts, hl1, hl2, hl3, hl4, ⟨hj1, hj2, hj3⟩, hb⟩ := encode_4stream_parts h
  have htotal := congrArg List.length hparts
  simp only [List.length_append] at htotal
  have hdec := fun (part : Bytes) (hsub : ∀ b ∈ part, b ∈ q1 ++ (q2 ++ (q3 ++ q4)))
      (hp : part.length < 2 ^ 60) => decode_encode_stream hs hl ((hparts ▸ hcan).mono hsub) hp
  have hle := length_encode_stream_le hs hl
  obtain ⟨hsent1, hd1⟩ := hdec q1 (fun b hb => by simp [hb]) (by omega)
  obtain ⟨hsent2, hd2⟩ := hdec q2 (fun b hb => by simp [hb]) (by omega)
  obtain ⟨hsent3, hd3⟩ := hdec q3 (fun b hb => by simp [hb]) (by omega)
  obtain ⟨hsent4, hd4⟩ := hdec q4 (fun b hb => by simp [hb]) (by omega)
  have hblen : bytes.length ≤ 2 * lits.length + 10 := by
    have h1 := hle q1
    have h2 := hle q2
    have h3 := hle q3
    have h4 := hle q4
    rw [hb]
    simp only [join_streams, List.length_append, length_leBytes]
    omega
  obtain ⟨hfits, hsub0, hsub1, hsub2, hsub3⟩ := substream_join_streams (encode_stream ct q4) hj1 hj2
    hj3
  rw [← hb] at hfits hsub0 hsub1 hsub2 hsub3
  obtain ⟨outs, hdec4, houts⟩ := decode_4stream_all lits.length hl (by omega) (by omega)
    hfits (by omega) (fun k hk => by
      interval_cases k
      · rw [hsub0]; exact hsent1
      · rw [hsub1]; exact hsent2
      · rw [hsub2]; exact hsent3
      · rw [hsub3]; exact hsent4)
  refine ⟨hblen, hdec4.trans ?_⟩
  -- each stream has its own number of symbols
  have hsym : ∀ k < 3, stream_symbols lits.length k = (lits.length + 3) / 4 := fun k hk => by
    rw [stream_symbols, if_pos hk]
  have hsym3 : stream_symbols lits.length 3 = q4.length := by
    rw [stream_symbols, if_neg (by decide), hl4]
  have hall := mapM_eq_ok.mp houts
  rw [show List.range 4 = [0, 1, 2, 3] from rfl] at hall
  simp only [List.forall₂_cons_left_iff, List.forall₂_nil_left_iff] at hall
  obtain ⟨o0, _, h0, ⟨o1, _, h1, ⟨o2, _, h2, ⟨o3, _, h3, rfl, rfl⟩, rfl⟩, rfl⟩, rfl⟩ := hall
  rw [hsub0, hsym 0 (by decide), ← hl1, hd1] at h0
  rw [hsub1, hsym 1 (by decide), ← hl2, hd2] at h1
  rw [hsub2, hsym 2 (by decide), ← hl3, hd3] at h2
  rw [hsub3, hsym3, hd4] at h3
  rw [← Except.ok.inj h0, ← Except.ok.inj h1, ← Except.ok.inj h2, ← Except.ok.inj h3]
  congr 1
  simpa using hparts

/-- The streams of a section decode to its symbols. -/
theorem decode_encode_lit_streams (hs : SameCodes ct t) (hl : Layout ws max_bits t)
    (hcan : CanEncode ct lits) (hlen : lits.length < 2 ^ 20) {four : Bool} {streams : Bytes}
    (h : encode_lit_streams ct lits = .ok (four, streams)) :
    streams.length ≤ 2 * lits.length + 10 ∧
      (if four then decode_4stream t streams lits.length
        else decode_1stream t streams lits.length) = .ok lits := by
  rw [encode_lit_streams] at h
  obtain ⟨streams', h', h⟩ := bind_eq_ok.mp h
  obtain ⟨rfl, rfl⟩ := Prod.mk.inj (Except.ok.inj h)
  by_cases hfour : four_streams lits.length = true
  · rw [if_pos hfour] at h' ⊢
    exact decode_encode_4stream hs hl hcan hlen h'
  · rw [if_neg hfour] at h' ⊢
    obtain rfl := Except.ok.inj h'
    have hle := length_encode_stream_le hs hl lits
    exact ⟨by omega, (decode_encode_stream hs hl hcan (by omega)).2⟩

end

end ZstdPure.Encode
