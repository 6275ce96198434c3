import ZstdPure.Proofs.DTableProofs
import ZstdPure.Proofs.BitWriterProofs

/-!
# The two-state FSE streams

`encode` walks the symbols from the last to the first, `decompress` walks back. The stream has no
length: the decoder stops when the update of the last symbol but one reads past the bits that were
written.
-/

namespace ZstdPure.Encode

open Fse Outcome

/-- The bits written for `syms`, with the states of their first two symbols; the states alternate.
-/
inductive Coded (ct : FseCTable) : List Nat → BitStack → Nat → Nat → Prop
  | pair (a b : Nat) : Coded ct [a, b] BitStack.empty (ct.init_state2 a) (ct.init_state2 b)
  | cons {syms : List Nat} {s : BitStack} {x y : Nat} (a : Nat) (h : Coded ct syms s x y) :
    Coded ct (a :: syms) (s.push y (ct.nb_bits_out y a)) (ct.next_state y a) x

section Coded

variable {counts : List Int} {ct : FseCTable} {dt : FseDecodeTable} {syms : List Nat} {s : BitStack}
  {x y : Nat}

theorem Coded.two_le (h : Coded ct syms s x y) : 2 ≤ syms.length := by
  induction h with
  | pair a b => exact le_rfl
  | cons a _ ih => exact ih.trans (Nat.le_succ _)

/-- All but the last two symbols were written as a transition. -/
theorem Coded.transition {a : Nat} (h : Coded ct (a :: syms) s x y) (h2 : 2 ≤ syms.length) :
    ∃ s' z, Coded ct syms s' y z ∧ s = s'.push z (ct.nb_bits_out z a) ∧ x = ct.next_state z a := by
  cases h with
  | pair _ b => exact absurd h2 (by simp)
  | cons _ h => exact ⟨_, _, h, rfl, rfl⟩

/-- The states of symbols with a count are in range. -/
theorem Coded.range (hinv : Inverts counts ct dt) (h : Coded ct syms s x y)
    (hsyms : ∀ a ∈ syms, counts.getD a 0 ≠ 0) :
    ∃ u v, u < 2 ^ dt.table_log ∧ v < 2 ^ dt.table_log ∧ x = 2 ^ dt.table_log + u ∧
      y = 2 ^ dt.table_log + v := by
  induction h with
  | pair a b =>
    obtain ⟨u, hu, ha, -⟩ := hinv.start a (hsyms a (by simp))
    obtain ⟨v, hv, hb, -⟩ := hinv.start b (hsyms b (by simp))
    exact ⟨u, v, hu, hv, ha, hb⟩
  | cons a _ ih =>
    obtain ⟨u, v, hu, hv, rfl, rfl⟩ := ih fun b hb => hsyms b (List.mem_cons_of_mem _ hb)
    obtain ⟨w, hw, nb, base, -, -, hnext, -, -⟩ := hinv.step a v (hsyms a (by simp)) hv
    exact ⟨w, u, hw, hu, hnext, rfl⟩

/-- The bits written are at most nine a symbol. -/
theorem Coded.len_le (hinv : Inverts counts ct dt) (h : Coded ct syms s x y)
    (hsyms : ∀ a ∈ syms, counts.getD a 0 ≠ 0) : s.len + 18 ≤ 9 * syms.length := by
  induction h with
  | pair a b => exact le_rfl
  | cons a h ih =>
    have htail : ∀ b ∈ _, counts.getD b 0 ≠ 0 := fun b hb => hsyms b (List.mem_cons_of_mem _ hb)
    obtain ⟨u, v, hu, hv, rfl, rfl⟩ := h.range hinv htail
    obtain ⟨w, hw, nb, base, hnb, hle, -, -, -⟩ := hinv.step a v (hsyms a (by simp)) hv
    have hbits := ih htail
    have hlog := hinv.log_le
    rw [BitStack.push_len, hnb, List.length_cons]
    omega

/-! ## Encoding -/

/-- One symbol in front of those written. -/
theorem Coded.encode_symbol (hinv : Inverts counts ct dt) (h : Coded ct syms s x y)
    (hsyms : ∀ a ∈ syms, counts.getD a 0 ≠ 0) {a : Nat} (ha : counts.getD a 0 ≠ 0) {bw : BitWriter}
    (hbw : bw.Holds s) :
    ∃ s', (ct.encode_symbol bw y a).1.Holds s' ∧
      Coded ct (a :: syms) s' (ct.encode_symbol bw y a).2 x := by
  obtain ⟨u, v, hu, hv, rfl, rfl⟩ := h.range hinv hsyms
  obtain ⟨w, hw, nb, base, hnb, hle, -, -, -⟩ := hinv.step a v ha hv
  have hlog := hinv.log_le
  exact ⟨_, hbw.add _ (by omega), h.cons a⟩

theorem encode_pairs_spec (hinv : Inverts counts ct dt) :
    ∀ (rest syms : List Nat) (s : BitStack) (x y : Nat) (bw : BitWriter), rest.length % 2 = 0 →
      (∀ a ∈ rest, counts.getD a 0 ≠ 0) → (∀ a ∈ syms, counts.getD a 0 ≠ 0) →
      Coded ct syms s x y → bw.Holds s →
      ∃ bw' s' x' y', encode_pairs ct bw x y rest = (bw', x', y') ∧ bw'.Holds s' ∧
        Coded ct (rest.reverse ++ syms) s' x' y'
  | [], _, s, x, y, bw, _, _, _, h, hbw => ⟨bw, s, x, y, rfl, hbw, h⟩
  | [_], _, _, _, _, _, hlen, _, _, _, _ => absurd hlen (by simp)
  | a :: b :: rest, syms, s, x, y, bw, hlen, hrest, hsyms, h, hbw => by
    have ha := hrest a (by simp)
    have hb := hrest b (by simp)
    obtain ⟨s₁, hbw₁, h₁⟩ := h.encode_symbol hinv hsyms ha hbw
    have hsyms₁ : ∀ c ∈ a :: syms, counts.getD c 0 ≠ 0 := by
      intro c hc
      rcases List.mem_cons.mp hc with rfl | hc
      · exact ha
      · exact hsyms c hc
    obtain ⟨s₂, hbw₂, h₂⟩ := h₁.encode_symbol hinv hsyms₁ hb hbw₁
    have hsyms₂ : ∀ c ∈ b :: a :: syms, counts.getD c 0 ≠ 0 := by
      intro c hc
      rcases List.mem_cons.mp hc with rfl | hc
      · exact hb
      · exact hsyms₁ c hc
    obtain ⟨bw', s', x', y', hrun, hbw', h'⟩ := encode_pairs_spec hinv rest _ s₂ _ _ _
      (by simp only [List.length_cons] at hlen; omega)
      (fun c hc => hrest c (by simp [hc])) hsyms₂ h₂ hbw₂
    refine ⟨bw', s', x', y', hrun, hbw', ?_⟩
    rw [List.reverse_cons, List.reverse_cons, List.append_assoc, List.append_assoc]
    exact h'

/-- What `encode` writes: the transitions, then the two states. -/
theorem encode_spec (hinv : Inverts counts ct dt) {src : List Nat} (hsrc : 2 < src.length)
    (hsyms : ∀ a ∈ src, counts.getD a 0 ≠ 0) :
    ∃ s x y, Coded ct src s x y ∧
      (encode ct src).length = ((s.push y ct.table_log).push x ct.table_log).len / 8 + 1 ∧
      leNat (encode ct src) = ((s.push y ct.table_log).push x ct.table_log).val
        + 2 ^ ((s.push y ct.table_log).push x ct.table_log).len := by
  have hflush : ∀ bw s x y, bw.Holds s → ((ct.flush_state (ct.flush_state bw y) x).Holds
      ((s.push y ct.table_log).push x ct.table_log)) := by
    intro bw s x y hbw
    have hlog := hinv.log_le
    rw [← hinv.log] at hlog
    exact (hbw.add y (by omega)).add x (by omega)
  have hrev : src = src.reverse.reverse := src.reverse_reverse.symm
  unfold encode
  rw [hrev]
  rw [hrev] at hsrc hsyms
  generalize src.reverse = l at hsrc hsyms ⊢
  rw [List.reverse_reverse]
  simp only [List.length_reverse, List.mem_reverse] at hsrc hsyms ⊢
  match l, hsrc, hsyms with
  | a :: b :: c :: rest, _, hsyms =>
    have hc := hsyms c (by simp)
    have hrest : ∀ d ∈ rest, counts.getD d 0 ≠ 0 := fun d hd =>
      hsyms d (List.mem_cons_of_mem _ (List.mem_cons_of_mem _ (List.mem_cons_of_mem _ hd)))
    have hcrest : ∀ d ∈ c :: rest, counts.getD d 0 ≠ 0 := List.forall_mem_cons.mpr ⟨hc, hrest⟩
    have hba : ∀ d ∈ [b, a], counts.getD d 0 ≠ 0 := by
      simp only [List.forall_mem_cons]
      exact ⟨hsyms b (by simp), hsyms a (by simp), by simp⟩
    have hcba : ∀ d ∈ [c, b, a], counts.getD d 0 ≠ 0 := List.forall_mem_cons.mpr ⟨hc, hba⟩
    rcases Nat.mod_two_eq_zero_or_one rest.length with hpar | hpar
    · -- an odd number of symbols: the last one belongs to the first state
      have hlen : (a :: b :: c :: rest).length % 2 = 1 := by simp only [List.length_cons]; omega
      obtain ⟨s₁, hbw₁, h₁⟩ := (@Coded.pair ct b a).encode_symbol hinv
        hba hc BitWriter.new_holds
      obtain ⟨bw, s, x, y, hrun, hbw, h⟩ := encode_pairs_spec hinv rest [c, b, a] s₁ _ _ _ hpar
        hrest hcba h₁ hbw₁
      refine ⟨s, x, y, ?_, ?_⟩
      · simpa using h
      · rw [hlen]
        simp only [hrun]
        exact (hflush bw s x y hbw).finish
    · have hlen : (a :: b :: c :: rest).length % 2 = 0 := by simp only [List.length_cons]; omega
      obtain ⟨bw, s, x, y, hrun, hbw, h⟩ := encode_pairs_spec hinv (c :: rest) [b, a] _ _ _ _
        (by simp only [List.length_cons]; omega) hcrest hba (Coded.pair b a) BitWriter.new_holds
      refine ⟨s, x, y, ?_, ?_⟩
      · simpa using h
      · rw [hlen]
        simp only [hrun]
        exact (hflush bw s x y hbw).finish

/-! ## Decoding -/

/-- The reader of a decoder whose states are `u` and `v`, with `syms` left to decode. -/
structure Decodes (ct : FseCTable) (dt : FseDecodeTable) (syms : List Nat) (br : ReverseBitReader)
    (u v : Nat) : Prop where
  u_lt : u < 2 ^ dt.table_log
  v_lt : v < 2 ^ dt.table_log
  bits : ∃ s, Coded ct syms s (2 ^ dt.table_log + u) (2 ^ dt.table_log + v) ∧ br.Holds s

variable {br : ReverseBitReader} {u v : Nat}

/-- Decoding a symbol that was written as a transition. -/
theorem Decodes.symbol_update (hinv : Inverts counts ct dt) {a : Nat}
    (h : Decodes ct dt (a :: syms) br u v) (hsyms : ∀ b ∈ a :: syms, counts.getD b 0 ≠ 0)
    (h2 : 2 ≤ syms.length) (hfit : br.bits_consumed + 9 ≤ 64 ∨ br.ptr = 0) :
    ∃ w br', symbol_update u dt br = .ok (a, w, br') ∧ Decodes ct dt syms br' v w ∧
      br'.ptr = br.ptr ∧ br'.bits_consumed ≤ br.bits_consumed + 9 := by
  obtain ⟨s, hcoded, hholds⟩ := h.bits
  obtain ⟨s', z, hrest, rfl, hnext⟩ := hcoded.transition h2
  have htail : ∀ b ∈ syms, counts.getD b 0 ≠ 0 := fun b hb => hsyms b (List.mem_cons_of_mem _ hb)
  obtain ⟨-, w, -, hw, -, rfl⟩ := hrest.range hinv htail
  obtain ⟨u', hu', nb, base, hnb, hle, hstate, hentry, hbase⟩ := hinv.step a w (hsyms a (by simp))
    hw
  obtain rfl : u' = u := by rw [hstate] at hnext; omega
  have hlog := hinv.log_le
  rw [hnb] at hholds
  have hlen := hholds.len
  rw [BitStack.push_len] at hlen
  obtain ⟨br', hread, hholds', hsrc, hconsumed⟩ := hholds.read (n := nb) (by omega)
    (by rw [BitStack.push_len]; omega) (by omega)
  rw [BitStack.top_push] at hread
  rw [BitStack.pop_push] at hholds'
  have hsize : 2 ^ dt.table_log ≤ 2 ^ 9 := Nat.pow_le_pow_right (by decide) hlog
  refine ⟨w, br', ?_, ⟨h.v_lt, hw, s', hrest, hholds'⟩, ?_, by omega⟩
  · rw [Fse.symbol_update, entry_of hlog hu' hentry, bind_ok, update_with_entry, hread, bind_ok]
    dsimp only
    rw [add_ok (by omega), bind_ok, hbase]
    rfl
  · have hlen' := hholds'.len
    omega

/-- Decoding the last symbol but one reads past the bits. -/
theorem Decodes.symbol_update_last (hinv : Inverts counts ct dt) (hdt : dt.Valid) {a b : Nat}
    (h : Decodes ct dt [a, b] br u v) (hsyms : ∀ c ∈ [a, b], counts.getD c 0 ≠ 0)
    (hfull : (counts.getD a 0).natAbs < 2 ^ dt.table_log) :
    ∃ w br', Fse.symbol_update u dt br = .ok (a, w, br') ∧ br'.Valid ∧ 64 < br'.bits_consumed ∧
      ∃ e, entry v dt = .ok e ∧ e.symbol = b := by
  obtain ⟨s, hcoded, hholds⟩ := h.bits
  generalize hx : 2 ^ dt.table_log + u = x at hcoded
  generalize hy : 2 ^ dt.table_log + v = y at hcoded
  obtain ⟨hs, hxa, hyb⟩ : s = BitStack.empty ∧ x = ct.init_state2 a ∧ y = ct.init_state2 b := by
    cases hcoded with
    | pair => exact ⟨rfl, rfl, rfl⟩
    | cons _ h => exact absurd h.two_le (by simp)
  obtain ⟨u', hu', ha, hentry⟩ := hinv.start a (hsyms a (by simp))
  obtain ⟨v', hv', hb, hentry'⟩ := hinv.start b (hsyms b (by simp))
  obtain rfl : u' = u := by omega
  obtain rfl : v' = v := by omega
  have hlog := hinv.log_le
  have hcount := hsyms a (by simp)
  have hlog2 : Nat.log2 (counts.getD a 0).natAbs < dt.table_log :=
    (Nat.log2_lt (by omega)).mpr hfull
  obtain ⟨hptr, hconsumed⟩ := hholds.at_start (by rw [hs]; rfl)
  have hentry_u := entry_of hlog hu' hentry
  obtain ⟨low, hread, hlow⟩ := br.read_valid
    (n := dt.table_log - Nat.log2 (counts.getD a 0).natAbs) (by omega) (by omega)
  have hbase := (hdt.entry _ (List.mem_of_getElem? hentry)).2
  have hsize : 2 ^ dt.table_log ≤ 2 ^ 9 := Nat.pow_le_pow_right (by decide) hlog
  simp only [value_entry] at hbase
  refine ⟨(value_entry dt.table_log (counts.getD a 0).natAbs a).new_state_base + low, _, ?_,
    hholds.valid.consume (dt.table_log - Nat.log2 (counts.getD a 0).natAbs), ?_,
    _, entry_of hlog hv' hentry', rfl⟩
  · rw [Fse.symbol_update, hentry_u, bind_ok, update_with_entry]
    simp only [value_entry]
    rw [hread, bind_ok]
    dsimp only
    rw [add_ok (by omega), bind_ok]
    rfl
  · simp only
    omega

/-- A reload keeps what is left to decode. -/
theorem Decodes.reload (h : Decodes ct dt syms br u v) :
    ∃ st br', br.reload = .ok (st, br') ∧ st ≠ .Overflow ∧ Decodes ct dt syms br' u v ∧
      (br'.bits_consumed ≤ 7 ∨ br'.ptr = 0) ∧ (st = .Unfinished → br'.bits_consumed ≤ 7) := by
  obtain ⟨s, hcoded, hholds⟩ := h.bits
  obtain ⟨st, br', hreload, hholds', -, -, hfull, hr⟩ := hholds.reload
  have hne : st ≠ .Overflow := fun he => absurd (hr.overflow.mp he)
    (by have := hholds.consumed; omega)
  exact ⟨st, br', hreload, hne, ⟨h.u_lt, h.v_lt, s, hcoded, hholds'⟩, hr.fresh hne, hfull⟩

/-! ## The main loop -/

section Decompress

variable {src rest : List Nat} {max_out : Nat} {t : TwoState}

/-- The symbols `rest` of `src` are left, and the reader was just refilled. -/
structure Left (ct : FseCTable) (dt : FseDecodeTable) (src rest : List Nat) (t : TwoState) :
    Prop where
  out : t.out ++ rest = src
  decodes : Decodes ct dt rest t.br t.s1 t.s2
  fresh : t.br.bits_consumed ≤ 7 ∨ t.br.ptr = 0

theorem pair_ready_left (max_out : Nat) (hout : t.out ++ rest = src) (hsrc : src.length < 2 ^ 63)
    (h : Decodes ct dt rest t.br t.s1 t.s2) :
    ∃ t', pair_ready max_out t = .ok t' ∧ Left ct dt src rest t' ∧ t'.out = t.out ∧
      (t'.go = true → t'.out.length + 2 ≤ max_out ∧ t'.br.bits_consumed ≤ 7) := by
  obtain ⟨st, br', hreload, -, hdec, hfresh, hfull⟩ := h.reload
  have hlen : t.out.length + rest.length = src.length := by rw [← hout, List.length_append]
  by_cases hst : st = .Unfinished
  · refine ⟨{ t with br := br', go := decide (t.out.length + 2 ≤ max_out) }, ?_,
      ⟨hout, hdec, hfresh⟩, rfl, fun hgo => ⟨by simpa using hgo, hfull hst⟩⟩
    rw [pair_ready, hreload, bind_ok]
    dsimp only
    rw [if_pos hst, add_ok (by omega)]
    rfl
  · refine ⟨{ t with br := br', go := false }, ?_, ⟨hout, hdec, hfresh⟩, rfl,
      fun hgo => by simp at hgo⟩
    rw [pair_ready, hreload, bind_ok]
    dsimp only
    rw [if_neg hst]
    rfl

/-- A full window holds the transitions of a pair. -/
theorem Decodes.four_le (hinv : Inverts counts ct dt) (h : Decodes ct dt syms br u v)
    (hsyms : ∀ a ∈ syms, counts.getD a 0 ≠ 0) (h7 : br.bits_consumed ≤ 7) : 4 ≤ syms.length := by
  obtain ⟨s, hcoded, hholds⟩ := h.bits
  have hbits := hcoded.len_le hinv hsyms
  have hlen := hholds.len
  omega

theorem decode_pair_left (hinv : Inverts counts ct dt) (hsyms : ∀ a ∈ src, counts.getD a 0 ≠ 0)
    (h : Left ct dt src rest t) (h7 : t.br.bits_consumed ≤ 7) :
    ∃ t' rest', decode_pair dt t = .ok t' ∧ t'.out ++ rest' = src ∧
      Decodes ct dt rest' t'.br t'.s1 t'.s2 ∧ t'.out.length = t.out.length + 2 := by
  have hout := h.out
  have hmem : ∀ a ∈ rest, counts.getD a 0 ≠ 0 := by
    intro a ha
    apply hsyms
    rw [← hout]
    exact List.mem_append_right _ ha
  have h4 := h.decodes.four_le hinv hmem h7
  have hdec := h.decodes
  match rest, h4, hmem, hdec, hout with
  | a :: b :: syms, h4, hmem, hdec, hout =>
    simp only [List.length_cons] at h4
    obtain ⟨w₁, br₁, hs₁, hdec₁, -, hb₁⟩ := hdec.symbol_update hinv hmem
      (by rw [List.length_cons]; omega) (Or.inl (by omega))
    obtain ⟨w₂, br₂, hs₂, hdec₂, -, -⟩ := hdec₁.symbol_update hinv
      (fun c hc => hmem c (List.mem_cons_of_mem _ hc)) (by omega) (Or.inl (by omega))
    refine ⟨{ t with br := br₂, s1 := w₁, s2 := w₂, out := t.out ++ [a] ++ [b] }, syms, ?_, ?_,
      hdec₂,
      by simp⟩
    · rw [decode_pair, hs₁, bind_ok]
      dsimp only
      rw [hs₂]
      rfl
    · rw [← hout]
      simp

/-- The main loop stops with all of its symbols decoded. -/
theorem pairs_left (hinv : Inverts counts ct dt) (hsyms : ∀ a ∈ src, counts.getD a 0 ≠ 0)
    (hsrc : src.length < 2 ^ 63) (h : Left ct dt src rest t)
    (hgo : t.go = true → t.out.length + 2 ≤ max_out ∧ t.br.bits_consumed ≤ 7) :
    ∃ t' rest', loop TwoState.go (fun s => do
        let s ← decode_pair dt s
        pair_ready max_out s) (max_out + 1) t = .ok t' ∧ Left ct dt src rest' t' := by
  have hloop := @Returns.loop ZstdError _ TwoState.go (fun s => do
      let s ← decode_pair dt s
      pair_ready max_out s)
    (fun s => (∃ rest, Left ct dt src rest s) ∧
      (s.go = true → s.out.length + 2 ≤ max_out ∧ s.br.bits_consumed ≤ 7))
    (fun s => max_out - s.out.length) (by
      rintro s ⟨⟨rest, hs⟩, hroom⟩ hg
      obtain ⟨hmax, h7⟩ := hroom hg
      obtain ⟨s₁, rest₁, hpair, hout₁, hdec₁, hlen₁⟩ := decode_pair_left hinv hsyms hs h7
      obtain ⟨s₂, hready, hleft₂, hout₂, hroom₂⟩ := pair_ready_left max_out hout₁ hsrc hdec₁
      refine ⟨s₂, ?_, ⟨⟨rest₁, hleft₂⟩, hroom₂⟩, ?_⟩
      · rw [hpair, bind_ok, hready]
      · rw [hout₂]
        omega)
    (max_out + 1) t ⟨⟨rest, h⟩, hgo⟩ (by omega)
  obtain ⟨t', hrun, ⟨⟨rest', hleft⟩, -⟩, -⟩ := hloop
  exact ⟨t', rest', hrun, hleft⟩

/-! ## The tail -/

theorem emit_ok {out : List Nat} (a : Nat) (h : out.length < max_out) :
    emit max_out out a = .ok (out ++ [a]) := by
  rw [emit, if_neg (by omega)]
  rfl

/-- Half of an iteration of the tail, before the last two symbols. -/
theorem tail_half_step (hinv : Inverts counts ct dt) {a : Nat} {out : List Nat}
    (h : Decodes ct dt (a :: syms) br u v) (hsyms : ∀ b ∈ a :: syms, counts.getD b 0 ≠ 0)
    (h2 : 2 ≤ syms.length) (hfresh : br.bits_consumed ≤ 7 ∨ br.ptr = 0)
      (hroom : out.length < max_out) :
    ∃ w br', decode_tail_half dt max_out br u v out = .ok (true, br', w, out ++ [a]) ∧
      Decodes ct dt syms br' v w ∧ (br'.bits_consumed ≤ 7 ∨ br'.ptr = 0) := by
  obtain ⟨w, br₁, hs, hdec₁, -, -⟩ := h.symbol_update hinv hsyms h2 (hfresh.imp (by omega) id)
  obtain ⟨st, br₂, hreload, hne, hdec₂, hfresh₂, -⟩ := hdec₁.reload
  refine ⟨w, br₂, ?_, hdec₂, hfresh₂⟩
  rw [decode_tail_half, hs, bind_ok]
  dsimp only
  rw [emit_ok a hroom, bind_ok, hreload, bind_ok]
  dsimp only
  rw [if_neg hne]
  rfl

/-- Half of an iteration of the tail, at the last two symbols. -/
theorem tail_half_last (hinv : Inverts counts ct dt) (hdt : dt.Valid) {a b : Nat} {out : List Nat}
    (h : Decodes ct dt [a, b] br u v) (hsyms : ∀ c ∈ [a, b], counts.getD c 0 ≠ 0)
    (hfull : (counts.getD a 0).natAbs < 2 ^ dt.table_log) (hroom : out.length < max_out) :
    ∃ w br', decode_tail_half dt max_out br u v out
      = if out.length + 2 ≤ max_out then .ok (false, br', w, out ++ [a, b])
        else fail (.OutputTooLarge max_out) := by
  obtain ⟨w, br₁, hs, hv₁, hc₁, e, hentry, he⟩ := h.symbol_update_last hinv hdt hsyms hfull
  obtain ⟨st, br₂, hreload, hr⟩ := ReverseBitReader.reload_spec hv₁
  refine ⟨w, br₂, ?_⟩
  rw [decode_tail_half, hs, bind_ok]
  dsimp only
  rw [emit_ok a hroom, bind_ok, hreload, bind_ok]
  dsimp only
  rw [if_pos (hr.overflow.mpr hc₁), hentry, bind_ok, he]
  split_ifs with hmax
  · rw [emit_ok b (by rw [List.length_append, List.length_singleton]; omega), bind_ok]
    simp
  · rw [emit, if_pos (by rw [List.length_append, List.length_singleton]; omega)]
    rfl

theorem Left.length (h : Left ct dt src rest t) : t.out.length + rest.length = src.length := by
  rw [← h.out, List.length_append]

theorem Left.counted (h : Left ct dt src rest t) (hsyms : ∀ a ∈ src, counts.getD a 0 ≠ 0) :
    ∀ a ∈ rest, counts.getD a 0 ≠ 0 := by
  intro a ha
  apply hsyms
  rw [← h.out]
  exact List.mem_append_right _ ha

/-- The tail ends in the first half of an iteration that has two symbols left. -/
theorem tail_left_two (hinv : Inverts counts ct dt) (hdt : dt.Valid) {a b : Nat}
    (hsyms : ∀ a ∈ src, counts.getD a 0 ≠ 0)
    (hfull : ∀ a, (counts.getD a 0).natAbs < 2 ^ dt.table_log) (hmax : src.length ≤ max_out + 1)
    (h : Left ct dt src [a, b] t) (m : Nat) :
    decode_tail dt max_out t >>= loop TwoState.go (decode_tail dt max_out) m >>=
      (fun s => pure s.out)
      = if src.length ≤ max_out then .ok src else fail (.OutputTooLarge max_out) := by
  have hlen := h.length
  simp only [List.length_cons, List.length_nil] at hlen
  obtain ⟨w, br', hhalf⟩ := tail_half_last hinv hdt h.decodes (h.counted hsyms) (hfull a)
    (by omega : t.out.length < max_out)
  rw [decode_tail, hhalf]
  by_cases hroom : t.out.length + 2 ≤ max_out
  · rw [if_pos hroom, if_pos (by omega), bind_ok]
    dsimp only
    rw [if_neg Bool.false_ne_true, pure_eq_ok, bind_ok, loop_of_not rfl, bind_ok, ← h.out]
    rfl
  · rw [if_neg hroom, if_neg (by omega)]
    rfl

/-- The tail ends in the second half of an iteration that has three symbols left. -/
theorem tail_left_three (hinv : Inverts counts ct dt) (hdt : dt.Valid) {a b c : Nat}
    (hsyms : ∀ a ∈ src, counts.getD a 0 ≠ 0)
    (hfull : ∀ a, (counts.getD a 0).natAbs < 2 ^ dt.table_log) (hmax : src.length ≤ max_out + 1)
    (h : Left ct dt src [a, b, c] t) (m : Nat) :
    decode_tail dt max_out t >>= loop TwoState.go (decode_tail dt max_out) m >>=
      (fun s => pure s.out)
      = if src.length ≤ max_out then .ok src else fail (.OutputTooLarge max_out) := by
  have hlen := h.length
  have hmem := h.counted hsyms
  simp only [List.length_cons, List.length_nil] at hlen
  obtain ⟨w₁, br₁, hhalf₁, hdec₁, hfresh₁⟩ := tail_half_step hinv h.decodes hmem (by simp) h.fresh
    (by omega : t.out.length < max_out)
  have hroom₁ : (t.out ++ [a]).length < max_out := by
    rw [List.length_append, List.length_singleton]
    omega
  have hmem₁ : ∀ d ∈ [b, c], counts.getD d 0 ≠ 0 := fun d hd => hmem d (List.mem_cons_of_mem _ hd)
  obtain ⟨w₂, br₂, hhalf₂⟩ := tail_half_last hinv hdt hdec₁ hmem₁ (hfull b) hroom₁
  rw [decode_tail, hhalf₁, bind_ok]
  dsimp only
  rw [if_pos rfl, hhalf₂, List.length_append, List.length_singleton]
  by_cases hroom : t.out.length + 1 + 2 ≤ max_out
  · rw [if_pos hroom, if_pos (by omega), bind_ok, pure_eq_ok, bind_ok, loop_of_not rfl, bind_ok,
      ← h.out]
    simp
  · rw [if_neg hroom, if_neg (by omega)]
    rfl

/-- An iteration that leaves two symbols or more decodes two. -/
theorem tail_left_step (hinv : Inverts counts ct dt) {a b : Nat} {syms : List Nat}
    (hsyms : ∀ a ∈ src, counts.getD a 0 ≠ 0) (hmax : src.length ≤ max_out + 1)
      (h2 : 2 ≤ syms.length)
    (h : Left ct dt src (a :: b :: syms) t) :
    ∃ t', decode_tail dt max_out t = .ok t' ∧ t'.go = true ∧ Left ct dt src syms t' := by
  have hlen := h.length
  have hmem := h.counted hsyms
  simp only [List.length_cons] at hlen
  obtain ⟨w₁, br₁, hhalf₁, hdec₁, hfresh₁⟩ := tail_half_step hinv h.decodes hmem
    (by rw [List.length_cons]; omega) h.fresh (by omega : t.out.length < max_out)
  have hroom₁ : (t.out ++ [a]).length < max_out := by
    rw [List.length_append, List.length_singleton]
    omega
  obtain ⟨w₂, br₂, hhalf₂, hdec₂, hfresh₂⟩ := tail_half_step hinv hdec₁
    (fun d hd => hmem d (List.mem_cons_of_mem _ hd)) h2 hfresh₁ hroom₁
  refine ⟨⟨br₂, w₁, w₂, t.out ++ [a] ++ [b], true⟩, ?_, rfl, ?_, hdec₂, hfresh₂⟩
  · rw [decode_tail, hhalf₁, bind_ok]
    dsimp only
    rw [if_pos rfl, hhalf₂, bind_ok]
    rfl
  · rw [← h.out]
    simp

/-- The tail loop decodes what is left, if there is room for it. -/
theorem tail_left (hinv : Inverts counts ct dt) (hdt : dt.Valid)
    (hsyms : ∀ a ∈ src, counts.getD a 0 ≠ 0)
    (hfull : ∀ a, (counts.getD a 0).natAbs < 2 ^ dt.table_log) (hmax : src.length ≤ max_out + 1) :
    ∀ (n : Nat) (rest : List Nat) (t : TwoState), rest.length ≤ n → t.go = true →
      Left ct dt src rest t →
      loop TwoState.go (decode_tail dt max_out) n t >>= (fun s => pure s.out)
        = if src.length ≤ max_out then .ok src else fail (.OutputTooLarge max_out) := by
  intro n
  induction n with
  | zero =>
    intro rest t hn _ h
    obtain ⟨s, hcoded, -⟩ := h.decodes.bits
    have htwo := hcoded.two_le
    omega
  | succ n ih =>
    intro rest t hn hgo h
    rw [loop_succ_of hgo]
    rcases rest with _ | ⟨a, _ | ⟨b, _ | ⟨c, _ | ⟨d, syms⟩⟩⟩⟩
    · obtain ⟨s, hcoded, -⟩ := h.decodes.bits
      exact absurd hcoded.two_le (by simp)
    · obtain ⟨s, hcoded, -⟩ := h.decodes.bits
      exact absurd hcoded.two_le (by simp)
    · exact tail_left_two hinv hdt hsyms hfull hmax h n
    · exact tail_left_three hinv hdt hsyms hfull hmax h n
    · obtain ⟨t', hstep, hgo', h'⟩ := tail_left_step hinv hsyms hmax (by simp) h
      rw [hstep, bind_ok]
      simp only [List.length_cons] at hn
      exact ih _ t' (by simp only [List.length_cons]; omega) hgo' h'

/-- `decompress` of what `encode` wrote, with room for all symbols or all but one. -/
theorem decompress_encode (hinv : Inverts counts ct dt) (hdt : dt.Valid)
    (hfull : ∀ a, (counts.getD a 0).natAbs < 2 ^ dt.table_log) (hlen : 2 < src.length)
    (hsyms : ∀ a ∈ src, counts.getD a 0 ≠ 0) (hsrc : src.length < 2 ^ 63)
    (hstream : (encode ct src).length < 2 ^ 63) (hmax : src.length ≤ max_out + 1) :
    decompress (encode ct src) dt max_out
      = if src.length ≤ max_out then .ok src else fail (.OutputTooLarge max_out) := by
  obtain ⟨s, x, y, hcoded, hbytes, hvalue⟩ := encode_spec hinv hlen hsyms
  obtain ⟨u, v, hu, hv, rfl, rfl⟩ := hcoded.range hinv hsyms
  rw [hinv.log] at hbytes hvalue
  have hlog := hinv.log_le
  obtain ⟨br, hnew, hbrsrc, hholds⟩ := ReverseBitReader.new_holds hstream hbytes hvalue
  have hfit := fun m => hholds.fits_new (by rw [hbrsrc]; exact hbytes) (m := m)
  -- the states are read in the opposite order
  obtain ⟨br₁, hread₁, hholds₁, hsrc₁, hc₁⟩ := hholds.read (n := dt.table_log) (by omega)
    (by rw [BitStack.push_len]; omega) (hfit _ (by omega) (by rw [BitStack.push_len]; omega))
  rw [BitStack.top_push, Nat.add_mod_left, Nat.mod_eq_of_lt hu] at hread₁
  rw [BitStack.pop_push] at hholds₁
  obtain ⟨br₂, hread₂, hholds₂, -, -⟩ := hholds₁.read (n := dt.table_log) (by omega)
    (by rw [BitStack.push_len]; omega) (by
      have h2 := hfit (dt.table_log + dt.table_log) (by omega)
        (by rw [BitStack.push_len, BitStack.push_len]; omega)
      omega)
  rw [BitStack.top_push, Nat.add_mod_left, Nat.mod_eq_of_lt hv] at hread₂
  rw [BitStack.pop_push] at hholds₂
  obtain ⟨t₀, hready, hleft₀, -, hroom⟩ := @pair_ready_left ct dt src src
    ⟨br₂, u, v, [], false⟩ max_out rfl hsrc ⟨hu, hv, s, hcoded, hholds₂⟩
  obtain ⟨t₁, rest, hpairs, hleft₁⟩ := pairs_left hinv hsyms hsrc hleft₀ hroom
  have hrest : rest.length ≤ max_out + 2 := by
    have hout := congrArg List.length hleft₁.out
    rw [List.length_append] at hout
    omega
  rw [decompress, hnew, bind_ok, init, hread₁, bind_ok]
  dsimp only
  rw [init, hread₂, bind_ok]
  dsimp only
  rw [hready, bind_ok, hpairs, bind_ok]
  exact tail_left hinv hdt hsyms hfull hmax _ rest { t₁ with go := true } hrest rfl
    ⟨hleft₁.out, hleft₁.decodes, hleft₁.fresh⟩

end Decompress

end Coded

/-- The two-state stream of more than two symbols decodes to them when there is room, and fails when
there is room for all but one. -/
theorem two_state_round_trip {norm counts : List Int} {max_symbol table_log : Nat} {src : List Nat}
    (hlen : max_symbol < norm.length) (hcounts : norm.take (max_symbol + 1) = counts)
    (hsym : max_symbol ≤ 255) (hge : ∀ c ∈ counts, -1 ≤ c)
    (hsum : (counts.map Int.natAbs).sum = 2 ^ table_log) (h5 : 5 ≤ table_log) (h9 : table_log ≤ 9)
    (hfull : ∀ c ∈ counts, c.natAbs ≠ 2 ^ table_log) (hmany : 2 < src.length)
    (hsyms : ∀ a ∈ src, counts.getD a 0 ≠ 0) (hsrc : src.length < 2 ^ 63)
    (hstream : (encode (build_ctable norm max_symbol table_log) src).length < 2 ^ 63) :
    ∃ dt, build_dtable norm max_symbol table_log = .ok dt ∧
      (∀ max_out, src.length ≤ max_out →
        decompress (encode (build_ctable norm max_symbol table_log) src) dt max_out = .ok src) ∧
      ∃ e, decompress (encode (build_ctable norm max_symbol table_log) src) dt (src.length - 1)
        = fail e := by
  have h : ValidCounts counts table_log := by
    refine ⟨?_, hge, hsum⟩
    rw [← hcounts, List.length_take]
    omega
  have h4 : 4 ≤ table_log := by omega
  have hinv := build_ctable_inverts hcounts h (Or.inr h4) h9
  have hless : ∀ a, (counts.getD a 0).natAbs < 2 ^ table_log := by
    intro a
    by_cases ha : counts.getD a 0 = 0
    · rw [ha]
      positivity
    · obtain ⟨hlt, -, hle⟩ := count_range h ha
      have hne := hfull (counts.getD a 0)
        (by rw [List.getD_eq_getElem _ _ hlt]; exact List.getElem_mem _)
      omega
  have hrun := fun max_out hmax => @decompress_encode counts _ _ src max_out hinv
    (dtable_valid h h4 h9) hless hmany hsyms hsrc hstream hmax
  refine ⟨_, build_dtable_ok hlen hcounts h h4 h9, ?_, .OutputTooLarge (src.length - 1), ?_⟩
  · intro max_out hmax
    rw [hrun max_out (by omega), if_pos hmax]
  · rw [hrun (src.length - 1) (by omega), if_neg (by omega)]

theorem two_state_round_trip_three_symbols :
    ∃ dt, build_dtable [20, -1, 11] 2 5 = .ok dt ∧
      (∀ max_out, [0, 2, 1].length ≤ max_out →
        decompress (encode (build_ctable [20, -1, 11] 2 5) [0, 2, 1]) dt max_out = .ok [0, 2, 1]) ∧
      ∃ e, decompress (encode (build_ctable [20, -1, 11] 2 5) [0, 2, 1]) dt ([0, 2, 1].length - 1)
        = fail e :=
  two_state_round_trip (by decide) rfl (by decide) (by decide) (by decide) (by decide) (by decide)
    (by decide) (by decide) (by decide) (by decide) (by decide +kernel)

end ZstdPure.Encode
