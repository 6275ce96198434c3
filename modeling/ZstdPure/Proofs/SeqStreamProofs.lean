import ZstdPure.Reference
import ZstdPure.Proofs.BitWriterProofs
import ZstdPure.Proofs.CTableProofs
import ZstdPure.Proofs.SeqCodeProofs

/-!
# The bitstream of a sequences section

Three states are written from the last sequence to the first and read from the first to the last.
Before a sequence come its state transitions, literals length first; then its low bits, offset
first. -/

namespace ZstdPure.Encode

open Outcome Fse Sequences

/-! ## One state -/

section Channel

variable {counts : List Int} {ct : FseCTable} {dt : FseDecodeTable} {a u : Nat}

/-- The entry of the state that a symbol starts from. -/
theorem Inverts.entry_start (hinv : Inverts counts ct dt) (ha : counts.getD a 0 ≠ 0)
    (hu : 2 ^ dt.table_log + u = ct.init_state2 a) :
    u < 2 ^ dt.table_log ∧ ∃ e, entry u dt = .ok e ∧ e.symbol = a := by
  obtain ⟨w, hw, hstart, hentry⟩ := hinv.start a ha
  obtain rfl : w = u := by omega
  exact ⟨hw, _, entry_of hinv.log_le hw hentry, rfl⟩

/-- The entry of the state after a symbol, and the update that undoes the transition. -/
theorem Inverts.entry_next (hinv : Inverts counts ct dt) (ha : counts.getD a 0 ≠ 0) {v : Nat}
    (hv : v < 2 ^ dt.table_log) (hu : 2 ^ dt.table_log + u = ct.next_state (2 ^ dt.table_log + v)
      a) :
    u < 2 ^ dt.table_log ∧ ct.nb_bits_out (2 ^ dt.table_log + v) a ≤ 9 ∧
      ∃ e, entry u dt = .ok e ∧ e.symbol = a ∧
        e.num_bits = ct.nb_bits_out (2 ^ dt.table_log + v) a ∧
        ∀ (br : ReverseBitReader) (s : BitStack),
          br.Holds (s.push (2 ^ dt.table_log + v) e.num_bits) → br.bits_consumed + e.num_bits ≤ 64 →
          ∃ br', update_with_entry e br = .ok (v, br') ∧ br'.Holds s ∧
            br'.bits_consumed = br.bits_consumed + e.num_bits := by
  obtain ⟨w, hw, nb, base, hnb, hle, hstate, hentry, hbase⟩ := hinv.step a v ha hv
  have hlog := hinv.log_le
  have hsize : 2 ^ dt.table_log ≤ 2 ^ 9 := Nat.pow_le_pow_right (by decide) hlog
  obtain rfl : w = u := by omega
  refine ⟨hw, by omega, _, entry_of hlog hw hentry, rfl, hnb.symm, fun br s hbr hfit => ?_⟩
  dsimp only at hbr hfit ⊢
  obtain ⟨br', hread, hholds, -, hconsumed⟩ := hbr.read (n := nb) (by omega)
    (by rw [BitStack.push_len]; omega) hfit
  rw [BitStack.top_push] at hread
  rw [BitStack.pop_push] at hholds
  refine ⟨br', ?_, hholds, hconsumed⟩
  rw [update_with_entry, hread, bind_ok]
  dsimp only
  rw [add_ok (by omega), hbase]
  rfl

end Channel

/-! ## What is written -/

/-- The low bits of one sequence. -/
def push_extra (st : BitStack) (s : Seq) : BitStack :=
  ((st.push (s.lit_len - LL_BASE.getD (ll_code s.lit_len) 0)
    (LL_BITS.getD (ll_code s.lit_len) 0)).push
    (s.match_len - ML_BASE.getD (ml_code s.match_len) 0)
      (ML_BITS.getD (ml_code s.match_len) 0)).push
    s.offset_value (of_code s.offset_value)

/-- The bits written for some sequences, and the three states of the first of them. -/
inductive Written (t : ChannelTables) : List Seq → BitStack → Nat → Nat → Nat → Prop
  | last (s : Seq) : Written t [s] (push_extra BitStack.empty s)
      (t.ll.init_state2 (ll_code s.lit_len))
      (t.of.init_state2 (of_code s.offset_value)) (t.ml.init_state2 (ml_code s.match_len))
  | cons {seqs : List Seq} {st : BitStack} {x_ll x_of x_ml : Nat} (s : Seq)
      (h : Written t seqs st x_ll x_of x_ml) :
      Written t (s :: seqs)
        (push_extra (((st.push x_of (t.of.nb_bits_out x_of (of_code s.offset_value))).push x_ml
          (t.ml.nb_bits_out x_ml (ml_code s.match_len))).push x_ll
          (t.ll.nb_bits_out x_ll (ll_code s.lit_len))) s)
        (t.ll.next_state x_ll (ll_code s.lit_len)) (t.of.next_state x_of (of_code s.offset_value))
        (t.ml.next_state x_ml (ml_code s.match_len))

/-- The encoding tables of the channels with the decoding tables of the same counts. -/
structure Paired (c_ll c_of c_ml : List Int) (t : ChannelTables) (p : Plan) : Prop where
  ll : Inverts c_ll t.ll p.ll_table
  of : Inverts c_of t.of p.of_table
  ml : Inverts c_ml t.ml p.ml_table

/-- A sequence within the ranges of the format, whose codes the tables have. -/
structure Encodable (c_ll c_of c_ml : List Int) (s : Seq) : Prop where
  lit_len : s.lit_len ≤ 131071
  match_len_ge : 3 ≤ s.match_len
  match_len : s.match_len ≤ 131074
  offset_ge : 1 ≤ s.offset_value
  offset : s.offset_value < 2 ^ 32
  ll : c_ll.getD (ll_code s.lit_len) 0 ≠ 0
  of : c_of.getD (of_code s.offset_value) 0 ≠ 0
  ml : c_ml.getD (ml_code s.match_len) 0 ≠ 0

section Stream

variable {c_ll c_of c_ml : List Int} {t : ChannelTables} {p : Plan} {s : Seq} {seqs : List Seq}
  {st : BitStack} {x_ll x_of x_ml : Nat}

theorem Encodable.bits (h : Encodable c_ll c_of c_ml s) :
    LL_BITS.getD (ll_code s.lit_len) 0 ≤ 16 ∧ ML_BITS.getD (ml_code s.match_len) 0 ≤ 16 ∧
      of_code s.offset_value ≤ 31 :=
  ⟨(base_bits_le.1 _ (ll_code_spec h.lit_len).1).2,
    (base_bits_le.2 _ (ml_code_spec h.match_len_ge h.match_len).1).2,
    (of_code_spec h.offset_ge h.offset).1⟩

theorem Encodable.push_extra_len (h : Encodable c_ll c_of c_ml s) (st : BitStack) :
    (push_extra st s).len ≤ st.len + 63 := by
  obtain ⟨h1, h2, h3⟩ := h.bits
  simp only [push_extra, BitStack.push_len]
  omega

theorem Encodable.add_extra (h : Encodable c_ll c_of c_ml s) {bw : BitWriter} (hbw : bw.Holds st) :
    (add_extra bw s).Holds (push_extra st s) := by
  obtain ⟨h1, h2, h3⟩ := h.bits
  exact ((hbw.add _ (by omega)).add _ (by omega)).add _ (by omega)

/-- The states are above the sizes of their tables, and the bits are few. -/
theorem Written.range (hp : Paired c_ll c_of c_ml t p) (h : Written t seqs st x_ll x_of x_ml)
    (hs : ∀ s ∈ seqs, Encodable c_ll c_of c_ml s) :
    ∃ u_ll u_of u_ml, u_ll < 2 ^ p.ll_table.table_log ∧ u_of < 2 ^ p.of_table.table_log ∧
      u_ml < 2 ^ p.ml_table.table_log ∧ x_ll = 2 ^ p.ll_table.table_log + u_ll ∧
      x_of = 2 ^ p.of_table.table_log + u_of ∧ x_ml = 2 ^ p.ml_table.table_log + u_ml ∧
      st.len ≤ 90 * seqs.length := by
  induction h with
  | last s =>
    have he := hs s (by simp)
    obtain ⟨u_ll, h1, h2, -⟩ := hp.ll.start _ he.ll
    obtain ⟨u_of, h3, h4, -⟩ := hp.of.start _ he.of
    obtain ⟨u_ml, h5, h6, -⟩ := hp.ml.start _ he.ml
    have hlen := he.push_extra_len BitStack.empty
    rw [BitStack.empty_len] at hlen
    exact ⟨u_ll, u_of, u_ml, h1, h3, h5, h2, h4, h6, by simp only [List.length_singleton]; omega⟩
  | cons s _ ih =>
    have he := hs s (by simp)
    obtain ⟨v_ll, v_of, v_ml, h1, h3, h5, rfl, rfl, rfl, hlen⟩ :=
      ih fun s' hs' => hs s' (List.mem_cons_of_mem _ hs')
    obtain ⟨u_ll, hu1, nb1, -, hnb1, hle1, hn1, -⟩ := hp.ll.step _ v_ll he.ll h1
    obtain ⟨u_of, hu2, nb2, -, hnb2, hle2, hn2, -⟩ := hp.of.step _ v_of he.of h3
    obtain ⟨u_ml, hu3, nb3, -, hnb3, hle3, hn3, -⟩ := hp.ml.step _ v_ml he.ml h5
    have hlog1 := hp.ll.log_le
    have hlog2 := hp.of.log_le
    have hlog3 := hp.ml.log_le
    refine ⟨u_ll, u_of, u_ml, hu1, hu2, hu3, hn1, hn2, hn3, (he.push_extra_len _).trans ?_⟩
    simp only [BitStack.push_len, List.length_cons]
    omega

/-- The backward loop. -/
theorem write_seqs_spec (hp : Paired c_ll c_of c_ml t p) :
    ∀ (rest seqs : List Seq) (w : SeqWriter) (st : BitStack),
      (∀ s ∈ rest, Encodable c_ll c_of c_ml s) → (∀ s ∈ seqs, Encodable c_ll c_of c_ml s) →
      w.bw.Holds st → Written t seqs st w.st_ll w.st_of w.st_ml →
      ∃ st', (rest.foldl (write_seq t) w).bw.Holds st' ∧
        Written t (rest.reverse ++ seqs) st' (rest.foldl (write_seq t) w).st_ll
          (rest.foldl (write_seq t) w).st_of (rest.foldl (write_seq t) w).st_ml := by
  intro rest
  induction rest with
  | nil => intro seqs w st _ _ hbw hw; exact ⟨st, hbw, hw⟩
  | cons s rest ih =>
    intro seqs w st hrest hseqs hbw hw
    have he := hrest s (by simp)
    obtain ⟨v_ll, v_of, v_ml, h1, h3, h5, e1, e2, e3, -⟩ := hw.range hp hseqs
    obtain ⟨-, -, nb1, -, hnb1, hle1, -⟩ := hp.ll.step _ v_ll he.ll h1
    obtain ⟨-, -, nb2, -, hnb2, hle2, -⟩ := hp.of.step _ v_of he.of h3
    obtain ⟨-, -, nb3, -, hnb3, hle3, -⟩ := hp.ml.step _ v_ml he.ml h5
    have hlog1 := hp.ll.log_le
    have hlog2 := hp.of.log_le
    have hlog3 := hp.ml.log_le
    rw [← e1] at hnb1
    rw [← e2] at hnb2
    rw [← e3] at hnb3
    have hbw' : (write_seq t w s).bw.Holds _ :=
      he.add_extra (((hbw.add w.st_of
        (show t.of.nb_bits_out w.st_of (of_code s.offset_value) < 32 by omega)).add w.st_ml
        (show t.ml.nb_bits_out w.st_ml (ml_code s.match_len) < 32 by omega)).add w.st_ll
        (show t.ll.nb_bits_out w.st_ll (ll_code s.lit_len) < 32 by omega))
    obtain ⟨st', hholds, hwritten⟩ := ih (s :: seqs) (write_seq t w s) _
      (fun s' hs' => hrest s' (List.mem_cons_of_mem _ hs'))
      (List.forall_mem_cons.mpr ⟨he, hseqs⟩) hbw' (Written.cons s hw)
    refine ⟨st', hholds, ?_⟩
    rw [List.reverse_cons, List.append_assoc]
    exact hwritten

/-- The bits of a whole stream: the first three states lie above the sequences. -/
def with_states (t : ChannelTables) (st : BitStack) (x_ll x_of x_ml : Nat) : BitStack :=
  ((st.push x_ml t.ml.table_log).push x_of t.of.table_log).push x_ll t.ll.table_log

/-- What `encode_seq_bitstream` writes. -/
theorem encode_seq_bitstream_spec (hp : Paired c_ll c_of c_ml t p) (hne : seqs ≠ [])
    (hs : ∀ s ∈ seqs, Encodable c_ll c_of c_ml s) :
    ∃ st x_ll x_of x_ml, Written t seqs st x_ll x_of x_ml ∧
      (encode_seq_bitstream seqs t).length = (with_states t st x_ll x_of x_ml).len / 8 + 1 ∧
      leNat (encode_seq_bitstream seqs t)
        = (with_states t st x_ll x_of x_ml).val + 2 ^ (with_states t st x_ll x_of x_ml).len := by
  have hlog1 := hp.ll.log
  have hlog2 := hp.of.log
  have hlog3 := hp.ml.log
  have hle1 := hp.ll.log_le
  have hle2 := hp.of.log_le
  have hle3 := hp.ml.log_le
  cases hrev : seqs.reverse with
  | nil => exact absurd (List.reverse_eq_nil_iff.mp hrev) hne
  | cons last rest =>
    have hseqs : seqs = rest.reverse ++ [last] := by
      rw [← List.reverse_reverse seqs, hrev, List.reverse_cons]
    have hmem : ∀ s ∈ last :: rest, Encodable c_ll c_of c_ml s := fun s h =>
      hs s (List.mem_reverse.mp (hrev ▸ h))
    have hlast := hmem last (by simp)
    obtain ⟨st, hbw, hw⟩ := write_seqs_spec hp rest [last] (init_writer t last) _
      (fun s h => hmem s (List.mem_cons_of_mem _ h)) (by simpa using hlast)
      (hlast.add_extra BitWriter.new_holds) (Written.last last)
    rw [← hseqs] at hw
    refine ⟨st, _, _, _, hw, ?_⟩
    rw [encode_seq_bitstream, hrev]
    exact (((hbw.add _ (by omega)).add _ (by omega)).add _ (by omega)).finish

/-! ## What is read -/

/-- The triple of a sequence. -/
def Seq.triple (s : Seq) : Triple := ⟨s.lit_len, s.match_len, s.offset_value⟩

/-- The low bits are read in the reverse of the order they were written in. -/
theorem Encodable.read_triple (h : Encodable c_ll c_of c_ml s) {br : ReverseBitReader}
    (hbr : br.Holds (push_extra st s)) :
    ∃ br', read_triple (ll_code s.lit_len) (ml_code s.match_len) (of_code s.offset_value) br
        = .ok (s.triple, br') ∧ br'.Holds st := by
  obtain ⟨h1, h2, h3⟩ := h.bits
  obtain ⟨hll, hlit⟩ := ll_code_spec h.lit_len
  obtain ⟨hml, hmatch⟩ := ml_code_spec h.match_len_ge h.match_len
  obtain ⟨-, hoff⟩ := of_code_spec h.offset_ge h.offset
  have hv := h.offset
  have hl := h.lit_len
  have hm := h.match_len
  obtain ⟨b1, hr1, hb1, -⟩ := hbr.read_lazy (n := of_code s.offset_value) (by omega)
    (by rw [push_extra, BitStack.push_len]; omega)
  rw [push_extra, BitStack.top_push] at hr1
  rw [push_extra, BitStack.pop_push] at hb1
  obtain ⟨b2, hr2, hb2, -⟩ := hb1.read_lazy (n := ML_BITS.getD (ml_code s.match_len) 0) (by omega)
    (by rw [BitStack.push_len]; omega)
  rw [BitStack.top_push] at hr2
  rw [BitStack.pop_push] at hb2
  obtain ⟨b3, hr3, hb3, -⟩ := hb2.read_lazy (n := LL_BITS.getD (ll_code s.lit_len) 0) (by omega)
    (by rw [BitStack.push_len]; omega)
  rw [BitStack.top_push] at hr3
  rw [BitStack.pop_push] at hb3
  have hpow : 2 ^ of_code s.offset_value ≤ 2 ^ 31 := Nat.pow_le_pow_right (by decide) h3
  refine ⟨b3, ?_, hb3⟩
  unfold Sequences.read_triple
  rw [shl_exact (by omega) (by omega), bind_ok, Nat.one_mul, hr1, bind_ok]
  dsimp only
  rw [add_ok (by omega), bind_ok, get_eq_getD hml, bind_ok,
    get_eq_getD (show ml_code s.match_len < ML_BITS.length from hml), bind_ok, hr2, bind_ok]
  dsimp only
  rw [add_ok (by omega), bind_ok, get_eq_getD hll, bind_ok,
    get_eq_getD (show ll_code s.lit_len < LL_BITS.length from hll), bind_ok, hr3, bind_ok]
  dsimp only
  rw [add_ok (by omega), bind_ok, hlit, hmatch, hoff]
  rfl

/-- The reader in front of some sequences. -/
def Decodes3 (t : ChannelTables) (p : Plan) (seqs : List Seq) (r : SeqReader) : Prop :=
  ∃ st, Written t seqs st (2 ^ p.ll_table.table_log + r.s_ll) (2 ^ p.of_table.table_log + r.s_of)
    (2 ^ p.ml_table.table_log + r.s_ml) ∧ r.br.Holds st

/-- The codes of a sequence pass the check of the loop. -/
theorem Encodable.codes_in_range (h : Encodable c_ll c_of c_ml s) :
    ¬ (LL_BASE.length ≤ ll_code s.lit_len ∨ ML_BASE.length ≤ ml_code s.match_len ∨
      31 < of_code s.offset_value) := by
  have hll := (ll_code_spec h.lit_len).1
  have hml := (ml_code_spec h.match_len_ge h.match_len).1
  have hof := (of_code_spec h.offset_ge h.offset).1
  omega

/-- The last sequence: no state follows. -/
theorem read_step_last (hp : Paired c_ll c_of c_ml t p) (he : Encodable c_ll c_of c_ml s)
    {r : SeqReader} (h : Decodes3 t p [s] r) :
    ∃ r', p.read_step false r = .ok (s.triple, r') ∧ r'.br.Holds BitStack.empty := by
  obtain ⟨st, hw, hbr⟩ := h
  generalize hx1 : 2 ^ p.ll_table.table_log + r.s_ll = x_ll at hw
  generalize hx2 : 2 ^ p.of_table.table_log + r.s_of = x_of at hw
  generalize hx3 : 2 ^ p.ml_table.table_log + r.s_ml = x_ml at hw
  cases hw with
  | cons _ h => cases h
  | last =>
    obtain ⟨-, e_ll, hget1, hsym1⟩ := hp.ll.entry_start he.ll hx1
    obtain ⟨-, e_of, hget2, hsym2⟩ := hp.of.entry_start he.of hx2
    obtain ⟨-, e_ml, hget3, hsym3⟩ := hp.ml.entry_start he.ml hx3
    obtain ⟨br, hread, hbr'⟩ := he.read_triple hbr
    refine ⟨{ r with br }, ?_, hbr'⟩
    rw [Plan.read_step, hget1, bind_ok, hget3, bind_ok, hget2, bind_ok, hsym1, hsym2, hsym3,
      if_neg he.codes_in_range, hread, bind_ok]
    rfl

/-- A sequence before others: the states of the next one are read. -/
theorem read_step_more (hp : Paired c_ll c_of c_ml t p) (he : Encodable c_ll c_of c_ml s)
    (hs : ∀ s ∈ seqs, Encodable c_ll c_of c_ml s) (hne : seqs ≠ []) {r : SeqReader}
    (h : Decodes3 t p (s :: seqs) r) :
    ∃ r', p.read_step true r = .ok (s.triple, r') ∧ Decodes3 t p seqs r' := by
  obtain ⟨st, hw, hbr⟩ := h
  generalize hx1 : 2 ^ p.ll_table.table_log + r.s_ll = x_ll at hw
  generalize hx2 : 2 ^ p.of_table.table_log + r.s_of = x_of at hw
  generalize hx3 : 2 ^ p.ml_table.table_log + r.s_ml = x_ml at hw
  cases hw with
  | last => exact absurd rfl hne
  | cons _ hw' =>
    obtain ⟨v_ll, v_of, v_ml, h1, h3, h5, rfl, rfl, rfl, -⟩ := hw'.range hp hs
    obtain ⟨-, hle1, e_ll, hget1, hsym1, hn1, hnext1⟩ := hp.ll.entry_next he.ll h1 hx1
    obtain ⟨-, hle2, e_of, hget2, hsym2, hn2, hnext2⟩ := hp.of.entry_next he.of h3 hx2
    obtain ⟨-, hle3, e_ml, hget3, hsym3, hn3, hnext3⟩ := hp.ml.entry_next he.ml h5 hx3
    obtain ⟨br, hread, hbr'⟩ := he.read_triple hbr
    rw [← hn1] at hbr' hle1
    rw [← hn2] at hbr' hle2
    rw [← hn3] at hbr' hle3
    -- the three transitions fit one window
    obtain ⟨b0, hens, hb0, -, hfit⟩ :=
      hbr'.ensure (n := e_ll.num_bits + e_ml.num_bits + e_of.num_bits)
      (by omega) (by simp only [BitStack.push_len]; omega)
    obtain ⟨b1, hu1, hb1, hc1⟩ := hnext1 _ _ hb0 (by omega)
    obtain ⟨b2, hu2, hb2, hc2⟩ := hnext3 _ _ hb1 (by omega)
    obtain ⟨b3, hu3, hb3, -⟩ := hnext2 _ _ hb2 (by omega)
    refine ⟨⟨b3, v_ll, v_of, v_ml⟩, ?_, _, hw', hb3⟩
    rw [Plan.read_step, hget1, bind_ok, hget3, bind_ok, hget2, bind_ok, hsym1, hsym2, hsym3,
      if_neg he.codes_in_range, hread, bind_ok]
    dsimp only
    rw [if_pos rfl, add_ok (by omega), bind_ok, add_ok (by omega), bind_ok, hens, bind_ok, hu1,
      bind_ok]
    dsimp only
    rw [hu2, bind_ok]
    dsimp only
    rw [hu3]
    rfl

/-- All sequences are read in order, and the stream is used up. -/
theorem read_loop_spec (hp : Paired c_ll c_of c_ml t p) :
    ∀ (seqs : List Seq) (r : SeqReader), seqs ≠ [] → (∀ s ∈ seqs, Encodable c_ll c_of c_ml s) →
      Decodes3 t p seqs r →
      ∃ r', p.read_loop seqs.length r = .ok (seqs.map Seq.triple, r') ∧
        r'.br.Holds BitStack.empty := by
  intro seqs
  induction seqs with
  | nil => intro r hne; exact absurd rfl hne
  | cons s rest ih =>
    intro r _ hs h
    obtain ⟨he, hrest⟩ := List.forall_mem_cons.mp hs
    cases rest with
    | nil =>
      obtain ⟨r', hstep, hend⟩ := read_step_last hp he h
      refine ⟨r', ?_, hend⟩
      rw [List.length_singleton, Plan.read_loop, show decide (0 < 0) = false from rfl, hstep,
        bind_ok]
      rfl
    | cons s' rest =>
      obtain ⟨r₁, hstep, h₁⟩ := read_step_more hp he hrest (List.cons_ne_nil _ _) h
      obtain ⟨r', hloop, hend⟩ := ih r₁ (List.cons_ne_nil _ _) hrest h₁
      refine ⟨r', ?_, hend⟩
      rw [List.length_cons, Plan.read_loop, decide_eq_true (by simp), hstep, bind_ok]
      dsimp only
      rw [hloop]
      rfl

/-- The first states of a stream. -/
theorem read_states (hp : Paired c_ll c_of c_ml t p) (hw : Written t seqs st x_ll x_of x_ml)
    (hs : ∀ s ∈ seqs, Encodable c_ll c_of c_ml s) {src : Bytes} (hsrc : src.length < 2 ^ 63)
    (hlen : src.length = (with_states t st x_ll x_of x_ml).len / 8 + 1)
    (hval : leNat src = (with_states t st x_ll x_of x_ml).val
      + 2 ^ (with_states t st x_ll x_of x_ml).len) :
    ∃ br br1 br2 r, ReverseBitReader.new src = .ok br ∧ init p.ll_table br = .ok (r.s_ll, br1) ∧
      init p.of_table br1 = .ok (r.s_of, br2) ∧ init p.ml_table br2 = .ok (r.s_ml, r.br) ∧
      Decodes3 t p seqs r := by
  obtain ⟨u_ll, u_of, u_ml, h1, h2, h3, rfl, rfl, rfl, -⟩ := hw.range hp hs
  have hle1 := hp.ll.log_le
  have hle2 := hp.of.log_le
  have hle3 := hp.ml.log_le
  obtain ⟨br, hnew, hbrsrc, hbr⟩ := ReverseBitReader.new_holds hsrc hlen hval
  have hfit := hbr.fits_new (by rw [hbrsrc]; exact hlen)
    (m := p.ll_table.table_log + p.of_table.table_log + p.ml_table.table_log) (by omega)
    (by simp only [with_states, BitStack.push_len, hp.ll.log, hp.of.log, hp.ml.log]; omega)
  rw [with_states, hp.ll.log, hp.of.log, hp.ml.log] at hbr
  obtain ⟨br1, hr1, hb1, -, hc1⟩ := hbr.read (n := p.ll_table.table_log) (by omega)
    (by rw [BitStack.push_len]; omega) (by omega)
  rw [BitStack.top_push, Nat.add_mod_left, Nat.mod_eq_of_lt h1] at hr1
  rw [BitStack.pop_push] at hb1
  obtain ⟨br2, hr2, hb2, -, hc2⟩ := hb1.read (n := p.of_table.table_log) (by omega)
    (by rw [BitStack.push_len]; omega) (by omega)
  rw [BitStack.top_push, Nat.add_mod_left, Nat.mod_eq_of_lt h2] at hr2
  rw [BitStack.pop_push] at hb2
  obtain ⟨br3, hr3, hb3, -, -⟩ := hb2.read (n := p.ml_table.table_log) (by omega)
    (by rw [BitStack.push_len]; omega) (by omega)
  rw [BitStack.top_push, Nat.add_mod_left, Nat.mod_eq_of_lt h3] at hr3
  rw [BitStack.pop_push] at hb3
  exact ⟨br, br1, br2, ⟨br3, u_ll, u_of, u_ml⟩, hnew, hr1, hr2, hr3, st, hw, hb3⟩

end Stream

end ZstdPure.Encode
