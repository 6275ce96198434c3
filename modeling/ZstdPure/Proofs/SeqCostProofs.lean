import ZstdPure.Proofs.SeqSectionProofs

/-!
# The cost of a sequences section

The bitstream of a section is a list of fields: the extra bits of the sequences, and for each
channel the bits of its states. The cost that the planner computes for a channel is the number of
its state bits, so the least cost in each channel makes the shortest section. -/

namespace ZstdPure.Encode

open Outcome Fse Sequences

/-! ## Fields -/

/-- The three interleaved channels of the bitstream. -/
inductive SeqChannel
  | ll
  | of
  | ml
deriving DecidableEq, Repr

/-- The code of a sequence in a channel. -/
def SeqChannel.code : SeqChannel → Seq → Nat
  | .ll, s => ll_code s.lit_len
  | .of, s => of_code s.offset_value
  | .ml, s => ml_code s.match_len

/-- The table of a channel. -/
def ChannelTables.table (t : ChannelTables) : SeqChannel → FseCTable
  | .ll => t.ll
  | .of => t.of
  | .ml => t.ml

/-- One call of `add`: a state of a channel, or extra bits. -/
structure Field where
  channel : Option SeqChannel
  value : Nat
  nb : Nat
deriving DecidableEq, Repr

/-- The fields of `add_extra`. -/
def extra_fields (s : Seq) : List Field :=
  [⟨none, s.lit_len - LL_BASE.getD (ll_code s.lit_len) 0, LL_BITS.getD (ll_code s.lit_len) 0⟩,
    ⟨none, s.match_len - ML_BASE.getD (ml_code s.match_len) 0, ML_BITS.getD (ml_code s.match_len)
      0⟩,
    ⟨none, s.offset_value, of_code s.offset_value⟩]

/-- The state transitions in front of a sequence. -/
def state_fields (t : ChannelTables) (x : SeqChannel → Nat) (s : Seq) : List Field :=
  [.of, .ml, .ll].map fun c => ⟨some c, x c, (t.table c).nb_bits_out (x c) (c.code s)⟩

/-- The states after a sequence. -/
def next_states (t : ChannelTables) (x : SeqChannel → Nat) (s : Seq) (c : SeqChannel) : Nat :=
  (t.table c).next_state (x c) (c.code s)

/-- The fields of the backward loop, and those of the final states. -/
def loop_fields (t : ChannelTables) (x : SeqChannel → Nat) : List Seq → List Field
  | [] => [.ml, .of, .ll].map fun c => ⟨some c, x c, (t.table c).table_log⟩
  | s :: rest => state_fields t x s ++ (extra_fields s ++ loop_fields t (next_states t x s) rest)

/-- The fields of the bitstream, from the last sequence to the first. -/
def stream_fields (seqs : List Seq) (t : ChannelTables) : List Field :=
  match seqs.reverse with
  | [] => []
  | last :: rest =>
    extra_fields last ++ loop_fields t (fun c => (t.table c).init_state2 (c.code last)) rest

/-- The fields, added to a writer. -/
def add_fields (bw : BitWriter) (fs : List Field) : BitWriter :=
  fs.foldl (fun bw f => bw.add f.value f.nb) bw

/-- The number of bits of a channel, or of the extra bits. -/
def channel_bits (c : Option SeqChannel) (fs : List Field) : Nat :=
  (fs.map fun f => if f.channel = c then f.nb else 0).sum

section Fields

variable {t : ChannelTables} {seqs rest : List Seq}

theorem add_fields_append (bw : BitWriter) (fs gs : List Field) :
    add_fields bw (fs ++ gs) = add_fields (add_fields bw fs) gs := List.foldl_append

theorem channel_bits_append (c : Option SeqChannel) (fs gs : List Field) :
    channel_bits c (fs ++ gs) = channel_bits c fs + channel_bits c gs := by
  rw [channel_bits, List.map_append, List.sum_append]
  rfl

/-- The states of a writer. -/
def SeqWriter.states (w : SeqWriter) : SeqChannel → Nat
  | .ll => w.st_ll
  | .of => w.st_of
  | .ml => w.st_ml

theorem write_seq_fields (t : ChannelTables) (w : SeqWriter) (s : Seq) :
    (write_seq t w s).bw = add_fields w.bw (state_fields t w.states s ++ extra_fields s) ∧
      (write_seq t w s).states = next_states t w.states s := by
  refine ⟨rfl, funext fun c => ?_⟩
  cases c <;> rfl

/-- The writer of the backward loop adds its fields. -/
theorem flush_writer_fields : ∀ (rest : List Seq) (w : SeqWriter),
    flush_writer t (rest.foldl (write_seq t) w) =
      (add_fields w.bw (loop_fields t w.states rest)).finish := by
  intro rest
  induction rest with
  | nil => intro w; rfl
  | cons s rest ih =>
    intro w
    obtain ⟨hbw, hstates⟩ := write_seq_fields t w s
    rw [List.foldl_cons, ih, hbw, hstates, loop_fields, ← add_fields_append, List.append_assoc]

/-- The bitstream is its fields, in order. -/
theorem encode_seq_bitstream_fields (seqs : List Seq) (t : ChannelTables) :
    encode_seq_bitstream seqs t = (add_fields BitWriter.new (stream_fields seqs t)).finish := by
  rw [encode_seq_bitstream, stream_fields]
  cases seqs.reverse with
  | nil => rfl
  | cons last rest =>
    have hstates : (init_writer t last).states = fun c => (t.table c).init_state2 (c.code last) :=
      funext fun c => by cases c <;> rfl
    dsimp only
    rw [flush_writer_fields, hstates, add_fields_append]
    rfl

/-! ## The cost of a channel -/

/-- The bits of one state through some symbols, with the final flush. -/
def replay (ct : FseCTable) (x : Nat) : List Nat → Nat
  | [] => ct.table_log
  | c :: codes => ct.nb_bits_out x c + replay ct (ct.next_state x c) codes

theorem stream_cost_bits_eq (ct : FseCTable) (codes : List Nat) :
    ct.stream_cost_bits codes = replay ct (ct.init_state2 (codes.getLastD 0))
      codes.dropLast.reverse := by
  have hrun : ∀ (codes : List Nat) (x n : Nat), (codes.foldl (fun (s : Nat × Nat) c =>
      (ct.next_state s.1 c, s.2 + ct.nb_bits_out s.1 c)) (x, ct.table_log + n)).2
        = replay ct x codes + n := by
    intro codes
    induction codes with
    | nil => intro x n; rfl
    | cons c codes ih =>
      intro x n
      rw [List.foldl_cons, replay]
      dsimp only
      rw [Nat.add_assoc, ih]
      omega
  exact hrun _ _ 0

theorem channel_bits_state_fields (c : SeqChannel) (x : SeqChannel → Nat) (s : Seq) :
    channel_bits (some c) (state_fields t x s) = (t.table c).nb_bits_out (x c) (c.code s) := by
  cases c <;> simp [channel_bits, state_fields]

theorem channel_bits_extra_fields (c : SeqChannel) (s : Seq) :
    channel_bits (some c) (extra_fields s) = 0 := by
  simp [channel_bits, extra_fields]

theorem channel_bits_loop_fields (c : SeqChannel) : ∀ (rest : List Seq) (x : SeqChannel → Nat),
    channel_bits (some c) (loop_fields t x rest) = replay (t.table c) (x c) (rest.map c.code) := by
  intro rest
  induction rest with
  | nil => intro x; cases c <;> simp [channel_bits, loop_fields, replay]
  | cons s rest ih =>
    intro x
    rw [loop_fields, channel_bits_append, channel_bits_append, channel_bits_state_fields,
      channel_bits_extra_fields, ih, Nat.zero_add, List.map_cons, replay]
    rfl

/-- The cost of a channel is the number of its state bits. -/
theorem stream_cost_bits_fields (hne : seqs ≠ []) (t : ChannelTables) (c : SeqChannel) :
    (t.table c).stream_cost_bits (seqs.map c.code) = channel_bits (some c)
      (stream_fields seqs t) := by
  rw [stream_cost_bits_eq, stream_fields]
  cases hrev : seqs.reverse with
  | nil => exact absurd (List.reverse_eq_nil_iff.mp hrev) hne
  | cons last rest =>
    have hseqs : seqs = rest.reverse ++ [last] := by
      rw [← List.reverse_reverse seqs, hrev, List.reverse_cons]
    dsimp only
    rw [channel_bits_append, channel_bits_extra_fields, Nat.zero_add, channel_bits_loop_fields,
      hseqs,
      List.map_append, List.map_singleton, List.getLastD_concat, List.dropLast_concat,
      ← List.map_reverse,
      List.reverse_reverse]

/-- The extra bits of some sequences: the same with all tables. -/
def extra_bits (seqs : List Seq) : Nat := (seqs.map fun s => channel_bits none (extra_fields s)).sum

theorem channel_bits_none (seqs : List Seq) (t : ChannelTables) :
    channel_bits none (stream_fields seqs t) = extra_bits seqs := by
  have hloop : ∀ (rest : List Seq) (x : SeqChannel → Nat),
      channel_bits none (loop_fields t x rest) = extra_bits rest := by
    intro rest
    induction rest with
    | nil => intro x; simp [channel_bits, loop_fields, extra_bits]
    | cons s rest ih =>
      intro x
      have hstate : channel_bits none (state_fields t x s) = 0 := by simp [channel_bits,
        state_fields]
      rw [loop_fields, channel_bits_append, channel_bits_append, ih, hstate, Nat.zero_add,
        extra_bits,
        extra_bits, List.map_cons, List.sum_cons]
  rw [stream_fields]
  cases hrev : seqs.reverse with
  | nil =>
    rw [List.reverse_eq_nil_iff.mp hrev]
    rfl
  | cons last rest =>
    have hsum : extra_bits seqs = extra_bits seqs.reverse := by
      rw [extra_bits, extra_bits, List.map_reverse, List.sum_reverse]
    dsimp only
    rw [channel_bits_append, hloop, hsum, hrev, extra_bits, extra_bits, List.map_cons,
      List.sum_cons]

/-- Every field belongs to a channel or to the extra bits. -/
theorem sum_nb (fs : List Field) :
    (fs.map Field.nb).sum = channel_bits none fs + channel_bits (some .ll) fs
      + channel_bits (some .of) fs + channel_bits (some .ml) fs := by
  induction fs with
  | nil => rfl
  | cons f fs ih =>
    simp only [channel_bits, List.map_cons, List.sum_cons] at ih ⊢
    rcases hf : f.channel with _ | c
    · simp
      omega
    · cases c <;> simp <;> omega

end Fields

/-! ## The length of the bitstream -/

/-- A table with states for some symbols. -/
def Encodes (ct : FseCTable) (codes : List Nat) : Prop :=
  ∃ counts dt, Inverts counts ct dt ∧ ∀ c ∈ codes, counts.getD c 0 ≠ 0

section Length

variable {t : ChannelTables} {seqs : List Seq} {ct : FseCTable} {codes : List Nat}

/-- The bits that are written are those of the fields. -/
theorem length_add_fields {fs : List Field} (hnb : ∀ f ∈ fs, f.nb < 32) :
    (add_fields BitWriter.new fs).finish.length = (fs.map Field.nb).sum / 8 + 1 := by
  have hrun : ∀ (fs : List Field) (bw : BitWriter) (st : BitStack), (∀ f ∈ fs, f.nb < 32) →
      bw.Holds st → ∃ st', (add_fields bw fs).Holds st' ∧ st'.len = st.len +
        (fs.map Field.nb).sum := by
    intro fs
    induction fs with
    | nil => intro bw st _ h; exact ⟨st, h, rfl⟩
    | cons f fs ih =>
      intro bw st hnb h
      obtain ⟨hf, hfs⟩ := List.forall_mem_cons.mp hnb
      obtain ⟨st', hst', hlen⟩ := ih _ _ hfs (h.add f.value hf)
      refine ⟨st', hst', ?_⟩
      rw [hlen, BitStack.push_len, List.map_cons, List.sum_cons]
      omega
  obtain ⟨st, hst, hlen⟩ := hrun fs BitWriter.new BitStack.empty hnb BitWriter.new_holds
  rw [hst.finish.1, hlen, BitStack.empty_len, Nat.zero_add]

theorem Seq.InRange.extra_fields_nb {s : Seq} (h : s.InRange) : ∀ f ∈ extra_fields s,
    f.nb < 32 := by
  have h1 := (base_bits_le.1 _ (ll_code_spec h.lit_len).1).2
  have h2 := (base_bits_le.2 _ (ml_code_spec h.match_len_ge h.match_len).1).2
  have h3 := (of_code_spec h.offset_ge h.offset).1
  intro f hf
  simp only [extra_fields, List.mem_cons, List.not_mem_nil, or_false] at hf
  rcases hf with rfl | rfl | rfl
  · exact lt_of_le_of_lt h1 (by decide)
  · exact lt_of_le_of_lt h2 (by decide)
  · exact lt_of_le_of_lt h3 (by decide)

/-- A state of a table, with what the next symbol makes of it. -/
theorem Encodes.step {counts : List Int} {dt : FseDecodeTable} (hinv : Inverts counts ct dt)
    {x c : Nat}
    (hx : ∃ v < 2 ^ dt.table_log, x = 2 ^ dt.table_log + v) (hc : counts.getD c 0 ≠ 0) :
    ct.nb_bits_out x c ≤ ct.table_log ∧ ∃ v < 2 ^ dt.table_log, ct.next_state x c =
      2 ^ dt.table_log + v := by
  obtain ⟨v, hv, rfl⟩ := hx
  obtain ⟨u, hu, nb, -, hnb, hle, hnext, -⟩ := hinv.step c v hc hv
  rw [hinv.log, hnb]
  exact ⟨hle, u, hu, hnext⟩

/-- The widths of the fields of a loop whose states are in range. -/
theorem loop_fields_nb {counts : SeqChannel → List Int} {dt : SeqChannel → FseDecodeTable}
    (hinv : ∀ c, Inverts (counts c) (t.table c) (dt c)) : ∀ (rest : List Seq) (x : SeqChannel →
      Nat),
    (∀ s ∈ rest, s.InRange ∧ ∀ c : SeqChannel, (counts c).getD (c.code s) 0 ≠ 0) →
    (∀ c, ∃ v < 2 ^ (dt c).table_log, x c = 2 ^ (dt c).table_log + v) →
    ∀ f ∈ loop_fields t x rest, f.nb < 32 := by
  have hlog : ∀ c, (t.table c).table_log < 32 := fun c => by
    rw [(hinv c).log]
    exact lt_of_le_of_lt (hinv c).log_le (by decide)
  intro rest
  induction rest with
  | nil =>
    intro x _ _ f hf
    rw [loop_fields, List.mem_map] at hf
    obtain ⟨c, -, rfl⟩ := hf
    exact hlog c
  | cons s rest ih =>
    intro x hs hx f hf
    obtain ⟨⟨hrange, hcodes⟩, hrest⟩ := List.forall_mem_cons.mp hs
    have hstep := fun c => Encodes.step (hinv c) (hx c) (hcodes c)
    rw [loop_fields, List.mem_append, List.mem_append] at hf
    rcases hf with hf | hf | hf
    · rw [state_fields, List.mem_map] at hf
      obtain ⟨c, -, rfl⟩ := hf
      exact lt_of_le_of_lt (hstep c).1 (hlog c)
    · exact hrange.extra_fields_nb f hf
    · exact ih _ hrest (fun c => (hstep c).2) f hf

/-- The length of the bitstream: the extra bits, and the costs of the channels. -/
theorem length_encode_seq_bitstream_eq (hne : seqs ≠ []) (hs : ∀ s ∈ seqs, s.InRange)
    (ht : ∀ c : SeqChannel, Encodes (t.table c) (seqs.map c.code)) :
    (encode_seq_bitstream seqs t).length
      = (extra_bits seqs + t.ll.stream_cost_bits (seqs.map SeqChannel.ll.code)
        + t.of.stream_cost_bits (seqs.map SeqChannel.of.code)
        + t.ml.stream_cost_bits (seqs.map SeqChannel.ml.code)) / 8 + 1 := by
  choose counts dt hinv hcodes using ht
  have hnb : ∀ f ∈ stream_fields seqs t, f.nb < 32 := by
    rw [stream_fields]
    cases hrev : seqs.reverse with
    | nil => exact fun f hf => absurd hf (by simp)
    | cons last rest =>
      have hmem : ∀ s ∈ last :: rest, s.InRange ∧ ∀ c : SeqChannel, (counts c).getD (c.code s) 0 ≠
        0 := by
        intro s h
        have h' : s ∈ seqs := List.mem_reverse.mp (hrev ▸ h)
        exact ⟨hs s h', fun c => hcodes c _ (List.mem_map_of_mem h')⟩
      obtain ⟨⟨hlast, hlastc⟩, hrest⟩ := List.forall_mem_cons.mp hmem
      intro f hf
      rcases List.mem_append.mp hf with hf | hf
      · exact hlast.extra_fields_nb f hf
      · refine loop_fields_nb hinv rest _ hrest (fun c => ?_) f hf
        obtain ⟨u, hu, hstart, -⟩ := (hinv c).start _ (hlastc c)
        exact ⟨u, hu, hstart⟩
  have hcost := stream_cost_bits_fields hne t
  rw [encode_seq_bitstream_fields, length_add_fields hnb, sum_nb, channel_bits_none,
    ← hcost .ll, ← hcost .of, ← hcost .ml]
  rfl

/-- A table of one position costs nothing. -/
theorem Encodes.cost_zero (h : Encodes ct codes) (hne : codes ≠ []) (hlog : ct.table_log = 0) :
    ct.stream_cost_bits codes = 0 := by
  obtain ⟨counts, dt, hinv, hcodes⟩ := h
  have hrun : ∀ (cs : List Nat) (x : Nat), (∀ c ∈ cs, counts.getD c 0 ≠ 0) →
      (∃ v < 2 ^ dt.table_log, x = 2 ^ dt.table_log + v) → replay ct x cs = 0 := by
    intro cs
    induction cs with
    | nil => intro x _ _; exact hlog
    | cons c cs ih =>
      intro x hcs hx
      obtain ⟨hc, hrest⟩ := List.forall_mem_cons.mp hcs
      obtain ⟨hnb, hnext⟩ := Encodes.step hinv hx hc
      rw [replay, ih _ hrest hnext]
      omega
  have hlast : codes.getLastD 0 ∈ codes := by
    rw [List.getLastD_eq_getLast?, List.getLast?_eq_some_getLast hne]
    exact List.getLast_mem hne
  obtain ⟨u, hu, hstart, -⟩ := hinv.start _ (hcodes _ hlast)
  rw [stream_cost_bits_eq]
  exact hrun _ _ (fun c hc => hcodes c (List.mem_of_mem_dropLast (List.mem_reverse.mp hc)))
    ⟨u, hu, hstart⟩

end Length

/-! ## The candidates of a channel -/

/-- The plans that are considered for a channel: the predefined table when every code fits it, a
single symbol when there is one distinct code, a table of its own when there are more, and the
previous table when it has every code. -/
inductive Considered (ch : Channel) (codes : List Nat) (prev : Option FseCTable) : ChannelPlan →
    Prop
  | predefined (fits : ∀ c ∈ codes, c ≤ ch.max_symbol) :
      Considered ch codes prev (plan_predefined codes ch.dist ch.max_symbol ch.log).2
  | rle (one : codes.toFinset.card = 1) : Considered ch codes prev (plan_rle codes).2
  | fse (more : 2 ≤ codes.toFinset.card) : Considered ch codes prev
      (plan_fse codes (codes.foldl max 0) ch.max_log (code_histogram codes (codes.foldl max 0))).2
  | repeated {t : FseCTable} (mem : t ∈ prev) (can : t.can_encode codes = true) :
      Considered ch codes prev (plan_repeat codes t).2

/-- The bits of a plan: the states and the description. -/
def plan_bits (codes : List Nat) (plan : ChannelPlan) : Nat :=
  plan.ct.stream_cost_bits codes + 8 * plan.header.length

section Candidates

variable {ch : Channel} {cache : Option FseDecodeTable} {codes : List Nat} {prev : Option FseCTable}
  {plan : ChannelPlan}

/-- The counts that are not zero are those of the distinct codes. -/
theorem num_present_eq (codes : List Nat) :
    (code_histogram codes (codes.foldl max 0)).countP (0 < ·) = codes.toFinset.card := by
  have hlen := length_code_histogram codes
  have hget : ∀ c, (code_histogram codes (codes.foldl max 0)).getD c 0 = codes.count c := fun c =>
    Tally.getD_tally_zero (lt_max_succ codes) c
  have hlist : code_histogram codes (codes.foldl max 0)
      = (List.range (codes.foldl max 0 + 1)).map fun c => codes.count c := by
    refine List.ext_getElem (by rw [hlen, List.length_map, List.length_range]) fun i h1 h2 => ?_
    rw [← List.getD_eq_getElem _ 0, hget, List.getElem_map, List.getElem_range]
  have hset : codes.toFinset
      = ((List.range (codes.foldl max 0 + 1)).filter fun c =>
        decide (0 < codes.count c)).toFinset := by
    ext c
    rw [List.mem_toFinset, List.mem_toFinset, List.mem_filter, List.mem_range, decide_eq_true_iff,
      List.count_pos_iff]
    exact ⟨fun h => ⟨lt_max_succ codes c h, h⟩, And.right⟩
  rw [hset, List.toFinset_card_of_nodup (List.nodup_range.filter _), hlist, List.countP_map,
    List.countP_eq_length_filter]
  rfl

/-- The candidates of the planner are the plans that are considered. -/
theorem considered_iff :
    Considered ch codes prev plan ↔
      ∃ cost, (cost, plan) ∈ candidates codes ch.dist ch.max_symbol ch.log ch.max_log prev := by
  have hnum := num_present_eq codes
  have hfits : codes.foldl max 0 ≤ ch.max_symbol ↔ ∀ c ∈ codes, c ≤ ch.max_symbol := by
    constructor
    · exact fun h c hc => (Tally.le_foldl_max hc).trans h
    · intro h
      rcases eq_or_ne codes [] with rfl | hne
      · exact Nat.zero_le _
      · exact h _ (Tally.foldl_max_mem hne)
  constructor
  · rintro (h | h | h | ⟨hmem, hcan⟩)
    · exact ⟨_, mem_candidates_iff.mpr (.predefined (hfits.mpr h))⟩
    · exact ⟨_, mem_candidates_iff.mpr (.rle (hnum.trans h))⟩
    · exact ⟨_, mem_candidates_iff.mpr (.fse (by rwa [hnum]))⟩
    · exact ⟨_, mem_candidates_iff.mpr (.repeated hmem hcan)⟩
  · rintro ⟨cost, hc⟩
    generalize hp : (cost, plan) = p at hc
    obtain rfl : plan = p.2 := congrArg Prod.snd hp
    cases mem_candidates_iff.mp hc with
    | predefined h => exact .predefined (hfits.mp h)
    | rle h => exact .rle (hnum.symm.trans h)
    | fse h => exact .fse (by rwa [← hnum])
    | repeated hmem hcan => exact .repeated hmem hcan

theorem ChannelPlan.Good.encodes (h : plan.Good ch cache codes) : Encodes plan.ct codes := by
  obtain ⟨dt, counts, -, hinv, hcodes, -⟩ := h.table
  exact ⟨counts, dt, hinv, hcodes⟩

/-- The cost of a candidate is the number of its bits. -/
theorem candidate_cost (hne : codes ≠ []) {c : Nat × ChannelPlan} (hgood : c.2.Good ch cache codes)
    (hc : c ∈ candidates codes ch.dist ch.max_symbol ch.log ch.max_log prev) :
    c.1 = plan_bits codes c.2 := by
  cases mem_candidates_iff.mp hc with
  | predefined h => rfl
  | rle h =>
    rw [plan_bits, hgood.encodes.cost_zero hne rfl]
    rfl
  | fse h => exact congrArg _ (Nat.mul_comm _ _)
  | repeated hmem hcan => rfl

end Candidates

/-! ## The section -/

/-- The tables of earlier sections: each of them was made from valid counts or for one symbol, so it
has a decoding table. -/
structure SeqCTables.Built (prev : SeqCTables) : Prop where
  ll : ∀ ct ∈ prev.ll, ∃ dt, Related ct dt
  of : ∀ ct ∈ prev.of, ∃ dt, Related ct dt
  ml : ∀ ct ∈ prev.ml, ∃ dt, Related ct dt

/-- A table that was made is one whose decoding table is cached. -/
theorem exists_cache {prev : Option FseCTable} (h : ∀ ct ∈ prev, ∃ dt, Related ct dt) :
    ∃ cache : Option FseDecodeTable, ∀ ct ∈ prev, ∃ dt ∈ cache, Related ct dt := by
  cases prev with
  | none => exact ⟨none, fun ct hct => absurd hct (by simp)⟩
  | some ct =>
    obtain ⟨dt, hdt⟩ := h ct rfl
    refine ⟨some dt, ?_⟩
    rintro _ ⟨⟩
    exact ⟨dt, rfl, hdt⟩

section Section

variable {seqs : List Seq} {prev : SeqCTables}

/-- Three plans, one considered for each channel. -/
structure Plans (seqs : List Seq) (prev : SeqCTables) (ll of ml : ChannelPlan) : Prop where
  ll : Considered ll_channel (seqs.map SeqChannel.ll.code) prev.ll ll
  of : Considered of_channel (seqs.map SeqChannel.of.code) prev.of of
  ml : Considered ml_channel (seqs.map SeqChannel.ml.code) prev.ml ml

/-- What the planner picks for one channel: no plan that is considered has fewer bits. -/
theorem plan_channel_optimal {ch : Channel} {codes : List Nat} {prev : Option FseCTable}
    (hch : ch.Valid)
    (hne : codes ≠ []) (hcodes : ∀ c ∈ codes, c < 2 ^ ch.max_log) (h256 : ∀ c ∈ codes, c < 256)
    (hprev : ∀ ct ∈ prev, ∃ dt, Related ct dt) :
    (∀ plan, Considered ch codes prev plan → Encodes plan.ct codes) ∧
      Considered ch codes prev (plan_channel codes ch.dist ch.max_symbol ch.log ch.max_log prev) ∧
      ∀ plan, Considered ch codes prev plan →
        plan_bits codes (plan_channel codes ch.dist ch.max_symbol ch.log ch.max_log prev)
          ≤ plan_bits codes plan := by
  obtain ⟨cache, hcache⟩ := exists_cache hprev
  have hgood := candidates_good prev hch hne hcodes h256 hcache
  obtain ⟨cost, hmem, hleast⟩ := @plan_channel_least ch codes prev hne
  refine ⟨fun plan h => ?_, considered_iff.mpr ⟨cost, hmem⟩, fun plan h => ?_⟩
  · obtain ⟨c, hc⟩ := considered_iff.mp h
    exact (hgood _ hc).encodes
  · obtain ⟨c, hc⟩ := considered_iff.mp h
    have hpicked := candidate_cost hne (hgood _ hmem) hmem
    have hplan := candidate_cost hne (hgood _ hc) hc
    have hle := hleast _ hc
    dsimp only at hpicked hplan hle
    omega

/-- The codes of sequences within the ranges. -/
theorem code_lt (hs : ∀ s ∈ seqs, s.InRange) :
    (∀ c ∈ seqs.map SeqChannel.ll.code, c < 36) ∧ (∀ c ∈ seqs.map SeqChannel.of.code, c < 32) ∧
      ∀ c ∈ seqs.map SeqChannel.ml.code, c < 53 := by
  refine ⟨fun c hc => ?_, fun c hc => ?_, fun c hc => ?_⟩
  · obtain ⟨s, hmem, rfl⟩ := List.mem_map.mp hc
    exact (ll_code_spec (hs s hmem).lit_len).1
  · obtain ⟨s, hmem, rfl⟩ := List.mem_map.mp hc
    exact Nat.lt_succ_of_le (of_code_spec (hs s hmem).offset_ge (hs s hmem).offset).1
  · obtain ⟨s, hmem, rfl⟩ := List.mem_map.mp hc
    exact (ml_code_spec (hs s hmem).match_len_ge (hs s hmem).match_len).1

/-- The length of a section: a part that all plans share, and the bits of the plans in whole bytes.
-/
theorem length_section_bytes {ll of ml : ChannelPlan} (hne : seqs ≠ []) (hs : ∀ s ∈ seqs, s.InRange)
    (hll : Encodes ll.ct (seqs.map SeqChannel.ll.code))
      (hof : Encodes of.ct (seqs.map SeqChannel.of.code))
    (hml : Encodes ml.ct (seqs.map SeqChannel.ml.code)) :
    (section_bytes seqs ll of ml).length = (write_seq_count seqs.length).length + 2
      + (extra_bits seqs + plan_bits (seqs.map SeqChannel.ll.code) ll
        + plan_bits (seqs.map SeqChannel.of.code) of + plan_bits (seqs.map SeqChannel.ml.code) ml) /
          8 := by
  have hstream := @length_encode_seq_bitstream_eq ⟨ll.ct, of.ct, ml.ct⟩ seqs hne hs fun c => by
    cases c
    · exact hll
    · exact hof
    · exact hml
  simp only [section_bytes, List.length_append, List.length_singleton, hstream, plan_bits]
  omega

/-- `write_sequences` writes the section of the plans that it picked. -/
theorem write_sequences_section (hne : seqs ≠ []) :
    (write_sequences seqs prev).1 = section_bytes seqs
      (plan_channel (seqs.map SeqChannel.ll.code) ll_channel.dist ll_channel.max_symbol
        ll_channel.log
        ll_channel.max_log prev.ll)
      (plan_channel (seqs.map SeqChannel.of.code) of_channel.dist of_channel.max_symbol
        of_channel.log
        of_channel.max_log prev.of)
      (plan_channel (seqs.map SeqChannel.ml.code) ml_channel.dist ml_channel.max_symbol
        ml_channel.log
        ml_channel.max_log prev.ml) := by
  rw [write_sequences, if_neg (by simpa using hne)]
  simp only [section_bytes, List.append_assoc]
  rfl

/-- The section with the predefined tables is one of those that are considered. -/
theorem write_sequences_predefined_section (hne : seqs ≠ []) :
    write_sequences_predefined seqs = section_bytes seqs
      (plan_predefined (seqs.map SeqChannel.ll.code) ll_channel.dist ll_channel.max_symbol
        ll_channel.log).2
      (plan_predefined (seqs.map SeqChannel.of.code) of_channel.dist of_channel.max_symbol
        of_channel.log).2
      (plan_predefined (seqs.map SeqChannel.ml.code) ml_channel.dist ml_channel.max_symbol
        ml_channel.log).2 := by
  have hmodes : UInt8.ofNat (0 <<< 6 ||| 0 <<< 4 ||| 0 <<< 2) = 0 := by decide
  rw [write_sequences_predefined, if_neg (by simpa using hne), section_bytes, plan_predefined,
    plan_predefined, plan_predefined]
  dsimp only
  rw [hmodes, List.append_assoc]
  rfl

end Section

/-- The cost of a channel is the number of its state bits in the bitstream; the section that is
written is that of three plans that are considered, and no three such plans make a shorter one. So
it is never longer than the section with the predefined tables, where these have every code. -/
theorem write_sequences_optimal (seqs : List Seq) (prev : SeqCTables) (hne : seqs ≠ [])
    (hs : ∀ s ∈ seqs, s.InRange) (hprev : prev.Built) :
    (∀ t : ChannelTables,
        encode_seq_bitstream seqs t = (add_fields BitWriter.new (stream_fields seqs t)).finish ∧
        ∀ c : SeqChannel, (t.table c).stream_cost_bits (seqs.map c.code)
          = channel_bits (some c) (stream_fields seqs t)) ∧
      (∃ ll of ml, Plans seqs prev ll of ml ∧
        (write_sequences seqs prev).1 = section_bytes seqs ll of ml) ∧
      (∀ ll of ml, Plans seqs prev ll of ml →
        (write_sequences seqs prev).1.length ≤ (section_bytes seqs ll of ml).length) ∧
      ((∀ s ∈ seqs, of_code s.offset_value ≤ OF_PRED_MAX) →
        (write_sequences seqs prev).1.length ≤ (write_sequences_predefined seqs).length) := by
  obtain ⟨hll, hof, hml⟩ := code_lt hs
  obtain ⟨henc1, hcons1, hleast1⟩ := plan_channel_optimal ll_channel_valid (by simpa using hne)
    (fun c hc => lt_of_lt_of_le (hll c hc) (by decide))
      (fun c hc => lt_trans (hll c hc) (by decide)) hprev.ll
  obtain ⟨henc2, hcons2, hleast2⟩ := plan_channel_optimal of_channel_valid (by simpa using hne)
    (fun c hc => lt_of_lt_of_le (hof c hc) (by decide))
      (fun c hc => lt_trans (hof c hc) (by decide)) hprev.of
  obtain ⟨henc3, hcons3, hleast3⟩ := plan_channel_optimal ml_channel_valid (by simpa using hne)
    (fun c hc => lt_of_lt_of_le (hml c hc) (by decide))
      (fun c hc => lt_trans (hml c hc) (by decide)) hprev.ml
  have hwrite := @write_sequences_section seqs prev hne
  have hmin : ∀ ll of ml, Plans seqs prev ll of ml →
      (write_sequences seqs prev).1.length ≤ (section_bytes seqs ll of ml).length := by
    intro ll of ml h
    have h1 := hleast1 ll h.ll
    have h2 := hleast2 of h.of
    have h3 := hleast3 ml h.ml
    rw [hwrite, length_section_bytes hne hs (henc1 _ hcons1) (henc2 _ hcons2) (henc3 _ hcons3),
      length_section_bytes hne hs (henc1 _ h.ll) (henc2 _ h.of) (henc3 _ h.ml)]
    exact Nat.add_le_add_left (Nat.div_le_div_right (by omega)) _
  refine ⟨fun t => ⟨encode_seq_bitstream_fields seqs t, stream_cost_bits_fields hne t⟩,
    ⟨_, _, _, ⟨hcons1, hcons2, hcons3⟩, hwrite⟩, hmin, fun hfits => ?_⟩
  rw [write_sequences_predefined_section hne]
  refine hmin _ _ _ ⟨.predefined fun c hc => ?_, .predefined fun c hc => ?_, .predefined fun c hc =>
    ?_⟩
  · exact Nat.le_of_lt_succ (hll c hc)
  · obtain ⟨s, hmem, rfl⟩ := List.mem_map.mp hc
    exact hfits s hmem
  · exact Nat.le_of_lt_succ (hml c hc)

/-- `write_sequences_optimal` on two sequences after a block that kept a table of one symbol. -/
theorem write_sequences_optimal_two :
    (write_sequences [⟨1, 5, 4⟩, ⟨0, 131074, 70000⟩] ⟨some (build_rle_ctable 3), none,
      none⟩).1.length
      ≤ (write_sequences_predefined [⟨1, 5, 4⟩, ⟨0, 131074, 70000⟩]).length := by
  refine (write_sequences_optimal [⟨1, 5, 4⟩, ⟨0, 131074, 70000⟩] ⟨some (build_rle_ctable 3), none,
    none⟩
    (by simp) (fun s hs => ?_) ⟨?_, by simp, by simp⟩).2.2.2 (fun s hs => ?_)
  · simp only [List.mem_cons, List.not_mem_nil, or_false] at hs
    rcases hs with rfl | rfl
    · exact ⟨by decide, by decide, by decide, by decide, by decide⟩
    · exact ⟨by decide, by decide, by decide, by decide, by decide⟩
  · rintro _ ⟨⟩
    exact ⟨_, Related.rle (by decide)⟩
  · simp only [List.mem_cons, List.not_mem_nil, or_false] at hs
    rcases hs with rfl | rfl <;> decide

end ZstdPure.Encode
