import ZstdPure.Proofs.SeqSectionProofs
import ZstdPure.Proofs.WindowProofs

/-!
# Proofs: the decoder replays a parse

The sequences of a valid parse fit their section, and the decoder that executes them puts out the
bytes parsed, with the repeat offsets of the parse. -/

namespace ZstdPure.Encode

open List (extendBack extendBack_eq_take)

open Outcome Sequences

/-! ## The sequences of a block -/

section Block

variable {data : Bytes} {p q : Nat} {rep rep' : Reps} {seqs : List Seq}

/-- A resolved offset value is no zero. -/
theorem offset_value_pos {offset_value off : Nat} {ll0 : Bool}
    (h : resolve_offset rep offset_value ll0 = .ok (off, rep')) : 1 ≤ offset_value := by
  by_contra h0
  obtain rfl : offset_value = 0 := by omega
  rw [resolve_offset, if_neg (by decide)] at h
  obtain ⟨code, hcode, -⟩ := bind_eq_ok.mp h
  have hle := (sub_eq_ok.mp hcode).1
  omega

/-- The sequences of a block are within the ranges of the format. -/
theorem Replays.in_range (h : Replays data p rep seqs q rep') (hblock : q - p ≤ BLOCK_SIZE_MAX)
    (hfields : ∀ s ∈ seqs, s.offset_value < 2 ^ 32) : ∀ s ∈ seqs, s.InRange := by
  have hmin : MIN_MATCH = 4 := rfl
  have hmax : BLOCK_SIZE_MAX = 131072 := rfl
  induction h with
  | nil => exact fun s hs => absurd hs List.not_mem_nil
  | @cons p q off rep rep' rep_out s seqs resolved bound long real rest ih =>
    have hle := rest.le
    intro s' hs'
    rcases List.mem_cons.mp hs' with rfl | hs'
    · exact ⟨by omega, by omega, by omega, offset_value_pos resolved, hfields _ List.mem_cons_self⟩
    · exact ih (by omega) (fun s hs => hfields s (List.mem_cons_of_mem _ hs)) s' hs'

/-- Every sequence is at least as long as a match. -/
theorem Replays.length_le (h : Replays data p rep seqs q rep') : seqs.length * 4 ≤ q - p := by
  have hmin : MIN_MATCH = 4 := rfl
  induction h with
  | nil => exact Nat.zero_le _
  | @cons p q off rep rep' rep_out s seqs resolved bound long real rest ih =>
    have hle := rest.le
    rw [List.length_cons]
    omega

theorem length_range (data : Bytes) {p q : Nat} (hq : q ≤ data.length) :
    (range_of data p q).length = q - p := by
  rw [range_of, List.length_drop, List.length_take, min_eq_left hq]

theorem Replays.length_literals (h : Replays data p rep seqs q rep') (hq : q ≤ data.length) :
    (literal_runs data p seqs).length = (seqs.map Seq.lit_len).sum := by
  induction h with
  | nil => rfl
  | @cons p q off rep rep' rep_out s seqs resolved bound long real rest ih =>
    have hle := rest.le
    rw [literal_runs, List.length_append, List.map_cons, List.sum_cons, ih hq,
      length_range data (by omega), Nat.add_sub_cancel_left]

theorem Replays.length_literals_le (h : Replays data p rep seqs q rep') (hq : q ≤ data.length) :
    (literal_runs data p seqs).length ≤ q - p := by
  induction h with
  | nil => exact Nat.zero_le _
  | @cons p q off rep rep' rep_out s seqs resolved bound long real rest ih =>
    have hle := rest.le
    have htail := ih hq
    rw [literal_runs, List.length_append, length_range data (by omega)]
    omega

/-- A replay can stop after any sequence. -/
theorem Replays.split (h : Replays data p rep seqs q rep') (k : Nat) :
    ∃ mid rep_mid, Replays data p rep (seqs.take k) mid rep_mid ∧
      Replays data mid rep_mid (seqs.drop k) q rep' := by
  induction h generalizing k with
  | nil p rep => exact ⟨p, rep, by rw [List.take_nil]; exact Replays.nil p rep, by
      rw [List.drop_nil]; exact Replays.nil p rep⟩
  | @cons p q off rep rep' rep_out s seqs resolved bound long real rest ih =>
    cases k with
    | zero => exact ⟨p, rep, Replays.nil p rep, Replays.cons resolved bound long real rest⟩
    | succ k =>
      obtain ⟨mid, rep_mid, h₁, h₂⟩ := ih k
      exact ⟨mid, rep_mid, Replays.cons resolved bound long real h₁, h₂⟩

/-- The parse of a range cut after any sequence is a parse of each part. -/
theorem ValidParse.halves {c : Candidate} {start stop : Nat} (h : ValidParse data start stop rep c)
    (hstop : stop ≤ data.length) (k : Nat) :
    ∃ mid rep_mid, start ≤ mid ∧ mid ≤ stop ∧
      ValidParse data start mid rep ⟨⟨c.parse.seqs.take k,
        c.parse.literals.take ((c.parse.seqs.take k).map Seq.lit_len).sum⟩, rep_mid⟩ ∧
      ValidParse data mid stop rep_mid ⟨⟨c.parse.seqs.drop k,
        c.parse.literals.drop ((c.parse.seqs.take k).map Seq.lit_len).sum⟩, c.rep⟩ := by
  obtain ⟨last, hlast, hreplays, hlits⟩ := h
  obtain ⟨mid, rep_mid, h₁, h₂⟩ := hreplays.split k
  have hle := h₂.le
  have hlen := h₁.length_literals (by omega)
  have hruns : c.parse.literals = literal_runs data start (c.parse.seqs.take k) ++
      (literal_runs data mid (c.parse.seqs.drop k) ++ range_of data last stop) := by
    rw [hlits, ← List.append_assoc, ← literal_runs_append h₁, List.take_append_drop]
  refine ⟨mid, rep_mid, h₁.le, by omega, ⟨mid, le_refl mid, h₁, ?_⟩, ⟨last, hlast, h₂, ?_⟩⟩
  · show c.parse.literals.take _ = _
    rw [hruns, List.take_left' hlen, range_of, List.drop_eq_nil_of_le (List.length_take_le _ _),
      List.append_nil]
  · show c.parse.literals.drop _ = _
    rw [hruns, List.drop_left' hlen]

/-- Within four gigabytes, offset values and repeat offsets fit their fields. -/
theorem Replays.fields (h : Replays data p rep seqs q rep') (hrep : Fits32 rep)
    (hq : q + 3 < 2 ^ 32) :
    (∀ s ∈ seqs, s.offset_value < 2 ^ 32) ∧ Fits32 rep' := by
  induction h with
  | nil => exact ⟨fun s hs => absurd hs List.not_mem_nil, hrep⟩
  | @cons p q off rep rep' rep_out s seqs resolved bound long real rest ih =>
    have hle := rest.le
    have hback := real.2.1
    obtain ⟨hfields, hfits⟩ := ih
      (hrep.resolve (offset_value_pos resolved) resolved (by omega)) hq
    refine ⟨?_, hfits⟩
    intro s' hs'
    rcases List.mem_cons.mp hs' with rfl | hs'
    · omega
    · exact hfields s' hs'

/-! ## Partial knowledge of the repeat offsets -/

/-- Every repeat offset is that of the other side, or is unknown and zero. -/
structure Knows (rep rep' : Reps) : Prop where
  r0 : rep.r0 = 0 ∨ rep.r0 = rep'.r0
  r1 : rep.r1 = 0 ∨ rep.r1 = rep'.r1
  r2 : rep.r2 = 0 ∨ rep.r2 = rep'.r2

theorem Knows.refl (rep : Reps) : Knows rep rep := ⟨Or.inr rfl, Or.inr rfl, Or.inr rfl⟩

theorem Knows.unknown (rep : Reps) : Knows ⟨0, 0, 0⟩ rep := ⟨Or.inl rfl, Or.inl rfl, Or.inl rfl⟩

/-- What is known of repeat offsets within the window is within it. -/
theorem Knows.within {window : Nat} {rep rep' : Reps} (h : Knows rep rep')
    (hw : Within window rep') :
    Within window rep := by
  obtain ⟨h0, h1, h2⟩ := h
  obtain ⟨w0, w1, w2⟩ := hw
  exact ⟨by omega, by omega, by omega⟩

/-- An offset resolved from what is known is resolved by the other side as well: no code of an
unknown offset resolves to a distance. -/
theorem Knows.resolve {known known' : Reps} {offset_value off : Nat} {ll0 : Bool}
    (h : Knows known rep) (hoff : 1 ≤ off)
    (hres : resolve_offset known offset_value ll0 = .ok (off, known')) :
    ∃ rep', resolve_offset rep offset_value ll0 = .ok (off, rep') ∧ Knows known' rep' := by
  obtain ⟨h0, h1, h2⟩ := h
  have hpos := offset_value_pos hres
  rw [resolve_offset_ok known hpos] at hres
  have hres := Except.ok.inj hres
  rw [resolve_offset_ok rep hpos]
  unfold Reps.resolve at hres ⊢
  by_cases hbig : 3 < offset_value
  · rw [if_pos hbig] at hres ⊢
    obtain ⟨rfl, rfl⟩ := Prod.mk.inj hres
    exact ⟨_, rfl, Or.inr rfl, h0, h1⟩
  · rw [if_neg hbig] at hres ⊢
    generalize offset_value - 1 + ll0.toNat = code at hres ⊢
    match code with
    | 0 =>
      obtain ⟨rfl, rfl⟩ := Prod.mk.inj hres
      rw [h0.resolve_left (by omega)]
      exact ⟨_, rfl, h0, h1, h2⟩
    | 1 =>
      obtain ⟨rfl, rfl⟩ := Prod.mk.inj hres
      rw [h1.resolve_left (by omega)]
      exact ⟨_, rfl, Or.inr rfl, h0, h2⟩
    | 2 =>
      obtain ⟨rfl, rfl⟩ := Prod.mk.inj hres
      rw [h2.resolve_left (by omega)]
      exact ⟨_, rfl, Or.inr rfl, h0, h1⟩
    | n + 3 =>
      obtain ⟨rfl, rfl⟩ := Prod.mk.inj hres
      rw [h0.resolve_left (by omega)]
      exact ⟨_, rfl, Or.inr rfl, Or.inr rfl, h1⟩

theorem Replays.known {known known' : Reps} (h : Replays data p known seqs q known')
    (hk : Knows known rep) : ∃ rep', Replays data p rep seqs q rep' ∧ Knows known' rep' := by
  induction h generalizing rep with
  | nil p known => exact ⟨rep, Replays.nil p rep, hk⟩
  | cons resolved bound long real rest ih =>
    obtain ⟨rep₁, hres, hk₁⟩ := hk.resolve real.1 resolved
    obtain ⟨rep₂, hrest, hk₂⟩ := ih hk₁
    exact ⟨rep₂, Replays.cons hres bound long real hrest, hk₂⟩

/-- Both sides through the sequences of a parse: before the first one and after every one, what the
encoder knows belongs to the decoder's repeat offsets, and from what it knows the encoder resolves
every offset to the distance that the decoder does. -/
inductive KnowsAlong : Reps → Reps → List Seq → Reps → Reps → Prop
  | nil {known rep : Reps} (knows : Knows known rep) : KnowsAlong known rep [] known rep
  | cons {off : Nat} {known known' known_out rep rep' rep_out : Reps} {s : Seq} {seqs : List Seq}
    (knows : Knows known rep)
    (encoder : resolve_offset known s.offset_value (s.lit_len == 0) = .ok (off, known'))
    (decoder : resolve_offset rep s.offset_value (s.lit_len == 0) = .ok (off, rep'))
    (distance : 1 ≤ off)
    (rest : KnowsAlong known' rep' seqs known_out rep_out) :
    KnowsAlong known rep (s :: seqs) known_out rep_out

theorem Replays.knows_along {known known' : Reps} {q' : Nat}
    (h : Replays data p known seqs q known')
    (h' : Replays data p rep seqs q' rep') (hk : Knows known rep) :
    KnowsAlong known rep seqs known' rep' := by
  induction h generalizing rep with
  | nil =>
    cases h'
    exact .nil hk
  | cons resolved bound long real rest ih =>
    cases h' with
    | cons resolved' _ _ _ rest' =>
      obtain ⟨rep₁, hres, hk₁⟩ := hk.resolve real.1 resolved
      obtain ⟨rfl, rfl⟩ := Prod.mk.inj (Except.ok.inj (hres.symm.trans resolved'))
      exact .cons hk resolved hres real.1 (ih rest' hk₁)

/-- A parse that is valid from what is known of the repeat offsets is valid from the repeat offsets,
and it ends with the same ones if all are known. -/
theorem ValidParse.known {known : Reps} {c : Candidate} {start stop : Nat}
    (h : ValidParse data start stop known c) (hk : Knows known rep) :
    ∃ rep', ValidParse data start stop rep ⟨c.parse, rep'⟩ ∧ Knows c.rep rep' ∧
      (known = rep → c.rep = rep') := by
  by_cases hall : known = rep
  · subst hall
    exact ⟨c.rep, h, Knows.refl _, fun _ => rfl⟩
  · obtain ⟨last, hlast, hreplays, hlits⟩ := h
    obtain ⟨rep', hreplays', hk'⟩ := hreplays.known hk
    exact ⟨rep', ⟨last, hlast, hreplays', hlits⟩, hk', fun heq => absurd heq hall⟩

end Block

/-! ## One sequence -/

section Execution

variable {data pre : Bytes} {p q off : Nat} {rep rep' : Reps} {seqs : List Seq} {env : ExecEnv}
  {s : ExecState} {t : Triple}

theorem take_append_range (data : Bytes) {p q : Nat} (hpq : p ≤ q) :
    data.take p ++ range_of data p q = data.take q := by
  have htake : data.take p = (data.take q).take p := by rw [List.take_take, min_eq_left hpq]
  rw [htake, range_of, List.take_append_drop]

/-- A real match extends the bytes before it. -/
theorem extendBack_real {len : Nat} (real : RealMatch data p len off)
    (hin : p + len ≤ data.length) :
    extendBack (pre ++ data.take p) off len = pre ++ data.take (p + len) := by
  obtain ⟨h1, hoff, heq⟩ := real
  have htake : ∀ n, pre ++ data.take n = (pre ++ data).take (pre.length + n) := by
    intro n
    rw [List.take_append, List.take_of_length_le (Nat.le_add_right _ _), Nat.add_sub_cancel_left]
  rw [htake, htake, ← Nat.add_assoc]
  refine extendBack_eq_take h1 (by omega) (by rw [List.length_append]; omega) ?_
  intro i hi
  have hbyte := heq i hi
  have hat : ∀ k, k < data.length → (pre ++ data)[pre.length + k]? = some (byte_at data k) := by
    intro k hk
    rw [List.getElem?_append_right (Nat.le_add_right _ _), Nat.add_sub_cancel_left,
      List.getElem?_eq_getElem hk, byte_at, List.getD_eq_getElem _ _ hk]
  rw [Nat.add_assoc pre.length p i, hat _ (by omega), Nat.add_sub_assoc (by omega),
    hat _ (by omega),
    hbyte, Nat.sub_add_comm hoff]

/-- The output after the literals and the match of a sequence. -/
theorem executed_out (hout : s.out = pre ++ data.take p)
    (hlits : (env.literals.drop s.lit_pos).take t.lit_len = range_of data p (p + t.lit_len))
    (real : RealMatch data (p + t.lit_len) t.match_len off)
    (hin : p + t.lit_len + t.match_len ≤ data.length) (rep : Reps) :
    (s.executed env t off rep).out = pre ++ data.take (p + t.lit_len + t.match_len) := by
  show extendBack (s.out ++ (env.literals.drop s.lit_pos).take t.lit_len) off t.match_len = _
  rw [hout, hlits, List.append_assoc, take_append_range data (Nat.le_add_right _ _),
    extendBack_real real hin]

/-! ## Within the window -/

/-- The matches executed so far, and the repeat offsets, are within the window. -/
structure ExecNear (window : Nat) (s : ExecState) : Prop where
  rep : Within window s.rep
  matches_ : ∀ m ∈ s.matches_, m.distance ≤ window

/-- From repeat offsets within the window, what such an offset value is executed as is within it. -/
theorem ExecNear.triple {window : Nat} (h : ExecNear window s) {ll0 : Bool}
    (hov : t.offset_value ≤ window + 3) {s' : ExecState}
    (hexec : exec_triple env ll0 t s = .ok s') :
    ExecNear window s' := by
  unfold exec_triple at hexec
  obtain ⟨⟨off, rep⟩, hres, hexec⟩ := bind_eq_ok.mp hexec
  have hnear := h.rep.resolve hov ll0
  rw [resolve_offset_ok s.rep (offset_value_pos hres)] at hres
  rw [Except.ok.inj hres] at hnear
  dsimp only at hexec hnear
  obtain ⟨-, hexec⟩ := guard_eq_ok.mp hexec
  obtain ⟨total, -, hexec⟩ := bind_eq_ok.mp hexec
  obtain ⟨room, -, hexec⟩ := bind_eq_ok.mp hexec
  obtain ⟨-, hexec⟩ := guard_eq_ok.mp hexec
  obtain ⟨lit_end, -, hexec⟩ := bind_eq_ok.mp hexec
  obtain ⟨-, hexec⟩ := guard_eq_ok.mp hexec
  obtain ⟨lits, -, hexec⟩ := bind_eq_ok.mp hexec
  obtain ⟨-, hexec⟩ := guard_eq_ok.mp hexec
  obtain ⟨copied, -, hexec⟩ := bind_eq_ok.mp hexec
  rw [← Except.ok.inj hexec]
  refine ⟨hnear.2, ?_⟩
  intro m hm
  rcases List.mem_append.mp hm with hm | hm
  · exact h.matches_ m hm
  · rw [List.mem_singleton.mp hm]
    exact hnear.1

theorem ExecNear.triples {window : Nat} (ts : List Triple)
    (hts : ∀ t ∈ ts, t.offset_value ≤ window + 3) :
    ∀ {s s' : ExecState}, ExecNear window s → exec_triples env ts s = .ok s' →
    ExecNear window s' := by
  induction ts with
  | nil =>
    intro s s' h hexec
    rw [← Except.ok.inj hexec]
    exact h
  | cons t ts ih =>
    intro s s' h hexec
    rw [exec_triples, List.foldlM_cons] at hexec
    obtain ⟨s₁, hfirst, hrest⟩ := bind_eq_ok.mp hexec
    exact ih (fun t' ht' => hts t' (List.mem_cons_of_mem t ht'))
      (h.triple (hts t List.mem_cons_self) hfirst) hrest

/-! ## All sequences -/

/-- What the execution of a parse up to `q` needs room for. -/
structure ExecRoom (data pre : Bytes) (q : Nat) (env : ExecEnv) : Prop where
  inside : q ≤ data.length
  room : pre.length + q ≤ env.dict_len + env.max_output
  literals : env.literals.length < 2 ^ 63
  word : pre.length + data.length < 2 ^ 63

/-- A state in which the bytes before `p` are put out, and the literals left are `lits`. -/
structure Executing (data pre : Bytes) (p : Nat) (rep : Reps) (env : ExecEnv) (lits : Bytes)
    (s : ExecState) : Prop where
  out : s.out = pre ++ data.take p
  dict : env.dict_len ≤ s.out.length
  rep : s.rep = rep
  lit_pos : s.lit_pos ≤ env.literals.length
  lits : env.literals.drop s.lit_pos = lits

theorem Executing.length_out {lits : Bytes} (h : Executing data pre p rep env lits s)
    (hp : p ≤ data.length) : s.out.length = pre.length + p := by
  rw [h.out, List.length_append, List.length_take, min_eq_left hp]

/-- One sequence of a parse is executed as it stands. -/
theorem Executing.sequence {lits : Bytes} {q' : Nat} {seq : Seq}
    (h : Executing data pre p rep env (range_of data p (p + seq.lit_len) ++ lits) s)
    (room : ExecRoom data pre q env) (hq' : q' ≤ q) (hnext : p + seq.lit_len + seq.match_len = q')
    (hrange : seq.InRange)
    (resolved : resolve_offset rep seq.offset_value (seq.lit_len == 0) = .ok (off, rep'))
    (real : RealMatch data (p + seq.lit_len) seq.match_len off) :
    ∃ s', exec_triple env (seq.lit_len == 0) seq.triple s = .ok s' ∧
      Executing data pre q' rep' env lits s' := by
  have hin := room.inside
  have hcap := room.room
  have hword := room.word
  have hdict := h.dict
  have hlen := h.length_out (by omega)
  have hposn := h.lit_pos
  have hlen' : (range_of data p (p + seq.lit_len)).length = seq.lit_len := by
    rw [length_range data (by omega), Nat.add_sub_cancel_left]
  have hlits : (env.literals.drop s.lit_pos).length = seq.lit_len + lits.length := by
    rw [h.lits, List.length_append, hlen']
  rw [List.length_drop] at hlits
  have hbounded : seq.triple.Bounded :=
    ⟨hrange.offset_ge, lt_of_le_of_lt hrange.lit_len (by norm_num), hrange.match_len_ge,
      lt_of_le_of_lt hrange.match_len (by norm_num)⟩
  have hfits : s.Fits env seq.triple := by
    refine ⟨hdict, hposn, room.literals, hbounded, fun _ => ?_⟩
    show s.out.length + seq.lit_len + seq.match_len < 2 ^ 64
    omega
  have hres : s.rep.resolve seq.triple.offset_value (seq.lit_len == 0) = (off, rep') := by
    rw [h.rep]
    have hok := resolve_offset_ok rep hrange.offset_ge (seq.lit_len == 0)
    rw [resolved] at hok
    exact (Except.ok.inj hok).symm
  have hroom : ¬ s.room env < seq.triple.lit_len + seq.triple.match_len := by
    show ¬ env.max_output - (s.out.length - env.dict_len) < seq.lit_len + seq.match_len
    omega
  have hfirst := real.1
  have hback := real.2.1
  have hexec := exec_triple_eq (seq.lit_len == 0) hfits
  rw [hres, if_neg (Nat.ne_of_gt hfirst), if_neg hroom,
    if_neg (by show ¬ env.literals.length < s.lit_pos + seq.lit_len; omega),
    if_neg (by show ¬ s.out.length + seq.lit_len < off; omega)] at hexec
  have htake : (env.literals.drop s.lit_pos).take seq.triple.lit_len =
      range_of data p (p + seq.triple.lit_len) := by
    rw [h.lits]
    exact List.take_left' hlen'
  have hout := executed_out h.out htake real (by show p + seq.lit_len + seq.match_len ≤ _; omega)
    rep'
  refine ⟨_, hexec, ?_, ?_, rfl, ?_, ?_⟩
  · rw [hout, ← hnext]
    rfl
  · rw [hout, List.length_append, List.length_take]
    show env.dict_len ≤ pre.length + min (p + seq.lit_len + seq.match_len) data.length
    omega
  · show s.lit_pos + seq.lit_len ≤ _
    omega
  · show env.literals.drop (s.lit_pos + seq.lit_len) = lits
    rw [← List.drop_drop, h.lits]
    exact List.drop_left' hlen'

/-- The sequences of a parse are executed one after the other. -/
theorem Replays.exec (h : Replays data p rep seqs q rep') (room : ExecRoom data pre q env)
    (hrange : ∀ s ∈ seqs, s.InRange) {tail : Bytes}
    (he : Executing data pre p rep env (literal_runs data p seqs ++ tail) s) :
    ∃ s', exec_triples env (seqs.map Seq.triple) s = .ok s' ∧
      Executing data pre q rep' env tail s' := by
  induction h generalizing s with
  | nil => exact ⟨s, rfl, he⟩
  | @cons p q off rep rep' rep_out seq seqs resolved bound long real rest ih =>
    rw [literal_runs, List.append_assoc] at he
    obtain ⟨s₁, hexec, he₁⟩ := he.sequence room rest.le rfl (hrange _ List.mem_cons_self) resolved
      real
    obtain ⟨s₂, hrun, he₂⟩ := ih room (fun s hs => hrange s (List.mem_cons_of_mem _ hs)) he₁
    refine ⟨s₂, ?_, he₂⟩
    rw [exec_triples, List.map_cons, List.foldlM_cons]
    show (exec_triple env (seq.lit_len == 0) seq.triple s >>= _) = _
    rw [hexec, bind_ok]
    exact hrun

/-! ## The section -/

/-- The literals after the last sequence. -/
theorem Executing.trailing {tail : Bytes} (h : Executing data pre p rep env tail s)
    (hp : p ≤ data.length) (hroom : pre.length + p + tail.length ≤ env.dict_len + env.max_output)
    (tables : SeqTables) :
    trailing_literals env tables s = .ok ⟨s.out ++ tail, tables, s.rep, s.matches_⟩ := by
  have hlen := h.length_out hp
  have hdict := h.dict
  have htail := congrArg List.length h.lits
  rw [List.length_drop] at htail
  rw [trailing_literals, sub_ok h.lit_pos, bind_ok, headroom_ok h.dict, bind_ok, if_neg (by omega),
    sliceFrom_ok h.lit_pos, bind_ok, h.lits]
  rfl

theorem sequences_plan_empty (tables : SeqTables) :
    sequences_plan (write_seq_count 0) tables = .ok none := rfl

/-- The section of a valid parse puts out the bytes parsed, and both sides keep tables that belong
together. -/
theorem ValidParse.decode_capped {c : Candidate} {start stop window : Nat}
    (h : ValidParse data start stop rep c) (hstop : stop ≤ data.length)
    (hblock : stop - start ≤ BLOCK_SIZE_MAX) (hfields : ∀ s ∈ c.parse.seqs, s.offset_value < 2 ^ 32)
    (hnear : Near window c.parse.seqs) {prev : SeqCTables} {cache : SeqTables}
    (hrel : RelatedTables prev cache) {dict_len max_output : Nat}
    (hdict : dict_len ≤ pre.length + start) (hroom : pre.length + stop ≤ dict_len + max_output)
    (hword : pre.length + data.length < 2 ^ 63) :
    ∃ r, decode_capped (write_sequences c.parse.seqs prev).1 c.parse.literals
        (pre ++ data.take start) cache rep dict_len max_output = .ok r ∧
      r.out = pre ++ data.take stop ∧ r.rep = c.rep ∧
      RelatedTables (write_sequences c.parse.seqs prev).2 r.tables ∧
      (Within window rep → Within window c.rep ∧ ∀ m ∈ r.matches_, m.distance ≤ window) := by
  obtain ⟨last, hlast, hreplays, hlits⟩ := h
  have hmax : BLOCK_SIZE_MAX = 131072 := rfl
  have hle := hreplays.le
  have htail : (range_of data last stop).length = stop - last := length_range data hstop
  have hruns := hreplays.length_literals_le (hlast.trans hstop)
  have hlen : c.parse.literals.length < 2 ^ 63 := by
    rw [hlits, List.length_append, htail]
    omega
  have hout : (pre ++ data.take start).length = pre.length + start := by
    rw [List.length_append, List.length_take, min_eq_left (by omega)]
  by_cases hne : c.parse.seqs = []
  · -- no sequence: the literals are the block
    rw [hne] at hreplays hlits ⊢
    cases hreplays
    have hwrite : write_sequences [] prev = (write_seq_count 0, prev) := rfl
    rw [hwrite, hlits, decode_capped_eq, sequences_plan_empty, bind_ok]
    dsimp only
    rw [literals_only, headroom_ok (by rw [hout]; exact hdict), bind_ok, literal_runs,
      List.nil_append,
      hout, htail, if_neg (by omega)]
    refine ⟨_, rfl, ?_, rfl, hrel, fun hrep => ⟨hrep, fun m hm => absurd hm List.not_mem_nil⟩⟩
    show pre ++ data.take start ++ range_of data start stop = _
    rw [List.append_assoc, take_append_range data hlast]
  · have hrange := hreplays.in_range (by omega) hfields
    have hcount := hreplays.length_le
    obtain ⟨p, r, hplan, hvalid, hnb, hloop, -, hrel'⟩ :=
      sequences_plan_write_sequences hne (by omega) hrange hrel
    have room : ExecRoom data pre last (p.env c.parse.literals dict_len max_output) :=
      ⟨hlast.trans hstop, by show _ ≤ dict_len + max_output; omega, hlen, hword⟩
    have hstart : Executing data pre start rep (p.env c.parse.literals dict_len max_output)
        (literal_runs data start c.parse.seqs ++ range_of data last stop)
        (p.start (pre ++ data.take start) rep) :=
      ⟨rfl, by show dict_len ≤ (pre ++ data.take start).length; omega, rfl, Nat.zero_le _, hlits⟩
    obtain ⟨s', hrun, hs'⟩ := hreplays.exec room hrange hstart
    have htrail := hs'.trailing (hlast.trans hstop)
      (by show _ ≤ dict_len + max_output; omega) p.tables
    rw [decode_capped_read hplan hvalid hloop, hrun, bind_ok, htrail]
    refine ⟨_, rfl, ?_, hs'.rep, hrel', fun hrep => ?_⟩
    · show s'.out ++ range_of data last stop = _
      rw [hs'.out, List.append_assoc, take_append_range data hlast]
    · have hexec := ExecNear.triples _ (fun t ht => ?_)
        (⟨hrep, fun m hm => absurd hm List.not_mem_nil⟩ : ExecNear window (p.start _ rep)) hrun
      · have hrep' := hexec.rep
        rw [hs'.rep] at hrep'
        exact ⟨hrep', hexec.matches_⟩
      · obtain ⟨q, hq, rfl⟩ := List.mem_map.mp ht
        exact hnear q hq

end Execution

end ZstdPure.Encode
