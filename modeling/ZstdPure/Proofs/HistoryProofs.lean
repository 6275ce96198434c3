import ZstdPure.Proofs.TraceProofs

/-!
# Decoding with more or less history

A block decodes to the same bytes whatever stands in its buffer before the bytes its matches reach,
and whatever its ceiling, as long as the output fits. `lift` puts a prefix in front of the buffer
and changes the ceiling; the two simulations say when a run on one side gives a run on the other.
-/

namespace ZstdPure

open Outcome Fse Sequences List

namespace Sequences

/-! ## One sequence -/

/-- A match seen from a buffer with `n` more bytes in front. -/
def Match.shift (n : Nat) (m : Match) : Match := ⟨m.hist + n, m.distance⟩

/-- The state with `pre` in front of its buffer. -/
def ExecState.lift (pre : Bytes) (s : ExecState) : ExecState :=
  { s with out := pre ++ s.out, matches_ := s.matches_.map (Match.shift pre.length) }

/-- The inputs with another ceiling. -/
def ExecEnv.lift (dict_len max_output : Nat) (env : ExecEnv) : ExecEnv :=
  { env with dict_len, max_output }

theorem ExecEnv.lift_literals (dict_len max_output : Nat) (env : ExecEnv) :
    (env.lift dict_len max_output).literals = env.literals := rfl

/-- The buffer `out` fits under the ceiling of `env`. -/
structure ExecEnv.Room (env : ExecEnv) (out : Bytes) : Prop where
  ceiling : out.length ≤ env.dict_len + env.max_output
  word : out.length < 2 ^ 64

theorem ExecEnv.Room.mono {env : ExecEnv} {out out' : Bytes} (h : env.Room out')
    (hle : out.length ≤ out'.length) : env.Room out :=
  ⟨hle.trans h.ceiling, lt_of_le_of_lt hle h.word⟩

/-- The copy of a match does not depend on the bytes before those it reaches. -/
theorem copy_match_lift {out : Bytes} {off n : Nat} (pre : Bytes) (h0 : 0 < off)
    (hle : off ≤ out.length) (hlen : (pre ++ out).length + n < 2 ^ 64) :
    ∃ r, copy_match out off n = .ok r ∧ copy_match (pre ++ out) off n = .ok (pre ++ r) := by
  rw [List.length_append] at hlen
  refine ⟨extendBack out off n, copy_match_ok h0 hle (by omega), ?_⟩
  rw [copy_match_ok h0 (by rw [List.length_append]; omega) (by rw [List.length_append]; omega),
    List.extendBack_append pre hle n]

/-- What a triple needs besides its own bytes to run with `pre` in front of the buffer. -/
theorem exec_triple_lift {env : ExecEnv} {ll0 : Bool} {t : Triple} {s : ExecState} (pre : Bytes)
    {dict_len max_output : Nat} (hdict : dict_len ≤ pre.length + s.out.length) :
    Simulates (fun s' => (env.lift dict_len max_output).Room (pre ++ s'.out))
      (fun s' t' => t' = s'.lift pre)
      (exec_triple env ll0 t s) (exec_triple (env.lift dict_len max_output) ll0 t
        (s.lift pre)) := by
  rw [exec_triple, exec_triple]
  refine Simulates.after ?_
  rintro ⟨off, rep⟩ -
  refine Simulates.guard (fun h0 _ _ _ => h0) fun h0 => Simulates.after fun total htotal => ?_
  have htotal' := (add_eq_ok.mp htotal).2
  intro s' h hroom
  obtain ⟨room, hr, h⟩ := bind_eq_ok.mp h
  obtain ⟨hfit, h⟩ := guard_eq_ok.mp h
  obtain ⟨lit_end, hend, h⟩ := bind_eq_ok.mp h
  obtain ⟨hl, h⟩ := guard_eq_ok.mp h
  obtain ⟨lits, hlits, h⟩ := bind_eq_ok.mp h
  obtain ⟨hoff, h⟩ := guard_eq_ok.mp h
  obtain ⟨copied, hcopy, h⟩ := bind_eq_ok.mp h
  have hs' := Except.ok.inj h
  have hout : s'.out = copied := by rw [← hs']
  obtain ⟨hpre, hlen⟩ := copy_match_ensures _ hcopy
  have hlits' : lits.length = t.lit_len := by
    have hle := (slice_eq_ok.mp hlits).1.2
    rw [(slice_eq_ok.mp hlits).2, List.length_drop, List.length_take, (add_eq_ok.mp hend).2]
    rw [(add_eq_ok.mp hend).2] at hle
    omega
  have hceil := hroom.ceiling
  have hword := hroom.word
  rw [hout, List.length_append, hlen, List.length_append, hlits'] at hceil hword
  rw [List.length_append] at hlen
  obtain ⟨r, hr₁, hr₂⟩ := copy_match_lift (n := t.match_len) pre (Nat.pos_of_ne_zero h0)
    (Nat.le_of_not_lt hoff) (by rw [List.length_append, List.length_append]; omega)
  rw [hcopy] at hr₁
  obtain rfl := Except.ok.inj hr₁
  refine ⟨s'.lift pre, ?_, rfl⟩
  have hroom' : headroom dict_len max_output (pre ++ s.out)
      = .ok (max_output - ((pre ++ s.out).length - dict_len)) :=
    headroom_ok (by rw [List.length_append]; exact hdict)
  have hoff' : ¬ (pre ++ s.out ++ lits).length < off := by
    rw [List.length_append, List.length_append]
    rw [List.length_append] at hoff
    omega
  have hroom'' : headroom (env.lift dict_len max_output).dict_len
      (env.lift dict_len max_output).max_output (s.lift pre).out = .ok _ := hroom'
  have hceil' : pre.length + (s.out.length + t.lit_len + t.match_len) ≤ dict_len + max_output :=
    hceil
  rw [ExecEnv.lift_literals, hroom'', bind_ok, if_neg (by rw [List.length_append]; omega),
    show (s.lift pre).lit_pos = s.lit_pos from rfl, hend, bind_ok, if_neg hl, hlits, bind_ok]
  dsimp only
  rw [show (s.lift pre).out = pre ++ s.out from rfl, if_neg hoff', List.append_assoc, hr₂, bind_ok,
    ← hs', pure_eq_ok]
  simp [ExecState.lift, Match.shift, Nat.add_comm]

/-- The matches of a lifted run reach no byte of the prefix. -/
structure Unlifts (pre : Bytes) (env : ExecEnv) (out : Bytes) (matches_ : List Match) : Prop where
  ceiling : out.length ≤ pre.length + (env.dict_len + env.max_output)
  word : out.length < 2 ^ 64
  reach : ∀ m ∈ matches_, pre.length + m.distance ≤ m.hist

/-- The converse of `exec_triple_lift`, for a match that reaches no byte of the prefix. -/
theorem exec_triple_unlift {env : ExecEnv} {ll0 : Bool} {t : Triple} {s : ExecState} (pre : Bytes)
    {dict_len max_output : Nat} (hdict : env.dict_len ≤ s.out.length) :
    Simulates (fun t' => Unlifts pre env t'.out t'.matches_) (fun t' s' => t' = s'.lift pre)
      (exec_triple (env.lift dict_len max_output) ll0 t (s.lift pre))
      (exec_triple env ll0 t s) := by
  rw [exec_triple, exec_triple]
  refine Simulates.after ?_
  rintro ⟨off, rep⟩ -
  refine Simulates.guard (fun h0 _ _ _ => h0) fun h0 => Simulates.after fun total htotal => ?_
  have htotal' := (add_eq_ok.mp htotal).2
  intro t' h hun
  obtain ⟨room, hr, h⟩ := bind_eq_ok.mp h
  obtain ⟨hfit, h⟩ := guard_eq_ok.mp h
  obtain ⟨lit_end, hend, h⟩ := bind_eq_ok.mp h
  obtain ⟨hl, h⟩ := guard_eq_ok.mp h
  obtain ⟨lits, hlits, h⟩ := bind_eq_ok.mp h
  obtain ⟨hoff, h⟩ := guard_eq_ok.mp h
  obtain ⟨copied, hcopy, h⟩ := bind_eq_ok.mp h
  have ht' := Except.ok.inj h
  have hout : t'.out = copied := by rw [← ht']
  obtain ⟨hpre, hlen⟩ := copy_match_ensures _ hcopy
  rw [show (s.lift pre).out = pre ++ s.out from rfl, List.append_assoc] at hcopy hlen
  rw [ExecEnv.lift_literals] at hl hlits
  rw [show (s.lift pre).lit_pos = s.lit_pos from rfl] at hend hlits
  have hlits' : lits.length = t.lit_len := by
    have hle := (slice_eq_ok.mp hlits).1.2
    have hend' : lit_end = s.lit_pos + t.lit_len := (add_eq_ok.mp hend).2
    rw [(slice_eq_ok.mp hlits).2, List.length_drop, List.length_take, hend']
    rw [hend'] at hle
    omega
  have hceil := hun.ceiling
  have hword := hun.word
  rw [hout, hlen, List.length_append, List.length_append, hlits'] at hceil hword
  have hreach : off ≤ (s.out ++ lits).length := by
    have := hun.reach ⟨(pre ++ (s.out ++ lits)).length, off⟩ (by
      rw [← ht', ← List.append_assoc]
      exact List.mem_append_right _ (List.mem_singleton_self _))
    rw [List.length_append] at this
    dsimp only at this
    omega
  obtain ⟨r, hr₁, hr₂⟩ := copy_match_lift (n := t.match_len) pre (Nat.pos_of_ne_zero h0) hreach
    (by rw [List.length_append, List.length_append]; omega)
  rw [hcopy] at hr₂
  obtain rfl := Except.ok.inj hr₂
  refine ⟨⟨s.br, s.s_ll, s.s_of, s.s_ml, r, rep, lit_end,
    s.matches_ ++ [⟨(s.out ++ lits).length, off⟩]⟩, ?_, ?_⟩
  · rw [headroom_ok hdict, bind_ok, if_neg (by omega), hend, bind_ok, if_neg hl, hlits, bind_ok]
    dsimp only
    rw [if_neg (by omega), hr₁, bind_ok]
    rfl
  · rw [← ht']
    simp [ExecState.lift, Match.shift, Nat.add_comm]

/-- Moving to the next states leaves the buffer alone. -/
theorem advance_ensures {more : Bool} {e_ll e_ml e_of : FseEntry} {s : ExecState} :
    Ensures (do
      if more then
        let n ← add 32 e_ll.num_bits e_ml.num_bits
        let n ← add 32 n e_of.num_bits
        let br ← s.br.ensure n
        let (s_ll, br) ← update_with_entry e_ll br
        let (s_ml, br) ← update_with_entry e_ml br
        let (s_of, br) ← update_with_entry e_of br
        pure { s with br, s_ll, s_ml, s_of }
      else pure s : Res ExecState) fun s' => s'.out = s.out ∧ s'.matches_ = s.matches_ := by
  refine ensures_ite (fun _ => ?_) fun _ => Ensures.ok ⟨rfl, rfl⟩
  refine Ensures.after fun n _ => Ensures.after fun m _ => Ensures.after fun b _ => ?_
  exact Ensures.after fun p _ => Ensures.after fun q _ => Ensures.after fun r _ =>
    Ensures.ok ⟨rfl, rfl⟩

theorem exec_step_lift {env : ExecEnv} {more : Bool} {s : ExecState} (pre : Bytes)
    {dict_len max_output : Nat} (hdict : dict_len ≤ pre.length + s.out.length) :
    Simulates (fun s' => (env.lift dict_len max_output).Room (pre ++ s'.out))
      (fun s' t' => t' = s'.lift pre)
      (exec_step env more s) (exec_step (env.lift dict_len max_output) more (s.lift pre)) := by
  rw [exec_step, exec_step]
  refine Simulates.after fun e_ll _ => Simulates.after fun e_ml _ => Simulates.after fun e_of _ =>
    ?_
  refine Simulates.guard (fun hc _ _ _ => hc) fun _ => Simulates.after ?_
  rintro ⟨t, br⟩ -
  refine (exec_triple_lift (s := { s with br }) pre hdict).bind (fun s₁ s' _ h hroom => ?_) ?_
  · rwa [(advance_ensures _ h).1] at hroom
  · rintro s₁ t₁ _ rfl
    refine Simulates.ite (fun _ => ?_) fun _ => Simulates.ok fun _ => rfl
    refine Simulates.after fun n _ => Simulates.after fun m _ => Simulates.after fun b _ => ?_
    refine Simulates.after fun q₁ _ => Simulates.after fun q₂ _ => Simulates.after fun q₃ _ => ?_
    exact Simulates.ok fun _ => rfl

theorem exec_step_unlift {env : ExecEnv} {more : Bool} {s : ExecState} (pre : Bytes)
    {dict_len max_output : Nat} (hdict : env.dict_len ≤ s.out.length) :
    Simulates (fun t' => Unlifts pre env t'.out t'.matches_) (fun t' s' => t' = s'.lift pre)
      (exec_step (env.lift dict_len max_output) more (s.lift pre)) (exec_step env more s) := by
  rw [exec_step, exec_step]
  refine Simulates.after fun e_ll _ => Simulates.after fun e_ml _ => Simulates.after fun e_of _ =>
    ?_
  refine Simulates.guard (fun hc _ _ _ => hc) fun _ => Simulates.after ?_
  rintro ⟨t, br⟩ -
  refine (exec_triple_unlift (s := { s with br }) pre hdict).bind (fun t₁ t' _ h hun => ?_) ?_
  · rwa [(advance_ensures _ h).1, (advance_ensures _ h).2] at hun
  · rintro t₁ s₁ _ rfl
    refine Simulates.ite (fun _ => ?_) fun _ => Simulates.ok fun _ => rfl
    refine Simulates.after fun n _ => Simulates.after fun m _ => Simulates.after fun b _ => ?_
    refine Simulates.after fun q₁ _ => Simulates.after fun q₂ _ => Simulates.after fun q₃ _ => ?_
    exact Simulates.ok fun _ => rfl

/-! ## The loop -/

/-- A match executed on a buffer that holds `out`. -/
structure Match.Within (out : Bytes) (m : Match) : Prop where
  hist : out.length ≤ m.hist
  distance : m.distance ≤ m.hist

/-- A sequence adds one match, no further than the buffer reaches. -/
theorem exec_step_matches {env : ExecEnv} {more : Bool} {s : ExecState} :
    Ensures (exec_step env more s) fun s' =>
      ∃ m, s'.matches_ = s.matches_ ++ [m] ∧ m.Within s.out := by
  rw [exec_step]
  refine Ensures.after fun e_ll _ => Ensures.after fun e_ml _ => Ensures.after fun e_of _ => ?_
  refine ensures_ite (fun _ => ensures_fail) fun _ => Ensures.after ?_
  rintro ⟨t, br⟩ -
  refine Ensures.bind (P := fun s₁ => ∃ m, s₁.matches_ = s.matches_ ++ [m] ∧
    m.Within s.out) ?_ fun s₁ hm => ?_
  · rw [exec_triple]
    refine Ensures.after ?_
    rintro ⟨off, rep⟩ -
    refine ensures_ite (fun _ => ensures_fail) fun _ => ?_
    refine Ensures.after fun total _ => Ensures.after fun room _ =>
      ensures_ite (fun _ => ensures_fail) fun _ => Ensures.after fun lit_end _ =>
      ensures_ite (fun _ => ensures_fail) fun _ => Ensures.after fun lits _ =>
      ensures_ite (fun _ => ensures_fail) fun hoff => Ensures.after fun copied _ => Ensures.ok ?_
    exact ⟨⟨(s.out ++ lits).length, off⟩, rfl, (List.prefix_append _ _).length_le,
      Nat.le_of_not_lt hoff⟩
  · intro s' hs'
    rw [(advance_ensures _ hs').2]
    exact hm

/-- The loop adds its matches to those before it. -/
theorem exec_loop_matches {env : ExecEnv} : ∀ (n : Nat) {s : ExecState},
    Ensures (exec_loop env n s) fun s' =>
      ∃ ms, s'.matches_ = s.matches_ ++ ms ∧ ∀ m ∈ ms, m.Within s.out := by
  intro n
  induction n with
  | zero =>
    intro s
    exact Ensures.ok ⟨[], (List.append_nil _).symm, fun m hm => absurd hm List.not_mem_nil⟩
  | succ n ih =>
    intro s s' h
    rw [exec_loop] at h
    obtain ⟨s₁, h₁, h⟩ := bind_eq_ok.mp h
    obtain ⟨m, hm, hwithin⟩ := exec_step_matches _ h₁
    obtain ⟨ms, hms, hall⟩ := ih _ h
    have hle := (exec_step_grown h₁).out_extends.length_le
    refine ⟨m :: ms, by rw [hms, hm, List.append_assoc, List.singleton_append], ?_⟩
    intro m' hm'
    rcases List.mem_cons.mp hm' with rfl | hm'
    · exact hwithin
    · exact ⟨hle.trans (hall m' hm').hist, (hall m' hm').distance⟩

theorem exec_loop_lift {env : ExecEnv} (pre : Bytes) (dict_len max_output : Nat) :
    ∀ (n : Nat) {s : ExecState}, dict_len ≤ pre.length + s.out.length →
    Simulates (fun s' => (env.lift dict_len max_output).Room (pre ++ s'.out))
      (fun s' t' => t' = s'.lift pre)
      (exec_loop env n s) (exec_loop (env.lift dict_len max_output) n (s.lift pre)) := by
  intro n
  induction n with
  | zero =>
    intro s _
    exact Simulates.ok fun _ => rfl
  | succ n ih =>
    intro s hdict
    rw [exec_loop, exec_loop]
    refine (exec_step_lift pre hdict).bind (fun s₁ s' _ h hroom => ?_) ?_
    · have hle := (exec_loop_grown n h).out_extends.length_le
      exact hroom.mono (by rw [List.length_append, List.length_append]; omega)
    · rintro s₁ t₁ h rfl
      have hle := (exec_step_grown h).out_extends.length_le
      exact ih (by omega)

theorem Unlifts.mono {pre out out' : Bytes} {env : ExecEnv} {ms ms' : List Match}
    (h : Unlifts pre env out' ms') (hle : out.length ≤ out'.length) (hms : ms <+: ms') :
    Unlifts pre env out ms :=
  ⟨hle.trans h.ceiling, lt_of_le_of_lt hle h.word, fun m hm => h.reach m (hms.subset hm)⟩

theorem exec_loop_unlift (env : ExecEnv) (pre : Bytes) {dict_len max_output : Nat} :
    ∀ (n : Nat) {s : ExecState}, env.dict_len ≤ s.out.length →
    Simulates (fun t' => Unlifts pre env t'.out t'.matches_) (fun t' s' => t' = s'.lift pre)
      (exec_loop (env.lift dict_len max_output) n (s.lift pre)) (exec_loop env n s) := by
  intro n
  induction n with
  | zero =>
    intro s _
    exact Simulates.ok fun _ => rfl
  | succ n ih =>
    intro s hdict
    rw [exec_loop, exec_loop]
    refine (exec_step_unlift pre hdict).bind (fun t₁ t' _ h hun => ?_) ?_
    · obtain ⟨ms, hms, -⟩ := exec_loop_matches n _ h
      exact hun.mono (exec_loop_grown n h).out_extends.length_le (hms ▸ List.prefix_append _ _)
    · rintro t₁ s₁ h rfl
      have hle := (exec_step_grown h).out_extends.length_le
      simp only [ExecState.lift, List.length_append] at hle
      exact ih (by omega)

/-! ## The sequences section -/

/-- The result with `pre` in front of its buffer. -/
def SeqOut.lift (pre : Bytes) (r : SeqOut) : SeqOut :=
  { r with out := pre ++ r.out, matches_ := r.matches_.map (Match.shift pre.length) }

theorem trailing_literals_lift {env : ExecEnv} {tables : SeqTables} {s : ExecState} (pre : Bytes)
    {dict_len max_output : Nat} (hdict : dict_len ≤ pre.length + s.out.length) :
    Simulates (fun r => (env.lift dict_len max_output).Room (pre ++ r.out))
      (fun r r' => r' = r.lift pre)
      (trailing_literals env tables s)
      (trailing_literals (env.lift dict_len max_output) tables (s.lift pre)) := by
  rw [trailing_literals, trailing_literals]
  refine Simulates.after fun left hleft => ?_
  obtain ⟨hlit, hleft⟩ := sub_eq_ok.mp hleft
  intro r h hroom
  obtain ⟨room, -, h⟩ := bind_eq_ok.mp h
  obtain ⟨-, h⟩ := guard_eq_ok.mp h
  obtain ⟨trailing, ht, h⟩ := bind_eq_ok.mp h
  have hr := Except.ok.inj h
  have htlen : trailing.length = left := by
    rw [(sliceFrom_eq_ok.mp ht).2, List.length_drop, hleft]
  have hceil : (pre ++ r.out).length ≤ dict_len + max_output := hroom.ceiling
  rw [← hr, List.length_append, List.length_append, htlen] at hceil
  have hroom' : headroom dict_len max_output (pre ++ s.out)
      = .ok (max_output - ((pre ++ s.out).length - dict_len)) :=
    headroom_ok (by rw [List.length_append]; exact hdict)
  have hroom' : headroom (env.lift dict_len max_output).dict_len
      (env.lift dict_len max_output).max_output (s.lift pre).out = .ok _ := hroom'
  refine ⟨r.lift pre, ?_, rfl⟩
  rw [hroom', bind_ok, if_neg (by rw [List.length_append]; omega), ExecEnv.lift_literals,
    show (s.lift pre).lit_pos = s.lit_pos from rfl, ht, ← hr]
  simp [SeqOut.lift, ExecState.lift]

theorem trailing_literals_unlift {env : ExecEnv} {tables : SeqTables} {s : ExecState} (pre : Bytes)
    {dict_len max_output : Nat} (hdict : env.dict_len ≤ s.out.length) :
    Simulates (fun r' => Unlifts pre env r'.out r'.matches_) (fun r' r => r' = r.lift pre)
      (trailing_literals (env.lift dict_len max_output) tables (s.lift pre))
      (trailing_literals env tables s) := by
  rw [trailing_literals, trailing_literals]
  refine Simulates.after fun left hleft => ?_
  obtain ⟨hlit, hleft⟩ := sub_eq_ok.mp hleft
  intro r' h hun
  obtain ⟨room, -, h⟩ := bind_eq_ok.mp h
  obtain ⟨-, h⟩ := guard_eq_ok.mp h
  obtain ⟨trailing, ht, h⟩ := bind_eq_ok.mp h
  have hr := Except.ok.inj h
  rw [ExecEnv.lift_literals, show (s.lift pre).lit_pos = s.lit_pos from rfl] at ht
  have htlen : trailing.length = left := by
    rw [(sliceFrom_eq_ok.mp ht).2, List.length_drop, hleft]
    rfl
  have hceil := hun.ceiling
  rw [← hr, List.length_append, htlen, show (s.lift pre).out = pre ++ s.out from rfl,
    List.length_append] at hceil
  refine ⟨⟨s.out ++ trailing, tables, s.rep, s.matches_⟩, ?_, ?_⟩
  · rw [headroom_ok hdict, bind_ok, if_neg (by omega), ht]
    rfl
  · rw [← hr]
    simp [SeqOut.lift, ExecState.lift]

/-- Every match of a sequences section is within the buffer. -/
theorem decode_capped_matches {src literals out : Bytes} {tables : SeqTables} {rep : Reps}
    {dict_len max_output : Nat} :
    Ensures (decode_capped src literals out tables rep dict_len max_output) fun r =>
      ∀ m ∈ r.matches_, m.Within out := by
  rw [decode_capped_eq]
  refine Ensures.after fun plan _ => ?_
  cases plan with
  | none =>
    dsimp only
    rw [literals_only]
    refine Ensures.after fun room _ => ensures_ite (fun _ => ensures_fail) fun _ => Ensures.ok ?_
    exact fun m hm => absurd hm List.not_mem_nil
  | some p =>
    dsimp only
    refine (exec_loop_matches p.nb_seq).bind fun s hs => ?_
    obtain ⟨ms, hms, hall⟩ := hs
    rw [trailing_literals]
    refine Ensures.after fun left _ => Ensures.after fun room _ =>
      ensures_ite (fun _ => ensures_fail) fun _ => Ensures.after fun trailing _ => Ensures.ok ?_
    intro m hm
    dsimp only at hm
    rw [hms] at hm
    exact hall m hm

/-- The sequences section with `pre` in front of the buffer and another ceiling. -/
theorem decode_capped_lift {src literals out : Bytes} {tables : SeqTables} {rep : Reps}
    {dict_len max_output : Nat} (pre : Bytes) (dict_len' max_output' : Nat)
    (hdict : dict_len' ≤ pre.length + out.length) :
    Simulates (fun r => (pre ++ r.out).length ≤ dict_len' + max_output' ∧
        (pre ++ r.out).length < 2 ^ 64)
      (fun r r' => r' = r.lift pre)
      (decode_capped src literals out tables rep dict_len max_output)
      (decode_capped src literals (pre ++ out) tables rep dict_len' max_output') := by
  rw [decode_capped_eq, decode_capped_eq]
  refine Simulates.after fun plan _ => ?_
  cases plan with
  | none =>
    dsimp only
    rw [literals_only, literals_only]
    rintro r h ⟨hceil, -⟩
    obtain ⟨room, -, h⟩ := bind_eq_ok.mp h
    obtain ⟨-, h⟩ := guard_eq_ok.mp h
    have hr := Except.ok.inj h
    rw [← hr, List.length_append, List.length_append] at hceil
    refine ⟨r.lift pre, ?_, rfl⟩
    rw [headroom_ok (by rw [List.length_append]; exact hdict), bind_ok,
      if_neg (by rw [List.length_append]; omega), ← hr]
    simp [SeqOut.lift]
  | some p =>
    dsimp only
    refine (exec_loop_lift pre dict_len' max_output' p.nb_seq (s := p.start out rep) hdict).bind
      (P := fun r : SeqOut => (pre ++ r.out).length ≤ dict_len' + max_output' ∧
        (pre ++ r.out).length < 2 ^ 64) (fun s r _ h hfit => ?_) ?_
    · have hle := (trailing_literals_ensures _ h).out_extends.length_le
      exact ExecEnv.Room.mono ⟨hfit.1, hfit.2⟩
        (by rw [List.length_append, List.length_append]; omega)
    · rintro s t h rfl
      have hle := (exec_loop_grown _ h).out_extends.length_le
      intro r hr hfit
      exact trailing_literals_lift pre (hdict.trans (by
        have : out.length ≤ s.out.length := hle
        omega)) r hr ⟨hfit.1, hfit.2⟩

/-- The converse, for matches that reach no byte of the prefix. -/
theorem decode_capped_unlift {src literals out : Bytes} {tables : SeqTables} {rep : Reps}
    (dict_len max_output : Nat) (pre : Bytes) {dict_len' max_output' : Nat}
    (hdict : dict_len ≤ out.length) :
    Simulates (fun r' => r'.out.length ≤ pre.length + (dict_len + max_output) ∧
        r'.out.length < 2 ^ 64 ∧ ∀ m ∈ r'.matches_, pre.length + m.distance ≤ m.hist)
      (fun r' r => r' = r.lift pre)
      (decode_capped src literals (pre ++ out) tables rep dict_len' max_output')
      (decode_capped src literals out tables rep dict_len max_output) := by
  rw [decode_capped_eq, decode_capped_eq]
  refine Simulates.after fun plan _ => ?_
  cases plan with
  | none =>
    dsimp only
    rw [literals_only, literals_only]
    rintro r' h ⟨hceil, -, -⟩
    obtain ⟨room, -, h⟩ := bind_eq_ok.mp h
    obtain ⟨-, h⟩ := guard_eq_ok.mp h
    have hr := Except.ok.inj h
    rw [← hr, List.length_append, List.length_append] at hceil
    refine ⟨⟨out ++ literals, tables, rep, []⟩, ?_, ?_⟩
    · rw [headroom_ok hdict, bind_ok, if_neg (by omega)]
      rfl
    · rw [← hr]
      simp [SeqOut.lift]
  | some p =>
    dsimp only
    refine (exec_loop_unlift (p.env literals dict_len max_output) pre p.nb_seq
      (s := p.start out rep) hdict).bind (fun t r' _ h hun => ?_) ?_
    · obtain ⟨hgrown, hms⟩ : t.out.length ≤ r'.out.length ∧ t.matches_ = r'.matches_ := by
        refine ⟨(trailing_literals_ensures _ h).out_extends.length_le, ?_⟩
        rw [trailing_literals] at h
        obtain ⟨left, -, h⟩ := bind_eq_ok.mp h
        obtain ⟨room, -, h⟩ := bind_eq_ok.mp h
        obtain ⟨-, h⟩ := guard_eq_ok.mp h
        obtain ⟨trailing, -, h⟩ := bind_eq_ok.mp h
        rw [← Except.ok.inj h]
      have hun' : Unlifts pre (p.env literals dict_len max_output) r'.out r'.matches_ :=
        ⟨hun.1, hun.2.1, hun.2.2⟩
      exact hun'.mono hgrown (hms ▸ List.prefix_rfl)
    · rintro t s h rfl
      have hle := (exec_loop_grown _ h).out_extends.length_le
      have hle' : (pre ++ out).length ≤ (pre ++ s.out).length := hle
      rw [List.length_append, List.length_append] at hle'
      intro r' hr hun
      exact trailing_literals_unlift pre (show dict_len ≤ s.out.length by omega) r' hr
        ⟨hun.1, hun.2.1, hun.2.2⟩

end Sequences

/-! ## Blocks -/

/-- A match seen from a buffer with `n` more bytes in front. -/
def FrameMatch.shift (n : Nat) (m : FrameMatch) : FrameMatch := { m with hist := m.hist + n }

namespace BlockState

/-- `t` decodes the frame that `s` decodes, with `pre` in front of its buffer. -/
structure Lifted (pre : Bytes) (s t : BlockState) : Prop where
  out : t.out = pre ++ s.out
  block_max : t.block_max = s.block_max
  huff : t.huff = s.huff
  seq : t.seq = s.seq
  rep : t.rep = s.rep
  blocks : t.blocks = s.blocks

/-- The buffer `out` fits under the ceiling of `s` and into a word. -/
structure Fits (s : BlockState) (out : Bytes) : Prop where
  ceiling : out.length ≤ s.dict_len + s.max_output
  word : out.length ≤ usizeMax

theorem Fits.mono {s : BlockState} {out out' : Bytes} (h : s.Fits out')
    (hle : out.length ≤ out'.length) : s.Fits out :=
  ⟨hle.trans h.ceiling, hle.trans h.word⟩

variable {pre : Bytes} {s t : BlockState}

/-- A match of block `block`, which starts with the buffer `out`. -/
structure MatchOf (block : Nat) (out : Bytes) (m : FrameMatch) : Prop where
  block : m.block = block
  hist : m.hist = out.length + m.in_block
  distance : m.distance ≤ m.hist

/-- `t'` follows `t` as `s'` follows `s`, with `pre` in front of the buffer: the same matches have
been executed. -/
structure LiftedStep (block : Nat) (pre : Bytes) (s t s' t' : BlockState) : Prop where
  lifted : s'.Lifted pre t'
  matches_ : ∃ ms, (∀ m ∈ ms, MatchOf block s.out m) ∧ s'.matches_ = s.matches_ ++ ms ∧
    t'.matches_ = t.matches_ ++ ms.map (FrameMatch.shift pre.length)

theorem Lifted.counted (h : s.Lifted pre t) : s.counted.Lifted pre t.counted :=
  ⟨h.out, h.block_max, h.huff, h.seq, h.rep, by simp only [BlockState.counted, h.blocks]⟩

theorem decode_raw_lift {data : Bytes} (h : s.Lifted pre t) (hdict : t.dict_len ≤ t.out.length) :
    Simulates (fun s' => t.Fits (pre ++ s'.out)) (LiftedStep s.blocks pre s t)
      (s.decode_raw data) (t.decode_raw data) := by
  rw [decode_raw, decode_raw]
  intro s' hs hfit
  obtain ⟨_, -, hs⟩ := bind_eq_ok.mp hs
  have hs' := Except.ok.inj hs
  have hlen : (pre ++ s'.out).length = t.out.length + data.length := by
    rw [← hs', h.out, ← List.append_assoc, List.length_append]
  rw [check_ceiling_ok hdict (hlen ▸ hfit.ceiling) (hlen ▸ hfit.word), bind_ok]
  refine ⟨_, rfl, ⟨?_, [], fun m hm => absurd hm List.not_mem_nil, ?_, ?_⟩⟩
  · rw [← hs']
    exact ⟨by simp only [h.out, List.append_assoc], h.block_max, h.huff, h.seq, h.rep, h.blocks⟩
  · rw [← hs', List.append_nil]
  · rw [List.map_nil, List.append_nil]

/-- A run of one byte is decoded as the raw block of its bytes. -/
theorem decode_rle_eq (s : BlockState) (b : UInt8) (count : Nat) :
    s.decode_rle b count = s.decode_raw (List.replicate count b) := by
  rw [decode_rle, decode_raw, List.length_replicate]

theorem decode_compressed_lift {data : Bytes} (h : s.Lifted pre t)
    (hs : s.dict_len ≤ s.out.length) (hdict : t.dict_len ≤ t.out.length) :
    Simulates (fun s' => t.Fits (pre ++ s'.out)) (LiftedStep s.blocks pre s t)
      (s.decode_compressed data) (t.decode_compressed data) := by
  intro s' hok hfit
  have hgrown := decode_compressed_ensures hs _ hok
  have hlen := hgrown.length
  have hceil := hfit.ceiling
  have hword := hfit.word
  have hout : t.out.length = pre.length + s.out.length := by rw [h.out, List.length_append]
  have husize : usizeMax = 2 ^ 64 - 1 := rfl
  rw [List.length_append] at hceil hword
  rw [decode_compressed] at hok ⊢
  obtain ⟨lits, hlits, hok⟩ := bind_eq_ok.mp hok
  obtain ⟨real, hreal, hok⟩ := bind_eq_ok.mp hok
  obtain ⟨body, hbody, hok⟩ := bind_eq_ok.mp hok
  obtain ⟨r, hr, hok⟩ := bind_eq_ok.mp hok
  have hs' := Except.ok.inj hok
  have hsout : s'.out.length = r.out.length := by rw [← hs']
  rw [h.huff, hlits, bind_ok, output_len, sub_ok hdict, bind_ok]
  dsimp only
  rw [hbody, bind_ok, h.seq, h.rep, h.block_max]
  obtain ⟨r', hr', hrel⟩ := decode_capped_lift pre t.dict_len
    (min t.max_output (min (t.out.length - t.dict_len + s.block_max) usizeMax))
    (by omega) r hr ⟨by rw [List.length_append]; omega, by rw [List.length_append]; omega⟩
  have hwithin := decode_capped_matches r hr
  rw [h.out] at hr' ⊢
  rw [hr', bind_ok]
  refine ⟨_, rfl, ⟨?_, r.matches_.map fun m => ⟨s.blocks, m.hist - s.out.length, m.hist,
    m.distance⟩,
    ?_, ?_, ?_⟩⟩
  · rw [← hs', hrel]
    exact ⟨rfl, rfl, rfl, rfl, rfl, h.blocks⟩
  · intro m hm
    obtain ⟨m', hm', rfl⟩ := List.mem_map.mp hm
    have hle := (hwithin m' hm').hist
    exact ⟨rfl, by simp only; omega, (hwithin m' hm').distance⟩
  · rw [← hs']
  · dsimp only
    rw [hrel, h.blocks]
    simp [SeqOut.lift, Match.shift, FrameMatch.shift, Function.comp_def]
    intro m _
    omega

/-- A block decodes with `pre` in front of the buffer as it does without, when the output fits. -/
theorem decode_block_at_lift {src : Bytes} {pos : Nat} (h : s.Lifted pre t)
    (hs : s.dict_len ≤ s.out.length) (hdict : t.dict_len ≤ t.out.length) :
    Simulates (fun r => t.Fits (pre ++ r.1.out))
      (fun r r' => LiftedStep (s.blocks + 1) pre s t r.1 r'.1 ∧ r'.2 = r.2)
      (s.decode_block_at src pos) (t.decode_block_at src pos) := by
  intro r hok hfit
  have hmax := h.block_max
  cases decode_block_at_cases hok with
  | raw hheader htype hsize husize hstop hdecode =>
    obtain ⟨t', ht, hrel⟩ := decode_raw_lift h.counted hdict _ hdecode ⟨hfit.1, hfit.2⟩
    exact ⟨_, (BlockStep.raw hheader htype (hmax ▸ hsize) husize hstop ht).decode,
      ⟨hrel.lifted, hrel.matches_⟩, rfl⟩
  | rle hheader htype hsize husize hbyte hdecode =>
    rw [decode_rle_eq] at hdecode
    obtain ⟨t', ht, hrel⟩ := decode_raw_lift h.counted hdict _ hdecode ⟨hfit.1, hfit.2⟩
    rw [← decode_rle_eq] at ht
    exact ⟨_, (BlockStep.rle hheader htype (hmax ▸ hsize) husize hbyte ht).decode,
      ⟨hrel.lifted, hrel.matches_⟩, rfl⟩
  | compressed hheader htype hsize husize hstop hdecode =>
    obtain ⟨t', ht, hrel⟩ := decode_compressed_lift h.counted hs hdict _ hdecode ⟨hfit.1, hfit.2⟩
    exact ⟨_, (BlockStep.compressed hheader htype (hmax ▸ hsize) husize hstop ht).decode,
      ⟨hrel.lifted, hrel.matches_⟩, rfl⟩

/-- What a decoded block of `t` needs to decode without the first bytes of the buffer: the output
fits under the ceiling of `s`, and no match of the block reaches those bytes. -/
structure Falls (pre : Bytes) (s t t' : BlockState) : Prop where
  ceiling : t'.out.length ≤ pre.length + (s.dict_len + s.max_output)
  word : t'.out.length ≤ usizeMax
  reach : ∀ ms, t'.matches_ = t.matches_ ++ ms → ∀ m ∈ ms, pre.length + m.distance ≤ m.hist

theorem decode_raw_unlift {data : Bytes} (h : s.Lifted pre t) (hdict : s.dict_len ≤ s.out.length) :
    Simulates (Falls pre s t) (fun t' s' => s'.Lifted pre t')
      (t.decode_raw data) (s.decode_raw data) := by
  rw [decode_raw, decode_raw]
  intro t' ht hfall
  obtain ⟨_, -, ht⟩ := bind_eq_ok.mp ht
  have ht' := Except.ok.inj ht
  have hlen : t'.out.length = pre.length + (s.out.length + data.length) := by
    rw [← ht', h.out, List.length_append, List.length_append, Nat.add_assoc]
  have hceil := hfall.ceiling
  have hword := hfall.word
  rw [check_ceiling_ok hdict (by omega) (by omega), bind_ok]
  refine ⟨_, rfl, ?_⟩
  rw [← ht']
  exact ⟨by simp only [h.out, List.append_assoc], h.block_max, h.huff, h.seq, h.rep, h.blocks⟩

theorem decode_compressed_unlift {data : Bytes} (h : s.Lifted pre t)
    (hdict : s.dict_len ≤ s.out.length) (ht : t.dict_len ≤ t.out.length) :
    Simulates (Falls pre s t) (fun t' s' => s'.Lifted pre t')
      (t.decode_compressed data) (s.decode_compressed data) := by
  intro t' hok hfall
  have hgrown := decode_compressed_ensures ht _ hok
  have hlen := hgrown.length
  have hceil := hfall.ceiling
  have hword := hfall.word
  have hout : t.out.length = pre.length + s.out.length := by rw [h.out, List.length_append]
  have husize : usizeMax = 2 ^ 64 - 1 := rfl
  have hmax := h.block_max
  rw [decode_compressed] at hok ⊢
  obtain ⟨lits, hlits, hok⟩ := bind_eq_ok.mp hok
  obtain ⟨real, hreal, hok⟩ := bind_eq_ok.mp hok
  obtain ⟨body, hbody, hok⟩ := bind_eq_ok.mp hok
  obtain ⟨r, hr, hok⟩ := bind_eq_ok.mp hok
  have ht' := Except.ok.inj hok
  have htout : t'.out.length = r.out.length := by rw [← ht']
  rw [h.huff] at hlits
  rw [h.seq, h.rep, h.out] at hr
  have hreach : ∀ m ∈ r.matches_, pre.length + m.distance ≤ m.hist := by
    intro m hm
    exact hfall.reach (r.matches_.map fun m => ⟨t.blocks, m.hist - t.out.length, m.hist,
      m.distance⟩)
      (by rw [← ht']) _ (List.mem_map.mpr ⟨m, hm, rfl⟩)
  obtain ⟨r', hr', hrel⟩ := decode_capped_unlift s.dict_len
    (min s.max_output (min (s.out.length - s.dict_len + s.block_max) usizeMax))
    pre hdict r hr ⟨by omega, by omega, hreach⟩
  rw [hlits, bind_ok, output_len, sub_ok hdict, bind_ok]
  dsimp only
  rw [hbody, bind_ok, hr', bind_ok]
  refine ⟨_, rfl, ?_⟩
  rw [← ht', hrel]
  exact ⟨rfl, h.block_max, rfl, rfl, rfl, h.blocks⟩

/-- A block whose matches reach no byte of the prefix decodes without it. -/
theorem decode_block_at_unlift {src : Bytes} {pos : Nat} (h : s.Lifted pre t)
    (hdict : s.dict_len ≤ s.out.length) (ht : t.dict_len ≤ t.out.length) :
    Simulates (fun r' => Falls pre s t r'.1) (fun r' r => r.1.Lifted pre r'.1 ∧ r.2 = r'.2)
      (t.decode_block_at src pos) (s.decode_block_at src pos) := by
  intro r hok hfall
  have hmax := h.block_max.symm
  have hfall' : Falls pre s.counted t.counted r.1 := ⟨hfall.1, hfall.2, hfall.3⟩
  cases decode_block_at_cases hok with
  | raw hheader htype hsize husize hstop hdecode =>
    obtain ⟨s', hs, hrel⟩ := decode_raw_unlift h.counted hdict _ hdecode hfall'
    exact ⟨_, (BlockStep.raw hheader htype (hmax ▸ hsize) husize hstop hs).decode, hrel, rfl⟩
  | rle hheader htype hsize husize hbyte hdecode =>
    rw [decode_rle_eq] at hdecode
    obtain ⟨s', hs, hrel⟩ := decode_raw_unlift h.counted hdict _ hdecode hfall'
    rw [← decode_rle_eq] at hs
    exact ⟨_, (BlockStep.rle hheader htype (hmax ▸ hsize) husize hbyte hs).decode, hrel, rfl⟩
  | compressed hheader htype hsize husize hstop hdecode =>
    obtain ⟨s', hs, hrel⟩ := decode_compressed_unlift h.counted hdict ht _ hdecode hfall'
    exact ⟨_, (BlockStep.compressed hheader htype (hmax ▸ hsize) husize hstop hs).decode, hrel, rfl⟩

/-- The matches and the count of blocks after a block. -/
theorem decode_block_at_matches {src : Bytes} {pos : Nat} :
    Ensures (s.decode_block_at src pos) fun r => r.1.blocks = s.blocks + 1 ∧
      ∃ ms, r.1.matches_ = s.matches_ ++ ms ∧ ∀ m ∈ ms, MatchOf (s.blocks + 1) s.out m := by
  have hraw {data : Bytes} {s' : BlockState} (h : s.counted.decode_raw data = .ok s') :
      s'.blocks = s.blocks + 1 ∧ s'.matches_ = s.matches_ := by
    rw [decode_raw] at h
    obtain ⟨_, -, h⟩ := bind_eq_ok.mp h
    rw [← Except.ok.inj h]
    exact ⟨rfl, rfl⟩
  have hnone {s' : BlockState} (h : s'.blocks = s.blocks + 1 ∧ s'.matches_ = s.matches_) :
      s'.blocks = s.blocks + 1 ∧
        ∃ ms, s'.matches_ = s.matches_ ++ ms ∧ ∀ m ∈ ms, MatchOf (s.blocks + 1) s.out m :=
    ⟨h.1, [], by rw [h.2, List.append_nil], fun m hm => absurd hm List.not_mem_nil⟩
  intro r h
  cases decode_block_at_cases h with
  | raw _ _ _ _ _ hdecode => exact hnone (hraw hdecode)
  | rle _ _ _ _ _ hdecode =>
    rw [decode_rle_eq] at hdecode
    exact hnone (hraw hdecode)
  | compressed _ _ _ _ _ hdecode =>
    rw [decode_compressed] at hdecode
    obtain ⟨lits, -, hdecode⟩ := bind_eq_ok.mp hdecode
    obtain ⟨real, -, hdecode⟩ := bind_eq_ok.mp hdecode
    obtain ⟨body, -, hdecode⟩ := bind_eq_ok.mp hdecode
    obtain ⟨r, hr, hdecode⟩ := bind_eq_ok.mp hdecode
    rw [← Except.ok.inj hdecode]
    refine ⟨rfl, _, rfl, fun m hm => ?_⟩
    obtain ⟨m', hm', rfl⟩ := List.mem_map.mp hm
    have hwithin := decode_capped_matches r hr m' hm'
    have hle := hwithin.hist
    exact ⟨rfl, by simp only [counted] at hle ⊢; omega, hwithin.distance⟩

end BlockState

end ZstdPure
