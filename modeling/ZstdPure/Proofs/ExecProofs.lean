import ZstdPure.Reference
import ZstdPure.Proofs.SequencesProofs

/-!
# Sequence execution is naive LZ77

The sequence loop reads a triple and executes it in turn. The reads do not depend on the execution,
so the loop executes the list of triples that the section encodes; and every triple does to the
output what the reference does to it byte by byte.
-/

namespace ZstdPure.Sequences

open Outcome Fse

/-! ## Reading -/

/-- The reading half of the state of the loop. -/
def ExecState.reader (s : ExecState) : SeqReader := ⟨s.br, s.s_ll, s.s_of, s.s_ml⟩

/-- The state with another reader. -/
def ExecState.reading (s : ExecState) (r : SeqReader) : ExecState :=
  { s with br := r.br, s_ll := r.s_ll, s_of := r.s_of, s_ml := r.s_ml }

@[simp] theorem ExecState.reader_reading (s : ExecState) (r : SeqReader) :
    (s.reading r).reader = r := rfl

section

variable {p : Plan} {literals : Bytes} {dict_len max_output : Nat}

/-- The execution of a triple does not look at the reader. -/
theorem exec_triple_reading {env : ExecEnv} {ll0 : Bool} {t : Triple} (s : ExecState)
    (r : SeqReader) :
    exec_triple env ll0 t (s.reading r) =
      exec_triple env ll0 t s >>= fun s' => .ok (s'.reading r) := by
  rw [exec_triple, exec_triple]
  simp only [bind_assoc, ExecState.reading]
  refine bind_congr ?_
  rintro ⟨off, rep⟩
  dsimp only
  split_ifs with h0
  · rfl
  simp only [bind_assoc]
  refine bind_congr fun total => bind_congr fun room => ?_
  split_ifs with hroom
  · rfl
  simp only [bind_assoc]
  refine bind_congr fun lit_end => ?_
  split_ifs with hlit
  · rfl
  simp only [bind_assoc]
  refine bind_congr fun lits => ?_
  by_cases hoff : (s.out ++ lits).length < off
  · rw [if_pos hoff]
    exact if_pos hoff
  · rw [if_neg hoff, bind_assoc]
    exact if_neg hoff

/-- A step of the loop reads its triple and the next states, and executes the triple. -/
theorem read_step_spec (hp : p.Valid) {s : ExecState} (more : Bool) (hb : s.br.Valid)
    (hc : s.br.bits_consumed ≤ 2 ^ 29) :
    Safe (p.read_step more s.reader) (fun x => x.1.Bounded ∧ x.2.br.Valid ∧
      x.2.br.bits_consumed ≤ s.br.bits_consumed + 90) ∧
    exec_step (p.env literals dict_len max_output) more s =
      p.read_step more s.reader >>= fun x =>
        exec_triple (p.env literals dict_len max_output) (x.1.lit_len == 0) x.1 s >>= fun s' =>
          .ok (s'.reading x.2) := by
  obtain ⟨e_ll, hll, h₁⟩ := entry_spec hp.ll s.s_ll
  obtain ⟨e_ml, hml, h₂⟩ := entry_spec hp.ml s.s_ml
  obtain ⟨e_of, hof, h₃⟩ := entry_spec hp.of s.s_of
  rw [exec_step, Plan.read_step]
  simp only [Plan.env, ExecState.reader]
  rw [h₁, bind_ok, h₂, bind_ok, h₃, bind_ok, bind_ok, bind_ok, bind_ok]
  by_cases hrange : LL_BASE.length ≤ e_ll.symbol ∨ ML_BASE.length ≤ e_ml.symbol ∨ 31 < e_of.symbol
  · rw [if_pos hrange, if_pos hrange, bind_fail]
    exact ⟨safe_fail, rfl⟩
  rw [if_neg hrange, if_neg hrange]
  have hcodes : CodesInRange e_ll.symbol e_ml.symbol e_of.symbol := by
    constructor <;> omega
  obtain ⟨t, b₁, h₄, hs₁, hv₁, hc₁, ht, hzero⟩ := read_triple_spec hcodes hb (by omega)
  have hs : ({ s with br := b₁ } : ExecState) = s.reading { s.reader with br := b₁ } := rfl
  rw [h₄, bind_ok, bind_ok, hzero]
  dsimp only
  rw [hs, exec_triple_reading]
  cases more with
  | false =>
    rw [if_neg (by simp), pure_eq_ok, bind_ok, bind_assoc]
    exact ⟨Safe.ok ⟨ht, hv₁, by simp only; omega⟩, rfl⟩
  | true =>
    have hnll := hp.ll.num_bits_le hll
    have hnml := hp.ml.num_bits_le hml
    have hnof := hp.of.num_bits_le hof
    obtain ⟨b₂, h₅, hs₂, hv₂, hc₂⟩ := ReverseBitReader.ensure_spec
      (n := e_ll.num_bits + e_ml.num_bits + e_of.num_bits) hv₁ (by omega)
    obtain ⟨s_ll, b₃, h₆, hs₃, hv₃, hc₃⟩ := update_with_entry_spec hp.ll hll hv₂ (by omega)
    obtain ⟨s_ml, b₄, h₇, hs₄, hv₄, hc₄⟩ := update_with_entry_spec hp.ml hml hv₃ (by omega)
    obtain ⟨s_of, b₅, h₈, hs₅, hv₅, hc₅⟩ := update_with_entry_spec hp.of hof hv₄ (by omega)
    rw [if_pos rfl, add_ok (by omega), bind_ok, add_ok (by omega), bind_ok, h₅, bind_ok, h₆,
      bind_ok]
    dsimp only
    rw [h₇, bind_ok]
    dsimp only
    rw [h₈, bind_ok]
    dsimp only
    rw [pure_eq_ok, bind_ok, bind_assoc]
    refine ⟨Safe.ok ⟨ht, hv₅, by simp only; omega⟩, ?_⟩
    refine bind_congr fun s' => ?_
    rw [bind_ok]
    simp only [ExecState.reading]
    rw [if_pos trivial, bind_ok, add_ok (by omega), bind_ok, h₅, bind_ok, h₆, bind_ok]
    dsimp only
    rw [h₇, bind_ok]
    dsimp only
    rw [h₈]
    rfl

/-! ## One triple -/

/-- The repeat offsets of the code are those of the format. -/
theorem Reps.repeat_code_eq (rep : Reps) {offset_value : Nat} (h : 1 ≤ offset_value) (ll0 : Bool) :
    rep.repeat_code offset_value ll0 = rep.resolve offset_value ll0 := by
  match offset_value, ll0, h with
  | 1, false, _ | 2, false, _ | 3, false, _ | 1, true, _ | 2, true, _ | 3, true, _ => rfl
  | v + 4, _, _ =>
    rw [Reps.resolve, if_pos (by omega)]
    rfl

/-- The part of the state that the reference has. -/
def ExecState.naive (env : ExecEnv) (s : ExecState) : Naive :=
  ⟨s.out, s.rep, env.literals.drop s.lit_pos⟩

/-- The state with `n` triples left to execute. -/
structure ExecState.Budget (env : ExecEnv) (n : Nat) (s : ExecState) : Prop where
  dict : env.dict_len ≤ s.out.length
  lits : s.lit_pos ≤ env.literals.length
  lits_len : env.literals.length < 2 ^ 63
  out : s.out.length + n * 2 ^ 19 < 2 ^ 64

theorem ExecState.Budget.fits {env : ExecEnv} {n : Nat} {s : ExecState} {t : Triple}
    (h : s.Budget env (n + 1)) (ht : t.Bounded) : s.Fits env t where
  dict := h.dict
  lits := h.lits
  lits_len := h.lits_len
  triple := ht
  out := by
    intro _
    have hout := h.out
    have hll := ht.lit_len
    have hml := ht.match_len
    omega

/-- When the reference fails, and its state after a triple. -/
theorem ExecState.step_naive {env : ExecEnv} (limit : Nat) {s : ExecState} {t : Triple}
    (ht : t.Bounded) (hlits : s.lit_pos ≤ env.literals.length) :
    Naive.step limit (s.naive env) t =
      let off := s.rep.resolve t.offset_value (t.lit_len == 0)
      if off.1 = 0 ∨ env.literals.length < s.lit_pos + t.lit_len ∨
          s.out.length + t.lit_len < off.1 ∨ limit < s.out.length + t.lit_len +
            t.match_len then none
      else some ((s.executed env t off.1 off.2).naive env) := by
  have hml := ht.match_len_ge
  have hstep : Naive.step limit (s.naive env) t =
      (Lz77.literals limit t.lit_len (env.literals.drop s.lit_pos) s.out).bind fun x =>
        if (s.rep.resolve t.offset_value (t.lit_len == 0)).1 = 0 then none
        else (Lz77.copy limit (s.rep.resolve t.offset_value (t.lit_len == 0)).1 t.match_len
          x.1).bind
          fun out => some ⟨out, (s.rep.resolve t.offset_value (t.lit_len == 0)).2, x.2⟩ := by
    rw [Naive.step, Reps.repeat_code_eq _ ht.offset]
    rfl
  rw [hstep, Lz77.literals_eq, List.length_drop]
  generalize s.rep.resolve t.offset_value (t.lit_len == 0) = off
  dsimp only
  by_cases hlit : t.lit_len ≤ env.literals.length - s.lit_pos ∧
      (t.lit_len = 0 ∨ s.out.length + t.lit_len ≤ limit)
  swap
  · rw [if_neg hlit, Option.bind_none, if_pos (by omega)]
  have hl := length_literals (s := s) t.lit_len (show _ ≤ env.literals.length by omega)
  rw [if_pos hlit, Option.bind_some]
  by_cases h0 : off.1 = 0
  · rw [if_pos h0, if_pos (Or.inl h0)]
  rw [if_neg h0, Lz77.copy_eq (Nat.pos_of_ne_zero h0), List.length_append, hl]
  by_cases hcopy : t.match_len = 0 ∨
      off.1 ≤ s.out.length + t.lit_len ∧ s.out.length + t.lit_len + t.match_len ≤ limit
  swap
  · rw [if_neg hcopy, Option.bind_none, if_pos (by omega)]
  rw [if_pos hcopy, Option.bind_some, if_neg (by omega), List.drop_drop]
  rfl

/-- The execution of a triple fails when the reference fails, and does to the output what the
reference does. -/
theorem exec_triple_naive {env : ExecEnv} {n : Nat} {s : ExecState} {t : Triple}
    (h : s.Budget env (n + 1)) (ht : t.Bounded) :
    Safe (exec_triple env (t.lit_len == 0) t s) (ExecState.Budget env n) ∧
    (exec_triple env (t.lit_len == 0) t s).toOption.map (ExecState.naive env) =
      Naive.step (env.dict_len + env.max_output) (s.naive env) t := by
  have hdict := h.dict
  have hout := h.out
  have hll := ht.lit_len
  have hml := ht.match_len
  have hml3 := ht.match_len_ge
  have hroom : s.room env < t.lit_len + t.match_len ↔
      env.dict_len + env.max_output < s.out.length + t.lit_len + t.match_len := by
    rw [ExecState.room]
    omega
  rw [exec_triple_eq _ (h.fits ht), ExecState.step_naive _ ht h.lits]
  generalize s.rep.resolve t.offset_value (t.lit_len == 0) = off
  dsimp only
  by_cases hfail : off.1 = 0 ∨ env.literals.length < s.lit_pos + t.lit_len ∨
      s.out.length + t.lit_len < off.1 ∨
      env.dict_len + env.max_output < s.out.length + t.lit_len + t.match_len
  · rw [if_pos hfail]
    split_ifs with h₁ h₂ h₃ h₄
    · exact ⟨safe_fail, rfl⟩
    · exact ⟨safe_fail, rfl⟩
    · exact ⟨safe_fail, rfl⟩
    · exact ⟨safe_fail, rfl⟩
    · omega
  · rw [if_neg hfail, if_neg (by omega), if_neg (by omega), if_neg (by omega), if_neg (by omega)]
    have hlen := @length_executed env s t off.1 off.2 (by omega) (by omega) (by omega)
    refine ⟨Safe.ok ⟨by omega, ?_, h.lits_len, by omega⟩, rfl⟩
    show s.lit_pos + t.lit_len ≤ env.literals.length
    omega

/-! ## All triples -/

theorem exec_loop_naive (hp : p.Valid) : ∀ (n : Nat) (s : ExecState),
    s.Budget (p.env literals dict_len max_output) n → s.br.Valid →
    s.br.bits_consumed + 90 * n ≤ 2 ^ 29 →
    Safe (exec_loop (p.env literals dict_len max_output) n s)
      (ExecState.Budget (p.env literals dict_len max_output) 0) ∧
    (exec_loop (p.env literals dict_len max_output) n s).toOption.map
        (ExecState.naive (p.env literals dict_len max_output)) =
      (p.read_loop n s.reader).toOption.bind fun x =>
        x.1.foldlM (Naive.step (dict_len + max_output))
          (s.naive (p.env literals dict_len max_output)) := by
  intro n
  induction n with
  | zero => intro s h _ _; exact ⟨Safe.ok h, rfl⟩
  | succ n ih =>
    intro s h hb hc
    obtain ⟨hread, hstep⟩ := @read_step_spec p literals dict_len max_output hp s (decide (0 < n)) hb
      (by omega)
    rw [exec_loop, hstep, Plan.read_loop]
    rcases safe_iff.mp hread with ⟨⟨t, r⟩, hr, ht, hv, hbits⟩ | ⟨e, hr⟩
    swap
    · rw [hr]
      exact ⟨safe_fail, rfl⟩
    rw [hr, bind_ok, bind_ok]
    dsimp only at ht hv hbits ⊢
    obtain ⟨hsafe, hexec⟩ := exec_triple_naive h ht
    change _ = Naive.step (dict_len + max_output) _ _ at hexec
    have hsplit : ((p.read_loop n r >>= fun x => pure (t :: x.1, x.2) :
        Res (List Triple × SeqReader)).toOption.bind fun x =>
          x.1.foldlM (Naive.step (dict_len + max_output))
            (s.naive (p.env literals dict_len max_output))) =
        (p.read_loop n r).toOption.bind fun x =>
          (Naive.step (dict_len + max_output) (s.naive (p.env literals dict_len max_output)) t).bind
            fun s => x.1.foldlM (Naive.step (dict_len + max_output)) s := by
      cases p.read_loop n r <;> rfl
    rw [hsplit, ← hexec]
    rcases safe_iff.mp hsafe with ⟨s', hs', hbudget⟩ | ⟨e, hs'⟩
    · rw [hs', bind_ok, bind_ok]
      exact ih (s'.reading r) ⟨hbudget.dict, hbudget.lits, hbudget.lits_len, hbudget.out⟩ hv
        (by show r.br.bits_consumed + 90 * n ≤ 2 ^ 29; omega)
    · rw [hs']
      refine ⟨safe_fail, ?_⟩
      cases p.read_loop n r <;> rfl

/-- The execution of some triples does not look at the reader. -/
theorem exec_triples_reading {env : ExecEnv} (r : SeqReader) : ∀ (ts : List Triple) (s : ExecState),
    exec_triples env ts (s.reading r) = exec_triples env ts s >>= fun s' => .ok (s'.reading r) := by
  intro ts
  induction ts with
  | nil => intro s; rfl
  | cons t ts ih =>
    intro s
    rw [exec_triples, exec_triples, List.foldlM_cons, List.foldlM_cons, exec_triple_reading,
      bind_assoc, bind_assoc]
    exact bind_congr fun s' => ih s'

/-- The loop on triples that can all be read executes them. -/
theorem exec_loop_read (hp : p.Valid) : ∀ (n : Nat) (s : ExecState) (ts : List Triple)
    (r : SeqReader),
    s.br.Valid → s.br.bits_consumed + 90 * n ≤ 2 ^ 29 → p.read_loop n s.reader = .ok (ts, r) →
    exec_loop (p.env literals dict_len max_output) n s =
      exec_triples (p.env literals dict_len max_output) ts s >>= fun s' => .ok (s'.reading r) := by
  intro n
  induction n with
  | zero =>
    intro s ts r _ _ h
    obtain ⟨rfl, rfl⟩ := Prod.mk.inj (Except.ok.inj h)
    rfl
  | succ n ih =>
    intro s ts r hb hc h
    obtain ⟨hread, hstep⟩ := @read_step_spec p literals dict_len max_output hp s (decide (0 < n)) hb
      (by omega)
    rw [Plan.read_loop] at h
    obtain ⟨⟨t, r₁⟩, h₁, h⟩ := bind_eq_ok.mp h
    obtain ⟨⟨ts', r₂⟩, h₂, h⟩ := bind_eq_ok.mp h
    obtain ⟨rfl, rfl⟩ := Prod.mk.inj (Except.ok.inj h)
    rw [h₁] at hread
    obtain ⟨-, hv, hbits⟩ := safe_ok.mp hread
    dsimp only at h₂ hv hbits
    rw [exec_loop, hstep, h₁, bind_ok, exec_triples, List.foldlM_cons, bind_assoc, bind_assoc]
    refine bind_congr fun s' => ?_
    rw [bind_ok, ih (s'.reading r₁) ts' r₂ hv (by show r₁.br.bits_consumed + 90 * n ≤ 2 ^ 29; omega)
      h₂,
      exec_triples_reading, bind_assoc]
    rfl

/-- The output and the repeat offsets that the reference ends with. -/
theorem Naive.map_run (limit : Nat) (s : Naive) (ts : List Triple) :
    (Naive.run limit s ts).map (fun s => (s.out, s.rep)) =
      (ts.foldlM (Naive.step limit) s).bind fun s =>
        (Lz77.literals limit s.literals.length s.literals s.out).map fun y => (y.1, s.rep) := by
  rw [Naive.run, Option.bind_eq_bind, Option.map_bind]
  refine congrArg _ (funext fun s => ?_)
  show ((Lz77.literals limit s.literals.length s.literals s.out).bind _).map _ = _
  rw [Option.map_bind, Option.map_eq_bind]
  rfl

/-- Literals are appended when there is room for them. -/
theorem append_literals {lits out : Bytes} (cached : SeqTables) (ms : List Match) (rep : Reps)
    {dict_len : Nat} (max_output : Nat)
    (hdict : dict_len ≤ out.length) {x : Res SeqOut}
    (h : x = if max_output - (out.length - dict_len) < lits.length then
        fail (.OutputTooLarge max_output)
      else .ok ⟨out ++ lits, cached, rep, ms⟩) :
    NoFault x ∧ x.toOption.map (fun r => (r.out, r.rep)) =
      (Lz77.literals (dict_len + max_output) lits.length lits out).map fun y => (y.1, rep) := by
  rw [h, Lz77.literals_length]
  by_cases hroom : max_output - (out.length - dict_len) < lits.length
  · have hne : lits ≠ [] := List.ne_nil_of_length_pos (by omega)
    rw [if_pos hroom, if_neg (not_or.mpr ⟨hne, by omega⟩)]
    exact ⟨(safe_fail (Q := fun _ => True)).noFault, rfl⟩
  · have hfit : lits = [] ∨ out.length + lits.length ≤ dict_len + max_output := by
      rw [← List.length_eq_zero_iff]
      omega
    rw [if_neg hroom, if_pos hfit]
    exact ⟨(Safe.ok (Q := fun _ => True) trivial).noFault, rfl⟩

/-- The literals after the last sequence. -/
theorem trailing_literals_naive {env : ExecEnv} {s : ExecState} (cached : SeqTables)
    (h : s.Budget env 0) :
    NoFault (trailing_literals env cached s) ∧
    (trailing_literals env cached s).toOption.map (fun r => (r.out, r.rep)) =
      (Lz77.literals (env.dict_len + env.max_output) (env.literals.drop s.lit_pos).length
        (env.literals.drop s.lit_pos) s.out).map fun y => (y.1, s.rep) := by
  refine append_literals cached s.matches_ s.rep env.max_output h.dict ?_
  rw [trailing_literals, sub_ok h.lits, bind_ok, headroom_ok h.dict, bind_ok, sliceFrom_ok h.lits,
    bind_ok, List.length_drop, pure_eq_ok]

/-- `decode_capped` on every input does what the reference does with the triples of the section: it
returns the output and the repeat offsets of the reference, and an error exactly if a triple cannot
be decoded or the reference fails. -/
theorem decode_capped_eq_naive {src literals out : Bytes} {tables : SeqTables} (rep : Reps)
    {dict_len : Nat} (max_output : Nat) (ht : tables.Valid) (hsrc : src.length < 2 ^ 60)
    (hlits : literals.length < 2 ^ 63) (hout : out.length < 2 ^ 63)
    (hdict : dict_len ≤ out.length) :
    NoFault (decode_capped src literals out tables rep dict_len max_output) ∧
    (decode_capped src literals out tables rep dict_len max_output).toOption.map
        (fun r => (r.out, r.rep)) =
      (triples src tables).toOption.bind fun ts =>
        (Naive.run (dict_len + max_output) ⟨out, rep, literals⟩ ts).map fun s =>
          (s.out, s.rep) := by
  rw [decode_capped_eq, triples]
  rcases safe_iff.mp (sequences_plan_safe ht hsrc) with ⟨plan, hplan, hvalid⟩ | ⟨e, hplan⟩
  swap
  · rw [hplan]
    exact ⟨(safe_fail (Q := fun _ => True)).noFault, rfl⟩
  rw [hplan, bind_ok, bind_ok]
  simp only [Naive.map_run]
  cases plan with
  | none =>
    refine append_literals tables [] rep max_output hdict ?_
    dsimp only
    rw [literals_only, headroom_ok hdict, bind_ok, pure_eq_ok]
  | some p =>
    have hp := hvalid p rfl
    have hnb := hp.nb_seq
    have hbits := hp.bits
    obtain ⟨hsafe, hloop⟩ := @exec_loop_naive p literals dict_len max_output hp p.nb_seq
      (p.start out rep) ⟨hdict, Nat.zero_le _, hlits, by simp only [Plan.start]; omega⟩ hp.br
      (by simp only [Plan.start]; omega)
    have hread : ((p.read_loop p.nb_seq p.reader >>= fun x => pure x.1 :
        Res (List Triple)).toOption.bind fun ts =>
          (ts.foldlM (Naive.step (dict_len + max_output)) ⟨out, rep, literals⟩).bind fun s =>
            (Lz77.literals (dict_len + max_output) s.literals.length s.literals s.out).map
              fun y => (y.1, s.rep)) =
        ((p.read_loop p.nb_seq p.reader).toOption.bind fun x =>
          x.1.foldlM (Naive.step (dict_len + max_output)) ⟨out, rep, literals⟩).bind fun s =>
            (Lz77.literals (dict_len + max_output) s.literals.length s.literals s.out).map
              fun y => (y.1, s.rep) := by
      rw [Option.bind_assoc]
      cases p.read_loop p.nb_seq p.reader <;> rfl
    change _ = (p.read_loop p.nb_seq p.reader).toOption.bind fun x =>
      x.1.foldlM (Naive.step (dict_len + max_output)) ⟨out, rep, literals⟩ at hloop
    dsimp only
    rw [hread, ← hloop]
    rcases safe_iff.mp hsafe with ⟨s, hs, hbudget⟩ | ⟨e, hs⟩
    · rw [hs, bind_ok]
      exact trailing_literals_naive p.tables hbudget
    · rw [hs]
      exact ⟨(safe_fail (Q := fun _ => True)).noFault, rfl⟩

/-- `decode_capped_eq_naive` on a section of one sequence: one literal and a match of five bytes one
back. -/
theorem decode_capped_eq_naive_run :
    (decode_capped [1, 0, 8, 78, 8] [7] [] SeqTables.default ⟨1, 4, 8⟩ 0 100).toOption.map
      (fun r => (r.out, r.rep)) = some ([7, 7, 7, 7, 7, 7], ⟨1, 1, 4⟩) := by
  have heq := (@decode_capped_eq_naive [1, 0, 8, 78, 8] [7] [] SeqTables.default ⟨1, 4, 8⟩ 0 100
    SeqTables.default_valid (by decide) (by decide) (by decide) (by decide)).2
  refine heq.trans ?_
  decide +kernel

end

end ZstdPure.Sequences
