import ZstdPure.Trace
import ZstdPure.Proofs.BlockProofs

/-!
# The buffer during a decode

At every point of a block, also of one that ends in an error, the buffer extends the one before the
block, stays within the ceiling and grows by at most the block maximum. Nothing is assumed of the
input here: the checks of the code alone give the bounds.
-/

namespace ZstdPure

open Outcome Fse Sequences

namespace Sequences

/-! ## Copying -/

theorem extend_from_within_ensures {out : Bytes} {start n : Nat} :
    Ensures (extend_from_within out start n) fun r => out <+: r ∧ r.length = out.length + n := by
  rw [extend_from_within]
  refine Ensures.after fun stop hstop => Ensures.after fun part hpart => Ensures.ok ?_
  obtain ⟨-, rfl⟩ := add_eq_ok.mp hstop
  obtain ⟨⟨h₁, h₂⟩, rfl⟩ := slice_eq_ok.mp hpart
  refine ⟨List.prefix_append _ _, ?_⟩
  rw [List.length_append, List.length_drop, List.length_take]
  omega

theorem copyAt_ensures {xs ys : Bytes} {i : Nat} :
    Ensures (copyAt xs i ys : Res Bytes) fun r => r.length = xs.length := by
  rw [copyAt]
  refine ensures_ite (fun h => Ensures.ok ?_) fun _ => ensures_error
  rw [List.length_append, List.length_append, List.length_take, List.length_drop]
  omega

/-- A pattern copied in chunks of 64 bytes. -/
theorem copy_power_of_two_pattern_ensures {out : Bytes} {start off n : Nat} :
    Ensures (copy_power_of_two_pattern out start off n) fun r =>
      out <+: r ∧ r.length = out.length + n := by
  rw [copy_power_of_two_pattern]
  refine Ensures.after fun stop _ => Ensures.after fun pattern _ => ?_
  refine copyAt_ensures.bind fun chunk hchunk => ?_
  rw [List.length_replicate] at hchunk
  refine (Ensures.loop (fun s : Bytes × Nat => s.1.length = 64) ?_ 65 (chunk, off) hchunk).bind ?_
  · rintro ⟨chunk, filled⟩ hlen -
    refine Ensures.after fun free _ => Ensures.after fun head _ => copyAt_ensures.bind fun c hc =>
      Ensures.after fun m _ => Ensures.ok ?_
    exact hc.trans hlen
  rintro ⟨chunk, filled⟩ ⟨hlen, -⟩
  dsimp only at hlen ⊢
  refine (Ensures.loop (fun s : Bytes × Nat => out <+: s.1 ∧ s.1.length + s.2 = out.length + n) ?_
    (n + 1) (out, n) ⟨List.prefix_rfl, rfl⟩).bind ?_
  · rintro ⟨o, left⟩ ⟨hpre, hsum⟩ -
    refine Ensures.after fun left' hleft => Ensures.ok ?_
    obtain ⟨h64, rfl⟩ := sub_eq_ok.mp hleft
    dsimp only at hpre hsum h64 ⊢
    exact ⟨hpre.trans (List.prefix_append _ _), by rw [List.length_append]; omega⟩
  rintro ⟨o, left⟩ ⟨⟨hpre, hsum⟩, hexit⟩
  have hlt : left < 64 := by simpa using hexit
  dsimp only at hpre hsum ⊢
  refine ensures_ite (fun _ => Ensures.after fun part hpart => Ensures.ok ?_) fun h0 =>
    Ensures.ok ⟨hpre, by omega⟩
  obtain ⟨⟨-, h₂⟩, rfl⟩ := slice_eq_ok.mp hpart
  refine ⟨hpre.trans (List.prefix_append _ _), ?_⟩
  rw [List.length_append, List.drop_zero, List.length_take]
  omega

/-- A match appends its length. -/
theorem copy_match_ensures {out : Bytes} {off n : Nat} :
    Ensures (copy_match out off n) fun r => out <+: r ∧ r.length = out.length + n := by
  rw [copy_match]
  refine Ensures.after fun start _ => ensures_ite (fun _ => extend_from_within_ensures) fun _ =>
    ensures_ite (fun _ => Ensures.after fun b _ => Ensures.ok ?_) fun _ =>
    ensures_ite (fun _ => copy_power_of_two_pattern_ensures) fun _ => ?_
  · exact ⟨List.prefix_append _ _, by rw [List.length_append, List.length_replicate]⟩
  refine (Ensures.loop (fun s : Bytes × Nat => out <+: s.1 ∧ s.1.length + s.2 = out.length + n) ?_
    (n + 1) (out, n) ⟨List.prefix_rfl, rfl⟩).bind ?_
  · rintro ⟨o, left⟩ ⟨hpre, hsum⟩ -
    refine Ensures.after fun avail _ => extend_from_within_ensures.bind fun o' ho =>
      Ensures.after fun left' hleft => Ensures.ok ?_
    obtain ⟨hle, rfl⟩ := sub_eq_ok.mp hleft
    dsimp only at hpre hsum ho hle ⊢
    exact ⟨hpre.trans ho.1, by omega⟩
  rintro ⟨o, left⟩ ⟨⟨hpre, hsum⟩, hexit⟩
  have h0 : left = 0 := by simpa using hexit
  dsimp only at hpre hsum
  exact Ensures.ok ⟨hpre, by omega⟩

/-! ## One sequence -/

/-- A buffer reached from `out` by growing it within the ceiling. -/
structure Grown (env : ExecEnv) (out out' : Bytes) : Prop where
  out_extends : out <+: out'
  ceiling : out'.length ≤ max out.length (env.dict_len + env.max_output)

theorem Grown.refl (env : ExecEnv) (out : Bytes) : Grown env out out :=
  ⟨List.prefix_rfl, le_max_left _ _⟩

theorem Grown.trans {env : ExecEnv} {a b c : Bytes} (h : Grown env a b) (h' : Grown env b c) :
    Grown env a c :=
  ⟨h.out_extends.trans h'.out_extends, h'.ceiling.trans (max_le h.ceiling (le_max_right _ _))⟩

theorem headroom_ensures {dict_len max_output : Nat} {out : Bytes} :
    Ensures (headroom dict_len max_output out) fun room =>
      dict_len ≤ out.length ∧ room = max_output - (out.length - dict_len) := by
  rw [headroom]
  refine Ensures.after fun real hreal => Ensures.ok ?_
  obtain ⟨hle, rfl⟩ := sub_eq_ok.mp hreal
  exact ⟨hle, rfl⟩

theorem triple_trace_grown {env : ExecEnv} {ll0 : Bool} {t : Triple} {s : ExecState} :
    ∀ o ∈ triple_trace env ll0 t s, Grown env s.out o := by
  intro o ho
  unfold triple_trace at ho
  split at ho
  · rename_i off rep room hoff hroom
    obtain ⟨hdict, rfl⟩ := headroom_ensures _ hroom
    dsimp only at ho
    split_ifs at ho with hc
    · simp at ho
    · obtain rfl := List.mem_singleton.mp ho
      refine ⟨List.prefix_append _ _, ?_⟩
      rw [List.length_append, List.length_take, List.length_drop]
      omega
    · have hlits : ((env.literals.drop s.lit_pos).take t.lit_len).length = t.lit_len := by
        rw [List.length_take, List.length_drop]; omega
      have h₁ : Grown env s.out (s.out ++ (env.literals.drop s.lit_pos).take t.lit_len) :=
        ⟨List.prefix_append _ _, by rw [List.length_append]; omega⟩
      split at ho
      · rename_i copied hcopy
        obtain ⟨hpre, hlen⟩ := copy_match_ensures _ hcopy
        rw [List.length_append, hlits] at hlen
        simp only [List.mem_cons, List.not_mem_nil, or_false] at ho
        rcases ho with rfl | rfl
        · exact h₁
        · exact ⟨(List.prefix_append _ _).trans hpre, by omega⟩
      · obtain rfl := List.mem_singleton.mp ho
        exact h₁
  · simp at ho

/-- The buffer after a triple is the last one on its trace. -/
theorem exec_triple_trace {env : ExecEnv} {ll0 : Bool} {t : Triple} {s s' : ExecState}
    (h : exec_triple env ll0 t s = .ok s') :
    ∃ o, triple_trace env ll0 t s = [o, s'.out] := by
  rw [exec_triple] at h
  obtain ⟨⟨off, rep⟩, hoff, h⟩ := bind_eq_ok.mp h
  obtain ⟨h0, h⟩ := guard_eq_ok.mp h
  obtain ⟨total, htotal, h⟩ := bind_eq_ok.mp h
  obtain ⟨room, hroom, h⟩ := bind_eq_ok.mp h
  obtain ⟨hr, h⟩ := guard_eq_ok.mp h
  obtain ⟨lit_end, hend, h⟩ := bind_eq_ok.mp h
  obtain ⟨hl, h⟩ := guard_eq_ok.mp h
  obtain ⟨lits, hlits, h⟩ := bind_eq_ok.mp h
  obtain ⟨ho, h⟩ := guard_eq_ok.mp h
  obtain ⟨copied, hcopy, h⟩ := bind_eq_ok.mp h
  have hout : s'.out = copied := by rw [← Except.ok.inj h]
  have htotal' := (add_eq_ok.mp htotal).2
  have hend' := (add_eq_ok.mp hend).2
  have hlits' : lits = (env.literals.drop s.lit_pos).take t.lit_len := by
    rw [(slice_eq_ok.mp hlits).2, hend', List.take_drop]
  rw [hlits'] at ho hcopy
  refine ⟨s.out ++ (env.literals.drop s.lit_pos).take t.lit_len, ?_⟩
  unfold triple_trace
  rw [hoff, hroom]
  dsimp only
  rw [if_neg (by omega), if_neg ho, hcopy, hout]

theorem exec_step_triple {env : ExecEnv} {more : Bool} {s s' : ExecState}
    (h : exec_step env more s = .ok s') :
    ∃ ll0 t br s₁, next_triple env s = .ok (ll0, t) ∧
      exec_triple env ll0 t { s with br } = .ok s₁ ∧ s'.out = s₁.out := by
  rw [exec_step] at h
  obtain ⟨e_ll, h₁, h⟩ := bind_eq_ok.mp h
  obtain ⟨e_ml, h₂, h⟩ := bind_eq_ok.mp h
  obtain ⟨e_of, h₃, h⟩ := bind_eq_ok.mp h
  obtain ⟨hrange, h⟩ := guard_eq_ok.mp h
  obtain ⟨⟨t, br⟩, h₄, h⟩ := bind_eq_ok.mp h
  obtain ⟨s₁, h₅, h⟩ := bind_eq_ok.mp h
  have hnext : next_triple env s = .ok (e_ll.symbol == 0, t) := by
    rw [next_triple, h₁, bind_ok, h₂, bind_ok, h₃, bind_ok, if_neg hrange, h₄]
    rfl
  refine ⟨_, t, br, s₁, hnext, h₅, ?_⟩
  by_cases hm : more = true
  · rw [if_pos hm] at h
    obtain ⟨n, -, h⟩ := bind_eq_ok.mp h
    obtain ⟨m, -, h⟩ := bind_eq_ok.mp h
    obtain ⟨b₁, -, h⟩ := bind_eq_ok.mp h
    obtain ⟨p₁, -, h⟩ := bind_eq_ok.mp h
    obtain ⟨p₂, -, h⟩ := bind_eq_ok.mp h
    obtain ⟨p₃, -, h⟩ := bind_eq_ok.mp h
    obtain rfl := Except.ok.inj h
    rfl
  · rw [if_neg hm] at h
    obtain rfl := Except.ok.inj h
    rfl

theorem step_trace_grown {env : ExecEnv} {s : ExecState} :
    ∀ o ∈ step_trace env s, Grown env s.out o := by
  intro o ho
  unfold step_trace at ho
  split at ho
  · exact triple_trace_grown o ho
  · simp at ho

theorem exec_step_trace {env : ExecEnv} {more : Bool} {s s' : ExecState}
    (h : exec_step env more s = .ok s') : ∃ o, step_trace env s = [o, s'.out] := by
  obtain ⟨ll0, t, br, s₁, hnext, hexec, hout⟩ := exec_step_triple h
  obtain ⟨o, htrace⟩ := exec_triple_trace hexec
  refine ⟨o, ?_⟩
  unfold step_trace
  rw [hnext, hout]
  exact htrace

theorem exec_step_grown {env : ExecEnv} {more : Bool} {s s' : ExecState}
    (h : exec_step env more s = .ok s') : Grown env s.out s'.out := by
  obtain ⟨o, htrace⟩ := exec_step_trace h
  exact step_trace_grown _ (by rw [htrace]; simp)

/-! ## The loop -/

theorem loop_trace_grown {env : ExecEnv} : ∀ (n : Nat) (s : ExecState),
    ∀ o ∈ loop_trace env n s, Grown env s.out o := by
  intro n
  induction n with
  | zero => intro s o ho; simp [loop_trace] at ho
  | succ n ih =>
    intro s o ho
    rw [loop_trace, List.mem_append] at ho
    rcases ho with ho | ho
    · exact step_trace_grown o ho
    · split at ho
      · rename_i s₁ hs₁
        exact (exec_step_grown hs₁).trans (ih s₁ o ho)
      · simp at ho

theorem exec_loop_grown {env : ExecEnv} : ∀ (n : Nat) {s s' : ExecState},
    exec_loop env n s = .ok s' → Grown env s.out s'.out := by
  intro n
  induction n with
  | zero =>
    intro s s' h
    obtain rfl := Except.ok.inj h
    exact Grown.refl _ _
  | succ n ih =>
    intro s s' h
    rw [exec_loop] at h
    obtain ⟨s₁, h₁, h⟩ := bind_eq_ok.mp h
    exact (exec_step_grown h₁).trans (ih h)

/-! ## The sequences section -/

/-- The buffer that a call returns is grown within the ceiling. -/
theorem literals_only_ensures {literals out : Bytes} {tables : SeqTables} {rep : Reps}
    {dict_len max_output : Nat} :
    Ensures (literals_only literals out tables rep dict_len max_output) fun r =>
      out <+: r.out ∧ r.out.length ≤ max out.length (dict_len + max_output) := by
  rw [literals_only]
  refine headroom_ensures.bind fun room hroom => ensures_ite (fun _ => ensures_fail) fun hle =>
    Ensures.ok ?_
  obtain ⟨hdict, rfl⟩ := hroom
  exact ⟨List.prefix_append _ _, by rw [List.length_append]; omega⟩

theorem trailing_literals_ensures {env : ExecEnv} {tables : SeqTables} {s : ExecState} :
    Ensures (trailing_literals env tables s) fun r => Grown env s.out r.out := by
  rw [trailing_literals]
  refine Ensures.after fun left hleft => headroom_ensures.bind fun room hroom =>
    ensures_ite (fun _ => ensures_fail) fun hle => Ensures.after fun trailing ht => Ensures.ok ?_
  obtain ⟨hlit, rfl⟩ := sub_eq_ok.mp hleft
  obtain ⟨hdict, rfl⟩ := hroom
  obtain ⟨-, rfl⟩ := sliceFrom_eq_ok.mp ht
  refine ⟨List.prefix_append _ _, ?_⟩
  rw [List.length_append, List.length_drop]
  omega

/-- Every buffer on the trace of a sequences section. -/
theorem capped_trace_grown {src literals out : Bytes} {tables : SeqTables} {rep : Reps}
    {dict_len max_output : Nat} :
    ∀ o ∈ capped_trace src literals out tables rep dict_len max_output,
      out <+: o ∧ o.length ≤ max out.length (dict_len + max_output) := by
  intro o ho
  unfold capped_trace at ho
  split at ho
  · unfold last_buffer at ho
    split at ho
    · rename_i r hr
      obtain rfl := List.mem_singleton.mp ho
      exact literals_only_ensures _ hr
    · simp at ho
  · rename_i p hp
    have hgrown : Grown (p.env literals dict_len max_output) (p.start out rep).out o := by
      rcases List.mem_append.mp ho with ho | ho
      · exact loop_trace_grown _ _ o ho
      · unfold last_buffer at ho
        split at ho
        · rename_i r hr
          obtain rfl := List.mem_singleton.mp ho
          obtain ⟨s, hs, hr⟩ := bind_eq_ok.mp hr
          exact (exec_loop_grown _ hs).trans (trailing_literals_ensures _ hr)
        · simp at ho
    exact ⟨hgrown.out_extends, hgrown.ceiling⟩
  · simp at ho

/-- The buffer that `decode_capped` returns is the last one on its trace. -/
theorem capped_trace_last {src literals out : Bytes} {tables : SeqTables} {rep : Reps}
    {dict_len max_output : Nat} {r : SeqOut}
    (h : decode_capped src literals out tables rep dict_len max_output = .ok r) (o : Bytes) :
    (capped_trace src literals out tables rep dict_len max_output).getLastD o = r.out := by
  rw [decode_capped_eq] at h
  obtain ⟨plan, hplan, h⟩ := bind_eq_ok.mp h
  unfold capped_trace
  rw [hplan]
  cases plan with
  | none =>
    dsimp only at h ⊢
    rw [h]
    rfl
  | some p =>
    dsimp only at h ⊢
    rw [h, last_buffer, List.getLastD_concat]

end Sequences

/-! ## Blocks -/

namespace BlockState

theorem check_ceiling_ensures {s : BlockState} {extra : Nat} :
    Ensures (s.check_ceiling extra) fun _ => s.out.length - s.dict_len + extra ≤ s.max_output := by
  rw [check_ceiling, output_len]
  refine Ensures.after fun n hn => ensures_ite (fun _ => ensures_fail) fun hc => Ensures.ok ?_
  obtain ⟨-, rfl⟩ := sub_eq_ok.mp hn
  omega

/-- A block that returns grows the buffer within the ceiling and by at most `n` bytes. -/
structure Appended (s s' : BlockState) (n : Nat) : Prop where
  same : s.SameFrame s'
  out_extends : s.out <+: s'.out
  length : s'.out.length ≤ s.out.length + n
  ceiling : s'.out.length ≤ max s.out.length (s.dict_len + s.max_output)

theorem decode_raw_ensures {s : BlockState} {data : Bytes} :
    Ensures (s.decode_raw data) fun s' => s.Appended s' data.length := by
  rw [decode_raw]
  refine check_ceiling_ensures.bind fun _ hc => Ensures.ok ⟨⟨rfl, rfl, rfl⟩, List.prefix_append _ _,
    (List.length_append).le, ?_⟩
  rw [List.length_append]
  omega

theorem decode_rle_ensures {s : BlockState} {b : UInt8} {count : Nat} :
    Ensures (s.decode_rle b count) fun s' => s.Appended s' count := by
  rw [decode_rle]
  refine check_ceiling_ensures.bind fun _ hc => Ensures.ok ⟨⟨rfl, rfl, rfl⟩, List.prefix_append _ _,
    ?_, ?_⟩
  · rw [List.length_append, List.length_replicate]
  · rw [List.length_append, List.length_replicate]
    omega

theorem compressed_trace_grown {s : BlockState} {data : Bytes} (hdict : s.dict_len ≤ s.out.length) :
    ∀ o ∈ s.compressed_trace data, s.out <+: o ∧
      o.length ≤ max s.out.length (s.dict_len + s.max_output) ∧
      o.length ≤ s.out.length + s.block_max := by
  intro o ho
  unfold compressed_trace at ho
  split at ho
  · obtain ⟨hpre, hlen⟩ := capped_trace_grown o ho
    exact ⟨hpre, by omega, by omega⟩
  · simp at ho

theorem decode_compressed_trace {s s' : BlockState} {data : Bytes}
    (h : s.decode_compressed data = .ok s') : s.SameFrame s' ∧
      ∀ o, (s.compressed_trace data).getLastD o = s'.out := by
  rw [decode_compressed] at h
  obtain ⟨lits, hlits, h⟩ := bind_eq_ok.mp h
  obtain ⟨real, hreal, h⟩ := bind_eq_ok.mp h
  obtain ⟨body, hbody, h⟩ := bind_eq_ok.mp h
  obtain ⟨r, hr, h⟩ := bind_eq_ok.mp h
  have hreal' := (sub_eq_ok.mp hreal).2
  rw [(sliceFrom_eq_ok.mp hbody).2, hreal'] at hr
  rw [← Except.ok.inj h]
  refine ⟨⟨rfl, rfl, rfl⟩, fun o => ?_⟩
  unfold compressed_trace
  rw [hlits]
  exact capped_trace_last hr o

/-- The last buffer of a trace on which every buffer has a property has it too. -/
theorem getLastD_of_forall {l : List Bytes} {o : Bytes} {P : Bytes → Prop} (h0 : P o)
    (h : ∀ x ∈ l, P x) : P (l.getLastD o) := by
  rw [List.getLastD_eq_getLast?]
  cases hl : l.getLast? with
  | none => exact h0
  | some x => exact h x (List.mem_of_getLast? hl)

theorem decode_compressed_ensures {s : BlockState} {data : Bytes}
    (hdict : s.dict_len ≤ s.out.length) :
    Ensures (s.decode_compressed data) fun s' => s.Appended s' s.block_max := by
  intro s' h
  obtain ⟨hsame, hlast⟩ := decode_compressed_trace h
  have hgrown := getLastD_of_forall (l := s.compressed_trace data) (o := s.out)
    (P := fun o => s.out <+: o ∧ o.length ≤ max s.out.length (s.dict_len + s.max_output) ∧
      o.length ≤ s.out.length + s.block_max)
    ⟨List.prefix_rfl, le_max_left _ _, Nat.le_add_right _ _⟩ (compressed_trace_grown hdict)
  rw [hlast] at hgrown
  exact ⟨hsame, hgrown.1, hgrown.2.2, hgrown.2.1⟩

/-- A block grows the buffer within the ceiling and by at most the block maximum. -/
theorem decode_block_at_ensures {s : BlockState} {src : Bytes} {pos : Nat}
    (hdict : s.dict_len ≤ s.out.length) :
    Ensures (s.decode_block_at src pos) fun r => s.Appended r.1 s.block_max := by
  intro r h
  have hcounted {s' : BlockState} {n : Nat} (h : s.counted.Appended s' n) (hn : n ≤ s.block_max) :
      s.Appended s' s.block_max :=
    ⟨⟨h.same.1, h.same.2, h.same.3⟩, h.out_extends, h.length.trans (Nat.add_le_add_left hn _),
      h.ceiling⟩
  cases decode_block_at_cases h with
  | @raw header s' _ _ hsize _ _ hdecode =>
    have hd := decode_raw_ensures _ hdecode
    refine hcounted hd ?_
    rw [body, List.length_drop, List.length_take]
    omega
  | rle _ _ hsize _ _ hdecode => exact hcounted (decode_rle_ensures _ hdecode) hsize
  | compressed _ _ _ _ _ hdecode =>
    exact hcounted (decode_compressed_ensures (s := s.counted) hdict _ hdecode) le_rfl

theorem decode_raw_trace {s s' : BlockState} {data : Bytes} (h : s.decode_raw data = .ok s') :
    s.raw_trace data = [s'.out] := by
  rw [decode_raw] at h
  obtain ⟨u, hcheck, h⟩ := bind_eq_ok.mp h
  rw [raw_trace, hcheck, ← Except.ok.inj h]

theorem decode_rle_trace {s s' : BlockState} {b : UInt8} {count : Nat}
    (h : s.decode_rle b count = .ok s') : s.rle_trace b count = [s'.out] := by
  rw [decode_rle] at h
  obtain ⟨u, hcheck, h⟩ := bind_eq_ok.mp h
  rw [rle_trace, hcheck, ← Except.ok.inj h]

theorem raw_trace_grown {s : BlockState} {data : Bytes} : ∀ o ∈ s.raw_trace data, s.out <+: o ∧
    o.length ≤ max s.out.length (s.dict_len + s.max_output) ∧ o.length ≤ s.out.length +
      data.length := by
  intro o ho
  cases hcheck : s.check_ceiling data.length with
  | error => rw [raw_trace, hcheck] at ho; exact absurd ho List.not_mem_nil
  | ok u =>
    have hdecode : s.decode_raw data = .ok { s with out := s.out ++ data } := by
      rw [decode_raw, hcheck, bind_ok, pure_eq_ok]
    have h := decode_raw_ensures _ hdecode
    rw [decode_raw_trace hdecode] at ho
    rw [List.mem_singleton.mp ho]
    exact ⟨h.out_extends, h.ceiling, h.length⟩

theorem rle_trace_grown {s : BlockState} {b : UInt8} {count : Nat} : ∀ o ∈ s.rle_trace b count,
    s.out <+: o ∧ o.length ≤ max s.out.length (s.dict_len + s.max_output) ∧
      o.length ≤ s.out.length + count := by
  intro o ho
  cases hcheck : s.check_ceiling count with
  | error => rw [rle_trace, hcheck] at ho; exact absurd ho List.not_mem_nil
  | ok u =>
    have hdecode : s.decode_rle b count =
      .ok { s with out := s.out ++ List.replicate count b } := by
      rw [decode_rle, hcheck, bind_ok, pure_eq_ok]
    have h := decode_rle_ensures _ hdecode
    rw [decode_rle_trace hdecode] at ho
    rw [List.mem_singleton.mp ho]
    exact ⟨h.out_extends, h.ceiling, h.length⟩

/-- Every buffer on the trace of a block extends the one before it, within the ceiling and by at
most the block maximum. -/
theorem block_trace_grown {s : BlockState} {src : Bytes} {pos : Nat}
    (hdict : s.dict_len ≤ s.out.length) : ∀ o ∈ s.block_trace src pos,
      s.out <+: o ∧ o.length ≤ max s.out.length (s.dict_len + s.max_output) ∧
        o.length ≤ s.out.length + s.block_max := by
  intro o ho
  unfold block_trace at ho
  split at ho
  · rename_i header hheader
    split_ifs at ho with hguard
    · exact absurd ho List.not_mem_nil
    · have hsize : header.block_size ≤ s.block_max := Nat.le_of_not_lt fun h => hguard (Or.inl h)
      unfold body_trace at ho
      dsimp only at ho
      split_ifs at ho with h0 hstop h1 h2 hstop
      · exact absurd ho List.not_mem_nil
      · obtain ⟨hpre, hceil, hlen⟩ := raw_trace_grown o ho
        rw [List.length_drop, List.length_take] at hlen
        exact ⟨hpre, hceil, by dsimp only at hlen; omega⟩
      · split at ho
        · obtain ⟨hpre, hceil, hlen⟩ := rle_trace_grown o ho
          exact ⟨hpre, hceil, hlen.trans (Nat.add_le_add_left hsize _)⟩
        · exact absurd ho List.not_mem_nil
      · exact absurd ho List.not_mem_nil
      · exact compressed_trace_grown (s := { s with blocks := s.blocks + 1 }) hdict o ho
      · exact absurd ho List.not_mem_nil
  · exact absurd ho List.not_mem_nil

/-- The buffer that `decode_block_at` returns is the last one on its trace. -/
theorem buffer_after_ok {s : BlockState} {src : Bytes} {pos : Nat}
    {r : BlockState × Nat × Bool} (h : s.decode_block_at src pos = .ok r) :
    s.buffer_after src pos = r.1.out := by
  have htrace {header : BlockHeader} (hheader : header_at src pos = .ok header)
      (hsize : header.block_size ≤ s.block_max) (husize : pos + 3 ≤ usizeMax) :
      s.block_trace src pos = s.counted.body_trace src header (pos + 3) := by
    rw [header_at] at hheader
    rw [block_trace, hheader]
    exact if_neg (by omega)
  rw [buffer_after]
  cases decode_block_at_cases h with
  | @raw header s' hheader htype hsize husize hstop hdecode =>
    rw [htrace hheader hsize (by omega), body_trace, if_pos htype, if_neg (by omega)]
    rw [body] at hdecode
    rw [decode_raw_trace hdecode]
    rfl
  | @rle header b s' hheader htype hsize husize hbyte hdecode =>
    rw [htrace hheader hsize (by omega), body_trace, if_neg (by omega), if_pos htype, hbyte]
    dsimp only
    rw [decode_rle_trace hdecode]
    rfl
  | @compressed header s' hheader htype hsize husize hstop hdecode =>
    rw [htrace hheader hsize (by omega), body_trace, if_neg (by omega), if_neg (by omega),
      if_pos htype,
      if_neg (by omega)]
    rw [body] at hdecode
    exact (decode_compressed_trace hdecode).2 _

end BlockState

end ZstdPure
