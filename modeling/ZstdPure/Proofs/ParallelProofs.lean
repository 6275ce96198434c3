import ZstdPure.Encode.Parallel
import ZstdPure.Proofs.RoundTripProofs

/-!
# Proofs: one frame from several workers

No worker knows the repeat offsets or the tables that the one before it ends with. It starts from
unknown ones, and the decoder, which carries them over the seam, follows it all the same.
-/

namespace ZstdPure.Encode

open Outcome Sequences BlockState

/-! ## One worker -/

section Segment

variable {data pre view rest : Bytes} {overlap max_output : Nat} {params : CParams} {d : BlockState}
  {init_rep : Reps}

/-- The session of a worker, primed with the bytes before its segment. -/
theorem segment_sound (params : CParams) (hover : overlap ≤ view.length) (hrep : Fits32 init_rep) :
    (⟨if 0 < overlap then (Finder.new params).prime asI32 view overlap (2 ^ params.window_log)
        else Finder.new params, none, ⟨init_rep, EncTables.default⟩⟩ : Session).Sound view
          overlap := by
  refine ⟨?_, fun _ hst => by simp at hst, hrep⟩
  have hnew := Finder.Sound.new params view
  split_ifs with h
  · exact hnew.prime hover _
  · exact hnew.mono (Nat.zero_le _)

/-- A worker starts with tables that belong to any, and with repeat offsets that it knows. -/
theorem segment_related (hk : Knows init_rep d.rep) :
    (⟨init_rep, EncTables.default⟩ : EncState).RelatedTo d :=
  ⟨hk, EncTables.default_related d⟩

/-- A worker over its segment beside a decoder. It starts from the given repeat offsets and without
tables. -/
def SegmentLockstep (view : Bytes) (overlap : Nat) (params : CParams) (init_rep : Reps)
    (is_last : Bool)
    (src : Bytes) (p p' : BlockPos) : Prop :=
  ∃ s : Session, s.state = ⟨init_rep, EncTables.default⟩ ∧
    compress_segment view overlap params init_rep is_last =
      encode_blocks (regular_env params) is_last view overlap s ∧
    LockstepRun (regular_env params) is_last view src overlap s p p'

theorem SegmentLockstep.run {is_last : Bool} {src : Bytes} {p p' : BlockPos}
    (h : SegmentLockstep view overlap params init_rep is_last src p p')
      (hover : overlap < view.length) :
    BlocksRun src p p' := by
  obtain ⟨_, -, -, hrun⟩ := h
  exact hrun.run hover

/-- The decoder follows the blocks of a worker over its segment. -/
theorem compress_segment_run (hview : view.length < 2 ^ 31) (hover : overlap < view.length)
    (hrep : Fits32 init_rep) (hk : Knows init_rep d.rep) (hroom : RoomFor view pre overlap d)
    (is_last : Bool) (before rest : Bytes)
    (hsrc : (before ++ (compress_segment view overlap params init_rep is_last ++ rest)).length <
      2 ^ 63) :
    ∃ d', SegmentLockstep view overlap params init_rep is_last
        (before ++ (compress_segment view overlap params init_rep is_last ++ rest))
        ⟨d, before.length, false⟩
        ⟨d', before.length + (compress_segment view overlap params init_rep is_last).length,
          is_last⟩ ∧
      Decoded (2 ^ params.window_log) view pre view.length d d' := by
  have hs := @segment_sound view overlap init_rep params (Nat.le_of_lt hover) hrep
  have hcast : (regular_env params).cast = asI32 := by rw [regular_env]
  unfold SegmentLockstep
  unfold compress_segment at hsrc ⊢
  dsimp only at hsrc ⊢
  obtain ⟨d', hrun, hdec⟩ := encode_blocks_lockstep hcast hview (regular_env_searches params)
    is_last rest
    _ (le_refl _) hover hs (segment_related hk) hroom before hsrc
  exact ⟨d', ⟨_, rfl, rfl, hrun⟩, hdec⟩

theorem length_compress_segment_le (view : Bytes) (overlap : Nat) (params : CParams)
    (init_rep : Reps)
    (is_last : Bool) : (compress_segment view overlap params init_rep is_last).length ≤
      4 * (view.length - overlap) := by
  unfold compress_segment
  exact length_encode_blocks_mul _ _ _ _ (le_refl _)

end Segment

/-! ## The plan -/

section Plan

variable {len jobs seam_overlap i : Nat}

/-- Where the `i`-th segment starts. -/
def seam (len jobs i : Nat) : Nat := i * len / jobs

theorem seam_zero (len jobs : Nat) : seam len jobs 0 = 0 := by
  rw [seam, Nat.zero_mul, Nat.zero_div]

theorem seam_last (len : Nat) (hjobs : 0 < jobs) : seam len jobs jobs = len := by
  rw [seam, Nat.mul_comm, Nat.mul_div_cancel _ hjobs]

/-- Every segment has bytes when there are at least as many as jobs. -/
theorem seam_lt (hjobs : 0 < jobs) (hlen : jobs ≤ len) (i : Nat) :
    seam len jobs i < seam len jobs (i + 1) := by
  have hstep : i * len / jobs + 1 ≤ (i + 1) * len / jobs := by
    rw [Nat.le_div_iff_mul_le hjobs, Nat.add_mul, Nat.add_mul]
    have hdiv := Nat.div_mul_le_self (i * len) jobs
    omega
  exact hstep

theorem seam_le (hjobs : 0 < jobs) (hi : i ≤ jobs) : seam len jobs i ≤ len := by
  have hle : i * len / jobs ≤ jobs * len / jobs := Nat.div_le_div_right (Nat.mul_le_mul_right _ hi)
  rw [Nat.mul_comm jobs, Nat.mul_div_cancel _ hjobs] at hle
  exact hle

/-- The segment of a job, as a part of the data. -/
theorem plan_job_spec (len jobs seam_overlap i : Nat) :
    (plan_job len jobs seam_overlap i).lo + (plan_job len jobs seam_overlap i).overlap =
        seam len jobs i ∧
      (plan_job len jobs seam_overlap i).hi = seam len jobs (i + 1) := by
  refine ⟨?_, rfl⟩
  show seam len jobs i - (if i = 0 then 0 else min (seam len jobs i) seam_overlap) +
    (if i = 0 then 0 else min (seam len jobs i) seam_overlap) = seam len jobs i
  split_ifs
  · omega
  · omega

/-- The first job knows the repeat offsets, and no other one knows any. -/
theorem plan_job_rep {rep : Reps} (hrep : i = 0 → rep = ⟨1, 4, 8⟩) :
    Knows (plan_job len jobs seam_overlap i).init_rep rep ∧
      Fits32 (plan_job len jobs seam_overlap i).init_rep := by
  show Knows (if i = 0 then ⟨1, 4, 8⟩ else ⟨0, 0, 0⟩) rep ∧
    Fits32 (if i = 0 then ⟨1, 4, 8⟩ else ⟨0, 0, 0⟩)
  split_ifs with h
  · rw [hrep h]
    exact ⟨Knows.refl _, Fits32.start⟩
  · exact ⟨Knows.unknown _, by decide, by decide, by decide⟩

end Plan

/-! ## All workers -/

section Jobs

variable {data rest : Bytes} {params : CParams} {jobs seam_overlap i : Nat} {d : BlockState}

/-- The view of a job. -/
theorem job_view (data : Bytes) (hjobs : 0 < jobs) (hlen : jobs ≤ data.length) (hi : i < jobs) :
    ∃ lo overlap, plan_job data.length jobs seam_overlap i =
        ⟨lo, overlap, seam data.length jobs (i + 1),
          (plan_job data.length jobs seam_overlap i).init_rep, i == jobs - 1⟩ ∧
      lo + overlap = seam data.length jobs i ∧
      (range_of data lo (seam data.length jobs (i + 1))).length = seam data.length jobs (i + 1) -
        lo ∧
      overlap < (range_of data lo (seam data.length jobs (i + 1))).length := by
  obtain ⟨hlo, hhi⟩ := plan_job_spec data.length jobs seam_overlap i
  have hlt := seam_lt hjobs hlen i
  have hle := @seam_le data.length jobs (i + 1) hjobs hi
  have hview := length_range (p := (plan_job data.length jobs seam_overlap i).lo) data hle
  refine ⟨(plan_job data.length jobs seam_overlap i).lo,
    (plan_job data.length jobs seam_overlap i).overlap,
    rfl, hlo, hview, ?_⟩
  omega

/-- A worker of the plan beside a decoder. -/
def JobLockstep (data : Bytes) (params : CParams) (job : Job) : Bytes → BlockPos → BlockPos →
    Prop :=
  SegmentLockstep (range_of data job.lo job.hi) job.overlap params job.init_rep job.is_last

/-- The decoder follows the `i`-th worker over its segment. -/
theorem run_job_run (hdata : data.length < 2 ^ 31) (hjobs : 0 < jobs) (hlen : jobs ≤ data.length)
    (hi : i < jobs) (hrep : i = 0 → d.rep = ⟨1, 4, 8⟩)
      (hroom : RoomFor data [] (seam data.length jobs i) d)
    (before rest : Bytes)
    (hsrc : (before ++ (run_job data params (plan_job data.length jobs seam_overlap i) ++
      rest)).length <
      2 ^ 63) :
    ∃ d', JobLockstep data params (plan_job data.length jobs seam_overlap i)
        (before ++ (run_job data params (plan_job data.length jobs seam_overlap i) ++ rest))
        ⟨d, before.length, false⟩
        ⟨d', before.length + (run_job data params
          (plan_job data.length jobs seam_overlap i)).length,
          i == jobs - 1⟩ ∧
      Decoded (2 ^ params.window_log) data [] (seam data.length jobs (i + 1)) d d' := by
  obtain ⟨hk, hfits⟩ := @plan_job_rep data.length jobs seam_overlap i d.rep hrep
  obtain ⟨lo, overlap, hjob, hlo, hview, hover⟩ := @job_view jobs seam_overlap i data hjobs hlen hi
  have hlt := seam_lt hjobs hlen i
  have hle := @seam_le data.length jobs (i + 1) hjobs hi
  generalize (plan_job data.length jobs seam_overlap i).init_rep = init_rep at hk hfits hjob
  rw [hjob] at hsrc ⊢
  have hrun : run_job data params ⟨lo, overlap, seam data.length jobs (i + 1), init_rep,
    i == jobs - 1⟩ =
      compress_segment (range_of data lo (seam data.length jobs (i + 1))) overlap params init_rep
        (i == jobs - 1) := rfl
  rw [hrun] at hsrc ⊢
  have htake : ∀ n, n ≤ seam data.length jobs (i + 1) - lo → data.take lo ++
      (range_of data lo (seam data.length jobs (i + 1))).take n = data.take (lo + n) := by
    intro n hn
    have hpart : (range_of data lo (seam data.length jobs (i + 1))).take n =
        range_of data lo (lo + n) := by
      rw [range_of, range_of, List.take_drop, List.take_take, min_eq_left (by omega)]
    rw [hpart, take_append_range data (Nat.le_add_right _ _)]
  have hblock := hroom.block_max
  have hceiling := hroom.ceiling
  have hdict := hroom.dict
  have hpre : (data.take lo).length = lo := by
    rw [List.length_take, min_eq_left (by omega)]
  have hroom' : RoomFor (range_of data lo (seam data.length jobs (i + 1))) (data.take lo) overlap
    d := by
    refine ⟨?_, ?_, ?_, ?_, ?_⟩
    · rw [htake overlap (by omega), hlo]
      exact hroom.out
    · rw [hpre, hlo]
      exact hdict.trans (le_of_eq (Nat.zero_add _))
    · rw [hview]
      omega
    · rw [hview, hpre]
      have hceiling : 0 + data.length ≤ d.dict_len + d.max_output := hceiling
      omega
    · rw [hview, hpre]
      omega
  obtain ⟨d', hd', hdec⟩ := compress_segment_run (by omega) hover hfits hk hroom' (i == jobs - 1)
    before
    rest
    hsrc
  refine ⟨d', hd', ?_, hdec.same, hdec.near⟩
  rw [hdec.out, hview, htake _ (le_refl _), Nat.add_sub_cancel' (by omega), List.nil_append]

theorem JobLockstep.run {src : Bytes} {p p' : BlockPos} (hjobs : 0 < jobs)
    (hlen : jobs ≤ data.length)
    (hi : i < jobs)
    (h : JobLockstep data params (plan_job data.length jobs seam_overlap i) src p p') :
    BlocksRun src p p' := by
  obtain ⟨lo, overlap, hjob, -, -, hover⟩ := @job_view jobs seam_overlap i data hjobs hlen hi
  rw [hjob] at h
  exact SegmentLockstep.run h hover

/-- The segments from the `i`-th one on, one after the other, to the end of the frame. -/
theorem jobs_run (hdata : data.length < 2 ^ 31) (hjobs : 0 < jobs) (hlen : jobs ≤ data.length)
    (rest : Bytes) (n : Nat) : ∀ {i : Nat} {d : BlockState}, i + (n + 1) = jobs →
    (i = 0 → d.rep = ⟨1, 4, 8⟩) → RoomFor data [] (seam data.length jobs i) d → ∀ before : Bytes,
    (before ++ ((((List.range' i (n + 1)).map (plan_job data.length jobs seam_overlap)).map
      (run_job data params)).flatten ++ rest)).length < 2 ^ 63 →
    ∃ d', BlocksRun (before ++ ((((List.range' i (n + 1)).map
          (plan_job data.length jobs seam_overlap)).map (run_job data params)).flatten ++ rest))
        ⟨d, before.length, false⟩
        ⟨d', before.length + (((List.range' i (n + 1)).map
          (plan_job data.length jobs seam_overlap)).map (run_job data params)).flatten.length,
            true⟩ ∧
      Decoded (2 ^ params.window_log) data [] data.length d d' := by
  induction n with
  | zero =>
    intro i d hi hrep hroom before hsrc
    have hlast : (i == jobs - 1) = true := beq_iff_eq.mpr (by omega)
    have hend : seam data.length jobs (i + 1) = data.length := by
      rw [show i + 1 = jobs by omega, seam_last _ hjobs]
    have hone : (((List.range' i (0 + 1)).map (plan_job data.length jobs seam_overlap)).map
        (run_job data params)).flatten =
          run_job data params (plan_job data.length jobs seam_overlap i) := by
      rw [Nat.zero_add, List.range'_one, List.map_singleton, List.map_singleton,
        List.flatten_singleton]
    rw [hone] at hsrc ⊢
    obtain ⟨d', hjob, hdec⟩ := run_job_run hdata hjobs hlen (by omega) hrep hroom before rest hsrc
    have hrun := hjob.run hjobs hlen (by omega)
    rw [hlast] at hrun
    rw [hend] at hdec
    exact ⟨d', hrun, hdec⟩
  | succ n ih =>
    intro i d hi hrep hroom before hsrc
    have hlast : (i == jobs - 1) = false := beq_eq_false_iff_ne.mpr (by omega)
    have hmore : (((List.range' i (n + 1 + 1)).map (plan_job data.length jobs seam_overlap)).map
        (run_job data params)).flatten =
          run_job data params (plan_job data.length jobs seam_overlap i) ++
            (((List.range' (i + 1) (n + 1)).map (plan_job data.length jobs seam_overlap)).map
              (run_job data params)).flatten := by
      rw [List.range'_succ, List.map_cons, List.map_cons, List.flatten_cons]
    rw [hmore, List.append_assoc] at hsrc ⊢
    obtain ⟨d₁, hjob₁, hdec₁⟩ := run_job_run hdata hjobs hlen (by omega) hrep hroom before _ hsrc
    have hrun₁ := hjob₁.run hjobs hlen (by omega)
    rw [hlast] at hrun₁
    rw [← List.append_assoc before] at hsrc hrun₁ ⊢
    obtain ⟨d₂, hrun₂, hdec₂⟩ := ih (by omega) (fun h => absurd h (Nat.succ_ne_zero i))
      (hroom.next (Nat.le_of_lt (seam_lt hjobs hlen i)) hdec₁) _ hsrc
    rw [List.length_append, Nat.add_assoc] at hrun₂
    refine ⟨d₂, ?_, hdec₁.trans hdec₂⟩
    rw [@List.length_append _ (run_job data params (plan_job data.length jobs seam_overlap i))]
    exact hrun₁.trans hrun₂

/-- The decoder follows all workers, from the start of a frame to the data. -/
theorem plan_run (hdata : data.length < 2 ^ 31) (h10 : 10 ≤ params.window_log)
    (hwindow : min data.length BLOCK_SIZE_MAX ≤ 2 ^ params.window_log) (hjobs : 0 < jobs)
    (hlen : jobs ≤ data.length) (before rest : Bytes)
    (hsrc : (before ++ (((plan data.length jobs seam_overlap).map (run_job data params)).flatten ++
      rest)).length < 2 ^ 63) :
    ∃ d, BlocksRun (before ++
      (((plan data.length jobs seam_overlap).map (run_job data params)).flatten ++
          rest))
        ⟨BlockState.start data.length (min (2 ^ params.window_log) MAX_BLOCK_SIZE) none,
          before.length, false⟩
        ⟨d, before.length + ((plan data.length jobs seam_overlap).map
          (run_job data params)).flatten.length,
          true⟩ ∧ d.out = [] ++ data ∧ ∀ mt ∈ d.matches_, mt.distance ≤ 2 ^ params.window_log := by
  obtain ⟨n, rfl⟩ : ∃ n, jobs = n + 1 := ⟨jobs - 1, (Nat.sub_add_cancel hjobs).symm⟩
  have hroom : RoomFor data [] (seam data.length (n + 1) 0)
      (BlockState.start data.length (min (2 ^ params.window_log) MAX_BLOCK_SIZE) none) := by
    rw [seam_zero]
    exact RoomFor.at_start (by omega) hwindow
  rw [plan, List.range_eq_range'] at hsrc ⊢
  obtain ⟨d, hrun, hdec⟩ := jobs_run hdata hjobs hlen rest n (Nat.zero_add _) (fun _ => rfl) hroom
    before hsrc
  refine ⟨d, hrun, ?_, (hdec.near (.start h10 _ _)).matches_⟩
  rw [hdec.out, List.take_length]

theorem length_run_job_le (params : CParams) (hjobs : 0 < jobs) (hlen : jobs ≤ data.length)
    (hi : i < jobs) : (run_job data params (plan_job data.length jobs seam_overlap i)).length ≤
      4 * (seam data.length jobs (i + 1) - seam data.length jobs i) := by
  obtain ⟨lo, overlap, hjob, hlo, hview, hover⟩ := @job_view jobs seam_overlap i data hjobs hlen hi
  have hsegment := length_compress_segment_le (range_of data lo (seam data.length jobs (i + 1)))
    overlap
    params (plan_job data.length jobs seam_overlap i).init_rep (i == jobs - 1)
  have hrun : run_job data params (plan_job data.length jobs seam_overlap i) =
      compress_segment (range_of data lo (seam data.length jobs (i + 1))) overlap params
        (plan_job data.length jobs seam_overlap i).init_rep (i == jobs - 1) := by
    rw [hjob]
    rfl
  rw [hrun]
  omega

theorem length_jobs_le (hjobs : 0 < jobs) (hlen : jobs ≤ data.length) (n : Nat) (hn : n ≤ jobs) :
    (((List.range n).map (plan_job data.length jobs seam_overlap)).map
      (run_job data params)).flatten.length ≤ 4 * seam data.length jobs n := by
  induction n with
  | zero => exact Nat.zero_le _
  | succ n ih =>
    have hlt := seam_lt hjobs hlen n
    have hjob := @length_run_job_le data jobs seam_overlap n params hjobs hlen hn
    rw [List.range_succ, List.map_append, List.map_append, List.flatten_append, List.length_append,
      List.map_singleton, List.map_singleton, List.flatten_singleton]
    have hbefore := ih (Nat.le_of_succ_le hn)
    omega

end Jobs

/-! ## The frame -/

/-- Several jobs have bytes for each of them. -/
theorem effective_jobs_le {n n_jobs : Nat} (h : 1 < effective_jobs n n_jobs) :
    effective_jobs n n_jobs ≤ n := by
  unfold effective_jobs clamp MIN_JOB_SIZE at h ⊢
  omega

theorem decode_compress_parallel {data rest : Bytes} {max_output : Nat} (level : Int) (n_jobs : Nat)
    (checksum m : Bool) (hdata : data.length < 2 ^ 31) (hrest : rest.length < 2 ^ 61)
    (hmax : data.length ≤ max_output) {max_window : Option Nat}
    (hceil : Admitted HTTP_MAX_WINDOW_SIZE max_window) :
    ∃ matches_, decode_frame (compress_parallel data level n_jobs checksum m ++ rest) m max_output
      none
        max_window = .ok ⟨data, (compress_parallel data level n_jobs checksum m).length, matches_⟩ ∧
      Conforms none (compress_parallel data level n_jobs checksum m ++ rest) m matches_ := by
  have hadmits := (@params_window level _ hdata).1
  have hle := hadmits.window_log_le
  have hlog : MAX_WINDOW_LOG = 23 := rfl
  have hsum : 4 * data.length + rest.length < 2 ^ 62 := by omega
  generalize hframe : compress_parallel data level n_jobs checksum m = frame
  unfold compress_parallel at hframe
  dsimp only at hframe
  split_ifs at hframe with hone
  · rw [← hframe]
    exact decode_compress level checksum m hdata hrest hmax hceil
  · have hlen := effective_jobs_le (Nat.lt_of_not_le hone)
    have hjobs : 0 < effective_jobs data.length n_jobs := by omega
    have hsize := @length_jobs_le data (params_for_level level data.length) _
      (overlap_bytes (params_for_level level data.length).strategy
        (2 ^ (params_for_level level data.length).window_log)) hjobs hlen _ (le_refl _)
    rw [seam_last _ hjobs] at hsize
    obtain ⟨matches_, hdecode, hnear⟩ := @decode_sized_frame data [] rest _ _ _ 0 none
      hadmits.window_log_ge (by omega) (by decide) rfl rfl (hsize.trans (Nat.le_add_right _ _))
      (plan_run hdata hadmits.window_log_ge hadmits.window hjobs hlen) checksum m hsum _ hmax _
      (hceil.mono (window_le_http hle)) _ hframe.symm
    exact ⟨matches_, hdecode, sized_frame_conforms hadmits.window_log_ge (hle.trans (by decide))
      (by decide)
      rfl (by omega) hframe.symm hnear⟩

/-- What any number of workers writes is one frame, which is decoded to the data, and to its own
end, whatever follows. -/
theorem compress_parallel_round_trip {data rest : Bytes} {max_output : Nat} (level : Int)
    (n_jobs : Nat)
    (checksum m : Bool) (hdata : data.length < 2 ^ 31) (hrest : rest.length < 2 ^ 61)
    (hmax : data.length ≤ max_output) :
    ∃ f, decode_one (compress_parallel data level n_jobs checksum m ++ rest) m max_output = .ok f ∧
      f.data = data ∧ f.consumed = (compress_parallel data level n_jobs checksum m).length := by
  obtain ⟨matches_, hdecode, -⟩ := decode_compress_parallel level n_jobs checksum m hdata hrest hmax
    (.unlimited _)
  exact ⟨_, hdecode, rfl, rfl⟩

/-- The frame of any number of workers decodes to exactly the data. A later worker starts without
repeat offsets and tables, and whatever the decoder carries over the seam, also nothing at all, the
two stay in lockstep: no code of an unknown offset and no table that the worker did not set is ever
used. -/
theorem compress_parallel_decodes {data : Bytes} (level : Int) (n_jobs : Nat) (checksum m : Bool)
    (hdata : data.length < 2 ^ 31) :
    (∃ f, decode_one (compress_parallel data level n_jobs checksum m) m data.length = .ok f ∧
      f.data = data ∧ f.consumed = (compress_parallel data level n_jobs checksum m).length) ∧
    let params := params_for_level level data.length
    let jobs := effective_jobs data.length n_jobs
    let job := plan_job data.length jobs (overlap_bytes params.strategy (2 ^ params.window_log))
    ∀ i, 0 < i → i < jobs → ∀ d : BlockState, RoomFor data [] (seam data.length jobs i) d →
      ∀ before rest : Bytes, (before ++ (run_job data params (job i) ++ rest)).length < 2 ^ 63 →
      (job i).init_rep = ⟨0, 0, 0⟩ ∧
      ∃ d', JobLockstep data params (job i) (before ++ (run_job data params (job i) ++ rest))
          ⟨d, before.length, false⟩
          ⟨d', before.length + (run_job data params (job i)).length, (job i).is_last⟩ ∧
        d'.out = data.take (seam data.length jobs (i + 1)) := by
  refine ⟨?_, ?_⟩
  · obtain ⟨matches_, hdecode, -⟩ := @decode_compress_parallel data [] data.length level n_jobs
      checksum m
      hdata (by norm_num) (le_refl _) _ (.unlimited _)
    rw [List.append_nil] at hdecode
    exact ⟨_, hdecode, rfl, rfl⟩
  · intro params jobs job i hpos hi d hroom before rest hsrc
    have hlen : jobs ≤ data.length := effective_jobs_le (by omega)
    obtain ⟨d', hjob, hdec⟩ := run_job_run hdata (by omega) hlen hi
      (fun h => absurd h (Nat.ne_of_gt hpos)) hroom before rest hsrc
    exact ⟨if_neg (Nat.ne_of_gt hpos), d', hjob, hdec.out⟩

/-- A run of one byte that is long enough for two workers. -/
def sevens : Bytes := List.replicate (3 * 2 ^ 17) 7

theorem length_sevens : sevens.length = 3 * 2 ^ 17 := List.length_replicate

theorem compress_parallel_round_trip_run :
    ∃ f, decode_one (compress_parallel sevens 3 2 true true ++ [1]) true (2 ^ 20) = .ok f ∧
      f.data = sevens ∧ f.consumed = (compress_parallel sevens 3 2 true true).length :=
  compress_parallel_round_trip 3 2 true true (by rw [length_sevens]; norm_num) (by norm_num)
    (by rw [length_sevens]; norm_num)

/-- Two workers over the run. The second one starts while the decoder has repeat offsets that no
byte of the data explains. -/
theorem compress_parallel_decodes_run :
    let params := params_for_level 3 sevens.length
    let jobs := effective_jobs sevens.length 2
    let job := plan_job sevens.length jobs (overlap_bytes params.strategy (2 ^ params.window_log))
    let d : BlockState := { BlockState.start sevens.length (2 ^ 17) none with
      out := sevens.take (seam sevens.length jobs 1), rep := ⟨5, 6, 70⟩ }
    (∃ f, decode_one (compress_parallel sevens 3 2 true true) true sevens.length = .ok f ∧
      f.data = sevens ∧ f.consumed = (compress_parallel sevens 3 2 true true).length) ∧
    (job 1).init_rep = ⟨0, 0, 0⟩ ∧
    ∃ d', JobLockstep sevens params (job 1) ([] ++ (run_job sevens params (job 1) ++ []))
      ⟨d, 0, false⟩
        ⟨d', 0 + (run_job sevens params (job 1)).length, (job 1).is_last⟩ ∧
      d'.out = sevens.take (seam sevens.length jobs (1 + 1)) := by
  have hlen := length_sevens
  have hjobs : effective_jobs sevens.length 2 = 2 := by
    rw [hlen]
    decide
  intro params jobs job d
  have hroom : RoomFor sevens [] (seam sevens.length jobs 1) d := by
    have hblock : min (sevens.length - seam sevens.length jobs 1) BLOCK_SIZE_MAX ≤ 2 ^ 17 :=
      min_le_right _ _
    refine ⟨?_, Nat.zero_le _, hblock, ?_, ?_⟩
    · rw [List.nil_append]
    · have hceiling : d.max_output = sevens.length := rfl
      rw [List.length_nil, hceiling]
      exact Nat.add_le_add_right (Nat.zero_le _) _
    · rw [List.length_nil]
      omega
  have hsmall : ([] ++ (run_job sevens params (job 1) ++ [])).length < 2 ^ 63 := by
    have hle := @seam_le sevens.length jobs (1 + 1) (by omega) (by omega)
    have hjob := @length_run_job_le sevens jobs
      (overlap_bytes params.strategy (2 ^ params.window_log)) 1
      params (by omega) (by omega) (by omega)
    rw [List.nil_append, List.append_nil]
    exact lt_of_le_of_lt hjob (by omega)
  obtain ⟨hdecode, hworkers⟩ := @compress_parallel_decodes sevens 3 2 true true (by omega)
  exact ⟨hdecode, hworkers 1 Nat.one_pos (by omega) d hroom [] [] hsmall⟩

end ZstdPure.Encode
