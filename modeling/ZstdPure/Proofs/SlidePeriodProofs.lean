import ZstdPure.Encode.Frame
import ZstdPure.Proofs.ParamsProofs

/-!
# The period of the finder

The rings of a finder have a fixed size: no parse and no slide changes the period at which their
slots repeat, and for the parameters of a level it is at most the window. -/

namespace ZstdPure.Encode

open Sequences

/-! ## Parsing keeps what indexing a position keeps -/

namespace LazyState

variable {σ : Type} {f : LazyFinder σ} {inv : σ → Prop}

theorem index_upto_inv (h : ∀ st p, inv st → inv (f.insert st p)) {s : LazyState σ}
    (hs : inv s.finder) (upto : Nat) : inv (s.index_upto f upto).finder :=
  List.foldlRecOn _ _ hs fun st hst p _ => h st p hst

theorem look_ahead_inv (h : ∀ st p, inv st → inv (f.insert st p)) (ilimit : Nat) :
    ∀ (steps : Nat) (s : LazyState σ) (ml moff obits : Nat), inv s.finder →
      inv (look_ahead f ilimit steps s ml moff obits).1.finder := by
  intro steps
  induction steps with
  | zero => intro s ml moff obits hs; exact hs
  | succ steps ih =>
    intro s ml moff obits hs
    have hnext := index_upto_inv h hs (s.ip + 1)
    rw [look_ahead]
    split_ifs
    · dsimp only
      split_ifs
      · exact ih _ _ _ _ hnext
      · exact hnext
    · exact hs

theorem parse_step_inv (h : ∀ st p, inv st → inv (f.insert st p)) (data : Bytes)
    (stop lazy_steps : Nat)
    {s : LazyState σ} (hs : inv s.finder) : inv (parse_step f data stop lazy_steps s).finder := by
  have hnext := index_upto_inv h hs s.ip
  rw [parse_step]
  dsimp only
  split_ifs
  · exact hnext
  · exact index_upto_inv h (look_ahead_inv h _ _ _ _ _ _ hnext) _

theorem parse_block_inv (h : ∀ st p, inv st → inv (f.insert st p)) (data : Bytes)
    (start stop lazy_steps : Nat) (rep : Reps) {finder : σ} (hs : inv finder) :
    inv (parse_block f data start stop lazy_steps rep finder).2 := by
  rw [parse_block]
  split_ifs
  · exact hs
  · exact While.iterate_inv (fun s : LazyState σ => inv s.finder)
      (fun s hs => parse_step_inv h data stop lazy_steps hs) _ _ hs

end LazyState

namespace Collect

variable {e : CollectEnv} {n : Nat}

theorem index_upto_period {s : Collect} (hs : Finder.hybrid_period s.finder = n) (ap : Nat) :
    Finder.hybrid_period (s.index_upto e ap).finder = n :=
  List.foldlRecOn (motive := fun st => Finder.hybrid_period st = n) _ _ hs fun _ hst _ _ => hst

theorem record_finder (ap : Nat) (chain tree : List (Nat × Nat)) (s : Collect) :
    (s.record e ap chain tree).finder = s.finder := by
  rw [record]
  dsimp only
  split_ifs <;> rfl

theorem step_period {s : Collect} (hs : Finder.hybrid_period s.finder = n) (i : Nat) :
    Finder.hybrid_period (s.step e i).finder = n := by
  rw [step]
  dsimp only
  split_ifs
  · exact hs
  · exact index_upto_period (index_upto_period hs _) _
  · exact index_upto_period hs _
  · rw [record_finder]
    exact index_upto_period hs _

theorem run_period {st : Hybrid} (hs : Finder.hybrid_period st = n) :
    Finder.hybrid_period (run e st).finder = n :=
  List.foldlRecOn (motive := fun s : Collect => Finder.hybrid_period s.finder = n) _ _ hs
    fun _ hs i _ => step_period hs i

end Collect

namespace Finder

/-- A parse keeps the period. -/
theorem parse_period (cast : Nat → Int) (f : Finder) (data : Bytes) (start stop max_offset : Nat)
    (rep : Reps) : (f.parse cast data start stop max_offset rep).2.slide_period =
      f.slide_period := by
  cases f with
  | Fast st => rfl
  | DFast st => rfl
  | Chain st lazy_steps depth =>
    exact @LazyState.parse_block_inv _ _ (fun s : ChainState => s.slide_period = st.slide_period)
      (fun _ _ h => h) data start stop lazy_steps rep _ rfl
  | BtLazy st depth =>
    exact @LazyState.parse_block_inv _ _ (fun s : Hybrid => hybrid_period s = hybrid_period st)
      (fun _ _ h => h) data start stop 2 rep _ rfl
  | Opt st depth sufficient_len two_pass stats =>
    show hybrid_period (opt_parse_block cast data start stop max_offset rep depth sufficient_len
      two_pass st stats).2.1 = hybrid_period st
    rw [opt_parse_block]
    split_ifs
    · rfl
    · exact Collect.run_period rfl

theorem reduce_index_period (cast : Nat → Int) (drop : Nat) (f : Finder) :
    (f.reduce_index cast drop).slide_period = f.slide_period := by
  cases f <;> rfl

end Finder

/-! ## Blocks -/

theorem parse_gap_period (cast : Nat → Int) (data : Bytes) (max_offset : Nat) (s : LdmLoop)
    (pos : Nat) :
    (parse_gap cast data max_offset s pos).2.finder.slide_period = s.finder.slide_period := by
  rw [parse_gap]
  split_ifs
  · exact Finder.parse_period ..
  · rfl

theorem parse_with_ldm_period (cast : Nat → Int) (finder : Finder) (data : Bytes)
    (start stop max_offset : Nat) (rep : Reps) (ldm : List LdmSeq) :
    (parse_with_ldm cast finder data start stop max_offset rep ldm).2.slide_period =
      finder.slide_period := by
  have hfold : (ldm.foldl (ldm_step cast data max_offset) ⟨finder, start,
    ⟨[], [], rep⟩⟩).finder.slide_period
      = finder.slide_period :=
    List.foldlRecOn (motive := fun s : LdmLoop => s.finder.slide_period = finder.slide_period) _ _
      rfl
      fun s hs m _ => (parse_gap_period cast data max_offset s m.pos).trans hs
  exact (parse_gap_period ..).trans hfold

theorem encode_block_period (e : FrameEnv) (last : Bool) (data : Bytes) (start stop : Nat)
    (s : Session) :
    (encode_block e last data start stop s).2.finder.slide_period = s.finder.slide_period := by
  rw [encode_block]
  split
  · exact parse_with_ldm_period ..
  · exact Finder.parse_period ..

/-! ## The parameters of a level -/

/-- Each ring of a finder lines up with its period. -/
def Finder.Aligned (f : Finder) (n : Nat) : Prop :=
  match f with
  | .Fast _ => True
  | .DFast _ => True
  | .Chain st _ _ => st.slide_period ∣ n
  | .BtLazy st _ => st.chain.slide_period ∣ n ∧ st.tree.slide_period ∣ n
  | .Opt st _ _ _ _ => st.chain.slide_period ∣ n ∧ st.tree.slide_period ∣ n

theorem hybrid_aligned (st : Hybrid) : st.chain.slide_period ∣ Finder.hybrid_period st ∧
    st.tree.slide_period ∣ Finder.hybrid_period st := by
  rw [Finder.hybrid_period, ChainState.slide_period, BtState.slide_period,
    ← (pow_right_mono₀ (by decide : 1 ≤ 2)).map_max]
  exact ⟨pow_dvd_pow 2 (le_max_left _ _), pow_dvd_pow 2 (le_max_right _ _)⟩

/-- The period of the finder is a period of each of its rings. -/
theorem Finder.aligned (f : Finder) {n : Nat} (h : f.slide_period ∣ n) : f.Aligned n := by
  cases f with
  | Fast st => trivial
  | DFast st => trivial
  | Chain st lazy_steps depth => exact h
  | BtLazy st depth => exact ⟨(hybrid_aligned st).1.trans h, (hybrid_aligned st).2.trans h⟩
  | Opt st depth sufficient_len two_pass stats =>
    exact ⟨(hybrid_aligned st).1.trans h, (hybrid_aligned st).2.trans h⟩

theorem slide_period_pos (f : Finder) : 0 < f.slide_period := by
  cases f with
  | Fast st => exact Nat.one_pos
  | DFast st => exact Nat.one_pos
  | Chain st lazy_steps depth => exact Nat.two_pow_pos _
  | BtLazy st depth => exact lt_max_of_lt_left (Nat.two_pow_pos _)
  | Opt st depth sufficient_len two_pass stats => exact lt_max_of_lt_left (Nat.two_pow_pos _)

/-- The rings of parameters whose chain fits the window, once both are clamped. -/
theorem new_period_le {params : CParams} (h10 : 10 ≤ params.window_log) (h23 : params.window_log ≤
    23)
    (hchain : min params.chain_log MAX_HASH_LOG ≤ params.window_log) :
    (Finder.new params).slide_period ≤ 2 ^ params.window_log := by
  have hone : 1 ≤ 2 ^ params.window_log := Nat.one_le_two_pow
  have hring : 2 ^ clamp params.chain_log MIN_HASH_LOG MAX_HASH_LOG ≤ 2 ^ params.window_log := by
    refine Nat.pow_le_pow_right (by decide) ?_
    have h6 : MIN_HASH_LOG = 6 := rfl
    rw [clamp]
    omega
  have htree : 2 ^ clamp params.window_log MIN_HASH_LOG MAX_BT_LOG ≤ 2 ^ params.window_log := by
    refine Nat.pow_le_pow_right (by decide) ?_
    have h6 : MIN_HASH_LOG = 6 := rfl
    rw [clamp]
    omega
  rw [Finder.new]
  cases params.strategy with
  | Fast => exact hone
  | Dfast => exact hone
  | Greedy => exact hring
  | Lazy => exact hring
  | Lazy2 => exact hring
  | BtLazy2 => exact max_le hring htree
  | Btopt => exact max_le hring htree
  | Btultra => exact max_le hring htree
  | Btultra2 => exact max_le hring htree

/-- No row of the table has a chain longer than its window, once both are clamped. -/
theorem level_chain_log : ∀ i < 23, min (LEVELS.getD i ⟨19, 14, 13, 1, 7, 0, .Fast⟩).chain_log
    MAX_HASH_LOG
    ≤ min (LEVELS.getD i ⟨19, 14, 13, 1, 7, 0, .Fast⟩).window_log MAX_WINDOW_LOG := by
  decide

/-- The finder of a level for an input of unknown size. -/
theorem level_period_le (level : Int) :
    (Finder.new (params_for_level level usizeMax)).slide_period ≤
    2 ^ (params_for_level level usizeMax).window_log := by
  have hidx : clamp level.toNat 1 22 < 23 := by
    rw [clamp]
    omega
  have hlog : ceil_log2 (max usizeMax 1) = 32 := by decide
  have hlevel := level_window_log (clamp level.toNat 1 22)
  have hchain := level_chain_log _ hidx
  obtain ⟨h10, h23, -, -⟩ := @params_for_level_range level usizeMax
  refine new_period_le h10 h23 ?_
  rw [params_for_level, hlog]
  dsimp only
  have h10' : MIN_WINDOW_LOG = 10 := rfl
  have h23' : MAX_WINDOW_LOG = 23 := rfl
  omega

end ZstdPure.Encode
