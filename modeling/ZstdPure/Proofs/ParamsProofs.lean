import Mathlib.Data.Nat.Size
import ZstdPure.Block
import ZstdPure.Encode.Block
import ZstdPure.Encode.Params

/-!
# Windows and block sizes

The window of a level is shrunk to the size of the input by a logarithm that looks at 32 bits of it.
Where these bits show the size, the window admits every block that the frame loop cuts.
-/

namespace ZstdPure.Encode

/-! ## Logarithms -/

theorem bit_length_eq_size (x : Nat) : bit_length x = x.size := by
  rw [bit_length]
  split_ifs with h
  · rw [h, Nat.size_zero]
  · refine le_antisymm ?_ (Nat.size_le.mpr Nat.lt_log2_self)
    exact Nat.lt_size.mpr (Nat.log2_self_le h)

/-- The bits of a size that `ceil_log2` looks at. -/
def low_word (n : Nat) : Nat := (n - 1) % 2 ^ 32

theorem ceil_log2_eq (n : Nat) : ceil_log2 n = (low_word n).size := by
  rw [ceil_log2, low_word, ← bit_length_eq_size]
  split_ifs with h
  · rw [show n - 1 = 0 by omega]
    rfl
  · rfl

theorem low_word_max_one (n : Nat) : low_word (max n 1) = low_word n := by
  rw [low_word, low_word, show max n 1 - 1 = n - 1 by omega]

/-- The bits `x` of a size show that a block of `k` bytes needs more than the smallest window. -/
def Shows (x k : Nat) : Prop := k ≤ 2 ^ MIN_WINDOW_LOG ∨ 2 ^ Nat.log2 (k - 1) ≤ x

theorem le_two_pow_size {k x : Nat} (hk : 1 < k) : k ≤ 2 ^ x.size ↔ 2 ^ Nat.log2 (k - 1) ≤ x := by
  have hlog : (k - 1).size = Nat.log2 (k - 1) + 1 := by
    rw [← bit_length_eq_size, bit_length, if_neg (by omega)]
  calc k ≤ 2 ^ x.size ↔ k - 1 < 2 ^ x.size := by omega
    _ ↔ (k - 1).size ≤ x.size := Nat.size_le.symm
    _ ↔ Nat.log2 (k - 1) < x.size := by rw [hlog, Nat.succ_le_iff]
    _ ↔ 2 ^ Nat.log2 (k - 1) ≤ x := Nat.lt_size

theorem le_two_pow_max {a b k : Nat} : k ≤ 2 ^ max a b ↔ k ≤ 2 ^ a ∨ k ≤ 2 ^ b := by
  rw [(pow_right_mono₀ (by decide : 1 ≤ 2)).map_max, le_max_iff]

theorem le_two_pow_min {a b k : Nat} : k ≤ 2 ^ min a b ↔ k ≤ 2 ^ a ∧ k ≤ 2 ^ b := by
  rw [(pow_right_mono₀ (by decide : 1 ≤ 2)).map_min, le_min_iff]

/-- A window of at least the smallest size, grown to the logarithm of `x`. -/
theorem shows_iff {x k : Nat} : k ≤ 2 ^ max x.size MIN_WINDOW_LOG ↔ Shows x k := by
  rw [le_two_pow_max, Shows, or_comm]
  by_cases hk : 1 < k
  · rw [le_two_pow_size hk]
  · have h10 : 1 ≤ 2 ^ MIN_WINDOW_LOG := by decide
    exact iff_of_true (Or.inl (by omega)) (Or.inl (by omega))

/-- Up to `2 ^ 32` bytes the low word is the size itself. -/
theorem shows_of_le {n k : Nat} (hn : n ≤ 2 ^ 32) (hk : k ≤ n) : Shows (low_word n) k := by
  rw [Shows, low_word, Nat.mod_eq_of_lt (by omega)]
  by_cases h : k - 1 = 0
  · have h10 : 1 ≤ 2 ^ MIN_WINDOW_LOG := by decide
    exact Or.inl (by omega)
  · exact Or.inr ((Nat.log2_self_le h).trans (by omega))

/-! ## Windows -/

/-- The parameters are in range, and their window admits the blocks of an input of `src_size` bytes.
-/
structure AdmitsBlocks (p : CParams) (max_log src_size : Nat) : Prop where
  window_log_ge : MIN_WINDOW_LOG ≤ p.window_log
  window_log_le : p.window_log ≤ max_log
  hash_log : p.hash_log ≤ p.window_log + 1
  chain_log : p.chain_log ≤ p.window_log + 1
  window : min src_size BLOCK_SIZE_MAX ≤ 2 ^ p.window_log
  -- the blocks that the frame loop cuts, and the maximum that the decoder derives from the window
  blocks : ∀ start < src_size,
    min (start + BLOCK_SIZE_MAX) src_size - start ≤ min (2 ^ p.window_log) MAX_BLOCK_SIZE

theorem admitsBlocks_iff {p : CParams} {max_log src_size : Nat}
    (hge : MIN_WINDOW_LOG ≤ p.window_log) (hle : p.window_log ≤ max_log)
    (hhash : p.hash_log ≤ p.window_log + 1) (hchain : p.chain_log ≤ p.window_log + 1) :
    AdmitsBlocks p max_log src_size ↔ min src_size BLOCK_SIZE_MAX ≤ 2 ^ p.window_log := by
  refine ⟨AdmitsBlocks.window, fun h => ⟨hge, hle, hhash, hchain, h, fun start _ => ?_⟩⟩
  have hcut : ∀ b, min (start + b) src_size - start ≤ min src_size b := fun b => by omega
  exact (hcut BLOCK_SIZE_MAX).trans (le_min h (min_le_right _ _))

theorem level_window_log (i : Nat) : 19 ≤
    (LEVELS.getD i ⟨19, 14, 13, 1, 7, 0, .Fast⟩).window_log := by
  have hall : ∀ p ∈ LEVELS, 19 ≤ p.window_log := by decide
  by_cases h : i < LEVELS.length
  · rw [List.getD_eq_getElem _ _ h]
    exact hall _ (List.getElem_mem h)
  · rw [List.getD_eq_default _ _ (Nat.le_of_not_lt h)]

section

variable {level : Int} {src_size dict_size size k : Nat}

theorem params_for_level_range :
    MIN_WINDOW_LOG ≤ (params_for_level level size).window_log ∧
      (params_for_level level size).window_log ≤ MAX_WINDOW_LOG ∧
      (params_for_level level size).hash_log ≤ (params_for_level level size).window_log + 1 ∧
      (params_for_level level size).chain_log ≤ (params_for_level level size).window_log + 1 := by
  have hlevel := level_window_log (clamp level.toNat 1 22)
  have h10 : MIN_WINDOW_LOG = 10 := rfl
  have h23 : MAX_WINDOW_LOG = 23 := rfl
  rw [params_for_level]
  dsimp only
  refine ⟨?_, min_le_right _ _, min_le_right _ _, min_le_right _ _⟩
  omega

/-- The window of a level admits `k` bytes of a block when the low word of the size shows them. -/
theorem params_for_level_window (hk : k ≤ BLOCK_SIZE_MAX) :
    k ≤ 2 ^ (params_for_level level size).window_log ↔ Shows (low_word size) k := by
  have hcap : ∀ {n}, 17 ≤ n → k ≤ 2 ^ n := fun hn =>
    hk.trans (Nat.pow_le_pow_right (show 0 < 2 by decide) hn)
  have hlevel := level_window_log (clamp level.toNat 1 22)
  rw [params_for_level]
  dsimp only
  rw [le_two_pow_min, le_two_pow_min, ceil_log2_eq, low_word_max_one, shows_iff]
  exact ⟨fun h => h.1.2, fun h => ⟨⟨hcap (by omega), h⟩, hcap (by decide)⟩⟩

/-- A clamped logarithm admits them likewise. -/
theorem clamp_window {hi : Nat} (hk : k ≤ BLOCK_SIZE_MAX) (hhi : 17 ≤ hi) :
    k ≤ 2 ^ clamp (ceil_log2 size) MIN_WINDOW_LOG hi ↔ Shows (low_word size) k := by
  have hcap : k ≤ 2 ^ hi := hk.trans (Nat.pow_le_pow_right (show 0 < 2 by decide) hhi)
  rw [clamp, le_two_pow_max, le_two_pow_min, ← shows_iff, le_two_pow_max, ceil_log2_eq, or_comm,
    and_iff_left hcap]

theorem clamp_range {x lo hi : Nat} (h : lo ≤ hi) : lo ≤ clamp x lo hi ∧ clamp x lo hi ≤ hi := by
  rw [clamp]
  omega

theorem shows_max {x y : Nat} : Shows (max x y) k ↔ Shows x k ∨ Shows y k := by
  rw [Shows, Shows, Shows, le_max_iff]
  tauto

/-- Beyond `2 ^ 32` bytes the low word has to show a full block. -/
theorem shows_block_iff : Shows (low_word size) (min size BLOCK_SIZE_MAX) ↔
    size ≤ 2 ^ 32 ∨ 2 ^ 16 ≤ low_word size := by
  by_cases h : size ≤ 2 ^ 32
  · exact iff_of_true (shows_of_le h (min_le_left _ _)) (Or.inl h)
  · have hmax : BLOCK_SIZE_MAX = 2 ^ 17 := rfl
    have hlog : Nat.log2 (2 ^ 17 - 1) = 16 := by decide
    have hmin : ¬ 2 ^ 17 ≤ 2 ^ MIN_WINDOW_LOG := by decide
    rw [Shows, min_eq_right (by omega), hmax, hlog, or_iff_right hmin, or_iff_right h]

theorem params_for_level_admits_iff :
    AdmitsBlocks (params_for_level level src_size) MAX_WINDOW_LOG src_size ↔
      src_size ≤ 2 ^ 32 ∨ 2 ^ 16 ≤ low_word src_size := by
  obtain ⟨hge, hle, hhash, hchain⟩ := @params_for_level_range level src_size
  rw [admitsBlocks_iff hge hle hhash hchain, params_for_level_window (min_le_right _ _),
    shows_block_iff]

theorem params_for_level_ldm_admits_iff :
    AdmitsBlocks (params_for_level_ldm level src_size) LDM_MAX_WINDOW_LOG src_size ↔
      src_size ≤ 2 ^ 32 ∨ 2 ^ 16 ≤ low_word src_size := by
  obtain ⟨hge, hle, hhash, hchain⟩ := @params_for_level_range level src_size
  obtain ⟨hlo, hhi⟩ := @clamp_range (ceil_log2 (max src_size 1)) MIN_WINDOW_LOG LDM_MAX_WINDOW_LOG
    (by decide)
  have hcap : MAX_WINDOW_LOG ≤ LDM_MAX_WINDOW_LOG := by decide
  rw [params_for_level_ldm, admitsBlocks_iff (by dsimp only; omega) (by dsimp only; omega)
    (by dsimp only; omega) (by dsimp only; omega)]
  dsimp only
  rw [le_two_pow_max, params_for_level_window (min_le_right _ _),
    clamp_window (min_le_right _ _) (by decide), low_word_max_one, or_self, shows_block_iff]

theorem params_for_level_with_dict_admits_iff :
    AdmitsBlocks (params_for_level_with_dict level src_size dict_size) MAX_WINDOW_LOG src_size ↔
      Shows (max (low_word (min (src_size + dict_size) usizeMax)) (low_word dict_size))
        (min src_size BLOCK_SIZE_MAX) := by
  obtain ⟨hge, hle, hhash, hchain⟩ :=
    @params_for_level_range level (min (src_size + dict_size) usizeMax)
  obtain ⟨hlo, hhi⟩ := @clamp_range (ceil_log2 dict_size) MIN_WINDOW_LOG MAX_WINDOW_LOG (by decide)
  rw [params_for_level_with_dict, admitsBlocks_iff (by dsimp only; omega) (by dsimp only; omega)
    (by dsimp only; omega) (by dsimp only; omega)]
  dsimp only
  rw [le_two_pow_max, params_for_level_window (min_le_right _ _),
    clamp_window (min_le_right _ _) (by decide), shows_max]

end

/-! ## The sizes that lose their window -/

/-- Up to `2 ^ 32` bytes, source and dictionary together, every form admits the blocks. -/
theorem params_admit_blocks_of_le {level : Int} {src_size dict_size : Nat}
    (h : src_size + dict_size ≤ 2 ^ 32) :
    AdmitsBlocks (params_for_level level src_size) MAX_WINDOW_LOG src_size ∧
      AdmitsBlocks (params_for_level_with_dict level src_size dict_size) MAX_WINDOW_LOG src_size ∧
      AdmitsBlocks (params_for_level_ldm level src_size) LDM_MAX_WINDOW_LOG src_size := by
  refine ⟨params_for_level_admits_iff.mpr (Or.inl (by omega)),
    params_for_level_with_dict_admits_iff.mpr (shows_max.mpr (Or.inl ?_)),
    params_for_level_ldm_admits_iff.mpr (Or.inl (by omega))⟩
  have husize : usizeMax = 2 ^ 64 - 1 := rfl
  exact shows_of_le (by omega) (by omega)

/-- The parameters of every form admit the blocks of the frame loop exactly when the low words of
the sizes show them. -/
theorem params_admit_blocks_iff (level : Int) (src_size dict_size : Nat) :
    (AdmitsBlocks (params_for_level level src_size) MAX_WINDOW_LOG src_size ∧
      AdmitsBlocks (params_for_level_with_dict level src_size dict_size) MAX_WINDOW_LOG src_size ∧
      AdmitsBlocks (params_for_level_ldm level src_size) LDM_MAX_WINDOW_LOG src_size) ↔
    (src_size ≤ 2 ^ 32 ∨ 2 ^ 16 ≤ low_word src_size) ∧
      Shows (max (low_word (min (src_size + dict_size) usizeMax)) (low_word dict_size))
        (min src_size BLOCK_SIZE_MAX) := by
  rw [params_for_level_admits_iff, params_for_level_with_dict_admits_iff,
    params_for_level_ldm_admits_iff]
  tauto

/-- One byte more than 4 GiB gets a window of 1 KiB. -/
theorem params_do_not_admit_blocks :
    ¬ ∀ (level : Int) (src_size dict_size : Nat), src_size < 2 ^ 64 → dict_size < 2 ^ 64 →
      AdmitsBlocks (params_for_level level src_size) MAX_WINDOW_LOG src_size ∧
      AdmitsBlocks (params_for_level_with_dict level src_size dict_size) MAX_WINDOW_LOG src_size ∧
      AdmitsBlocks (params_for_level_ldm level src_size) LDM_MAX_WINDOW_LOG src_size := by
  intro h
  have hwindow := (h 1 (2 ^ 32 + 1) 0 (by decide) (by decide)).1.window
  have hlog : (params_for_level 1 (2 ^ 32 + 1)).window_log = 10 := by decide
  rw [hlog] at hwindow
  exact absurd hwindow (by decide)

end ZstdPure.Encode
