import ZstdPure.Encode.Fse

/-!
# `encode/params.rs`: compression parameters of the levels
-/

namespace ZstdPure.Encode

/-- `Strategy`, in increasing order. -/
inductive Strategy where
  | Fast
  | Dfast
  | Greedy
  | Lazy
  | Lazy2
  | BtLazy2
  | Btopt
  | Btultra
  | Btultra2
deriving DecidableEq, Repr

/-- The position of a strategy in the order of the enumeration. -/
def Strategy.rank : Strategy → Nat
  | .Fast => 0
  | .Dfast => 1
  | .Greedy => 2
  | .Lazy => 3
  | .Lazy2 => 4
  | .BtLazy2 => 5
  | .Btopt => 6
  | .Btultra => 7
  | .Btultra2 => 8

/-- `CParams`. -/
structure CParams where
  window_log : Nat
  hash_log : Nat
  chain_log : Nat
  search_log : Nat
  min_match : Nat
  target_length : Nat
  strategy : Strategy
deriving DecidableEq, Repr

def MIN_WINDOW_LOG : Nat := 10
def MAX_WINDOW_LOG : Nat := 23
def LDM_MAX_WINDOW_LOG : Nat := 27

/-- `LEVELS`, the first row for the levels below 1. -/
def LEVELS : List CParams :=
  [⟨19, 14, 13, 1, 7, 0, .Fast⟩,
    ⟨19, 14, 13, 1, 7, 0, .Fast⟩,
    ⟨20, 16, 15, 1, 6, 0, .Fast⟩,
    ⟨21, 17, 16, 1, 5, 0, .Dfast⟩,
    ⟨21, 18, 18, 1, 5, 0, .Dfast⟩,
    ⟨21, 19, 18, 2, 5, 2, .Greedy⟩,
    ⟨21, 19, 19, 3, 5, 4, .Lazy⟩,
    ⟨21, 20, 19, 3, 5, 8, .Lazy2⟩,
    ⟨21, 20, 20, 3, 5, 16, .Lazy2⟩,
    ⟨21, 21, 20, 4, 5, 16, .Lazy2⟩,
    ⟨22, 22, 21, 4, 5, 16, .Lazy2⟩,
    ⟨22, 22, 21, 5, 5, 16, .Lazy2⟩,
    ⟨22, 23, 22, 5, 5, 16, .Lazy2⟩,
    ⟨22, 22, 22, 4, 5, 32, .BtLazy2⟩,
    ⟨22, 23, 22, 5, 5, 32, .BtLazy2⟩,
    ⟨22, 23, 22, 6, 5, 32, .BtLazy2⟩,
    ⟨22, 23, 23, 6, 5, 48, .Btopt⟩,
    ⟨23, 23, 23, 7, 5, 64, .Btopt⟩,
    ⟨23, 23, 23, 7, 5, 64, .Btultra⟩,
    ⟨23, 24, 24, 8, 5, 64, .Btultra2⟩,
    ⟨25, 25, 25, 9, 5, 64, .Btultra2⟩,
    ⟨26, 26, 26, 10, 5, 64, .Btultra2⟩,
    ⟨27, 27, 27, 10, 5, 64, .Btultra2⟩]

/-- `x.clamp(lo, hi)`. -/
def clamp (x lo hi : Nat) : Nat := max lo (min x hi)

/-- `ceil_log2`. -/
def ceil_log2 (n : Nat) : Nat := if n ≤ 1 then 0 else bit_length ((n - 1) % 2 ^ 32)

/-- `params_for_level`. -/
def params_for_level (level : Int) (src_size : Nat) : CParams :=
  let idx := clamp level.toNat 1 22
  let p := LEVELS.getD idx ⟨19, 14, 13, 1, 7, 0, .Fast⟩
  let needed := max (ceil_log2 (max src_size 1)) MIN_WINDOW_LOG
  let window_log := min (min p.window_log needed) MAX_WINDOW_LOG
  { p with
    window_log,
    hash_log := min p.hash_log (window_log + 1),
    chain_log := min p.chain_log (window_log + 1) }

/-- `params_for_level_with_dict`. -/
def params_for_level_with_dict (level : Int) (src_size dict_size : Nat) : CParams :=
  -- `saturating_add`
  let p := params_for_level level (min (src_size + dict_size) usizeMax)
  let dict_reach := clamp (ceil_log2 dict_size) MIN_WINDOW_LOG MAX_WINDOW_LOG
  { p with window_log := max p.window_log dict_reach }

/-- `params_for_level_ldm`. -/
def params_for_level_ldm (level : Int) (src_size : Nat) : CParams :=
  let p := params_for_level level src_size
  let needed := clamp (ceil_log2 (max src_size 1)) MIN_WINDOW_LOG LDM_MAX_WINDOW_LOG
  { p with window_log := max p.window_log needed }

end ZstdPure.Encode
