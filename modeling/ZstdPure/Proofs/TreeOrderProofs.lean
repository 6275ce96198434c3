import ZstdPure.Encode.Tree
import ZstdPure.Lib.RingTree
import ZstdPure.Proofs.MatchProofs

/-!
# Proofs: the order of the positions in the binary tree

Two positions are ordered by the first bytes in which they differ, both within the data. A position
between two others shares with a third one whatever both of them share with it: that is why a
descent need not compare those bytes again. -/

namespace ZstdPure.Encode

open RingTree (Side Within)

/-- At their first difference, the byte after `p` is smaller than the one after `q`. -/
def Smaller (data : Bytes) (p q : Nat) : Prop :=
  ∃ k, p + k < data.length ∧ q + k < data.length ∧
    (∀ j, j < k → byte_at data (p + j) = byte_at data (q + j)) ∧
    byte_at data (p + k) < byte_at data (q + k)

theorem Smaller.irrefl (data : Bytes) (p : Nat) : ¬ Smaller data p p := by
  rintro ⟨k, _, _, _, hlt⟩
  exact UInt8.lt_irrefl _ hlt

theorem Smaller.trans {data : Bytes} (p q r : Nat) (h : Smaller data p q) (h' : Smaller data q r) :
    Smaller data p r := by
  obtain ⟨k, hp, hq, heq, hlt⟩ := h
  obtain ⟨k', hq', hr, heq', hlt'⟩ := h'
  rcases lt_trichotomy k k' with hk | rfl | hk
  · refine ⟨k, hp, by omega, ?_, ?_⟩
    · intro j hj
      rw [heq j hj, heq' j (by omega)]
    · rw [← heq' k hk]
      exact hlt
  · refine ⟨k, hp, hr, ?_, UInt8.lt_trans hlt hlt'⟩
    intro j hj
    rw [heq j hj, heq' j hj]
  · refine ⟨k', by omega, hr, ?_, ?_⟩
    · intro j hj
      rw [heq j (by omega), heq' j hj]
    · rw [heq k' hk]
      exact hlt'

/-! ## What happens to the buffer -/

theorem byte_at_append {data : Bytes} {p : Nat} (h : p < data.length) (more : Bytes) :
    byte_at (data ++ more) p = byte_at data p := by
  unfold byte_at
  rw [List.getD, List.getD, List.getElem?_append_left h]

theorem byte_at_drop (data : Bytes) (drop p : Nat) :
    byte_at (data.drop drop) p = byte_at data (drop + p) := by
  unfold byte_at
  rw [List.getD, List.getD, List.getElem?_drop]

theorem Smaller.append {data : Bytes} {p q : Nat} (h : Smaller data p q) (more : Bytes) :
    Smaller (data ++ more) p q := by
  obtain ⟨k, hp, hq, heq, hlt⟩ := h
  refine ⟨k, ?_, ?_, ?_, ?_⟩
  · rw [List.length_append]; omega
  · rw [List.length_append]; omega
  · intro j hj
    rw [byte_at_append (by omega), byte_at_append (by omega), heq j hj]
  · rw [byte_at_append hp, byte_at_append hq]
    exact hlt

theorem Smaller.drop {data : Bytes} {p q drop : Nat} (hp : drop ≤ p) (hq : drop ≤ q)
    (h : Smaller data p q) : Smaller (data.drop drop) (p - drop) (q - drop) := by
  obtain ⟨k, hpk, hqk, heq, hlt⟩ := h
  have hshift : ∀ {r : Nat}, drop ≤ r → ∀ j, byte_at (data.drop drop) (r - drop + j) =
      byte_at data (r + j) := by
    intro r hr j
    rw [byte_at_drop, show drop + (r - drop + j) = r + j by omega]
  refine ⟨k, ?_, ?_, ?_, ?_⟩
  · rw [List.length_drop]; omega
  · rw [List.length_drop]; omega
  · intro j hj
    rw [hshift hp, hshift hq, heq j hj]
  · rw [hshift hp, hshift hq]
    exact hlt

/-! ## A comparison -/

/-- The side of `curr` that `mi` is on, by the bytes after `ml` equal ones. -/
def side_of (data : Bytes) (curr mi ml : Nat) : Bool :=
  !decide (byte_at data (mi + ml) < byte_at data (curr + ml))

theorem Agrees.side {data : Bytes} {mi curr cap ml : Nat} (h : Agrees data mi curr cap ml)
    (hml : ml < cap) (hmi : mi < curr) (hcap : curr + cap ≤ data.length) :
    Side (Smaller data) (side_of data curr mi ml) curr mi := by
  have hdiffer := h.differ hml
  unfold side_of
  by_cases hlt : byte_at data (mi + ml) < byte_at data (curr + ml)
  · rw [decide_eq_true hlt]
    exact ⟨ml, by omega, by omega, h.equal, hlt⟩
  · rw [decide_eq_false hlt]
    refine ⟨ml, by omega, by omega, fun j hj => (h.equal j hj).symm, ?_⟩
    exact UInt8.lt_of_le_of_ne (UInt8.not_lt.mp hlt) (fun heq => hdiffer heq.symm)

/-! ## Bounds and common bytes -/

/-- The bounds of a descent for `curr`, and how many bytes each of them shares with it. -/
structure Shares (data : Bytes) (curr cap : Nat) (b : Bool → Option Nat) (c : Bool → Nat) :
    Prop where
  bounds : Within (Smaller data) b curr
  absent : ∀ d, b d = none → c d = 0
  shared : ∀ d, ∀ s ∈ b d, ∀ j, j < c d → byte_at data (s + j) = byte_at data (curr + j)
  fits : ∀ d, c d ≤ cap

section Shares

variable {data : Bytes} {curr cap p : Nat} {b : Bool → Option Nat} {c : Bool → Nat}

theorem Shares.start (data : Bytes) (curr cap : Nat) :
    Shares data curr cap (fun _ => none) (fun _ => 0) :=
  ⟨RingTree.within_none curr, fun _ _ => rfl, fun _ _ h => (by cases h), fun _ => Nat.zero_le _⟩

/-- From a smaller position to a larger one, the first byte that differs goes up. -/
theorem Smaller.le_at {data : Bytes} {p q : Nat} (h : Smaller data p q) {j : Nat}
    (heq : ∀ i, i < j → byte_at data (p + i) = byte_at data (q + i)) :
    byte_at data (p + j) ≤ byte_at data (q + j) := by
  obtain ⟨k, _, _, hk, hlt⟩ := h
  rcases lt_trichotomy j k with hjk | rfl | hjk
  · rw [hk j hjk]
    exact UInt8.le_refl _
  · exact UInt8.le_of_lt hlt
  · rw [heq k hjk] at hlt
    exact absurd hlt (UInt8.lt_irrefl _)

/-- What lies within the bounds shares with `curr` the bytes that both bounds share with it. -/
theorem Shares.within (h : Shares data curr cap b c) (hp : Within (Smaller data) b p) :
    ∀ j, j < min (c false) (c true) → byte_at data (p + j) = byte_at data (curr + j) := by
  cases hlo : b false with
  | none =>
    intro j hj
    rw [h.absent false hlo] at hj
    omega
  | some lo =>
    cases hhi : b true with
    | none =>
      intro j hj
      rw [h.absent true hhi] at hj
      omega
    | some hi =>
      have hlop : Smaller data lo p := hp false lo hlo
      have hphi : Smaller data p hi := hp true hi hhi
      have hlo' := h.shared false lo hlo
      have hhi' := h.shared true hi hhi
      intro j
      induction j using Nat.strong_induction_on with
      | _ j ih =>
        intro hj
        have h1 := hlop.le_at (j := j) fun i hi' => by
          rw [hlo' i (by omega), ih i hi' (by omega)]
        have h2 := hphi.le_at (j := j) fun i hi' => by
          rw [hhi' i (by omega), ih i hi' (by omega)]
        rw [hlo' j (by omega)] at h1
        rw [hhi' j (by omega)] at h2
        exact UInt8.le_antisymm h2 h1

/-- After a comparison with a node, the node is the bound of its side. -/
theorem Shares.step (h : Shares data curr cap b c) {mi ml : Nat}
    (hagree : Agrees data mi curr cap ml)
    (hml : ml < cap) (hmi : mi < curr) (hcap : curr + cap ≤ data.length) :
    Shares data curr cap (Function.update b (side_of data curr mi ml) (some mi))
      (Function.update c (side_of data curr mi ml) ml) := by
  have hside := hagree.side hml hmi hcap
  generalize side_of data curr mi ml = d at hside ⊢
  refine ⟨h.bounds.update hside, ?_, ?_, ?_⟩
  · intro e he
    by_cases hd : e = d
    · rw [hd, Function.update_self] at he
      cases he
    · rw [Function.update_of_ne hd] at he ⊢
      exact h.absent e he
  · intro e s hs
    by_cases hd : e = d
    · rw [hd, Function.update_self] at hs ⊢
      obtain rfl : mi = s := by simpa using hs
      exact hagree.equal
    · rw [Function.update_of_ne hd] at hs ⊢
      exact h.shared e s hs
  · intro e
    by_cases hd : e = d
    · rw [hd, Function.update_self]
      exact le_of_lt hml
    · rw [Function.update_of_ne hd]
      exact h.fits e

/-- The length of the searches: the bytes shared for sure are skipped. -/
theorem Shares.search_len (h : Shares data curr cap b c) (hp : Within (Smaller data) b p)
    (hpc : p < curr) {stop : Nat} (hcurr : curr ≤ stop) (hcap : cap = stop - curr)
    (hstop : stop ≤ data.length) :
    Agrees data p curr cap (min (c false) (c true) +
      common_len data (p + min (c false) (c true)) (curr + min (c false) (c true)) stop) := by
  have hshared := h.within hp
  have hfits : min (c false) (c true) ≤ cap := (min_le_left _ _).trans (h.fits false)
  generalize min (c false) (c true) = n at hshared hfits ⊢
  obtain ⟨hle, hequal, hdiffer⟩ := @common_len_agrees data (p + n) (curr + n) stop (by omega)
    (by omega)
    hstop
  generalize common_len data (p + n) (curr + n) stop = len at hle hequal hdiffer ⊢
  refine ⟨by omega, ?_, ?_⟩
  · intro k hk
    rcases Nat.lt_or_ge k n with hkn | hkn
    · exact hshared k hkn
    · have hbyte := hequal (k - n) (by omega)
      rw [show p + n + (k - n) = p + k by omega, show curr + n + (k - n) = curr +
        k by omega] at hbyte
      exact hbyte
  · intro hlt
    rw [← Nat.add_assoc, ← Nat.add_assoc]
    exact hdiffer (by omega)

/-- The length of `insert_bt1`, capped. -/
theorem Shares.insert_len (h : Shares data curr cap b c) (hp : Within (Smaller data) b p) :
    Agrees data p curr cap (common_tail data p curr cap (min (c false) (c true))) :=
  (common_tail_agrees ((min_le_left _ _).trans (h.fits false)) (h.within hp)).1

end Shares

end ZstdPure.Encode
