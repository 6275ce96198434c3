import ZstdPure.Encode.Opt
import ZstdPure.Proofs.MatchProofs

/-!
# Proofs: the parse found by the dynamic program

A cell is only written from cells before it, which are final by then. So the literal run and the
repeat offsets of a cell are those of the final cells its path goes through, and the backtracking
replays them.
-/

namespace ZstdPure.Encode

open Sequences

/-! ## Parses and their replay -/

/-- The sequences parse the bytes from `p` to `q`: replayed with the decoder's `resolve_offset` from
`rep`, each is its literals and a real match, and the repeat offsets end as `rep_out`. An offset
value is at most the distance plus 3, so it has no overflow where the distance is far from one. -/
inductive Replays (data : Bytes) : Nat → Reps → List Seq → Nat → Reps → Prop
  | nil (p : Nat) (rep : Reps) : Replays data p rep [] p rep
  | cons {p q off : Nat} {rep rep' rep_out : Reps} {s : Seq} {seqs : List Seq}
    (resolved : resolve_offset rep s.offset_value (s.lit_len == 0) = .ok (off, rep'))
    (bound : s.offset_value ≤ off + 3)
    (long : MIN_MATCH ≤ s.match_len)
    (real : RealMatch data (p + s.lit_len) s.match_len off)
    (rest : Replays data (p + s.lit_len + s.match_len) rep' seqs q rep_out) :
    Replays data p rep (s :: seqs) q rep_out

theorem Replays.append {data : Bytes} {p q r : Nat} {rep rep' rep_out : Reps} {seqs more : List Seq}
    (h : Replays data p rep seqs q rep') (h' : Replays data q rep' more r rep_out) :
    Replays data p rep (seqs ++ more) r rep_out := by
  induction h with
  | nil => exact h'
  | cons resolved bound long real _ ih => exact Replays.cons resolved bound long real (ih h')

/-! ## Cells -/

/-- `opt[j]`. -/
def cell (opt : List Opt) (j : Nat) : Opt := opt.getD j Opt.unreached

/-- The literal run pending at a cell. -/
def Opt.pend (c : Opt) : Nat := if 0 < c.mlen then 0 else c.litlen

theorem Here.pend_eq (h : Here) : h.pend = h.cell.pend := rfl

/-- The sequence that ends at a cell. -/
def Opt.seq (c : Opt) : Seq := ⟨c.litlen, c.mlen, c.offval⟩

/-- The cell `d` at `j` goes on from the cell `c` at `b`, by literals and at most one match. -/
def Opt.Via (data : Bytes) (start : Nat) (c : Opt) (b : Nat) (d : Opt) (j : Nat) : Prop :=
  b + d.litlen + d.mlen = j ∧
  ((d.mlen = 0 ∧ 0 < d.litlen ∧ d.rep = c.rep) ∨
   (MIN_MATCH ≤ d.mlen ∧ ∃ off, RealMatch data (start + b + d.litlen) d.mlen off ∧
     d.offval = encode_offset c.rep off (d.litlen == 0) ∧
     d.rep = (resolve c.rep d.offval (d.litlen == 0)).2))

/-- Where a literal run can begin: the block start, or the end of a match. -/
def Anchor (opt : List Opt) (b : Nat) : Prop := b = 0 ∨ 0 < (cell opt b).mlen

/-- What may be written at `j` while the cells up to `i` are final: something within the price bound
that goes on from one of them. -/
def Offered (cost : Nat) (data : Bytes) (start : Nat) (opt : List Opt) (i j : Nat) (d : Opt) :
    Prop :=
  d.price ≤ j * cost ∧ ∃ b, b ≤ i ∧ b < j ∧ Anchor opt b ∧ Opt.Via data start (cell opt b) b d j

/-- The cells of a block of `n` bytes while those up to `i` are final and those up to `r` reached.
-/
structure Cells (cost : Nat) (data : Bytes) (start n : Nat) (init_rep : Reps) (i r : Nat)
    (opt : List Opt) : Prop where
  length : opt.length = n + 1
  origin : cell opt 0 = ⟨0, 0, 0, 0, init_rep⟩
  written : ∀ j, 1 ≤ j → j ≤ n →
    (r < j ∧ cell opt j = Opt.unreached) ∨ Offered cost data start opt i j (cell opt j)

section Improve

variable {data : Bytes} {cost start n i r j : Nat} {init_rep : Reps} {opt : List Opt} {d : Opt}

theorem cell_improve (hj : j < opt.length) (k : Nat) :
    cell (improve opt j d) k =
      if j = k ∧ d.price < (cell opt j).price then d else cell opt k := by
  unfold improve cell
  by_cases hp : d.price < (opt.getD j Opt.unreached).price
  · rw [if_pos hp]
    by_cases hk : j = k
    · subst hk
      rw [if_pos ⟨rfl, hp⟩]
      simp [List.getD, hj]
    · rw [if_neg fun hc => hk hc.1]
      simp [List.getD, List.getElem?_set_ne hk]
  · rw [if_neg hp, if_neg fun hc => hp hc.2]

theorem length_improve : (improve opt j d).length = opt.length := by
  unfold improve
  split_ifs
  · exact List.length_set
  · rfl

/-- Writing beyond `i` leaves the cells up to `i` as they are. -/
theorem cell_improve_of_le (hj : j < opt.length) (hi : i < j) {k : Nat} (hk : k ≤ i) :
    cell (improve opt j d) k = cell opt k := by
  rw [cell_improve hj, if_neg fun hc => by omega]

theorem Offered.of_final {opt' : List Opt} (h : Offered cost data start opt i j d)
    (heq : ∀ k, k ≤ i → cell opt' k = cell opt k) : Offered cost data start opt' i j d := by
  obtain ⟨hprice, b, hbi, hbj, hanchor, hvia⟩ := h
  refine ⟨hprice, b, hbi, hbj, ?_, ?_⟩
  · unfold Anchor
    rw [heq b hbi]
    exact hanchor
  · rw [heq b hbi]
    exact hvia

/-- Offering a cell beyond `i` keeps the invariant. -/
theorem Cells.improve (h : Cells cost data start n init_rep i r opt) (hi : i < j) (hj : j ≤ n)
    (hd : Offered cost data start opt i j d) : Cells cost data start n init_rep i r
      (improve opt j d) := by
  have hlen : j < opt.length := by rw [h.length]; omega
  have heq : ∀ k, k ≤ i → cell (Encode.improve opt j d) k = cell opt k :=
    fun k hk => cell_improve_of_le hlen hi hk
  constructor
  · rw [length_improve, h.length]
  · rw [heq 0 (Nat.zero_le i), h.origin]
  · intro k hk1 hkn
    rw [cell_improve hlen k]
    split_ifs with hc
    · obtain ⟨rfl, _⟩ := hc
      exact Or.inr (hd.of_final heq)
    · rcases h.written k hk1 hkn with hw | hw
      · exact Or.inl hw
      · exact Or.inr (hw.of_final heq)

/-- A cell offered next to the last one reached is reached. -/
theorem Cells.reach (h : Cells cost data start n init_rep i i opt) (hj : i + 1 ≤ n)
    (hn : n * cost < Opt.unreached.price) (hd : Offered cost data start opt i (i + 1) d) :
    Cells cost data start n init_rep i (i + 1) (Encode.improve opt (i + 1) d) := by
  have hkeep := h.improve (Nat.lt_succ_self i) hj hd
  refine ⟨hkeep.length, hkeep.origin, ?_⟩
  intro k hk1 hkn
  rcases hkeep.written k hk1 hkn with ⟨hlt, hun⟩ | hw
  · rcases Nat.lt_or_ge (i + 1) k with hk | hk
    · exact Or.inl ⟨hk, hun⟩
    · exfalso
      have hki : i + 1 = k := by omega
      have hlen : i + 1 < opt.length := by rw [h.length]; omega
      have hprice : d.price < Opt.unreached.price := by
        have h1 := hd.1
        have h2 : (i + 1) * cost ≤ n * cost := Nat.mul_le_mul_right _ hj
        omega
      subst hki
      rw [cell_improve hlen] at hun
      split_ifs at hun with hc
      · rw [hun] at hprice
        exact absurd hprice (lt_irrefl _)
      · rw [hun] at hc
        exact hc ⟨rfl, hprice⟩
  · exact Or.inr hw

/-- Once a step is over, the next cell is final too. -/
theorem Cells.next (h : Cells cost data start n init_rep i (i + 1) opt) :
    Cells cost data start n init_rep (i + 1) (i + 1) opt := by
  refine ⟨h.length, h.origin, ?_⟩
  intro j hj1 hjn
  rcases h.written j hj1 hjn with hw | ⟨hprice, b, hbi, hrest⟩
  · exact Or.inl hw
  · exact Or.inr ⟨hprice, b, by omega, hrest⟩

/-- The pending literals of a reached cell go back to an anchor with its repeat offsets. -/
theorem Cells.pending (h : Cells cost data start n init_rep i r opt) (hr : j ≤ r) (hj : j ≤ n) :
    (cell opt j).price ≤ j * cost ∧ ∃ b, b + (cell opt j).pend = j ∧ Anchor opt b ∧
      (cell opt b).rep = (cell opt j).rep := by
  rcases Nat.eq_zero_or_pos j with rfl | hpos
  · rw [h.origin]
    exact ⟨Nat.zero_le _, 0, rfl, Or.inl rfl, by rw [h.origin]⟩
  · rcases h.written j hpos hj with ⟨hlt, _⟩ | ⟨hprice, b, _, _, hanchor, hsum, hvia⟩
    · omega
    · refine ⟨hprice, ?_⟩
      unfold Opt.pend
      rcases hvia with ⟨hm, _, hrep⟩ | ⟨hm, _⟩
      · rw [hm, if_neg (lt_irrefl 0)]
        exact ⟨b, by omega, hanchor, hrep.symm⟩
      · have hm0 : 0 < (cell opt j).mlen := lt_of_lt_of_le (by decide) hm
        rw [if_pos hm0]
        exact ⟨j, rfl, Or.inr hm0, rfl⟩

end Improve

/-! ## One step -/

/-- Every price is below `b`. -/
structure Prices.Below (p : Prices) (b : Nat) : Prop where
  lit : ∀ x ∈ p.lit, x < b
  ll : ∀ x ∈ p.ll, x < b
  ml : ∀ x ∈ p.ml, x < b
  off : ∀ x ∈ p.off, x < b

theorem price_le {l : List Nat} {b : Nat} (h : ∀ x ∈ l, x < b) (k : Nat) : l.getD k 0 ≤ b := by
  rcases Nat.lt_or_ge k l.length with hk | hk
  · rw [List.getD_eq_getElem _ _ hk]
    exact (h _ (List.getElem_mem hk)).le
  · rw [List.getD_eq_default _ _ hk]
    exact Nat.zero_le b

/-- A step in progress: the cell it extends is final, and the cells up to `r` are reached. A step
adds at most three prices below `b`. -/
structure Extending (b : Nat) (data : Bytes) (start n : Nat) (init_rep : Reps) (h : Here) (r : Nat)
    (opt : List Opt) : Prop where
  cells : Cells (3 * b) data start n init_rep h.i r opt
  reached : h.i ≤ r
  inside : h.i < n
  cell : cell opt h.i = h.cell
  prices : h.prices.Below b

section Step

variable {data : Bytes} {b start n r : Nat} {init_rep : Reps} {opt : List Opt} {h : Here}

theorem Extending.improve (e : Extending b data start n init_rep h r opt) {j : Nat} {d : Opt}
    (hi : h.i < j) (hj : j ≤ n) (hd : Offered (3 * b) data start opt h.i j d) :
    Extending b data start n init_rep h r (Encode.improve opt j d) := by
  refine ⟨e.cells.improve hi hj hd, e.reached, e.inside, ?_, e.prices⟩
  rw [cell_improve_of_le (by rw [e.cells.length]; omega) hi (le_refl h.i), e.cell]

/-- The extension by a literal is written from the anchor of the cell. -/
theorem Extending.literal (e : Extending b data start n init_rep h r opt) (x : UInt8) :
    Offered (3 * b) data start opt h.i (h.i + 1) (h.literal x) := by
  have hpending := e.cells.pending e.reached (le_of_lt e.inside)
  rw [e.cell] at hpending
  obtain ⟨hprice, b', hb, hanchor, hrep⟩ := hpending
  refine ⟨?_, b', by omega, by omega, hanchor, ?_, ?_⟩
  · unfold Here.literal
    have hlit := price_le e.prices.lit x.toNat
    have hll := price_le e.prices.ll
    show h.cell.price + _ + (if h.pend = 0 then _ else _) ≤ _
    have h1 := hll (ll_code 1)
    have h2 := hll (ll_code (h.pend + 1))
    rw [Nat.succ_mul]
    split_ifs <;> omega
  · show b' + (h.pend + 1) + 0 = h.i + 1
    rw [h.pend_eq]
    omega
  · exact Or.inl ⟨rfl, Nat.succ_pos _, hrep.symm⟩

/-- The extension by a real match is written from the anchor of the cell. -/
theorem Extending.extend (e : Extending b data start n init_rep h r opt) {len off : Nat}
    (hlong : MIN_MATCH ≤ len) (hlen : len < 2 ^ 32)
    (hreal : RealMatch data (start + h.i) len off) :
    Offered (3 * b) data start opt h.i (h.i + len) (h.extend len off) := by
  have hpending := e.cells.pending e.reached (le_of_lt e.inside)
  rw [e.cell] at hpending
  obtain ⟨hprice, q, hq, hanchor, hrep⟩ := hpending
  have hmin : MIN_MATCH = 4 := rfl
  rw [← h.pend_eq] at hq
  have hmlen : (h.extend len off).mlen = len := Nat.mod_eq_of_lt hlen
  refine ⟨?_, q, by omega, by omega, hanchor, ?_, Or.inr ⟨by rw [hmlen]; exact hlong, off, ?_, ?_,
    ?_⟩⟩
  · unfold Here.extend
    have hll : h.ll_owed ≤ b := by
      unfold Here.ll_owed
      split_ifs
      · exact price_le e.prices.ll _
      · exact Nat.zero_le b
    have hoff := price_le e.prices.off (min (of_code (encode_offset h.cell.rep off h.ll0)) 31)
    have hml := price_le e.prices.ml (ml_code len)
    have hone : 1 * (3 * b) ≤ len * (3 * b) := Nat.mul_le_mul_right _ (by omega)
    show h.cell.price + h.ll_owed + _ + _ ≤ _
    rw [Nat.add_mul]
    omega
  · rw [hmlen]
    show q + h.pend + len = h.i + len
    omega
  · rw [hmlen]
    show RealMatch data (start + q + h.pend) len off
    rw [show start + q + h.pend = start + h.i by omega]
    exact hreal
  · rw [hrep]
    rfl
  · rw [hrep]
    rfl

/-- The cuts of a real match offered in any order keep the invariant. -/
theorem Extending.cuts (e : Extending b data start n init_rep h r opt) {len off : Nat}
    (hlen : len < 2 ^ 32) (hin : h.i + len ≤ n) (hreal : RealMatch data (start + h.i) len off)
    (cuts : List Nat) (hcuts : ∀ l ∈ cuts, MIN_MATCH ≤ l ∧ l ≤ len) :
    Extending b data start n init_rep h r
      (cuts.foldl (fun opt l => Encode.improve opt (h.i + l) (h.extend l off)) opt) := by
  induction cuts generalizing opt with
  | nil => exact e
  | cons l cuts ih =>
    obtain ⟨hl, hle⟩ := hcuts l List.mem_cons_self
    have hmin : MIN_MATCH = 4 := rfl
    have hw := e.extend hl (lt_of_le_of_lt hle hlen) (hreal.shorter hle)
    exact ih (e.improve (by omega) (by omega) hw) fun l' hl' =>
      hcuts l' (List.mem_cons_of_mem l hl')

/-- Offering a real match keeps the invariant. -/
theorem Extending.offer (e : Extending b data start n init_rep h r opt) {low len off : Nat}
    (hlow : MIN_MATCH ≤ low) (hlen : len < 2 ^ 32) (hin : h.i + len ≤ n)
    (hreal : RealMatch data (start + h.i) len off) :
    Extending b data start n init_rep h r (h.offer low len off opt) := by
  have hcuts := e.cuts hlen hin hreal (List.range' low (min len MAX_SUBLEN + 1 - low)) (by
    intro l hl
    obtain ⟨hl1, hl2⟩ := List.mem_range'_1.mp hl
    omega)
  have hmin : MIN_MATCH = 4 := rfl
  have hmax : MAX_SUBLEN = 64 := rfl
  unfold Here.offer
  split_ifs with hlong
  · exact hcuts.improve (by omega) hin (hcuts.extend (by omega) hlen hreal)
  · exact hcuts

/-- The loop of a repeat offset compares the bytes of its match, up to the block end. -/
theorem rep_match_real {off m : Nat} (h0 : off ≠ 0) (hle : off ≤ start + m) :
    RealMatch data (start + m) (common_tail data (start + m - off) (start + m) (n - m) 0) off ∧
    common_tail data (start + m - off) (start + m) (n - m) 0 ≤ n - m := by
  obtain ⟨⟨hcap, heq, _⟩, _⟩ := @common_tail_agrees data (start + m - off) (start + m) (n - m) 0
    (Nat.zero_le _) (fun k hk => absurd hk (Nat.not_lt_zero k))
  exact ⟨⟨Nat.pos_of_ne_zero h0, hle, fun k hk => (heq k hk).symm⟩, hcap⟩

theorem Extending.offer_rep (e : Extending b data start n init_rep h r opt) (hn : n < 2 ^ 32)
    (ov : Nat) : Extending b data start n init_rep h r (h.offer_rep data start n opt ov) := by
  unfold Here.offer_rep
  dsimp only
  split_ifs with hoff hshort
  · exact e
  · exact e
  · obtain ⟨h0, hle⟩ := not_or.mp hoff
    obtain ⟨hreal, hcap⟩ := @rep_match_real data start n _ _ h0 (Nat.le_of_not_lt hle)
    have hinside := e.inside
    exact e.offer (le_refl _) (by omega) (by omega) hreal

theorem Extending.offer_reps (e : Extending b data start n init_rep h r opt) (hn : n < 2 ^ 32)
    (ovs : List Nat) : Extending b data start n init_rep h r
      (ovs.foldl (h.offer_rep data start n) opt) := by
  induction ovs generalizing opt with
  | nil => exact e
  | cons ov ovs ih => exact ih (e.offer_rep hn ov)

/-- Offering real candidates, in any order, keeps the invariant. -/
theorem Extending.offer_matches (e : Extending b data start n init_rep h r opt) (hn : n < 2 ^ 32)
    (cands : List (Nat × Nat))
    (hreal : ∀ c ∈ cands, h.i + c.1 ≤ n ∧ RealMatch data (start + h.i) c.1 c.2) :
    Extending b data start n init_rep h r (h.offer_matches cands opt) := by
  suffices hfold : ∀ (cs : List (Nat × Nat)) (s : List Opt × Nat), (∀ c ∈ cs, c ∈ cands) →
      Extending b data start n init_rep h r s.1 →
      Extending b data start n init_rep h r (cs.foldl (fun (s : List Opt × Nat) c =>
        (h.offer (max (s.2 + 1) MIN_MATCH) c.1 c.2 s.1, c.1)) s).1 from
    hfold cands _ (fun c hc => hc) e
  intro cs
  induction cs with
  | nil =>
    intro s _ hs
    exact hs
  | cons c cs ih =>
    intro s hmem hs
    obtain ⟨hin, hr⟩ := hreal c (hmem c List.mem_cons_self)
    exact ih _ (fun c' hc' => hmem c' (List.mem_cons_of_mem c hc'))
      (hs.offer (le_max_right _ _) (by omega) hin hr)

end Step

/-! ## The whole program -/

/-- The candidates of a block are real: each one, and each match committed, is one of the bytes of
its position and ends within the block, and a match committed is no shorter than the format allows.
-/
structure RealCandidates (data : Bytes) (start n : Nat) (m : Matches)
    (pos_long : List (Option (Nat × Nat))) : Prop where
  cands : ∀ i, i < n → ∀ c ∈ m.at_ i, i + c.1 ≤ n ∧ RealMatch data (start + i) c.1 c.2
  committed : ∀ i, i < n → ∀ c ∈ pos_long.getD i none,
    MIN_MATCH ≤ c.1 ∧ i + c.1 ≤ n ∧ RealMatch data (start + i) c.1 c.2

section Program

variable {data : Bytes} {b start n : Nat} {prices : Prices} {m : Matches}
  {pos_long : List (Option (Nat × Nat))} {init_rep : Reps} {offer_reps : Bool}

theorem Cells.step (hn : n * (3 * b) < Opt.unreached.price) (hn32 : n < 2 ^ 32)
    (hprices : prices.Below b) (hreal : RealCandidates data start n m pos_long) {i : Nat}
      (hi : i < n) {opt : List Opt}
    (h : Cells (3 * b) data start n init_rep i i opt) :
    Cells (3 * b) data start n init_rep (i + 1) (i + 1)
      (dp_step data start n prices m pos_long offer_reps opt i) := by
  have hstart : Extending b data start n init_rep ⟨prices, i, cell opt i⟩ i opt :=
    ⟨h, le_refl i, hi, rfl, hprices⟩
  have hlit := hstart.literal (byte_at data (start + i))
  have hlen : i + 1 < opt.length := by rw [h.length]; omega
  have hreached : Extending b data start n init_rep ⟨prices, i, cell opt i⟩ (i + 1)
      (Encode.improve opt (i + 1)
        (Here.literal ⟨prices, i, cell opt i⟩ (byte_at data (start + i)))) :=
    ⟨h.reach hi hn hlit, Nat.le_succ i, hi,
      cell_improve_of_le hlen (Nat.lt_succ_self i) (le_refl i), hprices⟩
  unfold dp_step
  dsimp only
  cases hc : pos_long.getD i none with
  | some c =>
    obtain ⟨long_len, best_off⟩ := c
    obtain ⟨hlong, hin, hr⟩ := hreal.committed i hi (long_len, best_off) hc
    have hmin : MIN_MATCH = 4 := rfl
    have hext := hreached.extend hlong (by omega) hr
    exact (hreached.improve (by show i < i + long_len; omega) hin hext).cells.next
  | none =>
    cases offer_reps
    · exact (hreached.offer_matches hn32 (m.at_ i) (hreal.cands i hi)).cells.next
    · exact ((hreached.offer_reps hn32 [1, 2, 3]).offer_matches hn32 (m.at_ i)
        (hreal.cands i hi)).cells.next

/-- The program keeps the invariant, position after position. -/
theorem dp_cells_upto (hn : n * (3 * b) < Opt.unreached.price) (hn32 : n < 2 ^ 32)
    (hprices : prices.Below b) (hreal : RealCandidates data start n m pos_long) (k : Nat)
      (hk : k ≤ n) :
    Cells (3 * b) data start n init_rep k k
      ((List.range k).foldl (dp_step data start n prices m pos_long offer_reps)
        ((List.replicate (n + 1) Opt.unreached).set 0 ⟨0, 0, 0, 0, init_rep⟩)) := by
  induction k with
  | zero =>
    constructor
    · simp
    · simp [cell]
    · intro j hj1 hjn
      left
      refine ⟨hj1, ?_⟩
      show (List.set _ 0 _).getD j Opt.unreached = _
      rw [List.getD, List.getElem?_set_ne (by omega), List.getElem?_replicate_of_lt (by omega)]
      rfl
  | succ k ih =>
    rw [List.range_succ, List.foldl_append]
    exact (ih (by omega)).step hn hn32 hprices hreal (by omega)

theorem dp_cells_spec (hn : n * (3 * b) < Opt.unreached.price) (hn32 : n < 2 ^ 32)
    (hprices : prices.Below b) (hreal : RealCandidates data start n m pos_long) :
    Cells (3 * b) data start n init_rep n n
      (dp_cells data start n prices m pos_long init_rep offer_reps) :=
  dp_cells_upto hn hn32 hprices hreal n (le_refl n)

end Program

/-! ## The backtracking -/

/-- The positions the backtracking goes through from `pos`. -/
def visits (opt : List Opt) : Nat → Nat → List Nat
  | 0, pos => [pos]
  | fuel + 1, pos =>
    if 0 < pos then pos :: visits opt fuel (pos - ((cell opt pos).mlen + (cell opt pos).litlen))
    else [pos]

/-- Where the backtracking begins: before the trailing literals. -/
def last_end (opt : List Opt) (n : Nat) : Nat :=
  if (cell opt n).mlen = 0 then n - (cell opt n).litlen else n

section Backtrack

variable {data : Bytes} {cost start n i r fuel pos : Nat} {init_rep : Reps} {opt : List Opt}

@[simp] theorem visits_zero (opt : List Opt) (fuel : Nat) : visits opt fuel 0 = [0] := by
  cases fuel with
  | zero => rfl
  | succ fuel => rfl

theorem visits_succ (h : 0 < pos) : visits opt (fuel + 1) pos =
    pos :: visits opt fuel (pos - ((cell opt pos).mlen + (cell opt pos).litlen)) := by
  rw [visits, if_pos h]

@[simp] theorem backtrack_zero (opt : List Opt) (fuel : Nat) (acc : List Seq) :
    backtrack opt fuel 0 acc = acc := by
  cases fuel with
  | zero => rfl
  | succ fuel => rfl

theorem backtrack_succ (h : 0 < pos) (acc : List Seq) : backtrack opt (fuel + 1) pos acc =
    backtrack opt fuel (pos - ((cell opt pos).mlen + (cell opt pos).litlen))
      ((cell opt pos).seq :: acc) := by
  rw [backtrack, if_pos h]
  rfl

theorem visits_ne_nil (opt : List Opt) (fuel pos : Nat) : visits opt fuel pos ≠ [] := by
  cases fuel with
  | zero => exact List.cons_ne_nil _ _
  | succ fuel =>
    unfold visits
    split_ifs
    · exact List.cons_ne_nil _ _
    · exact List.cons_ne_nil _ _

/-- The sequences of the backtracking are those of the positions it goes through, but for the block
start. -/
theorem backtrack_eq_visits (acc : List Seq) : backtrack opt fuel pos acc =
      ((visits opt fuel pos).dropLast.map fun p => (cell opt p).seq).reverse ++ acc := by
  induction fuel generalizing pos acc with
  | zero => rfl
  | succ fuel ih =>
    rcases Nat.eq_zero_or_pos pos with rfl | hpos
    · simp
    · rw [backtrack_succ hpos, visits_succ hpos, List.dropLast_cons_of_ne_nil (visits_ne_nil _ _ _),
        List.map_cons, List.reverse_cons, List.append_assoc]
      exact ih _

/-- From an anchor, the backtracking goes through match ends to the block start, and its sequences
parse the bytes before the anchor. -/
theorem Cells.backtrack (h : Cells cost data start n init_rep i n opt) (hfuel : pos ≤ fuel)
    (hpos : pos ≤ n) (hanchor : Anchor opt pos) :
    (∀ p ∈ visits opt fuel pos, p = 0 ∨ MIN_MATCH ≤ (cell opt p).mlen) ∧
    (visits opt fuel pos).getLast? = some 0 ∧
    ∀ acc stop rep_out, Replays data (start + pos) (cell opt pos).rep acc stop rep_out →
      Replays data start init_rep (Encode.backtrack opt fuel pos acc) stop rep_out := by
  have hzero : ∀ fuel, (∀ p ∈ visits opt fuel 0, p = 0 ∨ MIN_MATCH ≤ (cell opt p).mlen) ∧
      (visits opt fuel 0).getLast? = some 0 ∧
      ∀ acc stop rep_out, Replays data (start + 0) (cell opt 0).rep acc stop rep_out →
        Replays data start init_rep (Encode.backtrack opt fuel 0 acc) stop rep_out := by
    intro fuel
    refine ⟨by simp, by simp, ?_⟩
    intro acc stop rep_out hacc
    rw [h.origin] at hacc
    rw [backtrack_zero]
    exact hacc
  induction fuel generalizing pos with
  | zero =>
    obtain rfl : pos = 0 := by omega
    exact hzero 0
  | succ fuel ih =>
    rcases Nat.eq_zero_or_pos pos with rfl | hgt
    · exact hzero (fuel + 1)
    · have hmlen : (cell opt pos).mlen ≠ 0 := by
        rcases hanchor with h0 | hm
        · omega
        · omega
      rcases h.written pos hgt hpos with ⟨hlt, _⟩ | ⟨_, b, _, hb, hanchor', hsum, hvia⟩
      · omega
      · rcases hvia with ⟨hm, _⟩ | ⟨hlong, off, hreal, hoffval, hrep⟩
        · exact absurd hm hmlen
        · have hback : pos - ((cell opt pos).mlen + (cell opt pos).litlen) = b := by omega
          obtain ⟨hvisits, hlast, hreplay⟩ := ih (by omega) (by omega) hanchor'
          rw [visits_succ hgt, hback]
          refine ⟨?_, ?_, ?_⟩
          · intro p hp
            rcases List.mem_cons.mp hp with rfl | hp
            · exact Or.inr hlong
            · exact hvisits p hp
          · rw [List.getLast?_cons, hlast]
            rfl
          · intro acc stop rep_out hacc
            obtain ⟨_, hbound, hres⟩ := encode_offset_resolves (cell opt b).rep hreal.1
              ((cell opt pos).litlen == 0)
            rw [← hoffval] at hbound hres
            rw [← hrep] at hres
            rw [backtrack_succ hgt, hback]
            refine hreplay _ _ _ (Replays.cons hres hbound hlong hreal ?_)
            show Replays data (start + b + (cell opt pos).litlen + (cell opt pos).mlen) _ _ _ _
            rw [show start + b + (cell opt pos).litlen + (cell opt pos).mlen = start + pos by omega]
            exact hacc

end Backtrack

/-- The backtracking begins at an anchor, with the repeat offsets of the last cell. -/
theorem Cells.last_end {data : Bytes} {cost start n i : Nat} {init_rep : Reps} {opt : List Opt}
    (h : Cells cost data start n init_rep i n opt) :
    last_end opt n ≤ n ∧ Anchor opt (Encode.last_end opt n) ∧
      (cell opt (Encode.last_end opt n)).rep = (cell opt n).rep := by
  obtain ⟨_, b, hb, hanchor, hrep⟩ := h.pending (le_refl n) (le_refl n)
  have heq : Encode.last_end opt n = b := by
    unfold Encode.last_end
    unfold Opt.pend at hb
    split_ifs at hb ⊢ <;> omega
  rw [heq]
  exact ⟨by omega, hanchor, hrep⟩

/-- The sequences of the program parse the block up to its trailing literals. -/
theorem Cells.replays {data : Bytes} {cost start n i : Nat} {init_rep : Reps} {opt : List Opt}
    (h : Cells cost data start n init_rep i n opt) :
    Replays data start init_rep (Encode.backtrack opt n (Encode.last_end opt n) [])
      (start + Encode.last_end opt n) (cell opt n).rep := by
  obtain ⟨hle, hanchor, hrep⟩ := h.last_end
  refine (h.backtrack hle hle hanchor).2.2 [] _ _ ?_
  rw [hrep]
  exact Replays.nil _ _

/-- Over any real candidates, the backtracking goes through match ends to the block start, and its
sequences are a parse of the block up to its trailing literals, whose replay gives the repeat
offsets returned. -/
theorem run_dp_parses (data : Bytes) (start n : Nat) (prices : Prices) (m : Matches)
    (pos_long : List (Option (Nat × Nat))) (init_rep : Reps) (offer_reps : Bool)
    (hn : n ≤ 128 * 1024) (hprices : prices.Below (2 ^ 32))
    (hreal : RealCandidates data start n m pos_long) :
    let opt := dp_cells data start n prices m pos_long init_rep offer_reps
    let path := visits opt n (last_end opt n)
    let r := run_dp data start n prices m pos_long init_rep offer_reps
    (∀ p ∈ path, p = 0 ∨ MIN_MATCH ≤ (cell opt p).mlen) ∧ path.getLast? = some 0 ∧
    r.1 = (path.dropLast.map fun p => (cell opt p).seq).reverse ∧
    last_end opt n ≤ n ∧ Replays data start init_rep r.1 (start + last_end opt n) r.2 := by
  intro opt path r
  have hcost : n * (3 * 2 ^ 32) < Opt.unreached.price := by
    have hprice : Opt.unreached.price = (2 ^ 64 - 1) / 4 := rfl
    omega
  have h : Cells (3 * 2 ^ 32) data start n init_rep n n opt :=
    dp_cells_spec hcost (by omega) hprices hreal
  obtain ⟨hle, hanchor, _⟩ := h.last_end
  obtain ⟨hvisits, hend, _⟩ := h.backtrack hle hle hanchor
  have hrun : r = (backtrack opt n (last_end opt n) [], (cell opt n).rep) := rfl
  rw [hrun]
  refine ⟨hvisits, hend, ?_, hle, h.replays⟩
  rw [backtrack_eq_visits, List.append_nil]

/-- A run of seven bytes parsed from its second byte, with the rest of the run as a candidate. -/
def run_of_seven : Bytes := List.replicate 7 97

/-- Prices that favour matches. -/
def flat_prices : Prices :=
  ⟨List.replicate 256 2000, List.replicate 36 300, List.replicate 53 400, List.replicate 32 500⟩

theorem flat_prices_below : flat_prices.Below (2 ^ 32) := by
  constructor <;> intro x hx <;> rw [List.eq_of_mem_replicate hx] <;> decide

theorem run_dp_parses_run_of_seven :
    let m : Matches := ⟨[0, 1, 1, 1, 1, 1, 1], [(6, 1)]⟩
    let r := run_dp run_of_seven 1 6 flat_prices m [] ⟨1, 4, 8⟩ true
    r = ([⟨0, 6, 4⟩], ⟨1, 1, 4⟩) ∧ Replays run_of_seven 1 ⟨1, 4, 8⟩ r.1
      (1 + last_end (dp_cells run_of_seven 1 6 flat_prices m [] ⟨1, 4, 8⟩ true) 6) r.2 := by
  intro m r
  constructor
  · decide +kernel
  · exact (run_dp_parses run_of_seven 1 6 flat_prices m [] ⟨1, 4, 8⟩ true (by decide)
      flat_prices_below
      ⟨by decide, by decide⟩).2.2.2.2

end ZstdPure.Encode
