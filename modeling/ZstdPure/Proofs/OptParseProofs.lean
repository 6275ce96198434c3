import ZstdPure.Proofs.FrontierProofs
import ZstdPure.Proofs.LazyProofs
import ZstdPure.Proofs.PriceProofs

/-!
# Proofs: the optimal parse

The collection writes the candidates of a block into two flat streams, one group for each position.
All of them are real, so each parse that the dynamic program finds over them is valid.
-/

namespace ZstdPure.Encode

open Sequences

/-! ## Streams of candidates -/

/-- A candidate of the position `i` of a block of `n` bytes is real and ends within the block. -/
def RealAt (data : Bytes) (start n i : Nat) (c : Nat × Nat) : Prop :=
  i + c.1 ≤ n ∧ RealMatch data (start + i) c.1 c.2

/-- The stream of the groups, each of them the candidates of its position, `d` at most. -/
structure Stream (data : Bytes) (start n d : Nat) (groups : List (List (Nat × Nat))) (m : Matches) :
    Prop where
  flat : m.flat = groups.flatten
  starts : m.starts = (List.range groups.length).map fun j => (groups.take j).flatten.length
  real : ∀ j, ∀ c ∈ groups.getD j [], RealAt data start n j c
  short : ∀ g ∈ groups, g.length ≤ d

/-- The stream with the start of the next group noted. -/
def Matches.note (m : Matches) : Matches := ⟨m.starts ++ [m.flat.length % 2 ^ 32], m.flat⟩

section Streams

variable {data : Bytes} {start n d : Nat} {groups : List (List (Nat × Nat))} {m : Matches}

theorem Stream.nil (data : Bytes) (start n d : Nat) : Stream data start n d [] ⟨[], []⟩ :=
  ⟨rfl, rfl, fun _ _ hc => absurd hc List.not_mem_nil, fun _ hg => absurd hg List.not_mem_nil⟩

theorem Stream.length_flat (h : Stream data start n d groups m) :
    m.flat.length ≤ groups.length * d := by
  rw [h.flat, List.length_flatten]
  have hsum := List.sum_le_card_nsmul (groups.map List.length) d (by
    intro x hx
    obtain ⟨g, hg, rfl⟩ := List.mem_map.mp hx
    exact h.short g hg)
  rw [List.length_map, smul_eq_mul] at hsum
  exact hsum

/-- The starts noted are those of the groups so far, and of the next one. -/
theorem Stream.starts_note (h : Stream data start n d groups m) (hfit : groups.length * d <
    2 ^ 32) :
    m.note.starts = (List.range (groups.length + 1)).map fun j =>
      (groups.take j).flatten.length := by
  have hlen := h.length_flat
  rw [List.range_succ, List.map_append, ← h.starts, List.map_singleton, List.take_length, ← h.flat,
    ← Nat.mod_eq_of_lt (lt_of_le_of_lt hlen hfit)]
  rfl

theorem Stream.push (h : Stream data start n d groups m) (hfit : groups.length * d < 2 ^ 32)
    {g : List (Nat × Nat)} (hreal : ∀ c ∈ g, RealAt data start n groups.length c)
      (hd : g.length ≤ d) :
    Stream data start n d (groups ++ [g]) ⟨m.note.starts, m.flat ++ g⟩ := by
  constructor
  · show m.flat ++ g = _
    rw [h.flat, List.flatten_append, List.flatten_singleton]
  · show m.note.starts = _
    rw [h.starts_note hfit, List.length_append, List.length_singleton]
    apply List.map_congr_left
    intro j hj
    rw [List.take_append_of_le_length (Nat.le_of_lt_succ (List.mem_range.mp hj))]
  · intro j c hc
    rcases Nat.lt_trichotomy j groups.length with hj | rfl | hj
    · rw [List.getD_append _ _ _ _ hj] at hc
      exact h.real j c hc
    · rw [List.getD_append_right _ _ _ _ (le_refl _), Nat.sub_self, List.getD_cons_zero] at hc
      exact hreal c hc
    · rw [List.getD_eq_default _ _ (by rw [List.length_append, List.length_singleton]; omega)] at hc
      exact absurd hc List.not_mem_nil
  · intro g' hg'
    rcases List.mem_append.mp hg' with hg' | hg'
    · exact h.short g' hg'
    · rw [List.mem_singleton.mp hg']
      exact hd

/-- Read back, the candidates of a position are its group. -/
theorem Stream.at_note (h : Stream data start n d groups m) (hfit : groups.length * d < 2 ^ 32)
    {i : Nat}
    (hi : i < groups.length) : m.note.at_ i = groups.getD i [] := by
  have hget : ∀ j, j ≤ groups.length → m.note.starts.getD j 0 = (groups.take j).flatten.length := by
    intro j hj
    rw [h.starts_note hfit, List.getD_eq_getElem _ _ (by simpa using hj), List.getElem_map,
      List.getElem_range]
  have hsplit : groups.flatten =
      (groups.take i).flatten ++ (groups[i] ++ (groups.drop (i + 1)).flatten) := by
    rw [← List.flatten_cons, ← List.drop_eq_getElem_cons hi, ← List.flatten_append,
      List.take_append_drop]
  have htake : (groups.take (i + 1)).flatten = (groups.take i).flatten ++ groups[i] := by
    rw [List.take_succ_eq_append_getElem hi, List.flatten_append, List.flatten_singleton]
  unfold Matches.at_
  rw [hget i (le_of_lt hi), hget (i + 1) hi, List.getD_eq_getElem _ _ hi]
  show (m.flat.take _).drop _ = _
  rw [h.flat, hsplit, htake, ← List.append_assoc, List.take_left, List.drop_left]

end Streams

/-! ## The collection -/

/-- What the callers of the collection see to. -/
structure CollectEnv.Fits (e : CollectEnv) : Prop where
  cast : e.cast = asI32
  range : e.start ≤ e.stop
  inside : e.stop ≤ e.data.length
  field : e.stop - e.start < 2 ^ 32
  reach : min e.max_offset e.data.length < 2 ^ 32
  suff : MIN_MATCH ≤ e.suff
  streams : (e.stop - e.start) * (2 * e.depth) < 2 ^ 32

namespace Collect

/-- A committed match is real and as long as the format asks. -/
def CommittedAt (e : CollectEnv) (i : Nat) (c : Nat × Nat) : Prop :=
  MIN_MATCH ≤ c.1 ∧ RealAt e.data e.start (e.stop - e.start) i c

/-- The collection after `i` positions. -/
structure Inv (e : CollectEnv) (i : Nat) (s : Collect) : Prop where
  sound : Hybrid.Sound e.data s.inserted s.finder
  inserted : s.inserted ≤ e.start + i
  hybrid : ∃ groups, groups.length = i ∧
    Stream e.data e.start (e.stop - e.start) (2 * e.depth) groups s.hybrid
  full : ∃ groups, groups.length = i ∧
    Stream e.data e.start (e.stop - e.start) (2 * e.depth) groups s.full
  length : s.pos_long.length = i
  committed : ∀ j, ∀ c ∈ s.pos_long.getD j none, CommittedAt e j c

/-- What one position may add: a group to each stream, and perhaps a committed match. -/
structure Added (e : CollectEnv) (i : Nat) (g₁ g₂ : List (Nat × Nat)) (x : Option (Nat × Nat)) :
    Prop where
  hybrid : (∀ c ∈ g₁, RealAt e.data e.start (e.stop - e.start) i c) ∧ g₁.length ≤ 2 * e.depth
  full : (∀ c ∈ g₂, RealAt e.data e.start (e.stop - e.start) i c) ∧ g₂.length ≤ 2 * e.depth
  committed : ∀ c ∈ x, CommittedAt e i c

section

variable {e : CollectEnv} {i : Nat} {s : Collect}

theorem Added.none (e : CollectEnv) (i : Nat) : Added e i [] [] none :=
  ⟨⟨fun c hc => absurd hc List.not_mem_nil, Nat.zero_le _⟩,
    ⟨fun c hc => absurd hc List.not_mem_nil, Nat.zero_le _⟩, fun c hc => by cases hc⟩

/-- The collection with what a position added. -/
theorem Inv.add (h : Inv e i s) (hfit : i * (2 * e.depth) < 2 ^ 32) {finder : Hybrid}
    {inserted skip_until : Nat} (hsound : Hybrid.Sound e.data inserted finder)
    (hins : inserted ≤ e.start + (i + 1)) {g₁ g₂ : List (Nat × Nat)} {x : Option (Nat × Nat)}
    (hadd : Added e i g₁ g₂ x) :
    Inv e (i + 1) ⟨finder, inserted, skip_until, ⟨s.hybrid.note.starts, s.hybrid.flat ++ g₁⟩,
      ⟨s.full.note.starts, s.full.flat ++ g₂⟩, s.pos_long ++ [x]⟩ := by
  obtain ⟨groups₁, hlen₁, hs₁⟩ := h.hybrid
  obtain ⟨groups₂, hlen₂, hs₂⟩ := h.full
  refine ⟨hsound, hins, ⟨groups₁ ++ [g₁], ?_, hs₁.push ?_ ?_ hadd.hybrid.2⟩,
    ⟨groups₂ ++ [g₂], ?_, hs₂.push ?_ ?_ hadd.full.2⟩, ?_, ?_⟩
  · rw [List.length_append, List.length_singleton, hlen₁]
  · rw [hlen₁]
    exact hfit
  · rw [hlen₁]
    exact hadd.hybrid.1
  · rw [List.length_append, List.length_singleton, hlen₂]
  · rw [hlen₂]
    exact hfit
  · rw [hlen₂]
    exact hadd.full.1
  · rw [List.length_append, List.length_singleton, h.length]
  · intro j c hc
    have hlen := h.length
    rcases Nat.lt_trichotomy j s.pos_long.length with hj | hj | hj
    · rw [List.getD_append _ _ _ _ hj] at hc
      exact h.committed j c hc
    · rw [List.getD_append_right _ _ _ _ (le_of_eq hj.symm), hj, Nat.sub_self,
        List.getD_cons_zero] at hc
      rw [hj, hlen]
      exact hadd.committed c hc
    · rw [List.getD_eq_default _ _ (by rw [List.length_append, List.length_singleton]; omega)] at hc
      cases hc

/-- Indexing up to a position at which a match could start. -/
theorem index_upto_sound (hc : e.cast = asI32) (hin : e.stop ≤ e.data.length)
    (hreach : min e.max_offset e.data.length < 2 ^ 32) {ap : Nat} (hap : ap + 3 ≤ e.stop)
    (h : Hybrid.Sound e.data s.inserted s.finder) :
    Hybrid.Sound e.data (max s.inserted ap) (s.index_upto e ap).finder := by
  have hok := LazyState.inserts_ok (Hybrid.lazy_sound hin hreach e.depth) h
    (fun h0 => by omega : 0 < ap - s.inserted → s.inserted + (ap - s.inserted) + 3 ≤ e.stop)
  show Hybrid.Sound e.data (max s.inserted ap) ((List.range' s.inserted (ap - s.inserted)).foldl
    (Hybrid.insert e.cast e.data e.stop e.max_offset e.depth) s.finder)
  rw [hc]
  exact Hybrid.Sound.mono hok (by omega)

/-- A search collects no more matches than it compares nodes. -/
theorem length_descend_all (st : BtState) (data : Bytes) (curr stop window_low nb : Nat)
    (d : BtState.Descent) :
    (st.descend_all data curr stop window_low nb d).out.length ≤ d.out.length + nb := by
  induction nb generalizing d with
  | zero => exact le_refl _
  | succ nb ih =>
    unfold BtState.descend_all
    split_ifs with hlive
    · dsimp only
      generalize min d.common_smaller d.common_larger = from_
      generalize from_ + common_len data (d.match_index.toNat + from_) (curr + from_) stop = ml
      have hrecord : ∀ d' : BtState.Descent, d'.out.length ≤ d.out.length + 1 →
          (if curr + ml = stop then d' else st.descend_all data curr stop window_low nb
            (st.descend data curr d.match_index.toNat ml d')).out.length ≤ d.out.length +
              (nb + 1) := by
        intro d' hd'
        have hsame : (st.descend data curr d.match_index.toNat ml d').out = d'.out := by
          unfold BtState.descend
          split_ifs <;> rfl
        have hrest := ih (st.descend data curr d.match_index.toNat ml d')
        rw [hsame] at hrest
        split_ifs <;> omega
      apply hrecord
      split_ifs
      · show (d.out ++ [_]).length ≤ _
        rw [List.length_append, List.length_singleton]
      · exact Nat.le_succ _
    · omega

/-- The search at a position: real candidates of the chain and of the tree, and the position
indexed. -/
theorem search_spec (hf : e.Fits) {ap : Nat} (hap : ap + MIN_MATCH ≤ e.stop) (hlow : e.start ≤ ap)
    (h : Hybrid.Sound e.data ap s.finder) :
    ∃ chain tree finder, s.search e ap = (chain, tree, { s with finder, inserted := ap + 1 }) ∧
      Hybrid.Sound e.data (ap + 1) finder ∧
      (∀ c ∈ chain ++ tree, RealAt e.data e.start (e.stop - e.start) (ap - e.start) c) ∧
      chain.length ≤ e.depth ∧ tree.length ≤ e.depth := by
  have hmin : MIN_MATCH = 4 := rfl
  have hinside := hf.inside
  have hfield := hf.field
  obtain ⟨hreal, hshort⟩ := ChainState.find_matches_real h.chain (by omega : ap ≤ e.stop) hinside
    (by omega) hf.reach e.depth (max e.suff 512)
  have hring : s.finder.tree.slide_period ≤ 2 ^ 23 := h.tree.ring_size.2
  obtain ⟨hsound, ms, f, hall, _⟩ := h.tree.search (le_refl ap) hap hinside e.max_offset e.depth
  have hat : ∀ c : Nat × Nat, ap + c.1 ≤ e.stop ∧ RealMatch e.data ap c.1 c.2 →
      RealAt e.data e.start (e.stop - e.start) (ap - e.start) c := by
    rintro c ⟨hend, hc⟩
    refine ⟨by omega, ?_⟩
    rw [Nat.add_sub_cancel' hlow]
    exact hc
  refine ⟨_, _, ⟨s.finder.chain.insert e.cast e.data ap, _⟩, rfl, ⟨?_, ?_⟩, ?_, hshort, ?_⟩
  · show TableBefore (s.finder.chain.head.set _ (e.cast ap)) (ap + 1)
    rw [hf.cast]
    exact h.chain.store _
  · show BtState.Sound e.data (ap + 1) (s.finder.tree.insert_and_get_all_matches e.cast e.data
      e.stop
      e.max_offset e.depth ap).2
    rw [hf.cast]
    exact hsound
  · intro c hc
    rcases List.mem_append.mp hc with hc | hc
    · exact hat c (hreal c hc)
    · have hout : (s.finder.tree.descend_all e.data ap e.stop
        (s.finder.tree.window_low ap e.max_offset)
          e.depth (s.finder.tree.start_descent e.data ap)).out = ms.map (BtState.report ap) := hall
      rw [hout] at hc
      obtain ⟨m, hm, rfl⟩ := List.mem_map.mp hc
      obtain ⟨hlt, hend, hoff, hr⟩ := f.real hm
      apply hat
      show ap + m.1 % 2 ^ 32 ≤ e.stop ∧ RealMatch e.data ap (m.1 % 2 ^ 32) ((ap - m.2) % 2 ^ 32)
      rw [Nat.mod_eq_of_lt (by omega), Nat.mod_eq_of_lt (by omega)]
      exact ⟨hend, hr⟩
  · have hlen := length_descend_all s.finder.tree e.data ap e.stop
      (s.finder.tree.window_low ap e.max_offset) e.depth (s.finder.tree.start_descent e.data ap)
    exact hlen.trans (by show 0 + e.depth ≤ e.depth; omega)

theorem longest_mem {l : List (Nat × Nat)} (h : (longest l).1 ≠ 0) : longest l ∈ l := by
  rcases List.eq_nil_or_concat l with rfl | ⟨init, last, rfl⟩
  · exact absurd rfl h
  · have hlast : longest (init.concat last) = last := by
      unfold longest
      rw [List.concat_eq_append, List.getLastD_concat]
    rw [hlast]
    simp

/-- What is recorded of a searched position. -/
theorem record_spec (hf : e.Fits) {ap : Nat} (hlow : e.start ≤ ap) (hap : ap ≤ e.stop)
    {chain tree : List (Nat × Nat)}
    (hreal : ∀ c ∈ chain ++ tree, RealAt e.data e.start (e.stop - e.start) (ap - e.start) c)
    (hchain : chain.length ≤ e.depth) (htree : tree.length ≤ e.depth) :
    ∃ skip_until g₁ g₂ x, record e ap chain tree s =
      ⟨s.finder, s.inserted, skip_until, ⟨s.hybrid.starts, s.hybrid.flat ++ g₁⟩,
        ⟨s.full.starts, s.full.flat ++ g₂⟩, s.pos_long ++ [x]⟩ ∧
        Added e (ap - e.start) g₁ g₂ x := by
  have hinside := hf.inside
  have hfield := hf.field
  have hbest : (if (longest chain).1 < (longest tree).1 then longest tree else longest chain).1 ≠
    0 →
      RealAt e.data e.start (e.stop - e.start) (ap - e.start)
        (if (longest chain).1 < (longest tree).1 then longest tree else longest chain) := by
    split_ifs
    · exact fun h0 => hreal _ (List.mem_append_right _ (longest_mem h0))
    · exact fun h0 => hreal _ (List.mem_append_left _ (longest_mem h0))
  unfold record
  dsimp only
  generalize (if (longest chain).1 < (longest tree).1 then longest tree else longest chain) = best
    at hbest ⊢
  by_cases h0 : best.1 = 0
  · rw [if_pos h0]
    refine ⟨s.skip_until, [], [], none, ?_, Added.none e _⟩
    rw [List.append_nil, List.append_nil]
  · rw [if_neg h0]
    obtain ⟨hend, hmatch⟩ := hbest h0
    rw [Nat.add_sub_cancel' hlow] at hmatch
    by_cases hsuff : e.suff ≤ best.1
    · -- extended to its whole length, the match is committed if it is still long enough
      obtain ⟨hreal', hin'⟩ := @common_len_real e.data ap e.stop (ap - best.2)
        (by have := hmatch.1; have := hmatch.2.1; omega) hap hinside
      rw [Nat.sub_sub_self hmatch.2.1] at hreal'
      rw [if_pos hsuff]
      show ∃ skip_until g₁ g₂ x,
        (if e.suff ≤ common_len e.data (ap - best.2) ap e.stop then _ else _) = _ ∧ _
      unfold ChainState.extend_full
      generalize common_len e.data (ap - best.2) ap e.stop = ml at hreal' hin' ⊢
      split_ifs with hlong
      · refine ⟨ap + ml, [], [], some (ml % 2 ^ 32, best.2), ?_, (Added.none e _).hybrid,
          (Added.none e _).full, ?_⟩
        · rw [List.append_nil, List.append_nil]
        · intro c hc
          rw [← Option.mem_some_iff.mp hc, Nat.mod_eq_of_lt (by omega)]
          refine ⟨hf.suff.trans hlong, by show ap - e.start + ml ≤ e.stop - e.start; omega, ?_⟩
          rw [Nat.add_sub_cancel' hlow]
          exact hreal'
      · refine ⟨s.skip_until, chain, _, none, rfl, ⟨?_, by omega⟩, ⟨?_, ?_⟩,
          fun c hc => by cases hc⟩
        · exact fun c hc => hreal c (List.mem_append_left _ hc)
        · exact fun c hc => hreal c ((reduce_subperm _).subset hc)
        · have hle := (reduce_subperm (chain ++ tree)).length_le
          rw [List.length_append] at hle
          omega
    · rw [if_neg hsuff, if_neg hsuff]
      refine ⟨s.skip_until, chain, _, none, rfl, ⟨?_, by omega⟩, ⟨?_, ?_⟩, fun c hc => by cases hc⟩
      · exact fun c hc => hreal c (List.mem_append_left _ hc)
      · exact fun c hc => hreal c ((reduce_subperm _).subset hc)
      · have hle := (reduce_subperm (chain ++ tree)).length_le
        rw [List.length_append] at hle
        omega

/-- The collection with the starts of the next groups noted. -/
def noted (s : Collect) : Collect :=
  ⟨s.finder, s.inserted, s.skip_until, s.hybrid.note, s.full.note, s.pos_long⟩

/-- The collection with no match committed at the next position. -/
def uncommitted (s : Collect) : Collect :=
  ⟨s.finder, s.inserted, s.skip_until, s.hybrid, s.full, s.pos_long ++ [none]⟩

theorem step_eq (e : CollectEnv) (s : Collect) (i : Nat) : step e s i =
    if e.stop < e.start + i + MIN_MATCH then s.noted.uncommitted
    else if e.start + i < s.skip_until then
      (if (s.noted.index_upto e (e.start + i)).inserted = e.start + i then
        (s.noted.index_upto e (e.start + i)).index_upto e (e.start + i + 1)
        else s.noted.index_upto e (e.start + i)).uncommitted
    else
      record e (e.start + i) ((s.noted.index_upto e (e.start + i)).search e (e.start + i)).1
        ((s.noted.index_upto e (e.start + i)).search e (e.start + i)).2.1
        ((s.noted.index_upto e (e.start + i)).search e (e.start + i)).2.2 := rfl

/-- One position of the collection. -/
theorem step_inv (hf : e.Fits) (h : Inv e i s) (hi : i < e.stop - e.start) :
    Inv e (i + 1) (step e s i) := by
  have hmin : MIN_MATCH = 4 := rfl
  have hfit : i * (2 * e.depth) < 2 ^ 32 :=
    lt_of_le_of_lt (Nat.mul_le_mul_right _ (le_of_lt hi)) hf.streams
  have hins := h.inserted
  have hnone : ∀ {finder : Hybrid} {inserted : Nat},
      Hybrid.Sound e.data inserted finder → inserted ≤ e.start + (i + 1) →
      Inv e (i + 1) ⟨finder, inserted, s.skip_until, s.hybrid.note, s.full.note,
        s.pos_long ++ [none]⟩ := by
    intro finder inserted hsound hins
    have hadd := @Inv.add e i s h hfit finder inserted s.skip_until hsound hins _ _ _
      (Added.none e i)
    rw [List.append_nil, List.append_nil] at hadd
    exact hadd
  rw [step_eq]
  by_cases hshort : e.stop < e.start + i + MIN_MATCH
  · rw [if_pos hshort]
    exact hnone h.sound (Nat.le_succ_of_le hins)
  · rw [if_neg hshort]
    have hupto : (s.noted.index_upto e (e.start + i)).inserted = e.start + i := max_eq_right hins
    have hsound : Hybrid.Sound e.data (e.start + i)
      (s.noted.index_upto e (e.start + i)).finder := by
      have hidx := @index_upto_sound e s.noted hf.cast hf.inside hf.reach (e.start + i) (by omega)
        h.sound
      rw [show max s.noted.inserted (e.start + i) = e.start + i from max_eq_right hins] at hidx
      exact hidx
    rw [if_pos hupto]
    by_cases hskip : e.start + i < s.skip_until
    · -- inside a committed long match
      rw [if_pos hskip]
      have hidx := @index_upto_sound e (s.noted.index_upto e (e.start + i)) hf.cast hf.inside
        hf.reach (e.start + i + 1) (by omega) (by rw [hupto]; exact hsound)
      refine hnone hidx ?_
      show max (max s.inserted (e.start + i)) (e.start + i + 1) ≤ _
      omega
    · rw [if_neg hskip]
      obtain ⟨chain, tree, finder, hsearch, hsound', hreal, hchain, htree⟩ :=
        search_spec hf (Nat.le_of_not_lt hshort) (Nat.le_add_right _ _) hsound
      rw [hsearch]
      obtain ⟨skip_until, g₁, g₂, x, hrecord, hadded⟩ :=
        record_spec (s := { s.noted.index_upto e (e.start + i) with
          finder, inserted := e.start + i + 1 }) hf (Nat.le_add_right e.start i) (by omega) hreal
          hchain htree
      rw [Nat.add_sub_cancel_left] at hadded
      show Inv e (i + 1) (record e (e.start + i) chain tree _)
      rw [hrecord]
      exact h.add hfit hsound' (le_refl _) hadded

/-- The candidates read back are those of the positions, and so is each match committed. -/
theorem Inv.real (h : Inv e i s) (hfit : i * (2 * e.depth) < 2 ^ 32) :
    (∀ j, j < i → ∀ c ∈ s.hybrid.note.at_ j, RealAt e.data e.start (e.stop - e.start) j c) ∧
    (∀ j, j < i → ∀ c ∈ s.full.note.at_ j, RealAt e.data e.start (e.stop - e.start) j c) := by
  obtain ⟨groups₁, rfl, hs₁⟩ := h.hybrid
  obtain ⟨groups₂, hlen, hs₂⟩ := h.full
  constructor
  · intro j hj c hc
    rw [hs₁.at_note hfit hj] at hc
    exact hs₁.real j c hc
  · intro j hj c hc
    rw [hs₂.at_note (by rw [hlen]; exact hfit) (by omega)] at hc
    exact hs₂.real j c hc

/-- The whole collection. -/
theorem run_spec (hf : e.Fits) {finder : Hybrid} (h : Hybrid.Sound e.data e.start finder) :
    Hybrid.Sound e.data e.stop (run e finder).finder ∧
    RealCandidates e.data e.start (e.stop - e.start) (run e finder).hybrid (run e finder).pos_long ∧
    RealCandidates e.data e.start (e.stop - e.start) (run e finder).full
      (run e finder).pos_long := by
  have hloop : ∀ k, k ≤ e.stop - e.start → Inv e k ((List.range k).foldl (step e)
      ⟨finder, e.start, e.start, ⟨[], []⟩, ⟨[], []⟩, []⟩) := by
    intro k hk
    induction k with
    | zero =>
      refine ⟨h, le_refl _, ⟨[], rfl, Stream.nil _ _ _ _⟩, ⟨[], rfl, Stream.nil _ _ _ _⟩, rfl, ?_⟩
      intro j c hc
      cases hc
    | succ k ih =>
      rw [List.range_succ, List.foldl_append]
      exact step_inv hf (ih (Nat.le_of_succ_le hk)) hk
  have hinv := hloop _ (le_refl _)
  obtain ⟨hhybrid, hfull⟩ := hinv.real hf.streams
  refine ⟨hinv.sound.mono ?_, ⟨hhybrid, ?_⟩, ⟨hfull, ?_⟩⟩
  · have hins := hinv.inserted
    have hrange := hf.range
    omega
  · exact fun j _ c hc => hinv.committed j c hc
  · exact fun j _ c hc => hinv.committed j c hc

end

end Collect

/-! ## The parses of the program -/

/-- The literals of a parse are its literal runs and what follows the last match. -/
theorem materialize_literals_eq {data : Bytes} {start last : Nat} {rep rep' : Reps}
    {seqs : List Seq}
    (h : Replays data start rep seqs last rep') (stop : Nat) :
    materialize_literals data start stop seqs =
      literal_runs data start seqs ++ range_of data last stop := by
  suffices hfold : ∀ acc : Bytes, seqs.foldl (fun (s : Bytes × Nat) q =>
      (s.1 ++ range_of data s.2 (s.2 + q.lit_len), s.2 + q.span)) (acc, start) =
        (acc ++ literal_runs data start seqs, last) by
    unfold materialize_literals
    rw [hfold []]
    rfl
  induction h with
  | nil =>
    intro acc
    rw [literal_runs, List.append_nil]
    rfl
  | @cons p q off rep rep' rep_out s seqs _ _ _ _ _ ih =>
    intro acc
    rw [List.foldl_cons, literal_runs, ← List.append_assoc]
    have hspan : p + s.span = p + s.lit_len + s.match_len := (Nat.add_assoc ..).symm
    show List.foldl _ (acc ++ range_of data p (p + s.lit_len), p + s.span) seqs = _
    rw [hspan]
    exact ih _

namespace OptEnv

section

variable {e : OptEnv} {m : Matches} {prices : Prices}

/-- The parse `r` of a block replays it up to some last match. -/
def Parses (e : OptEnv) (r : List Seq × Reps) : Prop :=
  ∃ last, last ≤ e.stop ∧ Replays e.data e.start e.rep_in r.1 last r.2

theorem Parses.valid {r : List Seq × Reps} (h : e.Parses r) :
    ValidParse e.data e.start e.stop e.rep_in (e.candidate r) := by
  obtain ⟨last, hlast, hreplays⟩ := h
  exact ⟨last, hlast, hreplays, materialize_literals_eq hreplays e.stop⟩

theorem run_parses (hrange : e.start ≤ e.stop) (hfield : e.stop - e.start < 2 ^ 32)
    (hprices : prices.Below (2 ^ 15))
    (hreal : RealCandidates e.data e.start (e.stop - e.start) m e.pos_long) (offer_reps : Bool) :
    e.Parses (e.run prices m offer_reps) := by
  have hcost : (e.stop - e.start) * (3 * 2 ^ 15) < Opt.unreached.price := by
    have hprice : Opt.unreached.price = (2 ^ 64 - 1) / 4 := rfl
    omega
  have hcells := @dp_cells_spec _ _ _ _ _ _ _ e.rep_in offer_reps hcost hfield hprices hreal
  have hle := hcells.last_end.1
  exact ⟨_, by omega, hcells.replays⟩

theorem length_block (hstop : e.stop ≤ e.data.length) :
    (range_of e.data e.start e.stop).length = e.stop - e.start := by
  rw [range_of, List.length_drop, List.length_take, min_eq_left hstop]

theorem two_pass_dp_parses (hrange : e.start ≤ e.stop) (hstop : e.stop ≤ e.data.length)
    (hfield : e.stop - e.start < 2 ^ 32)
    (hreal : RealCandidates e.data e.start (e.stop - e.start) m e.pos_long) (offer_reps : Bool) :
    e.Parses (e.two_pass_dp m offer_reps) := by
  have hfirst := run_parses hrange hfield (Prices.predef_below (range_of e.data e.start e.stop))
    hreal
    offer_reps
  unfold two_pass_dp
  dsimp only
  split_ifs
  · obtain ⟨last, hlast, hreplays⟩ := hfirst
    have hlen := length_block hstop
    exact run_parses hrange hfield (Prices.from_stats_below hreplays hlast hlen (by omega)) hreal
      offer_reps
  · exact hfirst

theorem rep_dp_parses (hrange : e.start ≤ e.stop) (hstop : e.stop ≤ e.data.length)
    (hfield : e.stop - e.start < 2 ^ 32)
    (hreal : RealCandidates e.data e.start (e.stop - e.start) m e.pos_long) {stats : OptStats}
    (hstats : stats.freqs.Bounded (2 ^ 31)) : e.Parses (e.rep_dp stats m) := by
  unfold rep_dp
  split_ifs
  · exact run_parses hrange hfield (Prices.from_freqs_below hstats (by decide)) hreal true
  · exact two_pass_dp_parses hrange hstop hfield hreal true

end

end OptEnv

theorem add_alt_subset {base : List Seq} {alts : List Candidate} {c : Candidate} :
    ∀ a ∈ add_alt base alts c, a ∈ alts ∨ a = c := by
  unfold add_alt
  intro a ha
  split_ifs at ha
  · rcases List.mem_append.mp ha with ha | ha
    · exact Or.inl ha
    · exact Or.inr (List.mem_singleton.mp ha)
  · exact Or.inl ha

/-- The alternatives are among the candidates offered. -/
theorem alts_subset {base : List Seq} {α : Type} (f : α → Candidate) (ps : List α)
    (alts : List Candidate) : ∀ a ∈ ps.foldl (fun alts p => add_alt base alts (f p)) alts,
      a ∈ alts ∨ ∃ p ∈ ps, a = f p := by
  induction ps generalizing alts with
  | nil => exact fun a ha => Or.inl ha
  | cons p ps ih =>
    intro a ha
    rcases ih _ a ha with ha | ⟨q, hq, rfl⟩
    · rcases add_alt_subset a ha with ha | rfl
      · exact Or.inl ha
      · exact Or.inr ⟨p, List.mem_cons_self, rfl⟩
    · exact Or.inr ⟨q, List.mem_cons_of_mem p hq, rfl⟩

/-- The optimal parse of a block and its alternatives are valid, the indices it leaves hold
positions before its end, and the statistics stay bounded. -/
theorem opt_parse_block_valid {data : Bytes} {start stop max_offset depth : Nat} {st : Hybrid}
    {stats : OptStats}
    (hrange : start ≤ stop) (hstop : stop ≤ data.length)
    (hreach : min max_offset data.length < 2 ^ 32) (hdepth : 0 < depth)
    (hstreams : (stop - start) * (2 * depth) < 2 ^ 32)
    (h : Hybrid.Sound data start st) (hstats : stats.freqs.Bounded (2 ^ 31)) (rep : Reps)
    (sufficient_len : Nat) (two_pass : Bool) :
    ∃ p st' stats', opt_parse_block asI32 data start stop max_offset rep depth sufficient_len
      two_pass
        st stats = (p, st', stats') ∧
      (∀ c ∈ p.primary :: p.alts, ValidParse data start stop rep c) ∧
      Hybrid.Sound data stop st' ∧ stats'.freqs.Bounded (2 ^ 31) := by
  unfold opt_parse_block
  by_cases hshort : stop - start < MIN_MATCH + 1
  · rw [if_pos hshort]
    refine ⟨_, st, stats, rfl, ?_, h.mono hrange, hstats⟩
    intro c hc
    rw [List.mem_singleton.mp hc]
    exact literal_parse_valid hrange rep
  · rw [if_neg hshort]
    have hblock : stop - start < 2 ^ 31 := by
      have hmul : (stop - start) * 2 ≤ (stop - start) * (2 * depth) :=
        Nat.mul_le_mul_left _ (by omega)
      omega
    have hfield : stop - start < 2 ^ 32 := by omega
    have hfits : CollectEnv.Fits ⟨asI32, data, start, stop, max_offset, depth,
        max sufficient_len MIN_MATCH⟩ :=
      ⟨by dsimp only, hrange, hstop, hfield, hreach, le_max_right _ _, hstreams⟩
    obtain ⟨hsound, hhybrid, hfull⟩ := Collect.run_spec hfits h
    generalize Collect.run _ st = c at hsound hhybrid hfull ⊢
    generalize he : (⟨data, start, stop, c.pos_long, rep, two_pass⟩ : OptEnv) = e
    have hbase : e.Parses (e.two_pass_dp c.hybrid false) := by
      subst he
      exact OptEnv.two_pass_dp_parses hrange hstop hfield hhybrid false
    have hrep : e.Parses (e.rep_dp stats c.hybrid) := by
      subst he
      exact OptEnv.rep_dp_parses hrange hstop hfield hhybrid hstats
    have hfb : e.Parses (e.two_pass_dp c.full false) := by
      subst he
      exact OptEnv.two_pass_dp_parses hrange hstop hfield hfull false
    have hfr : e.Parses (e.rep_dp stats c.full) := by
      subst he
      exact OptEnv.rep_dp_parses hrange hstop hfield hfull hstats
    have hvalid : ∀ {r : List Seq × Reps}, e.Parses r →
        ValidParse data start stop rep (e.candidate r) := by
      intro r hr
      subst he
      exact hr.valid
    subst he
    refine ⟨_, _, _, rfl, ?_, hsound, ?_⟩
    · intro a ha
      rcases List.mem_cons.mp ha with rfl | ha
      · exact hvalid hbase
      · rcases alts_subset (OptEnv.candidate _) _ _ a ha with ha | ⟨p, hp, rfl⟩
        · exact absurd ha List.not_mem_nil
        · simp only [List.mem_cons, List.not_mem_nil, or_false] at hp
          rcases hp with rfl | rfl | rfl
          · exact hvalid hrep
          · exact hvalid hfb
          · exact hvalid hfr
    · obtain ⟨last, hlast, hreplays⟩ := hfr
      exact OptStats.record_bounded hstats hreplays hlast hrange hblock.le

end ZstdPure.Encode
