import ZstdPure.Proofs.FseProofs
import ZstdPure.Proofs.ParamsProofs
import ZstdPure.Proofs.TreeOrderProofs

/-!
# Proofs: the binary-tree finder

Each bucket of the hash table leads to a search tree in the ring. The descents go down one of them
with the bounds they have passed; those that insert make the new position the root.
-/

namespace ZstdPure.Encode

open RingTree (Side Within Tree Split Open Halves link)

namespace BtState

/-! ## One descent -/

/-- What the nodes of the tree of the bucket `h` are. -/
def Indexed (data : Bytes) (hash_log h p : Nat) : Prop :=
  p + 4 ≤ data.length ∧ hash4 (read_u32 data p) hash_log = h

/-- A descent for `curr` has come to the link `v`, past the bounds `b`. -/
structure Seek (st : BtState) (data : Bytes) (curr cap low h : Nat) (v : Int)
    (b : Bool → Option Nat) (c : Bool → Nat) : Prop where
  tree : Tree (2 ^ st.bt_log) (Smaller data) (Indexed data st.hash_log h) low st.bt b v
  shares : Shares data curr cap b c
  older : v < curr

namespace Descent

/-- The open slots of an inserting descent. -/
def ptr (d : Descent) : Bool → Nat := fun e => if e then d.larger_ptr else d.smaller_ptr

/-- The bytes shared with the bounds. -/
def common (d : Descent) : Bool → Nat := fun e => if e then d.common_larger else d.common_smaller

end Descent

/-- The nodes an inserting descent has yet to pass are as they were. -/
structure Mirrors (st : BtState) (curr low : Nat) (d : Descent) : Prop where
  same : ∀ q e, low < q → (q : Int) ≤ d.match_index →
    link d.bt (RingTree.slot (2 ^ st.bt_log) q e) = link st.bt (RingTree.slot (2 ^ st.bt_log) q e)
  opened : ∀ e, Open (2 ^ st.bt_log) curr d.match_index (d.ptr e)

section Step

variable {st : BtState} {data : Bytes} {curr cap low h mi ml : Nat} {b : Bool → Option Nat}
  {c : Bool → Nat} {d : Descent}

theorem Seek.within (s : Seek st data curr cap low h mi b c) (hlow : low < mi) :
    Within (Smaller data) b mi := (s.tree.cases_live hlow).2.1

theorem Seek.lt (s : Seek st data curr cap low h mi b c) : mi < curr := by exact_mod_cast s.older

/-- The descent goes on below a node that differs from `curr`. -/
theorem Seek.next (s : Seek st data curr cap low h mi b c) (hlow : low < mi)
    (hagree : Agrees data mi curr cap ml) (hml : ml < cap) (hcap : curr + cap ≤ data.length) :
    Seek st data curr cap low h
      (link st.bt (RingTree.slot (2 ^ st.bt_log) mi (!side_of data curr mi ml)))
      (Function.update b (side_of data curr mi ml) (some mi))
      (Function.update c (side_of data curr mi ml) ml) := by
  obtain ⟨_, _, older, child⟩ := s.tree.cases_live hlow
  have hchild := child (!side_of data curr mi ml)
  rw [Bool.not_not] at hchild
  have hnext := older (!side_of data curr mi ml)
  have hlt := s.lt
  exact ⟨hchild, s.shares.step hagree hml hlt hcap, by omega⟩

/-- What going below a node does to an inserting descent. -/
theorem descend_eq (st : BtState) (data : Bytes) (curr mi ml : Nat) (d : Descent) :
    (descend st data curr mi ml d).bt = d.bt.set (d.ptr (side_of data curr mi ml)) d.match_index ∧
    (descend st data curr mi ml d).ptr = Function.update d.ptr (side_of data curr mi ml)
      (RingTree.slot (2 ^ st.bt_log) mi (!side_of data curr mi ml)) ∧
    (descend st data curr mi ml d).common = Function.update d.common (side_of data curr mi ml) ml ∧
    (descend st data curr mi ml d).match_index = link (descend st data curr mi ml d).bt
      (RingTree.slot (2 ^ st.bt_log) mi (!side_of data curr mi ml)) ∧
    (descend st data curr mi ml d).out = d.out ∧
    (descend st data curr mi ml d).best_len = d.best_len := by
  unfold descend side_of
  dsimp only
  split_ifs with hlt
  · rw [decide_eq_true hlt]
    refine ⟨rfl, ?_, ?_, rfl, rfl, rfl⟩
    · funext e
      cases e
      · rfl
      · rfl
    · funext e
      cases e
      · rfl
      · rfl
  · rw [decide_eq_false hlt]
    refine ⟨rfl, ?_, ?_, rfl, rfl, rfl⟩
    · funext e
      cases e
      · rfl
      · rfl
    · funext e
      cases e
      · rfl
      · rfl

/-- Going below a live node, an inserting descent reads the link that a search reads. -/
theorem Mirrors.descend (m : Mirrors st curr low d) (hd : d.match_index = mi) (hlow : low < mi)
    (hmi : mi < curr) (hring : curr ≤ low + 2 ^ st.bt_log)
    (hold : ∀ e, link st.bt (RingTree.slot (2 ^ st.bt_log) mi e) < mi) :
    (descend st data curr mi ml d).match_index =
      link st.bt (RingTree.slot (2 ^ st.bt_log) mi (!side_of data curr mi ml)) ∧
    Mirrors st curr low (descend st data curr mi ml d) := by
  obtain ⟨hbt, hptr, _, hnext, _, _⟩ := descend_eq st data curr mi ml d
  have hopen : ∀ e, Open (2 ^ st.bt_log) curr mi (d.ptr e) := by
    rw [← hd]
    exact m.opened
  have hread : ∀ q e, low < q → (q : Int) ≤ mi →
      link (BtState.descend st data curr mi ml d).bt (RingTree.slot (2 ^ st.bt_log) q e) =
        link st.bt (RingTree.slot (2 ^ st.bt_log) q e) := by
    intro q e hq hle
    rw [hbt, RingTree.link_set_ne ((hopen _).ne hring e hq hle),
      m.same q e hq (by rw [hd]; exact hle)]
  have hindex : (BtState.descend st data curr mi ml d).match_index =
      link st.bt (RingTree.slot (2 ^ st.bt_log) mi (!side_of data curr mi ml)) := by
    rw [hnext, hread mi _ hlow (le_refl _)]
  have hbelow := hold (!side_of data curr mi ml)
  refine ⟨hindex, ?_, ?_⟩
  · intro q e hq hle
    rw [hindex] at hle
    exact hread q e hq (by omega)
  · rw [hindex, hptr]
    exact Open.next hopen (le_of_lt hmi) hbelow _

/-- A descent that goes on below a node splits the tree as it does from there. -/
theorem descend_split (hd : d.match_index = mi) (hlow : low < mi) {F : List Int}
    (hside : Side (Smaller data) (side_of data curr mi ml) curr mi)
    (hrest : Split (2 ^ st.bt_log) (Smaller data) low curr (descend st data curr mi ml d).bt
      (descend st data curr mi ml d).match_index (descend st data curr mi ml d).ptr F) :
    Split (2 ^ st.bt_log) (Smaller data) low curr d.bt d.match_index d.ptr F := by
  obtain ⟨hbt, hptr, _, hnext, _, _⟩ := descend_eq st data curr mi ml d
  rw [hnext, hptr, hbt, hd] at hrest
  rw [hd]
  exact Split.go _ hlow hside hrest

end Step

/-! ## The descents -/

/-- The matches found: lengths and positions, each longer than the one before it. -/
structure Found (data : Bytes) (curr stop window_low : Nat) (ms : List (Nat × Nat)) : Prop where
  inside : ∀ m ∈ ms, window_low < m.2 ∧ m.2 < curr ∧ curr + m.1 ≤ stop
  equal : ∀ m ∈ ms, ∀ j, j < m.1 → byte_at data (m.2 + j) = byte_at data (curr + j)
  increasing : ms.Pairwise fun a b => a.1 < b.1
  positive : ∀ m ∈ ms, 0 < m.1

/-- The best match found, or zeros. -/
def best_of (ms : List (Nat × Nat)) : Nat × Nat := ms.getLastD (0, 0)

/-- A match as the search reports it: its length and distance, both as `u32`. -/
def report (curr : Nat) (m : Nat × Nat) : Nat × Nat := (m.1 % 2 ^ 32, (curr - m.2) % 2 ^ 32)

section Found

variable {data : Bytes} {curr stop window_low : Nat} {ms : List (Nat × Nat)}

theorem best_of_append (ms : List (Nat × Nat)) (m : Nat × Nat) : best_of (ms ++ [m]) = m := by
  unfold best_of
  rw [List.getLastD_concat]

theorem Found.le_best (h : Found data curr stop window_low ms) : ∀ m ∈ ms,
    m.1 ≤ (best_of ms).1 := by
  rcases List.eq_nil_or_concat ms with rfl | ⟨init, last, rfl⟩
  · intro m hm
    exact absurd hm List.not_mem_nil
  · rw [List.concat_eq_append, best_of_append]
    intro m hm
    have hinc := h.increasing
    rw [List.concat_eq_append, List.pairwise_append] at hinc
    rcases List.mem_append.mp hm with hm | hm
    · exact le_of_lt (hinc.2.2 m hm last List.mem_cons_self)
    · rw [List.mem_singleton.mp hm]

theorem Found.push (h : Found data curr stop window_low ms) {mi ml cap : Nat}
    (hmi : window_low < mi) (hlt : mi < curr) (hcap : curr + cap = stop)
    (hagree : Agrees data mi curr cap ml) (hbest : (best_of ms).1 < ml) :
    Found data curr stop window_low (ms ++ [(ml, mi)]) := by
  have hle := hagree.le
  refine ⟨?_, ?_, ?_, ?_⟩
  · intro m hm
    rcases List.mem_append.mp hm with hm | hm
    · exact h.inside m hm
    · rw [List.mem_singleton.mp hm]
      exact ⟨hmi, hlt, by show curr + ml ≤ stop; omega⟩
  · intro m hm
    rcases List.mem_append.mp hm with hm | hm
    · exact h.equal m hm
    · rw [List.mem_singleton.mp hm]
      exact hagree.equal
  · refine List.pairwise_append.mpr ⟨h.increasing, List.pairwise_singleton _ _, ?_⟩
    intro m hm m' hm'
    rw [List.mem_singleton.mp hm']
    exact lt_of_le_of_lt (h.le_best m hm) hbest
  · intro m hm
    rcases List.mem_append.mp hm with hm | hm
    · exact h.positive m hm
    · rw [List.mem_singleton.mp hm]
      exact lt_of_le_of_lt (Nat.zero_le _) hbest

/-- The matches with `m`, if it is longer than all of them. -/
def better (ms : List (Nat × Nat)) (m : Nat × Nat) : List (Nat × Nat) :=
  if (best_of ms).1 < m.1 then ms ++ [m] else ms

theorem best_of_better (ms : List (Nat × Nat)) (m : Nat × Nat) :
    best_of (better ms m) = if (best_of ms).1 < m.1 then m else best_of ms := by
  unfold better
  split_ifs
  · exact best_of_append ms m
  · rfl

theorem Found.better (h : Found data curr stop window_low ms) {mi ml cap : Nat}
    (hmi : window_low < mi) (hlt : mi < curr) (hcap : curr + cap = stop)
    (hagree : Agrees data mi curr cap ml) :
    Found data curr stop window_low (better ms (ml, mi)) := by
  unfold BtState.better
  split_ifs with hbest
  · exact h.push hmi hlt hcap hagree hbest
  · exact h

end Found

/-- A descent with the match of length `ml` at `mi` collected, if it is the longest so far. -/
def Descent.record (d : Descent) (curr mi ml : Nat) : Descent :=
  if d.best_len < ml then
    { d with best_len := ml, out := d.out ++ [(ml % 2 ^ 32, (curr - mi) % 2 ^ 32)] }
  else d

section Record

variable {d : Descent} {ms : List (Nat × Nat)}

/-- Collecting a match leaves the descent where it is. -/
theorem record_same (d : Descent) (curr mi ml : Nat) :
    (d.record curr mi ml).bt = d.bt ∧ (d.record curr mi ml).match_index = d.match_index ∧
    (d.record curr mi ml).ptr = d.ptr ∧ (d.record curr mi ml).common = d.common := by
  unfold Descent.record
  split_ifs <;> exact ⟨rfl, rfl, rfl, rfl⟩

theorem record_tracks (curr mi ml : Nat) (hout : d.out = ms.map (report curr))
    (hbest : d.best_len = (best_of ms).1) :
    (d.record curr mi ml).out = (better ms (ml, mi)).map (report curr) ∧
    (d.record curr mi ml).best_len = (best_of (better ms (ml, mi))).1 := by
  rw [best_of_better]
  unfold Descent.record better
  rw [hbest]
  split_ifs
  · refine ⟨?_, rfl⟩
    rw [List.map_append, ← hout]
    rfl
  · exact ⟨hout, hbest⟩

end Record

section Descents

variable {st : BtState} {data : Bytes} {curr stop cap low window_low h nb mi : Nat}
  {b : Bool → Option Nat} {d : Descent}

/-- The length a search finds at `mi`. -/
def search_len (data : Bytes) (curr stop mi : Nat) (c : Bool → Nat) : Nat :=
  let from_ := min (c false) (c true)
  from_ + common_len data (mi + from_) (curr + from_) stop

theorem descend_all_live (hd : d.match_index = mi) (hmi : window_low < mi) :
    descend_all st data curr stop window_low (nb + 1) d =
      if curr + search_len data curr stop mi d.common = stop then
        d.record curr mi (search_len data curr stop mi d.common)
      else descend_all st data curr stop window_low nb
        (descend st data curr mi (search_len data curr stop mi d.common)
          (d.record curr mi (search_len data curr stop mi d.common))) := by
  have hlive : 0 ≤ d.match_index ∧ window_low < d.match_index.toNat := by
    rw [hd, Int.toNat_natCast]
    exact ⟨Int.natCast_nonneg mi, hmi⟩
  have hnat : d.match_index.toNat = mi := by rw [hd, Int.toNat_natCast]
  rw [descend_all, if_pos hlive, hnat]
  rfl

theorem descend_all_dead (hd : ¬ (0 ≤ d.match_index ∧ window_low < d.match_index.toNat)) :
    descend_all st data curr stop window_low (nb + 1) d = d := by
  rw [descend_all, if_neg hd]

theorem find_longest_from_live (hmi : window_low < mi) (c : Bool → Nat) (ms : List (Nat × Nat)) :
    find_longest_from st data curr stop window_low (nb + 1) mi (c false) (c true) (best_of ms) =
      let ml := search_len data curr stop mi c
      let e := side_of data curr mi ml
      if curr + ml = stop then best_of (better ms (ml, mi))
      else find_longest_from st data curr stop window_low nb
        (link st.bt (RingTree.slot (2 ^ st.bt_log) mi (!e))) (Function.update c e ml false)
        (Function.update c e ml true) (best_of (better ms (ml, mi))) := by
  rw [find_longest_from, if_pos ⟨Int.natCast_nonneg mi, hmi⟩, Int.toNat_natCast]
  unfold search_len
  dsimp only
  generalize min (c false) (c true) + common_len data (mi + min (c false) (c true))
    (curr + min (c false) (c true)) stop = ml
  rw [best_of_better]
  generalize (if (best_of ms).1 < ml then (ml, mi) else best_of ms) = best
  by_cases hend : curr + ml = stop
  · rw [if_pos hend, if_pos hend]
  · rw [if_neg hend, if_neg hend]
    unfold side_of
    split_ifs with hlt
    · rw [decide_eq_true hlt]
      rfl
    · rw [decide_eq_false hlt]
      rfl

theorem find_longest_from_dead {v : Int} (hv : ¬ (0 ≤ v ∧ window_low < v.toNat)) (i j : Nat)
    (best : Nat × Nat) :
    find_longest_from st data curr stop window_low nb v i j best = best := by
  cases nb with
  | zero => rfl
  | succ nb => rw [find_longest_from, if_neg hv]

/-- The two searches pass the same nodes: the one that inserts collects the matches of which the
other keeps the best, and splits the tree on its way. -/
theorem search_descents (hring : curr ≤ low + 2 ^ st.bt_log) (hlow : low ≤ window_low)
    (hcap : curr + cap = stop) (hstop : stop ≤ data.length) (nb : Nat) {ms : List (Nat × Nat)}
    (s : Seek st data curr cap low h d.match_index b d.common) (m : Mirrors st curr low d)
    (f : Found data curr stop window_low ms) (hout : d.out = ms.map (report curr))
    (hbest : d.best_len = (best_of ms).1) :
    ∃ ms', Found data curr stop window_low ms' ∧
      (descend_all st data curr stop window_low nb d).out = ms'.map (report curr) ∧
      find_longest_from st data curr stop window_low nb d.match_index (d.common false)
        (d.common true)
        (best_of ms) = best_of ms' ∧
      Split (2 ^ st.bt_log) (Smaller data) low curr d.bt d.match_index d.ptr
        (close (descend_all st data curr stop window_low nb d)) := by
  induction nb generalizing d b ms with
  | zero => exact ⟨ms, f, hout, rfl, Split.close⟩
  | succ nb ih =>
    by_cases hlive : 0 ≤ d.match_index ∧ window_low < d.match_index.toNat
    · obtain ⟨mi, hd⟩ := Int.eq_ofNat_of_zero_le hlive.1
      have hwin : window_low < mi := by
        have h2 := hlive.2
        rw [hd] at h2
        exact h2
      have hlive' : low < mi := lt_of_le_of_lt hlow hwin
      rw [hd] at s
      have hagree : Agrees data mi curr cap (search_len data curr stop mi d.common) :=
        s.shares.search_len (s.within hlive') s.lt (by omega) (by omega) hstop
      have f' := f.better hwin s.lt hcap hagree
      rw [descend_all_live hd hwin, hd, find_longest_from_live hwin]
      dsimp only
      generalize search_len data curr stop mi d.common = ml at hagree f' ⊢
      obtain ⟨hout', hbest'⟩ := record_tracks curr mi ml hout hbest
      obtain ⟨hbt, hindex, hptr, hcommon⟩ := record_same d curr mi ml
      by_cases hend : curr + ml = stop
      · rw [if_pos hend, if_pos hend]
        refine ⟨_, f', hout', rfl, ?_⟩
        rw [← hbt, ← hptr]
        exact Split.close
      · rw [if_neg hend, if_neg hend]
        have hml : ml < cap := lt_of_le_of_ne hagree.le (by omega)
        have m' : Mirrors st curr low (d.record curr mi ml) := by
          refine ⟨?_, ?_⟩
          · rw [hindex, hbt]
            exact m.same
          · rw [hindex, hptr]
            exact m.opened
        have hnode := (s.tree.cases_live hlive').2.2.1
        obtain ⟨hread, m''⟩ := @Mirrors.descend st data curr low mi ml _ m' (hindex.trans hd) hlive'
          s.lt hring
          hnode
        obtain ⟨_, _, hcommon', _, hout'', hbest''⟩ :=
          descend_eq st data curr mi ml (d.record curr mi ml)
        have s' := s.next hlive' hagree hml (by omega)
        rw [← hread] at s'
        rw [← hcommon, ← hcommon'] at s'
        obtain ⟨ms', f'', hall, hlongest, hsplit⟩ := ih s' m'' f' (hout''.trans hout')
          (hbest''.trans hbest')
        refine ⟨ms', f'', hall, ?_, ?_⟩
        · rw [← hlongest, hread, hcommon', hcommon]
        · rw [← hbt, ← hptr]
          have hsplit' := descend_split (hindex.trans hd) hlive' (hagree.side hml s.lt (by omega))
            hsplit
          rw [hindex, hd] at hsplit'
          exact hsplit'
    · rw [descend_all_dead hlive, find_longest_from_dead hlive]
      exact ⟨ms, f, hout, rfl, Split.close⟩

/-- The descent that only inserts splits the tree on its way too. -/
theorem insert_descent (hring : curr ≤ low + 2 ^ st.bt_log) (hlow : low ≤ window_low)
    (hstop : curr + cap ≤ data.length) (nb : Nat)
    (s : Seek st data curr cap low h d.match_index b d.common) (m : Mirrors st curr low d) :
    Split (2 ^ st.bt_log) (Smaller data) low curr d.bt d.match_index d.ptr
      (close (descend_bt1 st data curr stop (curr + cap) window_low nb d)) := by
  induction nb generalizing d b with
  | zero => exact Split.close
  | succ nb ih =>
    unfold descend_bt1
    by_cases hlive : 0 ≤ d.match_index ∧ window_low < d.match_index.toNat
    · obtain ⟨mi, hd⟩ := Int.eq_ofNat_of_zero_le hlive.1
      have hnat : d.match_index.toNat = mi := by rw [hd]; rfl
      have hlive' : low < mi := by
        have h2 := hlive.2
        omega
      rw [hd] at s
      have hagree := s.shares.insert_len (s.within hlive')
      have hfrom : min d.common_smaller d.common_larger = min (d.common false) (d.common true) :=
        rfl
      rw [if_pos hlive, hnat, hfrom, Nat.add_sub_cancel_left]
      dsimp only
      generalize common_tail data mi curr cap (min (d.common false) (d.common true)) =
        ml at hagree ⊢
      by_cases hend : curr + ml = stop ∨ curr + ml = curr + cap
      · rw [if_pos hend]
        exact Split.close
      · rw [if_neg hend]
        have hml : ml < cap := lt_of_le_of_ne hagree.le (by omega)
        obtain ⟨hread, m'⟩ := @Mirrors.descend st data curr low mi ml _ m hd hlive' s.lt hring
          (s.tree.cases_live hlive').2.2.1
        obtain ⟨_, _, hcommon', _, _, _⟩ := descend_eq st data curr mi ml d
        have s' := s.next hlive' hagree hml hstop
        rw [← hread, ← hcommon'] at s'
        exact descend_split hd hlive' (hagree.side hml s.lt hstop) (ih s' m')
    · rw [if_neg hlive]
      exact Split.close

end Descents

/-! ## The states of the finder -/

/-- What every run keeps: each bucket leads to a search tree of the live positions indexed in it,
all below the next position. -/
structure Sound (data : Bytes) (next : Nat) (st : BtState) : Prop where
  ring : 0 < st.bt_log ∧ st.bt_log ≤ MAX_BT_LOG
  length : 2 * 2 ^ st.bt_log ≤ st.bt.length
  older : ∀ h, slot st.hash h < next
  tree : ∀ h, Tree (2 ^ st.bt_log) (Smaller data) (Indexed data st.hash_log h)
    (next - 2 ^ st.bt_log) st.bt (fun _ => none) (slot st.hash h)

section Sound

variable {st : BtState} {data : Bytes} {next curr : Nat}

theorem Sound.ring_size (h : Sound data next st) : 1 < 2 ^ st.bt_log ∧ 2 ^ st.bt_log ≤ 2 ^ 23 :=
  ⟨Nat.one_lt_two_pow (by have := h.ring.1; omega), Nat.pow_le_pow_right (by decide) h.ring.2⟩

/-- Where a descent for `curr` starts. -/
theorem Sound.start (h : Sound data next st) (hcurr : next ≤ curr) (cap : Nat) :
    Seek st data curr cap (curr - 2 ^ st.bt_log) (st.bucket data curr)
      (st.start_descent data curr).match_index (fun _ => none) (st.start_descent data curr).common ∧
    Mirrors st curr (curr - 2 ^ st.bt_log) (st.start_descent data curr) := by
  have holder : slot st.hash (st.bucket data curr) < curr :=
    lt_of_lt_of_le (h.older _) (by exact_mod_cast hcurr)
  have hcommon : (st.start_descent data curr).common = fun _ => 0 := by
    funext e
    cases e <;> rfl
  refine ⟨⟨(h.tree _).mono (by omega), ?_, holder⟩, fun _ _ _ _ => rfl, ?_⟩
  · rw [hcommon]
    exact Shares.start data curr cap
  · intro e
    refine ⟨curr, e, holder, le_refl _, ?_⟩
    cases e <;> rfl

/-- What a descent for `curr` leaves at the root, whose slots are those of `curr`. -/
theorem Sound.halves (h : Sound data next st) (hcurr : next ≤ curr) {F : List Int}
    (hsplit : Split (2 ^ st.bt_log) (Smaller data) (curr - 2 ^ st.bt_log) curr
      (st.start_descent data curr).bt (st.start_descent data curr).match_index
      (st.start_descent data curr).ptr F) :
    Halves (2 ^ st.bt_log) (Smaller data) (Indexed data st.hash_log (st.bucket data curr))
      (curr - 2 ^ st.bt_log) curr st.bt (fun _ => none) (slot st.hash (st.bucket data curr))
      (RingTree.slot (2 ^ st.bt_log) curr) F := by
  have hR := h.ring_size.1
  obtain ⟨s, m⟩ := h.start hcurr 0
  have hptr : (st.start_descent data curr).ptr = RingTree.slot (2 ^ st.bt_log) curr := by
    funext e
    cases e <;> rfl
  have hopen := m.opened
  rw [hptr] at hsplit hopen
  exact hsplit.halves (by omega) (by omega) Smaller.trans (Smaller.irrefl data) h.length s.tree
    s.shares.bounds hopen (RingTree.slot_side (by decide))

/-- The split tree with `curr` at the root is a tree. -/
theorem Sound.insert_root (h : Sound data next st) (hcurr : next ≤ curr)
    (hin : curr + 4 ≤ data.length)
    {F : List Int} (hhalves : Halves (2 ^ st.bt_log) (Smaller data)
      (Indexed data st.hash_log (st.bucket data curr)) (curr - 2 ^ st.bt_log) curr st.bt
        (fun _ => none)
      (slot st.hash (st.bucket data curr)) (RingTree.slot (2 ^ st.bt_log) curr) F) :
    Tree (2 ^ st.bt_log) (Smaller data) (Indexed data st.hash_log (st.bucket data curr))
      (curr + 1 - 2 ^ st.bt_log) F (fun _ => none) (asI32 curr) := by
  obtain ⟨hR, hR23⟩ := h.ring_size
  rcases asI32_cases curr with heq | hdead
  · rw [heq]
    rcases Nat.lt_or_ge (curr + 1 - 2 ^ st.bt_log) curr with hlive | hdead
    · refine RingTree.Tree.node hlive ⟨hin, rfl⟩ (RingTree.within_none curr) ?_ ?_
      · intro e
        exact hhalves.older e curr (lt_of_lt_of_le (h.older _) (by exact_mod_cast hcurr))
      · intro e
        exact (hhalves.tree e).mono (by omega)
    · exact RingTree.Tree.leaf (by omega)
  · exact RingTree.Tree.leaf (by omega)

/-- The tree of another bucket is as it was: none of its nodes is on the way. -/
theorem Sound.insert_other (h : Sound data next st) (hcurr : next ≤ curr) {F : List Int} {k : Nat}
    (hbucket : st.bucket data curr ≠ k) (hhalves : Halves (2 ^ st.bt_log) (Smaller data)
      (Indexed data st.hash_log (st.bucket data curr)) (curr - 2 ^ st.bt_log) curr st.bt
        (fun _ => none)
      (slot st.hash (st.bucket data curr)) (RingTree.slot (2 ^ st.bt_log) curr) F) :
    Tree (2 ^ st.bt_log) (Smaller data) (Indexed data st.hash_log k) (curr + 1 - 2 ^ st.bt_log) F
      (fun _ => none) (slot st.hash k) := by
  have holder := h.older k
  have holder' := h.older (st.bucket data curr)
  have hold := (h.tree k).mono (Nat.sub_le_sub_right hcurr (2 ^ st.bt_log))
  refine (hold.congr Smaller.trans ?_).mono (Nat.sub_le_sub_right (Nat.le_succ curr) _)
  intro q e hq hle hgood _
  have hqc : q < curr := by omega
  apply hhalves.frame
  · intro e'
    exact RingTree.slot_ne hq hqc (by omega) e e'
  · intro q' e' hq' hle' hgood' _
    have hqc' : q' < curr := by omega
    rcases lt_trichotomy q q' with hlt | rfl | hlt
    · exact RingTree.slot_ne hq hlt (by omega) e e'
    · exact absurd (hgood'.2.symm.trans hgood.2) hbucket
    · exact (RingTree.slot_ne hq' hlt (by omega) e' e).symm

/-- A split tree with `curr` at the root is the tree of its bucket, and the others are as they were.
-/
theorem Sound.insert (h : Sound data next st) (hcurr : next ≤ curr) (hin : curr + 4 ≤ data.length)
    {F : List Int} (hsplit : Split (2 ^ st.bt_log) (Smaller data) (curr - 2 ^ st.bt_log) curr
      (st.start_descent data curr).bt (st.start_descent data curr).match_index
      (st.start_descent data curr).ptr F) :
    Sound data (curr + 1)
      { st with hash := st.hash.set (st.bucket data curr) (asI32 curr), bt := F } := by
  have hhalves := h.halves hcurr hsplit
  constructor
  · exact h.ring
  · show 2 * 2 ^ st.bt_log ≤ F.length
    rw [hhalves.length]
    exact h.length
  · intro k
    show slot (st.hash.set _ _) k < _
    rw [slot_set]
    split_ifs
    · exact lt_of_le_of_lt (asI32_le curr) (by exact_mod_cast Nat.lt_succ_self curr)
    · exact lt_of_lt_of_le (h.older k) (by exact_mod_cast Nat.le_succ_of_le hcurr)
  · intro k
    show Tree _ _ _ (curr + 1 - 2 ^ st.bt_log) F _ (slot (st.hash.set _ _) k)
    rw [slot_set]
    split_ifs with hk
    · obtain ⟨rfl, _⟩ := hk
      exact h.insert_root hcurr hin hhalves
    · by_cases hbucket : st.bucket data curr = k
      · -- the table has no slot for the bucket
        rw [slot_of_le (Nat.le_of_not_lt fun hlt => hk ⟨hbucket, by rw [hbucket]; exact hlt⟩)]
        exact RingTree.Tree.leaf (by omega)
      · exact h.insert_other hcurr hbucket hhalves

end Sound

end BtState

end ZstdPure.Encode
