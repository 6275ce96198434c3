import ZstdPure.Proofs.TreeProofs

/-!
# Proofs: runs of the binary-tree finder

The buffer grows, positions are indexed in increasing order, and now and then both slide by whole
turns of the ring. Whatever the run, a search finds real matches only. -/

namespace ZstdPure.Encode

open RingTree (Side Within Tree Split Open link)

namespace BtState

/-! ## Each step keeps the trees -/

section Steps

variable {st : BtState} {data : Bytes} {next : Nat}

theorem read_u32_append {p : Nat} (h : p + 4 ≤ data.length) (more : Bytes) :
    read_u32 (data ++ more) p = read_u32 data p := by
  unfold read_u32
  rw [List.drop_append_of_le_length (by omega),
    List.take_append_of_le_length (by rw [List.length_drop]; omega)]

theorem read_u32_drop {p drop : Nat} (h : drop ≤ p) :
    read_u32 (data.drop drop) (p - drop) = read_u32 data p := by
  unfold read_u32
  rw [List.drop_drop, Nat.add_sub_cancel' h]

theorem Sound.new (hash_log window_log : Nat) (data : Bytes) :
    Sound data 0 (BtState.new hash_log window_log) := by
  obtain ⟨hlo, hhi⟩ := @clamp_range window_log MIN_HASH_LOG MAX_BT_LOG (by decide)
  have hmin : MIN_HASH_LOG = 6 := rfl
  have hempty : ∀ h, slot (BtState.new hash_log window_log).hash h = -1 := fun h => slot_empty _ h
  refine ⟨⟨?_, hhi⟩, ?_, ?_, ?_⟩
  · show 0 < clamp window_log MIN_HASH_LOG MAX_BT_LOG
    omega
  · show 2 * 2 ^ clamp window_log MIN_HASH_LOG MAX_BT_LOG ≤ (empty_table _).length
    rw [empty_table, List.length_replicate, pow_succ']
  · intro h
    rw [hempty]
    decide
  · intro h
    rw [hempty]
    exact RingTree.Tree.leaf (by omega)

theorem Sound.append (h : Sound data next st) (more : Bytes) : Sound (data ++ more) next st := by
  refine ⟨h.ring, h.length, h.older, ?_⟩
  intro k
  refine (h.tree k).imp (fun p q hpq => hpq.append more) ?_
  rintro p ⟨hin, hhash⟩
  refine ⟨by rw [List.length_append]; omega, ?_⟩
  rw [read_u32_append hin]
  exact hhash

/-- What a slide makes of a position: it follows, or it is dead. -/
theorem reduce_entry_cases {drop ring : Nat} (hring : ring ≤ 2 ^ 23) {v : Int} (hv : v < next) :
    ((drop : Int) ≤ v ∧ reduce_index_entry asI32 drop v = v - drop) ∨
      reduce_index_entry asI32 drop v ≤ (next - ring - drop : Nat) := by
  unfold reduce_index_entry
  split_ifs with hneg hle
  · exact Or.inr (by omega)
  · rcases asI32_cases (v.toNat - drop) with heq | hlow
    · left
      rw [heq]
      omega
    · right
      omega
  · exact Or.inr (by omega)

theorem reduce_entry_lt {drop : Nat} {v : Int} (hv : v < next) :
    reduce_index_entry asI32 drop v < (next - drop : Nat) := by
  unfold reduce_index_entry
  split_ifs with hneg hle
  · omega
  · have hle := asI32_le (v.toNat - drop)
    omega
  · omega

theorem Sound.slide (h : Sound data next st) {drop : Nat} (hdrop : 2 ^ st.bt_log ∣ drop) :
    Sound (data.drop drop) (next - drop) (st.reduce_index asI32 drop) := by
  obtain ⟨_, hR⟩ := h.ring_size
  refine ⟨h.ring, ?_, ?_, ?_⟩
  · show 2 * 2 ^ st.bt_log ≤ (reduce_index_table asI32 drop st.bt).length
    rw [reduce_index_table, List.length_map]
    exact h.length
  · intro k
    show slot (reduce_index_table asI32 drop st.hash) k < _
    rw [slot_reduce]
    exact reduce_entry_lt (h.older k)
  · intro k
    show Tree _ _ _ (next - drop - 2 ^ st.bt_log) (reduce_index_table asI32 drop st.bt) _
      (slot (reduce_index_table asI32 drop st.hash) k)
    rw [slot_reduce, Nat.sub_right_comm]
    refine (h.tree k).shift hdrop (fun p q hp hq => Smaller.drop hp hq) ?_
      (fun v hv => reduce_entry_cases hR hv) (fun j => slot_reduce asI32 drop st.bt j) (h.older k)
      (fun d s hs => by cases hs)
    rintro p hp ⟨hin, hhash⟩
    refine ⟨by rw [List.length_drop]; omega, ?_⟩
    rw [read_u32_drop hp]
    exact hhash

/-- The states before and after an indexed position. -/
theorem Sound.insert_bt1 (h : Sound data next st) {curr stop : Nat} (hcurr : next ≤ curr)
    (hin : curr + 4 ≤ stop) (hstop : stop ≤ data.length) (max_offset nb : Nat) :
    Sound data (curr + 1) (st.insert_bt1 asI32 data stop max_offset nb curr) := by
  obtain ⟨hR, _⟩ := h.ring_size
  have hcap :
      curr + (min (curr + BT_INSERT_CAP) stop - curr) = min (curr + BT_INSERT_CAP) stop := by
    omega
  obtain ⟨s, m⟩ := h.start hcurr (min (curr + BT_INSERT_CAP) stop - curr)
  have hlow : curr - 2 ^ st.bt_log ≤ st.window_low curr max_offset :=
    Nat.sub_le_sub_left (min_le_right _ _) _
  have hsplit := @insert_descent _ _ _ stop _ _ _ _ _ _ (by omega) hlow (by omega) nb s m
  rw [hcap] at hsplit
  exact h.insert hcurr (by omega) hsplit

/-- A search that indexes its position, beside the one that does not. -/
theorem Sound.search (h : Sound data next st) {curr stop : Nat} (hcurr : next ≤ curr)
    (hin : curr + 4 ≤ stop) (hstop : stop ≤ data.length) (max_offset nb : Nat) :
    Sound data (curr + 1) (st.insert_and_get_all_matches asI32 data stop max_offset nb curr).2 ∧
    ∃ ms, Found data curr stop (st.window_low curr max_offset) ms ∧
      (st.insert_and_get_all_matches asI32 data stop max_offset nb curr).1 = ms.map (report curr) ∧
      st.find_longest data curr stop max_offset nb = best_of ms := by
  obtain ⟨hR, _⟩ := h.ring_size
  obtain ⟨s, m⟩ := h.start hcurr (stop - curr)
  have hlow : curr - 2 ^ st.bt_log ≤ st.window_low curr max_offset :=
    Nat.sub_le_sub_left (min_le_right _ _) _
  have f : Found data curr stop (st.window_low curr max_offset) [] :=
    ⟨fun m hm => absurd hm List.not_mem_nil, fun m hm => absurd hm List.not_mem_nil,
      List.Pairwise.nil, fun m hm => absurd hm List.not_mem_nil⟩
  obtain ⟨ms, f', hall, hlongest, hsplit⟩ :=
    search_descents (by omega) hlow (by omega) hstop nb s m f rfl rfl
  exact ⟨h.insert hcurr (by omega) hsplit, ms, f', hall, hlongest⟩

/-- Priming a fresh tree indexes the positions of the dictionary in order. -/
theorem Sound.prime (h : Sound data 0 st) {dict_len : Nat} (hdict : dict_len ≤ data.length)
    (max_offset nb : Nat) :
    Sound data (dict_len + 1 - MIN_MATCH) (st.prime asI32 data dict_len max_offset nb) := by
  have hupto : ∀ k, k ≤ dict_len + 1 - MIN_MATCH → Sound data k ((List.range k).foldl
      (BtState.insert_bt1 asI32 data dict_len max_offset nb) st) := by
    intro k hk
    have hmin : MIN_MATCH = 4 := rfl
    induction k with
    | zero => exact h
    | succ k ih =>
      rw [List.range_succ, List.foldl_append]
      exact (ih (by omega)).insert_bt1 (le_refl k) (by omega) hdict max_offset nb
  exact hupto _ (le_refl _)

end Steps

/-! ## Runs -/

/-- The operations so far: the buffer, the least position not below any indexed one, and the finder.
-/
inductive Run : Bytes → Nat → BtState → Prop
  | new (hash_log window_log : Nat) (data : Bytes) : Run data 0 (BtState.new hash_log window_log)
  | grow {data : Bytes} {next : Nat} {st : BtState} (h : Run data next st) (more : Bytes) :
    Run (data ++ more) next st
  | insert_bt1 {data : Bytes} {next : Nat} {st : BtState} (h : Run data next st) {curr stop : Nat}
    (hcurr : next ≤ curr) (hin : curr + 4 ≤ stop) (hstop : stop ≤ data.length)
    (max_offset nb_compares : Nat) :
    Run data (curr + 1) (st.insert_bt1 asI32 data stop max_offset nb_compares curr)
  | insert_and_get_all_matches {data : Bytes} {next : Nat} {st : BtState} (h : Run data next st)
    {curr stop : Nat} (hcurr : next ≤ curr) (hin : curr + 4 ≤ stop) (hstop : stop ≤ data.length)
    (max_offset nb_compares : Nat) :
    Run data (curr + 1)
      (st.insert_and_get_all_matches asI32 data stop max_offset nb_compares curr).2
  | prime {data : Bytes} {st : BtState} (h : Run data 0 st) {dict_len : Nat}
    (hdict : dict_len ≤ data.length) (max_offset nb_compares : Nat) :
    Run data (dict_len + 1 - MIN_MATCH) (st.prime asI32 data dict_len max_offset nb_compares)
  | slide {data : Bytes} {next : Nat} {st : BtState} (h : Run data next st) {drop : Nat}
    (hdrop : st.slide_period ∣ drop) (hlen : drop ≤ data.length) :
    Run (data.drop drop) (next - drop) (st.reduce_index asI32 drop)

theorem Run.sound {data : Bytes} {next : Nat} {st : BtState} (h : Run data next st) :
    Sound data next st := by
  induction h with
  | new hash_log window_log data => exact Sound.new hash_log window_log data
  | grow _ more ih => exact ih.append more
  | insert_bt1 _ hcurr hin hstop max_offset nb ih =>
    exact ih.insert_bt1 hcurr hin hstop max_offset nb
  | insert_and_get_all_matches _ hcurr hin hstop max_offset nb ih =>
    exact (ih.search hcurr hin hstop max_offset nb).1
  | prime _ hdict max_offset nb ih => exact ih.prime hdict max_offset nb
  | slide _ hdrop _ ih => exact ih.slide hdrop

/-! ## The matches -/

/-- A match found at `m.2` is real, and its distance is within the window and the ring. -/
theorem Found.real {st : BtState} {data : Bytes} {curr stop max_offset : Nat}
    {ms : List (Nat × Nat)}
    (f : Found data curr stop (st.window_low curr max_offset) ms) {m : Nat × Nat} (hm : m ∈ ms) :
    m.2 < curr ∧ curr + m.1 ≤ stop ∧ curr - m.2 ≤ min max_offset st.slide_period ∧
    RealMatch data curr m.1 (curr - m.2) := by
  obtain ⟨hwin, hlt, hin⟩ := f.inside m hm
  have hequal := f.equal m hm
  unfold window_low at hwin
  refine ⟨hlt, hin, ?_, by omega, by omega, ?_⟩
  · unfold slide_period
    omega
  · intro k hk
    rw [Nat.sub_sub_self (le_of_lt hlt)]
    exact (hequal k hk).symm

/-- After any run, what either search reports is real, within its end, the window and the ring; and
where the end is less than `2 ^ 32` bytes away, the lengths collected go up to the longest one. The
number of comparisons bounds each search. -/
theorem searches_sound {data : Bytes} {next : Nat} {st : BtState} (h : Run data next st)
    (curr stop max_offset nb_compares : Nat) (hcurr : next ≤ curr) (hin : curr + 4 ≤ stop)
    (hstop : stop ≤ data.length) :
    let best := st.find_longest data curr stop max_offset nb_compares
    let all := (st.insert_and_get_all_matches asI32 data stop max_offset nb_compares curr).1
    (best = (0, 0) ∨ 0 < best.1 ∧ best.2 < curr ∧ curr + best.1 ≤ stop ∧
      curr - best.2 ≤ min max_offset st.slide_period ∧
      RealMatch data curr best.1 (curr - best.2)) ∧
    (∀ m ∈ all, curr + m.1 ≤ stop ∧ 1 ≤ m.2 ∧ m.2 ≤ min max_offset st.slide_period ∧
      RealMatch data curr m.1 m.2) ∧
    (stop < curr + 2 ^ 32 → all.Pairwise (fun a b => a.1 < b.1) ∧
      all.getLast? = if best.1 = 0 then none else some (best.1, curr - best.2)) := by
  intro best all
  obtain ⟨_, ms, f, hall, hbest⟩ := h.sound.search hcurr hin hstop max_offset nb_compares
  have hall : all = ms.map (report curr) := hall
  have hbest : best = best_of ms := hbest
  have hring : st.slide_period ≤ 2 ^ 23 := h.sound.ring_size.2
  have hreport : ∀ m ∈ ms, (report curr m).1 ≤ m.1 ∧ (report curr m).2 = curr - m.2 := by
    intro m hm
    obtain ⟨_, _, hoff, _⟩ := f.real hm
    exact ⟨Nat.mod_le _ _, Nat.mod_eq_of_lt (by omega)⟩
  rw [hall, hbest]
  refine ⟨?_, ?_, ?_⟩
  · rcases List.eq_nil_or_concat ms with rfl | ⟨init, last, rfl⟩
    · exact Or.inl rfl
    · right
      rw [List.concat_eq_append, best_of_append]
      have hmem : last ∈ init.concat last := by
        rw [List.concat_eq_append]
        exact List.mem_append_right init List.mem_cons_self
      exact ⟨f.positive last hmem, f.real hmem⟩
  · intro r hr
    obtain ⟨m, hm, rfl⟩ := List.mem_map.mp hr
    obtain ⟨hlt, hend, hoff, hreal⟩ := f.real hm
    obtain ⟨hlen, hdist⟩ := hreport m hm
    rw [hdist]
    exact ⟨by omega, by omega, hoff, hreal.shorter hlen⟩
  · intro hnear
    have hexact : ∀ m ∈ ms, report curr m = (m.1, curr - m.2) := by
      intro m hm
      have hend := (f.inside m hm).2.2
      exact Prod.ext (Nat.mod_eq_of_lt (by omega)) (hreport m hm).2
    constructor
    · rw [List.pairwise_map]
      refine f.increasing.imp_of_mem ?_
      intro a b ha hb hab
      rw [hexact a ha, hexact b hb]
      exact hab
    · rw [List.getLast?_map]
      rcases List.eq_nil_or_concat ms with rfl | ⟨init, last, rfl⟩
      · rfl
      · have hmem : last ∈ init.concat last := by
          rw [List.concat_eq_append]
          exact List.mem_append_right init List.mem_cons_self
        have hpos := f.positive last hmem
        have hlast := hexact last hmem
        rw [List.concat_eq_append, best_of_append, List.getLast?_append_of_ne_nil _ (by simp),
          if_neg (by omega)]
        show some (report curr last) = _
        rw [hlast]

/-- A token at three places: the tree holds the first two, and one older position, when the history
slides by a ring; both are found at the third, the nearer one as the shorter match. -/
theorem searches_sound_token :
    let data : Bytes := [9, 1, 2, 3, 4, 5, 1, 2, 3, 4, 6, 1, 2, 3, 4, 5, 7]
    let history : Bytes := List.replicate 64 0 ++ data
    let insert (st : BtState) (curr : Nat) : BtState := st.insert_bt1 asI32 history 81 64 4 curr
    let st := (insert (insert (insert (new 6 6) 60) 65) 70).reduce_index asI32 64
    let best := st.find_longest data 11 17 64 4
    let all := (st.insert_and_get_all_matches asI32 data 17 64 4 11).1
    best = (5, 1) ∧ all = [(4, 5), (5, 10)] ∧
    (best = (0, 0) ∨ 0 < best.1 ∧ best.2 < 11 ∧ 11 + best.1 ≤ 17 ∧ 11 - best.2 ≤ min 64 64 ∧
      RealMatch data 11 best.1 (11 - best.2)) ∧
    (∀ m ∈ all, 11 + m.1 ≤ 17 ∧ 1 ≤ m.2 ∧ m.2 ≤ min 64 64 ∧ RealMatch data 11 m.1 m.2) ∧
    all.Pairwise (fun a b => a.1 < b.1) ∧
    all.getLast? = if best.1 = 0 then none else some (best.1, 11 - best.2) := by
  intro data history insert st best all
  have h60 : Run history 61 (insert (new 6 6) 60) :=
    (Run.new 6 6 history).insert_bt1 (by decide) (by decide) (by decide) 64 4
  have h65 : Run history 66 (insert (insert (new 6 6) 60) 65) :=
    h60.insert_bt1 (by decide) (by decide) (by decide) 64 4
  have h70 : Run history 71 (insert (insert (insert (new 6 6) 60) 65) 70) :=
    h65.insert_bt1 (by decide) (by decide) (by decide) 64 4
  have hrun : Run data 7 st :=
    Run.slide h70 (show 2 ^ st.bt_log ∣ 64 by decide) (by decide)
  obtain ⟨h1, h2, h3⟩ := searches_sound hrun 11 17 64 4 (by decide) (by decide) (by decide)
  exact ⟨by decide +kernel, by decide +kernel, h1, h2, h3 (by decide)⟩

/-! ## Ends beyond the range of a length -/

/-- Where the first node agrees up to the end, both searches report its match and no other. -/
theorem searches_first {st : BtState} {data : Bytes} {curr mi len max_offset : Nat}
    (hhead : slot st.hash (st.bucket data curr) = (mi : Nat))
    (hwin : st.window_low curr max_offset < mi) (hlen : 0 < len)
    (hfound : search_len data curr (curr + len) mi (fun _ => 0) = len) (nb : Nat) :
    st.find_longest data curr (curr + len) max_offset (nb + 1) = (len, mi) ∧
    (st.insert_and_get_all_matches asI32 data (curr + len) max_offset (nb + 1) curr).1 =
      [report curr (len, mi)] := by
  have hbetter : better [] (len, mi) = [(len, mi)] := if_pos hlen
  constructor
  · unfold find_longest
    rw [hhead]
    have hlive := @find_longest_from_live st data curr (curr + len) (st.window_low curr max_offset)
      nb
      mi hwin (fun _ => 0) []
    rw [hfound] at hlive
    dsimp only at hlive
    rw [if_pos rfl, hbetter] at hlive
    exact hlive
  · unfold insert_and_get_all_matches
    dsimp only
    have hcommon : (st.start_descent data curr).common = fun _ => 0 := by
      funext e
      cases e <;> rfl
    rw [descend_all_live (show (st.start_descent data curr).match_index = (mi : Nat) from hhead)
      hwin,
      hcommon, hfound, if_pos rfl]
    have hpos : (st.start_descent data curr).best_len < len := hlen
    unfold Descent.record
    rw [if_pos hpos]
    rfl

section Zeros

variable {n : Nat}

theorem byte_at_zeros (n p : Nat) : byte_at (List.replicate n 0) p = 0 := by
  unfold byte_at
  rcases Nat.lt_or_ge p n with h | h
  · rw [List.getD, List.getElem?_replicate_of_lt h]
    rfl
  · rw [List.getD_eq_default _ _ (by rw [List.length_replicate]; exact h)]

theorem read_u32_zeros {p : Nat} (h : p + 4 ≤ n) : read_u32 (List.replicate n 0) p = 0 := by
  unfold read_u32
  rw [List.drop_replicate, List.take_replicate, min_eq_left (by omega)]
  rfl

theorem common_len_zeros {a b stop : Nat} (hab : a ≤ b) (hb : b ≤ stop) (hstop : stop ≤ n) :
    common_len (List.replicate n 0) a b stop = stop - b := by
  obtain ⟨hle, _, hdiffer⟩ := @common_len_agrees (List.replicate n 0) a b stop hab hb
    (by rw [List.length_replicate]; exact hstop)
  by_contra hne
  exact hdiffer (by omega) (by rw [byte_at_zeros, byte_at_zeros])

/-- The tree of a run of zeros with the position 1 indexed. -/
def zeros_tree (n : Nat) : BtState := (new 6 6).insert_bt1 asI32 (List.replicate n 0) n 8 1 1

theorem zeros_tree_head (h : 6 ≤ n) :
    slot (zeros_tree n).hash ((zeros_tree n).bucket (List.replicate n 0) 2) = (1 : Nat) := by
  have hbucket : ∀ p, p + 4 ≤ n → hash4 (read_u32 (List.replicate n 0) p) 6 = 0 := by
    intro p hp
    rw [read_u32_zeros hp]
    rfl
  show slot ((empty_table 6).set (hash4 (read_u32 (List.replicate n 0) 1) 6) (asI32 1))
    (hash4 (read_u32 (List.replicate n 0) 2) 6) = _
  rw [hbucket 1 (by omega), hbucket 2 (by omega)]
  decide

/-- Both searches at 2 find all of the zeros up to their end; the length collected is cut to its low
bits. -/
theorem searches_zeros {len : Nat} (hlen : 4 ≤ len) :
    Run (List.replicate (2 + len) 0) 2 (zeros_tree (2 + len)) ∧
    (zeros_tree (2 + len)).find_longest (List.replicate (2 + len) 0) 2 (2 + len) 8 1 = (len, 1) ∧
    ((zeros_tree (2 + len)).insert_and_get_all_matches asI32 (List.replicate (2 + len) 0) (2 + len)
      8 1
      2).1 = [(len % 2 ^ 32, 1)] := by
  have hwin : (zeros_tree (2 + len)).window_low 2 8 < 1 := by
    show 2 - min 8 (2 ^ 6) < 1
    decide
  have hfound : search_len (List.replicate (2 + len) 0) 2 (2 + len) 1 (fun _ => 0) = len := by
    show min 0 0 + common_len (List.replicate (2 + len) 0) (1 + min 0 0) (2 + min 0 0) (2 + len) =
      len
    rw [common_len_zeros (by decide) (by omega) (le_refl _)]
    omega
  refine ⟨?_, searches_first (zeros_tree_head (by omega)) hwin (by omega) hfound 0⟩
  exact (Run.new 6 6 (List.replicate (2 + len) 0)).insert_bt1 (by decide) (by omega)
    (by rw [List.length_replicate]) 8 1

end Zeros

/-- Where the end is `2 ^ 32` bytes away, the length collected is zero, and not that of the longest
match. -/
theorem searches_counterexample :
    let data : Bytes := List.replicate (2 + 2 ^ 32) 0
    let st := zeros_tree (2 + 2 ^ 32)
    Run data 2 st ∧ st.find_longest data 2 (2 + 2 ^ 32) 8 1 = (2 ^ 32, 1) ∧
    (st.insert_and_get_all_matches asI32 data (2 + 2 ^ 32) 8 1 2).1 = [(0, 1)] ∧
    (st.insert_and_get_all_matches asI32 data (2 + 2 ^ 32) 8 1 2).1.getLast?.map Prod.fst ≠
      some (st.find_longest data 2 (2 + 2 ^ 32) 8 1).1 := by
  obtain ⟨hrun, hlongest, hall⟩ := @searches_zeros (2 ^ 32) (by decide)
  rw [Nat.mod_self] at hall
  refine ⟨hrun, hlongest, hall, ?_⟩
  rw [hlongest, hall]
  decide

end BtState

end ZstdPure.Encode
