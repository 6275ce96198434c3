import ZstdPure.Proofs.CeilingProofs
import ZstdPure.Seekable

/-!
# Parallel decode of seekable archives

The groups of the parallel decode cover the frames once and in order, each with a region of exactly
its size, so the parallel decode returns what the serial decode of the frames returns.
-/

namespace ZstdPure

open Outcome

/-! ## The seek table -/

/-- The decompressed bytes of some frames. -/
def decompressed_bytes (frames : List SeekFrame) : Nat :=
  (frames.map SeekFrame.decompressed_size).sum

theorem decompressed_bytes_append (fs gs : List SeekFrame) :
    decompressed_bytes (fs ++ gs) = decompressed_bytes fs + decompressed_bytes gs := by
  rw [decompressed_bytes, List.map_append, List.sum_append]
  rfl

theorem decompressed_bytes_cons (f : SeekFrame) (fs : List SeekFrame) :
    decompressed_bytes (f :: fs) = f.decompressed_size + decompressed_bytes fs := rfl

/-- A table whose offsets are the sums of the sizes before them, in 32-bit sizes. -/
structure SeekTable.Indexed (frames : List SeekFrame) : Prop where
  compressed_size : ∀ f ∈ frames, f.compressed_size < 2 ^ 32
  decompressed_size : ∀ f ∈ frames, f.decompressed_size < 2 ^ 32
  compressed_offset : ∀ i f, frames[i]? = some f →
    f.compressed_offset = ((frames.take i).map SeekFrame.compressed_size).sum
  decompressed_offset : ∀ i f, frames[i]? = some f →
    f.decompressed_offset = decompressed_bytes (frames.take i)

theorem SeekTable.Indexed.nil : SeekTable.Indexed [] := by
  constructor
  · exact fun f hf => absurd hf List.not_mem_nil
  · exact fun f hf => absurd hf List.not_mem_nil
  · exact fun i f hf => by simp at hf
  · exact fun i f hf => by simp at hf

/-- A frame added at the end, at the offsets reached. -/
theorem SeekTable.Indexed.concat {frames : List SeekFrame} (h : SeekTable.Indexed frames)
    {f : SeekFrame} (hcs : f.compressed_size < 2 ^ 32) (hds : f.decompressed_size < 2 ^ 32)
    (hc : f.compressed_offset = (frames.map SeekFrame.compressed_size).sum)
    (hd : f.decompressed_offset = decompressed_bytes frames) :
    SeekTable.Indexed (frames ++ [f]) := by
  have hat : ∀ i g, (frames ++ [f])[i]? = some g →
      (i < frames.length ∧ frames[i]? = some g ∧ (frames ++ [f]).take i = frames.take i) ∨
        g = f ∧ (frames ++ [f]).take i = frames := by
    intro i g hg
    by_cases hi : i < frames.length
    · rw [List.getElem?_append_left hi] at hg
      exact Or.inl ⟨hi, hg, List.take_append_of_le_length hi.le⟩
    · rw [List.getElem?_append_right (by omega)] at hg
      have hi' : i = frames.length := by
        by_contra hne
        rw [List.getElem?_eq_none (by simp only [List.length_singleton]; omega)] at hg
        exact absurd hg (by simp)
      subst hi'
      rw [Nat.sub_self] at hg
      exact Or.inr ⟨(Option.some.inj hg).symm, List.take_left⟩
  refine ⟨fun g hg => ?_, fun g hg => ?_, fun i g hg => ?_, fun i g hg => ?_⟩
  · rcases List.mem_append.mp hg with hg | hg
    · exact h.compressed_size g hg
    · rw [List.mem_singleton.mp hg]
      exact hcs
  · rcases List.mem_append.mp hg with hg | hg
    · exact h.decompressed_size g hg
    · rw [List.mem_singleton.mp hg]
      exact hds
  · rcases hat i g hg with ⟨-, hg, htake⟩ | ⟨rfl, htake⟩
    · rw [htake]
      exact h.compressed_offset i g hg
    · rw [htake]
      exact hc
  · rcases hat i g hg with ⟨-, hg, htake⟩ | ⟨rfl, htake⟩
    · rw [htake]
      exact h.decompressed_offset i g hg
    · rw [htake]
      exact hd

/-- The state of the entry loop with `k` entries left of `n`. -/
structure SeekTable.Entries.Inv (n k : Nat) (s : SeekTable.Entries) : Prop where
  indexed : SeekTable.Indexed s.frames
  count : s.frames.length + k = n
  comp_off : s.comp_off = (s.frames.map SeekFrame.compressed_size).sum
  decomp_off : s.decomp_off = decompressed_bytes s.frames

theorem read_u32_le_lt {src : Bytes} {i : Nat} : Ensures (read_u32_le src i) (· < 2 ^ 32) := by
  unfold read_u32_le
  refine Ensures.after fun b0 _ => Ensures.after fun b1 _ => Ensures.after fun b2 _ =>
    Ensures.after fun b3 _ => Ensures.ok ?_
  exact leNat_lt [b0, b1, b2, b3]

theorem SeekTable.parse_entry_inv {archive : Bytes} {has_checksum : Bool} {entry_size n k : Nat}
    {s : SeekTable.Entries} (h : s.Inv n (k + 1)) :
    Ensures (SeekTable.parse_entry archive has_checksum entry_size s) fun s' => s'.Inv n k := by
  unfold SeekTable.parse_entry
  refine read_u32_le_lt.bind fun cs hcs => read_u32_le_lt.bind fun ds hds =>
    Ensures.after fun ck _ => Ensures.after fun p _ => Ensures.after fun comp_off hc =>
    Ensures.after fun decomp_off hd => Ensures.ok ?_
  have hcount := h.count
  constructor
  · exact h.indexed.concat hcs hds h.comp_off h.decomp_off
  · simp only [List.length_append, List.length_singleton]
    omega
  · rw [(add_eq_ok.mp hc).2, h.comp_off]
    simp
  · rw [(add_eq_ok.mp hd).2, h.decomp_off, decompressed_bytes_append]
    rfl

/-- The entry loop. -/
theorem SeekTable.parse_entries_inv {archive : Bytes} {has_checksum : Bool} {entry_size n p : Nat} :
    Ensures (times (SeekTable.parse_entry archive has_checksum entry_size) n ⟨p, 0, 0, []⟩) fun s =>
      s.Inv n 0 :=
  Ensures.times (fun k s => SeekTable.Entries.Inv n k s) (fun _ _ hs => SeekTable.parse_entry_inv
    hs) n
    _ ⟨SeekTable.Indexed.nil, Nat.zero_add _, rfl, rfl⟩

/-- A table that parses is indexed and has fewer than `2 ^ 32` frames. -/
theorem SeekTable.parse_ensures {archive : Bytes} : Ensures (SeekTable.parse archive) fun t =>
    SeekTable.Indexed t.frames ∧ t.frames.length < 2 ^ 32 := by
  unfold SeekTable.parse
  refine ensures_ite (fun _ => ensures_fail) fun _ => Ensures.after fun magic _ =>
    ensures_ite (fun _ => ensures_fail) fun _ => Ensures.after fun descriptor _ =>
    read_u32_le_lt.bind fun num_frames hn => ensures_ite (fun _ => ensures_fail) fun _ =>
    ensures_ite (fun _ => ensures_fail) fun _ => ensures_ite (fun _ => ensures_fail) fun _ =>
    Ensures.after fun skippable _ => ensures_ite (fun _ => ensures_fail) fun _ =>
    Ensures.after fun size _ => ensures_ite (fun _ => ensures_fail) fun _ =>
    SeekTable.parse_entries_inv.bind fun s hs => ensures_ite (fun _ => ensures_fail) fun _ =>
    Ensures.ok ⟨hs.indexed, ?_⟩
  have hcount := hs.count
  have hlt : num_frames < 2 ^ 32 := hn
  show s.frames.length < 2 ^ 32
  omega

theorem decompressed_bytes_lt {frames : List SeekFrame}
    (h : ∀ f ∈ frames, f.decompressed_size < 2 ^ 32) :
    decompressed_bytes frames ≤ frames.length * (2 ^ 32 - 1) := by
  induction frames with
  | nil => exact Nat.zero_le _
  | cons f fs ih =>
    have h₁ := h f List.mem_cons_self
    have h₂ := ih fun g hg => h g (List.mem_cons_of_mem _ hg)
    rw [decompressed_bytes_cons, List.length_cons]
    omega

/-- The declared total of a parsed table is the sum of its sizes. -/
theorem SeekTable.decompressed_size_ok {t : SeekTable} (h : SeekTable.Indexed t.frames)
    (hn : t.frames.length < 2 ^ 32) :
    t.decompressed_size = .ok (decompressed_bytes t.frames) ∧
      decompressed_bytes t.frames < 2 ^ 64 := by
  have hlt := decompressed_bytes_lt h.decompressed_size
  have hword : decompressed_bytes t.frames < 2 ^ 64 := by omega
  refine ⟨?_, hword⟩
  unfold SeekTable.decompressed_size
  cases hlast : t.frames.getLast? with
  | none =>
    rw [List.getLast?_eq_none_iff] at hlast
    rw [hlast]
    rfl
  | some f =>
    have hne : t.frames ≠ [] := by
      rintro h0
      rw [h0] at hlast
      simp at hlast
    rw [List.getLast?_eq_getElem?] at hlast
    have hoff := h.decompressed_offset _ f hlast
    have hpos := List.length_pos_iff.mpr hne
    have hsplit : t.frames = t.frames.take (t.frames.length - 1) ++ [f] := by
      obtain ⟨hlt, hf⟩ := List.getElem?_eq_some_iff.mp hlast
      conv_lhs => rw [← List.take_append_drop (t.frames.length - 1) t.frames]
      rw [List.drop_eq_getElem_cons hlt, hf, List.drop_eq_nil_of_le (by omega)]
    have hsum : decompressed_bytes t.frames = f.decompressed_offset + f.decompressed_size := by
      conv_lhs => rw [hsplit]
      rw [decompressed_bytes_append, ← hoff]
      rfl
    dsimp only
    rw [hsum] at hword ⊢
    exact add_ok hword

/-! ## The groups -/

/-- Bounds of groups of the first `n` frames: from `0` on, not decreasing, at most `n`. -/
structure BoundsUpTo (n : Nat) (bounds : List Nat) : Prop where
  sorted : bounds.Pairwise (· ≤ ·)
  head : bounds.head? = some 0
  le : ∀ b ∈ bounds, b ≤ n

theorem BoundsUpTo.concat {n m : Nat} {bounds : List Nat} (h : BoundsUpTo n bounds) (hm : n ≤ m) :
    BoundsUpTo m (bounds ++ [m]) := by
  refine ⟨?_, ?_, ?_⟩
  · rw [List.pairwise_append]
    refine ⟨h.sorted, List.pairwise_singleton _ _, fun a ha b hb => ?_⟩
    rw [List.mem_singleton.mp hb]
    exact (h.le a ha).trans hm
  · rw [List.head?_append, h.head]
    rfl
  · intro b hb
    rcases List.mem_append.mp hb with hb | hb
    · exact (h.le b hb).trans hm
    · exact (List.mem_singleton.mp hb).le

theorem BoundsUpTo.mono {n m : Nat} {bounds : List Nat} (h : BoundsUpTo n bounds) (hm : n ≤ m) :
    BoundsUpTo m bounds :=
  ⟨h.sorted, h.head, fun b hb => (h.le b hb).trans hm⟩

/-- The state of the partition loop after `i` frames. -/
structure Partitioned (frames : List SeekFrame) (jobs i : Nat) (s : List Nat × Nat) : Prop where
  bounds : BoundsUpTo i s.1
  ge : 1 ≤ s.1.length
  le : s.1.length ≤ jobs
  acc : s.2 = decompressed_bytes (frames.take i)

theorem decompressed_bytes_take_le (frames : List SeekFrame) (i : Nat) :
    decompressed_bytes (frames.take i) ≤ decompressed_bytes frames := by
  conv_rhs => rw [← List.take_append_drop i frames, decompressed_bytes_append]
  omega

/-- One frame in the partition loop: no counter underflows. -/
theorem close_group_returns {frames : List SeekFrame} {jobs i : Nat} {s : List Nat × Nat}
    {f : SeekFrame} (h : Partitioned frames jobs i s) (hf : frames[i]? = some f)
    (hjobs : jobs ≤ MAX_DECODE_JOBS) (htotal : decompressed_bytes frames < 2 ^ 64) :
    Returns (close_group jobs (decompressed_bytes frames) frames.length s (f, i))
      (Partitioned frames jobs (i + 1)) := by
  obtain ⟨bounds, acc⟩ := s
  obtain ⟨hbounds, hge, hle, hacc⟩ := h
  dsimp only at hbounds hge hle hacc
  obtain ⟨hi, hget⟩ := List.getElem?_eq_some_iff.mp hf
  have hnext : decompressed_bytes (frames.take (i + 1)) = acc + f.decompressed_size := by
    rw [List.take_add_one, hf, decompressed_bytes_append, hacc]
    rfl
  have hle' := decompressed_bytes_take_le frames (i + 1)
  have hmax : MAX_DECODE_JOBS = 256 := rfl
  have hshare : (acc + f.decompressed_size) * jobs < 2 ^ 128 := by
    calc (acc + f.decompressed_size) * jobs ≤ 2 ^ 64 * 256 :=
          Nat.mul_le_mul (by omega) (by omega)
      _ < 2 ^ 128 := by norm_num
  have hdue : decompressed_bytes frames * bounds.length < 2 ^ 128 := by
    calc decompressed_bytes frames * bounds.length ≤ 2 ^ 64 * 256 :=
          Nat.mul_le_mul htotal.le (by omega)
      _ < 2 ^ 128 := by norm_num
  unfold close_group
  dsimp only
  rw [add_ok (by omega), bind_ok, sub_ok hle, bind_ok, add_ok (by omega), bind_ok,
    sub_ok (by omega), bind_ok]
  refine Returns.bind (P := fun close => close = true → bounds.length < jobs) ?_ fun close hc => ?_
  · by_cases hlt : bounds.length < jobs
    · rw [if_pos hlt, sub_ok (by omega), bind_ok]
      by_cases hleft : jobs - bounds.length + 1 - 1 ≤ frames.length - (i + 1)
      · rw [if_pos hleft, mul_ok hshare, bind_ok, mul_ok hdue, bind_ok]
        exact ⟨_, rfl, fun _ => hlt⟩
      · rw [if_neg hleft]
        exact ⟨_, rfl, fun _ => hlt⟩
    · rw [if_neg hlt]
      exact ⟨_, rfl, fun h => Bool.noConfusion h⟩
  · refine ⟨_, rfl, ?_, ?_, ?_, hnext.symm⟩
    · dsimp only
      by_cases hclose : close = true
      · rw [if_pos hclose]
        exact hbounds.concat (Nat.le_succ i)
      · rw [if_neg hclose]
        exact hbounds.mono (Nat.le_succ i)
    · dsimp only
      split_ifs
      · rw [List.length_append]
        omega
      · exact hge
    · dsimp only
      split_ifs with hclose
      · rw [List.length_append]
        exact hc hclose
      · exact hle

/-- The bounds of `jobs` groups of `n` frames. -/
structure GroupBounds (n jobs : Nat) (bounds : List Nat) : Prop where
  sorted : bounds.Pairwise (· ≤ ·)
  head : bounds.head? = some 0
  last : bounds.getLast? = some n
  length : bounds.length = jobs + 1

/-- The partition covers the frames with the requested number of groups. -/
theorem group_bounds_returns {frames : List SeekFrame} {jobs : Nat} (hpos : 1 ≤ jobs)
    (hjobs : jobs ≤ MAX_DECODE_JOBS) (htotal : decompressed_bytes frames < 2 ^ 64) :
    Returns (group_bounds frames jobs (decompressed_bytes frames))
      (GroupBounds frames.length jobs) := by
  unfold group_bounds
  have hfold : Returns (frames.zipIdx.foldlM
      (close_group jobs (decompressed_bytes frames) frames.length) ([0], 0))
      (fun s => ∃ i, frames.zipIdx.drop i = [] ∧ i ≤ frames.length ∧
        Partitioned frames jobs i s) := by
    refine (Returns.foldlM (fun l s => ∃ i, frames.zipIdx.drop i = l ∧ i ≤ frames.length ∧
      Partitioned frames jobs i s) ?_ _ _ ⟨0, rfl, Nat.zero_le _, ⟨?_, ?_, ?_⟩, le_rfl, hpos, rfl⟩)
    · rintro ⟨f, j⟩ l s ⟨i, hdrop, hi, hs⟩
      have hlt : i < frames.zipIdx.length := by
        by_contra hge
        rw [List.drop_eq_nil_of_le (by omega)] at hdrop
        exact absurd hdrop (by simp)
      rw [List.drop_eq_getElem_cons hlt] at hdrop
      obtain ⟨hhead, htail⟩ := List.cons.inj hdrop
      rw [List.length_zipIdx] at hlt
      rw [List.getElem_zipIdx, Nat.zero_add] at hhead
      obtain ⟨hf, rfl⟩ := Prod.mk.inj hhead
      refine (close_group_returns hs (by rw [List.getElem?_eq_getElem hlt, hf]) hjobs htotal).mono
        fun s' hs' => ⟨i + 1, htail, hlt, hs'⟩
    · exact List.pairwise_singleton _ _
    · rfl
    · exact fun b hb => (List.mem_singleton.mp hb).le
  refine hfold.bind ?_
  rintro ⟨bounds, acc⟩ ⟨i, -, hi, hs⟩
  have hge := hs.ge
  have hle := hs.le
  dsimp only at hge hle ⊢
  -- the remaining groups are empty
  refine (Returns.loop (fun b : List Nat => BoundsUpTo frames.length b ∧ b.length ≤ jobs + 1 ∧
    (b.length ≤ jobs ∨ b.getLast? = some frames.length)) (fun b => jobs + 1 - b.length) ?_
      (jobs + 2)
    bounds ⟨hs.bounds.mono hi, by omega, Or.inl hle⟩ (by omega)).mono ?_
  · rintro b ⟨hb, hlen, -⟩ hc
    have hlt : b.length ≤ jobs := by simpa using hc
    refine ⟨_, rfl, ⟨hb.concat le_rfl, ?_, Or.inr List.getLast?_concat⟩, ?_⟩
    · rw [List.length_append, List.length_singleton]
      omega
    · rw [List.length_append, List.length_singleton]
      omega
  · rintro b ⟨⟨hb, hlen, hlast⟩, hc⟩
    have hlt : jobs < b.length := by simpa using hc
    refine ⟨hb.sorted, hb.head, ?_, by omega⟩
    rcases hlast with hlast | hlast
    · omega
    · exact hlast

/-! ## The regions -/

/-- What the split gives from group `g` on. -/
structure Regions (frames : List SeekFrame) (groups : List (List SeekFrame × Bytes)) : Prop where
  cover : (groups.map Prod.fst).flatten = frames
  length : ∀ g ∈ groups, g.2.length = decompressed_bytes g.1

theorem group_bytes_ok {grp : List SeekFrame} (h : decompressed_bytes grp < 2 ^ 64) :
    group_bytes grp = .ok (decompressed_bytes grp) := by
  have hfold : ∀ (l : List SeekFrame) (n : Nat), n + decompressed_bytes l < 2 ^ 64 →
      (l.foldlM (fun n f => add 64 n f.decompressed_size) n : Res Nat)
        = .ok (n + decompressed_bytes l) := by
    intro l
    induction l with
    | nil => intro n _; rfl
    | cons f l ih =>
      intro n hn
      rw [decompressed_bytes_cons] at hn ⊢
      rw [List.foldlM_cons, add_ok (by omega), bind_ok, ih _ (by omega), Nat.add_assoc]
  unfold group_bytes
  rw [hfold grp 0 (by omega), Nat.zero_add]

/-- The bounds of consecutive groups. -/
theorem GroupBounds.at {n jobs : Nat} {bounds : List Nat} (h : GroupBounds n jobs bounds) {g : Nat}
    (hg : g < jobs) : ∃ a b, bounds[g]? = some a ∧ bounds[g + 1]? = some b ∧ a ≤ b ∧ b ≤ n := by
  have hlen := h.length
  have hlast := h.last
  rw [List.getLast?_eq_getElem?, hlen, Nat.add_sub_cancel] at hlast
  obtain ⟨hlt, hn⟩ := List.getElem?_eq_some_iff.mp hlast
  have hsorted := List.pairwise_iff_getElem.mp h.sorted
  refine ⟨bounds[g], bounds[g + 1], List.getElem?_eq_getElem (by omega),
    List.getElem?_eq_getElem (by omega), hsorted g (g + 1) _ _ (by omega), ?_⟩
  by_cases hgj : g + 1 = jobs
  · subst hgj
    exact hn.le
  · rw [← hn]
    exact hsorted (g + 1) jobs _ _ (by omega)

/-- The groups from `g` on take the rest of the frames and the rest of the output. -/
theorem split_regions_ok {frames : List SeekFrame} {jobs : Nat} {bounds : List Nat}
    (h : GroupBounds frames.length jobs bounds) (htotal : decompressed_bytes frames < 2 ^ 64) :
    ∀ (k g : Nat) (rest : Bytes) (a : Nat), g + k = jobs → bounds[g]? = some a →
      rest.length = decompressed_bytes (frames.drop a) →
      ∃ groups, split_regions frames bounds (List.range' g k) rest = .ok (groups, []) ∧
        Regions (frames.drop a) groups ∧ (groups.map Prod.snd).flatten = rest := by
  intro k
  induction k with
  | zero =>
    intro g rest a hg ha hrest
    have hlast := h.last
    rw [List.getLast?_eq_getElem?, h.length, Nat.add_sub_cancel, ← hg, Nat.add_zero, ha] at hlast
    rw [Option.some.inj hlast, List.drop_length] at hrest ⊢
    obtain rfl := List.eq_nil_of_length_eq_zero hrest
    exact ⟨[], rfl, ⟨rfl, fun g hg => absurd hg List.not_mem_nil⟩, rfl⟩
  | succ k ih =>
    intro g rest a hg ha hrest
    obtain ⟨a', b, ha', hb, hab, hbn⟩ := h.at (show g < jobs by omega)
    obtain rfl := Option.some.inj (ha.symm.trans ha')
    obtain ⟨hglt, hga⟩ := List.getElem?_eq_some_iff.mp ha
    obtain ⟨hglt', hgb⟩ := List.getElem?_eq_some_iff.mp hb
    have hsplit : frames.drop a = (frames.take b).drop a ++ frames.drop b := by
      conv_lhs => rw [← List.take_append_drop b frames]
      rw [List.drop_append_of_le_length (by rw [List.length_take]; omega)]
    have hbytes := congrArg decompressed_bytes hsplit
    rw [decompressed_bytes_append] at hbytes
    have hdrop : decompressed_bytes (frames.drop a) ≤ decompressed_bytes frames := by
      conv_rhs => rw [← List.take_append_drop a frames, decompressed_bytes_append]
      omega
    set n := decompressed_bytes ((frames.take b).drop a) with hn
    obtain ⟨groups, hgroups, hregions, hflat⟩ := ih (g + 1) (rest.drop n) b (by omega) hb
      (by rw [List.length_drop]; omega)
    refine ⟨((frames.take b).drop a, rest.take n) :: groups, ?_, ⟨?_, ?_⟩, ?_⟩
    · rw [List.range'_succ, split_regions, get_ok hglt, bind_ok, get_ok hglt', bind_ok, hga, hgb,
        slice_ok hab hbn, bind_ok, group_bytes_ok (by omega), bind_ok, ← hn,
        slice_ok (Nat.zero_le _) (by omega), bind_ok, sliceFrom_ok (by omega), bind_ok, hgroups]
      rfl
    · rw [List.map_cons, List.flatten_cons, hregions.cover, hsplit]
    · intro x hx
      rcases List.mem_cons.mp hx with rfl | hx
      · show (rest.take n).length = n
        rw [List.length_take]
        omega
      · exact hregions.length x hx
    · rw [List.map_cons, List.flatten_cons, hflat, List.take_append_drop]

/-! ## The workers -/

/-- The decode of a frame does not depend on the texts of its errors. -/
theorem decode_seek_frame_texts {archive : Bytes} {f : SeekFrame} {e e' : ZstdError}
    {m m' : Nat → ZstdError} {v : Bytes} (h : decode_seek_frame archive f e m = .ok v) :
    decode_seek_frame archive f e' m' = .ok v := by
  unfold decode_seek_frame at h ⊢
  obtain ⟨h₁, h⟩ := guard_eq_ok.mp h
  obtain ⟨h₂, h⟩ := guard_eq_ok.mp h
  obtain ⟨h₃, h⟩ := guard_eq_ok.mp h
  obtain ⟨bytes, hbytes, h⟩ := bind_eq_ok.mp h
  obtain ⟨decoded, hdecoded, h⟩ := bind_eq_ok.mp h
  obtain ⟨h₄, h⟩ := guard_eq_ok.mp h
  rw [if_neg h₁, if_neg h₂, if_neg h₃, hbytes, bind_ok, hdecoded, bind_ok, if_neg h₄]
  exact h

/-- The decode of a frame never faults, and its output has the declared size. -/
theorem decode_seek_frame_safe {archive : Bytes} {f : SeekFrame} (e : ZstdError)
    (m : Nat → ZstdError) (hlen : archive.length < 2 ^ 63) (hsize : f.decompressed_size < 2 ^ 32) :
    Safe (decode_seek_frame archive f e m) fun v => v.length = f.decompressed_size := by
  unfold decode_seek_frame
  refine safe_ite (fun _ => safe_fail) fun h₁ => safe_ite (fun _ => safe_fail) fun h₂ =>
    safe_ite (fun _ => safe_fail) fun h₃ => ?_
  have husize : usizeMax = 2 ^ 64 - 1 := rfl
  rw [slice_ok (by omega) (by omega), bind_ok]
  refine (decode_frame_capped_safe (by rw [List.length_drop, List.length_take]; omega)
    (by omega)).bind fun decoded _ => safe_ite (fun _ => safe_fail) fun h₄ => ?_
  split
  · exact safe_ite (fun _ => safe_fail) fun _ => Safe.ok (not_not.mp h₄)
  · exact Safe.ok (not_not.mp h₄)

/-- The frame that both sides decode. -/
def seek_frame (archive : Bytes) (f : SeekFrame) : Res Bytes :=
  decode_seek_frame archive f bad_offset
    fun _ => .Invalid "seekable frame size" "decoded length does not match the seek table"

/-- A worker fills its region with the frames of its group, or fails with one of them. -/
theorem decode_frame_group_spec {archive : Bytes} {grp : List SeekFrame} {region : Bytes}
    (hlen : archive.length < 2 ^ 63) (hsize : ∀ f ∈ grp, f.decompressed_size < 2 ^ 32)
    (hregion : region.length = decompressed_bytes grp) (hword : decompressed_bytes grp < 2 ^ 64) :
    (∃ parts, List.Forall₂ (fun f x => seek_frame archive f = .ok x) grp parts ∧
      decode_frame_group archive grp region = .ok parts.flatten) ∨
    (∃ e, decode_frame_group archive grp region = fail e) ∧
      ∃ f ∈ grp, ∃ e, seek_frame archive f = fail e := by
  have husize : usizeMax = 2 ^ 64 - 1 := rfl
  set body : Nat × Bytes → SeekFrame → Res (Nat × Bytes) := fun s f => do
    let data ← seek_frame archive f
    let dst_end := s.1 + f.decompressed_size
    if usizeMax < dst_end then fail bad_offset
    else
      let region ← copyAt s.2 s.1 data
      pure (dst_end, region) with hbody
  -- the frames so far fill the region up to `s.1`
  have hfold : ∀ (l : List SeekFrame) (s : Nat × Bytes), (∀ f ∈ l, f.decompressed_size < 2 ^ 32) →
      s.1 + decompressed_bytes l = s.2.length → s.2.length < 2 ^ 64 →
      (∃ parts, List.Forall₂ (fun f x => seek_frame archive f = .ok x) l parts ∧
        l.foldlM body s = .ok (s.2.length, s.2.take s.1 ++ parts.flatten)) ∨
      (∃ e, l.foldlM body s = fail e) ∧ ∃ f ∈ l, ∃ e, seek_frame archive f = fail e := by
    intro l
    induction l with
    | nil =>
      intro s _ hs _
      obtain ⟨off, out⟩ := s
      refine Or.inl ⟨[], List.Forall₂.nil, ?_⟩
      have hoff : off = out.length := hs
      rw [List.foldlM_nil, hoff, List.flatten_nil, List.append_nil, List.take_length]
      rfl
    | cons f l ih =>
      intro s hl hs hw
      rw [decompressed_bytes_cons] at hs
      have hf := hl f List.mem_cons_self
      rw [List.foldlM_cons, hbody]
      rcases safe_iff.mp (decode_seek_frame_safe bad_offset (fun _ => .Invalid "seekable frame size"
        "decoded length does not match the seek table") hlen hf) with ⟨x, hx, hxlen⟩ | ⟨e, he⟩
      · have hx' : seek_frame archive f = .ok x := hx
        have hlen' : (s.2.take s.1 ++ x ++ s.2.drop (s.1 + x.length)).length = s.2.length := by
          rw [List.length_append, List.length_append, List.length_take, List.length_drop]
          omega
        dsimp only
        rw [hx', bind_ok, if_neg (by omega), copyAt_ok (by omega), bind_ok, pure_eq_ok, bind_ok,
          ← hbody]
        rcases ih (s.1 + f.decompressed_size, s.2.take s.1 ++ x ++ s.2.drop (s.1 + x.length))
            (fun g hg => hl g (List.mem_cons_of_mem _ hg)) (by dsimp only; omega)
            (by dsimp only; omega) with
          ⟨parts, hparts, hok⟩ | ⟨herr, g, hg, hfail⟩
        · refine Or.inl ⟨x :: parts, List.Forall₂.cons hx' hparts, ?_⟩
          dsimp only at hok
          rw [hok, hlen', List.take_left' (by
            rw [List.length_append, List.length_take]
            omega), List.flatten_cons, List.append_assoc]
        · exact Or.inr ⟨herr, g, List.mem_cons_of_mem _ hg, hfail⟩
      · have he' : seek_frame archive f = fail e := he
        dsimp only
        rw [he', bind_fail, bind_fail]
        exact Or.inr ⟨⟨e, rfl⟩, f, List.mem_cons_self, e, he'⟩
  have hgroup : decode_frame_group archive grp region =
      grp.foldlM body (0, region) >>= fun s => .ok s.2 := rfl
  rcases hfold grp (0, region) hsize (by dsimp only; omega) (by dsimp only; omega) with
    ⟨parts, hparts, hok⟩ | ⟨⟨e, he⟩, hfail⟩
  · refine Or.inl ⟨parts, hparts, ?_⟩
    rw [hgroup, hok]
    rfl
  · refine Or.inr ⟨⟨e, ?_⟩, hfail⟩
    rw [hgroup, he, bind_fail]

/-- The join loop over workers that did not panic. -/
theorem join_workers_spec {results : List (Res Bytes)}
    (h : ∀ x ∈ results, NoFault x) :
    (∃ regions, List.Forall₂ (fun x r => x = .ok r) results regions ∧
      join_workers results = .ok regions) ∨
    ∃ e, join_workers results = fail e ∧ ∃ x ∈ results, x = fail e := by
  induction results with
  | nil => exact Or.inl ⟨[], List.Forall₂.nil, rfl⟩
  | cons x xs ih =>
    have hx := h x List.mem_cons_self
    have hxs := fun y hy => h y (List.mem_cons_of_mem _ hy)
    match x, hx with
    | .ok r, _ =>
      have hjoin : join_workers (.ok r :: xs) = join_workers xs >>= fun rs => pure (r :: rs) := rfl
      rcases ih hxs with ⟨rs, hrs, hok⟩ | ⟨e, hfail, y, hy, he⟩
      · exact Or.inl ⟨r :: rs, List.Forall₂.cons rfl hrs, by rw [hjoin, hok]; rfl⟩
      · exact Or.inr ⟨e, by rw [hjoin, hfail, bind_fail], y, List.mem_cons_of_mem _ hy, he⟩
    | .error (.err e), _ =>
      refine Or.inr ⟨e, ?_, _, List.mem_cons_self, rfl⟩
      rw [join_workers]
      have hnone : ¬ xs.any panicked = true := by
        rw [List.any_eq_true]
        rintro ⟨y, hy, hpanic⟩
        have hy := hxs y hy
        match y, hy with
        | .ok _, _ => exact Bool.noConfusion hpanic
        | .error (.err _), _ => exact Bool.noConfusion hpanic
        | .error (.fault f), hy => exact absurd rfl (hy f)
      exact if_neg hnone
    | .error (.fault f), hx => exact absurd rfl (hx f)

/-! ## The parallel decode -/

/-- What the workers need to know of the groups that the partition makes. -/
structure Worked (archive : Bytes) (groups : List (List SeekFrame × Bytes)) : Prop where
  archive : archive.length < 2 ^ 63
  size : ∀ g ∈ groups, ∀ f ∈ g.1, f.decompressed_size < 2 ^ 32
  length : ∀ g ∈ groups, g.2.length = decompressed_bytes g.1
  word : ∀ g ∈ groups, decompressed_bytes g.1 < 2 ^ 64

theorem Worked.tail {archive : Bytes} {g : List SeekFrame × Bytes}
    {groups : List (List SeekFrame × Bytes)} (h : Worked archive (g :: groups)) :
    Worked archive groups :=
  ⟨h.archive, fun x hx => h.size x (List.mem_cons_of_mem _ hx),
    fun x hx => h.length x (List.mem_cons_of_mem _ hx),
    fun x hx => h.word x (List.mem_cons_of_mem _ hx)⟩

theorem Worked.group {archive : Bytes} {g : List SeekFrame × Bytes}
    {groups : List (List SeekFrame × Bytes)} (h : Worked archive groups) (hg : g ∈ groups) :
    (∃ parts, List.Forall₂ (fun f x => seek_frame archive f = .ok x) g.1 parts ∧
      decode_frame_group archive g.1 g.2 = .ok parts.flatten) ∨
    (∃ e, decode_frame_group archive g.1 g.2 = fail e) ∧
      ∃ f ∈ g.1, ∃ e, seek_frame archive f = fail e :=
  decode_frame_group_spec h.archive (h.size g hg) (h.length g hg) (h.word g hg)

/-- The regions that the workers return hold the frames of all the groups, in order. -/
theorem Worked.parts {archive : Bytes} {groups : List (List SeekFrame × Bytes)}
    {regions : List Bytes} (h : Worked archive groups)
    (hregions : List.Forall₂ (fun x r => x = .ok r)
      (groups.map fun g => decode_frame_group archive g.1 g.2) regions) :
    ∃ parts, List.Forall₂ (fun f x => seek_frame archive f = .ok x)
      (groups.map Prod.fst).flatten parts ∧ regions.flatten = parts.flatten := by
  induction groups generalizing regions with
  | nil =>
    cases hregions
    exact ⟨[], List.Forall₂.nil, rfl⟩
  | cons g groups ih =>
    cases hregions with
    | @cons _ r _ rs hr hrs =>
      obtain ⟨parts, hparts, hflat⟩ := ih h.tail hrs
      rcases h.group List.mem_cons_self with ⟨own, hown, hok⟩ | ⟨⟨e, he⟩, -⟩
      · obtain rfl := Except.ok.inj (hr.symm.trans hok)
        refine ⟨own ++ parts, List.rel_append hown hparts, ?_⟩
        rw [List.flatten_cons, List.flatten_append, hflat]
      · exact absurd (hr.symm.trans he) (ok_ne_fail e r)

/-- The partition of a table of at least one frame. -/
structure Partition (frames : List SeekFrame) (jobs : Nat) (bounds : List Nat)
    (groups : List (List SeekFrame × Bytes)) : Prop where
  bounds : GroupBounds frames.length jobs bounds
  regions : Regions frames groups

theorem decode_jobs_pos (n_jobs frames_len : Nat) : 1 ≤ decode_jobs n_jobs frames_len :=
  Nat.le_max_left _ _

theorem decode_jobs_le (n_jobs frames_len : Nat) :
    decode_jobs n_jobs frames_len ≤ MAX_DECODE_JOBS := by
  have hmax : MAX_DECODE_JOBS = 256 := rfl
  unfold decode_jobs
  omega

theorem partition_exists {frames : List SeekFrame} {jobs : Nat} (hpos : 1 ≤ jobs)
    (hjobs : jobs ≤ MAX_DECODE_JOBS) (hword : decompressed_bytes frames < 2 ^ 64) :
    ∃ bounds groups, group_bounds frames jobs (decompressed_bytes frames) = .ok bounds ∧
      split_regions frames bounds (List.range jobs)
        (List.replicate (decompressed_bytes frames) 0) = .ok (groups, []) ∧
      Partition frames jobs bounds groups := by
  obtain ⟨bounds, hbounds, hspec⟩ := group_bounds_returns hpos hjobs hword
  have hhead : bounds[0]? = some 0 := by
    rw [← List.head?_eq_getElem?]
    exact hspec.head
  obtain ⟨groups, hgroups, hregions, -⟩ := split_regions_ok hspec hword jobs 0
    (List.replicate (decompressed_bytes frames) 0) 0 (Nat.zero_add _) hhead
    (by rw [List.length_replicate, List.drop_zero])
  rw [← List.range_eq_range'] at hgroups
  rw [List.drop_zero] at hregions
  exact ⟨bounds, groups, hbounds, hgroups, hspec, hregions⟩

/-- The parallel decode within the ceiling: every frame decodes and the result holds them in order,
or some frame fails and so does the decode. -/
theorem decompress_seekable_parallel_spec {archive : Bytes} {table : SeekTable}
    {max_output : Nat} (n_jobs : Nat) (hlen : archive.length < 2 ^ 63)
    (h : SeekTable.Indexed table.frames) (hn : table.frames.length < 2 ^ 32)
    (hmax : decompressed_bytes table.frames ≤ max_output) :
    (∃ parts, List.Forall₂ (fun f x => seek_frame archive f = .ok x) table.frames parts ∧
      decompress_seekable_parallel_capped archive table n_jobs max_output = .ok parts.flatten) ∨
    (∃ e, decompress_seekable_parallel_capped archive table n_jobs max_output = fail e) ∧
      ∃ f ∈ table.frames, ∃ e, seek_frame archive f = fail e := by
  obtain ⟨htotal, hword⟩ := SeekTable.decompressed_size_ok h hn
  unfold decompress_seekable_parallel_capped
  dsimp only
  rw [htotal, bind_ok, if_neg (Nat.not_lt.mpr hmax)]
  by_cases hempty : table.frames.length = 0
  · rw [if_pos hempty]
    rw [List.eq_nil_of_length_eq_zero hempty]
    exact Or.inl ⟨[], List.Forall₂.nil, rfl⟩
  · rw [if_neg hempty]
    obtain ⟨bounds, groups, hbounds, hgroups, hpart⟩ := partition_exists
      (decode_jobs_pos n_jobs table.frames.length) (decode_jobs_le n_jobs _) hword
    rw [hbounds, bind_ok, hgroups, bind_ok]
    dsimp only
    have hmem : ∀ g ∈ groups, ∀ f ∈ g.1, f ∈ table.frames := by
      intro g hg f hf
      rw [← hpart.regions.cover]
      exact List.mem_flatten.mpr ⟨g.1, List.mem_map_of_mem hg, hf⟩
    have hworked : Worked archive groups := by
      refine ⟨hlen, fun g hg f hf => h.decompressed_size f (hmem g hg f hf),
        hpart.regions.length, fun g hg => lt_of_le_of_lt ?_ hword⟩
      have hsub : g.1.Sublist table.frames := by
        rw [← hpart.regions.cover]
        exact List.sublist_flatten_of_mem (List.mem_map_of_mem hg)
      exact (hsub.map SeekFrame.decompressed_size).sum_le_sum fun _ _ => Nat.zero_le _
    have hnofault : ∀ x ∈ groups.map fun g => decode_frame_group archive g.1 g.2, NoFault x := by
      intro x hx
      obtain ⟨g, hg, rfl⟩ := List.mem_map.mp hx
      rcases hworked.group hg with ⟨parts, -, hok⟩ | ⟨⟨e, he⟩, -⟩
      · rw [hok]
        exact fun f => ok_ne_crash f _
      · rw [he]
        exact Safe.noFault (@safe_fail _ _ _ fun _ => True)
    rcases join_workers_spec hnofault with ⟨regions, hregions, hjoin⟩ | ⟨e, hjoin, x, hx, hfail⟩
    · obtain ⟨parts, hparts, hflat⟩ := hworked.parts hregions
      rw [hpart.regions.cover] at hparts
      refine Or.inl ⟨parts, hparts, ?_⟩
      rw [hjoin, bind_ok, hflat, List.append_nil]
      rfl
    · refine Or.inr ⟨⟨e, by rw [hjoin, bind_fail]⟩, ?_⟩
      obtain ⟨g, hg, rfl⟩ := List.mem_map.mp hx
      rcases hworked.group hg with ⟨parts, -, hok⟩ | ⟨-, f, hf, hbad⟩
      · exact absurd (hfail.symm.trans hok) (fail_ne_ok e _)
      · exact ⟨f, hmem g hg f hf, hbad⟩

/-- Random access to frame `i`. -/
theorem decompress_seekable_frame_eq_ok {archive : Bytes} {table : SeekTable} {i : Nat}
    {x : Bytes} : decompress_seekable_frame archive table i = .ok x ↔
      ∃ f, table.frames[i]? = some f ∧ seek_frame archive f = .ok x := by
  unfold decompress_seekable_frame
  cases hf : table.frames[i]? with
  | none => simp
  | some f =>
    constructor
    · exact fun h => ⟨f, rfl, decode_seek_frame_texts h⟩
    · rintro ⟨g, hg, hx⟩
      obtain rfl := Option.some.inj hg
      exact decode_seek_frame_texts hx

/-- The frames of a table by their indices. -/
theorem seek_frames_iff {archive : Bytes} {table : SeekTable} {parts : List Bytes} :
    List.Forall₂ (fun i x => decompress_seekable_frame archive table i = .ok x)
      (List.range table.num_frames) parts ↔
    List.Forall₂ (fun f x => seek_frame archive f = .ok x) table.frames parts := by
  have hlen : (List.range table.num_frames).length = table.frames.length := List.length_range
  rw [List.forall₂_iff_get, List.forall₂_iff_get]
  constructor
  · rintro ⟨hparts, h⟩
    refine ⟨hlen.symm.trans hparts, fun i hi hi' => ?_⟩
    obtain ⟨f, hf, hx⟩ := decompress_seekable_frame_eq_ok.mp (h i (hlen.symm ▸ hi) hi')
    rw [List.get_eq_getElem, List.getElem_range] at hf
    obtain ⟨_, rfl⟩ := List.getElem?_eq_some_iff.mp hf
    exact hx
  · rintro ⟨hparts, h⟩
    refine ⟨hlen.trans hparts, fun i hi hi' => ?_⟩
    have hlt : i < table.frames.length := hlen ▸ hi
    rw [List.get_eq_getElem, List.getElem_range]
    exact decompress_seekable_frame_eq_ok.mpr ⟨_, List.getElem?_eq_getElem hlt, h i hlt hi'⟩

/-- The parallel decode of an archive, for every number of jobs, is the serial decode of its frames
one after the other, and the groups of the workers cover the frames once and in order. -/
theorem seekable_parallel_eq_serial {bytes archive : Bytes} {table : SeekTable}
    (n_jobs max_output : Nat) (hlen : archive.length < 2 ^ 63)
    (htable : SeekTable.parse bytes = .ok table) :
    ∃ total, table.decompressed_size = .ok total ∧
      (total ≤ max_output →
        ((∃ v, decompress_seekable_parallel_capped archive table n_jobs max_output = .ok v) ↔
          ∀ i < table.num_frames, ∃ x, decompress_seekable_frame archive table i = .ok x) ∧
        ∀ v, decompress_seekable_parallel_capped archive table n_jobs max_output = .ok v →
          ∃ parts, List.Forall₂ (fun i x => decompress_seekable_frame archive table i = .ok x)
            (List.range table.num_frames) parts ∧ v = parts.flatten) ∧
      (max_output < total →
        ∃ e, decompress_seekable_parallel_capped archive table n_jobs max_output = fail e) ∧
      NoFault (decompress_seekable_parallel_capped archive table n_jobs max_output) ∧
      ∃ bounds groups,
        group_bounds table.frames (decode_jobs n_jobs table.num_frames) total = .ok bounds ∧
        split_regions table.frames bounds (List.range (decode_jobs n_jobs table.num_frames))
          (List.replicate total 0) = .ok (groups, []) ∧
        Partition table.frames (decode_jobs n_jobs table.num_frames) bounds groups := by
  obtain ⟨hindexed, hn⟩ := SeekTable.parse_ensures _ htable
  obtain ⟨htotal, hword⟩ := SeekTable.decompressed_size_ok hindexed hn
  have hover : max_output < decompressed_bytes table.frames →
      decompress_seekable_parallel_capped archive table n_jobs max_output
        = fail (.OutputTooLarge max_output) := by
    intro hmax
    unfold decompress_seekable_parallel_capped
    dsimp only
    rw [htotal, bind_ok, if_pos hmax]
  refine ⟨_, htotal, fun hmax => ?_, fun hmax => ⟨_, hover hmax⟩, ?_,
    partition_exists (decode_jobs_pos _ _) (decode_jobs_le _ _) hword⟩
  · rcases decompress_seekable_parallel_spec n_jobs hlen hindexed hn hmax with
      ⟨parts, hparts, hok⟩ | ⟨⟨e, he⟩, f, hf, e', he'⟩
    · have hserial := seek_frames_iff.mpr hparts
      refine ⟨iff_of_true ⟨_, hok⟩ fun i hi => ?_, fun v hv => ⟨parts, hserial, ?_⟩⟩
      · have hi' : i < (List.range table.num_frames).length := by
          rw [List.length_range]
          exact hi
        have hx := hserial.get hi' (hserial.length_eq ▸ hi')
        rw [List.get_eq_getElem, List.getElem_range] at hx
        exact ⟨_, hx⟩
      · exact (Except.ok.inj (hok.symm.trans hv)).symm
    · refine ⟨iff_of_false ?_ ?_, fun v hv => absurd (he.symm.trans hv) (fail_ne_ok e v)⟩
      · rintro ⟨v, hv⟩
        exact fail_ne_ok e v (he.symm.trans hv)
      · intro hall
        obtain ⟨i, hi, hfi⟩ := List.getElem_of_mem hf
        obtain ⟨x, hx⟩ := hall i hi
        obtain ⟨g, hg, hx⟩ := decompress_seekable_frame_eq_ok.mp hx
        obtain ⟨_, rfl⟩ := List.getElem?_eq_some_iff.mp hg
        rw [hfi, he'] at hx
        exact fail_ne_ok e' x hx
  · by_cases hmax : decompressed_bytes table.frames ≤ max_output
    · rcases decompress_seekable_parallel_spec n_jobs hlen hindexed hn hmax with
        ⟨parts, -, hok⟩ | ⟨⟨e, he⟩, -⟩
      · rw [hok]
        exact fun f => ok_ne_crash f _
      · rw [he]
        exact Safe.noFault (@safe_fail _ _ _ fun _ => True)
    · rw [hover (Nat.lt_of_not_le hmax)]
      exact Safe.noFault (@safe_fail _ _ _ fun _ => True)

/-- A seekable archive of three frames. -/
def three_frames : Bytes :=
  three_blocks ++ three_blocks ++ [40, 181, 47, 253, 32, 1, 9, 0, 0, 97] ++
    [94, 42, 77, 24, 33, 0, 0, 0, 29, 0, 0, 0, 14, 0, 0, 0, 29, 0, 0, 0, 14, 0, 0, 0, 10, 0, 0, 0,
      1, 0,
      0, 0, 3, 0, 0, 0, 0, 177, 234, 146, 143]

def three_frames_table : SeekTable :=
  ⟨[⟨0, 29, 0, 14, none⟩, ⟨29, 29, 14, 14, none⟩, ⟨58, 10, 28, 1, none⟩]⟩

/-- `seekable_parallel_eq_serial` on an archive of three frames, decoded by two workers. -/
theorem seekable_parallel_eq_serial_three_frames :
    decompress_seekable_parallel_capped three_frames three_frames_table 2 29
      = .ok (three_blocks_content ++ three_blocks_content ++ [97]) := by
  have htable : SeekTable.parse three_frames = .ok three_frames_table := by rfl
  obtain ⟨total, htotal, heq, -⟩ :=
    @seekable_parallel_eq_serial _ three_frames _ 2 29 (by decide) htable
  obtain rfl : 29 = total := Except.ok.inj htotal
  obtain ⟨h0, h1, h2⟩ :
      decompress_seekable_frame three_frames three_frames_table 0 = .ok three_blocks_content ∧
      decompress_seekable_frame three_frames three_frames_table 1 = .ok three_blocks_content ∧
      decompress_seekable_frame three_frames three_frames_table 2 = .ok [97] := by decide +kernel
  obtain ⟨hiff, hparts⟩ := heq le_rfl
  obtain ⟨v, hv⟩ := hiff.mpr fun i (hi : i < 3) => by
    interval_cases i
    exacts [⟨_, h0⟩, ⟨_, h1⟩, ⟨_, h2⟩]
  obtain ⟨parts, hall, rfl⟩ := hparts v hv
  have hserial : List.Forall₂
      (fun i x => decompress_seekable_frame three_frames three_frames_table i = .ok x)
      (List.range three_frames_table.num_frames) [three_blocks_content, three_blocks_content,
        [97]] :=
    .cons h0 (.cons h1 (.cons h2 .nil))
  have hunique : Relator.RightUnique
      fun i x => decompress_seekable_frame three_frames three_frames_table i = .ok x :=
    fun _ _ _ hx hy => Except.ok.inj (hx.symm.trans hy)
  rw [hv, List.right_unique_forall₂' hunique hall hserial]
  rfl

end ZstdPure
