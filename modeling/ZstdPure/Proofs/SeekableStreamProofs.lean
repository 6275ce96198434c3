import ZstdPure.Proofs.FrameExtentProofs
import ZstdPure.Proofs.SeekableProofs

/-!
# A seekable archive as a plain stream

The indexed decode takes one frame from the front of each range of its table and never asks whether
the frame fills the range; the plain decode goes from frame to frame. The two agree when the frames
that the headers delimit are the frames of the table, skippable frames aside.
-/

namespace ZstdPure

open Outcome

/-! ## The frames of an archive -/

/-- The positions of the frames from `pos` on that are not skippable, by their headers; `n` bounds
the walk. -/
def frame_starts (archive : Bytes) : Nat → Nat → Option (List Nat)
  | 0, _ => none
  | n + 1, pos =>
    if archive.length ≤ pos then some []
    else
      match frame_extent (archive.drop pos) with
      | none => none
      | some len =>
        (frame_starts archive n (pos + len)).map fun starts =>
          if is_skippable (archive.drop pos) then starts else pos :: starts

/-- The positions of the frames of a table that are not skippable. -/
def table_starts (archive : Bytes) (frames : List SeekFrame) : List Nat :=
  (frames.map SeekFrame.compressed_offset).filter fun pos => !is_skippable (archive.drop pos)

/-- The headers of the archive delimit the frames of its table. -/
def SameFrames (archive : Bytes) (table : SeekTable) : Prop :=
  frame_starts archive (archive.length + 1) 0 = some (table_starts archive table.frames)

instance (archive : Bytes) (table : SeekTable) : Decidable (SameFrames archive table) :=
  inferInstanceAs (Decidable (_ = _))

/-- The frame at `pos` decodes to `x`, under every ceiling that `x` fits. -/
def HasContent (archive : Bytes) (pos : Nat) (x : Bytes) : Prop :=
  ∀ m, x.length ≤ m → ∃ f, decode_one (archive.drop pos) true m = .ok f ∧ f.data = x

section

variable {archive : Bytes} {frames : List SeekFrame}

/-- A frame that the indexed decode finds in its range is one the plain decode finds there. -/
theorem seek_frame_content {f : SeekFrame} {x : Bytes} (hsize : f.decompressed_size < 2 ^ 32)
    (h : seek_frame archive f = .ok x) : HasContent archive f.compressed_offset x := by
  rw [seek_frame, decode_seek_frame] at h
  obtain ⟨-, h⟩ := guard_eq_ok.mp h
  obtain ⟨-, h⟩ := guard_eq_ok.mp h
  obtain ⟨-, h⟩ := guard_eq_ok.mp h
  obtain ⟨bytes, hbytes, h⟩ := bind_eq_ok.mp h
  obtain ⟨decoded, hdecoded, h⟩ := bind_eq_ok.mp h
  obtain ⟨hwant, h⟩ := guard_eq_ok.mp h
  have hx : decoded.data = x := by
    cases hck : f.checksum with
    | none => rw [hck] at h; exact Except.ok.inj h
    | some expected =>
      rw [hck] at h
      obtain ⟨-, h⟩ := guard_eq_ok.mp h
      exact Except.ok.inj h
  obtain ⟨-, -, rfl⟩ := slice_eq_ok.mp hbytes
  have hpre : (archive.take (f.compressed_offset + f.compressed_size)).drop f.compressed_offset
      <+: archive.drop f.compressed_offset := by
    rw [List.drop_take]
    exact List.take_prefix _ _
  have hext := (decode_frame_delimited true f.decompressed_size none none).extend _ _ decoded hpre
    (Nat.zero_le _) hdecoded
  have husize : usizeMax = 2 ^ 64 - 1 := rfl
  intro m hm
  obtain ⟨f', hf', hdata, -⟩ :=
    decode_frame_ceiling hext (show decoded.data.length ≤ m by rw [hx]; exact hm)
    (by simp only [dictionary_len]; omega)
  exact ⟨f', hf', hdata.trans hx⟩

/-- The content of the frames of a table, without its skippable frames. -/
theorem table_starts_content {parts : List Bytes}
    (h : List.Forall₂ (fun f x => HasContent archive f.compressed_offset x) frames parts) :
    ∃ xs, List.Forall₂ (HasContent archive) (table_starts archive frames) xs ∧
      xs.flatten = parts.flatten := by
  induction h with
  | nil => exact ⟨[], .nil, rfl⟩
  | @cons f x frames parts hx _ ih =>
    obtain ⟨xs, hxs, hflat⟩ := ih
    rw [table_starts, List.map_cons]
    cases hs : is_skippable (archive.drop f.compressed_offset) with
    | false =>
      rw [List.filter_cons_of_pos (by rw [hs]; rfl)]
      exact ⟨x :: xs, .cons hx hxs, by rw [List.flatten_cons, List.flatten_cons, hflat]⟩
    | true =>
      rw [List.filter_cons_of_neg (by rw [hs]; decide)]
      obtain ⟨f', hf', rfl⟩ := hx x.length le_rfl
      rw [(frame_extent_of_decode hf').2 hs, List.flatten_cons, List.nil_append]
      exact ⟨xs, hxs, hflat⟩

/-- The walk over the frames ends, or passes one more frame. -/
theorem frame_starts_cases {n pos : Nat} {starts : List Nat}
    (h : frame_starts archive (n + 1) pos = some starts) :
    archive.length ≤ pos ∧ starts = [] ∨
      ∃ len rest, frame_extent (archive.drop pos) = some len ∧
        frame_starts archive n (pos + len) = some rest ∧
        starts = if is_skippable (archive.drop pos) then rest else pos :: rest := by
  rw [frame_starts] at h
  by_cases hpos : archive.length ≤ pos
  · rw [if_pos hpos] at h
    exact Or.inl ⟨hpos, (Option.some.inj h).symm⟩
  · rw [if_neg hpos] at h
    cases hlen : frame_extent (archive.drop pos) with
    | none =>
      rw [hlen] at h
      exact absurd h (by simp)
    | some len =>
      rw [hlen] at h
      obtain ⟨rest, hrest, hstarts⟩ := Option.map_eq_some_iff.mp h
      exact Or.inr ⟨len, rest, rfl, hrest, hstarts.symm⟩

/-- A skippable frame decodes to nothing and ends where its header says. -/
theorem decode_one_is_skippable {src : Bytes} {len : Nat} (hs : is_skippable src = true)
    (hlen : frame_extent src = some len) (m : Nat) :
    decode_one src true m = .ok ⟨[], len, []⟩ := by
  rw [is_skippable] at hs
  split at hs
  · rename_i k hfront
    have hdecode := decode_one_front_skippable hfront m
    have hk := (frame_extent_of_decode hdecode).1
    rw [hlen] at hk
    obtain rfl := Option.some.inj hk
    exact hdecode
  · exact absurd hs (by decide)

/-- The plain decode of frames with these contents. -/
theorem stream_run_of_starts : ∀ (n pos : Nat) {starts : List Nat} {xs : List Bytes} {m : Nat},
    frame_starts archive n pos = some starts → List.Forall₂ (HasContent archive) starts xs →
      xs.flatten.length ≤ m →
      StreamRun (fun s m => decode_one s true m) (archive.drop pos) m xs.flatten := by
  intro n
  induction n with
  | zero => intro pos starts xs m h; exact absurd h (by simp [frame_starts])
  | succ n ih =>
    intro pos starts xs m h hxs hm
    rcases frame_starts_cases h with ⟨hpos, rfl⟩ | ⟨len, rest, hlen, hrest, rfl⟩
    · cases hxs
      rw [List.drop_eq_nil_of_le hpos]
      exact .nil m
    cases hs : is_skippable (archive.drop pos) with
    | true =>
      rw [hs, if_pos rfl] at hxs
      have hrun := ih (pos + len) hrest hxs hm
      rw [← List.drop_drop] at hrun
      exact .frame (f := ⟨[], len, []⟩) (decode_one_is_skippable hs hlen m) hrun
    | false =>
      rw [hs, if_neg (by decide)] at hxs
      cases hxs with
      | @cons _ x _ xs hx hxs =>
        rw [List.flatten_cons, List.length_append] at hm
        obtain ⟨f, hf, rfl⟩ := hx m (by omega)
        have hk := (frame_extent_of_decode hf).1
        rw [hlen] at hk
        obtain rfl := Option.some.inj hk
        have hrun := @ih (pos + f.consumed) _ _ (m - f.data.length) hrest hxs (by omega)
        rw [← List.drop_drop] at hrun
        exact .frame hf hrun

/-- An indexed decode that succeeds decodes every frame of the table. -/
theorem seekable_parallel_parts {table : SeekTable} {n : Nat} {v : Bytes}
    (hlen : archive.length < 2 ^ 63) (htable : SeekTable.parse archive = .ok table)
    (h : decompress_seekable_parallel archive table n = .ok v) :
    ∃ parts, v = parts.flatten ∧
      List.Forall₂ (fun f x => HasContent archive f.compressed_offset x) table.frames parts := by
  obtain ⟨hindexed, hn⟩ := SeekTable.parse_ensures _ htable
  obtain ⟨htotal, -⟩ := SeekTable.decompressed_size_ok hindexed hn
  rw [decompress_seekable_parallel, htotal, bind_ok] at h
  obtain ⟨husize, h⟩ := guard_eq_ok.mp h
  rcases decompress_seekable_parallel_spec n hlen hindexed hn le_rfl with
    ⟨parts, hparts, hok⟩ | ⟨⟨e, he⟩, -⟩
  · obtain rfl := Except.ok.inj (hok.symm.trans h)
    have hall := (List.forall₂_and_left _ _).mpr ⟨hindexed.decompressed_size, hparts⟩
    exact ⟨parts, rfl, hall.imp fun f x hx => seek_frame_content hx.1 hx.2⟩
  · exact absurd (he.symm.trans h) (fail_ne_ok e v)

/-! ## Ranges that their frames fill -/

/-- The seek table is a skippable frame behind the ranges of its entries. -/
theorem SeekTable.parse_region : Ensures (SeekTable.parse archive) fun t =>
    ∃ start content, (t.frames.map SeekFrame.compressed_size).sum = start ∧
      start + (8 + content) = archive.length ∧ 8 + content ≤ usizeMax ∧
      read_u32_le archive start = .ok SEEK_TABLE_SKIPPABLE_MAGIC ∧
      read_u32_le archive (start + 4) = .ok content := by
  intro t ht
  unfold SeekTable.parse at ht
  obtain ⟨-, ht⟩ := guard_eq_ok.mp ht
  obtain ⟨magic, -, ht⟩ := bind_eq_ok.mp ht
  obtain ⟨-, ht⟩ := guard_eq_ok.mp ht
  obtain ⟨descriptor, -, ht⟩ := bind_eq_ok.mp ht
  obtain ⟨num_frames, -, ht⟩ := bind_eq_ok.mp ht
  obtain ⟨-, ht⟩ := guard_eq_ok.mp ht
  obtain ⟨husize, ht⟩ := guard_eq_ok.mp ht
  obtain ⟨hle, ht⟩ := guard_eq_ok.mp ht
  obtain ⟨skippable, hmagic, ht⟩ := bind_eq_ok.mp ht
  obtain ⟨hskip, ht⟩ := guard_eq_ok.mp ht
  obtain ⟨size, hsize, ht⟩ := bind_eq_ok.mp ht
  obtain ⟨hcontent, ht⟩ := guard_eq_ok.mp ht
  obtain ⟨s, hs, ht⟩ := bind_eq_ok.mp ht
  obtain ⟨hoff, ht⟩ := guard_eq_ok.mp ht
  obtain rfl := Except.ok.inj ht
  have hinv := SeekTable.parse_entries_inv s hs
  rw [not_not.mp hcontent] at hsize
  rw [not_not.mp hskip] at hmagic
  have h8 : SKIPPABLE_HEADER = 8 := rfl
  rw [h8] at husize hle hmagic hsize hoff
  refine ⟨_, _, hinv.comp_off.symm.trans (not_not.mp hoff), by omega, by omega, hmagic, hsize⟩

/-- The seek table ends the walk over the frames. -/
theorem frame_extent_seek_table {start content : Nat}
    (hlen : start + (8 + content) = archive.length) (husize : 8 + content ≤ usizeMax)
    (hmagic : read_u32_le archive start = .ok SEEK_TABLE_SKIPPABLE_MAGIC)
    (hsize : read_u32_le archive (start + 4) = .ok content) :
    is_skippable (archive.drop start) = true ∧
      frame_extent (archive.drop start) = some (8 + content) := by
  have hat : ∀ i, start + i + 4 ≤ archive.length →
      read_u32_le (archive.drop start) i = read_u32_le archive (start + i) := fun i hi => by
    obtain ⟨v, hv, hval, -⟩ := read_u32_le_ok (archive.drop start) i
      (by rw [List.length_drop]; omega)
    obtain ⟨w, hw, hval', -⟩ := read_u32_le_ok archive (start + i) hi
    rw [hv, hw, hval, hval', List.drop_drop]
  have hfront : decode_front (archive.drop start) true = .ok (.skippable (8 + content)) := by
    rw [decode_front, if_pos rfl, if_neg (by rw [List.length_drop]; omega), hat 0 (by omega),
      Nat.add_zero, hmagic, bind_ok, if_pos (by decide), if_neg (by rw [List.length_drop]; omega),
      hat 4 (by omega), hsize, bind_ok, if_neg (by omega), if_neg (by rw [List.length_drop]; omega)]
    rfl
  exact ⟨by rw [is_skippable, hfront], by rw [frame_extent, hfront]⟩

/-- The walk over ranges that their frames fill. -/
theorem frame_starts_filled {start : Nat} (hlt : start < archive.length)
    (hskip : is_skippable (archive.drop start) = true)
    (hend : frame_extent (archive.drop start) = some (archive.length - start)) :
    ∀ (frames : List SeekFrame) (n pos : Nat),
      (∀ i f, frames[i]? = some f →
        f.compressed_offset = pos + ((frames.take i).map SeekFrame.compressed_size).sum) →
      (∀ f ∈ frames, frame_extent (archive.drop f.compressed_offset) = some f.compressed_size) →
      pos + (frames.map SeekFrame.compressed_size).sum = start → archive.length - pos < n →
      frame_starts archive n pos = some (table_starts archive frames) := by
  intro frames
  induction frames with
  | nil =>
    intro n pos _ _ hsum hn
    obtain rfl : pos = start := by simpa using hsum
    obtain ⟨n, rfl⟩ := Nat.exists_eq_add_of_le' (show 2 ≤ n by omega)
    rw [frame_starts, if_neg (by omega), hend]
    dsimp only
    rw [frame_starts, if_pos (by omega), Option.map_some, hskip, if_pos rfl]
    rfl
  | cons f frames ih =>
    intro n pos hoff hfill hsum hn
    obtain ⟨n, rfl⟩ := Nat.exists_eq_succ_of_ne_zero (Nat.ne_zero_of_lt hn)
    have hpos : f.compressed_offset = pos := by simpa using hoff 0 f rfl
    have hext := hfill f List.mem_cons_self
    have hsize := frame_extent_pos hext
    rw [hpos] at hext
    rw [List.map_cons, List.sum_cons] at hsum
    have hrest := ih n (pos + f.compressed_size) (fun i g hg => by
        have := hoff (i + 1) g (by simpa using hg)
        rw [this, List.take_succ_cons, List.map_cons, List.sum_cons, Nat.add_assoc])
      (fun g hg => hfill g (List.mem_cons_of_mem _ hg)) (by omega) (by omega)
    rw [frame_starts, if_neg (by omega), hext]
    dsimp only
    rw [hrest, Option.map_some, table_starts, table_starts, List.map_cons, hpos]
    cases hs : is_skippable (archive.drop pos) with
    | true => rw [if_pos rfl, List.filter_cons_of_neg (by rw [hs]; decide)]
    | false => rw [if_neg (by decide), List.filter_cons_of_pos (by rw [hs]; rfl)]

/-- Where every frame fills its range, the archive delimits the frames of its table. -/
theorem same_frames_of_filled {table : SeekTable} (htable : SeekTable.parse archive = .ok table)
    (hfill : ∀ f ∈ table.frames,
      frame_extent (archive.drop f.compressed_offset) = some f.compressed_size) :
    SameFrames archive table := by
  obtain ⟨start, content, hsum, hlen, husize, hmagic, hsize⟩ := SeekTable.parse_region _ htable
  obtain ⟨hskip, hend⟩ := frame_extent_seek_table hlen husize hmagic hsize
  refine frame_starts_filled (by omega) hskip (by rw [hend]; congr 1; omega) _ _ 0
    (fun i f hf => ?_) hfill (by omega) (by omega)
  rw [(SeekTable.parse_ensures _ htable).1.compressed_offset i f hf, Nat.zero_add]

end

/-- Where the headers of an archive delimit the frames of its table, the plain decode returns what
the indexed one does, under every ceiling that it fits. -/
theorem indexed_eq_plain_of_same_frames (archive : Bytes) (table : SeekTable) (n : Nat) (v : Bytes)
    (hlen : archive.length < 2 ^ 63) (htable : SeekTable.parse archive = .ok table)
    (h : decompress_seekable_parallel archive table n = .ok v) (hsame : SameFrames archive table) :
    ∀ m, v.length ≤ m → decompress_capped archive m = .ok v := by
  intro m hm
  obtain ⟨parts, rfl, hparts⟩ := seekable_parallel_parts hlen htable h
  obtain ⟨xs, hxs, hflat⟩ := table_starts_content hparts
  rw [← hflat] at hm ⊢
  have hrun := stream_run_of_starts _ 0 hsame hxs hm
  rw [List.drop_zero] at hrun
  exact hrun.decompress_capped hlen

/-- `indexed_eq_plain_of_same_frames` on an archive of three frames. -/
theorem indexed_eq_plain_three_frames :
    decompress_capped three_frames 30 = .ok (three_blocks_content ++ three_blocks_content ++
      [97]) := by
  have htable : SeekTable.parse three_frames = .ok three_frames_table := by rfl
  have hindexed : decompress_seekable_parallel three_frames three_frames_table 2
      = .ok (three_blocks_content ++ three_blocks_content ++ [97]) := by decide +kernel
  exact indexed_eq_plain_of_same_frames three_frames three_frames_table 2 _ (by decide) htable
    hindexed
    (by decide) 30 (by decide)

-- the two decodes also agree where a range ends with a frame of no bytes, which the headers see
example :
    let archive : Bytes := [40, 181, 47, 253, 32, 1, 9, 0, 0, 97, 40, 181, 47, 253, 32, 0, 1, 0, 0,
      94,
      42, 77, 24, 17, 0, 0, 0, 19, 0, 0, 0, 1, 0, 0, 0, 1, 0, 0, 0, 0, 177, 234, 146, 143]
    let table : SeekTable := ⟨[⟨0, 19, 0, 1, none⟩]⟩
    SeekTable.parse archive = .ok table ∧ decompress_seekable_parallel archive table 1 = .ok [97] ∧
      decompress_capped archive 1 = .ok [97] ∧ ¬ SameFrames archive table := by
  decide +kernel

/-- An archive whose only range holds two frames: the indexed decode sees the first one, the plain
decode both. -/
def two_frames_in_range : Bytes :=
  [40, 181, 47, 253, 32, 1, 9, 0, 0, 97, 40, 181, 47, 253, 32, 1, 9, 0, 0, 98, 94, 42, 77, 24, 17,
    0, 0, 0, 20, 0, 0, 0, 1, 0, 0, 0, 1, 0, 0, 0, 0, 177, 234, 146, 143]

/-- The two decodes of an archive can differ. -/
theorem indexed_ne_plain :
    ¬ ∀ archive table n v, SeekTable.parse archive = .ok table →
      decompress_seekable_parallel archive table n = .ok v →
        ∀ m, v.length ≤ m → decompress_capped archive m = .ok v := by
  intro h
  have hplain : decompress_capped two_frames_in_range 2 = .ok [97, 98] := by rfl
  have hsame := h two_frames_in_range ⟨[⟨0, 20, 0, 1, none⟩]⟩ 1 [97] (by rfl) (by rfl) 2 (by decide)
  rw [hplain] at hsame
  exact absurd (Except.ok.inj hsame) (by decide)

end ZstdPure
