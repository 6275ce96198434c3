import ZstdPure.Encode.Seekable
import ZstdPure.Proofs.MultiFrameProofs
import ZstdPure.Proofs.SeekTableProofs

/-!
# Proofs: seekable archives

An archive holds one frame for each chunk of the data, and a table that finds them.
-/

namespace ZstdPure.Encode

open Outcome XxHash SeekTable

/-! ## The chunks -/

section Chunks

variable {level : Int} {checksum : Bool} {chunks : List Bytes}

/-- The frame of a chunk. -/
def chunk_frame (level : Int) (chunk : Bytes) : Bytes := compress chunk level false true

/-- The entry of a chunk. -/
def chunk_entry (level : Int) (checksum : Bool) (chunk : Bytes) : SeekEntry :=
  ((chunk_frame level chunk).length, chunk.length,
    if checksum then (xxh64 chunk 0).toNat % 2 ^ 32 else 0)

theorem seek_entry_fields_mk (checksum : Bool) (cs ds sum : Nat) :
    seek_entry_fields checksum (cs, ds, if checksum then sum else 0) =
      (cs, ds, if checksum then some sum else none) := by
  cases checksum <;> rfl

theorem chunk_entry_fields (level : Int) (checksum : Bool) (chunk : Bytes) :
    seek_entry_fields checksum (chunk_entry level checksum chunk) =
      ((chunk_frame level chunk).length, chunk.length,
        if checksum then some ((xxh64 chunk 0).toNat % 2 ^ 32) else none) :=
  seek_entry_fields_mk checksum _ _ _

theorem length_chunk_frame_lt (level : Int) {chunk : Bytes} (h : chunk.length < 2 ^ 31) :
    (chunk_frame level chunk).length < 2 ^ 32 := by
  have hmax : BLOCK_SIZE_MAX = 131072 := rfl
  have hle := length_compress_le chunk level false true
  rw [hmax] at hle
  rw [chunk_frame]
  omega

theorem chunk_entry_fits (level : Int) (checksum : Bool) {chunk : Bytes}
    (h : chunk.length < 2 ^ 31) :
    SeekEntryFits (chunk_entry level checksum chunk) := by
  refine ⟨length_chunk_frame_lt level h, h.trans (by decide), ?_⟩
  unfold chunk_entry
  dsimp only
  split_ifs
  · exact Nat.mod_lt _ (by decide)
  · exact Nat.two_pow_pos _

/-- Every chunk adds its frame and its entry. -/
theorem add_frames_ok (h : ∀ c ∈ chunks, c.length < 2 ^ 31) : ∀ s : Bytes × List SeekEntry,
    chunks.foldlM (add_frame level checksum) s =
      .ok (s.1 ++ (chunks.map (chunk_frame level)).flatten,
      s.2 ++ chunks.map (chunk_entry level checksum)) := by
  induction chunks with
  | nil =>
    intro s
    rw [List.map_nil, List.map_nil, List.flatten_nil, List.append_nil, List.append_nil]
    rfl
  | cons c chunks ih =>
    intro s
    have hc := h c List.mem_cons_self
    have hframe := length_chunk_frame_lt level hc
    have hadd : add_frame level checksum s c =
        .ok (s.1 ++ chunk_frame level c, s.2 ++ [chunk_entry level checksum c]) := by
      rw [chunk_frame] at hframe
      unfold add_frame
      dsimp only
      rw [if_neg (by omega), if_neg (by omega)]
      rfl
    rw [List.foldlM_cons, hadd, bind_ok, ih fun c' hc' => h c' (List.mem_cons_of_mem _ hc')]
    simp only [List.map_cons, List.flatten_cons, List.append_assoc, List.singleton_append]

theorem write_seek_table_ok {out : Bytes} {es : List SeekEntry}
    (h : es.length * (if checksum then 12 else 8) + 9 < 2 ^ 32) :
    ∃ archive, write_seek_table out es checksum = .ok archive := by
  have h9 : FOOTER_SIZE = 9 := rfl
  have hn : es.length < 2 ^ 32 := by split_ifs at h <;> omega
  unfold write_seek_table
  dsimp only
  rw [mul_ok (by omega), bind_ok, h9, add_ok (by omega), bind_ok, if_neg (by omega),
    if_neg (by omega)]
  exact ⟨_, rfl⟩

end Chunks

/-! ## The archive -/

/-- An archive of some chunks, and its table. -/
structure ArchiveOf (level : Int) (checksum : Bool) (chunks : List Bytes) (archive : Bytes)
    (table : SeekTable) : Prop where
  small : ∀ c ∈ chunks, c.length < 2 ^ 31
  parse : SeekTable.parse archive = .ok table
  fields : table.frames.map SeekFrame.fields =
    (chunks.map (chunk_entry level checksum)).map (seek_entry_fields checksum)
  bytes : ∃ body, body.length < 2 ^ 32 ∧
    archive = (chunks.map (chunk_frame level)).flatten ++ skippable_frame 14 body
  length : archive.length < 2 ^ 61

section Archive

variable {level : Int} {checksum : Bool} {chunks : List Bytes} {archive : Bytes} {table : SeekTable}

theorem ArchiveOf.of_write (hsmall : ∀ c ∈ chunks, c.length < 2 ^ 31)
    (h : write_seek_table (chunks.map (chunk_frame level)).flatten
      (chunks.map (chunk_entry level checksum)) checksum = .ok archive) :
    ∃ table, ArchiveOf level checksum chunks archive table := by
  have hfits : ∀ e ∈ chunks.map (chunk_entry level checksum), SeekEntryFits e := by
    intro e he
    obtain ⟨c, hc, rfl⟩ := List.mem_map.mp he
    exact chunk_entry_fits level checksum (hsmall c hc)
  have hsum : (chunks.map (chunk_frame level)).flatten.length =
      ((chunks.map (chunk_entry level checksum)).map Prod.fst).sum := by
    rw [List.length_flatten, List.map_map, List.map_map]
    rfl
  obtain ⟨table, hparse, hfields⟩ := parse_write_seek_table hfits hsum h
  obtain ⟨hcontent, harchive⟩ := write_seek_table_eq h
  have hentries := length_flatMap_entries checksum (chunks.map (chunk_entry level checksum))
  have hwords := sum_words_le fun e he => (hfits e he).compressed_size
  rw [← hsum] at hwords
  generalize chunks.map (chunk_entry level checksum) = es at hcontent harchive hentries hwords
  have hn : 8 * es.length + 9 < 2 ^ 32 := by split_ifs at hcontent <;> omega
  obtain ⟨body, hbody⟩ : ∃ body, body = es.flatMap (seek_entry_bytes checksum) ++
      leBytes 4 es.length ++ [if checksum then 0x80 else 0] ++ leBytes 4 SEEKABLE_MAGIC := ⟨_, rfl⟩
  have hlen : body.length = es.length * (if checksum then 12 else 8) + 9 := by
    rw [hbody]
    simp only [List.length_append, length_leBytes, hentries, List.length_singleton]
  have hbytes : archive = (chunks.map (chunk_frame level)).flatten ++ skippable_frame 14 body := by
    have hmagic : SKIPPABLE_MAGIC + ((14 : Fin 16) : Nat) = SEEK_TABLE_SKIPPABLE_MAGIC := rfl
    rw [skippable_frame, hlen, hmagic, hbody, harchive]
    simp only [List.append_assoc]
  refine ⟨table, hsmall, hparse, hfields, ⟨body, by omega, hbytes⟩, ?_⟩
  rw [hbytes, List.length_append, length_skippable_frame]
  omega

theorem ArchiveOf.length_frames (h : ArchiveOf level checksum chunks archive table) :
    table.frames.length = chunks.length := by
  have hlen := congrArg List.length h.fields
  rwa [List.length_map, List.length_map, List.length_map] at hlen

/-- The frames of a table are those of the chunks. -/
theorem ArchiveOf.frame (h : ArchiveOf level checksum chunks archive table) {i : Nat}
    {f : SeekFrame}
    (hf : table.frames[i]? = some f) :
    ∃ c, chunks[i]? = some c ∧ f.compressed_size = (chunk_frame level c).length ∧
      f.decompressed_size = c.length ∧
      f.checksum = if checksum then some ((xxh64 c 0).toNat % 2 ^ 32) else none := by
  have hi := congrArg (fun l => l[i]?) h.fields
  simp only [List.getElem?_map, hf, Option.map_some] at hi
  cases hc : chunks[i]? with
  | none =>
    rw [hc] at hi
    simp at hi
  | some c =>
    rw [hc, Option.map_some, Option.map_some, chunk_entry_fields] at hi
    obtain ⟨hcs, hi⟩ := Prod.mk.inj (Option.some.inj hi)
    obtain ⟨hds, hck⟩ := Prod.mk.inj hi
    exact ⟨c, rfl, hcs, hds, hck⟩

theorem ArchiveOf.sizes (h : ArchiveOf level checksum chunks archive table) (i : Nat) :
    ((table.frames.take i).map SeekFrame.compressed_size).sum =
        ((chunks.map (chunk_frame level)).take i).flatten.length ∧
      decompressed_bytes (table.frames.take i) = (chunks.take i).flatten.length := by
  have hcs : table.frames.map SeekFrame.compressed_size =
      chunks.map fun c => (chunk_frame level c).length := by
    have hmap := congrArg (List.map Prod.fst) h.fields
    rwa [List.map_map, List.map_map, List.map_map] at hmap
  have hds : table.frames.map SeekFrame.decompressed_size = chunks.map List.length := by
    have hmap := congrArg (List.map fun e => e.2.1) h.fields
    rwa [List.map_map, List.map_map, List.map_map] at hmap
  rw [decompressed_bytes, List.map_take, List.map_take, hcs, hds, List.length_flatten,
    List.length_flatten, ← List.map_take, ← List.map_take, ← List.map_take, List.map_map]
  exact ⟨rfl, rfl⟩

/-- Every frame of the table is decoded to its chunk. -/
theorem ArchiveOf.decode_frame (h : ArchiveOf level checksum chunks archive table) {i : Nat}
    {f : SeekFrame} (hf : table.frames[i]? = some f) {c : Bytes} (hc : chunks[i]? = some c) :
    seek_frame archive f = .ok c := by
  obtain ⟨hindexed, -⟩ := SeekTable.parse_ensures _ h.parse
  obtain ⟨c', hc', hcs, hds, hck⟩ := h.frame hf
  obtain rfl := Option.some.inj (hc.symm.trans hc')
  have hoffset := (hindexed.compressed_offset i f hf).trans (h.sizes i).1
  have hframe : (chunks.map (chunk_frame level))[i]? = some (chunk_frame level c) := by
    rw [List.getElem?_map, hc]
    rfl
  obtain ⟨body, -, hbytes⟩ := h.bytes
  have harchive := List.flatten_around hframe
  rw [harchive, List.append_assoc, List.append_assoc] at hbytes
  have hlen := h.length
  have hfit : f.compressed_offset + f.compressed_size ≤ archive.length := by
    rw [hbytes, hoffset, hcs, List.length_append, List.length_append]
    omega
  have hslice : (slice archive f.compressed_offset (f.compressed_offset + f.compressed_size) :
    Res Bytes) =
      .ok (chunk_frame level c) := by
    rw [slice_ok (Nat.le_add_right _ _) hfit, ← List.take_drop, hbytes, hoffset, hcs,
      List.drop_left,
      List.take_left]
  have hcmem := h.small c (List.mem_of_getElem? hc)
  obtain ⟨matches_, hdecode, -⟩ := @decode_compress c [] c.length level false true hcmem (by decide)
    (le_refl _) none (.unlimited _)
  rw [List.append_nil] at hdecode
  have husize : usizeMax = 2 ^ 64 - 1 := rfl
  unfold seek_frame decode_seek_frame
  dsimp only
  rw [if_neg (by omega), if_neg (by omega), if_neg (by omega), hslice, bind_ok, hds]
  have hone : decode_one (chunk_frame level c) true c.length =
      .ok ⟨c, (compress c level false true).length, matches_⟩ := hdecode
  rw [hone, bind_ok, if_neg (not_not.mpr rfl), hck]
  cases checksum
  · rfl
  · exact if_neg (not_not.mpr rfl)

/-- Plain decoding of the archive. -/
theorem ArchiveOf.decompress (h : ArchiveOf level checksum chunks archive table) {m : Nat}
    (hmax : chunks.flatten.length ≤ m) : decompress_capped archive m = .ok chunks.flatten := by
  obtain ⟨body, hbody, hbytes⟩ := h.bytes
  have hlen := h.length
  obtain ⟨frames, hframes⟩ : ∃ frames : List (Bytes × Bytes), frames =
      chunks.map (fun c => (chunk_frame level c, c)) ++ [(skippable_frame 14 body, [])] := ⟨_, rfl⟩
  have hfst : (frames.map Prod.fst).flatten = archive := by
    rw [hframes, List.map_append, List.map_map, List.flatten_append, hbytes]
    simp [Function.comp_def]
  have hsnd : (frames.map Prod.snd).flatten = chunks.flatten := by
    rw [hframes, List.map_append, List.map_map, List.flatten_append]
    simp [Function.comp_def]
  have hwritten : ∀ p ∈ frames, WrittenFrame false p.1 p.2 := by
    intro p hp
    rw [hframes] at hp
    rcases List.mem_append.mp hp with hp | hp
    · obtain ⟨c, hc, rfl⟩ := List.mem_map.mp hp
      exact .compress level false (h.small c hc)
    · rw [List.mem_singleton.mp hp]
      exact .skippable 14 hbody
  have hdecode := @decode_stream_frames _ (decode_frame_decoder true none none) frames
    (fun p hp rest m hrest hm => (hwritten p hp).decode (.unlimited _) (fun _ => rfl) hrest hm) m
    (by rw [hfst]; exact hlen) (by rw [hsnd]; exact hmax)
  rw [hfst, hsnd] at hdecode
  exact hdecode

/-- Decoding the archive with any number of workers. -/
theorem ArchiveOf.parallel (h : ArchiveOf level checksum chunks archive table) (n_jobs : Nat)
    {m : Nat}
    (hmax : chunks.flatten.length ≤ m) :
    decompress_seekable_parallel_capped archive table n_jobs m = .ok chunks.flatten := by
  obtain ⟨hindexed, hn⟩ := SeekTable.parse_ensures _ h.parse
  have htotal := (h.sizes table.frames.length).2
  rw [List.take_length, h.length_frames, List.take_length] at htotal
  have hlen := h.length
  rcases decompress_seekable_parallel_spec n_jobs (hlen.trans (by decide)) hindexed hn
      (htotal.trans_le hmax) with
    ⟨parts, hparts, hok⟩ | ⟨-, f, hf, e, hfail⟩
  · rw [hok]
    have heq : parts = chunks := by
      refine List.ext_getElem (hparts.length_eq.symm.trans h.length_frames) fun i hi hi' => ?_
      have hif : i < table.frames.length := by
        rw [h.length_frames]
        exact hi'
      have hpart := hparts.get hif hi
      have hchunk := h.decode_frame (List.getElem?_eq_getElem hif) (List.getElem?_eq_getElem hi')
      exact Except.ok.inj (hpart.symm.trans hchunk)
    rw [heq]
  · -- no frame fails
    obtain ⟨i, hi, rfl⟩ := List.getElem_of_mem hf
    obtain ⟨c, hc, -⟩ := h.frame (List.getElem?_eq_getElem hi)
    exact absurd (hfail.symm.trans (h.decode_frame (List.getElem?_eq_getElem hi) hc))
      (fail_ne_ok e c)

/-- Looking up an offset, and decoding the frame found. -/
theorem ArchiveOf.lookup (h : ArchiveOf level checksum chunks archive table) {offset : Nat}
    (hlt : offset < chunks.flatten.length) :
    ∃ i f x, table.frame_for_offset offset = .ok (some i) ∧ table.frames[i]? = some f ∧
      decompress_seekable_frame archive table i = .ok x ∧ f.decompressed_offset ≤ offset ∧
      x[offset - f.decompressed_offset]? = chunks.flatten[offset]? := by
  obtain ⟨hindexed, hn⟩ := SeekTable.parse_ensures _ h.parse
  have htotal := (h.sizes table.frames.length).2
  rw [List.take_length, h.length_frames, List.take_length] at htotal
  obtain ⟨i, hi, hfind, honly⟩ := SeekTable.frame_for_offset_some hindexed hn
    (hlt.trans_eq htotal.symm)
  have hf := List.getElem?_eq_getElem hi
  obtain ⟨hlow, hhigh⟩ := (honly i _ hf).mpr rfl
  obtain ⟨c, hc, -, hsize, -⟩ := h.frame hf
  refine ⟨i, table.frames[i], c, hfind, hf,
    decompress_seekable_frame_eq_ok.mpr ⟨_, hf, h.decode_frame hf hc⟩, hlow, ?_⟩
  have hoffset := (hindexed.decompressed_offset i _ hf).trans (h.sizes i).2
  have hat := @List.getElem?_flatten_around _ _ _ _ hc
    (offset - table.frames[i].decompressed_offset)
    (by omega)
  rw [← hoffset, Nat.add_sub_cancel' hlow] at hat
  exact hat.symm

/-- Where the frames lie, and where their content lies. -/
theorem ArchiveOf.ranges (h : ArchiveOf level checksum chunks archive table) :
    Contiguous table.compressed_ranges 0 (chunks.map (chunk_frame level)).flatten.length ∧
      Contiguous table.decompressed_ranges 0 chunks.flatten.length := by
  obtain ⟨hindexed, -⟩ := SeekTable.parse_ensures _ h.parse
  obtain ⟨hcs, hds⟩ := h.sizes table.frames.length
  rw [List.take_length, h.length_frames] at hcs hds
  rw [List.take_of_length_le (List.length_map _).le] at hcs
  rw [List.take_length] at hds
  rw [← hcs, ← hds]
  exact ⟨hindexed.compressed_ranges, hindexed.decompressed_ranges⟩

theorem ArchiveOf.index (h : ArchiveOf level checksum chunks archive table) {i : Nat} {c : Bytes}
    (hc : chunks[i]? = some c) : decompress_seekable_frame archive table i = .ok c := by
  have hi : i < table.frames.length := by
    rw [h.length_frames]
    exact (List.getElem?_eq_some_iff.mp hc).1
  have hf := List.getElem?_eq_getElem hi
  exact decompress_seekable_frame_eq_ok.mpr ⟨_, hf, h.decode_frame hf hc⟩

/-- The table is the rest of the archive. -/
theorem ArchiveOf.table_frame (h : ArchiveOf level checksum chunks archive table) :
    decode_front (archive.drop (chunks.map (chunk_frame level)).flatten.length) true =
      .ok (.skippable (archive.length - (chunks.map (chunk_frame level)).flatten.length)) := by
  obtain ⟨body, hbody, hbytes⟩ := h.bytes
  have hrest : archive.length - (chunks.map (chunk_frame level)).flatten.length =
      (skippable_frame 14 body).length := by
    rw [hbytes, List.length_append, Nat.add_sub_cancel_left]
  rw [hrest, hbytes, List.drop_left, decode_front_skippable_frame 14 hbody, length_skippable_frame]

end Archive

/-! ## Writing and reading back -/

theorem compress_seekable_eq {data : Bytes} (hdata : data.length < 2 ^ 31) (frame_size : Nat)
    (level : Int) (checksum : Bool) :
    (∀ c ∈ data.chunks (max frame_size 1), c.length < 2 ^ 31) ∧
    compress_seekable data frame_size level checksum =
      write_seek_table ((data.chunks (max frame_size 1)).map (chunk_frame level)).flatten
        ((data.chunks (max frame_size 1)).map (chunk_entry level checksum)) checksum := by
  have hpos : 0 < max frame_size 1 := lt_max_of_lt_right Nat.one_pos
  have hsmall : ∀ c ∈ data.chunks (max frame_size 1), c.length < 2 ^ 31 := by
    intro c hc
    have hle := (List.sublist_flatten_of_mem hc).length_le
    rw [List.flatten_chunks hpos] at hle
    omega
  refine ⟨hsmall, ?_⟩
  unfold compress_seekable
  dsimp only
  rw [add_frames_ok hsmall, bind_ok, List.nil_append, List.nil_append]

/-- An archive is written if its table fits the format. -/
theorem compress_seekable_ok {data : Bytes} (hdata : data.length < 2 ^ 31) (frame_size : Nat)
    (level : Int)
    (checksum : Bool) (hfit : (data.length + max frame_size 1 - 1) / max frame_size 1 *
      (if checksum then 12 else 8) + 9 < 2 ^ 32) :
    ∃ archive, compress_seekable data frame_size level checksum = .ok archive := by
  rw [(compress_seekable_eq hdata frame_size level checksum).2]
  refine write_seek_table_ok ?_
  rw [List.length_map, List.length_chunks (lt_max_of_lt_right Nat.one_pos)]
  exact hfit

/-- An archive is written exactly if its table fits the format. Its table is parsed back, with
ranges that tile the archive and the data; random access by index gives the chunks, and by offset
the bytes; and the data is what plain decoding gives, and decoding with any number of workers. -/
theorem seekable_round_trip {data : Bytes} (hdata : data.length < 2 ^ 31) (frame_size : Nat)
    (level : Int) (checksum : Bool) :
    let n := max frame_size 1
    ((∃ archive, compress_seekable data frame_size level checksum = .ok archive) ↔
      (data.length + n - 1) / n * (if checksum then 12 else 8) + 9 < 2 ^ 32) ∧
    ∀ archive, compress_seekable data frame_size level checksum = .ok archive →
      ∃ table start, SeekTable.parse archive = .ok table ∧
        table.num_frames = (data.length + n - 1) / n ∧
        Contiguous table.compressed_ranges 0 start ∧
        is_skippable (archive.drop start) = true ∧
        Contiguous table.decompressed_ranges 0 data.length ∧
        (∀ i c, (data.chunks n)[i]? = some c → decompress_seekable_frame archive table i = .ok c) ∧
        (∀ m, data.length ≤ m → decompress_capped archive m = .ok data ∧
          ∀ n_jobs, decompress_seekable_parallel_capped archive table n_jobs m = .ok data) ∧
        ∀ offset < data.length, ∃ i f x, table.frame_for_offset offset = .ok (some i) ∧
          table.frames[i]? = some f ∧ decompress_seekable_frame archive table i = .ok x ∧
          f.decompressed_offset ≤ offset ∧ x[offset - f.decompressed_offset]? = data[offset]? := by
  intro n
  have hpos : 0 < n := lt_max_of_lt_right Nat.one_pos
  obtain ⟨hsmall, heq⟩ := compress_seekable_eq hdata frame_size level checksum
  have hcount := List.length_chunks hpos data
  have hflat := List.flatten_chunks hpos data
  constructor
  · refine ⟨fun ⟨_, h⟩ => ?_, compress_seekable_ok hdata frame_size level checksum⟩
    rw [heq] at h
    rw [← hcount, ← List.length_map (chunk_entry level checksum)]
    exact (write_seek_table_eq h).1
  · intro archive harchive
    rw [heq] at harchive
    obtain ⟨table, h⟩ := ArchiveOf.of_write hsmall harchive
    obtain ⟨hcs, hds⟩ := h.ranges
    rw [hflat] at hds
    refine ⟨table, _, h.parse, h.length_frames.trans hcount, hcs, ?_, hds, fun i c hc => h.index hc,
      ?_, ?_⟩
    · rw [is_skippable, h.table_frame]
    · intro m hm
      rw [← hflat] at hm
      have hplain := h.decompress hm
      rw [hflat] at hplain
      refine ⟨hplain, fun n_jobs => ?_⟩
      have hparallel := h.parallel n_jobs hm
      rw [hflat] at hparallel
      exact hparallel
    · intro offset hoffset
      rw [← hflat] at hoffset
      obtain ⟨i, f, c, hfind, hf, hdecode, hlow, hat⟩ := h.lookup hoffset
      rw [hflat] at hat
      exact ⟨i, f, c, hfind, hf, hdecode, hlow, hat⟩

/-- Of every archive that is written, the table has a frame for each chunk, the ranges of the frames
tile the bytes before the table and the data, and what is read by index, as a whole and by offset is
the data. -/
theorem seekable_archive_exact {data archive : Bytes} (hdata : data.length < 2 ^ 31)
    (frame_size : Nat)
    (level : Int) (checksum : Bool)
    (harchive : compress_seekable data frame_size level checksum = .ok archive) :
    let n := max frame_size 1
    ∃ table start, SeekTable.parse archive = .ok table ∧
      table.num_frames = (data.length + n - 1) / n ∧
      Contiguous table.compressed_ranges 0 start ∧
      decode_front (archive.drop start) true = .ok (.skippable (archive.length - start)) ∧
      Contiguous table.decompressed_ranges 0 data.length ∧
      (∀ i c, (data.chunks n)[i]? = some c → decompress_seekable_frame archive table i = .ok c) ∧
      decompress_capped archive data.length = .ok data ∧
      ∀ offset < data.length, ∃ i f x, table.frame_for_offset offset = .ok (some i) ∧
        table.frames[i]? = some f ∧ decompress_seekable_frame archive table i = .ok x ∧
        f.decompressed_offset ≤ offset ∧ x[offset - f.decompressed_offset]? = data[offset]? := by
  intro n
  have hpos : 0 < n := lt_max_of_lt_right Nat.one_pos
  obtain ⟨hsmall, heq⟩ := compress_seekable_eq hdata frame_size level checksum
  have hflat := List.flatten_chunks hpos data
  rw [heq] at harchive
  obtain ⟨table, h⟩ := ArchiveOf.of_write hsmall harchive
  obtain ⟨hcs, hds⟩ := h.ranges
  have hplain := h.decompress (le_refl _)
  have hlookup := @ArchiveOf.lookup _ _ _ _ _ h
  rw [hflat] at hds hplain hlookup
  exact ⟨table, _, h.parse, h.length_frames.trans (List.length_chunks hpos data), hcs,
    h.table_frame, hds,
    fun i c hc => h.index hc, hplain, fun offset hoffset => hlookup hoffset⟩

/-- Seven bytes in frames of three. -/
theorem seekable_archive_exact_seven :
    ∃ archive table, compress_seekable [1, 2, 3, 4, 5, 6, 7] 3 3 true = .ok archive ∧
      SeekTable.parse archive = .ok table ∧ table.num_frames = 3 ∧
      decompress_seekable_frame archive table 1 = .ok [4, 5, 6] ∧
      decompress_capped archive 7 = .ok [1, 2, 3, 4, 5, 6, 7] ∧
      ∃ i f x, table.frame_for_offset 6 = .ok (some i) ∧ table.frames[i]? = some f ∧
        decompress_seekable_frame archive table i = .ok x ∧
        f.decompressed_offset ≤ 6 ∧ x[6 - f.decompressed_offset]? = some 7 := by
  obtain ⟨archive, harchive⟩ := @compress_seekable_ok [1, 2, 3, 4, 5, 6, 7] (by decide) 3 3 true
    (by decide)
  obtain ⟨table, start, hparse, hcount, -, -, -, hindex, hplain, hlookup⟩ :=
    seekable_archive_exact (by decide) 3 3 true harchive
  have hchunk : (List.chunks (max 3 1) ([1, 2, 3, 4, 5, 6, 7] : Bytes))[1]? = some [4, 5, 6] := by
    decide +kernel
  exact ⟨archive, table, harchive, hparse, hcount, hindex 1 _ hchunk, hplain, hlookup 6 (by decide)⟩

/-- Three bytes in frames of two. -/
theorem seekable_round_trip_three :
    ∃ archive table, compress_seekable [1, 2, 3] 2 3 true = .ok archive ∧
      SeekTable.parse archive = .ok table ∧ decompress_seekable_frame archive table 1 = .ok [3] ∧
      decompress_seekable_parallel_capped archive table 9 3 = .ok [1, 2, 3] := by
  obtain ⟨hwritten, hback⟩ := @seekable_round_trip [1, 2, 3] (by decide) 2 3 true
  obtain ⟨archive, harchive⟩ := hwritten.mpr (by decide)
  obtain ⟨table, -, hparse, -, -, -, -, hindex, hwhole, -⟩ := hback archive harchive
  have hchunk : (List.chunks (max 2 1) ([1, 2, 3] : Bytes))[1]? = some [3] := by decide +kernel
  exact ⟨archive, table, harchive, hparse, hindex 1 [3] hchunk, (hwhole 3 (by decide)).2 9⟩

end ZstdPure.Encode
