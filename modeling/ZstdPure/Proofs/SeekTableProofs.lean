import ZstdPure.Proofs.SeekableStreamProofs

/-!
# Seek tables

A table that parses describes ranges that follow each other, in the archive and in its content; an
offset is looked up in them by binary search; and a written table is parsed back.
-/

namespace ZstdPure

open Outcome

/-- The sum of sizes that fit 32 bits. -/
theorem sum_words_le {α : Type} {xs : List α} {size : α → Nat} (h : ∀ x ∈ xs, size x < 2 ^ 32) :
    (xs.map size).sum ≤ xs.length * (2 ^ 32 - 1) := by
  rw [← List.length_map size, ← smul_eq_mul]
  refine List.sum_le_card_nsmul _ _ fun n hn => ?_
  obtain ⟨x, hx, rfl⟩ := List.mem_map.mp hn
  have := h x hx
  omega

namespace SeekTable

/-! ## Ranges -/

/-- Where the frames lie in the archive. -/
def compressed_ranges (t : SeekTable) : List (Nat × Nat) :=
  t.frames.map fun f => (f.compressed_offset, f.compressed_size)

/-- Where their content lies in the output. -/
def decompressed_ranges (t : SeekTable) : List (Nat × Nat) :=
  t.frames.map fun f => (f.decompressed_offset, f.decompressed_size)

variable {t : SeekTable} {archive : Bytes}

theorem Indexed.compressed_ranges (h : Indexed t.frames) :
    Contiguous t.compressed_ranges 0 (t.frames.map SeekFrame.compressed_size).sum := by
  have hranges := @contiguous_of_sums _ SeekFrame.compressed_offset SeekFrame.compressed_size
    t.frames
    0 fun i f hf => by rw [h.compressed_offset i f hf, Nat.zero_add]
  rwa [Nat.zero_add] at hranges

theorem Indexed.decompressed_ranges (h : Indexed t.frames) :
    Contiguous t.decompressed_ranges 0 (decompressed_bytes t.frames) := by
  have hranges := @contiguous_of_sums _ SeekFrame.decompressed_offset SeekFrame.decompressed_size
    t.frames 0 fun i f hf => by rw [h.decompressed_offset i f hf, Nat.zero_add]; rfl
  rwa [Nat.zero_add] at hranges

/-- The end of a frame's content fits 64 bits. -/
theorem Indexed.decompressed_end (h : Indexed t.frames) {f : SeekFrame} (hf : f ∈ t.frames) :
    f.decompressed_offset + f.decompressed_size ≤ decompressed_bytes t.frames := by
  obtain ⟨i, hi, rfl⟩ := List.getElem_of_mem hf
  rw [h.decompressed_offset i _ (List.getElem?_eq_getElem hi)]
  conv_rhs => rw [← List.take_append_drop i t.frames, decompressed_bytes_append,
    List.drop_eq_getElem_cons hi, decompressed_bytes_cons]
  omega

theorem Indexed.compressed_end (h : Indexed t.frames) {f : SeekFrame} (hf : f ∈ t.frames) :
    f.compressed_offset + f.compressed_size ≤ (t.frames.map SeekFrame.compressed_size).sum := by
  obtain ⟨i, hi, rfl⟩ := List.getElem_of_mem hf
  rw [h.compressed_offset i _ (List.getElem?_eq_getElem hi)]
  conv_rhs => rw [← List.take_append_drop i t.frames, List.map_append, List.sum_append,
    List.drop_eq_getElem_cons hi, List.map_cons, List.sum_cons]
  omega

/-! ## Looking up an offset -/

/-- The frame whose content holds an offset is found, and is the only one. -/
theorem frame_for_offset_some (h : Indexed t.frames) (hn : t.frames.length < 2 ^ 32) {offset : Nat}
    (hlt : offset < decompressed_bytes t.frames) :
    ∃ i < t.frames.length, t.frame_for_offset offset = .ok (some i) ∧
      ∀ j f, t.frames[j]? = some f →
        (f.decompressed_offset ≤ offset ∧ offset < f.decompressed_offset + f.decompressed_size ↔
          j = i) := by
  obtain ⟨hsize, hword⟩ := decompressed_size_ok h hn
  obtain ⟨k, hk, hpart, honly⟩ := h.decompressed_ranges.locate (Nat.zero_le _) hlt
  rw [SeekTable.decompressed_ranges, List.length_map] at hk
  have hget : ∀ {j : Nat} {f : SeekFrame}, t.frames[j]? = some f →
      t.decompressed_ranges[j]? = some (f.decompressed_offset, f.decompressed_size) := fun hf => by
    rw [SeekTable.decompressed_ranges, List.getElem?_map, hf]
    rfl
  have hfind : partition_point (ends_by offset) t.frames = .ok k := by
    refine partition_point_ok (p := fun f : SeekFrame =>
      decide (f.decompressed_offset + f.decompressed_size ≤ offset)) (fun f hf => ?_)
      ⟨hk.le, fun j f hf => hpart.iff j _ (hget hf)⟩
    have := h.decompressed_end hf
    rw [ends_by, add_ok (by omega)]
    rfl
  refine ⟨k, hk, ?_, fun j f hf => honly j _ (hget hf)⟩
  rw [frame_for_offset, hsize, bind_ok, if_neg (by omega), hfind, bind_ok, if_pos hk]
  rfl

theorem frame_for_offset_none (h : Indexed t.frames) (hn : t.frames.length < 2 ^ 32) {offset : Nat}
    (hle : decompressed_bytes t.frames ≤ offset) : t.frame_for_offset offset = .ok none := by
  rw [frame_for_offset, (decompressed_size_ok h hn).1, bind_ok, if_pos hle]
  rfl

/-! ## Reading never leaves the archive -/

/-- The state of the entry loop with `k` entries left of `n`: they lie in the archive, and the sums
fit their words. -/
structure Entries.Within (archive : Bytes) (entry_size n k : Nat) (s : Entries) : Prop where
  room : s.p + k * entry_size ≤ archive.length
  comp_off : s.comp_off + k * (2 ^ 32 - 1) ≤ n * (2 ^ 32 - 1)
  decomp_off : s.decomp_off + k * (2 ^ 32 - 1) ≤ n * (2 ^ 32 - 1)

theorem parse_entry_returns {has_checksum : Bool} {n k : Nat} {s : Entries}
    (hlen : archive.length < 2 ^ 63) (hn : n < 2 ^ 32)
    (h : s.Within archive (if has_checksum then 12 else 8) n (k + 1)) :
    Returns (parse_entry archive has_checksum (if has_checksum then 12 else 8) s) fun s' =>
      s'.Within archive (if has_checksum then 12 else 8) n k := by
  obtain ⟨room, comp_off, decomp_off⟩ := h
  have hsize : 8 ≤ if has_checksum then 12 else 8 := by split_ifs <;> omega
  rw [Nat.succ_mul] at room
  obtain ⟨cs, hcs, -, hcs'⟩ := read_u32_le_ok archive s.p (by omega)
  obtain ⟨ds, hds, -, hds'⟩ := read_u32_le_ok archive (s.p + 4) (by omega)
  obtain ⟨ck, hck⟩ : ∃ ck, (if has_checksum = true then do
      let ck ← read_u32_le archive (s.p + 8)
      pure (some ck) else pure none : Res (Option Nat)) = .ok ck := by
    cases has_checksum with
    | false => exact ⟨_, rfl⟩
    | true =>
      rw [if_pos rfl] at room
      obtain ⟨ck, hck, -, -⟩ := read_u32_le_ok archive (s.p + 8) (by omega)
      exact ⟨some ck, by rw [if_pos rfl, hck]; rfl⟩
  rw [parse_entry, hcs, bind_ok, hds, bind_ok, hck, bind_ok]
  generalize (if has_checksum = true then 12 else 8) = size at room hsize ⊢
  rw [add_ok (by omega), bind_ok, add_ok (by omega), bind_ok, add_ok (by omega), bind_ok]
  refine ⟨_, rfl, ?_⟩
  constructor <;> dsimp only <;> omega

/-- Parsing fails or returns: no index leaves the archive and no sum overflows. -/
theorem parse_safe (hlen : archive.length < 2 ^ 63) : Safe (parse archive) fun _ => True := by
  have h8 : SKIPPABLE_HEADER = 8 := rfl
  have h9 : FOOTER_SIZE = 9 := rfl
  rw [parse]
  refine safe_ite (fun _ => safe_fail) fun hmin => ?_
  obtain ⟨magic, hmagic, -, -⟩ := read_u32_le_ok archive (archive.length - 4) (by omega)
  rw [hmagic, bind_ok]
  refine safe_ite (fun _ => safe_fail) fun _ => ?_
  rw [get_ok (by omega), bind_ok]
  obtain ⟨n, hnum, -, hn⟩ := read_u32_le_ok archive (archive.length - 9) (by omega)
  rw [hnum, bind_ok]
  dsimp only
  generalize (archive[archive.length - 5].toNat &&& 128 != 0) = has_checksum
  refine safe_ite (fun _ => safe_fail) fun _ => safe_ite (fun _ => safe_fail) fun _ =>
    safe_ite (fun _ => safe_fail) fun hroom => ?_
  generalize hskip : archive.length - (SKIPPABLE_HEADER +
    (n * (if has_checksum = true then 12 else 8) + FOOTER_SIZE)) = start
  obtain ⟨skippable, hs, -, -⟩ := read_u32_le_ok archive start (by omega)
  rw [hs, bind_ok]
  refine safe_ite (fun _ => safe_fail) fun _ => ?_
  obtain ⟨size, hs', -, -⟩ := read_u32_le_ok archive (start + 4) (by omega)
  rw [hs', bind_ok]
  refine safe_ite (fun _ => safe_fail) fun _ => ?_
  have hinit : Entries.Within archive (if has_checksum = true then 12 else 8) n n
      ⟨start + SKIPPABLE_HEADER, 0, 0, []⟩ :=
    ⟨by dsimp only; omega, (Nat.zero_add _).le, (Nat.zero_add _).le⟩
  obtain ⟨s, hloop, -⟩ := Returns.times (Entries.Within archive _ n)
    (fun k s hk => parse_entry_returns hlen hn hk) n _ hinit
  rw [hloop, bind_ok]
  exact safe_ite (fun _ => safe_fail) fun _ => Safe.ok trivial

end SeekTable

/-! ## Written tables -/

theorem read_u32_le_leBytes {archive xs ys : Bytes} {i v : Nat} (hv : v < 2 ^ 32)
    (h : archive = xs ++ (leBytes 4 v ++ ys)) (hi : i = xs.length) :
    read_u32_le archive i = .ok v := by
  subst h hi
  obtain ⟨w, hw, hval, -⟩ := read_u32_le_ok (xs ++ (leBytes 4 v ++ ys)) xs.length (by
    rw [List.length_append, List.length_append, length_leBytes]
    omega)
  rw [hw, hval, List.drop_left, List.take_left' (length_leBytes 4 v), leNat_leBytes,
    Nat.mod_eq_of_lt hv]

theorem get_middle {archive xs ys : Bytes} {i : Nat} {b : UInt8} (h : archive = xs ++ ([b] ++ ys))
    (hi : i = xs.length) : (get archive i : Res UInt8) = .ok b := by
  subst h hi
  rw [get_ok (by simp)]
  simp

/-- The sizes of an entry as 32-bit words. -/
structure SeekEntryFits (e : SeekEntry) : Prop where
  compressed_size : e.1 < 2 ^ 32
  decompressed_size : e.2.1 < 2 ^ 32
  checksum : e.2.2 < 2 ^ 32

/-- What the table of an archive says of an entry. -/
def seek_entry_fields (checksum : Bool) (e : SeekEntry) : Nat × Nat × Option Nat :=
  (e.1, e.2.1, if checksum then some e.2.2 else none)

/-- The same of a frame of a parsed table. -/
def SeekFrame.fields (f : SeekFrame) : Nat × Nat × Option Nat :=
  (f.compressed_size, f.decompressed_size, f.checksum)

theorem length_seek_entry_bytes (checksum : Bool) (e : SeekEntry) :
    (seek_entry_bytes checksum e).length = if checksum then 12 else 8 := by
  cases checksum <;> simp [seek_entry_bytes]

/-- A written entry is read back. -/
theorem parse_entry_written {checksum : Bool} {e : SeekEntry} (he : SeekEntryFits e)
    (pre post : Bytes)
    {c d : Nat} {fs : List SeekFrame} (hp : pre.length + 12 < 2 ^ 64) (hc : c + e.1 < 2 ^ 64)
    (hd : d + e.2.1 < 2 ^ 64) :
    SeekTable.parse_entry (pre ++ seek_entry_bytes checksum e ++ post) checksum
        (if checksum then 12 else 8) ⟨pre.length, c, d, fs⟩ =
      .ok ⟨(pre ++ seek_entry_bytes checksum e).length, c + e.1, d + e.2.1,
        fs ++ [⟨c, e.1, d, e.2.1, if checksum then some e.2.2 else none⟩]⟩ := by
  have hbytes : pre ++ seek_entry_bytes checksum e ++ post = pre ++ (leBytes 4 e.1 ++
      (leBytes 4 e.2.1 ++ ((if checksum then leBytes 4 e.2.2 else []) ++ post))) := by
    simp only [seek_entry_bytes, List.append_assoc]
  have hcs := read_u32_le_leBytes he.compressed_size hbytes rfl
  have hds : read_u32_le (pre ++ seek_entry_bytes checksum e ++ post) (pre.length + 4) =
    .ok e.2.1 :=
    read_u32_le_leBytes he.decompressed_size (hbytes.trans (List.append_assoc pre _ _).symm)
      (by rw [List.length_append, length_leBytes])
  have hck : (if checksum = true then do
      let ck ← read_u32_le (pre ++ seek_entry_bytes checksum e ++ post) (pre.length + 8)
      pure (some ck) else pure none : Res (Option Nat)) =
        .ok (if checksum then some e.2.2 else none) := by
    cases checksum with
    | false => rfl
    | true =>
      rw [if_pos rfl, read_u32_le_leBytes he.checksum
        (hbytes.trans (by rw [if_pos rfl, ← List.append_assoc, ← List.append_assoc]))
        (by simp only [List.length_append, length_leBytes])]
      rfl
  rw [SeekTable.parse_entry, hcs, bind_ok, hds, bind_ok, hck, bind_ok, List.length_append,
    length_seek_entry_bytes]
  have hsize : (if checksum = true then 12 else 8) ≤ 12 := by split_ifs <;> omega
  rw [add_ok (by dsimp only; omega), bind_ok, add_ok hc, bind_ok, add_ok hd, bind_ok]
  rfl

/-- Written entries are read back. -/
theorem parse_entries_written {checksum : Bool} {post : Bytes} : ∀ (es : List SeekEntry)
    (pre : Bytes)
    (c d : Nat) (fs : List SeekFrame), (∀ e ∈ es, SeekEntryFits e) →
    pre.length + es.length * 12 < 2 ^ 64 →
    c + es.length * (2 ^ 32 - 1) < 2 ^ 64 → d + es.length * (2 ^ 32 - 1) < 2 ^ 64 →
    ∃ p d' gs, times (SeekTable.parse_entry (pre ++ es.flatMap (seek_entry_bytes checksum) ++ post)
        checksum (if checksum then 12 else 8)) es.length ⟨pre.length, c, d, fs⟩ =
          .ok ⟨p, c + (es.map Prod.fst).sum, d', fs ++ gs⟩ ∧
      gs.map SeekFrame.fields = es.map (seek_entry_fields checksum) := by
  intro es
  induction es with
  | nil =>
    intro pre c d fs _ _ _ _
    exact ⟨pre.length, d, [], by rw [List.append_nil]; rfl, rfl⟩
  | cons e es ih =>
    intro pre c d fs hes hp hc hd
    rw [List.length_cons] at hp hc hd
    have he := hes e List.mem_cons_self
    have hcs := he.compressed_size
    have hds := he.decompressed_size
    have hlen := length_seek_entry_bytes checksum e
    have hsize : (if checksum = true then 12 else 8) ≤ 12 := by split_ifs <;> omega
    have hbytes : pre ++ (e :: es).flatMap (seek_entry_bytes checksum) ++ post =
        pre ++ seek_entry_bytes checksum e ++ (es.flatMap (seek_entry_bytes checksum) ++ post) := by
      simp only [List.flatMap_cons, List.append_assoc]
    obtain ⟨p, d', gs, hloop, hgs⟩ := ih (pre ++ seek_entry_bytes checksum e) (c + e.1) (d + e.2.1)
      (fs ++ [⟨c, e.1, d, e.2.1, if checksum then some e.2.2 else none⟩])
      (fun x hx => hes x (List.mem_cons_of_mem _ hx))
      (by rw [List.length_append, hlen]; omega) (by omega) (by omega)
    refine ⟨p, d', ⟨c, e.1, d, e.2.1, if checksum then some e.2.2 else none⟩ :: gs, ?_, ?_⟩
    · rw [List.length_cons, times, hbytes, parse_entry_written he pre _ (by omega) (by omega)
        (by omega),
        bind_ok, ← List.append_assoc, hloop, List.map_cons, List.sum_cons, Nat.add_assoc,
        List.append_assoc fs]
      rfl
    · rw [List.map_cons, List.map_cons, hgs]
      rfl

theorem length_flatMap_entries (checksum : Bool) (es : List SeekEntry) :
    (es.flatMap (seek_entry_bytes checksum)).length = es.length * if checksum then 12 else 8 := by
  induction es with
  | nil => exact (Nat.zero_mul _).symm
  | cons e es ih =>
    rw [List.flatMap_cons, List.length_append, ih, length_seek_entry_bytes, List.length_cons,
      Nat.succ_mul, Nat.add_comm]

/-- What a table that was written consists of. -/
theorem write_seek_table_eq {out archive : Bytes} {es : List SeekEntry} {checksum : Bool}
    (h : write_seek_table out es checksum = .ok archive) :
    es.length * (if checksum then 12 else 8) + 9 < 2 ^ 32 ∧
      archive = out ++ leBytes 4 SEEK_TABLE_SKIPPABLE_MAGIC ++
        leBytes 4 (es.length * (if checksum then 12 else 8) + 9) ++
        es.flatMap (seek_entry_bytes checksum) ++ leBytes 4 es.length ++
        [if checksum then 0x80 else 0] ++ leBytes 4 SEEKABLE_MAGIC := by
  rw [write_seek_table] at h
  obtain ⟨size, hsize, h⟩ := bind_eq_ok.mp h
  obtain ⟨content, hcontent, h⟩ := bind_eq_ok.mp h
  obtain ⟨hlt, h⟩ := guard_eq_ok.mp h
  obtain ⟨-, h⟩ := guard_eq_ok.mp h
  obtain rfl : content = es.length * (if checksum then 12 else 8) + 9 := by
    rw [(add_eq_ok.mp hcontent).2, (mul_eq_ok.mp hsize).2]
    rfl
  exact ⟨by omega, (Except.ok.inj h).symm⟩

/-- A written table is parsed back. -/
theorem parse_write_seek_table {data archive : Bytes} {es : List SeekEntry} {checksum : Bool}
    (hes : ∀ e ∈ es, SeekEntryFits e) (hdata : data.length = (es.map Prod.fst).sum)
    (h : write_seek_table data es checksum = .ok archive) :
    ∃ t, SeekTable.parse archive = .ok t ∧
      t.frames.map SeekFrame.fields = es.map (seek_entry_fields checksum) := by
  obtain ⟨hcontent, harchive⟩ := write_seek_table_eq h
  have hentries := length_flatMap_entries checksum es
  have hmagic : SEEK_TABLE_SKIPPABLE_MAGIC < 2 ^ 32 := by decide
  have hfooter : SEEKABLE_MAGIC < 2 ^ 32 := by decide
  have hsum : (es.map Prod.fst).sum ≤ es.length * (2 ^ 32 - 1) :=
    sum_words_le fun e he => (hes e he).compressed_size
  have hn : 8 * es.length + 9 < 2 ^ 32 := by
    split_ifs at hcontent <;> omega
  have hhas : ((if checksum = true then 0x80 else 0 : UInt8).toNat &&& 0x80 != 0) = checksum := by
    cases checksum <;> decide
  obtain ⟨p, d', gs, hloop, hgs⟩ := @parse_entries_written checksum
    (leBytes 4 es.length ++ ([if checksum then 0x80 else 0] ++ leBytes 4 SEEKABLE_MAGIC)) es
    (data ++ (leBytes 4 SEEK_TABLE_SKIPPABLE_MAGIC ++
      leBytes 4 (es.length * (if checksum then 12 else 8) + 9))) 0 0 [] hes
    (by simp only [List.length_append, length_leBytes]; omega) (by omega) (by omega)
  simp only [← List.append_assoc] at hloop
  rw [← harchive, Nat.zero_add, List.nil_append] at hloop
  generalize hsize : (if checksum = true then 12 else 8) = entry_size at *
  have hlen : archive.length = data.length + (8 + (es.length * entry_size + 9)) := by
    rw [harchive]
    simp only [List.length_append, length_leBytes, hentries, List.length_singleton]
    omega
  have hlt : es.length * entry_size + 9 < 2 ^ 32 := hcontent
  -- the footer, from the end
  have hfoot : read_u32_le archive (archive.length - 4) = .ok SEEKABLE_MAGIC := by
    refine read_u32_le_leBytes hfooter
      (harchive.trans (List.append_nil _ ▸ List.append_assoc _ _ _)) ?_
    simp only [List.length_append, length_leBytes, hentries, List.length_singleton]
    omega
  have h₁ := harchive.trans (List.append_assoc _ _ _)
  have h₂ := h₁.trans (List.append_assoc _ _ _)
  have hflag : (get archive (archive.length - 5) : Res UInt8) =
      .ok (if checksum = true then 0x80 else 0) := by
    refine get_middle h₁ ?_
    simp only [List.length_append, length_leBytes, hentries]
    omega
  have hcount : read_u32_le archive (archive.length - 9) = .ok es.length := by
    refine read_u32_le_leBytes (by omega) h₂ ?_
    simp only [List.length_append, length_leBytes, hentries]
    omega
  -- the skippable frame behind the data
  have h₄ := (h₂.trans (List.append_assoc _ _ _)).trans (List.append_assoc _ _ _)
  have hframe : read_u32_le archive (data.length + 4) = .ok (es.length * entry_size + 9) :=
    read_u32_le_leBytes hlt h₄ (by rw [List.length_append, length_leBytes])
  have hskip : read_u32_le archive data.length = .ok SEEK_TABLE_SKIPPABLE_MAGIC :=
    read_u32_le_leBytes hmagic (h₄.trans (List.append_assoc _ _ _)) rfl
  have hstart : archive.length - (SKIPPABLE_HEADER + (es.length * entry_size + FOOTER_SIZE)) =
      data.length := by
    rw [hlen, show SKIPPABLE_HEADER = 8 from rfl, show FOOTER_SIZE = 9 from rfl, Nat.add_sub_cancel]
  have hpos : (data ++ leBytes 4 SEEK_TABLE_SKIPPABLE_MAGIC ++
      leBytes 4 (es.length * entry_size + 9)).length = data.length + SKIPPABLE_HEADER := by
    simp only [List.length_append, length_leBytes]
    rfl
  rw [hpos] at hloop
  have h8 : SKIPPABLE_HEADER = 8 := rfl
  have h9 : FOOTER_SIZE = 9 := rfl
  have husize : usizeMax = 2 ^ 64 - 1 := rfl
  refine ⟨⟨gs⟩, ?_, hgs⟩
  rw [SeekTable.parse, if_neg (by omega), hfoot, bind_ok, if_neg (not_not.mpr rfl), hflag, bind_ok,
    hcount, bind_ok]
  dsimp only
  rw [hhas, hsize, if_neg (by omega), if_neg (by omega), if_neg (by omega), hstart, hskip, bind_ok,
    if_neg (not_not.mpr rfl), hframe, bind_ok, h9, if_neg (not_not.mpr rfl), hloop, bind_ok,
    if_neg (not_not.mpr hdata.symm)]
  rfl

/-! ## The index of an archive -/

/-- A parsed table describes ranges that follow each other up to its own skippable frame, which ends
the archive; looking up an offset finds the only frame whose content holds it; and a written table
parses back to its entries. -/
theorem seek_table_sound_and_invertible :
    (∀ (archive : Bytes) (table : SeekTable), SeekTable.parse archive = .ok table →
      ∃ start content total,
        Contiguous table.compressed_ranges 0 start ∧
        read_u32_le archive start = .ok SEEK_TABLE_SKIPPABLE_MAGIC ∧
        read_u32_le archive (start + 4) = .ok content ∧
        start + (8 + content) = archive.length ∧
        table.decompressed_size = .ok total ∧
        Contiguous table.decompressed_ranges 0 total ∧
        (∀ f ∈ table.frames, f.compressed_offset + f.compressed_size < 2 ^ 64 ∧
          f.decompressed_offset + f.decompressed_size < 2 ^ 64) ∧
        ∀ offset, (total ≤ offset → table.frame_for_offset offset = .ok none) ∧
          (offset < total → ∃ i < table.frames.length,
            table.frame_for_offset offset = .ok (some i) ∧
            ∀ j f, table.frames[j]? = some f →
              (f.decompressed_offset ≤ offset ∧
                offset < f.decompressed_offset + f.decompressed_size ↔ j = i))) ∧
    (∀ archive : Bytes, archive.length < 2 ^ 63 → NoFault (SeekTable.parse archive)) ∧
    (∀ (entries : List SeekEntry) (checksum : Bool) (data archive : Bytes),
      (∀ e ∈ entries, SeekEntryFits e) → data.length = (entries.map Prod.fst).sum →
      write_seek_table data entries checksum = .ok archive →
      ∃ table, SeekTable.parse archive = .ok table ∧
        table.frames.map SeekFrame.fields = entries.map (seek_entry_fields checksum)) := by
  refine ⟨?_, ?_, ?_⟩
  · intro archive table htable
    obtain ⟨start, content, hsum, hlen, -, hmagic, hcontent⟩ := SeekTable.parse_region _ htable
    obtain ⟨hindexed, hn⟩ := SeekTable.parse_ensures _ htable
    obtain ⟨htotal, hword⟩ := SeekTable.decompressed_size_ok hindexed hn
    have hcs := sum_words_le hindexed.compressed_size
    refine ⟨start, content, _, hsum ▸ hindexed.compressed_ranges, hmagic, hcontent, hlen, htotal,
      hindexed.decompressed_ranges, fun f hf => ⟨?_, ?_⟩,
      fun offset => ⟨fun hle => ?_, fun hlt => ?_⟩⟩
    · exact lt_of_le_of_lt (hindexed.compressed_end hf) (by omega)
    · exact lt_of_le_of_lt (hindexed.decompressed_end hf) hword
    · exact SeekTable.frame_for_offset_none hindexed hn hle
    · exact SeekTable.frame_for_offset_some hindexed hn hlt
  · intro archive hlen
    exact (SeekTable.parse_safe hlen).noFault
  · intro entries checksum data archive hes hdata h
    exact parse_write_seek_table hes hdata h

/-- `seek_table_sound_and_invertible` on the archive of three frames: the frame that holds the byte
at offset 20, and the entries that its table was written from. -/
theorem seek_table_sound_and_invertible_three_frames :
    (∃ i < 3, three_frames_table.frame_for_offset 20 = .ok (some i) ∧
      ∀ j f, three_frames_table.frames[j]? = some f →
        (f.decompressed_offset ≤ 20 ∧ 20 < f.decompressed_offset + f.decompressed_size ↔ j = i)) ∧
    NoFault (SeekTable.parse three_frames) ∧
    ∃ table, SeekTable.parse three_frames = .ok table ∧
      table.frames.map SeekFrame.fields = [(29, 14, none), (29, 14, none), (10, 1, none)] := by
  have htable : SeekTable.parse three_frames = .ok three_frames_table := by rfl
  obtain ⟨hsound, hsafe, hinvert⟩ := seek_table_sound_and_invertible
  refine ⟨?_, hsafe _ (by decide), ?_⟩
  · obtain ⟨start, content, total, -, -, -, -, htotal, -, -, hfind⟩ := hsound _ _ htable
    obtain rfl : 29 = total := Except.ok.inj htotal
    exact (hfind 20).2 (by decide)
  · have hwrite : write_seek_table
        (three_blocks ++ three_blocks ++ [40, 181, 47, 253, 32, 1, 9, 0, 0, 97])
        [(29, 14, 0), (29, 14, 0), (10, 1, 0)] false = .ok three_frames := by decide +kernel
    have hfits : ∀ e ∈ [(29, 14, 0), (29, 14, 0), (10, 1, 0)], SeekEntryFits e := by
      intro e he
      simp only [List.mem_cons, List.not_mem_nil, or_false] at he
      rcases he with rfl | rfl | rfl <;> exact ⟨by decide, by decide, by decide⟩
    exact hinvert _ false _ _ hfits (by decide) hwrite

end ZstdPure
