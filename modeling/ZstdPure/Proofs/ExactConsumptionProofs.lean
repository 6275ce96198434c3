import ZstdPure.Proofs.BlockProofs
import ZstdPure.Proofs.HuffConsumptionProofs
import ZstdPure.Proofs.SeqConsumptionProofs

/-!
# Blocks whose bitstreams are used up

`finished` describes the reader of a stream that was consumed exactly, but no decoder looks at the
reader it ends with. The streams of an accepted block are consumed exactly when they are well
formed. -/

namespace ZstdPure

open Outcome BitString Huff

namespace Literals

/-- A cached table was built from a list of weights. -/
def Built (cache : Option HuffTable) : Prop := ∀ t ∈ cache, ∃ ws, build_table ws = .ok t

/-- The streams as the format has them: each one is made of the codes of its symbols. -/
def Streams.WellFormed (s : Streams) : Prop :=
  if s.four then ∀ k < 4, ∃ syms, syms.length = stream_symbols s.regen k ∧
    Spelled s.table syms (below_sentinel (substream s.stream k))
  else ∃ syms, syms.length = s.regen ∧ Spelled s.table syms (below_sentinel s.stream)

/-- The readers of the streams have finished exactly when the streams are well formed. -/
theorem decode_end_finished {s : Streams} {ws : List Nat} {max_bits : Nat}
    (hl : Layout ws max_bits s.table)
    (hlen : s.stream.length < 2 ^ 63) (hregen : s.regen < 2 ^ 20) {lits : Bytes}
    (h : s.decode = .ok lits) :
    ∃ ends, s.decode_end = .ok (lits, ends) ∧ ((∀ r ∈ ends, r.finished = true) ↔ s.WellFormed) := by
  rw [Streams.decode] at h
  rw [Streams.decode_end, Streams.WellFormed]
  by_cases hfour : s.four = true
  · rw [if_pos hfour] at h ⊢
    rw [if_pos hfour]
    rw [decode_4stream] at h
    obtain ⟨lanes, hlanes, hlits⟩ := bind_eq_ok.mp h
    obtain rfl := Except.ok.inj hlits
    refine ⟨lanes.map Lane.br, by rw [hlanes]; rfl, ?_⟩
    rw [List.forall_mem_map]
    exact decode_4stream_end_finished hl hlen (by omega) hlanes
  · rw [if_neg hfour] at h ⊢
    rw [decode_1stream, decode_into] at h
    obtain ⟨⟨br, out⟩, hend, hlits⟩ := bind_eq_ok.mp h
    obtain rfl := Except.ok.inj hlits
    refine ⟨[br], by rw [hend]; rfl, ?_⟩
    rw [if_neg hfour, List.forall_mem_singleton]
    exact decode_into_end_finished hl hlen (by omega) hend

/-- The streams of a compressed section are those of a table that was built. -/
theorem compressed_streams_layout {src : Bytes} {cache cache' : Option HuffTable} {b0 stop : Nat}
    {s : Streams} (hcache : Built cache) (hlen : src.length < 2 ^ 55)
    (h : compressed_streams src cache b0 = .ok (s, stop, cache')) :
    s.stream.length < 2 ^ 55 ∧ s.regen < 2 ^ 20 ∧ ∃ ws max_bits, Layout ws max_bits s.table := by
  rw [compressed_streams] at h
  obtain ⟨hd, hhd, h⟩ := bind_eq_ok.mp h
  obtain ⟨stop, -, h⟩ := bind_eq_ok.mp h
  obtain ⟨u, -, h⟩ := bind_eq_ok.mp h
  obtain ⟨region, hregion, h⟩ := bind_eq_ok.mp h
  obtain ⟨⟨stream, cache''⟩, hstream, h⟩ := bind_eq_ok.mp h
  obtain ⟨table, htable, h⟩ := bind_eq_ok.mp h
  obtain ⟨rfl, -⟩ := Prod.mk.inj (Except.ok.inj h)
  have hregen := (parse_compressed_header_safe.of_ok hhd).1
  obtain ⟨-, rfl⟩ := slice_eq_ok.mp hregion
  dsimp only at hstream htable ⊢
  by_cases htype : b0 &&& 3 = 2
  · rw [if_pos htype] at hstream
    obtain ⟨⟨t, n⟩, hread, hstream⟩ := bind_eq_ok.mp hstream
    obtain ⟨stream', hslice, hstream⟩ := bind_eq_ok.mp hstream
    obtain ⟨rfl, rfl⟩ := Prod.mk.inj (Except.ok.inj hstream)
    obtain ⟨-, rfl⟩ := sliceFrom_eq_ok.mp hslice
    obtain rfl := Except.ok.inj htable
    obtain ⟨-, ws, max_bits, hl⟩ := (read_table_safe
      (by rw [List.length_drop, List.length_take]; omega)).of_ok hread
    exact ⟨by rw [List.length_drop, List.length_drop, List.length_take]; omega, by omega, ws,
      max_bits, hl⟩
  · rw [if_neg htype] at hstream
    obtain ⟨hsome, hstream⟩ := guard_eq_ok.mp hstream
    obtain ⟨rfl, rfl⟩ := Prod.mk.inj (Except.ok.inj hstream)
    obtain ⟨t, rfl⟩ := Option.ne_none_iff_exists'.mp (by simpa using hsome)
    obtain rfl := Except.ok.inj htable
    obtain ⟨ws, hbuilt⟩ := hcache t rfl
    obtain ⟨last, max_bits, -, hl⟩ := build_table_layout hbuilt
    exact ⟨by rw [List.length_drop, List.length_take]; omega, by omega, _, _, hl⟩

/-- The Huffman streams of an accepted literals section. -/
theorem literal_streams_of_ok {src : Bytes} {cache : Option HuffTable} {d : Decoded}
    (hlen : src.length < 2 ^ 55) (hcache : Built cache) (h : decode src cache = .ok d) :
    ∃ o ends, literal_streams src cache = .ok o ∧ stream_ends o = .ok ends ∧
      ((∀ r ∈ ends, r.finished = true) ↔ ∀ s, o = some s → s.WellFormed) := by
  rw [decode] at h
  obtain ⟨h0, h⟩ := guard_eq_ok.mp h
  obtain ⟨b0, hb0, h⟩ := bind_eq_ok.mp h
  rw [literal_streams, if_neg h0, hb0, bind_ok]
  dsimp only at h ⊢
  by_cases htype : b0 &&& 3 = 0 ∨ b0 &&& 3 = 1
  · rw [if_pos htype]
    exact ⟨none, [], rfl, rfl, by simp⟩
  rw [if_neg htype] at h ⊢
  obtain ⟨⟨streams, stop, cache'⟩, hstreams, h⟩ := bind_eq_ok.mp h
  obtain ⟨lits, hlits, -⟩ := bind_eq_ok.mp h
  obtain ⟨hslen, hregen, ws, max_bits, hl⟩ := compressed_streams_layout hcache hlen hstreams
  obtain ⟨ends, hends, hiff⟩ := decode_end_finished hl (by omega) hregen hlits
  rw [hstreams, bind_ok]
  exact ⟨_, ends, rfl, by rw [stream_ends, hends]; rfl, by simpa using hiff⟩

end Literals

namespace Sequences

/-- The bitstream of an accepted sequences section, if there is one. -/
theorem sequences_end_of_ok {src literals out : Bytes} {tables : SeqTables} {rep : Reps}
    {dict_len max_output : Nat} {o : SeqOut} (ht : tables.Valid) (hsrc : src.length < 2 ^ 60)
    (h : decode_capped src literals out tables rep dict_len max_output = .ok o) :
    ∃ source seq_end, sequences_source src tables = .ok source ∧
      sequences_end literals out rep dict_len max_output source = .ok seq_end ∧
      ((∀ r ∈ seq_end, r.finished = true) ↔ ∀ q, source = some q → q.WellFormed) := by
  rw [decode_capped_eq] at h
  obtain ⟨plan, hplan, h⟩ := bind_eq_ok.mp h
  have hvalid := (sequences_plan_safe ht hsrc).of_ok hplan
  rw [sequences_plan] at hplan
  obtain ⟨source, hsource, hplan⟩ := bind_eq_ok.mp hplan
  cases source with
  | none => exact ⟨none, none, hsource, rfl, by simp⟩
  | some q =>
    obtain ⟨p, hp, hplan⟩ := bind_eq_ok.mp hplan
    obtain rfl := Except.ok.inj hplan
    obtain ⟨s, hloop, -⟩ := bind_eq_ok.mp h
    obtain ⟨hq, hlen⟩ := (sequences_source_safe ht hsrc).of_ok hsource q rfl
    have hiff := sequences_finished (by omega) (hvalid p rfl) hq.nonzero hp hloop
    refine ⟨some q, some s.br, hsource, ?_, by simpa using hiff⟩
    rw [sequences_end, hp, bind_ok, hloop]
    rfl

end Sequences

namespace BlockState

open Literals Sequences

variable {s s' : BlockState} {data : Bytes}

/-- Every bitstream of a compressed block was consumed exactly. -/
def ConsumedExactly (s : BlockState) (data : Bytes) : Prop :=
  ∃ ends seq_end, s.decode_compressed_end data = .ok (ends, seq_end) ∧
    (∀ r ∈ ends, r.finished = true) ∧ ∀ r ∈ seq_end, r.finished = true

/-- The bitstreams of a compressed block as the format has them. -/
def StreamsWellFormed (s : BlockState) (data : Bytes) : Prop :=
  (∀ h, literal_streams data s.huff = .ok (some h) → h.WellFormed) ∧
  ∀ lits q, Literals.decode data s.huff = .ok lits →
    sequences_source (data.drop lits.consumed) s.seq = .ok (some q) → q.WellFormed

/-- The bitstreams of an accepted block are consumed exactly if and only if they are well formed; a
block whose streams have bits left, or too few of them, is accepted like any other. -/
theorem consumed_exactly_iff (h : s.Valid) (hbuilt : Built s.huff) (hlen : data.length < 2 ^ 55)
    (hok : s.decode_compressed data = .ok s') : s.ConsumedExactly data ↔
      s.StreamsWellFormed data := by
  rw [decode_compressed] at hok
  obtain ⟨lits, hlits, hok⟩ := bind_eq_ok.mp hok
  obtain ⟨real, hreal, hok⟩ := bind_eq_ok.mp hok
  obtain ⟨body, hbody, hok⟩ := bind_eq_ok.mp hok
  obtain ⟨o, ho, -⟩ := bind_eq_ok.mp hok
  obtain ⟨hcons, rfl⟩ := sliceFrom_eq_ok.mp hbody
  obtain ⟨huff, ends, hhuff, hends, hends_iff⟩ := literal_streams_of_ok hlen hbuilt hlits
  obtain ⟨source, seq_end, hsource, hseq, hseq_iff⟩ :=
    sequences_end_of_ok h.seq (by rw [List.length_drop]; omega) ho
  have hend : s.decode_compressed_end data = .ok (ends, seq_end) := by
    rw [decode_compressed_end, hlits, bind_ok, hhuff, bind_ok, hends, bind_ok, hreal, bind_ok]
    dsimp only
    rw [sliceFrom_ok hcons, bind_ok, hsource, bind_ok, hseq]
    rfl
  rw [ConsumedExactly, StreamsWellFormed, hend]
  constructor
  · rintro ⟨_, _, heq, hfin, hfin'⟩
    obtain ⟨rfl, rfl⟩ := Prod.mk.inj (Except.ok.inj heq)
    refine ⟨fun h hh => hends_iff.mp hfin h ?_, fun lits' q hlits' hq => hseq_iff.mp hfin' q ?_⟩
    · exact Except.ok.inj (hhuff.symm.trans hh)
    · obtain rfl := Except.ok.inj (hlits.symm.trans hlits')
      exact Except.ok.inj (hsource.symm.trans hq)
  · rintro ⟨hwell, hwell'⟩
    refine ⟨ends, seq_end, rfl, hends_iff.mpr fun h hh => hwell h ?_, hseq_iff.mpr fun q hq => ?_⟩
    · rw [hhuff, hh]
    · exact hwell' lits q hlits (by rw [hsource, hq])

/-- The state before the first block of a frame. -/
def first_block : BlockState :=
    ⟨[], 0, 1000, MAX_BLOCK_SIZE, none, SeqTables.default, ⟨1, 4, 8⟩, 0, []⟩

/-- Accepted, with a reader that has not finished. -/
theorem not_consumed_exactly (h : (s.decode_compressed_end data).toOption.bind
    (fun x => x.2.map ReverseBitReader.finished) = some false) : ¬ s.ConsumedExactly data := by
  rintro ⟨ends, seq_end, hend, -, hfin⟩
  rw [hend] at h
  cases seq_end with
  | none => exact absurd h (by simp [Except.toOption])
  | some r =>
    have hr : r.finished = false := by simpa [Except.toOption] using h
    rw [hfin r rfl] at hr
    exact absurd hr (by decide)

/-- One sequence whose offset takes two bits: of four bits in its stream two are left, and the two
that the other stream lacks are read past its start. Both blocks are accepted. -/
theorem consumed_exactly_counterexample :
    (first_block.decode_compressed [0x08, 0x61, 1, 0x54, 1, 2, 0, 0x11]).toOption.map BlockState.out
      = some [0x61, 0x61, 0x61, 0x61] ∧
    ¬ first_block.ConsumedExactly [0x08, 0x61, 1, 0x54, 1, 2, 0, 0x11] ∧
    (first_block.decode_compressed [0x08, 0x61, 1, 0x54, 1, 2, 0, 0x01]).toOption.map BlockState.out
      = some [0x61, 0x61, 0x61, 0x61] ∧
    ¬ first_block.ConsumedExactly [0x08, 0x61, 1, 0x54, 1, 2, 0, 0x01] := by
  refine ⟨by decide +kernel, not_consumed_exactly (by decide +kernel), by decide +kernel,
    not_consumed_exactly (by decide +kernel)⟩

/-- `consumed_exactly_iff` for a stream of the two bits of an offset. -/
theorem consumed_exactly_iff_two_bits :
    first_block.ConsumedExactly [0x08, 0x61, 1, 0x54, 1, 2, 0, 0x04]
      ↔ first_block.StreamsWellFormed [0x08, 0x61, 1, 0x54, 1, 2, 0, 0x04] := by
  have hvalid : first_block.Valid := ⟨by decide, le_rfl, fun t ht => by simp [first_block] at ht,
    SeqTables.default_valid⟩
  cases hok : first_block.decode_compressed [0x08, 0x61, 1, 0x54, 1, 2, 0, 0x04] with
  | ok s' =>
    exact consumed_exactly_iff hvalid (fun t ht => by simp [first_block] at ht) (by decide) hok
  | error e =>
    have hsome : (first_block.decode_compressed [0x08, 0x61, 1, 0x54, 1, 2, 0,
      0x04]).toOption.isSome = true := by
      decide +kernel
    rw [hok] at hsome
    exact absurd hsome (by simp [Except.toOption])

end BlockState

end ZstdPure
