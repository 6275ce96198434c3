import ZstdPure.Proofs.FseProofs
import ZstdPure.Proofs.HuffTableProofs

/-!
# Huffman table descriptions and literal streams

No operation faults on a valid table, whatever the bytes of the streams.
-/

namespace ZstdPure.Huff

open Outcome

/-- What the decoding loops need of a table. -/
structure HuffTable.Valid (t : HuffTable) : Prop where
  log : t.max_bits ≤ HUF_TABLELOG_MAX
  length : t.entries.length = HUF_DTABLE_SIZE
  num_bits : ∀ e ∈ t.entries, e.num_bits ≤ HUF_TABLELOG_MAX

theorem Layout.valid {ws : List Nat} {max_bits : Nat} {t : HuffTable} (h : Layout ws max_bits t) :
    t.Valid where
  log := h.table_bits.le.trans h.complete.log
  length := h.length
  num_bits e he := (h.num_bits e he).trans h.complete.log

/-! ## Table descriptions -/

theorem direct_weights_safe {src : Bytes} {n : Nat} (h : n + 2 ≤ 2 * src.length) :
    Safe (direct_weights src n) fun ws => ws.length = n := by
  refine (Safe.mapM (P := fun _ _ => True) _ fun i hi => ?_).mono fun ws hws => ?_
  · have hi : i < n := List.mem_range.mp hi
    rw [get_ok (by omega), bind_ok]
    exact Safe.ok trivial
  · rw [← hws.length_eq, List.length_range]

/-- `read_table` never faults; its table is that of a complete weight list. -/
theorem read_table_safe {src : Bytes} (hlen : src.length < 2 ^ 55) :
    Safe (read_table src) fun p => p.2 ≤ src.length ∧
      ∃ ws max_bits, Layout ws max_bits p.1 := by
  rw [read_table]
  refine safe_ite (fun _ => safe_fail) fun h0 => ?_
  rw [get_ok (by omega), bind_ok]
  have hb := (src[0]).toNat_lt_256
  dsimp only
  refine Safe.bind (P := fun p => p.1.length ≤ 256 ∧ p.2 ≤ src.length) ?_ ?_
  · refine safe_ite (fun h128 => ?_) fun h128 => ?_
    · refine safe_ite (fun _ => safe_fail) fun hshort => ?_
      have hshort' : 1 + src[0].toNat ≤ src.length := by omega
      rw [slice_ok (by omega) (by omega), bind_ok]
      have hdesc : ((src.take (1 + src[0].toNat)).drop 1).length = src[0].toNat := by
        rw [List.length_drop, List.length_take]; omega
      refine (Fse.read_ncount_safe 6 (by omega) (by omega)).bind fun nc hnc => ?_
      have hc := hnc.consumed
      rw [hdesc] at hc
      have hlog := hnc.log_le
      have hge := hnc.ge_log
      rw [Fse.build_dtable_ok (by rw [hnc.length]; exact hnc.symbol) rfl hnc.counts (by omega)
        (by omega), bind_ok, add_ok (by omega), bind_ok, slice_ok (by omega) (by omega), bind_ok]
      refine (Fse.decompress_safe (Fse.dtable_valid hnc.counts (by omega) (by omega))
        (by rw [List.length_drop, List.length_take]; omega) (by norm_num)).bind fun ws hws => ?_
      exact Safe.ok ⟨hws, hshort'⟩
    · rw [sub_ok (by omega), bind_ok]
      refine safe_ite (fun _ => safe_fail) fun hshort => ?_
      refine (direct_weights_safe (by omega)).bind fun ws hws => ?_
      exact Safe.ok ⟨by simp only; omega, Nat.le_of_not_lt hshort⟩
  · rintro ⟨ws, n⟩ ⟨hws, hn⟩
    refine (build_table_safe ws hws).bind ?_
    rintro t ⟨last, max_bits, hl⟩
    exact Safe.ok ⟨hn, _, _, hl⟩

/-! ## Single streams -/

section Streams

variable {table : HuffTable} {br : ReverseBitReader}

/-- The reader after a symbol. -/
structure Advanced (br br' : ReverseBitReader) : Prop where
  src : br'.src = br.src
  valid : br'.Valid
  consumed : br'.bits_consumed ≤ br.bits_consumed + 12

theorem next_symbol_spec (h : table.Valid) (hb : br.Valid) (hc : br.bits_consumed ≤ 2 ^ 31) :
    ∃ sym br', next_symbol table br = .ok (sym, br') ∧ Advanced br br' := by
  obtain ⟨code, hcode, -⟩ := br.peek_lt (n := table.max_bits) (h.log.trans (by decide))
  have hlt : code % HUF_DTABLE_SIZE < table.entries.length := by
    rw [h.length]; exact Nat.mod_lt _ (by decide)
  have hn : table.entries[code % HUF_DTABLE_SIZE].num_bits ≤ 12 :=
    h.num_bits _ (List.getElem_mem hlt)
  refine ⟨table.entries[code % HUF_DTABLE_SIZE].symbol, { br with
    bits_consumed := br.bits_consumed + table.entries[code % HUF_DTABLE_SIZE].num_bits }, ?_, rfl,
    hb.consume _, by simp only; omega⟩
  rw [next_symbol, hcode, bind_ok, HuffTable.entry, get_ok hlt, bind_ok,
    ReverseBitReader.consume_ok (by omega)]
  rfl

theorem push_symbol_spec (h : table.Valid) (out : Bytes) (hb : br.Valid)
    (hc : br.bits_consumed ≤ 2 ^ 31) :
    ∃ br' sym, push_symbol table (br, out) = .ok (br', out ++ [sym]) ∧ Advanced br br' := by
  obtain ⟨sym, br', h₁, ha⟩ := next_symbol_spec h hb hc
  refine ⟨br', sym, ?_, ha⟩
  rw [push_symbol, h₁]; rfl

/-- A reader and an output that grew by `n` symbols of at most 12 bits. -/
structure Grown (br : ReverseBitReader) (out : Bytes) (n : Nat) (s : ReverseBitReader × Bytes) :
    Prop where
  src : s.1.src = br.src
  valid : s.1.Valid
  consumed : s.1.bits_consumed ≤ br.bits_consumed + 12 * n
  length : s.2.length = out.length + n

theorem push_symbols_spec (h : table.Valid) (out : Bytes) (n : Nat) (hb : br.Valid)
    (hc : br.bits_consumed + 12 * n ≤ 2 ^ 31) :
    Returns (times (push_symbol table) n (br, out)) (Grown br out n) := by
  refine (Returns.times (fun k s => k ≤ n ∧ Grown br out (n - k) s) ?_ n (br, out)
    ⟨le_rfl, rfl, hb, by simp, by simp⟩).mono fun s hs => by simpa using hs.2
  rintro k ⟨b, o⟩ ⟨hk, hs⟩
  have hcs := hs.consumed
  have hlen := hs.length
  simp only at hcs hlen
  obtain ⟨b', sym, h₁, ha⟩ := push_symbol_spec h o hs.valid (by simp only; omega)
  have hca := ha.consumed
  simp only at hca
  exact ⟨_, h₁, by omega, ha.src.trans hs.src, ha.valid, by simp only; omega, by simp; omega⟩

theorem decode_one_symbol_spec (h : table.Valid) (out : Bytes) (hb : br.Valid)
    (hc : br.bits_consumed ≤ 2 ^ 31) :
    Returns (decode_one_symbol table (br, out)) (Grown br out 1) := by
  obtain ⟨st, b₁, h₁, hs⟩ := ReverseBitReader.reload_spec hb
  have hle := hs.consumed_le
  obtain ⟨b₂, sym, h₂, ha⟩ := push_symbol_spec h out hs.valid (by omega)
  have hca := ha.consumed
  refine ⟨(b₂, out ++ [sym]), ?_, ha.src.trans hs.src, ha.valid, by simp only; omega, by simp⟩
  rw [decode_one_symbol, h₁, bind_ok]
  exact h₂

theorem four_ready_spec {s : StreamState} (count : Nat) (hcount : count < 2 ^ 32)
    (hb : s.br.Valid) (hi : s.i ≤ count) :
    ∃ br' go, four_ready count s = .ok { s with br := br', go } ∧ br'.src = s.br.src ∧ br'.Valid ∧
      br'.bits_consumed ≤ s.br.bits_consumed ∧
      (go = true → s.i + 4 ≤ count ∧ br'.bits_consumed ≤ 7) := by
  rw [four_ready, add_ok (by omega), bind_ok]
  split_ifs with hc
  · obtain ⟨st, br', h₁, hs⟩ := ReverseBitReader.reload_spec hb
    refine ⟨br', decide (st = .Unfinished), by rw [h₁]; rfl, hs.src, hs.valid, hs.consumed_le,
      fun hgo => ⟨hc, hs.full (by simpa using hgo)⟩⟩
  · exact ⟨s.br, false, rfl, rfl, hb, le_rfl, fun hgo => by simp at hgo⟩

/-- `decode_into` never faults, and decodes `count` symbols. -/
theorem decode_into_end_safe (h : table.Valid) {src out : Bytes} {count : Nat}
    (hlen : src.length < 2 ^ 63) (hcount : count < 2 ^ 20) :
    Safe (decode_into_end table src count out) fun r => r.2.length = out.length + count := by
  rw [decode_into_end]
  refine (ReverseBitReader.new_safe hlen).bind ?_
  rintro br ⟨-, hb, hc⟩
  have h14 : table.max_bits ≤ 14 := h.log.trans (by decide)
  dsimp only
  rw [if_pos h14]
  refine Safe.bind (P := fun s : StreamState => s.br.Valid ∧ s.br.bits_consumed ≤ 128 ∧
    s.i ≤ count ∧ s.out.length = out.length + s.i) ?_ ?_
  · obtain ⟨b₀, go₀, h₀, -, hv₀, hc₀, hgo₀⟩ := four_ready_spec count (s := ⟨br, 0, out, false⟩)
      (by omega) hb (Nat.zero_le count)
    simp only at hc₀
    rw [h₀, bind_ok]
    refine (Safe.loop (fun s : StreamState => (s.br.Valid ∧ s.br.bits_consumed ≤ 128 ∧
      s.i ≤ count ∧ s.out.length = out.length + s.i) ∧
      (s.go = true → s.i + 4 ≤ count ∧ s.br.bits_consumed ≤ 7)) (fun s => count - s.i) ?_ _ _
      ⟨⟨hv₀, by simp only; omega, Nat.zero_le _, rfl⟩, fun hg => hgo₀ hg⟩ ?_).mono
      fun s hs => hs.1.1
    · rintro ⟨b, i, o, go⟩ ⟨⟨hv, hcb, hi, ho⟩, hgo⟩ hg
      obtain ⟨hroom, h7⟩ := hgo hg
      simp only at hv hcb hi ho hroom h7
      obtain ⟨⟨b₁, o₁⟩, h₁, hs₁⟩ := push_symbols_spec h o 4 hv (by omega)
      have hc₁ := hs₁.consumed
      have hl₁ := hs₁.length
      simp only at hc₁ hl₁
      obtain ⟨b₂, go₂, h₂, -, hv₂, hc₂, hgo₂⟩ := four_ready_spec count
        (s := ⟨b₁, i + 4, o₁, go⟩) (by omega) hs₁.valid hroom
      simp only at hc₂
      simp only [decode_four]
      rw [h₁, bind_ok]
      simp only []
      rw [add_ok (by omega), bind_ok, pure_eq_ok, bind_ok, h₂]
      exact Safe.ok ⟨⟨⟨hv₂, by simp only; omega, by simp only; omega, by simp only; omega⟩, hgo₂⟩,
        by simp only; omega⟩
    · simp only; omega
  · rintro ⟨b, i, o, go⟩ ⟨hv, hcb, hi, ho⟩
    simp only at hv hcb hi ho
    simp only []
    rw [sub_ok hi, bind_ok]
    refine ((Returns.times (fun k s => k ≤ count - i ∧ Grown b o (count - i - k) s) ?_
      (count - i) (b, o) ⟨le_rfl, rfl, hv, by simp, by simp⟩).safe).mono ?_
    · rintro k ⟨b', o'⟩ ⟨hk, hs⟩
      have hcs := hs.consumed
      have hl := hs.length
      simp only at hcs hl
      refine (decode_one_symbol_spec h o' hs.valid (by simp only; omega)).mono
        fun t ht => ⟨by omega, ?_⟩
      have hct := ht.consumed
      have hlt := ht.length
      simp only at hct
      exact ⟨ht.src.trans hs.src, ht.valid, by omega, by omega⟩
    · rintro ⟨b', o'⟩ ⟨-, hs⟩
      have hl := hs.length
      simp only at hl ⊢
      omega

theorem decode_into_safe (h : table.Valid) {src out : Bytes} {count : Nat}
    (hlen : src.length < 2 ^ 63) (hcount : count < 2 ^ 20) :
    Safe (decode_into table src count out) fun o => o.length = out.length + count :=
  (decode_into_end_safe h hlen hcount).bind fun _ hr => Safe.ok hr

/-! ## Four streams -/

/-- Lanes with valid readers, at most `c` bits consumed each, and segments of the given lengths. -/
structure Lanes (shape : List Nat) (c : Nat) (ls : List Lane) : Prop where
  shape : ls.map (fun l => l.dst.length) = shape
  valid : ∀ l ∈ ls, l.br.Valid ∧ l.br.bits_consumed ≤ c

theorem lane_step_spec (h : table.Valid) {l : Lane} {idx c : Nat} (hb : l.br.Valid)
    (hc : l.br.bits_consumed ≤ c) (hc' : c ≤ 2 ^ 31) (hidx : idx < l.dst.length) :
    Safe (lane_step table idx l) fun l' => (l'.br.Valid ∧ l'.br.bits_consumed ≤ c + 12) ∧
      l'.dst.length = l.dst.length := by
  obtain ⟨sym, br', h₁, ha⟩ := next_symbol_spec h hb (by omega)
  rw [lane_step, h₁, bind_ok]
  simp only []
  rw [set_ok hidx, bind_ok]
  have hca := ha.consumed
  exact Safe.ok ⟨⟨ha.valid, by simp only; omega⟩, by simp⟩

theorem lane_one_spec (h : table.Valid) {l : Lane} {idx c : Nat} (hb : l.br.Valid)
    (hc : l.br.bits_consumed ≤ c) (hc' : c ≤ 2 ^ 31) (hidx : idx < l.dst.length) :
    Safe (lane_one table idx l) fun l' => (l'.br.Valid ∧ l'.br.bits_consumed ≤ c + 12) ∧
      l'.dst.length = l.dst.length := by
  have hlog : table.max_bits ≤ 12 := h.log
  obtain ⟨br', h₁, -, hv, hle⟩ := ReverseBitReader.ensure_spec (n := table.max_bits) hb (by omega)
  rw [lane_one, h₁, bind_ok]
  exact lane_step_spec h (l := ⟨br', l.dst⟩) hv (by simp only; omega) hc' hidx

/-- A step of every lane. -/
theorem Lanes.mapM {f : Lane → Res Lane} {shape : List Nat} {c d : Nat} {ls : List Lane}
    (hl : Lanes shape c ls)
    (hf : ∀ l : Lane, l.br.Valid → l.br.bits_consumed ≤ c → l.dst.length ∈ shape →
      Safe (f l) fun l' => (l'.br.Valid ∧ l'.br.bits_consumed ≤ d) ∧
        l'.dst.length = l.dst.length) :
    Safe (ls.mapM f) (Lanes shape d) := by
  refine (Safe.mapM (P := fun l l' : Lane => (l'.br.Valid ∧ l'.br.bits_consumed ≤ d) ∧
    l'.dst.length = l.dst.length) ls fun l hm => ?_).mono fun ls' hls' => ?_
  · obtain ⟨hv, hc⟩ := hl.valid l hm
    exact hf l hv hc (by rw [← hl.shape]; exact List.mem_map_of_mem hm)
  · have hall : ∀ {ks ks' : List Lane}, List.Forall₂ (fun l l' : Lane =>
        (l'.br.Valid ∧ l'.br.bits_consumed ≤ d) ∧ l'.dst.length = l.dst.length) ks ks' →
        ks'.map (fun l => l.dst.length) = ks.map (fun l => l.dst.length) ∧
        ∀ l ∈ ks', l.br.Valid ∧ l.br.bits_consumed ≤ d := by
      intro ks ks' hk
      induction hk with
      | nil => exact ⟨rfl, by simp⟩
      | cons hkk _ ih =>
        refine ⟨by simp [hkk.2, ih.1], fun l hm => ?_⟩
        rcases List.mem_cons.mp hm with rfl | hm
        · exact hkk.1
        · exact ih.2 l hm
    exact ⟨(hall hls').1.trans hl.shape, (hall hls').2⟩

theorem lanes_ready_safe {limit c : Nat} {shape : List Nat} {s : PhaseState}
    (hl : Lanes shape c s.lanes) (hi : s.i ≤ limit) (hlim : limit < 2 ^ 32) :
    Safe (lanes_ready limit s) fun s' => Lanes shape c s'.lanes ∧ s'.i = s.i ∧
      (s'.go = true → s.i + 4 ≤ limit ∧ Lanes shape 7 s'.lanes) := by
  rw [lanes_ready, add_ok (by omega), bind_ok]
  refine safe_ite (fun hroom => ?_) fun _ => Safe.ok ⟨hl, rfl, fun hg => by simp at hg⟩
  have hmap := Safe.mapM (f := lane_reload) (P := fun l p =>
    (p.2.br.Valid ∧ p.2.br.bits_consumed ≤ c) ∧ p.2.dst.length = l.dst.length ∧
      (p.1 = .Unfinished → p.2.br.bits_consumed ≤ 7)) s.lanes fun l hm => by
    obtain ⟨hv, hc⟩ := hl.valid l hm
    obtain ⟨st, br', h₁, hs⟩ := ReverseBitReader.reload_spec hv
    rw [lane_reload, h₁, bind_ok]
    exact Safe.ok ⟨⟨hs.valid, hs.consumed_le.trans hc⟩, rfl, hs.full⟩
  refine hmap.bind fun r hr => Safe.ok ?_
  have hall : ∀ {ks : List Lane} {r : List (ReloadStatus × Lane)}, List.Forall₂ (fun l p =>
      (p.2.br.Valid ∧ p.2.br.bits_consumed ≤ c) ∧ p.2.dst.length = l.dst.length ∧
        (p.1 = .Unfinished → p.2.br.bits_consumed ≤ 7)) ks r →
      (r.map Prod.snd).map (fun l => l.dst.length) = ks.map (fun l => l.dst.length) ∧
      ∀ p ∈ r, (p.2.br.Valid ∧ p.2.br.bits_consumed ≤ c) ∧
        (p.1 = .Unfinished → p.2.br.bits_consumed ≤ 7) := by
    intro ks r hk
    induction hk with
    | nil => exact ⟨rfl, by simp⟩
    | cons hkk _ ih =>
      refine ⟨by simp only [List.map_cons, ih.1, hkk.2.1], fun p hm => ?_⟩
      rcases List.mem_cons.mp hm with rfl | hm
      · exact ⟨hkk.1, hkk.2.2⟩
      · exact ih.2 p hm
  obtain ⟨hshape, hvalid⟩ := hall hr
  refine ⟨⟨hshape.trans hl.shape, fun l hm => ?_⟩, rfl,
    fun hg => ⟨hroom, hshape.trans hl.shape, fun l hm => ?_⟩⟩
  · obtain ⟨p, hp, rfl⟩ := List.mem_map.mp hm
    exact (hvalid p hp).1
  · obtain ⟨p, hp, rfl⟩ := List.mem_map.mp hm
    have hst := List.all_eq_true.mp hg p hp
    exact ⟨(hvalid p hp).1.1, (hvalid p hp).2 (by simpa using hst)⟩

theorem lanes_four_safe (h : table.Valid) {limit : Nat} {shape : List Nat} {s : PhaseState}
    (hl : Lanes shape 7 s.lanes) (hshape : ∀ n ∈ shape, limit ≤ n) (hi : s.i + 4 ≤ limit)
    (hlim : limit < 2 ^ 32) :
    Safe (lanes_four table s) fun s' => Lanes shape 64 s'.lanes ∧ s'.i = s.i + 4 := by
  rw [lanes_four]
  refine Safe.bind (P := Lanes shape 55) ?_ fun ls hls => ?_
  · -- `k` symbols in, every lane consumed at most `7 + 12 * k` bits
    refine (Safe.foldlM (fun l ls => ∃ k, l = (List.range 4).drop k ∧ k ≤ 4 ∧
      Lanes shape (7 + 12 * k) ls) ?_ _ _ ⟨0, rfl, by omega, hl⟩).mono ?_
    · rintro a l ls ⟨k, hk, hk4, hls⟩
      have hlt : k < 4 := by
        by_contra hge
        rw [List.drop_of_length_le (by simp; omega)] at hk
        simp at hk
      rw [List.drop_eq_getElem_cons (by simpa using hlt), List.getElem_range] at hk
      obtain ⟨rfl, hl'⟩ := List.cons_eq_cons.mp hk
      rw [add_ok (by omega), bind_ok]
      refine (hls.mapM (d := 7 + 12 * a + 12) fun l hv hc hm => ?_).mono
        fun ls' hls' => ⟨a + 1, hl', by omega, by rwa [Nat.mul_succ, ← Nat.add_assoc]⟩
      have := hshape _ hm
      exact lane_step_spec (c := 7 + 12 * a) h hv hc (by omega) (by omega)
    · rintro ls ⟨k, -, hk, hls⟩
      exact ⟨hls.shape, fun l hm => ⟨(hls.valid l hm).1, (hls.valid l hm).2.trans (by omega)⟩⟩
  · rw [add_ok (by omega), bind_ok]
    exact Safe.ok ⟨⟨hls.shape, fun l hm => ⟨(hls.valid l hm).1,
      (hls.valid l hm).2.trans (by omega)⟩⟩, rfl⟩

/-- A phase never faults and keeps the segments' lengths. -/
theorem lanes_phase_safe (h : table.Valid) {limit i : Nat} {shape : List Nat} {lanes : List Lane}
    {c : Nat} (hl : Lanes shape c lanes) (hc : c ≤ 2 ^ 24) (hshape : ∀ n ∈ shape, limit ≤ n)
    (hi : i ≤ limit) (hlim : limit < 2 ^ 20) :
    Safe (lanes_phase table limit lanes i) (Lanes shape (max c 64 + 12 * limit)) := by
  rw [lanes_phase]
  refine (lanes_ready_safe (s := ⟨lanes, i, false⟩) hl hi (by omega)).bind ?_
  rintro s ⟨hs, hsi, hgo⟩
  refine (Safe.loop (fun s : PhaseState => (Lanes shape (max c 64) s.lanes ∧ s.i ≤ limit) ∧
      (s.go = true → s.i + 4 ≤ limit ∧ Lanes shape 7 s.lanes)) (fun s => limit - s.i) ?_ _ s
      ⟨⟨⟨hs.shape, fun l hm => ⟨(hs.valid l hm).1, (hs.valid l hm).2.trans (le_max_left _ _)⟩⟩,
        by simp only at hsi; omega⟩, fun hg => by rw [hsi]; exact hgo hg⟩ (by omega)).bind ?_
  · rintro s ⟨-, hgo⟩ hg
    obtain ⟨hroom, h7⟩ := hgo hg
    refine (lanes_four_safe h h7 hshape hroom (by omega)).bind fun t ht => ?_
    obtain ⟨htl, hti⟩ := ht
    refine (lanes_ready_safe htl (by omega) (by omega)).mono ?_
    rintro t' ⟨htl', hti', hgo'⟩
    refine ⟨⟨⟨⟨htl'.shape, fun l hm => ⟨(htl'.valid l hm).1,
      (htl'.valid l hm).2.trans (le_max_right _ _)⟩⟩, by omega⟩,
      fun hg' => by rw [hti']; exact hgo' hg'⟩, by omega⟩
  · rintro s ⟨⟨⟨hs, hsi⟩, -⟩, -⟩
    rw [sub_ok hsi, bind_ok]
    refine (Safe.foldlM (fun l ls => ∃ k, l = (List.range' s.i (limit - s.i)).drop k ∧
      k ≤ limit - s.i ∧ Lanes shape (max c 64 + 12 * k) ls) ?_ _ _ ⟨0, rfl, by omega, hs⟩).mono ?_
    · rintro a l ls ⟨k, hk, hkl, hls⟩
      have hlt : k < limit - s.i := by
        by_contra hge
        rw [List.drop_of_length_le (by simp; omega)] at hk
        simp at hk
      rw [List.drop_eq_getElem_cons (by simpa using hlt), List.getElem_range'] at hk
      obtain ⟨rfl, hl'⟩ := List.cons_eq_cons.mp hk
      refine (hls.mapM (d := max c 64 + 12 * k + 12) fun l hv hc' hm => ?_).mono
        fun ls' hls' => ⟨k + 1, hl', by omega, by rwa [Nat.mul_succ, ← Nat.add_assoc]⟩
      have := hshape _ hm
      exact lane_one_spec (c := max c 64 + 12 * k) h hv hc' (by omega) (by omega)
    · rintro ls ⟨k, -, hk, hls⟩
      exact ⟨hls.shape, fun l hm => ⟨(hls.valid l hm).1, (hls.valid l hm).2.trans (by omega)⟩⟩

theorem segment_safe {src : Bytes} {p len : Nat} (hlen : src.length < 2 ^ 55)
    (hp : p ≤ src.length) (hl : len < 2 ^ 16) :
    Safe (segment src p len) fun r => r.1.length < 2 ^ 55 ∧ r.2 ≤ src.length := by
  rw [segment, add_ok (by omega), bind_ok]
  refine safe_ite (fun _ => safe_fail) fun he => ?_
  rw [slice_ok (by omega) (by omega), bind_ok]
  exact Safe.ok ⟨by rw [List.length_drop, List.length_take]; omega, by simp only; omega⟩

theorem read_u16_ok (src : Bytes) (i : Nat) (h : i + 1 < src.length) :
    ∃ v, read_u16 src i = .ok v ∧ v < 2 ^ 16 := by
  refine ⟨_, by rw [read_u16, get_ok (by omega), bind_ok, get_ok h, bind_ok]; rfl, ?_⟩
  exact leNat_lt _

/-- `decode_4stream` never faults, and decodes `regen_size` symbols. -/
theorem decode_4stream_end_safe (h : table.Valid) {src : Bytes} {regen_size : Nat}
    (hlen : src.length < 2 ^ 55) (hregen : regen_size < 2 ^ 20) :
    Safe (decode_4stream_end table src regen_size) fun ls =>
      (ls.flatMap Lane.dst).length = regen_size := by
  rw [decode_4stream_end]
  refine safe_ite (fun _ => safe_fail) fun h6 => ?_
  obtain ⟨l1, h₁, hl1⟩ := read_u16_ok src 0 (by omega)
  obtain ⟨l2, h₂, hl2⟩ := read_u16_ok src 2 (by omega)
  obtain ⟨l3, h₃, hl3⟩ := read_u16_ok src 4 (by omega)
  rw [h₁, bind_ok, h₂, bind_ok, h₃, bind_ok]
  refine (segment_safe hlen (by omega) hl1).bind ?_
  rintro ⟨s1, p1⟩ ⟨hs1, hp1⟩
  refine (segment_safe hlen hp1 hl2).bind ?_
  rintro ⟨s2, p2⟩ ⟨hs2, hp2⟩
  refine (segment_safe hlen hp2 hl3).bind ?_
  rintro ⟨s3, p3⟩ ⟨hs3, hp3⟩
  simp only at hs1 hs2 hs3 hp1 hp2 hp3
  dsimp only
  rw [sliceFrom_ok hp3, bind_ok]
  refine safe_ite (fun _ => safe_fail) fun hseg => ?_
  rw [sub_ok (by omega), bind_ok, assert_ok (by simp; omega), bind_ok]
  refine (ReverseBitReader.new_safe (by omega)).bind ?_
  rintro r0 ⟨-, hv0, hc0⟩
  refine (ReverseBitReader.new_safe (by omega)).bind ?_
  rintro r1 ⟨-, hv1, hc1⟩
  refine (ReverseBitReader.new_safe (by omega)).bind ?_
  rintro r2 ⟨-, hv2, hc2⟩
  refine (ReverseBitReader.new_safe (by rw [List.length_drop]; omega)).bind ?_
  rintro r3 ⟨-, hv3, hc3⟩
  obtain ⟨seg, hsegdef⟩ : ∃ seg, (regen_size + 3) / 4 = seg := ⟨_, rfl⟩
  obtain ⟨last, hlast⟩ : ∃ last, regen_size - seg * 3 = last := ⟨_, rfl⟩
  rw [hsegdef] at hseg ⊢
  rw [hlast]
  have hstart : Lanes [seg, seg, seg, last] 64 [⟨r0, List.replicate seg 0⟩,
      ⟨r1, List.replicate seg 0⟩, ⟨r2, List.replicate seg 0⟩, ⟨r3, List.replicate last 0⟩] :=
    ⟨by simp, by simp [hv0, hv1, hv2, hv3, hc0, hc1, hc2, hc3]⟩
  refine (lanes_phase_safe h hstart (by omega) (by simp; omega) (Nat.zero_le _) (by omega)).bind ?_
  intro lanes hlanes
  have hfirst : Lanes [seg, seg, seg] (max 64 64 + 12 * last) (lanes.take 3) :=
    ⟨by rw [List.map_take, hlanes.shape]; rfl, fun l hm => hlanes.valid l (List.mem_of_mem_take hm)⟩
  refine (lanes_phase_safe h hfirst (by omega) (by simp) (by omega) (by omega)).bind ?_
  intro firsts hfirsts
  refine Safe.ok ?_
  have hrest : (lanes.drop 3).map (fun l => l.dst.length) = [last] := by
    rw [List.map_drop, hlanes.shape]; rfl
  rw [List.length_flatMap, List.map_append, hfirsts.shape, hrest]
  simp
  omega

theorem decode_4stream_safe (h : table.Valid) {src : Bytes} {regen_size : Nat}
    (hlen : src.length < 2 ^ 55) (hregen : regen_size < 2 ^ 20) :
    Safe (decode_4stream table src regen_size) fun o => o.length = regen_size :=
  (decode_4stream_end_safe h hlen hregen).bind fun _ hlanes => Safe.ok hlanes

end Streams

end ZstdPure.Huff
