import ZstdPure.Consumption
import ZstdPure.Proofs.HuffProofs

/-!
# Huffman literal streams

The fast loops decode what one symbol per reload decodes. A reader that serves several symbols from
one window and a reader that reloads before each of them differ in the window only, never in the
position; and reloading makes readers at one position equal, also past the start of the stream.
-/

namespace ZstdPure.Huff

open Outcome ReverseBitReader

/-! ## The reference -/

/-- The plain decoder: one symbol per reload, from the first symbol to the last. -/
def decode_plain (table : HuffTable) (src : Bytes) (count : Nat) : Res Bytes := do
  let br ← ReverseBitReader.new src
  let (_, out) ← times (decode_one_symbol table) count (br, [])
  pure out

/-- A reader and an output that the plain decoder has after `i` symbols, up to the window. -/
structure Tracks (table : HuffTable) (first : ReverseBitReader) (i : Nat) (br : ReverseBitReader)
    (out : Bytes) : Prop where
  run : ∃ p, times (decode_one_symbol table) i (first, []) = .ok (p, out) ∧ SamePosition br p
  consumed : br.bits_consumed ≤ 64 + 12 * i

section

variable {ws : List Nat} {max_bits i : Nat} {table : HuffTable} {first br : ReverseBitReader}
  {out : Bytes}

/-- The entry of a table for a code. -/
theorem Layout.entry (h : Layout ws max_bits table) (code : Nat) :
    ∃ e, table.entry code = .ok e ∧ e.num_bits ≤ table.max_bits ∧ e.num_bits ≤ 12 := by
  have hlt : code % HUF_DTABLE_SIZE < table.entries.length := by
    rw [h.length]
    exact Nat.mod_lt _ (by decide)
  refine ⟨table.entries[code % HUF_DTABLE_SIZE], by rw [HuffTable.entry, get_ok hlt], ?_,
    h.valid.num_bits _ (List.getElem_mem hlt)⟩
  rw [h.table_bits]
  exact h.num_bits _ (List.getElem_mem hlt)

theorem next_symbol_eq {code : Nat} {e : HuffEntry} (hcode : br.peek table.max_bits = .ok code)
    (he : table.entry code = .ok e) (hc : br.bits_consumed + e.num_bits < 2 ^ 32) :
    next_symbol table br =
      .ok (e.symbol, { br with bits_consumed := br.bits_consumed + e.num_bits }) := by
  rw [next_symbol, hcode, bind_ok, he, bind_ok, consume_ok hc]
  rfl

/-- The plain decoder goes on with the symbol of the reloaded reader. -/
theorem times_decode_one_symbol {p br₁ br₂ : ReverseBitReader} {st : ReloadStatus} {sym : UInt8}
    (hrun : times (decode_one_symbol table) i (first, []) = .ok (p, out))
    (hreload : p.reload = .ok (st, br₁)) (hnext : next_symbol table br₁ = .ok (sym, br₂)) :
    times (decode_one_symbol table) (i + 1) (first, []) = .ok (br₂, out ++ [sym]) := by
  rw [times_succ_last, hrun, bind_ok, decode_one_symbol, hreload, bind_ok]
  show push_symbol table (br₁, out) = _
  rw [push_symbol, hnext]
  rfl

theorem Tracks.start (h : first.Valid) (hc : first.bits_consumed ≤ 64) :
    Tracks table first 0 first [] :=
  ⟨⟨first, rfl, SamePosition.refl h (Or.inl hc)⟩, hc⟩

/-- A reload keeps the position. -/
theorem Tracks.reload (h : Tracks table first i br out) :
    ∃ st br', br.reload = .ok (st, br') ∧ Tracks table first i br' out ∧
      br'.bits_consumed ≤ br.bits_consumed ∧ (st = .Unfinished → br'.bits_consumed ≤ 7) := by
  obtain ⟨p, hrun, hp⟩ := h.run
  obtain ⟨st, st', br', h₁, -, hsame, -, hle, hfull⟩ := hp.reload
  exact ⟨st, br', h₁, ⟨⟨p, hrun, hsame.symm.trans hp⟩, hle.trans h.consumed⟩, hle, hfull⟩

/-- The next symbol of a reader that was just reloaded, as the plain decoder reads it. -/
theorem Tracks.next_reloaded (hl : Layout ws max_bits table) (h : Tracks table first i br out)
    (hi : 64 + 12 * (i + 1) < 2 ^ 32) :
    ∃ st br₁ sym br₂, br.reload = .ok (st, br₁) ∧ next_symbol table br₁ = .ok (sym, br₂) ∧
      Tracks table first (i + 1) br₂ (out ++ [sym]) := by
  obtain ⟨p, hrun, hp⟩ := h.run
  obtain ⟨st, st', br₁, h₁, h₂, hsame, hfresh, hle, -⟩ := hp.reload
  have hc := h.consumed
  obtain ⟨code, hcode, -⟩ := br₁.peek_lt (n := table.max_bits) (hl.valid.log.trans (by decide))
  obtain ⟨e, he, hmax, h12⟩ := hl.entry code
  have hnext := next_symbol_eq hcode he (by omega)
  refine ⟨st, br₁, _, _, h₁, hnext, ⟨_, times_decode_one_symbol hrun h₂ hnext,
    SamePosition.refl (hsame.valid'.consume _) ?_⟩, ?_⟩
  · simp only
    omega
  · simp only
    omega

/-- The next symbol of a reader whose window holds a code. -/
theorem Tracks.next_fits (hl : Layout ws max_bits table) (h : Tracks table first i br out)
    (hfit : br.bits_consumed + table.max_bits ≤ 64) :
    ∃ sym br', next_symbol table br = .ok (sym, br') ∧
    Tracks table first (i + 1) br' (out ++ [sym]) ∧
      br'.bits_consumed ≤ br.bits_consumed + 12 := by
  obtain ⟨p, hrun, hp⟩ := h.run
  obtain ⟨st, st', br₁, h₁, h₂, hsame, hfresh, hle, -⟩ := hp.reload
  have hlog : table.max_bits ≤ 12 := hl.valid.log
  obtain ⟨code, hcode, -⟩ := br.peek_lt (n := table.max_bits) (by omega)
  have hcode₁ : br₁.peek table.max_bits = .ok code :=
    (hsame.peek (by omega) hfit (by omega)).symm.trans hcode
  obtain ⟨e, he, hmax, h12⟩ := hl.entry code
  have hc := h.consumed
  exact ⟨_, _, next_symbol_eq hcode he (by omega),
    ⟨⟨_, times_decode_one_symbol hrun h₂ (next_symbol_eq hcode₁ he (by omega)),
      hsame.consume e.num_bits (Or.inl (by omega)) (Or.inl (by omega))⟩, by simp only; omega⟩,
    by simp only; omega⟩

/-! ## One stream -/

/-- The state of the loops of `decode_into`. -/
structure StreamState.At (table : HuffTable) (first : ReverseBitReader) (count : Nat)
    (s : StreamState) : Prop where
  tracks : Tracks table first s.i s.br s.out
  le : s.i ≤ count
  ready : s.go = true → s.i + 4 ≤ count ∧ s.br.bits_consumed ≤ 7

variable {count : Nat}

theorem four_ready_at {s : StreamState} (hcount : count < 2 ^ 63)
    (h : Tracks table first s.i s.br s.out) (hi : s.i ≤ count) :
    Returns (four_ready count s) fun s' => s'.At table first count ∧ s'.i = s.i := by
  rw [four_ready, add_ok (by omega), bind_ok]
  split_ifs with hroom
  · obtain ⟨st, br', h₁, htracks, -, hfull⟩ := h.reload
    rw [h₁]
    exact ⟨_, rfl, ⟨htracks, hi, fun hgo => ⟨hroom, hfull (by simpa using hgo)⟩⟩, rfl⟩
  · exact ⟨_, rfl, ⟨h, hi, fun hgo => by simp at hgo⟩, rfl⟩

/-- Symbols served from one window. -/
theorem push_symbols_tracks (hl : Layout ws max_bits table) (h : Tracks table first i br out) :
    ∀ n, br.bits_consumed + 12 * n ≤ 64 → Returns (times (push_symbol table) n (br, out)) fun s =>
      Tracks table first (i + n) s.1 s.2 ∧ s.1.bits_consumed ≤ br.bits_consumed + 12 * n := by
  intro n
  induction n with
  | zero => intro _; exact ⟨_, rfl, h, le_rfl⟩
  | succ n ih =>
    intro hfit
    rw [times_succ_last]
    refine (ih (by omega)).bind ?_
    rintro ⟨b, o⟩ ⟨htracks, hle⟩
    have hlog : table.max_bits ≤ 12 := hl.valid.log
    dsimp only at htracks hle
    obtain ⟨sym, b', hnext, htracks', hle'⟩ := htracks.next_fits hl (by omega)
    rw [push_symbol, hnext]
    exact ⟨_, rfl, htracks', by simp only; omega⟩

/-- The fast loop stops at a point of the plain decoder. -/
theorem fast_loop_at (hl : Layout ws max_bits table) (hcount : count < 2 ^ 63) {s : StreamState}
    (h : s.At table first count) :
    Returns (loop StreamState.go (fun s => do
        let s ← decode_four table s
        four_ready count s) (count + 1) s) (StreamState.At table first count) := by
  refine (Returns.loop (StreamState.At table first count) (fun s => count - s.i) ?_ _ s h
    (by omega)).mono fun s hs => hs.1
  rintro ⟨b, i, o, go⟩ hs hgo
  obtain ⟨hroom, h7⟩ := hs.ready hgo
  dsimp only at hroom h7
  simp only [decode_four]
  rw [bind_assoc]
  refine (push_symbols_tracks hl hs.tracks 4 (by simp only; omega)).bind ?_
  rintro ⟨b', o'⟩ ⟨htracks, -⟩
  dsimp only at htracks ⊢
  rw [add_ok (by omega), bind_ok, pure_eq_ok, bind_ok]
  refine (four_ready_at (s := ⟨b', i + 4, o', go⟩) hcount htracks hroom).mono ?_
  rintro s' ⟨hs', hi'⟩
  exact ⟨hs', by rw [hi']; simp only; omega⟩

/-- Readers at one position decode the same symbols, and end at one position. -/
theorem times_same_position {p : ReverseBitReader} (h : SamePosition br p) (n : Nat) :
    times (decode_one_symbol table) n (br, out) = times (decode_one_symbol table) n (p, out) ∨
    n = 0 := by
  cases n with
  | zero => exact Or.inr rfl
  | succ n =>
    obtain ⟨st, st', br₁, h₁, h₂, -⟩ := h.reload
    rw [times, times, decode_one_symbol, decode_one_symbol, h₁, h₂]
    exact Or.inl rfl

/-- `decode_into` ends where the plain decoder ends, up to the window. -/
theorem decode_into_end_tracks (hl : Layout ws max_bits table) {src : Bytes}
    (hlen : src.length < 2 ^ 63)
    (hcount : count < 2 ^ 63) (hnew : ReverseBitReader.new src = .ok first) :
    ∃ s : StreamState, Tracks table first s.i s.br s.out ∧ s.i ≤ count ∧
      decode_into_end table src count [] = times (decode_one_symbol table) (count - s.i)
        (s.br, s.out) := by
  obtain ⟨-, hv, hc⟩ := (new_safe hlen).of_ok hnew
  have h14 : table.max_bits ≤ 14 := hl.valid.log.trans (by decide)
  obtain ⟨s₀, hready, hs₀, -⟩ := four_ready_at (s := ⟨first, 0, [], false⟩) hcount
    (Tracks.start hv hc) (Nat.zero_le count)
  obtain ⟨s, hloop, hs⟩ := fast_loop_at hl hcount hs₀
  refine ⟨s, hs.tracks, hs.le, ?_⟩
  rw [decode_into_end, hnew, bind_ok]
  dsimp only
  rw [if_pos h14, hready, bind_ok, hloop, bind_ok, sub_ok hs.le, bind_ok]

/-- `decode_1stream` decodes what the plain decoder decodes. -/
theorem decode_1stream_eq (hl : Layout ws max_bits table) {src : Bytes} (hlen : src.length < 2 ^ 63)
    (hcount : count < 2 ^ 63) : decode_1stream table src count = decode_plain table src count := by
  rw [decode_1stream, decode_into, decode_plain]
  cases hnew : ReverseBitReader.new src with
  | error e => rw [decode_into_end, hnew]; rfl
  | ok first =>
    obtain ⟨s, htracks, hle, hend⟩ := decode_into_end_tracks hl hlen hcount hnew
    obtain ⟨p, hrun, hp⟩ := htracks.run
    have hsplit : count = s.i + (count - s.i) := (Nat.add_sub_cancel' hle).symm
    rw [hend, bind_ok]
    conv_rhs => rw [hsplit, times_add, hrun, bind_ok]
    rcases @times_same_position table _ s.out _ hp (count - s.i) with h | h
    · rw [h]
    · rw [h]
      rfl

/-! ## Lanes -/

/-- A lane for a stream with reader `c.1`, whose segment of `c.2` bytes holds the first `i` symbols
of the stream. -/
structure Lane.At (table : HuffTable) (i : Nat) (c : ReverseBitReader × Nat) (l : Lane) : Prop where
  tracks : Tracks table c.1 i l.br (l.dst.take i)
  length : l.dst.length = c.2

theorem take_set_succ {dst : Bytes} (sym : UInt8) (h : i < dst.length) :
    (dst.set i sym).take (i + 1) = dst.take i ++ [sym] := by
  rw [List.take_add_one, List.take_set_of_le le_rfl, List.getElem?_set_self h]
  rfl

variable {c : ReverseBitReader × Nat} {l : Lane} {limit : Nat}

/-- Storing the symbol of a lane's reader. -/
theorem Lane.At.store (h : l.At table i c) (hi : i < c.2) {br br' : ReverseBitReader} {sym : UInt8}
    (hnext : next_symbol table br = .ok (sym, br'))
    (ht : Tracks table c.1 (i + 1) br' (l.dst.take i ++ [sym])) :
    lane_step table i ⟨br, l.dst⟩ = .ok ⟨br', l.dst.set i sym⟩ ∧
      Lane.At table (i + 1) c ⟨br', l.dst.set i sym⟩ := by
  have hlt : i < l.dst.length := by rw [h.length]; exact hi
  refine ⟨?_, by simp only; rw [take_set_succ sym hlt]; exact ht, ?_⟩
  · rw [lane_step, hnext, bind_ok]
    dsimp only
    rw [set_ok hlt]
    rfl
  · rw [← h.length]
    exact List.length_set

theorem lane_step_at (hl : Layout ws max_bits table) (h : l.At table i c) (hi : i < c.2)
    (hfit : l.br.bits_consumed + 12 ≤ 64) : Returns (lane_step table i l) fun l' =>
      l'.At table (i + 1) c ∧ l'.br.bits_consumed ≤ l.br.bits_consumed + 12 := by
  have hlog : table.max_bits ≤ 12 := hl.valid.log
  obtain ⟨sym, br', hnext, ht, hle⟩ := h.tracks.next_fits hl (by omega)
  obtain ⟨hstep, hat⟩ := h.store hi hnext ht
  exact ⟨_, hstep, hat, hle⟩

theorem lane_one_at (hl : Layout ws max_bits table) (h : l.At table i c) (hi : i < c.2)
    (hc : 64 + 12 * (i + 1) < 2 ^ 32) :
    Returns (lane_one table i l) fun l' => l'.At table (i + 1) c := by
  have hlog : table.max_bits ≤ 12 := hl.valid.log
  have hbits := h.tracks.consumed
  rw [lane_one, ensure, add_ok (by omega), bind_ok]
  by_cases hfit : 64 < l.br.bits_consumed + table.max_bits
  · obtain ⟨st, br₁, sym, br₂, hreload, hnext, ht⟩ := h.tracks.next_reloaded hl hc
    obtain ⟨hstep, hat⟩ := h.store hi hnext ht
    rw [if_pos hfit, hreload]
    exact ⟨_, hstep, hat⟩
  · obtain ⟨sym, br', hnext, ht, -⟩ := h.tracks.next_fits hl (by omega)
    obtain ⟨hstep, hat⟩ := h.store hi hnext ht
    rw [if_neg hfit]
    exact ⟨_, hstep, hat⟩

/-! ## Phases -/

variable {cs : List (ReverseBitReader × Nat)} {ls : List Lane}

theorem forall₂_and_right {α β : Type} {R : α → β → Prop} {Q : β → Prop} {l : List α} {u : List β}
    (h : List.Forall₂ R l u) (hq : ∀ b ∈ u, Q b) : List.Forall₂ (fun a b => R a b ∧ Q b) l u := by
  induction h with
  | nil => exact List.Forall₂.nil
  | cons hab _ ih =>
    exact List.Forall₂.cons ⟨hab, hq _ (by simp)⟩ (ih fun b hb => hq b (by simp [hb]))

/-- Lanes whose windows hold four more symbols after `k` of them. -/
def Full (table : HuffTable) (i k : Nat) (c : ReverseBitReader × Nat) (l : Lane) : Prop :=
  Lane.At table (i + k) c l ∧ l.br.bits_consumed ≤ 7 + 12 * k

theorem lanes_ready_at {s : PhaseState} (h : List.Forall₂ (Lane.At table s.i) cs s.lanes)
    (hi : s.i ≤ limit) (hlimit : limit < 2 ^ 32) :
    Returns (lanes_ready limit s) fun s' => s'.i = s.i ∧
      List.Forall₂ (Lane.At table s.i) cs s'.lanes ∧
      (s'.go = true → s.i + 4 ≤ limit ∧ List.Forall₂ (Full table s.i 0) cs s'.lanes) := by
  rw [lanes_ready, add_ok (by omega), bind_ok]
  split_ifs with hroom
  · refine (Returns.mapM (S := fun c p => Lane.At table s.i c p.2 ∧
      (p.1 = .Unfinished → p.2.br.bits_consumed ≤ 7)) h fun c _ l hl => ?_).bind fun r hr => ?_
    · obtain ⟨st, br', h₁, ht, -, hfull⟩ := hl.tracks.reload
      rw [lane_reload, h₁]
      exact ⟨_, rfl, ⟨ht, hl.length⟩, hfull⟩
    · refine ⟨_, rfl, rfl, ?_, fun hgo => ⟨hroom, ?_⟩⟩
      · rw [List.forall₂_map_right_iff]
        exact hr.imp fun _ _ hp => hp.1
      · rw [List.forall₂_map_right_iff]
        refine (forall₂_and_right hr fun p hp => List.all_eq_true.mp hgo p hp).imp fun c p hp => ?_
        exact ⟨hp.1.1, hp.1.2 (by simpa using hp.2)⟩
  · exact ⟨_, rfl, rfl, h, fun hgo => by simp at hgo⟩

/-- The symbol `i + k` of every lane. -/
theorem lanes_step_full (hl : Layout ws max_bits table) (hcs : ∀ c ∈ cs, limit ≤ c.2)
    (hlimit : limit < 2 ^ 32) {k : Nat} (hk : k < 4) (hi : i + 4 ≤ limit)
    (h : List.Forall₂ (Full table i k) cs ls) :
    Returns (add 64 i k >>= fun idx => ls.mapM (lane_step table idx))
      (List.Forall₂ (Full table i (k + 1)) cs) := by
  rw [add_ok (by omega), bind_ok]
  refine Returns.mapM h fun c hc l hlane => ?_
  have hlen := hcs c hc
  have h7 := hlane.2
  exact (lane_step_at hl hlane.1 (by omega) (by omega)).mono fun l' hl' => ⟨hl'.1, by omega⟩

theorem lanes_four_at (hl : Layout ws max_bits table) (hcs : ∀ c ∈ cs, limit ≤ c.2)
    (hlimit : limit < 2 ^ 32) {s : PhaseState} (hi : s.i + 4 ≤ limit)
    (h : List.Forall₂ (Full table s.i 0) cs s.lanes) :
    Returns (lanes_four table s) fun s' => s'.i = s.i + 4 ∧
      List.Forall₂ (Lane.At table (s.i + 4)) cs s'.lanes := by
  rw [lanes_four]
  refine Returns.bind (P := List.Forall₂ (Full table s.i 4) cs) ?_ fun ls hls => ?_
  · rw [show List.range 4 = [0, 1, 2, 3] from rfl]
    simp only [List.foldlM_cons, List.foldlM_nil]
    exact (lanes_step_full hl hcs hlimit (by decide) hi h).bind fun ls₁ h₁ =>
      (lanes_step_full hl hcs hlimit (by decide) hi h₁).bind fun ls₂ h₂ =>
      (lanes_step_full hl hcs hlimit (by decide) hi h₂).bind fun ls₃ h₃ =>
      (lanes_step_full hl hcs hlimit (by decide) hi h₃).bind fun ls₄ h₄ => ⟨ls₄, rfl, h₄⟩
  · rw [add_ok (by omega), bind_ok]
    exact ⟨_, rfl, rfl, hls.imp fun c l hcl => hcl.1⟩

/-- The symbols that are left, one refill check each. -/
theorem lanes_tail_at (hl : Layout ws max_bits table) (hcs : ∀ c ∈ cs, limit ≤ c.2)
    (hlimit : 64 + 12 * limit < 2 ^ 32) :
    ∀ (n i : Nat) (ls : List Lane), i + n ≤ limit → List.Forall₂ (Lane.At table i) cs ls →
      Returns ((List.range' i n).foldlM (fun ls idx => ls.mapM (lane_one table idx)) ls)
        (List.Forall₂ (Lane.At table (i + n)) cs) := by
  intro n
  induction n with
  | zero => intro i ls _ h; exact ⟨ls, rfl, h⟩
  | succ n ih =>
    intro i ls hi h
    rw [List.range'_succ, List.foldlM_cons]
    refine Returns.bind (P := List.Forall₂ (Lane.At table (i + 1)) cs)
      (Returns.mapM h fun c hc l hlane => ?_) fun ls' hls' => ?_
    · have hlen := hcs c hc
      exact lane_one_at hl hlane (by omega) (by omega)
    · rw [show i + (n + 1) = i + 1 + n by omega]
      exact ih (i + 1) ls' (by omega) hls'

/-- A phase decodes the symbols up to its limit. -/
theorem lanes_phase_at (hl : Layout ws max_bits table) (hcs : ∀ c ∈ cs, limit ≤ c.2)
    (hlimit : 64 + 12 * limit < 2 ^ 32) (hi : i ≤ limit)
      (h : List.Forall₂ (Lane.At table i) cs ls) :
    Returns (lanes_phase table limit ls i) (List.Forall₂ (Lane.At table limit) cs) := by
  rw [lanes_phase]
  refine (lanes_ready_at (s := ⟨ls, i, false⟩) h hi (by omega)).bind ?_
  rintro s ⟨hsi, hs, hgo⟩
  dsimp only at hsi hs hgo
  refine (Returns.loop (fun s : PhaseState => List.Forall₂ (Lane.At table s.i) cs s.lanes ∧
      s.i ≤ limit ∧ (s.go = true → s.i + 4 ≤ limit ∧ List.Forall₂ (Full table s.i 0) cs s.lanes))
    (fun s => limit - s.i) ?_ _ s (by rw [hsi]; exact ⟨hs, hi, hgo⟩) (by omega)).bind ?_
  · rintro s ⟨-, -, hgo⟩ hg
    obtain ⟨hroom, hfull⟩ := hgo hg
    refine (lanes_four_at hl hcs (by omega) hroom hfull).bind ?_
    rintro t ⟨hti, ht⟩
    rw [← hti] at ht
    refine (lanes_ready_at ht (by omega) (by omega)).mono ?_
    rintro t' ⟨hti', ht', hgo'⟩
    rw [← hti'] at ht' hgo'
    exact ⟨⟨ht', by omega, hgo'⟩, by omega⟩
  · rintro s ⟨⟨hs, hsi, -⟩, -⟩
    rw [sub_ok hsi, bind_ok]
    have htail := lanes_tail_at hl hcs hlimit (limit - s.i) s.i s.lanes (by omega) hs
    rwa [Nat.add_sub_cancel' hsi] at htail

/-! ## Four streams -/

/-- The length of stream `k` of the first three, from the jump table. -/
def stream_len (src : Bytes) (k : Nat) : Nat := leNat ((src.drop (2 * k)).take 2)

/-- Where stream `k` starts, after the jump table and the streams before it. -/
def stream_start (src : Bytes) : Nat → Nat
  | 0 => 6
  | k + 1 => stream_start src k + stream_len src k

/-- Stream `k`; the last one has no length of its own. -/
def substream (src : Bytes) (k : Nat) : Bytes :=
  if k < 3 then (src.take (stream_start src (k + 1))).drop (stream_start src k)
  else src.drop (stream_start src k)

/-- The jump table lies within the source, and so do the streams it names. -/
def JumpFits (src : Bytes) : Prop := 6 ≤ src.length ∧ stream_start src 3 ≤ src.length

/-- The number of symbols of stream `k`. -/
def stream_symbols (regen_size k : Nat) : Nat :=
  if k < 3 then (regen_size + 3) / 4 else regen_size - 3 * ((regen_size + 3) / 4)

theorem read_u16_eq {src : Bytes} {k : Nat} (h : 2 * k + 1 < src.length) :
    read_u16 src (2 * k) = .ok (stream_len src k) := by
  rw [read_u16, get_ok (by omega), bind_ok, get_ok h, bind_ok, stream_len,
    List.drop_eq_getElem_cons (by omega), List.drop_eq_getElem_cons h]
  rfl

theorem stream_len_lt (src : Bytes) (k : Nat) : stream_len src k < 2 ^ 16 := by
  have hlt := leNat_lt ((src.drop (2 * k)).take 2)
  have hlen : ((src.drop (2 * k)).take 2).length ≤ 2 := by
    rw [List.length_take]
    omega
  exact lt_of_lt_of_le hlt (Nat.pow_le_pow_right (by decide) (by omega))

theorem segment_eq {src : Bytes} {k : Nat} (hlen : src.length < 2 ^ 63) (hk : k < 3)
    (hp : stream_start src k ≤ src.length) :
    segment src (stream_start src k) (stream_len src k) =
      if src.length < stream_start src (k + 1) then
        fail (.Truncated "huffman 4-stream segment" (stream_start src (k + 1) - src.length))
      else .ok (substream src k, stream_start src (k + 1)) := by
  have hlt := stream_len_lt src k
  rw [segment, add_ok (by omega), bind_ok, substream, if_pos hk]
  show (if src.length < stream_start src (k + 1) then _ else _) = _
  split_ifs with hshort
  · rfl
  · rw [slice_ok (Nat.le_add_right _ _) (Nat.le_of_not_lt hshort)]
    rfl

/-- `decode_4stream_end` after the split of its source. -/
theorem decode_4stream_end_eq {src : Bytes} {regen_size : Nat} (hlen : src.length < 2 ^ 63) :
    (¬ JumpFits src → ∃ e, decode_4stream_end table src regen_size = fail e) ∧
    (JumpFits src → decode_4stream_end table src regen_size =
      if regen_size < (regen_size + 3) / 4 * 3 then
        fail (.Invalid "huffman 4-stream size" s!"regen {regen_size} too small for 4 streams")
      else do
        let r0 ← ReverseBitReader.new (substream src 0)
        let r1 ← ReverseBitReader.new (substream src 1)
        let r2 ← ReverseBitReader.new (substream src 2)
        let r3 ← ReverseBitReader.new (substream src 3)
        let seg := (regen_size + 3) / 4
        let last := regen_size - seg * 3
        let lanes ← lanes_phase table last
          [⟨r0, List.replicate seg 0⟩, ⟨r1, List.replicate seg 0⟩, ⟨r2, List.replicate seg 0⟩,
            ⟨r3, List.replicate last 0⟩] 0
        let firsts ← lanes_phase table seg (lanes.take 3) last
        pure (firsts ++ lanes.drop 3)) := by
  have hmono : stream_start src 0 ≤ stream_start src 1 ∧ stream_start src 1 ≤ stream_start src 2 ∧
      stream_start src 2 ≤ stream_start src 3 :=
    ⟨Nat.le_add_right _ _, Nat.le_add_right _ _, Nat.le_add_right _ _⟩
  rw [decode_4stream_end]
  by_cases h6 : src.length < 6
  · rw [if_pos h6]
    exact ⟨fun _ => ⟨_, rfl⟩, fun h => absurd h.1 (by omega)⟩
  have h₀ := @read_u16_eq src 0 (by omega)
  have h₁ := @read_u16_eq src 1 (by omega)
  have h₂ := @read_u16_eq src 2 (by omega)
  rw [if_neg h6, h₀, bind_ok, h₁, bind_ok, h₂, bind_ok]
  have hs₀ : segment src 6 (stream_len src 0) = _ :=
    @segment_eq src 0 hlen (by decide) (Nat.le_of_not_lt h6)
  by_cases h1 : src.length < stream_start src 1
  · rw [hs₀, if_pos h1, bind_fail]
    exact ⟨fun _ => ⟨_, rfl⟩, fun h => absurd h.2 (by omega)⟩
  rw [hs₀, if_neg h1, bind_ok]
  dsimp only
  have hs₁ := @segment_eq src 1 hlen (by decide) (Nat.le_of_not_lt h1)
  by_cases h2 : src.length < stream_start src 2
  · rw [hs₁, if_pos h2, bind_fail]
    exact ⟨fun _ => ⟨_, rfl⟩, fun h => absurd h.2 (by omega)⟩
  rw [hs₁, if_neg h2, bind_ok]
  dsimp only
  have hs₂ := @segment_eq src 2 hlen (by decide) (Nat.le_of_not_lt h2)
  by_cases h3 : src.length < stream_start src 3
  · rw [hs₂, if_pos h3, bind_fail]
    exact ⟨fun _ => ⟨_, rfl⟩, fun h => absurd h.2 (by omega)⟩
  rw [hs₂, if_neg h3, bind_ok]
  dsimp only
  rw [sliceFrom_ok (Nat.le_of_not_lt h3), bind_ok]
  refine ⟨fun h => absurd ⟨by omega, Nat.le_of_not_lt h3⟩ h, fun _ => ?_⟩
  by_cases hseg : regen_size < (regen_size + 3) / 4 * 3
  · rw [if_pos hseg, if_pos hseg]
  · rw [if_neg hseg, if_neg hseg, sub_ok (by omega), bind_ok, assert_ok (by simp; omega), bind_ok]
    rfl

/-- `decode_4stream` after the split of its source. -/
theorem decode_4stream_eq {src : Bytes} {regen_size : Nat} (hlen : src.length < 2 ^ 63) :
    (¬ JumpFits src → ∃ e, decode_4stream table src regen_size = fail e) ∧
    (JumpFits src → decode_4stream table src regen_size =
      if regen_size < (regen_size + 3) / 4 * 3 then
        fail (.Invalid "huffman 4-stream size" s!"regen {regen_size} too small for 4 streams")
      else do
        let r0 ← ReverseBitReader.new (substream src 0)
        let r1 ← ReverseBitReader.new (substream src 1)
        let r2 ← ReverseBitReader.new (substream src 2)
        let r3 ← ReverseBitReader.new (substream src 3)
        let seg := (regen_size + 3) / 4
        let last := regen_size - seg * 3
        let lanes ← lanes_phase table last
          [⟨r0, List.replicate seg 0⟩, ⟨r1, List.replicate seg 0⟩, ⟨r2, List.replicate seg 0⟩,
            ⟨r3, List.replicate last 0⟩] 0
        let firsts ← lanes_phase table seg (lanes.take 3) last
        pure ((firsts ++ lanes.drop 3).flatMap Lane.dst)) := by
  obtain ⟨hno, hyes⟩ := @decode_4stream_end_eq table src regen_size hlen
  rw [decode_4stream]
  refine ⟨fun hjump => ?_, fun hjump => ?_⟩
  · obtain ⟨e, he⟩ := hno hjump
    exact ⟨e, by rw [he, bind_fail]⟩
  · rw [hyes hjump]
    split_ifs with hseg
    · rfl
    · simp only [bind_assoc]
      rfl

/-- The interleaved phases decode every stream to its end. -/
theorem lanes_run (hl : Layout ws max_bits table) {seg last : Nat} (hseg : 64 + 12 * seg < 2 ^ 32)
    (hle : last ≤ seg) {r0 r1 r2 r3 : ReverseBitReader} (h0 : r0.Valid ∧ r0.bits_consumed ≤ 64)
    (h1 : r1.Valid ∧ r1.bits_consumed ≤ 64) (h2 : r2.Valid ∧ r2.bits_consumed ≤ 64)
    (h3 : r3.Valid ∧ r3.bits_consumed ≤ 64) :
    Returns (do
        let lanes ← lanes_phase table last
          [⟨r0, List.replicate seg 0⟩, ⟨r1, List.replicate seg 0⟩, ⟨r2, List.replicate seg 0⟩,
            ⟨r3, List.replicate last 0⟩] 0
        let firsts ← lanes_phase table seg (lanes.take 3) last
        pure (firsts ++ lanes.drop 3)) fun ls =>
      ∃ l0 l1 l2 l3 : Lane, Tracks table r0 seg l0.br l0.dst ∧ Tracks table r1 seg l1.br l1.dst ∧
        Tracks table r2 seg l2.br l2.dst ∧ Tracks table r3 last l3.br l3.dst ∧
        ls = [l0, l1, l2, l3] := by
  have hat : ∀ {r : ReverseBitReader} (n : Nat), r.Valid ∧ r.bits_consumed ≤ 64 →
      Lane.At table 0 (r, n) ⟨r, List.replicate n 0⟩ := by
    intro r n hr
    refine ⟨?_, List.length_replicate⟩
    rw [List.take_zero]
    exact Tracks.start hr.1 hr.2
  have hend : ∀ {r : ReverseBitReader} {n : Nat} {l : Lane}, Lane.At table n (r, n) l →
      Tracks table r n l.br l.dst := by
    intro r n l h
    have ht := h.tracks
    rwa [List.take_of_length_le (by rw [h.length])] at ht
  have hstart : List.Forall₂ (Lane.At table 0) [(r0, seg), (r1, seg), (r2, seg), (r3, last)]
      [⟨r0, List.replicate seg 0⟩, ⟨r1, List.replicate seg 0⟩, ⟨r2, List.replicate seg 0⟩,
        ⟨r3, List.replicate last 0⟩] :=
    .cons (hat seg h0) (.cons (hat seg h1) (.cons (hat seg h2) (.cons (hat last h3) .nil)))
  refine (lanes_phase_at hl ?_ (by omega) (Nat.zero_le _) hstart).bind fun lanes hlanes => ?_
  · simp only [List.forall_mem_cons]
    exact ⟨hle, hle, hle, le_rfl, by simp⟩
  -- the last stream is done, the first three go on
  refine (lanes_phase_at hl ?_ hseg hle (List.forall₂_take 3 hlanes)).bind fun firsts hfirsts => ?_
  · simp only [List.take_succ_cons, List.take_zero, List.forall_mem_cons]
    exact ⟨le_rfl, le_rfl, le_rfl, by simp⟩
  have hlast := List.forall₂_drop 3 hlanes
  simp only [List.take_succ_cons, List.take_zero, List.drop_succ_cons, List.drop_zero,
    List.forall₂_cons_left_iff, List.forall₂_nil_left_iff] at hfirsts hlast
  obtain ⟨l0, _, hl0, ⟨l1, _, hl1, ⟨l2, _, hl2, rfl, rfl⟩, rfl⟩, rfl⟩ := hfirsts
  obtain ⟨l3, _, hl3, rfl, hdrop⟩ := hlast
  rw [hdrop]
  exact ⟨_, rfl, l0, l1, l2, l3, hend hl0, hend hl1, hend hl2, hend hl3, rfl⟩

/-- The literals of the interleaved phases. -/
theorem lanes_decode (hl : Layout ws max_bits table) {seg last : Nat}
    (hseg : 64 + 12 * seg < 2 ^ 32) (hle : last ≤ seg) {r0 r1 r2 r3 : ReverseBitReader}
    (h0 : r0.Valid ∧ r0.bits_consumed ≤ 64) (h1 : r1.Valid ∧ r1.bits_consumed ≤ 64)
    (h2 : r2.Valid ∧ r2.bits_consumed ≤ 64) (h3 : r3.Valid ∧ r3.bits_consumed ≤ 64) :
    Returns (do
        let lanes ← lanes_phase table last
          [⟨r0, List.replicate seg 0⟩, ⟨r1, List.replicate seg 0⟩, ⟨r2, List.replicate seg 0⟩,
            ⟨r3, List.replicate last 0⟩] 0
        let firsts ← lanes_phase table seg (lanes.take 3) last
        pure ((firsts ++ lanes.drop 3).flatMap Lane.dst)) fun out =>
      ∃ b0 b1 b2 b3 o0 o1 o2 o3, Tracks table r0 seg b0 o0 ∧ Tracks table r1 seg b1 o1 ∧
        Tracks table r2 seg b2 o2 ∧ Tracks table r3 last b3 o3 ∧ out = o0 ++ o1 ++ o2 ++ o3 := by
  obtain ⟨ls, hls, l0, l1, l2, l3, t0, t1, t2, t3, rfl⟩ := lanes_run hl hseg hle h0 h1 h2 h3
  obtain ⟨lanes, hlanes, hls⟩ := bind_eq_ok.mp hls
  obtain ⟨firsts, hfirsts, hls⟩ := bind_eq_ok.mp hls
  rw [hlanes, bind_ok, hfirsts, bind_ok, Except.ok.inj hls]
  exact ⟨_, rfl, l0.br, l1.br, l2.br, l3.br, l0.dst, l1.dst, l2.dst, l3.dst, t0, t1, t2,
    t3, by simp⟩

/-- The plain decoder's symbols are those of `decode_1stream`. -/
theorem Tracks.decode_1stream (hl : Layout ws max_bits table) {src : Bytes}
    (hlen : src.length < 2 ^ 63) (hi : i < 2 ^ 63) (hnew : ReverseBitReader.new src = .ok first)
    (h : Tracks table first i br out) : decode_1stream table src i = .ok out := by
  obtain ⟨p, hrun, -⟩ := h.run
  rw [decode_1stream_eq hl hlen hi, decode_plain, hnew, bind_ok, hrun]
  rfl

theorem build_table_length {t : HuffTable} (h : build_table ws = .ok t) : ws.length < 256 := by
  rw [build_table] at h
  obtain ⟨sum, -, h⟩ := bind_eq_ok.mp h
  obtain ⟨-, h⟩ := guard_eq_ok.mp h
  obtain ⟨hb, -, h⟩ := bind_eq_ok.mp h
  obtain ⟨bits, -, h⟩ := bind_eq_ok.mp h
  obtain ⟨-, h⟩ := guard_eq_ok.mp h
  obtain ⟨full, -, h⟩ := bind_eq_ok.mp h
  obtain ⟨left, -, h⟩ := bind_eq_ok.mp h
  obtain ⟨residual, -, h⟩ := bind_eq_ok.mp h
  obtain ⟨-, h⟩ := guard_eq_ok.mp h
  obtain ⟨hb', -, h⟩ := bind_eq_ok.mp h
  obtain ⟨last, -, h⟩ := bind_eq_ok.mp h
  obtain ⟨hle, -⟩ := guard_eq_ok.mp h
  rw [List.length_append, List.length_singleton] at hle
  omega

/-- The table of an accepted list, completed by its last weight. -/
theorem build_table_layout {t : HuffTable} (h : build_table ws = .ok t) :
    ∃ last max_bits, 1 ≤ last ∧ Layout (ws ++ [last]) max_bits t := by
  by_cases hok : ∃ last max_bits, Completes ws last max_bits
  · obtain ⟨last, max_bits, hc⟩ := hok
    obtain ⟨t', ht', hl⟩ := build_table_ok hc
    rw [h] at ht'
    obtain rfl := Except.ok.inj ht'
    exact ⟨last, max_bits, hc.last_pos, hl⟩
  · obtain ⟨msg, hmsg, -⟩ := build_table_rejects (build_table_length h).le hok
    rw [h] at hmsg
    exact absurd hmsg (ok_ne_fail _ _)

theorem substream_length (src : Bytes) (k : Nat) : (substream src k).length ≤ src.length := by
  rw [substream]
  split_ifs
  · rw [List.length_drop, List.length_take]
    omega
  · rw [List.length_drop]
    omega

/-- Four streams with a sentinel each decode one after the other. -/
theorem decode_4stream_all (regen_size : Nat) (hl : Layout ws max_bits table) {src : Bytes}
    (hlen : src.length < 2 ^ 63) (hregen : 64 + 12 * ((regen_size + 3) / 4) < 2 ^ 32)
    (hjump : JumpFits src) (hseg : 3 * ((regen_size + 3) / 4) ≤ regen_size)
    (hall : ∀ k < 4, HasSentinel (substream src k)) :
    ∃ outs, decode_4stream table src regen_size = .ok outs.flatten ∧
      (List.range 4).mapM (fun k =>
        decode_1stream table (substream src k) (stream_symbols regen_size k)) = .ok outs := by
  have hsub : ∀ k, (substream src k).length < 2 ^ 63 := fun k =>
    lt_of_le_of_lt (substream_length src k) hlen
  have hsym : ∀ k, stream_symbols regen_size k < 2 ^ 63 := by
    intro k
    rw [stream_symbols]
    split_ifs <;> omega
  have hspec : ∀ {k : Nat} {r : ReverseBitReader}, ReverseBitReader.new (substream src k) = .ok r →
      r.Valid ∧ r.bits_consumed ≤ 64 := fun hr => ((new_safe (hsub _)).of_ok hr).2
  obtain ⟨r0, h0⟩ := (new_eq_ok_iff (hsub 0)).mpr (hall 0 (by decide))
  obtain ⟨r1, h1⟩ := (new_eq_ok_iff (hsub 1)).mpr (hall 1 (by decide))
  obtain ⟨r2, h2⟩ := (new_eq_ok_iff (hsub 2)).mpr (hall 2 (by decide))
  obtain ⟨r3, h3⟩ := (new_eq_ok_iff (hsub 3)).mpr (hall 3 (by decide))
  obtain ⟨out, hout, b0, b1, b2, b3, o0, o1, o2, o3, t0, t1, t2, t3, hcat⟩ :=
    @lanes_decode _ _ table hl ((regen_size + 3) / 4) (regen_size - (regen_size + 3) / 4 * 3)
      hregen (by omega) r0 r1 r2 r3 (hspec h0) (hspec h1) (hspec h2) (hspec h3)
  rw [(@decode_4stream_eq table src regen_size hlen).2 hjump, if_neg (by omega), h0, bind_ok, h1,
    bind_ok, h2, bind_ok, h3, bind_ok]
  dsimp only
  rw [hout]
  refine ⟨[o0, o1, o2, o3], by rw [hcat]; simp, mapM_eq_ok.mpr ?_⟩
  rw [Nat.mul_comm] at t3
  exact .cons (t0.decode_1stream hl (hsub 0) (hsym 0) h0)
    (.cons (t1.decode_1stream hl (hsub 1) (hsym 1) h1)
      (.cons (t2.decode_1stream hl (hsub 2) (hsym 2) h2)
        (.cons (t3.decode_1stream hl (hsub 3) (hsym 3) h3) .nil)))

/-- `decode_1stream` decodes one symbol per reload. `decode_4stream` succeeds exactly when the jump
table fits, four segments of `ceil (regen_size / 4)` symbols do and every stream has a sentinel, and
then decodes the four streams one after the other. The number of symbols is bounded by the bit
counter of the readers; a literals header states no more than `2 ^ 18`. -/
theorem decode_streams_exact (h : build_table ws = .ok table) (src : Bytes)
    (hlen : src.length < 2 ^ 63) :
    (∀ count, count < 2 ^ 63 → decode_1stream table src count = decode_plain table src count) ∧
    ∀ regen_size, 64 + 12 * ((regen_size + 3) / 4) < 2 ^ 32 →
      ((∃ out, decode_4stream table src regen_size = .ok out) ↔
        JumpFits src ∧ 3 * ((regen_size + 3) / 4) ≤ regen_size ∧
          ∀ k < 4, HasSentinel (substream src k)) ∧
      ∀ out, decode_4stream table src regen_size = .ok out → ∃ outs,
        (List.range 4).mapM (fun k =>
          decode_1stream table (substream src k) (stream_symbols regen_size k)) = .ok outs ∧
        out = outs.flatten := by
  obtain ⟨last_weight, max_bits, hl⟩ :=
    (build_table_safe ws (build_table_length h).le).of_ok h
  refine ⟨fun count hcount => decode_1stream_eq hl hlen hcount, fun regen_size hregen => ?_⟩
  have hsub : ∀ k, (substream src k).length < 2 ^ 63 := fun k =>
    lt_of_le_of_lt (substream_length src k) hlen
  obtain ⟨hno, hyes⟩ := @decode_4stream_eq table src regen_size hlen
  by_cases hjump : JumpFits src
  swap
  · obtain ⟨e, he⟩ := hno hjump
    rw [he]
    exact ⟨iff_of_false (by simp) fun hc => hjump hc.1, fun out ho => absurd ho (fail_ne_ok _ _)⟩
  by_cases hseg : regen_size < (regen_size + 3) / 4 * 3
  · rw [hyes hjump, if_pos hseg]
    exact ⟨iff_of_false (by simp) fun hc => by omega, fun out ho => absurd ho (fail_ne_ok _ _)⟩
  by_cases hall : ∀ k < 4, HasSentinel (substream src k)
  · obtain ⟨outs, hdec, houts⟩ := decode_4stream_all _ hl hlen hregen hjump (by omega) hall
    rw [hdec]
    refine ⟨iff_of_true ⟨_, rfl⟩ ⟨hjump, by omega, hall⟩, fun out' ho => ?_⟩
    obtain rfl := Except.ok.inj ho
    exact ⟨outs, houts, rfl⟩
  · -- a stream without a sentinel has no reader
    rw [hyes hjump, if_neg hseg]
    have hfail : ∀ (f : ReverseBitReader → ReverseBitReader → ReverseBitReader → ReverseBitReader →
        Res Bytes) (out : Bytes), (do
          let r0 ← ReverseBitReader.new (substream src 0)
          let r1 ← ReverseBitReader.new (substream src 1)
          let r2 ← ReverseBitReader.new (substream src 2)
          let r3 ← ReverseBitReader.new (substream src 3)
          f r0 r1 r2 r3) ≠ .ok out := by
      intro f out ho
      obtain ⟨r0, h0, ho⟩ := bind_eq_ok.mp ho
      obtain ⟨r1, h1, ho⟩ := bind_eq_ok.mp ho
      obtain ⟨r2, h2, ho⟩ := bind_eq_ok.mp ho
      obtain ⟨r3, h3, -⟩ := bind_eq_ok.mp ho
      refine hall fun k hk => (new_eq_ok_iff (hsub k)).mp ?_
      interval_cases k
      · exact ⟨r0, h0⟩
      · exact ⟨r1, h1⟩
      · exact ⟨r2, h2⟩
      · exact ⟨r3, h3⟩
    exact ⟨iff_of_false (fun ⟨out, ho⟩ => hfail _ out ho) fun hc => hall hc.2.2,
      fun out ho => absurd ho (hfail _ out)⟩

/-- Four streams of some codes for the table of two codes of two bits and one of one bit. -/
theorem decode_streams_exact_two_weights : ∃ table outs,
    build_table [1, 1] = .ok table ∧
    (List.range 4).mapM (fun k => decode_1stream table
      (substream [2, 0, 1, 0, 2, 0, 9, 5, 13, 44, 1, 6] k) (stream_symbols 23 k)) = .ok outs ∧
    decode_4stream table [2, 0, 1, 0, 2, 0, 9, 5, 13, 44, 1, 6] 23 = .ok outs.flatten := by
  obtain ⟨table, h, -⟩ := @build_table_ok [1, 1] 2 2
    ⟨by decide, by decide, by decide, by decide, by decide, by decide⟩
  have hjump : JumpFits [2, 0, 1, 0, 2, 0, 9, 5, 13, 44, 1, 6] := ⟨by decide, by decide⟩
  have hall : ∀ k < 4, HasSentinel (substream [2, 0, 1, 0, 2, 0, 9, 5, 13, 44, 1, 6] k) := by
    intro k hk
    interval_cases k
    · exact ⟨by decide, by decide⟩
    · exact ⟨by decide, by decide⟩
    · exact ⟨by decide, by decide⟩
    · exact ⟨by decide, by decide⟩
  obtain ⟨hiff, hcat⟩ :=
    (decode_streams_exact h [2, 0, 1, 0, 2, 0, 9, 5, 13, 44, 1, 6] (by decide)).2
    23 (by decide)
  obtain ⟨out, hout⟩ := hiff.mpr ⟨hjump, by decide, hall⟩
  obtain ⟨outs, houts, rfl⟩ := hcat out hout
  exact ⟨table, outs, h, houts, hout⟩

end

/-! ## The bit counter -/

section Counter

variable {table : HuffTable}

/-- A reader at the start of its stream with nothing left in its window. -/
structure Spent (br : ReverseBitReader) : Prop where
  ptr : br.ptr = 0
  bits : 64 ≤ br.bits_consumed

/-- Reloading such a reader does nothing. -/
theorem Spent.reload {br : ReverseBitReader} (h : Spent br) :
    ∃ st, br.reload = .ok (st, br) ∧ st ≠ .Unfinished := by
  have hptr := h.ptr
  have hbits := h.bits
  rw [ReverseBitReader.reload]
  split_ifs
  · exact ⟨_, rfl, by decide⟩
  · omega
  · omega
  · exact ⟨_, rfl, by decide⟩

/-- Every symbol counts at least one bit, and the counter has 32. -/
theorem Spent.lane_one
    (hbits : ∀ code < 2 ^ table.max_bits, ∀ e, table.entry code = .ok e → 1 ≤ e.num_bits)
    (hmax : table.max_bits ≤ 32) {l l' : Lane} (h : Spent l.br) {idx : Nat}
    (hstep : lane_one table idx l = .ok l') :
    Spent l'.br ∧ l.br.bits_consumed + 1 ≤ l'.br.bits_consumed ∧ l'.br.bits_consumed < 2 ^ 32 := by
  obtain ⟨st, hreload, -⟩ := h.reload
  rw [Huff.lane_one] at hstep
  obtain ⟨br, hbr, hstep⟩ := bind_eq_ok.mp hstep
  have hsame : br = l.br := by
    rw [ensure] at hbr
    obtain ⟨need, -, hbr⟩ := bind_eq_ok.mp hbr
    split_ifs at hbr
    · rw [hreload, bind_ok] at hbr
      exact (Except.ok.inj hbr).symm
    · exact (Except.ok.inj hbr).symm
  subst hsame
  rw [lane_step] at hstep
  obtain ⟨⟨sym, br'⟩, hnext, hstep⟩ := bind_eq_ok.mp hstep
  obtain ⟨dst, -, hstep⟩ := bind_eq_ok.mp hstep
  obtain rfl := Except.ok.inj hstep
  rw [next_symbol] at hnext
  obtain ⟨code, hcode, hnext⟩ := bind_eq_ok.mp hnext
  obtain ⟨e, he, hnext⟩ := bind_eq_ok.mp hnext
  obtain ⟨br, hbr', hnext⟩ := bind_eq_ok.mp hnext
  obtain ⟨-, rfl⟩ := Prod.mk.inj (Except.ok.inj hnext)
  obtain ⟨v, hv, hlt⟩ := peek_lt l.br hmax
  obtain rfl := Except.ok.inj (hcode.symm.trans hv)
  have hone := hbits code hlt e he
  rw [ReverseBitReader.consume] at hbr'
  obtain ⟨n, hn, hbr'⟩ := bind_eq_ok.mp hbr'
  obtain ⟨hsmall, rfl⟩ := add_eq_ok.mp hn
  obtain rfl := Except.ok.inj hbr'
  have h64 := h.bits
  exact ⟨⟨h.ptr, by simp only; omega⟩, by simp only; omega, hsmall⟩

/-- The lanes of one spent reader decode fewer than `2 ^ 32` symbols. -/
theorem Spent.lanes_tail
    (hbits : ∀ code < 2 ^ table.max_bits, ∀ e, table.entry code = .ok e → 1 ≤ e.num_bits)
    (hmax : table.max_bits ≤ 32) (n : Nat) : ∀ (i : Nat) (l : Lane) (ls ls' : List Lane),
      Spent l.br →
    (List.range' i n).foldlM (fun ls idx => ls.mapM (Huff.lane_one table idx)) (l :: ls) = .ok ls' →
    n = 0 ∨ l.br.bits_consumed + n < 2 ^ 32 := by
  induction n with
  | zero => exact fun _ _ _ _ _ _ => Or.inl rfl
  | succ n ih =>
    intro i l ls ls' h hrun
    rw [List.range'_succ, List.foldlM_cons] at hrun
    obtain ⟨lanes, hlanes, hrun⟩ := bind_eq_ok.mp hrun
    rw [List.mapM_cons] at hlanes
    obtain ⟨l', hl', hlanes⟩ := bind_eq_ok.mp hlanes
    obtain ⟨rest, -, hlanes⟩ := bind_eq_ok.mp hlanes
    obtain rfl := Except.ok.inj hlanes
    obtain ⟨hspent, hmore, hsmall⟩ := h.lane_one hbits hmax hl'
    rcases ih (i + 1) l' rest ls' hspent hrun with rfl | hlt
    · exact Or.inr (by omega)
    · exact Or.inr (by omega)

/-- Such a lane is never ready for four symbols at once. -/
theorem Spent.lanes_phase
    (hbits : ∀ code < 2 ^ table.max_bits, ∀ e, table.entry code = .ok e → 1 ≤ e.num_bits)
    (hmax : table.max_bits ≤ 32) {limit : Nat} {l : Lane} {ls ls' : List Lane} (h : Spent l.br)
    (hrun : Huff.lanes_phase table limit (l :: ls) 0 = .ok ls') :
    limit = 0 ∨ l.br.bits_consumed + limit < 2 ^ 32 := by
  rw [Huff.lanes_phase] at hrun
  obtain ⟨s, hready, hrun⟩ := bind_eq_ok.mp hrun
  have hs : s.go = false ∧ s.i = 0 ∧ ∃ ls₁, s.lanes = l :: ls₁ := by
    rw [lanes_ready] at hready
    obtain ⟨n, -, hready⟩ := bind_eq_ok.mp hready
    split_ifs at hready
    · obtain ⟨r, hr, hready⟩ := bind_eq_ok.mp hready
      obtain rfl := Except.ok.inj hready
      obtain ⟨st, hreload, hst⟩ := h.reload
      have hlane : lane_reload l = .ok (st, l) := by
        rw [lane_reload, hreload]
        rfl
      rw [List.mapM_cons, hlane, bind_ok] at hr
      obtain ⟨r', -, hr⟩ := bind_eq_ok.mp hr
      obtain rfl := Except.ok.inj hr
      exact ⟨by simp [hst], rfl, _, rfl⟩
    · obtain rfl := Except.ok.inj hready
      exact ⟨rfl, rfl, _, rfl⟩
  obtain ⟨hgo, hi, ls₁, hlanes⟩ := hs
  obtain ⟨s', hloop, hrun⟩ := bind_eq_ok.mp hrun
  rw [loop_of_not hgo] at hloop
  obtain rfl := Except.ok.inj hloop
  rw [hi, hlanes] at hrun
  obtain ⟨rest, hrest, hrun⟩ := bind_eq_ok.mp hrun
  obtain ⟨-, rfl⟩ := sub_eq_ok.mp hrest
  exact h.lanes_tail hbits hmax _ 0 l ls₁ ls' hrun

/-- Four streams that hold no bits but their sentinels. -/
def bare_sentinels : Bytes := [1, 0, 1, 0, 1, 0, 1, 1, 1, 1]

/-- A reader for a sentinel alone. -/
theorem new_bare : ReverseBitReader.new [1] = .ok ⟨[1], 0, 1, 64⟩ := by decide

/-- Four streams can have valid sentinels and more symbols than the counter has bits for. -/
theorem decode_4stream_counts_bits : ¬ ∀ (ws : List Nat) (table : HuffTable) (src : Bytes)
    (regen_size : Nat),
    build_table ws = .ok table → src.length < 2 ^ 63 → regen_size < 2 ^ 63 →
    ((∃ out, decode_4stream table src regen_size = .ok out) ↔
      JumpFits src ∧ 3 * ((regen_size + 3) / 4) ≤ regen_size ∧
        ∀ k < 4, HasSentinel (substream src k)) := by
  intro hclaim
  obtain ⟨table, htable, hl⟩ := @build_table_ok [1] 1 1
    ⟨by decide, by decide, by decide, by decide, by decide, by decide⟩
  have hjump : JumpFits bare_sentinels := ⟨by decide, by decide⟩
  have hsub : ∀ k < 4, substream bare_sentinels k = [1] := by decide
  have hall : ∀ k < 4, HasSentinel (substream bare_sentinels k) := by
    intro k hk
    rw [hsub k hk]
    exact ⟨by decide, by decide⟩
  obtain ⟨out, hout⟩ :=
    (hclaim [1] table bare_sentinels (2 ^ 34) htable (by decide) (by decide)).mpr
    ⟨hjump, by decide, hall⟩
  have hmax : table.max_bits = 1 := hl.table_bits
  have hbits : ∀ code < 2 ^ table.max_bits, ∀ e, table.entry code = .ok e → 1 ≤ e.num_bits := by
    rw [hmax]
    intro code hcode e he
    have hentry : table.entries[code]? = some ⟨UInt8.ofNat code, 1⟩ := by
      interval_cases code
      · exact hl.entries 0 (by decide) (by decide) 0 (by decide) (by decide)
      · exact hl.entries 1 (by decide) (by decide) 1 (by decide) (by decide)
    rw [HuffTable.entry, Nat.mod_eq_of_lt (hcode.trans (by decide))] at he
    obtain ⟨hlt, rfl⟩ := get_eq_ok.mp he
    rw [List.getElem?_eq_getElem hlt] at hentry
    rw [Option.some.inj hentry]
  -- the last stream is as long as the others, so its phase has all the symbols
  rw [(@decode_4stream_eq table bare_sentinels (2 ^ 34) (by decide)).2 hjump, if_neg (by decide),
    hsub 0 (by decide), hsub 1 (by decide), hsub 2 (by decide), hsub 3 (by decide), new_bare,
    bind_ok,
    bind_ok, bind_ok, bind_ok] at hout
  obtain ⟨lanes, hlanes, -⟩ := bind_eq_ok.mp hout
  rcases Spent.lanes_phase hbits (by omega) ⟨rfl, le_rfl⟩ hlanes with h0 | hlt
  · exact absurd h0 (by decide)
  · exact absurd hlt (by decide)

end Counter

end ZstdPure.Huff
