import ZstdPure.Proofs.LitStreamProofs
import ZstdPure.Proofs.ReaderEndProofs

/-!
# Huffman streams that are used up

The reader of a Huffman stream ends at the start of the stream exactly when the bits below the
sentinel are the codes of as many symbols as were decoded. -/

namespace ZstdPure

open Outcome BitString

namespace Huff

open Encode ReverseBitReader

/-- The bits are the codes of the symbols, one after the other. -/
inductive Spelled (t : HuffTable) : Bytes → List Bool → Prop
  | nil : Spelled t [] []
  | cons {s : UInt8} {code nb : Nat} {syms : Bytes} {bs : List Bool} (hcode : HasCode t s code nb)
      (h : Spelled t syms bs) : Spelled t (s :: syms) (bits nb code ++ bs)

variable {ws : List Nat} {max_bits : Nat} {t : HuffTable}

/-- The next symbol of a reloaded reader: its code is what the reader holds next, or there are fewer
bits left than it has. -/
theorem next_symbol_cases (hl : Layout ws max_bits t) {br : ReverseBitReader} {st : BitStack}
    (hbr : br.Holds st) (hfit : ∀ m, m ≤ 57 → m ≤ st.len → br.bits_consumed + m ≤ 64) :
    ∃ s code nb br', next_symbol t br = .ok (s, br') ∧ HasCode t s code nb ∧ br'.Valid ∧
      br'.bits_consumed ≤ br.bits_consumed + 12 ∧
      ((nb ≤ st.len ∧ code = st.top nb ∧ br'.Holds (st.pop nb)) ∨ br'.Beyond) := by
  have hlog : t.max_bits ≤ 12 := hl.valid.log
  have hsize : 2 ^ t.max_bits ≤ HUF_DTABLE_SIZE := Nat.pow_le_pow_right (by decide) hlog
  obtain ⟨v, hv, hlt⟩ := br.peek_lt (n := t.max_bits) (by omega)
  have hvlt : v < t.entries.length := by
    rw [hl.length]
    omega
  have hentry : t.entry v = .ok t.entries[v] := by
    rw [HuffTable.entry, Nat.mod_eq_of_lt (by omega), get_ok hvlt]
  have hcode := @Tiled.code_of_entry _ v t.entries[v].num_bits t t.entries[v].symbol _ hl.tiled
    hl.complete.length hlt (List.getElem?_eq_getElem hvlt)
  generalize t.entries[v] = e at hentry hcode
  have hle := hcode.le
  have hc := hbr.consumed
  refine ⟨e.symbol, _, e.num_bits, _, next_symbol_eq hv hentry (by omega), hcode,
    hbr.valid.consume _,
    by simp only; omega, ?_⟩
  by_cases hlen : e.num_bits ≤ st.len
  · have hin := hfit _ (by omega) hlen
    obtain ⟨v', hv', -, hpre⟩ := peek_prefix br hcode.pos hle (by omega)
    rw [hv] at hv'
    obtain rfl := Except.ok.inj hv'
    rw [hbr.peek (by omega) hlen hin] at hpre
    exact Or.inl ⟨hlen, (Except.ok.inj hpre).symm, hbr.consume hlen hin⟩
  · exact Or.inr (hbr.beyond (by omega))

/-- A reader past its stream stays there. -/
theorem decode_beyond : ∀ (n : Nat) (br p : ReverseBitReader) (out out' : Bytes),
    br.Valid → br.Beyond → times (decode_one_symbol t) n (br, out) = .ok (p, out') → p.Beyond := by
  intro n
  induction n with
  | zero =>
    intro br p out out' _ h hrun
    obtain ⟨rfl, -⟩ := Prod.mk.inj (Except.ok.inj hrun)
    exact h
  | succ n ih =>
    intro br p out out' hv h hrun
    rw [times] at hrun
    obtain ⟨⟨br₂, out₂⟩, hone, hrun⟩ := bind_eq_ok.mp hrun
    rw [decode_one_symbol] at hone
    obtain ⟨⟨st, br₁⟩, hreload, hpush⟩ := bind_eq_ok.mp hone
    obtain ⟨st', br₁', hreload', hr⟩ := reload_spec hv
    obtain ⟨rfl, rfl⟩ := Prod.mk.inj (Except.ok.inj (hreload'.symm.trans hreload))
    dsimp only at hpush
    rw [push_symbol] at hpush
    obtain ⟨⟨sym, br₂'⟩, hnext, hpush⟩ := bind_eq_ok.mp hpush
    obtain ⟨rfl, -⟩ := Prod.mk.inj (Except.ok.inj hpush)
    rw [next_symbol] at hnext
    obtain ⟨code, -, hnext⟩ := bind_eq_ok.mp hnext
    obtain ⟨e, -, hnext⟩ := bind_eq_ok.mp hnext
    obtain ⟨br₃, hconsume, hnext⟩ := bind_eq_ok.mp hnext
    obtain ⟨-, rfl⟩ := Prod.mk.inj (Except.ok.inj hnext)
    rw [consume] at hconsume
    obtain ⟨c, hadd, hconsume⟩ := bind_eq_ok.mp hconsume
    obtain rfl := (add_eq_ok.mp hadd).2
    obtain rfl := Except.ok.inj hconsume
    exact ih _ _ _ _ (hr.valid.consume _) ((h.reloaded hr).consume _) hrun

/-- A reader that ends at the start of its stream has read codes only. -/
theorem spelled_of_finished (hl : Layout ws max_bits t) :
    ∀ (n : Nat) (br p : ReverseBitReader) (st : BitStack) (out out' : Bytes), br.Holds st →
      times (decode_one_symbol t) n (br, out) = .ok (p, out') → p.finished = true →
      ∃ syms, syms.length = n ∧ Spelled t syms st.bits := by
  intro n
  induction n with
  | zero =>
    intro br p st out out' hbr hrun hfin
    obtain ⟨rfl, -⟩ := Prod.mk.inj (Except.ok.inj hrun)
    have h0 := hbr.finished_iff.mp hfin
    rw [List.length_eq_zero_iff.mp (st.length_bits.trans h0)]
    exact ⟨[], rfl, .nil⟩
  | succ n ih =>
    intro br p st out out' hbr hrun hfin
    obtain ⟨status, br₁, hreload, hbr₁, -, hfit, -⟩ := hbr.reload
    obtain ⟨s, code, nb, br₂, hnext, hcode, hv, -, hcases⟩ := next_symbol_cases hl hbr₁ hfit
    rw [times, decode_one_symbol, hreload, bind_ok] at hrun
    dsimp only at hrun
    rw [push_symbol, hnext, bind_ok] at hrun
    rcases hcases with ⟨hle, rfl, hbr₂⟩ | hbeyond
    · obtain ⟨syms, hlen, hsyms⟩ := ih _ p _ _ out' hbr₂ hrun hfin
      refine ⟨s :: syms, by rw [List.length_cons, hlen], ?_⟩
      rw [st.bits_split hle]
      exact .cons hcode hsyms
    · exact absurd hfin (decode_beyond n _ _ _ _ hv hbeyond hrun).not_finished

/-- A reader of codes decodes their symbols and ends at the start of its stream. -/
theorem finished_of_spelled (hl : Layout ws max_bits t) {syms : Bytes} {bs : List Bool}
    (h : Spelled t syms bs) : ∀ (br : ReverseBitReader) (st : BitStack) (out : Bytes), br.Holds st →
      st.bits = bs → ∃ p, times (decode_one_symbol t) syms.length (br, out) = .ok (p, out ++ syms) ∧
        p.finished = true := by
  induction h with
  | nil =>
    intro br st out hbr hbs
    refine ⟨br, by rw [List.append_nil]; rfl, hbr.finished_iff.mpr ?_⟩
    rw [← st.length_bits, hbs]
    rfl
  | @cons s code nb syms bs hcode h ih =>
    intro br st out hbr hbs
    have hlog : t.max_bits ≤ 12 := hl.valid.log
    have hle := hcode.le
    have hlen : nb ≤ st.len := by
      rw [← st.length_bits, hbs, List.length_append, length_bits]
      omega
    obtain ⟨htop, hdrop⟩ := st.bits_eq hlen
    rw [hbs, List.take_left' (length_bits _ _), value_bits, Nat.mod_eq_of_lt hcode.lt] at htop
    rw [hbs, List.drop_left' (length_bits _ _)] at hdrop
    obtain ⟨status, br₁, hreload, hbr₁, -, hfit, -⟩ := hbr.reload
    rw [← st.push_top_pop hlen, ← htop] at hbr₁
    obtain ⟨br₂, hnext, hbr₂⟩ := next_symbol_holds hl hcode hbr₁ (hfit _ (by omega) hlen)
    obtain ⟨p, hrun, hfin⟩ := ih br₂ _ (out ++ [s]) hbr₂ hdrop.symm
    refine ⟨p, ?_, hfin⟩
    rw [List.length_cons, times, decode_one_symbol, hreload, bind_ok]
    dsimp only
    rw [push_symbol, hnext, bind_ok]
    show times (decode_one_symbol t) syms.length (br₂, out ++ [s]) = _
    rw [hrun, List.append_assoc, List.singleton_append]

/-- Where the plain decoder ends. -/
theorem run_finished_iff (hl : Layout ws max_bits t) {src out : Bytes} {first p : ReverseBitReader}
    {count : Nat} (hlen : src.length < 2 ^ 63) (hnew : ReverseBitReader.new src = .ok first)
    (hrun : times (decode_one_symbol t) count (first, []) = .ok (p, out)) : p.finished = true ↔
      ∃ syms, syms.length = count ∧ Spelled t syms (below_sentinel src) := by
  obtain ⟨r, st, hr, hst, hbits, -⟩ := new_paired hlen ((new_eq_ok_iff hlen).mp ⟨first, hnew⟩)
  obtain rfl := Except.ok.inj (hr.symm.trans hnew)
  rw [← hbits]
  constructor
  · exact spelled_of_finished hl count r p st [] out hst hrun
  · rintro ⟨syms, rfl, hsyms⟩
    obtain ⟨p', hrun', hfin⟩ := finished_of_spelled hl hsyms r st [] hst rfl
    obtain ⟨rfl, -⟩ := Prod.mk.inj (Except.ok.inj (hrun.symm.trans hrun'))
    exact hfin

/-- The reader of a stream that was decoded as the plain decoder decodes it. -/
theorem Tracks.finished_iff (hl : Layout ws max_bits t) {src out : Bytes}
    {first br : ReverseBitReader}
    {count : Nat} (hlen : src.length < 2 ^ 63) (hnew : ReverseBitReader.new src = .ok first)
    (h : Tracks t first count br out) : br.finished = true ↔
      ∃ syms, syms.length = count ∧ Spelled t syms (below_sentinel src) := by
  obtain ⟨p, hrun, hp⟩ := h.run
  rw [hp.finished]
  exact run_finished_iff hl hlen hnew hrun

/-- The reader of one stream at its end. -/
theorem decode_into_end_finished (hl : Layout ws max_bits t) {src out : Bytes} {count : Nat}
    {br : ReverseBitReader} (hlen : src.length < 2 ^ 63) (hcount : count < 2 ^ 63)
    (h : decode_into_end t src count [] = .ok (br, out)) : br.finished = true ↔
      ∃ syms, syms.length = count ∧ Spelled t syms (below_sentinel src) := by
  have hparts := h
  rw [decode_into_end] at hparts
  obtain ⟨first, hnew, -⟩ := bind_eq_ok.mp hparts
  obtain ⟨s, htracks, hle, hend⟩ := decode_into_end_tracks hl hlen hcount hnew
  obtain ⟨p, hrun, hp⟩ := htracks.run
  rw [h] at hend
  rcases @times_same_position t _ s.out _ hp (count - s.i) with heq | h0
  · rw [heq] at hend
    refine @run_finished_iff _ _ _ hl _ out _ _ _ hlen hnew ?_
    rw [show count = s.i + (count - s.i) by omega, times_add, hrun, bind_ok]
    exact hend.symm
  · rw [h0] at hend
    obtain ⟨rfl, rfl⟩ := Prod.mk.inj (Except.ok.inj hend)
    rw [show count = s.i by omega]
    exact htracks.finished_iff hl hlen hnew

/-- The readers of four streams at their ends. -/
theorem decode_4stream_end_finished (hl : Layout ws max_bits t) {src : Bytes} {regen_size : Nat}
    {ls : List Lane} (hlen : src.length < 2 ^ 63)
    (hregen : 64 + 12 * ((regen_size + 3) / 4) < 2 ^ 32)
    (h : decode_4stream_end t src regen_size = .ok ls) :
    (∀ l ∈ ls, l.br.finished = true) ↔ ∀ k < 4, ∃ syms, syms.length = stream_symbols regen_size k ∧
      Spelled t syms (below_sentinel (substream src k)) := by
  obtain ⟨hno, hyes⟩ := @decode_4stream_end_eq t src regen_size hlen
  by_cases hjump : JumpFits src
  swap
  · obtain ⟨e, he⟩ := hno hjump
    rw [he] at h
    exact absurd h (fail_ne_ok _ _)
  rw [hyes hjump] at h
  obtain ⟨hseg, h⟩ := guard_eq_ok.mp h
  obtain ⟨r0, h0, h⟩ := bind_eq_ok.mp h
  obtain ⟨r1, h1, h⟩ := bind_eq_ok.mp h
  obtain ⟨r2, h2, h⟩ := bind_eq_ok.mp h
  obtain ⟨r3, h3, h⟩ := bind_eq_ok.mp h
  have hsub : ∀ k, (substream src k).length < 2 ^ 63 := fun k =>
    lt_of_le_of_lt (substream_length src k) hlen
  have hspec : ∀ {k : Nat} {r : ReverseBitReader}, ReverseBitReader.new (substream src k) = .ok r →
      r.Valid ∧ r.bits_consumed ≤ 64 := fun hr => ((new_safe (hsub _)).of_ok hr).2
  obtain ⟨_, hls, l0, l1, l2, l3, t0, t1, t2, t3, rfl⟩ := @lanes_run _ _ t hl ((regen_size + 3) / 4)
    (regen_size - (regen_size + 3) / 4 * 3) hregen (by omega) r0 r1 r2 r3 (hspec h0) (hspec h1)
      (hspec h2)
    (hspec h3)
  obtain rfl := Except.ok.inj (hls.symm.trans h)
  rw [Nat.mul_comm] at t3
  have f0 := t0.finished_iff hl (hsub 0) h0
  have f1 := t1.finished_iff hl (hsub 1) h1
  have f2 := t2.finished_iff hl (hsub 2) h2
  have f3 := t3.finished_iff hl (hsub 3) h3
  simp only [List.forall_mem_cons, List.not_mem_nil, false_implies, implies_true, and_true, f0, f1,
    f2, f3]
  constructor
  · rintro ⟨g0, g1, g2, g3⟩ k hk
    interval_cases k
    · exact g0
    · exact g1
    · exact g2
    · exact g3
  · intro g
    exact ⟨g 0 (by decide), g 1 (by decide), g 2 (by decide), g 3 (by decide)⟩

end Huff

end ZstdPure
