import ZstdPure.Literals
import ZstdPure.Proofs.HuffProofs

/-!
# The literals section

`decode` never faults on any bytes, consumes no more than it is given and keeps the cached table
valid.
-/

namespace ZstdPure.Literals

open Outcome Huff

variable {src : Bytes}

theorem need_safe {n : Nat} : Safe (need src n) fun _ => n ≤ src.length := by
  rw [need]
  exact safe_ite (fun _ => safe_fail) fun h => Safe.ok (by omega)

theorem byte_ok (src : Bytes) (i : Nat) (h : i < src.length) : ∃ n, byte src i = .ok n ∧
    n < 2 ^ 8 := by
  refine ⟨src[i].toNat, ?_, (src[i]).toNat_lt⟩
  rw [byte, get_ok h, bind_ok]; rfl

theorem parse_compressed_header_safe {b0 size_format : Nat} :
    Safe (parse_compressed_header src b0 size_format) fun h =>
      h.regen < 2 ^ 18 ∧ h.comp < 2 ^ 18 ∧ h.hdr ≤ 5 ∧ h.hdr ≤ src.length := by
  have hmask : ∀ v k m : Nat, m < 2 ^ k → k ≤ 18 → v &&& m < 2 ^ 18 := fun v k m hm hk =>
    lt_of_lt_of_le (Nat.and_lt_two_pow v hm) (Nat.pow_le_pow_right (by omega) hk)
  rw [parse_compressed_header]
  refine safe_ite (fun _ => ?_) fun _ => safe_ite (fun _ => ?_) fun _ => ?_
  · refine need_safe.bind fun _ hn => ?_
    obtain ⟨b1, h1, -⟩ := byte_ok src 1 (by omega)
    obtain ⟨b2, h2, -⟩ := byte_ok src 2 (by omega)
    rw [h1, bind_ok, h2, bind_ok]
    exact Safe.ok ⟨hmask _ 10 _ (by norm_num) (by omega), hmask _ 10 _ (by norm_num) (by omega),
      by simp, hn⟩
  · refine need_safe.bind fun _ hn => ?_
    obtain ⟨b1, h1, -⟩ := byte_ok src 1 (by omega)
    obtain ⟨b2, h2, -⟩ := byte_ok src 2 (by omega)
    obtain ⟨b3, h3, -⟩ := byte_ok src 3 (by omega)
    rw [h1, bind_ok, h2, bind_ok, h3, bind_ok]
    exact Safe.ok ⟨hmask _ 14 _ (by norm_num) (by omega), hmask _ 14 _ (by norm_num) (by omega),
      by simp, hn⟩
  · refine need_safe.bind fun _ hn => ?_
    obtain ⟨b1, h1, -⟩ := byte_ok src 1 (by omega)
    obtain ⟨b2, h2, -⟩ := byte_ok src 2 (by omega)
    obtain ⟨b3, h3, -⟩ := byte_ok src 3 (by omega)
    obtain ⟨b4, h4, -⟩ := byte_ok src 4 (by omega)
    rw [h1, bind_ok, h2, bind_ok, h3, bind_ok, h4, bind_ok]
    exact Safe.ok ⟨hmask _ 18 _ (by norm_num) (by omega), hmask _ 18 _ (by norm_num) (by omega),
      by simp, hn⟩

theorem parse_raw_header_safe {b0 size_format : Nat} (hb : b0 < 2 ^ 8) (hlen : src.length ≠ 0) :
    Safe (parse_raw_header src b0 size_format) fun p =>
      p.1 < 2 ^ 20 ∧ p.2 ≤ 3 ∧ p.2 ≤ src.length := by
  rw [parse_raw_header]
  have hb3 : b0 >>> 3 < 2 ^ 20 := by rw [Nat.shiftRight_eq_div_pow]; omega
  have hb4 : b0 >>> 4 < 2 ^ 20 := by rw [Nat.shiftRight_eq_div_pow]; omega
  refine safe_ite (fun _ => ?_) fun _ => safe_ite (fun _ => ?_) fun _ => ?_
  · exact Safe.ok ⟨hb3, by simp, by simp only; omega⟩
  · refine need_safe.bind fun _ hn => ?_
    obtain ⟨b1, h1, hb1⟩ := byte_ok src 1 (by omega)
    have hs1 : b1 <<< 4 < 2 ^ 20 := by rw [Nat.shiftLeft_eq]; omega
    rw [h1, bind_ok]
    exact Safe.ok ⟨Nat.or_lt_two_pow hb4 hs1, by simp, hn⟩
  · refine need_safe.bind fun _ hn => ?_
    obtain ⟨b1, h1, hb1⟩ := byte_ok src 1 (by omega)
    obtain ⟨b2, h2, hb2⟩ := byte_ok src 2 (by omega)
    have hs1 : b1 <<< 4 < 2 ^ 20 := by rw [Nat.shiftLeft_eq]; omega
    have hs2 : b2 <<< 12 < 2 ^ 20 := by rw [Nat.shiftLeft_eq]; omega
    rw [h1, bind_ok, h2, bind_ok]
    exact Safe.ok ⟨Nat.or_lt_two_pow (Nat.or_lt_two_pow hb4 hs1) hs2, by simp, hn⟩

/-- The cached table, if there is one, is valid. -/
def CacheValid (cache : Option HuffTable) : Prop := ∀ t ∈ cache, t.Valid

/-- The table and the stream of a compressed section, fresh or cached. -/
theorem stream_safe {region : Bytes} {cache : Option HuffTable} {block_type : Nat}
    (hc : CacheValid cache) (hlen : region.length < 2 ^ 55) :
    Safe (if block_type = 2 then do
        let (table, tbytes) ← read_table region
        let stream ← sliceFrom region tbytes
        pure (stream, some table)
      else if cache.isNone then
        fail (.Invalid "treeless literals" "no cached Huffman table to reuse")
      else pure (region, cache) : Res (Bytes × Option HuffTable)) fun p =>
      p.1.length < 2 ^ 55 ∧ ∃ t : HuffTable, p.2 = some t ∧ t.Valid := by
  refine safe_ite (fun _ => ?_) fun _ => safe_ite (fun _ => safe_fail) fun hsome => ?_
  · refine (read_table_safe hlen).bind ?_
    rintro ⟨t, n⟩ ⟨hn, ws, max_bits, hl⟩
    dsimp only
    rw [sliceFrom_ok hn, bind_ok]
    exact Safe.ok ⟨by rw [List.length_drop]; omega, t, rfl, hl.valid⟩
  · obtain ⟨t, rfl⟩ := Option.ne_none_iff_exists'.mp (by simpa using hsome)
    exact Safe.ok ⟨hlen, t, rfl, hc t rfl⟩

theorem compressed_streams_safe {cache : Option HuffTable} (hc : CacheValid cache)
    (hlen : src.length < 2 ^ 55) (b0 : Nat) :
    Safe (compressed_streams src cache b0) fun r => r.2.1 ≤ src.length ∧ r.1.table.Valid ∧
      r.1.stream.length < 2 ^ 55 ∧ r.1.regen < 2 ^ 20 ∧ CacheValid r.2.2 := by
  rw [compressed_streams]
  refine parse_compressed_header_safe.bind ?_
  rintro h ⟨hregen, hcomp, h5, hhdr⟩
  rw [add_ok (by omega), bind_ok]
  refine need_safe.bind fun _ hn => ?_
  rw [slice_ok (by omega) hn, bind_ok]
  refine (stream_safe hc (by rw [List.length_drop, List.length_take]; omega)).bind ?_
  rintro ⟨stream, _⟩ ⟨hs, t, rfl, ht⟩
  dsimp only at hs ⊢
  rw [unwrap_some, bind_ok]
  refine Safe.ok ⟨hn, ht, hs, by simp only; omega, fun t' ht' => ?_⟩
  obtain rfl : t = t' := by simpa using ht'
  exact ht

theorem Streams.decode_safe {s : Streams} (ht : s.table.Valid) (hlen : s.stream.length < 2 ^ 55)
    (hregen : s.regen < 2 ^ 20) : Safe s.decode fun o => o.length = s.regen := by
  rw [Streams.decode]
  refine safe_ite (fun _ => decode_4stream_safe ht hlen hregen) fun _ => ?_
  exact (decode_into_safe ht (by omega) hregen).mono fun o ho => by simpa using ho

theorem decode_safe {cache : Option HuffTable} (hc : CacheValid cache)
    (hlen : src.length < 2 ^ 55) :
    Safe (decode src cache) fun d =>
      d.consumed ≤ src.length ∧ d.literals.length < 2 ^ 20 ∧ CacheValid d.cache := by
  rw [decode]
  refine safe_ite (fun _ => safe_fail) fun h0 => ?_
  obtain ⟨b0, h₀, hb0⟩ := byte_ok src 0 (by omega)
  rw [h₀, bind_ok]
  dsimp only
  refine safe_ite (fun _ => ?_) fun _ => ?_
  · refine (parse_raw_header_safe hb0 h0).bind ?_
    rintro ⟨regen, hdr⟩ ⟨hregen, h3, hhdr⟩
    simp only at hregen h3 hhdr
    dsimp only
    refine safe_ite (fun _ => ?_) fun _ => ?_
    · rw [add_ok (by omega), bind_ok]
      refine need_safe.bind fun _ hn => ?_
      rw [slice_ok (by omega) hn, bind_ok]
      exact Safe.ok ⟨hn, by simp only [List.length_drop, List.length_take]; omega, hc⟩
    · refine need_safe.bind fun _ hn => ?_
      rw [get_ok (by omega), bind_ok]
      exact Safe.ok ⟨hn, by simp only [List.length_replicate]; omega, hc⟩
  · refine (compressed_streams_safe hc hlen b0).bind ?_
    rintro ⟨streams, stop, cache'⟩ ⟨hstop, ht, hs, hregen, hc'⟩
    refine (Streams.decode_safe ht hs hregen).bind fun o ho => ?_
    exact Safe.ok ⟨hstop, ho.trans_lt hregen, hc'⟩

end ZstdPure.Literals
