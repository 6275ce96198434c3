import ZstdPure.Encode.Frame
import ZstdPure.Proofs.DelimitedProofs

/-!
# Frame headers

The descriptor of a frame header implies its length, and a header is accepted exactly when it is
that long. The headers that the encoder writes give the decoder their fields back. -/

namespace ZstdPure

open Outcome

/-! ## What a descriptor implies -/

/-- Whether the frame is a single segment. -/
def single_segment (fhd : Nat) : Bool := (fhd >>> 5) &&& 1 != 0

/-- The width of the dictionary id field. -/
def dict_id_size (fhd : Nat) : Nat := [0, 1, 2, 4].getD (fhd &&& 3) 0

/-- The width of the content size field. -/
def fcs_size (fhd : Nat) : Nat :=
  let fcs_flag := (fhd >>> 6) &&& 3
  if fcs_flag = 0 then if single_segment fhd then 1 else 0
  else if fcs_flag = 1 then 2
  else if fcs_flag = 2 then 4
  else 8

/-- Where the dictionary id field starts: behind the descriptor and the window byte. -/
def window_end (fhd : Nat) : Nat := 1 + if single_segment fhd then 0 else 1

/-- The length of the header. -/
def implied_len (fhd : Nat) : Nat := window_end fhd + dict_id_size fhd + fcs_size fhd

/-- A descriptor implies 2 to 14 bytes. -/
theorem implied_len_bounds (fhd : Nat) : 2 ≤ implied_len fhd ∧ implied_len fhd ≤ 14 := by
  have hdict : dict_id_size fhd ≤ 4 := by
    have hflag : fhd &&& 3 < 4 := Nat.and_lt_two_pow (n := 2) _ (by norm_num)
    rw [dict_id_size]
    generalize fhd &&& 3 = f at hflag
    interval_cases f <;> decide
  rw [implied_len, window_end, fcs_size]
  split_ifs <;> omega

section

variable {src rest : Bytes} {b : UInt8} {o size : Nat} {what : String} {single : Bool}

theorem parse_window_stop :
    Ensures (parse_window src single o) fun p => p.2 = o + if single then 0 else 1 := by
  rw [parse_window]
  refine ensures_ite (fun hs => Ensures.ok ?_) fun hs => ensures_ite (fun _ => ensures_fail)
    fun _ => ?_
  · rw [if_pos hs, Nat.add_zero]
  · refine Ensures.after fun wd _ => Ensures.after fun o' ho => Ensures.after fun log _ =>
      Ensures.after fun base _ => Ensures.after fun extra _ => Ensures.after fun window _ =>
      Ensures.ok ?_
    rw [if_neg hs]
    exact (add_eq_ok.mp ho).2

theorem parse_field_stop : Ensures (parse_field src what o size) fun p => p.2 = o + size := by
  rw [parse_field]
  refine Ensures.after fun stop hstop => ensures_ite (fun _ => ensures_fail) fun _ =>
    Ensures.after fun b _ => Ensures.ok ?_
  exact (add_eq_ok.mp hstop).2

/-- An accepted header has the length that its descriptor implies. -/
theorem parse_frame_header_implied :
    Ensures (parse_frame_header src) fun h => ∃ b, src.head? = some b ∧ (b.toNat >>> 3) &&& 1 = 0 ∧
      h.header_len = implied_len b.toNat := by
  rw [parse_frame_header]
  refine ensures_ite (fun _ => ensures_fail) fun _ => Ensures.after fun b hb =>
    ensures_ite (fun _ => ensures_fail) fun hres => ?_
  refine parse_window_stop.bind fun p hp => Ensures.after fun size hsize =>
    parse_field_stop.bind fun q hq => parse_field_stop.bind fun r hr =>
    Ensures.after fun content _ => Ensures.ok ?_
  obtain ⟨hlt, hget⟩ := get_eq_ok.mp hb
  obtain ⟨hflag, hsize⟩ := get_eq_ok.mp hsize
  refine ⟨b, ?_, not_not.mp hres, ?_⟩
  · rw [List.head?_eq_getElem?, List.getElem?_eq_getElem hlt, hget]
  · have hdict : dict_id_size b.toNat = size := by
      rw [dict_id_size, List.getD_eq_getElem _ _ hflag, hsize]
    rw [implied_len, hdict, fcs_size, window_end]
    show r.2 = _
    rw [hr, hq, hp]
    rfl

/-- The bytes of `src` from `i` to `j` as a number. -/
def field (src : Bytes) (i j : Nat) : Nat := leNat ((src.take j).drop i)

/-- A field behind a prefix and before a rest. -/
theorem field_append (xs ys zs : Bytes) :
    field (xs ++ ys ++ zs) xs.length (xs.length + ys.length) = leNat ys := by
  rw [field, ← List.length_append, List.take_left, List.drop_left]

/-- The window that a window byte declares. -/
def window_of (wd : Nat) : Nat := 2 ^ (10 + wd >>> 3) + 2 ^ (10 + wd >>> 3) / 8 * (wd &&& 7)

theorem parse_window_ok {wd : UInt8} (ho : o < 2 ^ 32) (hwd : src[o]? = some wd) :
    parse_window src false o = .ok (some (window_of wd.toNat), o + 1) := by
  obtain ⟨hlt, hget⟩ := List.getElem?_eq_some_iff.mp hwd
  have hb := wd.toNat_lt_256
  have he : wd.toNat >>> 3 < 32 := by rw [Nat.shiftRight_eq_div_pow]; omega
  have hm : wd.toNat &&& 7 ≤ 7 := Nat.and_le_right
  have hpow : 2 ^ (10 + wd.toNat >>> 3) ≤ 2 ^ 41 := Nat.pow_le_pow_right (by omega) (by omega)
  have hmul : 2 ^ (10 + wd.toNat >>> 3) / 8 * (wd.toNat &&& 7) ≤ 2 ^ 41 * 7 :=
    Nat.mul_le_mul ((Nat.div_le_self _ _).trans hpow) hm
  rw [parse_window, if_neg (by decide), if_neg (by omega), get_ok hlt, bind_ok, hget,
    add_ok (by omega), bind_ok]
  dsimp only
  rw [add_ok (by omega), bind_ok, shl_exact (by omega) (by omega), bind_ok, Nat.one_mul,
    mul_ok (by omega), bind_ok, add_ok (by omega), bind_ok]
  rfl

theorem parse_field_ok (ho : o + size < 2 ^ 64) (hle : o + size ≤ src.length) :
    parse_field src what o size = .ok (field src o (o + size), o + size) := by
  rw [parse_field, add_ok ho, bind_ok, if_neg (by omega), slice_ok (by omega) hle]
  rfl

/-- The content size that a header declares. -/
def content_size_of (fhd v : Nat) : Option Nat :=
  if fcs_size fhd = 0 then none else if fcs_size fhd = 2 then some (v + 256) else some v

theorem content_size_ok {fhd v : Nat} (hv : fcs_size fhd = 2 → v < 2 ^ 16) :
    (if fcs_size fhd = 0 then pure none
      else if fcs_size fhd = 2 then do
        let v ← add 64 v 256
        pure (some v)
      else pure (some v) : Res (Option Nat)) = .ok (content_size_of fhd v) := by
  rw [content_size_of]
  split_ifs with h0 h2
  · rfl
  · rw [add_ok (by have := hv h2; omega)]
    rfl
  · rfl

/-- A header that is as long as its descriptor implies is accepted. -/
theorem parse_frame_header_ok (hb : src.head? = some b) (hres : (b.toNat >>> 3) &&& 1 = 0)
    (hlen : implied_len b.toNat ≤ src.length) :
    ∃ window, parse_frame_header src = .ok ⟨implied_len b.toNat, (b.toNat >>> 2) &&& 1 != 0,
        content_size_of b.toNat (field src (window_end b.toNat + dict_id_size b.toNat)
          (implied_len b.toNat)), window,
        field src (window_end b.toNat) (window_end b.toNat + dict_id_size b.toNat)⟩ ∧
      (single_segment b.toNat = false → ∀ wd, src[1]? = some wd → window = window_of wd.toNat) := by
  obtain ⟨hge, h14⟩ := implied_len_bounds b.toNat
  have hflag : b.toNat &&& 3 < 4 := Nat.and_lt_two_pow (n := 2) _ (by norm_num)
  have hsize : (get [0, 1, 2, 4] (b.toNat &&& 3) : Res Nat) = .ok (dict_id_size b.toNat) := by
    rw [get_ok hflag, dict_id_size, List.getD_eq_getElem _ _ hflag]
  have hget : (get src 0 : Res UInt8) = .ok b := by
    rw [List.head?_eq_getElem?, List.getElem?_eq_getElem (by omega)] at hb
    rw [get_ok (by omega), Option.some.inj hb]
  -- the window byte, if there is one
  obtain ⟨w, hw, hwindow⟩ : ∃ w, parse_window src (single_segment b.toNat) 1
      = .ok (w, window_end b.toNat) ∧ (single_segment b.toNat = false → ∀ wd, src[1]? = some wd →
        w = some (window_of wd.toNat)) := by
    rw [window_end]
    cases hs : single_segment b.toNat with
    | true => exact ⟨none, rfl, fun h => absurd h (by decide)⟩
    | false =>
      have hwd : src[1]? = some (src.get ⟨1, by omega⟩) := List.getElem?_eq_getElem (by omega)
      refine ⟨_, parse_window_ok (by decide) hwd, fun _ wd hwd' => ?_⟩
      rw [hwd] at hwd'
      rw [Option.some.inj hwd']
  have hlen' := hlen
  rw [implied_len] at hlen' hge h14 ⊢
  have hid := @parse_field_ok src (window_end b.toNat) (dict_id_size b.toNat) "dictionary id"
    (by omega) (by omega)
  have hv := @parse_field_ok src (window_end b.toNat + dict_id_size b.toNat) (fcs_size b.toNat)
    "frame content size" (by omega) hlen'
  have hvlt : fcs_size b.toNat = 2 → field src (window_end b.toNat + dict_id_size b.toNat)
      (window_end b.toNat + dict_id_size b.toNat + fcs_size b.toNat) < 2 ^ 16 := by
    intro h2
    have hlt := leNat_lt ((src.take (window_end b.toNat + dict_id_size b.toNat +
      fcs_size b.toNat)).drop
      (window_end b.toNat + dict_id_size b.toNat))
    rw [List.length_drop, List.length_take, Nat.min_eq_left hlen', Nat.add_sub_cancel_left,
      h2] at hlt
    rwa [field, h2]
  rw [parse_frame_header, if_neg (by omega), hget, bind_ok]
  dsimp only
  rw [if_neg (not_not.mpr hres)]
  change ∃ window, (parse_window src (single_segment b.toNat) 1 >>= _) = _ ∧ _
  rw [hw, bind_ok]
  dsimp only
  rw [hsize, bind_ok, hid, bind_ok]
  dsimp only
  change ∃ window, (parse_field src "frame content size"
    (window_end b.toNat + dict_id_size b.toNat) (fcs_size b.toNat) >>= _) = _ ∧ _
  rw [hv, bind_ok]
  dsimp only
  change ∃ window, ((if fcs_size b.toNat = 0 then _ else if fcs_size b.toNat = 2 then _ else _ :
    Res (Option Nat)) >>= _) = _ ∧ _
  rw [content_size_ok hvlt, bind_ok]
  refine ⟨_, rfl, fun hs wd hwd => ?_⟩
  change (if single_segment b.toNat = true then _ else _) = _
  rw [hs, if_neg (by decide), hwindow hs wd hwd, Option.getD_some]

/-- A header is accepted exactly when it is not empty, its reserved bit is clear, and it is as long
as its descriptor implies. -/
theorem parse_frame_header_accepts :
    (∃ h, parse_frame_header src = .ok h) ↔ ∃ b, src.head? = some b ∧ (b.toNat >>> 3) &&& 1 = 0 ∧
      implied_len b.toNat ≤ src.length := by
  constructor
  · rintro ⟨h, hh⟩
    obtain ⟨b, hb, hres, hlen⟩ := parse_frame_header_implied h hh
    refine ⟨b, hb, hres, ?_⟩
    rw [← hlen]
    exact parse_frame_header_delimited.le src h (Nat.zero_le _) hh
  · rintro ⟨b, hb, hres, hlen⟩
    obtain ⟨window, hh, -⟩ := parse_frame_header_ok hb hres hlen
    exact ⟨_, hh⟩

/-- No strict prefix of an accepted header is accepted. -/
theorem parse_frame_header_take {h : FrameHeader} (hh : parse_frame_header src = .ok h) {n : Nat}
    (hn : n < h.header_len) : ∃ e, parse_frame_header (src.take n) = fail e := by
  refine parse_frame_header_delimited.short _ src h (List.take_prefix n src) (Nat.zero_le _) hh ?_
  rw [List.length_take]
  omega

end

/-! ## Written headers -/

/-- The fields of a written descriptor. -/
theorem written_descriptor : ∀ f < 4, ∀ d < 4, ∀ c : Bool,
    let fhd := (UInt8.ofNat (f <<< 6 ||| c.toNat <<< 2 ||| d)).toNat
    (fhd >>> 3) &&& 1 = 0 ∧ ((fhd >>> 2) &&& 1 != 0) = c ∧ window_end fhd = 2 ∧
      dict_id_size fhd = [0, 1, 2, 4].getD d 0 ∧ fcs_size fhd = [0, 2, 4, 8].getD f 0 ∧
      single_segment fhd = false := by
  decide

/-- The window that a written window byte declares. -/
theorem window_of_written {window_log : Nat} (h10 : 10 ≤ window_log) (h41 : window_log ≤ 41) :
    window_of (UInt8.ofNat ((window_log - 10) <<< 3)).toNat = 2 ^ window_log := by
  have hbits : ∀ e < 32, (UInt8.ofNat (e <<< 3)).toNat >>> 3 = e ∧
      (UInt8.ofNat (e <<< 3)).toNat &&& 7 = 0 := by decide
  obtain ⟨he, hm⟩ := hbits (window_log - 10) (by omega)
  rw [window_of, he, hm, Nat.mul_zero, Nat.add_zero, Nat.add_sub_cancel' h10]

/-- A header written from its parts gives the parts back. -/
theorem parse_written {f d window_log : Nat} {ids vs rest : Bytes} (c : Bool) (hf : f < 4)
    (hf1 : f ≠ 1) (hd : d < 4) (hids : ids.length = [0, 1, 2, 4].getD d 0)
    (hvs : vs.length = [0, 2, 4, 8].getD f 0) (h10 : 10 ≤ window_log) (h41 : window_log ≤ 41) :
    parse_frame_header ([UInt8.ofNat (f <<< 6 ||| c.toNat <<< 2 ||| d),
        UInt8.ofNat ((window_log - 10) <<< 3)] ++ ids ++ vs ++ rest) =
      .ok ⟨2 + ids.length + vs.length, c, if f = 0 then none else some (leNat vs), 2 ^ window_log,
        leNat ids⟩ := by
  obtain ⟨hres, hc, hwin, hdict, hfcs, hsingle⟩ := written_descriptor f hf d hd c
  generalize hsrc : [UInt8.ofNat (f <<< 6 ||| c.toNat <<< 2 ||| d),
    UInt8.ofNat ((window_log - 10) <<< 3)] ++ ids ++ vs ++ rest = src
  have hhead : src.head? = some (UInt8.ofNat (f <<< 6 ||| c.toNat <<< 2 ||| d)) := by
    rw [← hsrc]
    rfl
  have hsecond : src[1]? = some (UInt8.ofNat ((window_log - 10) <<< 3)) := by rw [← hsrc]; rfl
  generalize hb : UInt8.ofNat (f <<< 6 ||| c.toNat <<< 2 ||| d) = b at *
  have himplied : implied_len b.toNat = 2 + ids.length + vs.length := by
    rw [implied_len, hwin, hdict, hfcs, hids, hvs]
  have hlen : implied_len b.toNat ≤ src.length := by
    rw [himplied, ← hsrc]
    simp only [List.length_append, List.length_cons, List.length_nil]
    omega
  obtain ⟨window, hh, hwindow⟩ := parse_frame_header_ok hhead hres hlen
  have hid : field src 2 (2 + ids.length) = leNat ids := by
    rw [← hsrc, List.append_assoc _ vs]
    exact field_append [_, _] ids (vs ++ rest)
  have hv : field src (2 + ids.length) (2 + ids.length + vs.length) = leNat vs := by
    have hpre : ([b, UInt8.ofNat ((window_log - 10) <<< 3)] ++ ids).length = 2 + ids.length := by
      rw [List.length_append]
      rfl
    rw [← hsrc, ← hpre]
    exact field_append _ vs rest
  rw [hh, hwindow hsingle _ hsecond, window_of_written h10 h41, hc, himplied, hwin, hdict, ← hids,
    hid,
    hv, content_size_of, hfcs]
  have hsize : [0, 2, 4, 8].getD f 0 ≠ 2 ∧ ([0, 2, 4, 8].getD f 0 = 0 ↔ f = 0) := by
    interval_cases f <;> first | decide | exact absurd rfl hf1
  rw [if_neg hsize.1]
  simp only [hsize.2]

open Encode

/-- The dictionary id field is as wide as its flag says, and holds the id. -/
theorem dict_id_field_spec {dict_id : Nat} (h : dict_id < 2 ^ 32) :
    (dict_id_field dict_id).1 < 4 ∧
      (dict_id_field dict_id).2 = [0, 1, 2, 4].getD (dict_id_field dict_id).1 0 ∧
      dict_id < 2 ^ (8 * (dict_id_field dict_id).2) := by
  rw [dict_id_field]
  split_ifs with h0 h1 h2
  · exact ⟨by decide, rfl, by subst h0; decide⟩
  · exact ⟨by decide, rfl, by show _ < 2 ^ 8; omega⟩
  · exact ⟨by decide, rfl, by show _ < 2 ^ 16; omega⟩
  · exact ⟨by decide, rfl, h⟩

/-- The content size field is as wide as its flag says, and holds the content size. -/
theorem fcs_flag_spec {content_size f : Nat} (h : content_size < 2 ^ 64)
    (hf : (if content_size ≤ 2 ^ 32 - 1 then 2 else 3) = f) :
    f < 4 ∧ f ≠ 1 ∧ f ≠ 0 ∧ (if f = 2 then 4 else 8) = [0, 2, 4, 8].getD f 0 ∧
      content_size < 2 ^ (8 * if f = 2 then 4 else 8) := by
  by_cases hle : content_size ≤ 2 ^ 32 - 1
  · rw [if_pos hle] at hf
    subst hf
    exact ⟨by decide, by decide, by decide, rfl, by show _ < 2 ^ 32; omega⟩
  · rw [if_neg hle] at hf
    subst hf
    exact ⟨by decide, by decide, by decide, rfl, h⟩

theorem parse_write_frame_header {content_size window_log dict_id : Nat} (checksum : Bool)
    (rest : Bytes)
    (hsize : content_size < 2 ^ 64) (h10 : 10 ≤ window_log) (h41 : window_log ≤ 41)
    (hid : dict_id < 2 ^ 32) :
    parse_frame_header (write_frame_header content_size checksum window_log dict_id ++ rest) =
      .ok ⟨(write_frame_header content_size checksum window_log dict_id).length, checksum,
        some content_size, 2 ^ window_log, dict_id⟩ := by
  obtain ⟨hd, hwidth, hidlt⟩ := dict_id_field_spec hid
  rw [write_frame_header]
  generalize dict_id_field dict_id = field at hd hwidth hidlt ⊢
  generalize hfcs : (if content_size ≤ 2 ^ 32 - 1 then 2 else 3) = f
  obtain ⟨hf, hf1, hf0, hvwidth, hvlt⟩ := fcs_flag_spec hsize hfcs
  refine (parse_written checksum hf hf1 hd (by rw [length_leBytes, hwidth])
    (by rw [length_leBytes, hvwidth]) h10 h41).trans ?_
  rw [if_neg hf0, leNat_leBytes, leNat_leBytes, Nat.mod_eq_of_lt hidlt, Nat.mod_eq_of_lt hvlt]
  simp only [List.length_append, List.length_cons, List.length_nil]

theorem parse_write_frame_header_streaming {window_log : Nat} (checksum : Bool) (rest : Bytes)
    (h10 : 10 ≤ window_log) (h41 : window_log ≤ 41) :
    parse_frame_header (write_frame_header_streaming checksum window_log ++ rest) =
      .ok ⟨(write_frame_header_streaming checksum window_log).length, checksum, none,
        2 ^ window_log,
        0⟩ := by
  have h := @parse_written 0 0 window_log [] [] rest checksum (by decide) (by decide) (by decide)
    rfl rfl
    h10 h41
  rw [Nat.zero_shiftLeft, Nat.zero_or, Nat.or_zero] at h
  exact h

/-- The header of a frame: what the encoder writes is read back, and what is accepted is as long as
its descriptor implies. -/
theorem frame_header_format :
    (∀ (content_size : Nat) (checksum : Bool) (window_log dict_id : Nat) (trailing : Bytes),
      content_size < 2 ^ 64 → 10 ≤ window_log → window_log ≤ 41 → dict_id < 2 ^ 32 →
      frame_header_magicless (write_frame_header content_size checksum window_log dict_id ++
        trailing) =
        .ok ⟨(write_frame_header content_size checksum window_log dict_id).length, checksum,
          some content_size, 2 ^ window_log, dict_id⟩) ∧
    (∀ (checksum : Bool) (window_log : Nat) (trailing : Bytes), 10 ≤ window_log → window_log ≤ 41 →
      frame_header_magicless (write_frame_header_streaming checksum window_log ++ trailing) =
        .ok ⟨(write_frame_header_streaming checksum window_log).length, checksum, none,
          2 ^ window_log, 0⟩) ∧
    (∀ src : Bytes, (∃ h, frame_header_magicless src = .ok h) ↔
      ∃ b, src.head? = some b ∧ (b.toNat >>> 3) &&& 1 = 0 ∧ implied_len b.toNat ≤ src.length) ∧
    (∀ fhd : Nat, 2 ≤ implied_len fhd ∧ implied_len fhd ≤ 14) ∧
    (∀ (src : Bytes) (h : FrameHeader), frame_header_magicless src = .ok h →
      ∀ n < h.header_len, ∃ e, frame_header_magicless (src.take n) = fail e) := by
  refine ⟨?_, ?_, ?_, implied_len_bounds, ?_⟩
  · intro content_size checksum window_log dict_id trailing hsize h10 h41 hid
    exact parse_write_frame_header checksum trailing hsize h10 h41 hid
  · intro checksum window_log trailing h10 h41
    exact parse_write_frame_header_streaming checksum trailing h10 h41
  · intro src
    exact parse_frame_header_accepts
  · intro src h hh n hn
    exact parse_frame_header_take hh hn

/-- `frame_header_format` on a header of eight bytes with a dictionary id, and on every piece of it.
-/
theorem frame_header_format_eight_bytes :
    frame_header_magicless (write_frame_header 70000 true 17 300 ++ [1, 2, 3]) =
        .ok ⟨(write_frame_header 70000 true 17 300).length, true, some 70000, 2 ^ 17, 300⟩ ∧
      frame_header_magicless (write_frame_header_streaming true 17 ++ [1, 2, 3]) =
        .ok ⟨(write_frame_header_streaming true 17).length, true, none, 2 ^ 17, 0⟩ ∧
      ∀ n < 8, ∃ e, frame_header_magicless ((write_frame_header 70000 true 17 300 ++ [1, 2, 3]).take
        n)
        = fail e := by
  obtain ⟨hsized, hstreaming, -, -, hshort⟩ := frame_header_format
  have h := hsized 70000 true 17 300 [1, 2, 3] (by decide) (by decide) (by decide) (by decide)
  exact ⟨h, hstreaming true 17 [1, 2, 3] (by decide) (by decide), hshort _ _ h⟩

end ZstdPure
