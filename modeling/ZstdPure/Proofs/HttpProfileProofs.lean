import ZstdPure.Proofs.ConcatenationProofs
import ZstdPure.Proofs.DictionaryIdProofs

/-!
# The HTTP profile

A window ceiling looks at the header of a frame alone and never at a skippable frame, so the decode
under a ceiling is the decode without one, of the streams whose frames declare no larger window.
-/

namespace ZstdPure

open Outcome

section

variable {src : Bytes} {m w : Nat}

/-! ## One frame -/

theorem check_window_eq_ok {n : Nat} {u : Unit} : check_window n (some w) = .ok u ↔ n ≤ w := by
  rw [check_window]
  split_ifs with h
  · exact iff_of_false (fail_ne_ok _ _) (Nat.not_le.mpr h)
  · exact iff_of_true rfl (Nat.not_lt.mp h)

/-- Where the magic number announces a frame, `frame_header` reads the header behind it. -/
theorem frame_header_of_front {pos pos' : Nat} {rest : Bytes} {header : FrameHeader}
    (hfront : decode_front src true = .ok (.frame pos))
    (hrest : (sliceFrom src pos : Res Bytes) = .ok rest)
    (hheader : parse_frame_header rest = .ok header)
    (hpos : (add 64 pos header.header_len : Res Nat) = .ok pos') :
    frame_header src = .ok { header with header_len := pos' } := by
  rw [decode_front, if_pos rfl] at hfront
  obtain ⟨hlen, hfront⟩ := guard_eq_ok.mp hfront
  obtain ⟨magic, hmagic, hfront⟩ := bind_eq_ok.mp hfront
  by_cases hskip : magic &&& SKIPPABLE_MAGIC_MASK = SKIPPABLE_MAGIC
  · rw [if_pos hskip] at hfront
    obtain ⟨-, hfront⟩ := guard_eq_ok.mp hfront
    obtain ⟨len, -, hfront⟩ := bind_eq_ok.mp hfront
    obtain ⟨-, hfront⟩ := guard_eq_ok.mp hfront
    obtain ⟨-, hfront⟩ := guard_eq_ok.mp hfront
    exact absurd (Except.ok.inj hfront) (by simp)
  · rw [if_neg hskip] at hfront
    obtain ⟨hm, hfront⟩ := guard_eq_ok.mp hfront
    obtain rfl := Front.frame.inj (Except.ok.inj hfront)
    obtain ⟨hword, rfl⟩ := add_eq_ok.mp hpos
    rw [frame_header, if_neg hlen, hmagic, bind_ok, if_neg hm, hrest, bind_ok, hheader, bind_ok,
      add_ok (by omega), bind_ok, Nat.add_comm]
    rfl

/-- A frame starts under a window ceiling when it starts without one and declares no larger window.
-/
theorem frame_start_window {start : Nat ⊕ FrameStart} :
    frame_start src true m none (some w) = .ok start ↔ frame_start src true m none none =
      .ok start ∧
      ∀ header, frame_header src = .ok header → header.window_size ≤ w := by
  rw [frame_start, frame_start]
  cases hfront : decode_front src true with
  | error e =>
    constructor
    · intro h
      cases h
    · rintro ⟨h, -⟩
      cases h
  | ok front =>
    rw [bind_ok, bind_ok]
    cases front with
    | skippable n =>
      refine ⟨fun h => ⟨h, fun header hheader => ?_⟩, And.left⟩
      obtain ⟨rest, pos, h', hfront', -⟩ := @decode_front_of_header _ true _ hheader
      exact absurd (Except.ok.inj (hfront.symm.trans hfront')) (by simp)
    | frame pos =>
      dsimp only
      constructor
      · intro h
        obtain ⟨rest, hrest, h⟩ := bind_eq_ok.mp h
        obtain ⟨header, hheader, h⟩ := bind_eq_ok.mp h
        obtain ⟨pos', hpos, h⟩ := bind_eq_ok.mp h
        obtain ⟨u, hwindow, h⟩ := bind_eq_ok.mp h
        refine ⟨?_, fun header' hheader' => ?_⟩
        · rw [hrest, bind_ok, hheader, bind_ok, hpos, bind_ok]
          exact h
        · rw [frame_header_of_front hfront hrest hheader hpos] at hheader'
          rw [← Except.ok.inj hheader']
          exact check_window_eq_ok.mp hwindow
      · rintro ⟨h, hall⟩
        obtain ⟨rest, hrest, h⟩ := bind_eq_ok.mp h
        obtain ⟨header, hheader, h⟩ := bind_eq_ok.mp h
        obtain ⟨pos', hpos, h⟩ := bind_eq_ok.mp h
        have hle := hall _ (frame_header_of_front hfront hrest hheader hpos)
        rw [hrest, bind_ok, hheader, bind_ok, hpos, bind_ok, check_window_eq_ok.mpr hle]
        exact h

/-- A frame decodes under a window ceiling when it decodes without one and declares no larger
window. -/
theorem decode_frame_window {f : DecodedFrame} :
    decode_frame src true m none (some w) = .ok f ↔ decode_one src true m = .ok f ∧
      ∀ header, frame_header src = .ok header → header.window_size ≤ w := by
  rw [decode_one, decode_one_with_dict, decode_frame_eq, decode_frame_eq]
  constructor
  · intro h
    obtain ⟨start, hstart, h⟩ := bind_eq_ok.mp h
    obtain ⟨hstart, hall⟩ := frame_start_window.mp hstart
    exact ⟨bind_eq_ok.mpr ⟨start, hstart, h⟩, hall⟩
  · rintro ⟨h, hall⟩
    obtain ⟨start, hstart, h⟩ := bind_eq_ok.mp h
    exact bind_eq_ok.mpr ⟨start, frame_start_window.mpr ⟨hstart, hall⟩, h⟩

/-! ## The stream -/

/-- A frame loop whose decoder agrees, at every frame, with that of a loop that returns. -/
theorem decode_stream_transfer {decode decode' : Bytes → Nat → Res DecodedFrame} {v : Bytes}
    (hstep : ∀ pos budget f, FrameAt decode src m pos budget → decode (src.drop pos) budget =
      .ok f →
      decode' (src.drop pos) budget = .ok f)
    (h : decode_stream decode src m = .ok v) : decode_stream decode' src m = .ok v := by
  rw [decode_stream] at h ⊢
  obtain ⟨t, ht, h⟩ := bind_eq_ok.mp h
  refine bind_eq_ok.mpr ⟨t, loop_transfer (fun s : Nat × Bytes =>
    FrameAt decode src m s.1 (m - s.2.length)) (fun s s' hs _ hbody => ?_) _ (0, []) .start ht, h⟩
  obtain ⟨hm, hbody⟩ := guard_eq_ok.mp hbody
  obtain ⟨rest, hrest, hbody⟩ := bind_eq_ok.mp hbody
  obtain ⟨f, hf, hbody⟩ := bind_eq_ok.mp hbody
  obtain ⟨pos, hpos, hbody⟩ := bind_eq_ok.mp hbody
  obtain ⟨-, rfl⟩ := sliceFrom_eq_ok.mp hrest
  obtain ⟨hword, rfl⟩ := add_eq_ok.mp hpos
  obtain rfl := Except.ok.inj hbody
  constructor
  · rw [if_neg hm, hrest, bind_ok, hstep _ _ f hs hf, bind_ok, add_ok hword]
    rfl
  · have hnext := hs.next hf
    rw [Nat.sub_sub, ← List.length_append] at hnext
    exact hnext

/-- Where a stream that decodes under a ceiling goes on, a frame decodes under it. -/
theorem FrameAt.decodes {v : Bytes} {pos budget : Nat}
    (h : FrameAt (fun s m => decode_frame s true m none (some w)) src m pos budget)
    (hrun : StreamRun (fun s m => decode_frame s true m none (some w)) src m v) :
    src.drop pos = [] ∨ ∃ f, decode_frame (src.drop pos) true budget none (some w) = .ok f := by
  obtain ⟨x, y, -, -, -, -, hy⟩ := h.split (decode_frame_decoder true none (some w)) hrun
  generalize src.drop pos = rest at hy ⊢
  cases hy with
  | nil => exact Or.inl rfl
  | frame hf _ => exact Or.inr ⟨_, hf⟩

/-- The frames of a stream that decodes under a ceiling are those that it has without one. -/
theorem FrameAt.under_window {v : Bytes} {pos budget : Nat}
    (h : FrameAt (fun s m => decode_one s true m) src m pos budget)
    (hrun : StreamRun (fun s m => decode_frame s true m none (some w)) src m v) :
    FrameAt (fun s m => decode_frame s true m none (some w)) src m pos budget := by
  induction h with
  | start => exact .start
  | @next pos budget f _ hf ih =>
    rcases ih.decodes hrun with hnil | ⟨f', hf'⟩
    · have hdec := decode_frame_decoder true none none
      have hcons := (hdec.delimited budget).le _ f (Nat.zero_le _) hf
      have hpos := hdec.consumed_pos _ _ f hf
      rw [hnil, List.length_nil] at hcons
      omega
    · have hone := (decode_frame_window.mp hf').1
      rw [Except.ok.inj (hf.symm.trans hone)]
      exact ih.next hf'

end

/-- The decode under the HTTP profile is the general decode of the streams whose frames declare no
window above the ceiling, and no ceiling rejects a skippable frame. -/
theorem http_profile_exact :
    (∀ (src : Bytes) (m : Nat) (v : Bytes), decompress_http src m = .ok v ↔
      decompress_capped src m = .ok v ∧
        ∀ pos budget header, FrameAt (fun s m => decode_one s true m) src m pos budget →
          frame_header (src.drop pos) = .ok header → header.window_size ≤ HTTP_MAX_WINDOW_SIZE) ∧
    (∀ (nibble : Fin 16) (body rest : Bytes) (m w : Nat), body.length < 2 ^ 32 →
      decode_frame (skippable_frame nibble body ++ rest) true m none (some w) =
        .ok ⟨[], 8 + body.length, []⟩) := by
  refine ⟨fun src m v => ⟨fun h => ⟨?_, ?_⟩, ?_⟩, fun nibble body rest m w hbody => ?_⟩
  · exact decode_stream_transfer (fun pos budget f _ hf => (decode_frame_window.mp hf).1) h
  · intro pos budget header hpos hheader
    have hrun := decode_stream_iterate (decode_frame_decoder true none _) h
    rcases (hpos.under_window hrun).decodes hrun with hnil | ⟨f, hf⟩
    · rw [hnil] at hheader
      exact nomatch hheader
    · exact (decode_frame_window.mp hf).2 header hheader
  · rintro ⟨h, hall⟩
    exact decode_stream_transfer (fun pos budget f hpos hf =>
      decode_frame_window.mpr ⟨hf, fun header hheader => hall pos budget header hpos hheader⟩) h
  · exact decode_frame_skippable nibble hbody rest m none (some w)

/-- `http_profile_exact` on the frame of three blocks twice, with a skippable frame between. -/
theorem http_profile_exact_three_blocks :
    decompress_capped (three_blocks ++ skippable_frame 3 [1, 2] ++ three_blocks) 28
        = .ok (three_blocks_content ++ three_blocks_content) ∧
      decode_frame (skippable_frame 3 [1, 2] ++ three_blocks) true 14 none
        (some HTTP_MAX_WINDOW_SIZE)
        = .ok ⟨[], 10, []⟩ := by
  have h : decompress_http (three_blocks ++ skippable_frame 3 [1, 2] ++ three_blocks) 28
      = .ok (three_blocks_content ++ three_blocks_content) := by decide +kernel
  exact ⟨((http_profile_exact.1 _ _ _).mp h).1,
    http_profile_exact.2 3 [1, 2] three_blocks 14 HTTP_MAX_WINDOW_SIZE (by decide)⟩

end ZstdPure
