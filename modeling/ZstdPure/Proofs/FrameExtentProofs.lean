import ZstdPure.Proofs.CeilingProofs

/-!
# The extent of a frame

The headers of a frame and of its blocks say where the frame ends. A frame that decodes ends there.
-/

namespace ZstdPure

open Outcome BlockState

/-- The length of the body of a block. -/
def BlockHeader.body_len (h : BlockHeader) : Nat := if h.block_type = 1 then 1 else h.block_size

/-- Where the blocks from `pos` on end by their headers; `n` bounds the walk. -/
def blocks_end (src : Bytes) : Nat → Nat → Option Nat
  | 0, _ => none
  | n + 1, pos =>
    match header_at src pos with
    | .error _ => none
    | .ok h =>
      if h.last then some (pos + 3 + h.body_len) else blocks_end src n (pos + 3 + h.body_len)

/-- A skippable frame. -/
def is_skippable (src : Bytes) : Bool :=
  match decode_front src true with
  | .ok (.skippable _) => true
  | _ => false

/-- The length of the frame at the front of `src` by its headers. -/
def frame_extent (src : Bytes) : Option Nat :=
  match decode_front src true with
  | .error _ => none
  | .ok (.skippable n) => some n
  | .ok (.frame pos) =>
    match parse_frame_header (src.drop pos) with
    | .error _ => none
    | .ok h =>
      (blocks_end src (src.length + 1) (pos + h.header_len)).map fun stop =>
        stop + if h.has_checksum then 4 else 0

section

variable {src : Bytes} {f : DecodedFrame} {m : Nat}

/-- A block ends where its header says. -/
theorem decode_block_header {p p' : BlockPos} (h : decode_block src p = .ok p') :
    ∃ header, header_at src p.pos = .ok header ∧ p'.pos = p.pos + 3 + header.body_len ∧
      p'.last = header.last := by
  rw [decode_block] at h
  obtain ⟨r, hr, h⟩ := bind_eq_ok.mp h
  rw [← Except.ok.inj h]
  cases decode_block_at_cases hr with
  | raw hheader htype => exact ⟨_, hheader, by rw [BlockHeader.body_len, if_neg (by omega)], rfl⟩
  | rle hheader htype => exact ⟨_, hheader, by rw [BlockHeader.body_len, if_pos htype], rfl⟩
  | compressed hheader htype =>
    exact ⟨_, hheader, by rw [BlockHeader.body_len, if_neg (by omega)], rfl⟩

/-- The block loop ends where the headers say. -/
theorem BlocksIterate.blocks_end {p q : BlockPos} (h : BlocksIterate src p q) :
    p.last = false → ∀ n, src.length - p.pos < n → blocks_end src n p.pos = some q.pos := by
  induction h with
  | stop hc =>
    intro hlast
    rw [hlast] at hc
    exact absurd hc (by decide)
  | @step p p' q hc hbody hrest ih =>
    intro _ n hn
    obtain ⟨header, hheader, hpos, hlast⟩ := decode_block_header hbody
    have hlt := decode_block_pos_lt hbody
    have hle := decode_block_pos_le hbody
    obtain ⟨n, rfl⟩ := Nat.exists_eq_succ_of_ne_zero (Nat.ne_zero_of_lt hn)
    rw [ZstdPure.blocks_end, hheader]
    dsimp only
    rw [← hpos, ← hlast]
    cases hl : p'.last with
    | true =>
      rw [if_pos rfl]
      cases hrest with
      | stop _ => rfl
      | step hc' => exact absurd hc' (by rw [hl]; decide)
    | false =>
      rw [if_neg (by decide)]
      exact ih hl n (by omega)

theorem frame_end_pos {data : Bytes} {declared : Option Nat} {has_checksum : Bool} {pos stop : Nat}
    (h : frame_end src declared has_checksum data pos = .ok stop) :
    stop = pos + if has_checksum then 4 else 0 := by
  rw [frame_end] at h
  obtain ⟨_, -, h⟩ := bind_eq_ok.mp h
  cases has_checksum with
  | false => exact (Except.ok.inj h).symm
  | true =>
    rw [if_pos rfl, verify_checksum] at h
    obtain ⟨stop', hstop, h⟩ := bind_eq_ok.mp h
    obtain ⟨-, h⟩ := guard_eq_ok.mp h
    obtain ⟨stored, -, h⟩ := bind_eq_ok.mp h
    obtain ⟨-, h⟩ := guard_eq_ok.mp h
    obtain rfl := Except.ok.inj h
    exact (add_eq_ok.mp hstop).2

/-- A skippable frame decodes to nothing under every ceiling. -/
theorem decode_one_front_skippable {n : Nat} (h : decode_front src true = .ok (.skippable n))
    (m : Nat) :
    decode_one src true m = .ok ⟨[], n, []⟩ := by
  rw [decode_one, decode_one_with_dict, decode_frame, h, bind_ok]
  rfl

/-- A frame that decodes has its extent by the headers, and a skippable frame has no output. -/
theorem frame_extent_of_decode (h : decode_one src true m = .ok f) :
    frame_extent src = some f.consumed ∧ (is_skippable src = true → f.data = []) := by
  have h' := h
  rw [decode_one, decode_one_with_dict, decode_frame_eq] at h'
  obtain ⟨start, hstart, hrest⟩ := bind_eq_ok.mp h'
  rw [frame_start] at hstart
  obtain ⟨front, hfront, hstart⟩ := bind_eq_ok.mp hstart
  rw [frame_extent, is_skippable, hfront]
  cases front with
  | skippable n =>
    rw [decode_one_front_skippable hfront] at h
    obtain rfl := Except.ok.inj h
    exact ⟨rfl, fun _ => rfl⟩
  | frame pos =>
    dsimp only at hstart ⊢
    refine ⟨?_, fun hs => absurd hs (by decide)⟩
    obtain ⟨rest, hdrop, hstart⟩ := bind_eq_ok.mp hstart
    obtain ⟨header, hheader, hstart⟩ := bind_eq_ok.mp hstart
    obtain ⟨pos', hpos, hstart⟩ := bind_eq_ok.mp hstart
    obtain ⟨_, -, hstart⟩ := bind_eq_ok.mp hstart
    obtain ⟨cap, -, hstart⟩ := bind_eq_ok.mp hstart
    obtain ⟨_, -, hstart⟩ := bind_eq_ok.mp hstart
    obtain rfl := Except.ok.inj hstart
    dsimp only at hrest
    obtain ⟨p, hp, -, -, hend⟩ := frame_rest_ok hrest
    have hblocks := BlocksIterate.blocks_end (decode_blocks_iterate hp) rfl (src.length + 1)
      (by omega)
    dsimp only at hblocks hend
    obtain rfl := (add_eq_ok.mp hpos).2
    rw [(sliceFrom_eq_ok.mp hdrop).2] at hheader
    rw [hheader]
    dsimp only
    rw [hblocks, frame_end_pos hend]
    rfl

theorem blocks_end_gt : ∀ (n pos : Nat) {stop : Nat}, blocks_end src n pos = some stop →
    pos < stop := by
  intro n
  induction n with
  | zero => intro pos stop h; exact absurd h (by simp [blocks_end])
  | succ n ih =>
    intro pos stop h
    rw [blocks_end] at h
    split at h
    · exact absurd h (by simp)
    · split_ifs at h
      · have := Option.some.inj h
        omega
      · have := ih _ h
        omega

/-- No frame is empty. -/
theorem frame_extent_pos {n : Nat} (h : frame_extent src = some n) : 0 < n := by
  rw [frame_extent] at h
  split at h
  · exact absurd h (by simp)
  · rename_i k hfront
    have hdecode := decode_one_front_skippable hfront 0
    obtain rfl := Option.some.inj h
    exact decode_frame_consumed_pos _ hdecode
  · split at h
    · exact absurd h (by simp)
    · obtain ⟨stop, hstop, rfl⟩ := Option.map_eq_some_iff.mp h
      have := blocks_end_gt _ _ hstop
      omega

end

end ZstdPure
