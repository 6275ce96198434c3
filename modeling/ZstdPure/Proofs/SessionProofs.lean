import ZstdPure.Proofs.LockstepProofs
import ZstdPure.Proofs.LongParseProofs

/-!
# Proofs: the blocks of a session

What a session keeps from block to block, and the block loop: the decoder follows it to the end of
the data. -/

namespace ZstdPure.Encode

open Outcome Sequences BlockState

/-! ## Sessions -/

/-- The indices of a session hold positions before `next` only, and its repeat offsets fit 32 bits.
-/
structure Session.Sound (data : Bytes) (next : Nat) (s : Session) : Prop where
  finder : s.finder.Sound data next
  ldm : ∀ st, s.ldm = some st → st.Before next
  fits : Fits32 s.state.rep

theorem Session.Sound.append {data : Bytes} {next : Nat} {s : Session} (h : s.Sound data next)
    (more : Bytes) : s.Sound (data ++ more) next :=
  ⟨h.finder.append more, h.ldm, h.fits⟩

/-- A parse without alternatives is not chosen from. -/
theorem emit_and_pick_single (last : Bool) (c : Candidate) (prev : EncTables) (depth : Nat) :
    emit_and_pick last ⟨c, []⟩ prev depth = emit_candidate last prev depth c := rfl

/-- The repeat offsets kept are those before the block, or those of a candidate. -/
theorem choose_block_rep (store : Bytes) (e : EncState) (last : Bool) (parsed : Parsed)
    (depth : Nat) :
    (choose_block store e (emit_and_pick last parsed e.tables depth)).state.rep = e.rep ∨
      ∃ c ∈ parsed.primary :: parsed.alts,
        (choose_block store e (emit_and_pick last parsed e.tables depth)).state.rep = c.rep := by
  unfold choose_block
  split_ifs
  · obtain ⟨c, hc, hpick⟩ := emit_and_pick_mem last parsed e.tables depth
    exact Or.inr ⟨c, hc, by rw [hpick]; rfl⟩
  · exact Or.inl rfl

section Blocks

variable {e : FrameEnv} {data pre : Bytes} {window start stop : Nat} {s s' : Session}
  {d : BlockState} {last : Bool} {bytes : Bytes}

/-- No part of the encoder searches beyond the window. -/
structure FrameEnv.SearchesIn (e : FrameEnv) (window : Nat) : Prop where
  regular : e.regular_reach ≤ window
  max_offset : e.max_offset ≤ window

theorem FrameEnv.SearchesIn.mono {wider : Nat} (h : e.SearchesIn window) (hle : window ≤ wider) :
    e.SearchesIn wider :=
  ⟨h.regular.trans hle, h.max_offset.trans hle⟩

/-- The candidates of a block, and the session after it, however the block is parsed. -/
theorem encode_block_parsed (hcast : e.cast = asI32) (hs : s.Sound data start)
    (hdata : data.length < 2 ^ 31) (hrange : start ≤ stop) (hin : stop ≤ data.length)
    (hblock : stop - start ≤ BLOCK_SIZE_MAX) (hwin : e.SearchesIn window)
    (henc : encode_block e last data start stop s = (bytes, s')) :
    ∃ parsed : Parsed,
      (∀ c ∈ parsed.primary :: parsed.alts, ValidParse data start stop s.state.rep c) ∧
      (Within window s.state.rep → ∀ c ∈ parsed.primary :: parsed.alts, Near window c.parse.seqs) ∧
      choose_block (write_store_block last (range_of data start stop)) s.state
        (emit_and_pick last parsed s.state.tables e.split_depth) = ⟨bytes, s'.state⟩ ∧
      s'.finder.Sound data stop ∧ ∀ st, s'.ldm = some st → st.Before stop := by
  have hmax : BLOCK_SIZE_MAX = 131072 := rfl
  obtain ⟨finder, ldm, state⟩ := s
  obtain ⟨hfinder, hldm, hfits⟩ := hs
  obtain ⟨cast, regular_reach, max_offset, split_depth⟩ := e
  subst hcast
  cases ldm with
  | none =>
    have hreach : min max_offset data.length ≤ data.length := min_le_right _ _
    have ha : finder.Accepts data start stop max_offset :=
      ⟨hrange, hin, by omega, by omega, hfinder.candidates_lt hblock⟩
    obtain ⟨hvalid, hsound⟩ := hfinder.parse ha hfits
    have heq : encode_block ⟨asI32, regular_reach, max_offset, split_depth⟩ last data start stop
        ⟨finder, none, state⟩ =
          let r := finder.parse asI32 data start stop max_offset state.rep
          let chosen := choose_block (write_store_block last (range_of data start stop)) state
            (emit_and_pick last r.1 state.tables split_depth)
          (chosen.bytes, ⟨r.2, none, chosen.state⟩) := by
      unfold encode_block write_compressed_block
      dsimp only
    rw [heq] at henc
    obtain ⟨rfl, rfl⟩ := Prod.mk.inj henc
    exact ⟨_, hvalid, fun hrep c hc => (finder.parse_near hwin.max_offset hrep _ data start stop c
      hc).seqs,
      rfl, hsound, fun st hst => absurd hst (by simp)⟩
  | some st =>
    obtain ⟨hordered, hmatches, hbefore⟩ := @LdmState.generate_spec data start stop regular_reach
      max_offset hdata hin st (hldm st rfl) hrange
    obtain ⟨hvalid, hsound, -⟩ := @parse_with_ldm_sound data start stop regular_reach state.rep
      (by omega)
      hrange hin hblock finder hfinder hfits regular_reach max_offset _ hordered hmatches
    have heq : encode_block ⟨asI32, regular_reach, max_offset, split_depth⟩ last data start stop
        ⟨finder, some st, state⟩ =
          let found := st.generate asI32 data start stop regular_reach max_offset
          let r := parse_with_ldm asI32 finder data start stop regular_reach state.rep found.1
          let chosen := choose_block (write_store_block last (range_of data start stop)) state
            (emit_and_pick last ⟨r.1, []⟩ state.tables split_depth)
          (chosen.bytes, ⟨r.2, some found.2, chosen.state⟩) := by
      unfold encode_block write_compressed_block_ldm
      dsimp only
      rw [emit_and_pick_single]
    rw [heq] at henc
    obtain ⟨rfl, rfl⟩ := Prod.mk.inj henc
    refine ⟨_, ?_, ?_, rfl, hsound, ?_⟩
    · intro c hc
      rw [List.mem_singleton.mp hc]
      exact hvalid
    · intro hrep c hc
      rw [List.mem_singleton.mp hc]
      exact (parse_with_ldm_near hwin.regular hrep _ finder data start stop
        fun m hm => (hmatches m hm).reach.trans hwin.max_offset).seqs
    · intro st' hst'
      rw [← Option.some.inj hst']
      exact hbefore

/-- The decoder follows one block of a session. -/
theorem encode_block_run (hcast : e.cast = asI32) (hs : s.Sound data start)
    (hdata : data.length < 2 ^ 31) (hwin : e.SearchesIn window) (hrel : s.state.RelatedTo d)
    (h : Ready data pre start stop (stop - start) d)
    (henc : encode_block e last data start stop s = (bytes, s')) (before rest : Bytes)
    (hsrc : (before ++ (bytes ++ rest)).length < 2 ^ 63) :
    ∃ d', BlocksRun (before ++ (bytes ++ rest)) ⟨d, before.length, false⟩
        ⟨d', before.length + bytes.length, last⟩ ∧
      Decoded window data pre stop d d' ∧ s'.state.RelatedTo d' ∧ s'.Sound data stop ∧
      ∃ seqs, WrittenFrom data start stop s.state last e.split_depth bytes seqs ∧
        KnowsAlong s.state.rep d.rep seqs s'.state.rep d'.rep := by
  obtain ⟨parsed, hvalid, hnear, hchosen, hfinder, hldm⟩ :=
    encode_block_parsed hcast hs hdata h.range h.inside h.limit_max hwin henc
  have hinside := h.inside
  have hfields : ∀ c ∈ parsed.primary :: parsed.alts,
      (∀ q ∈ c.parse.seqs, q.offset_value < 2 ^ 32) ∧ Fits32 c.rep := by
    intro c hc
    obtain ⟨q, hq, hreplays, -⟩ := hvalid c hc
    exact hreplays.fields hs.fits (by omega)
  obtain ⟨d', hrun, hdec, hrel', -, halong⟩ :=
    choose_block_run hrel h hvalid (fun c hc => (hfields c hc).1)
    hnear last e.split_depth before rest hchosen hsrc
  refine ⟨d', hrun, hdec, hrel', ⟨hfinder, hldm, ?_⟩, halong⟩
  have hrep := choose_block_rep (write_store_block last (range_of data start stop)) s.state last
    parsed
    e.split_depth
  rw [hchosen] at hrep
  rcases hrep with hrep | ⟨c, hc, hrep⟩
  · show Fits32 s'.state.rep
    rw [hrep]
    exact hs.fits
  · show Fits32 s'.state.rep
    rw [hrep]
    exact (hfields c hc).2

/-! ## The block loop -/

/-- The decoder before the bytes from `start` on, with room for all of them. -/
structure RoomFor (data pre : Bytes) (start : Nat) (d : BlockState) : Prop where
  out : d.out = pre ++ data.take start
  dict : d.dict_len ≤ pre.length + start
  block_max : min (data.length - start) BLOCK_SIZE_MAX ≤ d.block_max
  ceiling : pre.length + data.length ≤ d.dict_len + d.max_output
  word : pre.length + data.length < 2 ^ 63

/-- The block loop cuts the data into blocks that the decoder has room for. -/
theorem RoomFor.ready (h : RoomFor data pre start d) (hstart : start < data.length) :
    Ready data pre start (min (start + BLOCK_SIZE_MAX) data.length)
      (min (start + BLOCK_SIZE_MAX) data.length - start) d := by
  have hceiling := h.ceiling
  have hblock := h.block_max
  exact ⟨h.out, h.dict, by omega, by omega, le_refl _, by omega, by omega, by omega, h.word⟩

theorem RoomFor.next {d' : BlockState} (h : RoomFor data pre start d) (hle : start ≤ stop)
    (hdec : Decoded window data pre stop d d') : RoomFor data pre stop d' := by
  have hsame := hdec.same
  have hdict := h.dict
  have hblock := h.block_max
  refine ⟨hdec.out, ?_, ?_, ?_, h.word⟩
  · rw [hsame.dict_len]
    omega
  · rw [hsame.block_max]
    omega
  · rw [hsame.dict_len, hsame.max_output]
    exact h.ceiling

theorem encode_blocks_next (e : FrameEnv) (ends : Bool) (s : Session) (hstart : start < data.length)
    (hstop : min (start + BLOCK_SIZE_MAX) data.length = stop)
    (henc : encode_block e (ends && stop == data.length) data start stop s = (bytes, s')) :
    encode_blocks e ends data start s = bytes ++ encode_blocks e ends data stop s' := by
  rw [encode_blocks, if_pos hstart]
  dsimp only
  rw [hstop, henc]

theorem encode_blocks_end (e : FrameEnv) (ends : Bool) (data : Bytes) (s : Session) :
    encode_blocks e ends data data.length s = [] := by
  rw [encode_blocks, if_neg (Nat.lt_irrefl _)]

/-- The block loop over `data[start..]` beside a decoder: before and after every block the states of
both sides belong together, the block puts out its bytes, and along its sequences the decoder has
the repeat offsets that the encoder knows. -/
inductive LockstepRun (e : FrameEnv) (ends : Bool) (data src : Bytes) :
    Nat → Session → BlockPos → BlockPos → Prop
  | done {s : Session} {p : BlockPos} (related : s.state.RelatedTo p.state) :
    LockstepRun e ends data src data.length s p p
  | block {start stop : Nat} {bytes : Bytes} {seqs : List Seq} {s s' : Session}
      {p p' p_out : BlockPos}
    (inside : start < data.length)
    (next : min (start + BLOCK_SIZE_MAX) data.length = stop)
    (encoded : encode_block e (ends && stop == data.length) data start stop s = (bytes, s'))
    (related : s.state.RelatedTo p.state)
    (decoded : BlocksRun src p p')
    (out : p'.state.out = p.state.out ++ range_of data start stop)
    (written : WrittenFrom data start stop s.state (ends && stop == data.length) e.split_depth bytes
      seqs)
    (along : KnowsAlong s.state.rep p.state.rep seqs s'.state.rep p'.state.rep)
    (rest : LockstepRun e ends data src stop s' p' p_out) :
    LockstepRun e ends data src start s p p_out

theorem LockstepRun.blocks {ends : Bool} {src : Bytes} {p p' : BlockPos}
    (h : LockstepRun e ends data src start s p p') : Relation.ReflTransGen (NextBlock src) p
      p' := by
  induction h with
  | done => exact .refl
  | block _ _ _ _ decoded _ _ _ _ ih => exact decoded.to_reflTransGen.trans ih

/-- In lockstep, the decoder reads all the blocks. -/
theorem LockstepRun.run {ends : Bool} {src : Bytes} {p p' : BlockPos}
    (h : LockstepRun e ends data src start s p p') (hstart : start < data.length) :
    BlocksRun src p p' := by
  cases h with
  | done => exact absurd hstart (Nat.lt_irrefl _)
  | block _ _ _ _ decoded _ _ _ rest => exact decoded.trans_left rest.blocks

/-- The decoder follows the block loop to the end of the data, and the last block is the last one of
the frame if the loop ends the frame. -/
theorem encode_blocks_lockstep (hcast : e.cast = asI32) (hdata : data.length < 2 ^ 31)
    (hwin : e.SearchesIn window) (ends : Bool) (rest : Bytes) (n : Nat) :
    ∀ {start : Nat} {s : Session} {d : BlockState},
    data.length - start ≤ n → start < data.length → s.Sound data start → s.state.RelatedTo d →
    RoomFor data pre start d → ∀ before : Bytes,
    (before ++ (encode_blocks e ends data start s ++ rest)).length < 2 ^ 63 →
    ∃ d', LockstepRun e ends data (before ++ (encode_blocks e ends data start s ++ rest)) start s
        ⟨d, before.length, false⟩
        ⟨d', before.length + (encode_blocks e ends data start s).length, ends⟩ ∧
      Decoded window data pre data.length d d' := by
  induction n with
  | zero => intro start s d hn hstart; omega
  | succ n ih =>
    intro start s d hn hstart hs hrel hroom before hsrc
    have hmax : BLOCK_SIZE_MAX = 131072 := rfl
    obtain ⟨stop, hstop⟩ : ∃ stop, min (start + BLOCK_SIZE_MAX) data.length = stop := ⟨_, rfl⟩
    obtain ⟨bytes, s', henc⟩ : ∃ bytes s',
        encode_block e (ends && stop == data.length) data start stop s = (bytes, s') := ⟨_, _, rfl⟩
    have hready := hroom.ready hstart
    rw [hstop] at hready
    rw [encode_blocks_next e ends s hstart hstop henc, List.append_assoc] at hsrc ⊢
    obtain ⟨d₁, hrun₁, hdec₁, hrel₁, hs₁, seqs, hwritten, halong⟩ :=
      encode_block_run hcast hs hdata hwin hrel hready henc before _ hsrc
    have hout₁ : d₁.out = d.out ++ range_of data start stop := by
      rw [hdec₁.out, hready.out, List.append_assoc, take_append_range data hready.range]
    by_cases hend : stop = data.length
    · -- the last block of the data
      subst hend
      rw [encode_blocks_end, List.nil_append] at hsrc hrun₁ ⊢
      rw [List.append_nil]
      have hends : (ends && data.length == data.length) = ends := by
        rw [beq_self_eq_true, Bool.and_true]
      refine ⟨d₁, .block hstart hstop henc hrel ?_ hout₁ hwritten halong (.done hrel₁), hdec₁⟩
      rw [hends] at hrun₁
      exact hrun₁
    · have hlast : (ends && stop == data.length) = false := by
        rw [beq_eq_false_iff_ne.mpr hend, Bool.and_false]
      rw [hlast, ← List.append_assoc] at hrun₁
      rw [← List.append_assoc] at hsrc ⊢
      obtain ⟨d₂, hrun₂, hdec₂⟩ := ih (by omega) (by omega) hs₁ hrel₁
        (hroom.next (by omega) hdec₁) (before ++ bytes) hsrc
      rw [List.length_append, Nat.add_assoc] at hrun₂
      refine ⟨d₂, ?_, hdec₁.trans hdec₂⟩
      rw [List.length_append]
      exact .block hstart hstop henc hrel hrun₁ hout₁ hwritten halong hrun₂

theorem encode_blocks_run (hcast : e.cast = asI32) (hdata : data.length < 2 ^ 31)
    (hwin : e.SearchesIn window) (ends : Bool) (hstart : start < data.length)
      (hs : s.Sound data start)
    (hrel : s.state.RelatedTo d) (hroom : RoomFor data pre start d) (before rest : Bytes)
    (hsrc : (before ++ (encode_blocks e ends data start s ++ rest)).length < 2 ^ 63) :
    ∃ d', BlocksRun (before ++ (encode_blocks e ends data start s ++ rest)) ⟨d, before.length,
      false⟩
        ⟨d', before.length + (encode_blocks e ends data start s).length, ends⟩ ∧
      Decoded window data pre data.length d d' := by
  obtain ⟨d', hrun, hdec⟩ := encode_blocks_lockstep hcast hdata hwin ends rest _ (le_refl _) hstart
    hs hrel
    hroom before hsrc
  exact ⟨d', hrun.run hstart, hdec⟩

end Blocks

end ZstdPure.Encode
